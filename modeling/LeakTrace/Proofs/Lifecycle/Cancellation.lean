import LeakTrace.Lifecycle.Abort

/-!
# No cancellation is lost

Threads that cancel, register work and forget it share one handle. The list of registered work is
behind a lock, which a walk over the list keeps to its end, and a registration from its look at the
flag to its entry. The flag is raised without the lock, so that this falls between any two steps of
others, and long before the walk; a second call finds the flag up and does nothing at all.

**Once a walk is complete, whatever is registered was stopped**, and keeps the reason it was given
first: `AbortHandle.Shared.stopped_of_walked` says so for every order of the steps.
-/

namespace LeakTrace
open List

namespace Reasons
variable {rs rs' : Reasons} {i : Nat}

/-- Nothing that was stopped gets another reason. -/
structure Kept (rs rs' : Reasons) : Prop where
  reason : ∀ (i : Nat) r, rs[i]? = some (some r) → rs'[i]? = some (some r)
  length : rs'.length = rs.length

theorem Kept.refl (rs : Reasons) : rs.Kept rs := ⟨fun _ _ h => h, rfl⟩

theorem Kept.trans {rs'' : Reasons} (h : rs.Kept rs') (h' : rs'.Kept rs'') : rs.Kept rs'' :=
  ⟨fun i r hr => h'.reason i r (h.reason i r hr), h'.length.trans h.length⟩

theorem kept_stop (rs : Reasons) (i : Nat) (r : StopReason) : rs.Kept (rs.stop i r) := by
  refine ⟨fun j old hold => ?_, by simp [stop]⟩
  rw [stop, getElem?_modify, hold]
  by_cases hij : i = j <;> simp [hij]

def Stopped (rs : Reasons) (i : Nat) : Prop := ∃ r, rs[i]? = some (some r)

theorem Kept.stopped (h : rs.Kept rs') (hi : rs.Stopped i) : rs'.Stopped i :=
  hi.imp fun r => h.reason i r

theorem stopped_stop (hi : i < rs.length) (r : StopReason) : (rs.stop i r).Stopped i := by
  unfold Stopped
  rw [stop, getElem?_modify, getElem?_eq_getElem hi]
  cases rs[i] <;> simp

end Reasons

namespace AbortHandle

/-- What a thread with the lock does next. -/
inductive Holder where
  /-- It stops the rest of what is registered. -/
  | walk (rest : List Nat)
  /-- It looks at the flag, for work that registers. -/
  | check (i : Nat)
  | enlist (i : Nat)
deriving DecidableEq, Repr

structure Shared where
  handle : AbortHandle := {}
  reasons : Reasons
  /-- How many threads found the flag down, raised it, and wait for the lock. -/
  pending : Nat := 0
  /-- The thread that has the lock. -/
  holder : Option Holder := none
  /-- Some thread has completed its walk. -/
  walked : Bool := false

inductive Act where
  /-- It calls to cancel, and raises the flag. -/
  | abort
  | walk
  | register (i : Nat)
  | proceed
  | clear
  /-- It stops work for a reason of its own. -/
  | stop (i : Nat) (r : StopReason)

namespace Shared
variable {h : Shared}

def proceed (h : Shared) : Shared :=
  match h.holder with
  | none => h
  | some (.walk []) => { h with holder := none, walked := true }
  | some (.walk (i :: rest)) =>
    { h with reasons := h.reasons.stop i .cancelled, holder := some (.walk rest) }
  | some (.check i) =>
    { h with reasons := if h.handle.aborted then h.reasons.stop i .cancelled else h.reasons
             holder := some (.enlist i) }
  | some (.enlist i) =>
    { h with handle := { h.handle with registered := h.handle.registered ++ [i] }, holder := none }

/-- A thread that finds the lock taken does not get on, and nothing happens. -/
def act (h : Shared) : Act → Shared
  | .abort => { h with handle := h.handle.raise.2
                       pending := if h.handle.raise.1 then h.pending + 1 else h.pending }
  | .walk =>
    if h.holder = none ∧ 0 < h.pending then
      { h with pending := h.pending - 1, holder := some (.walk h.handle.registered) }
    else h
  | .register i =>
    if h.holder = none ∧ i < h.reasons.length then { h with holder := some (.check i) } else h
  | .proceed => h.proceed
  | .clear => if h.holder = none then { h with handle := h.handle.clear } else h
  | .stop i r => { h with reasons := h.reasons.stop i r }

def run (h : Shared) (acts : List Act) : Shared := acts.foldl act h

/-! ## Alone with the handle -/

theorem run_walk {rest : List Nat} (hh : h.holder = some (.walk rest)) :
    h.run (replicate (rest.length + 1) .proceed) =
      { h with reasons := h.reasons.stopAll rest .cancelled, holder := none, walked := true } := by
  induction rest generalizing h with
  | nil => simp [run, act, proceed, hh, Reasons.stopAll]
  | cons i rest ih =>
    rw [length_cons, replicate_succ, run, foldl_cons, ← run]
    have hstep : h.act .proceed =
        { h with reasons := h.reasons.stop i .cancelled, holder := some (.walk rest) } := by
      simp [act, proceed, hh]
    rw [hstep, ih rfl]
    rfl

/-- Steps that nobody comes between are a call to cancel. -/
theorem run_abort (hfree : h.holder = none) (hdown : h.handle.aborted = false) :
    let h' := h.run (.abort :: .walk :: replicate (h.handle.registered.length + 1) .proceed)
    (h'.handle, h'.reasons) = h.handle.abort h.reasons := by
  have hwalk : (h.act .abort).act .walk =
      { h with handle := h.handle.raise.2, holder := some (.walk h.handle.registered) } := by
    simp [act, raise, hfree, hdown]
  rw [run, foldl_cons, foldl_cons, hwalk, ← run, run_walk rfl]
  simp [abort, raise, hdown, AbortHandle.walk]

/-- Steps that nobody comes between are a registration. -/
theorem run_register (hfree : h.holder = none) {i : Nat} (hi : i < h.reasons.length) :
    let h' := h.run [.register i, .proceed, .proceed]
    (h'.handle, h'.reasons) = h.handle.register i h.reasons := by
  simp [run, act, hfree, hi, proceed, register]

/-! ## Among others -/

theorem kept_act (h : Shared) (a : Act) : h.reasons.Kept (h.act a).reasons := by
  cases a with
  | abort => exact .refl _
  | walk | register | clear =>
    simp only [act]
    split <;> exact .refl _
  | stop i r => exact Reasons.kept_stop _ i r
  | proceed =>
    simp only [act, proceed]
    split
    · exact .refl _
    · exact .refl _
    · exact Reasons.kept_stop _ _ _
    · dsimp only
      split
      · exact Reasons.kept_stop _ _ _
      · exact .refl _
    · exact .refl _

theorem kept_run (h : Shared) (acts : List Act) : h.reasons.Kept (h.run acts).reasons := by
  induction acts generalizing h with
  | nil => exact .refl _
  | cons a acts ih => exact (kept_act h a).trans (ih (h.act a))

/-- How far a cancellation has come. -/
structure Reaches (h : Shared) : Prop where
  /-- Nobody is on the way to the list with the flag down. -/
  raised : h.handle.aborted = false →
    h.pending = 0 ∧ (∀ rest, h.holder ≠ some (.walk rest)) ∧ h.walked = false
  known : ∀ i ∈ h.handle.registered, i < h.reasons.length
  entering : ∀ i, h.holder = some (.check i) ∨ h.holder = some (.enlist i) → i < h.reasons.length
  /-- A walk has stopped what is not before it; the list stays as it is meanwhile. -/
  walking : ∀ rest, h.holder = some (.walk rest) →
    ∀ i ∈ h.handle.registered, i ∈ rest ∨ h.reasons.Stopped i
  listed : h.walked = true → ∀ i ∈ h.handle.registered, h.reasons.Stopped i
  /-- Who looked at the flag after a walk found it up. -/
  enlisted : h.walked = true → ∀ i, h.holder = some (.enlist i) → h.reasons.Stopped i

theorem reaches_new (rs : Reasons) : Reaches { reasons := rs } := by
  constructor <;> simp

theorem Reaches.stop (hh : h.Reaches) (i : Nat) (r : StopReason) :
    Reaches { h with reasons := h.reasons.stop i r } := by
  have hkept := Reasons.kept_stop h.reasons i r
  exact {
    raised := hh.raised
    known := fun j hj => hkept.length ▸ hh.known j hj
    entering := fun j hj => hkept.length ▸ hh.entering j hj
    walking := fun rest hrest j hj => (hh.walking rest hrest j hj).imp_right hkept.stopped
    listed := fun hw j hj => hkept.stopped (hh.listed hw j hj)
    enlisted := fun hw j hj => hkept.stopped (hh.enlisted hw j hj) }

theorem Reaches.proceed (hh : h.Reaches) : h.proceed.Reaches := by
  unfold Shared.proceed
  split
  · exact hh
  · next hwalk =>
    -- the walk is complete: nothing is before it any more
    have hall : ∀ i ∈ h.handle.registered, h.reasons.Stopped i := fun i hi =>
      (hh.walking [] hwalk i hi).resolve_left not_mem_nil
    exact { hh with
      raised := fun hdown => absurd hwalk ((hh.raised hdown).2.1 [])
      entering := by simp
      walking := by simp
      listed := fun _ => hall
      enlisted := by simp }
  · next i rest hwalk =>
    have hi := hh.stop i .cancelled
    refine { hi with
      raised := fun hdown => absurd hwalk ((hh.raised hdown).2.1 _)
      entering := by simp
      walking := ?_
      enlisted := by simp }
    rintro _ ⟨⟩ j hj
    rcases hi.walking _ hwalk j hj with hmem | hstopped
    · rcases mem_cons.mp hmem with rfl | hmem
      · exact .inr (Reasons.stopped_stop (hh.known j hj) _)
      · exact .inl hmem
    · exact .inr hstopped
  · next i hcheck =>
    have hlt := hh.entering i (.inl hcheck)
    cases hflag : h.handle.aborted with
    | false =>
      obtain ⟨hpending, -, hwalked⟩ := hh.raised hflag
      refine { hh with
        raised := fun _ => ⟨hpending, by simp, hwalked⟩
        entering := ?_
        walking := by simp
        enlisted := fun hw => absurd (hwalked.symm.trans hw) (by decide) }
      rintro j (hj | hj) <;> cases hj
      exact hlt
    | true =>
      refine { hh.stop i .cancelled with
        raised := fun hdown => absurd (hflag.symm.trans hdown) (by decide)
        entering := ?_
        walking := by simp
        enlisted := ?_ }
      · rintro j (hj | hj) <;> cases hj
        simpa [Reasons.stop] using hlt
      · rintro - j hj
        cases hj
        exact Reasons.stopped_stop hlt _
  · next i henlist =>
    have hlt := hh.entering i (.inr henlist)
    refine {
      raised := fun hdown => ⟨(hh.raised hdown).1, by simp, (hh.raised hdown).2.2⟩
      known := fun j hj => (mem_append.mp hj).elim (hh.known j) fun hj => mem_singleton.mp hj ▸ hlt
      entering := by simp
      walking := by simp
      listed := fun hw j hj => (mem_append.mp hj).elim (hh.listed hw j) fun hj =>
        mem_singleton.mp hj ▸ hh.enlisted hw i henlist
      enlisted := by simp }

/-- **One step** of whichever thread. -/
theorem Reaches.act (hh : h.Reaches) (a : Act) : (h.act a).Reaches := by
  cases a with
  | abort => exact { hh with raised := by simp [Shared.act, raise] }
  | stop i r => exact hh.stop i r
  | proceed => exact hh.proceed
  | walk =>
    simp only [Shared.act]
    split
    · next hlock =>
      refine { hh with
        raised := fun hdown => absurd (hh.raised hdown).1 (Nat.ne_of_gt hlock.2)
        entering := by simp
        walking := ?_
        enlisted := by simp }
      rintro _ ⟨⟩ j hj
      exact .inl hj
    · exact hh
  | register i =>
    simp only [Shared.act]
    split
    · next hlock =>
      refine { hh with
        raised := fun hdown => ⟨(hh.raised hdown).1, by simp, (hh.raised hdown).2.2⟩
        entering := ?_
        walking := by simp
        enlisted := by simp }
      rintro j (hj | hj) <;> cases hj
      exact hlock.2
    · exact hh
  | clear =>
    simp only [Shared.act]
    split
    · exact { hh with known := by simp [clear], walking := by simp [clear], listed := by simp [clear] }
    · exact hh

theorem Reaches.run (hh : h.Reaches) (acts : List Act) : (h.run acts).Reaches := by
  induction acts generalizing h with
  | nil => exact hh
  | cons a acts ih => exact ih (hh.act a)

/-- **A cancellation is never lost.** Threads do their steps in any order. After a walk was completed,
by whichever of them, all work that is registered has a reason to stop and keeps it, whatever comes
later; so does work that registers later, as it is registered then. Nobody's first reason is ever
replaced. -/
theorem stopped_of_walked (rs : Reasons) (acts : List Act) :
    let h := run { reasons := rs } acts
    (h.walked = true → ∀ i, i ∈ h.handle.registered ∨ h.holder = some (.enlist i) →
      ∃ r, ∀ later, (h.run later).reasons[i]? = some (some r)) ∧
    ∀ (i : Nat) r, h.reasons[i]? = some (some r) →
      ∀ later, (h.run later).reasons[i]? = some (some r) := by
  intro h
  have hkept : ∀ (i : Nat) r, h.reasons[i]? = some (some r) →
      ∀ later, (h.run later).reasons[i]? = some (some r) :=
    fun i r hr later => (kept_run h later).reason i r hr
  have hh : h.Reaches := (reaches_new rs).run acts
  refine ⟨fun hwalked i hi => ?_, hkept⟩
  obtain ⟨r, hr⟩ : h.reasons.Stopped i := hi.elim (hh.listed hwalked i) (hh.enlisted hwalked i)
  exact ⟨r, hkept i r hr⟩

/-- Both calls to cancel come after the first registration looked at the flag and before it is in the
list; the second registration comes while the walk is still to be done. -/
def racing : List Act :=
  [.register 0, .proceed, .abort, .abort, .proceed, .register 1, .proceed, .proceed, .walk, .proceed,
    .proceed, .proceed]

theorem stopped_racing :
    let h := run { reasons := [none, some .timeout] } racing
    h.walked = true ∧ h.handle.registered = [0, 1] ∧
      (∃ r, ∀ later, (h.run later).reasons[0]? = some (some r)) ∧
      ∀ later, (h.run later).reasons[1]? = some (some .timeout) :=
  ⟨rfl, rfl, (stopped_of_walked _ racing).1 rfl 0 (.inl (by decide)),
    (stopped_of_walked _ racing).2 1 .timeout rfl⟩

end Shared
end AbortHandle
end LeakTrace
