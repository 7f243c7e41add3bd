import LeakTrace.Solve.Engine

/-!
# What work leaves behind

`m.Ends s act Q` says that an action, run on a machine, ends without a fault in a value and a
machine of which `Q` holds. The equations below push it through the monad, one for each way the
engine puts actions together, so that a statement about a function of the engine is proved along its
text.

**Loops.** The engine loops over lists only. `ends_forM` takes what one round keeps (`P`), how a
round may change the machine (`R`), and what it achieves for its item and later rounds do not undo
(`S`); a loop keeps, changes and achieves the same for all items.
-/

namespace LeakTrace

abbrev Work.enterWith (s : Setup) (side : Side) (callee : MethodId) (call : StmtId) (d1 d3 : Fact) :
    Work Unit := do
  ((s.problem side).view.starts callee).forM fun n => propagate side ⟨d3, n, d3⟩ (some call)
  enter side callee d3 call d1

abbrev Work.passCall (s : Setup) (side : Side) (e : Edge) (site : StmtId) : Work Unit := do
  let flow ← evaluate .callToReturn e.d2 ((s.problem side).callToReturn e.d1 e.d2 e.stmt site)
  propagateAll side e.d1 site e.d2 (some e.stmt) flow.facts

namespace Machine
variable {α β : Type} {s : Setup} {m : Machine} {Q : PUnit → Machine → Prop} {i : Nat}
  {f : β → Work PUnit} {l : List β} {act : Work α}

/-- Run on the machine, the action ends without a fault, in a value and a machine as `Q` wants. -/
def Ends (m : Machine) (s : Setup) (act : Work α) (Q : α → Machine → Prop) : Prop :=
  ∃ a m', m.run s act = (.ok a, m') ∧ Q a m'

@[simp]
theorem ends_pure {a : α} {Q : α → Machine → Prop} : m.Ends s (pure a) Q ↔ Q a m := by
  constructor
  · rintro ⟨b, m', h, hq⟩
    cases h
    exact hq
  · intro h
    exact ⟨a, m, rfl, h⟩

theorem run_bind (x : Work α) (f : α → Work β) :
    m.run s (x >>= f) =
      match m.run s x with
      | (.ok a, m') => m'.run s (f a)
      | (.error e, m') => (.error e, m') := by
  simp only [run, ReaderT.run_bind, ExceptT.run_bind, StateT.run_bind]
  rcases (ReaderT.run x s).run.run m with ⟨r, m'⟩
  cases r <;> rfl

@[simp]
theorem ends_bind {x : Work α} {f : α → Work β} {Q : β → Machine → Prop} :
    m.Ends s (x >>= f) Q ↔ m.Ends s x fun a m' => m'.Ends s (f a) Q := by
  unfold Ends
  rw [run_bind]
  constructor
  · rintro ⟨b, m', h, hq⟩
    rcases hx : m.run s x with ⟨r, m1⟩
    rw [hx] at h
    cases r with
    | error e => exact absurd h (by simp)
    | ok a => exact ⟨a, m1, rfl, b, m', h, hq⟩
  · rintro ⟨a, m1, hx, b, m', h, hq⟩
    rw [hx]
    exact ⟨b, m', h, hq⟩

@[simp]
theorem ends_read {Q : Setup → Machine → Prop} : m.Ends s (read : Work Setup) Q ↔ Q s m :=
  ends_pure (s := s) (a := s)

@[simp]
theorem ends_get {Q : Machine → Machine → Prop} : m.Ends s (get : Work Machine) Q ↔ Q m m :=
  ends_pure (s := s) (a := m)

@[simp]
theorem ends_modify {f : Machine → Machine} {Q : Unit → Machine → Prop} :
    m.Ends s (modify f : Work Unit) Q ↔ Q () (f m) := by
  constructor
  · rintro ⟨b, m', h, hq⟩
    cases h
    exact hq
  · intro h
    exact ⟨(), f m, rfl, h⟩

@[simp]
theorem ends_forM_nil : m.Ends s (([] : List β).forM f) Q ↔ Q () m :=
  ends_pure

@[simp]
theorem ends_forM_cons {x : β} :
    m.Ends s ((x :: l).forM f) Q ↔ m.Ends s (f x) fun _ m' => m'.Ends s (l.forM f) Q :=
  ends_bind

theorem Ends.mono {P Q : α → Machine → Prop} (h : m.Ends s act P) (hpq : ∀ a m', P a m' → Q a m') :
    m.Ends s act Q := by
  obtain ⟨a, m', hrun, hp⟩ := h
  exact ⟨a, m', hrun, hpq a m' hp⟩

theorem Ends.run {Q : α → Machine → Prop} (h : m.Ends s act Q) :
    ∃ a, (m.run s act).1 = .ok a ∧ Q a (m.run s act).2 := by
  obtain ⟨a, m', hrun, hq⟩ := h
  rw [hrun]
  exact ⟨a, rfl, hq⟩

/-- A loop over a list: `P` holds between rounds, `R` bounds what the rounds change, and what a
round achieves for its item outlasts the later rounds. -/
theorem ends_forM {P : Machine → Prop} {R : Machine → Machine → Prop} {S : β → Machine → Prop}
    (hrefl : ∀ m, R m m) (htrans : ∀ {a b c}, R a b → R b c → R a c)
    (hstable : ∀ {x a b}, S x a → R a b → S x b) (hp : P m)
    (hround : ∀ x ∈ l, ∀ a, P a → a.Ends s (f x) fun _ b => P b ∧ R a b ∧ S x b)
    (hpost : ∀ m', P m' → R m m' → (∀ x ∈ l, S x m') → Q () m') : m.Ends s (l.forM f) Q := by
  induction l generalizing m with
  | nil => exact ends_forM_nil.mpr (hpost m hp (hrefl m) (by simp))
  | cons x rest ih =>
    rw [ends_forM_cons]
    refine (hround x List.mem_cons_self m hp).mono fun _ a ⟨hpa, hma, hxa⟩ => ?_
    refine ih hpa (fun y hy => hround y (List.mem_cons_of_mem x hy)) fun b hpb hab hrest => ?_
    refine hpost b hpb (htrans hma hab) fun y hy => ?_
    rcases List.mem_cons.mp hy with rfl | hy
    · exact hstable hxa hab
    · exact hrest y hy

/-! ## Tasks -/

def started (m : Machine) (i : Nat) (t : Task) : Machine :=
  { m with executor :=
    { m.executor with queued := m.executor.queued.eraseIdx i, running := t :: m.executor.running } }

theorem step_of_none (ht : m.executor.queued[i]? = none) : m.step s i = m := by
  unfold Machine.step Executor.start
  rw [ht]

theorem step_of_live {t : Task} (ht : m.executor.queued[i]? = some t)
    (hlive : m.executor.interrupted = false) :
    m.step s i = match (m.started i t).run s (Work.process t.side t.edge) with
      | (.ok (), m') => { m' with executor := m'.executor.finish 0 }
      | (.error message, m') => { m' with executor := m'.executor.fail 0 message } := by
  have hstart : m.executor.start i = (some t, (m.started i t).executor) := by
    unfold started Executor.start
    simp only [ht, hlive, Bool.false_eq_true, if_false]
  unfold Machine.step
  rewrite [hstart]
  rfl

end Machine
end LeakTrace
