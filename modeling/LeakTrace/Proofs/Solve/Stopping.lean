import LeakTrace.Proofs.Solve.Moves
import Mathlib.Data.Nat.Bitwise

/-!
# Why a pass was stopped

The time, the memory and the handle of a run each have a terminator: when it fires, it goes through
the solvers in order and tells each of them to stop. A solver keeps the first reason it is given,
and a pass reports the reasons of both solvers. Terminators run beside the solvers and beside each
other, so their calls come in any order that keeps each walk in its own order.

**A walk can be overtaken between two solvers.** Then the solvers keep different reasons, and the
pass reports both: `Analysis.one_reason_iff_not_overtaken` says that this, and nothing else, is when
a phase has more than one reason.
-/

namespace LeakTrace
open List

variable {r : StopReason}

/-! ## Flags -/

namespace Termination

/-- The phase has at most one of its flags. -/
def OneReason (t : Termination) (phase : Phase) : Prop :=
  ∀ r r', r ≠ .abortRequested → r' ≠ .abortRequested → t.contains (ofReason phase r) = true →
    t.contains (ofReason phase r') = true → r = r'

theorem contains_two_pow (t : Termination) (k : Nat) : t.contains ⟨2 ^ k⟩ = t.bits.testBit k := by
  unfold contains
  rw [Nat.and_two_pow]
  cases t.bits.testBit k <;> simp [(Nat.two_pow_pos k).ne]

def place : Phase → StopReason → Nat
  | .dataFlow, .timeout => 0
  | .dataFlow, .cancelled => 1
  | .dataFlow, .outOfMemory => 2
  | .reconstruction, .timeout => 3
  | .reconstruction, .cancelled => 4
  | .reconstruction, .outOfMemory => 5
  | _, .abortRequested => 6

theorem ofReason_eq_two_pow (phase : Phase) (hr : r ≠ .abortRequested) :
    ofReason phase r = ⟨2 ^ place phase r⟩ := by
  cases phase <;> cases r <;> first | exact absurd rfl hr | rfl

theorem contains_add (t : Termination) (phase : Phase)
    (reason : Option StopReason) (hr : r ≠ .abortRequested) : (t.add phase reason).contains
    (ofReason phase r) ↔ t.contains (ofReason phase r) ∨ reason = some r := by
  rw [ofReason_eq_two_pow phase hr, contains_two_pow, contains_two_pow]
  cases reason with
  | none => simp [add]
  | some r' =>
    have hbit : (ofReason phase r').bits.testBit (place phase r) = decide (r' = r) := by
      cases phase <;> cases r <;> cases r' <;> first | exact absurd rfl hr | decide
    simp [add, union, Nat.testBit_or, hbit]

end Termination

/-! ## Calls of terminators -/

structure StopCall where
  side : Side
  reason : StopReason
deriving DecidableEq, Repr

namespace StopCall
variable {calls : List StopCall} {rest : List Side}

def first (calls : List StopCall) (side : Side) : Option StopReason :=
  (calls.find? (·.side == side)).map (·.reason)

/-- The calls are made by terminators that go through the solvers in order. Each has its own reason;
it may not fire, and need not be through when the calls are looked at. -/
structure Interleaved (sides : List Side) (calls : List StopCall) : Prop where
  walks : ∀ r, calls.filter (·.reason == r) <+: sides.map (⟨·, r⟩)
  reasons : ∀ c ∈ calls, c.reason ≠ .abortRequested

/-- The terminator that was first to make a call is not the first to get to the alias search. -/
def Overtaken (calls : List StopCall) : Prop :=
  ∃ c ∈ calls.head?, ∃ r ∈ first calls .backward, r ≠ c.reason

theorem first_append (calls : List StopCall) (c : StopCall) (side : Side) :
    first (calls ++ [c]) side =
      if c.side = side then StopReason.keepFirst (first calls side) c.reason
      else first calls side := by
  unfold first StopReason.keepFirst
  rw [find?_append]
  by_cases hc : c.side = side
  · cases calls.find? (·.side == side) <;> simp [hc]
  · simp [hc]

theorem mem_of_first {side : Side} (h : first calls side = some r) : ⟨side, r⟩ ∈ calls := by
  obtain ⟨c, hc, rfl⟩ := Option.map_eq_some_iff.mp h
  have hside : c.side = side := by simpa using find?_some hc
  rw [← hside]
  exact mem_of_find?_eq_some hc

variable (h : Interleaved (.forward :: rest) calls)
include h

/-- Every walk begins with the forward solver, so the first call of all goes there. -/
theorem Interleaved.first_eq_head : first calls .forward = calls.head?.map (·.reason) := by
  cases calls with
  | nil => rfl
  | cons c calls =>
    have hwalk := h.walks c.reason
    rw [filter_cons, if_pos (beq_self_eq_true c.reason), map_cons, cons_prefix_cons] at hwalk
    have hside : c.side = .forward := by rw [hwalk.1]
    simp [first, hside]

/-- To overtake is to give the two solvers different reasons. -/
theorem Interleaved.overtaken_iff : Overtaken calls ↔
    ∃ r r', r ≠ r' ∧ first calls .forward = some r ∧ first calls .backward = some r' := by
  rw [h.first_eq_head]
  constructor
  · rintro ⟨c, hc, r, hr, hne⟩
    exact ⟨c.reason, r, hne.symm, by rw [Option.mem_def.mp hc]; rfl, hr⟩
  · rintro ⟨r, r', hne, hforward, hbackward⟩
    obtain ⟨c, hc, rfl⟩ := Option.map_eq_some_iff.mp hforward
    exact ⟨c, hc, r', hbackward, hne.symm⟩

end StopCall

/-! ## Passes among terminators -/

inductive Incident where
  | seed (sources : List StmtId)
  | task (i : Nat)
  | stop (call : StopCall)

def Incident.call? : Incident → Option StopCall
  | .stop c => some c
  | _ => none

def Incident.calls (l : List Incident) : List StopCall := l.filterMap call?

namespace Machine

def meet (s : Setup) (m : Machine) : Incident → Machine
  | .seed sources => (m.run s (Work.seed sources)).2
  | .task i => m.step s i
  | .stop c => m.stop [c.side] c.reason

def under (s : Setup) (m : Machine) (l : List Incident) : Machine := l.foldl (meet s) m

theorem stopped_stop (m : Machine) (sides : List Side) (r : StopReason) (side : Side) :
    ((m.stop sides r).table side).stopped =
      if side ∈ sides then StopReason.keepFirst (m.table side).stopped r
      else (m.table side).stopped := by
  have hfold : ∀ (l : List Side) (m : Machine),
      ((l.foldl (fun m side => m.modifyTable side (·.stop r)) m).table side).stopped =
        if side ∈ l then StopReason.keepFirst (m.table side).stopped r
        else (m.table side).stopped := by
    intro l
    induction l with
    | nil => exact fun _ => rfl
    | cons head rest ih =>
      intro m
      rw [foldl_cons, ih, table_modifyTable]
      by_cases hhead : side = head
      · subst hhead
        cases hold : (m.table side).stopped <;> simp [Table.stop, hold]
      · simp [hhead]
  have htable : ((m.stop sides r).table side).stopped =
      ((sides.foldl (fun m side => m.modifyTable side (·.stop r)) m).table side).stopped := by
    unfold Machine.stop
    dsimp only
    split
    · rfl
    · cases side <;> rfl
  rw [htable, hfold]

/-- A solver has the first reason that the calls give it, unless a handler of results was before
them. -/
def Heeds (calls : List StopCall) (m : Machine) : Prop :=
  ∀ side, (m.table side).stopped = some .abortRequested ∨
    (m.table side).stopped = StopCall.first calls side

variable {s : Setup} {m : Machine} {calls : List StopCall}

namespace Heeds

theorem of_stopped {m' : Machine} (h : m.Heeds calls)
    (hm : ∀ side, (m'.table side).stopped = (m.table side).stopped) : m'.Heeds calls := by
  intro side
  rw [hm]
  exact h side

theorem abort (h : m.Heeds calls) (sides : List Side) :
    (m.stop sides .abortRequested).Heeds calls := by
  intro side
  rw [stopped_stop]
  split
  · cases hold : (m.table side).stopped with
    | none => exact .inl rfl
    | some r =>
      rw [StopReason.keepFirst_some, ← hold]
      exact h side
  · exact h side

theorem stop (h : m.Heeds calls) (c : StopCall) :
    (m.stop [c.side] c.reason).Heeds (calls ++ [c]) := by
  intro side
  rw [stopped_stop, StopCall.first_append]
  by_cases hside : c.side = side
  · rw [if_pos hside, if_pos (mem_singleton.mpr hside.symm)]
    rcases h side with habort | hfirst
    · rw [habort]
      exact .inl rfl
    · rw [hfirst]
      exact .inr rfl
  · rw [if_neg hside, if_neg fun hmem => hside (mem_singleton.mp hmem).symm]
    exact h side

theorem monotone (calls : List StopCall) : Machine.Monotone (Heeds calls) where
  grows hm _ hstopped _ _ := hm.of_stopped hstopped
  neighbor hm := hm.of_stopped fun side => by cases side <;> rfl

variable (hwatch : s.watch.cancelAt = none)
include hwatch

/-- Flow functions change no reason, but they may ask for a stop, and nobody else does. -/
theorem preserves : s.Preserves (Heeds calls) where
  toMonotone := monotone calls
  enters {m side callee d3 d1 call} hm := hm.of_stopped fun side' => by
    cases side <;> cases side' <;> rfl
  evaluate {kind f act} _ := by
    refine Work.evaluate_preserves (J := Heeds calls) (monotone calls) (fun n hn => ?_)
      (fun m hm => ?_) (Work.deliverAll_preserves (monotone calls) (fun m hm => hm.abort _)
        fun m hm => ?_)
    · exact absurd (hwatch.symm.trans hn) nofun
    · exact hm.of_stopped fun side => by cases side <;> rfl
    · exact hm.of_stopped fun side => by cases side <;> rfl

/-- **One incident** more: only the calls of terminators add to what solvers were told. -/
theorem meet (h : m.Heeds calls) (i : Incident) :
    (m.meet s i).Heeds (calls ++ Incident.calls [i]) := by
  cases i with
  | seed sources =>
    rw [show Incident.calls [.seed sources] = [] from rfl, append_nil]
    exact (Work.seed_preserves (preserves hwatch) m h).1
  | task i =>
    rw [show Incident.calls [.task i] = [] from rfl, append_nil]
    exact (preserves hwatch).step h i
  | stop c => exact h.stop c

theorem under (h : m.Heeds calls) (l : List Incident) :
    (m.under s l).Heeds (calls ++ Incident.calls l) := by
  induction l generalizing m calls with
  | nil => rwa [show Incident.calls [] = [] from rfl, append_nil]
  | cons i rest ih =>
    have hrest := ih (h.meet hwatch i)
    rwa [append_assoc, show Incident.calls [i] ++ Incident.calls rest =
      Incident.calls (i :: rest) from (filterMap_append (l := [i])).symm] at hrest

end Heeds
end Machine

/-! ## The flags of a pass -/

namespace Analysis
open Machine StopCall

variable {a : Analysis} {sources sinks : List StmtId}

theorem contains_passTermination (m : Machine) (hr : r ≠ .abortRequested) :
    (passTermination m).contains (.ofReason .dataFlow r) ↔
      ∃ side, (m.table side).stopped = some r := by
  have hnone : Termination.success.contains (.ofReason .dataFlow r) = false := by
    cases r <;> first | exact absurd rfl hr | rfl
  unfold passTermination
  rw [Termination.contains_add _ _ _ hr, Termination.contains_add _ _ _ hr, hnone]
  constructor
  · rintro ((hfalse | hforward) | hbackward)
    · cases hfalse
    · exact ⟨.forward, hforward⟩
    · exact ⟨.backward, hbackward⟩
  · rintro ⟨side, hside⟩
    cases side with
    | forward => exact .inl (.inr hside)
    | backward => exact .inr hside

theorem oneReason_passTermination (m : Machine) :
    (passTermination m).OneReason .dataFlow ↔ ∀ r r', r ≠ .abortRequested → r' ≠ .abortRequested →
    (m.table .forward).stopped = some r → (m.table .backward).stopped = some r' → r = r' := by
  constructor
  · intro h r r' hr hr' hforward hbackward
    exact h r r' hr hr' ((contains_passTermination m hr).mpr ⟨_, hforward⟩)
      ((contains_passTermination m hr').mpr ⟨_, hbackward⟩)
  · intro h r r' hr hr' hflag hflag'
    obtain ⟨side, hside⟩ := (contains_passTermination m hr).mp hflag
    obtain ⟨side', hside'⟩ := (contains_passTermination m hr').mp hflag'
    cases side <;> cases side'
    · exact Option.some.inj (hside.symm.trans hside')
    · exact h r r' hr hr' hside hside'
    · exact (h r' r hr' hr hside' hside).symm
    · exact Option.some.inj (hside.symm.trans hside')

/-- **At most one reason, unless overtaken.** Whatever the terminators, the seeds and the tasks of a
pass do, in any order: the pass has at most one flag exactly if the terminator that fired first was
not overtaken on its way to the alias search, or a handler of results stopped a solver before any
terminator got to it. -/
theorem one_reason_iff_not_overtaken (hwatch : a.watch.cancelAt = none) (m : Machine)
    (l : List Incident)
    (hcalls : Interleaved (a.passSetup sources sinks).sides (Incident.calls l)) :
    let last := (nextMachine m).under (a.passSetup sources sinks) l
    (passTermination last).OneReason .dataFlow ↔ ¬ Overtaken (Incident.calls l) ∨
      ∃ side, (last.table side).stopped = some .abortRequested := by
  intro last
  have hfresh : (nextMachine m).Heeds [] := by
    intro side
    cases side <;> exact .inr rfl
  have hheeds : last.Heeds (Incident.calls l) :=
    hfresh.under (s := a.passSetup sources sinks) hwatch l
  have hover := hcalls.overtaken_iff
  have hreason : ∀ side r, first (Incident.calls l) side = some r → r ≠ .abortRequested :=
    fun side r h => hcalls.reasons ⟨side, r⟩ (mem_of_first h)
  rw [oneReason_passTermination]
  constructor
  · intro hone
    rw [or_iff_not_imp_right]
    intro habort hovertaken
    have hstopped : ∀ side, (last.table side).stopped = first (Incident.calls l) side :=
      fun side => (hheeds side).resolve_left fun h => habort ⟨side, h⟩
    obtain ⟨r, r', hne, hforward, hbackward⟩ := hover.mp hovertaken
    exact hne (hone r r' (hreason _ r hforward) (hreason _ r' hbackward)
      ((hstopped _).trans hforward) ((hstopped _).trans hbackward))
  · intro h r r' hr hr' hforward hbackward
    have hfirst : ∀ side r, r ≠ .abortRequested → (last.table side).stopped = some r →
        first (Incident.calls l) side = some r := by
      intro side r hr hside
      rcases hheeds side with habort | hcall
      · exact absurd (Option.some.inj (hside.symm.trans habort)) hr
      · exact hcall.symm.trans hside
    rcases h with hnot | ⟨side, habort⟩
    · by_contra hne
      exact hnot (hover.mpr ⟨r, r', hne, hfirst _ r hr hforward, hfirst _ r' hr' hbackward⟩)
    · cases side with
      | forward => exact absurd (Option.some.inj (hforward.symm.trans habort)) hr
      | backward => exact absurd (Option.some.inj (hbackward.symm.trans habort)) hr'

/-- The run is cancelled while the time runs out, and the alias search hears of both in the same
order as the forward solver; seeds and tasks come between. -/
def cancelledLate : List Incident :=
  [.stop ⟨.forward, .timeout⟩, .seed [0], .stop ⟨.forward, .cancelled⟩, .task 0,
   .stop ⟨.backward, .timeout⟩, .task 0, .stop ⟨.backward, .cancelled⟩]

theorem interleaved_cancelledLate :
    Interleaved (growingAnalysis.passSetup [0] [3]).sides (Incident.calls cancelledLate) where
  walks r := by cases r <;> decide
  reasons := by decide

theorem cancelled_late_one_reason :
    growingAnalysis.watch.cancelAt = none ∧
      (passTermination ((nextMachine {}).under (growingAnalysis.passSetup [0] [3])
        cancelledLate)).OneReason .dataFlow := by
  refine ⟨rfl, (one_reason_iff_not_overtaken rfl {} _ interleaved_cancelledLate).mpr (.inl ?_)⟩
  rintro ⟨c, hc, r, hr, hne⟩
  cases hc
  cases hr
  exact hne rfl

/-- Memory runs out while the time has run out for the forward solver only, and gets to the alias
search first. -/
def outOfMemoryBetween : List Incident :=
  [.stop ⟨.forward, .timeout⟩, .stop ⟨.forward, .outOfMemory⟩, .stop ⟨.backward, .outOfMemory⟩,
   .stop ⟨.backward, .timeout⟩]

theorem out_of_memory_between_two_reasons :
    Interleaved (growingAnalysis.passSetup [0] [3]).sides (Incident.calls outOfMemoryBetween) ∧
      ¬ (passTermination ((nextMachine {}).under (growingAnalysis.passSetup [0] [3])
        outOfMemoryBetween)).OneReason .dataFlow := by
  refine ⟨⟨fun r => by cases r <;> decide, by decide⟩, fun hone => ?_⟩
  exact absurd (hone .timeout .outOfMemory nofun nofun rfl rfl) nofun

end Analysis
end LeakTrace
