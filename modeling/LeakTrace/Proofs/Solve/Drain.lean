import LeakTrace.Proofs.Solve.Fixpoint
import LeakTrace.Proofs.Solve.Within
import LeakTrace.Proofs.Vocabulary.Programs
import LeakTrace.Run

/-!
# Every run comes to its end

A pass over a program stays in the vocabulary of the program, which has finitely many edges. Each
task that leaves the queue stands for an edge that is recorded and waits no longer, so there are at
most as many tasks as edges, whoever decides which task is next.

**The bound does not depend on the order.** It is found before the first task is picked.
-/

namespace LeakTrace
open List

variable {V : Vocabulary} {s : Setup}

/-! ## Counting -/

namespace Machine
variable {m : Machine} {c i r : Nat} {t : Task}

theorem Within.le_keys (h : m.Within V c r) : c ≤ 2 * V.keys.card := by
  have hcount : ∀ side, (m.table side).count V ≤ V.keys.card := fun _ => Finset.card_filter_le _ _
  have hforward := hcount .forward
  have hbackward := hcount .backward
  have htally := h.tally
  unfold known at htally
  omega

/-! ## One task -/

theorem step_of_interrupted (ht : m.executor.queued[i]? = some t) (hstop : m.executor.interrupted) :
    m.step s i = { m with executor := { m.executor with
      queued := m.executor.queued.eraseIdx i, inFlight := m.executor.inFlight - 1 } } := by
  unfold Machine.step Executor.start
  rw [ht]
  simp only [hstop, if_true]
  rfl

/-- **One task**, whichever is picked, and whether it is worked on, skipped or failed: `I` is what
its work keeps. -/
theorem step_of_keeps {I J : Machine → Prop} (hnone : m.executor.queued[i]? = none → J m)
    (hskip : ∀ t, m.executor.queued[i]? = some t → J { m with executor := { m.executor with
      queued := m.executor.queued.eraseIdx i, inFlight := m.executor.inFlight - 1 } })
    (hwork : ∀ t, m.executor.queued[i]? = some t → I (m.started i t) ∧
      Work.Keeps s I (Work.process t.side t.edge))
    (hfinish : ∀ m', I m' → J { m' with executor := m'.executor.finish 0 })
    (hfail : ∀ m' message, I m' → J { m' with executor := m'.executor.fail 0 message }) :
    J (m.step s i) := by
  cases ht : m.executor.queued[i]? with
  | none =>
    rw [step_of_none ht]
    exact hnone ht
  | some t =>
    cases hstop : m.executor.interrupted with
    | true =>
      rw [step_of_interrupted ht hstop]
      exact hskip t ht
    | false =>
      obtain ⟨hstart, hkeeps⟩ := hwork t ht
      have hend := (hkeeps _ hstart).1
      rcases hrun : (m.started i t).run s (Work.process t.side t.edge) with ⟨result, m'⟩
      rw [hrun] at hend
      rw [step_of_live ht hstop, hrun]
      cases result with
      | ok _ => exact hfinish m' hend
      | error message => exact hfail m' message hend

namespace Within
variable {x : Executor Task}

section
variable (h : m.Within V c 0) (ht : m.executor.queued[i]? = some t)
include h ht

theorem take (hq : x.queued = m.executor.queued.eraseIdx i) (hrun : x.running.length = r)
    (hflight : 0 < m.executor.inFlight → x.inFlight + 1 = m.executor.inFlight + r) :
    Within V (c + 1) r { m with executor := x } := by
  have hlen : i < m.executor.queued.length := (List.getElem?_eq_some_iff.mp ht).1
  have hless : x.queued.length + 1 = m.executor.queued.length := by
    rw [hq, length_eraseIdx_of_lt hlen]
    omega
  have htally : m.executor.queued.length + c ≤ m.known V := h.tally
  have hcount := h.inFlight
  refine ⟨h.world, h.tables, fun u hu => h.queued u (mem_of_mem_eraseIdx (hq ▸ hu)), ?_, hrun, ?_⟩
  · change x.queued.length + (c + 1) ≤ m.known V
    omega
  · change x.inFlight = x.queued.length + r
    omega

theorem started : (m.started i t).Within V (c + 1) 1 :=
  h.take ht rfl (congrArg (· + 1) h.running) fun _ => rfl

end

theorem leave (h : m.Within V c 1) {x : Executor Task}
    (hx : 0 < m.executor.running.length → x.queued = m.executor.queued ∧
      x.running = m.executor.running.eraseIdx 0 ∧ x.inFlight = m.executor.inFlight - 1) :
    Within V c 0 { m with executor := x } := by
  have hone := h.running
  have hcount := h.inFlight
  obtain ⟨hq, hrun, hflight⟩ := hx (by omega)
  refine ⟨h.world, h.tables, ?_, ?_, ?_, ?_⟩
  · change ∀ u ∈ x.queued, Edge.Over V u.edge
    rw [hq]
    exact h.queued
  · change x.queued.length + c ≤ m.known V
    rw [hq]
    exact h.tally
  · change x.running.length = 0
    rw [hrun, length_eraseIdx_of_lt (by omega)]
    omega
  · change x.inFlight = x.queued.length + 0
    rw [hflight, hq]
    omega

theorem finish (h : m.Within V c 1) : Within V c 0 { m with executor := m.executor.finish 0 } := by
  refine h.leave fun hone => ?_
  unfold Executor.finish
  rw [if_pos hone]
  exact ⟨rfl, rfl, rfl⟩

theorem fail (h : m.Within V c 1) (message : String) :
    Within V c 0 { m with executor := m.executor.fail 0 message } := by
  refine h.leave fun hone => ?_
  unfold Executor.fail
  rw [if_pos hone]
  exact ⟨rfl, rfl, rfl⟩

/-- Picking a task that waits takes an edge off the queue for good, whatever its work does. -/
theorem step (hs : s.Stays V) (h : m.Within V c 0) (hi : i < m.executor.queued.length) :
    (m.step s i).Within V (c + 1) 0 :=
  step_of_keeps (I := Within V (c + 1) 1) (fun hnone => by simp at hnone; omega)
    (fun t ht => h.take ht rfl h.running Nat.sub_add_cancel) (fun t ht => ⟨h.started ht,
      (hs.carriesAt (h.queued t (mem_of_getElem? ht))).process⟩) (fun _ hm => hm.finish)
        fun _ message hm => hm.fail message

end Within

/-! ## Whole runs -/

/-- Somebody decides which of the waiting tasks is next, by the machine and by how many tasks were
picked before; as long as a task waits, one is picked. -/
def Picks (pick : Nat → Machine → Nat) : Prop :=
  ∀ n m, m.executor.queued ≠ [] → pick n m < m.executor.queued.length

/-- The machine after `n` tasks, picked one after the other. -/
def after (s : Setup) (pick : Nat → Machine → Nat) (m : Machine) : Nat → Machine
  | 0 => m
  | n + 1 => (m.after s pick n).step s (pick n (m.after s pick n))

theorem Within.after (hs : s.Stays V)
    (h : m.Within V 0 0) {pick : Nat → Machine → Nat} (hpick : Picks pick) (n : Nat) :
    ∃ c, (m.after s pick n).Within V c 0 ∧ ((m.after s pick n).executor.queued = [] ∨ c = n) := by
  induction n with
  | zero => exact ⟨0, h, .inr rfl⟩
  | succ n ih =>
    obtain ⟨c, hc, hcase⟩ := ih
    by_cases hempty : (m.after s pick n).executor.queued = []
    · have hstay : m.after s pick (n + 1) = m.after s pick n :=
        step_of_none (by rw [hempty]; rfl)
      rw [hstay]
      exact ⟨c, hc, .inl hempty⟩
    · refine ⟨c + 1, hc.step hs (hpick n _ hempty), .inr ?_⟩
      rw [hcase.resolve_left hempty]

theorem Within.drain (hs : s.Stays V) {n : Nat} (h : m.Within V c 0) (hn : 2 * V.keys.card < c + n) :
    ∃ d, (m.drain s n).Within V d 0 ∧ (m.drain s n).executor.queued = [] := by
  induction n generalizing m c with
  | zero =>
    have := h.le_keys
    omega
  | succ n ih =>
    unfold Machine.drain
    split
    · next hempty => exact ⟨c, h, List.isEmpty_iff.mp hempty⟩
    · next hwork =>
      have hlen : 0 < m.executor.queued.length := by
        rw [List.isEmpty_iff] at hwork
        exact length_pos_iff.mpr hwork
      exact ih (h.step hs hlen) (by omega)

theorem Within.isDrained (h : m.Within V c 0) (hempty : m.executor.queued = []) :
    m.executor.isDrained := by
  have := h.inFlight
  rw [hempty] at this
  simpa [Executor.isDrained] using this

end Machine

/-! ## Passes of an analysis -/

namespace Analysis
open Machine

/-- Where a pass starts: nothing is known but paths and histories of the passes before. -/
theorem within_applyBudgets (a : Analysis) (sides : List Side) (m : Machine)
    (hw : (nextMachine m).world.Over V) : (a.applyBudgets sides (nextMachine m)).Within V 0 0 := by
  have hfresh : (nextMachine m).Within V 0 0 := by
    refine ⟨hw, fun side => ?_, forall_mem_nil _, Nat.zero_le _, rfl, rfl⟩
    cases side <;> exact Table.over_empty
  have hstop : ∀ (b : Bool) (reason : StopReason) (m' : Machine), m'.Within V 0 0 →
      Within V 0 0 (if b then m'.stop sides reason else m') := by
    intro b reason m' hm'
    cases b with
    | false => exact hm'
    | true => exact hm'.stop sides reason
  exact hstop _ _ _ (hstop _ _ _ (hstop _ _ _ hfresh))

/-- **Every pass comes to its end.** There are finitely many edges that a pass can give to either
solver, and a number of tasks after which none waits or runs, both found before the first task is
picked: whichever of the waiting tasks is picked each time, by the machine as it is. -/
theorem pass_drains_in_every_order (a : Analysis) {i : Nat} (hz : a.env.zero = .zero i)
    (sources sinks : List StmtId) (m : Machine) :
    let s := a.passSetup sources sinks
    let start := ((a.applyBudgets s.sides (nextMachine m)).run s (Work.seed sources)).2
    ∃ (edges : Finset Edge.Key) (tasks : Nat),
      (∀ pick, Picks pick →
        (∀ n side k, (start.after s pick n).Has side k → k ∈ edges) ∧
        ∀ n ≥ tasks, (start.after s pick n).executor.queued = [] ∧
          (start.after s pick n).executor.isDrained = true) ∧
      ∀ fuel ≥ tasks, (start.drain s fuel).executor.queued = [] ∧
        (start.drain s fuel).executor.isDrained = true := by
  intro s start
  obtain ⟨V, hV⟩ : ∃ V, s.env.vocabulary m.world.paths sources = V := ⟨_, rfl⟩
  have hcovers : V.Covers s.env := Env.covers_vocabulary hV (hz ▸ Fact.over_zero i)
  have hs : s.Stays V := Setup.stays_ofEnv hcovers a.watch
  have hw : (nextMachine m).world.Over V := ⟨Env.over_store hV, forall_mem_nil _⟩
  have hstart : start.Within V 0 0 :=
    (hs.seed (fun n hn => Env.mem_stmts hV n (by simp [Env.allStmts, hn])) _
      (within_applyBudgets a s.sides m hw)).1
  refine ⟨V.keys, 2 * V.keys.card + 1, fun pick hpick => ⟨?_, ?_⟩, ?_⟩
  · intro n side k hk
    obtain ⟨c, hc, -⟩ := hstart.after hs hpick n
    exact Vocabulary.mem_keys.mpr ((hc.tables side).index k hk)
  · intro n hn
    obtain ⟨c, hc, hcase⟩ := hstart.after hs hpick n
    have hempty : (start.after s pick n).executor.queued = [] := by
      refine hcase.resolve_right fun hcn => ?_
      have := hc.le_keys
      omega
    exact ⟨hempty, hc.isDrained hempty⟩
  · intro fuel hfuel
    obtain ⟨d, hd, hempty⟩ := hstart.drain hs (n := fuel) (by omega)
    exact ⟨hempty, hd.isDrained hempty⟩

/-! ## A list that grows in a loop -/

def listTy : Ty := .cls "List"

def listSource : MethodRef := ⟨"List", "source", [], listTy⟩

/-- The tainted list becomes the rest of another, which takes its place: each round puts a field in
front of what is tainted. -/
def growing : Program where
  hierarchy := Program.empty.hierarchy
  methods := #[{ id := 0, sig := ⟨"List", "grow", [], .void⟩, body := [0, 1, 2, 3] }]
  stmts := #[
    ⟨0, 0, .assign (.var ⟨0, "x", listTy⟩) (.call .static listSource none [])⟩,
    ⟨1, 0, .assign (.field ⟨1, "y", listTy⟩ ⟨"List", "rest", listTy, false⟩) (.var ⟨0, "x", listTy⟩)⟩,
    ⟨2, 0, .assign (.var ⟨0, "x", listTy⟩) (.var ⟨1, "y", listTy⟩)⟩,
    ⟨3, 0, .jump 1⟩]
  entries := [0]

def growingAnalysis : Analysis where
  env :=
    { graph := Graph.ofProgram growing []
      oracle := ({} : Oracle).addSource listSource [.result] }

def oldestFirst (_ : Nat) (m : Machine) : Nat := m.executor.queued.length - 1

theorem picks_oldestFirst : Picks oldestFirst := by
  intro _ m hwait
  have := length_pos_iff.mpr hwait
  unfold oldestFirst
  omega

theorem growing_list_drains :
    let s := growingAnalysis.passSetup [0] [3]
    let start :=
      ((growingAnalysis.applyBudgets s.sides (nextMachine {})).run s (Work.seed [0])).2
    growingAnalysis.env.zero = .zero 0 ∧ Picks oldestFirst ∧
      ∃ tasks, ∀ n ≥ tasks, (start.after s oldestFirst n).executor.isDrained := by
  intro s start
  obtain ⟨_, tasks, hall, -⟩ :=
    pass_drains_in_every_order growingAnalysis (i := 0) rfl [0] [3] {}
  exact ⟨rfl, picks_oldestFirst, tasks, fun n hn => ((hall _ picks_oldestFirst).2 n hn).2⟩

end Analysis
end LeakTrace
