import LeakTrace.Proofs.Solve.Fixpoint

/-!
# Which exits give back what they know

A task is either a call or an exit, never both: at a call the solver enters the callees and passes
by, and it does not look whether the statement also ends its method. Along the control flow a call
rarely ends a method. **Against it the first statement does, and that may well be a call.**

`exit_summarised_iff` says what follows from it: in a drained run an exit is remembered, and gives
back to every context of its method, exactly if it is no call. The method at the end starts with a
call, and a fact that has come to its start against the control flow gets no further.
-/

namespace LeakTrace
namespace Machine
variable {s : Setup} {P : Fact → Prop} {F : Side → Transfer} {given : Side → Item → Prop}
  {m : Machine} {side : Side} {d1 d2 : Taint} {n : StmtId} {callee : MethodId}

section
variable (h : m.Consistent s P F given) (hsum : m.Summarised side callee d1 n d2)
include h hsum

/-- Only exits that are no calls are ever summarised. -/
theorem Consistent.isCall_of_summarised : s.env.graph.isCall n = false := by
  obtain ⟨f, hleft, _⟩ := hsum
  obtain ⟨_, _, _, _, hcall, _⟩ := h.summaries hleft
  exact hcall

/-- What left through a summarised exit is known at the return sites of every registered call. -/
theorem Consistent.returned {call site : StmtId} {d4 d5 : Taint}
    (hreg : m.Registered side callee d1 call d4) (hsite : site ∈ (s.problem side).view.succs call)
    (hd5 : d5 ∈ (F side).ret (some call) callee n (some site) d2 d1) :
    m.Has side (d4, site, d5) := by
  obtain ⟨f, hentered, rfl⟩ := hreg
  obtain ⟨g, hleft, rfl⟩ := hsum
  exact h.matched _ _ _ _ _ _ _ _ _ hentered hleft hsite hd5

end

/-- **An exit counts unless it is a call.** In a drained run, an edge at an exit that is not rooted
in zero is remembered as a way out of its method exactly if the exit is no call; then everything
that flows back from it is known at every return site of every registered context. -/
theorem exit_summarised_iff (hs : s.Ideal F) {w : World} (hw : w.outbox = []) {moves : List Move}
    (hproper : ∀ a ∈ moves, a.Proper s.env)
    (hdrained : (({ world := w } : Machine).follow s moves).executor.queued = []) (side : Side)
    {d1 d2 : Taint} {n : StmtId}
    (hk : (d1, n, d2) ∈ ((({ world := w } : Machine).follow s moves).table side).index)
    (hroot : d1 ≠ s.env.zero.toTaint) (hexit : (s.problem side).view.isExit n = true) :
    let m := ({ world := w } : Machine).follow s moves
    let callee := s.env.graph.methodOf n
    (m.Summarised side callee d1 n d2 ↔ s.env.graph.isCall n = false) ∧
      (s.env.graph.isCall n = false → ∀ call d4, m.Registered side callee d1 call d4 →
        ∀ site ∈ (s.problem side).view.succs call,
        ∀ d5 ∈ (F side).ret (some call) callee n (some site) d2 d1,
          (d4, site, d5) ∈ (m.table side).index) := by
  intro m callee
  obtain ⟨hc, -⟩ := consistent_follow hs hw hproper
  have hleave : s.env.graph.isCall n = false → m.Summarised side callee d1 n d2 := by
    intro hcall
    exact (hc.done hdrained hk).leave hcall hexit hroot
  constructor
  · constructor
    · intro hsum
      exact hc.isCall_of_summarised hsum
    · exact hleave
  · intro hcall call d4 hreg site hsite d5 hd5
    exact hc.returned (hleave hcall) hreg hsite hd5

/-- The exit goes back to the call that waits for it. -/
theorem exit_summarised_passing :
    let m := ({} : Machine).follow passingSetup passingMoves
    m.executor.queued = [] ∧ m.Summarised .forward 0 passed.toTaint 1 passed.toTaint ∧
      (passingSetup.env.zero.toTaint, 3, passed.toTaint) ∈ (m.table .forward).index := by
  intro m
  obtain ⟨-, hbring⟩ := consistent_follow passingSetup_ideal (w := {}) rfl passingMoves_proper
  have hedge : m.Knows .forward (.edge passed.toTaint 1 passed.toTaint) :=
    hbring (.edge .forward ⟨passed, 1, passed⟩) (by simp [passingMoves]) _ _ ⟨rfl, rfl⟩
  have hcontext : m.Knows .forward (.context 0 passed.toTaint 2 passingSetup.env.zero.toTaint) :=
    hbring (.context .forward 0 passed 2 passingSetup.env.zero) List.mem_cons_self _ _ ⟨rfl, rfl⟩
  have hcall : passingSetup.env.graph.isCall 1 = false := by decide
  obtain ⟨hsum, hback⟩ := exit_summarised_iff passingSetup_ideal rfl passingMoves_proper
    queued_passing .forward hedge (by decide) rfl
  exact ⟨queued_passing, hsum.mpr hcall, hback hcall 2 _ hcontext 3 (by decide) _ (by decide)⟩

/-! ## A method that starts with a call -/

/-- `main` calls a method without arguments, whose first statement is a call of its own. -/
def renewing : Program :=
  let p := Program.empty.addClass "Main" {}
  let p := (p.openBody ⟨"Main", "renew", [], .void⟩ true []).closeBody
    [.call ⟨.static, ⟨"Log", "log", [], .void⟩, none, []⟩, .retVoid] []
  let p := (p.openBody ⟨"Main", "main", [], .void⟩ true []).closeBody
    [.skip, .call ⟨.static, ⟨"Main", "renew", [], .void⟩, none, []⟩, .retVoid] []
  p.addEntry 1

/-- Facts pass unchanged through the program, each solver in its own direction. -/
def renewingSetup : Setup where
  env :=
    { config := { solver := { maxJoin := none, maxCallees := none, maxPathLength := none } }
      graph := .ofProgram renewing [] }
  problem side := { passing with view := (Problem.ofSide (.ofProgram renewing []) side).view }

theorem renewingSetup_ideal : renewingSetup.Ideal fun _ => passingTransfer where
  watch := rfl
  maxPathLength := rfl
  maxCallees := rfl
  follows _ := { passing_follows renewingSetup.env with }
  call_ne_zero _ _ _ _ _ := List.not_mem_nil

/-- Against the control flow, a fact entered the method from the call in `main` and came to the
first statement. -/
def renewingMoves : List Move :=
  [.context .backward 0 passed 3 renewingSetup.env.zero, .edge .backward ⟨passed, 0, passed⟩,
    .work 0]

theorem renewingMoves_proper : ∀ a ∈ renewingMoves, a.Proper renewingSetup.env := by
  have hpassed : renewingSetup.env.Identified passed := ⟨by decide, by decide⟩
  intro a ha
  simp only [renewingMoves, List.mem_cons, List.not_mem_nil, or_false] at ha
  rcases ha with rfl | rfl | rfl
  · exact ⟨Env.identified_zero, hpassed.faithful, by decide⟩
  · exact ⟨hpassed, hpassed.faithful⟩
  · trivial

/-- **A fact that comes to the start of a method is lost there if the start is a call.** The edge at
the start and the context of the caller are known, the fact would flow back unchanged, and nothing
is left to do; but in `main` it is not known. -/
theorem call_at_start_gives_nothing_back :
    let s := renewingSetup
    let m := ({} : Machine).follow s renewingMoves
    (∀ a ∈ renewingMoves, a.Proper s.env) ∧ s.Ideal (fun _ => passingTransfer) ∧
      m.executor.queued = [] ∧
      (passed.toTaint, 0, passed.toTaint) ∈ (m.table .backward).index ∧
      passed.toTaint ≠ s.env.zero.toTaint ∧ (s.problem .backward).view.isExit 0 = true ∧
      m.Registered .backward (s.env.graph.methodOf 0) passed.toTaint 3 s.env.zero.toTaint ∧
      2 ∈ (s.problem .backward).view.succs 3 ∧
      passed.toTaint ∈ passingTransfer.ret (some 3) (s.env.graph.methodOf 0) 0 (some 2)
        passed.toTaint passed.toTaint ∧
      (s.env.zero.toTaint, 2, passed.toTaint) ∉ (m.table .backward).index := by
  intro s m
  obtain ⟨-, hbring⟩ := consistent_follow renewingSetup_ideal (w := {}) rfl renewingMoves_proper
  have hcontext : m.Knows .backward (.context 0 passed.toTaint 3 s.env.zero.toTaint) :=
    hbring (.context .backward 0 passed 3 s.env.zero) List.mem_cons_self _ _ ⟨rfl, rfl⟩
  have hmethod : s.env.graph.methodOf 0 = 0 := by decide +kernel
  rw [hmethod]
  exact ⟨renewingMoves_proper, renewingSetup_ideal, by decide +kernel, by decide +kernel, by decide,
    by decide +kernel, hcontext, by decide +kernel, List.mem_singleton.mpr rfl, by decide +kernel⟩

end Machine
end LeakTrace
