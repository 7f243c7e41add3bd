import LeakTrace.Proofs.Solve.Drain

/-!
# Runs in any order

A run takes the first task that waits until none does. Nothing that is reported should hang on that
order, nor on when a pass ends. `Analysis.runBy` is a run whose passes are scheduled from outside:
somebody picks the tasks and says how many are run. The plain run is one of these.
-/

namespace LeakTrace

/-- Which of the waiting tasks of a pass is next, and how many of them are run. -/
structure Schedule where
  pick : Nat → Machine → Nat
  tasks : Nat

/-- The first task that waits is next, until none waits. -/
def Schedule.inOrder : Schedule := ⟨fun _ _ => 0, Machine.fuel⟩

/-- The tasks are given by their places among those that wait. -/
def Schedule.fixed (p : Nat → Nat) : Schedule := ⟨fun i _ => p i, Machine.fuel⟩

/-! ## Picking the first task -/

namespace Machine
variable {s : Setup} {m : Machine}

theorem after_of_idle {pick : Nat → Machine → Nat} {k n : Nat}
    (hidle : (m.after s pick k).executor.queued = []) (hn : k ≤ n) :
    m.after s pick n = m.after s pick k := by
  induction n, hn using Nat.le_induction with
  | base => rfl
  | succ n _ ih =>
    rw [after, ih]
    exact step_of_none (by rw [hidle]; rfl)

theorem after_first_succ (n : Nat) :
    m.after s (fun _ _ => 0) (n + 1) = (m.step s 0).after s (fun _ _ => 0) n := by
  induction n with
  | zero => rfl
  | succ n ih =>
    rw [after, ih]
    rfl

theorem drain_eq_after (n : Nat) : m.drain s n = m.after s (fun _ _ => 0) n := by
  induction n generalizing m with
  | zero => rfl
  | succ n ih =>
    unfold drain
    cases hm : m.executor.queued with
    | nil => rw [after_of_idle (k := 0) hm (Nat.zero_le _)]; rfl
    | cons t rest => rw [after_first_succ, ← ih]; rfl

end Machine

/-! ## Scheduled runs -/

namespace Analysis

/-- Solves the problem for some sources, as scheduled. -/
def passBy (a : Analysis) (σ : Schedule) (sources sinks : List StmtId) (m : Machine) : Machine :=
  let s := a.passSetup sources sinks
  let start := ((a.applyBudgets s.sides (nextMachine m)).run s (Work.seed sources)).2
  (start.after s σ.pick σ.tasks).modifyTable .forward fun t => { t with running := false }

/-- Runs passes until one is stopped. The schedule of a pass is told by how many are left. -/
def passesBy (a : Analysis) (σ : Nat → Schedule) (sinks : List StmtId) :
    List (List StmtId) → Machine → Results → Machine × Results
  | [], m, r => (m, r)
  | sources :: rest, m, r =>
    let m := a.passBy (σ rest.length) sources sinks m
    let termination := passTermination m
    let r := { r with
      hits := r.hits ++ m.world.results
      termination := r.termination.union termination
      faults := r.faults ++ m.executor.faults
      performance := r.performance.add (a.passPerformance sources.length m) }
    if m.world.aborted || !termination.isSuccess || m.cancelled then (m, r)
    else a.passesBy σ sinks rest m r

def batches (a : Analysis) (sources : List StmtId) : List (List StmtId) :=
  if a.env.config.oneSourceAtATime then sources.map ([·]) else [sources]

/-- The source and sink statements of the program, and the paths that were made to find them. -/
def scan (a : Analysis) : List StmtId × List StmtId × PathStore :=
  prescan a.env { rules := a.env.pathRules }

def counted (a : Analysis) : Results where
  performance := { sources := a.scan.1.length, sinks := a.scan.2.1.length }

/-- All passes of a run, as scheduled: the last machine, and what was observed. -/
def solveBy (a : Analysis) (σ : Nat → Schedule) : Machine × Results :=
  let (sources, sinks, paths) := a.scan
  a.passesBy σ sinks (a.batches sources) { world := { paths }, cancelled := a.cancelled } a.counted

def runBy (a : Analysis) (σ : Nat → Schedule) : Report :=
  if a.scan.1.isEmpty || a.scan.2.1.isEmpty then { results := a.counted }
  else
    let (m, r) := a.solveBy σ
    { results := a.findSources m r, seen := m.seen }

variable {a : Analysis} {sources sinks : List StmtId}

theorem pass_eq_passBy (m : Machine) :
    a.pass sources sinks m = a.passBy .inOrder sources sinks m := by
  unfold pass passBy Machine.solve
  dsimp only
  rw [Machine.drain_eq_after]
  rfl

theorem passes_eq_passesBy (l : List (List StmtId)) (m : Machine) (r : Results) :
    a.passes sinks l m r = a.passesBy (fun _ => .inOrder) sinks l m r := by
  induction l generalizing m r with
  | nil => rfl
  | cons sources rest ih =>
    unfold passes passesBy
    rw [pass_eq_passBy]
    dsimp only
    rw [ih]

theorem run_eq_runBy : a.run = a.runBy fun _ => .inOrder := by
  unfold run runBy solveBy counted scan batches
  dsimp only
  rw [passes_eq_passesBy]

theorem mem_of_mem_batches {batch : List StmtId} {n : StmtId} (hbatch : batch ∈ a.batches sources)
    (hn : n ∈ batch) : n ∈ sources := by
  unfold batches at hbatch
  split at hbatch
  · obtain ⟨k, hk, rfl⟩ := List.mem_map.mp hbatch
    rw [List.mem_singleton.mp hn]
    exact hk
  · rw [List.mem_singleton.mp hbatch] at hn
    exact hn

end Analysis
end LeakTrace
