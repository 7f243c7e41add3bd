import LeakTrace.Results
import LeakTrace.Solve.Engine

/-!
# A whole analysis

A run finds the source and sink statements, solves the data-flow problem in one pass or in one pass
per source, drops observations that others cover, and searches the sources of the rest. Budgets and
a cancellation end the phase they hit and every pass after it; what was found so far is reported.
-/

namespace LeakTrace

inductive SetupError where
  | config (e : ConfigError)
  | noBody

def SetupError.message : SetupError → String
  | .config e => "Configuration error: " ++ e.message
  | .noBody => "Setup error: no reachable method has a body"

structure Analysis where
  /-- The program and everything that is known about it; its source and sink statements are found by
  the run. -/
  env : Env
  watch : Watch := {}
  /-- The run was cancelled before it started. -/
  cancelled : Bool := false

structure Report where
  results : Results
  seen : Std.HashSet (FlowKind × StmtId × Taint) := ∅

namespace Analysis
variable (a : Analysis)

/-- Checks the settings, and that there is something to analyse. -/
def create (env : Env) (watch : Watch) (cancelled : Bool) : Except SetupError Analysis :=
  match env.config.check with
  | .error e => .error (.config e)
  | .ok _ =>
    if env.graph.reachable.isEmpty then .error .noBody else .ok { env, watch, cancelled }

/-- Source and sink statements of reachable methods. -/
def prescan (env : Env) (paths : PathStore) : List StmtId × List StmtId × PathStore :=
  let stmts := (env.graph.reachable.flatMap fun m => (env.method m).body).map env.stmt
  let (sources, paths) := (stmts.filterM fun s => do
    return (← env.oracle.source? env.program s).isSome).run paths
  let sinks := stmts.filter fun s => (env.oracle.sink? env.program s none).isSome
  let order (l : List Stmt) : List StmtId := (l.map (·.id)).mergeSort (· ≤ ·)
  (order sources, order sinks, paths)

/-! ## Data flow -/

def passSetup (sources sinks : List StmtId) : Setup :=
  Setup.ofEnv
    { a.env with sources, sinks, hasForward := true
                 hasBackward := a.env.config.aliasing == .flowSensitive } a.watch

def baseline : Nat := programBytes a.env.program.stmts.size

/-- A machine for the next pass. Identities, paths, histories and counts of results go on. -/
def nextMachine (m : Machine) : Machine where
  world :=
    { nextId := m.world.nextId, paths := m.world.paths, neighbors := m.world.neighbors
      reported := m.world.reported }
  cancelled := m.cancelled
  seen := m.seen

/-- Budgets that are used up before any work stop the solvers. -/
def applyBudgets (sides : List Side) (m : Machine) : Machine :=
  let c := a.env.config
  let m := if m.cancelled then m.stop sides .cancelled else m
  let m := if isExhausted a.baseline c.memoryBudget c.memoryThreshold then m.stop sides .outOfMemory
    else m
  if c.timeoutSecs == some 0 then m.stop sides .timeout else m

def pass (sources sinks : List StmtId) (m : Machine) : Machine :=
  let setup := a.passSetup sources sinks
  ((a.applyBudgets setup.sides (nextMachine m))).solve setup sources

def passPerformance (seeds : Nat) (m : Machine) : Performance where
  forward := m.forward.scheduled
  backward := m.backward.scheduled
  seeds
  memory := counter (a.baseline + tableBytes (m.forward.size + m.backward.size))

def passTermination (m : Machine) : Termination :=
  (Termination.success.add .dataFlow m.forward.stopped).add .dataFlow m.backward.stopped

/-- Runs passes until one is stopped, and collects the observations at sinks. -/
def passes (a : Analysis) (sinks : List StmtId) :
    List (List StmtId) → Machine → Results → Machine × Results
  | [], m, r => (m, r)
  | sources :: rest, m, r =>
    let m := a.pass sources sinks m
    let termination := passTermination m
    let r := { r with
      hits := r.hits ++ m.world.results
      termination := r.termination.union termination
      faults := r.faults ++ m.executor.faults
      performance := r.performance.add (a.passPerformance sources.length m) }
    if m.world.aborted || !termination.isSuccess || m.cancelled then (m, r)
    else a.passes sinks rest m r

/-! ## Sources -/

/-- A searcher for the run, stopped if its budget is used up. -/
def finder (cancelled : Bool) : Finder :=
  let c := a.env.config
  let f : Finder :=
    { expired := c.search.timeoutSecs == some 0, maxVisited := c.search.maxVisited
      baseline := a.baseline }
  let f := if cancelled then f.stop .cancelled else f
  if isExhausted f.bytes (c.search.memoryBudget.getD c.memoryBudget) c.memoryThreshold then
    f.stop .outOfMemory
  else f

def findSources (m : Machine) (r : Results) : Results :=
  let hits := SinkHit.pruned r.hits
  if hits.isEmpty then { r with hits := [] }
  else
    let (finder, searches) := (a.finder m.cancelled).findAll m.world hits
    let r := { r with
      hits := searches.map (·.hit)
      termination := r.termination.add .reconstruction finder.stopped }
    searches.foldl (fun r s => s.found.foldl (fun r f => r.add (.ofHit s.hit) f) r) r

/-! ## The run -/

def run : Report :=
  let (sources, sinks, paths) := prescan a.env { rules := a.env.pathRules }
  let r : Results := { performance := { sources := sources.length, sinks := sinks.length } }
  if sources.isEmpty || sinks.isEmpty then { results := r }
  else
    let batches := if a.env.config.oneSourceAtATime then sources.map ([·]) else [sources]
    let start : Machine := { world := { paths }, cancelled := a.cancelled }
    let (m, r) := a.passes sinks batches start r
    { results := a.findSources m r, seen := m.seen }

end Analysis
end LeakTrace
