import LeakTrace.Lifecycle.Budget
import LeakTrace.Lifecycle.Executor

/-!
# Stopping, watching and counting on their own

The parts that surround the solvers can be exercised without any solver: pieces of work that can be
stopped, the handle that cancels them, watchers over time and memory, an executor whose tasks add to
a counter, and the flags and counters that a run collects.
-/

namespace LeakTrace

structure Scenario where
  /-- The reason of each piece of work, once it was stopped. -/
  reasons : Reasons
  handle : AbortHandle := {}
  /-- Tasks are numbers to be added. -/
  executor : Executor Nat := {}
  termination : Termination := {}
  performance : Performance := {}
  total : Nat := 0

namespace Scenario

def ofCount (n : Nat) : Scenario := { reasons := List.replicate n none }

def register (s : Scenario) (i : Nat) : Scenario :=
  let (handle, reasons) := s.handle.register i s.reasons
  { s with handle, reasons }

def abort (s : Scenario) : Scenario :=
  let (handle, reasons) := s.handle.abort s.reasons
  { s with handle, reasons }

def stop (s : Scenario) (i : Nat) (r : StopReason) : Scenario :=
  { s with reasons := s.reasons.stop i r }

def task (s : Scenario) (n : Nat) : Scenario :=
  match (s.executor.execute n).start 0 with
  | (some n, e) => { s with executor := e.finish 0, total := s.total + n }
  | (none, e) => { s with executor := e }

def fail (s : Scenario) (f : Fault) : Scenario :=
  let executor := match (s.executor.execute 0).start 0 with
    | (some _, e) => e.fail 0 f.message
    | (none, e) => e
  { s with executor }

end Scenario
end LeakTrace
