/-!
# Tasks, faults and interruption

An executor takes tasks, starts them one by one in some order, and counts those that are neither
finished nor skipped; a run is over when the count is zero. After an interruption no task is taken
any more and tasks that wait are skipped, while tasks that were started may finish. One failed task
spoils the result, so a fault interrupts too.
-/

namespace LeakTrace

structure Executor (τ : Type) where
  threads : Nat := 1
  queued : List τ := []
  /-- Tasks that were started and are not finished. -/
  running : List τ := []
  inFlight : Nat := 0
  interrupted : Bool := false
  faults : List String := []
deriving Inhabited

namespace Executor
variable {τ : Type}
variable (e : Executor τ)

def ofThreads (n : Nat) : Executor τ := { threads := max n 1 }

/-- Takes a task, unless the executor was interrupted. -/
def execute (t : τ) : Executor τ :=
  if e.interrupted then e
  else { e with queued := t :: e.queued, inFlight := e.inFlight + 1 }

def interrupt : Executor τ := { e with interrupted := true }

private def leave : Executor τ := { e with inFlight := e.inFlight - 1 }

/-- Takes the `i`-th waiting task out of the queue. It runs, or is skipped after an interruption;
the answer is the task if it runs. -/
def start (i : Nat) : Option τ × Executor τ :=
  match e.queued[i]? with
  | none => (none, e)
  | some t =>
    let e := { e with queued := e.queued.eraseIdx i }
    if e.interrupted then (none, e.leave) else (some t, { e with running := t :: e.running })

def finish (i : Nat) : Executor τ :=
  if i < e.running.length then leave { e with running := e.running.eraseIdx i } else e

def fail (i : Nat) (message : String) : Executor τ :=
  if i < e.running.length then
    leave { e with running := e.running.eraseIdx i, faults := e.faults ++ [message],
                   interrupted := true }
  else e

def isDrained : Bool := e.inFlight == 0

end Executor

/-- How a task can fail: with a text of its own, or with something that is no text. -/
inductive Fault where
  | text (message : String)
  | other
deriving DecidableEq, Repr, Inhabited

def Fault.message : Fault → String
  | .text m => m
  | .other => "unknown panic payload"

end LeakTrace
