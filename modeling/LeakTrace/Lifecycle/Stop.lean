/-!
# Why work was stopped early

A piece of work that is told to stop keeps the first reason it is given. A whole run collects the
reasons of its two phases as flags; that a result handler wanted no more results is not a failure
and sets no flag.
-/

namespace LeakTrace

inductive StopReason where
  /-- The time of the phase is over. -/
  | timeout
  /-- The estimate of used memory is over the budget. -/
  | outOfMemory
  /-- Somebody cancelled the run. -/
  | cancelled
  /-- Enough results were found. -/
  | abortRequested
deriving DecidableEq, Repr, Inhabited

namespace StopReason

def text : StopReason → String
  | .timeout => "timeout"
  | .outOfMemory => "out of memory"
  | .cancelled => "cancelled"
  | .abortRequested => "abort requested"

/-- The reason after work was told to stop: the first one stays. -/
def keepFirst (old : Option StopReason) (new : StopReason) : Option StopReason :=
  old.or (some new)

@[simp] theorem keepFirst_some (old new : StopReason) : keepFirst (some old) new = some old := rfl

@[simp] theorem keepFirst_none (new : StopReason) : keepFirst none new = some new := rfl

end StopReason

inductive Phase where
  | dataFlow
  | reconstruction
deriving DecidableEq, Repr, Inhabited

/-- The flags of a run; none of them means that everything ran to its end. -/
structure Termination where
  bits : Nat := 0
deriving DecidableEq, Repr, Inhabited

namespace Termination

def success : Termination := ⟨0⟩

def ofReason : Phase → StopReason → Termination
  | .dataFlow, .timeout => ⟨1⟩
  | .dataFlow, .cancelled => ⟨2⟩
  | .dataFlow, .outOfMemory => ⟨4⟩
  | .reconstruction, .timeout => ⟨8⟩
  | .reconstruction, .cancelled => ⟨16⟩
  | .reconstruction, .outOfMemory => ⟨32⟩
  | _, .abortRequested => ⟨0⟩

def union (a b : Termination) : Termination := ⟨a.bits ||| b.bits⟩

/-- All flags of the second are flags of the first. -/
def contains (a b : Termination) : Bool := a.bits &&& b.bits == b.bits

def isSuccess (a : Termination) : Bool := a.bits == 0

def add (a : Termination) (phase : Phase) (reason : Option StopReason) : Termination :=
  match reason with
  | some r => a.union (ofReason phase r)
  | none => a

def names : List (Termination × String) :=
  [(⟨1⟩, "data flow timeout"), (⟨2⟩, "data flow cancelled"), (⟨4⟩, "data flow out of memory"),
   (⟨8⟩, "path reconstruction timeout"), (⟨16⟩, "path reconstruction cancelled"),
   (⟨32⟩, "path reconstruction out of memory")]

def text (a : Termination) : String :=
  if a.isSuccess then "success"
  else String.intercalate ", " ((names.filter fun n => a.contains n.1).map (·.2))

def hasReason (a : Termination) (r : StopReason) : Bool :=
  a.contains (ofReason .dataFlow r) || a.contains (ofReason .reconstruction r)

end Termination
end LeakTrace
