import LeakTrace.Lifecycle.Stop

/-!
# Cancelling from outside

Everything that can be cancelled registers with the handle of the run. What registers after the
cancellation is stopped at once, so no cancellation is lost between two phases.
-/

namespace LeakTrace

/-- Work that can be stopped, by number, with the reason it was given first. -/
abbrev Reasons := List (Option StopReason)

def Reasons.stop (rs : Reasons) (i : Nat) (r : StopReason) : Reasons :=
  rs.modify i fun old => StopReason.keepFirst old r

def Reasons.stopAll (rs : Reasons) (is : List Nat) (r : StopReason) : Reasons :=
  is.foldl (fun rs i => rs.stop i r) rs

structure AbortHandle where
  aborted : Bool := false
  registered : List Nat := []
deriving DecidableEq, Repr, Inhabited

namespace AbortHandle
variable (h : AbortHandle)

/-- Raises the flag; the answer is whether it was down. -/
def raise : Bool × AbortHandle := (!h.aborted, { h with aborted := true })

def walk (rs : Reasons) : Reasons := rs.stopAll h.registered .cancelled

def abort (rs : Reasons) : AbortHandle × Reasons :=
  let (first, h) := h.raise
  (h, if first then h.walk rs else rs)

/-- Registers work for the current phase, and stops it if the run was cancelled. -/
def register (i : Nat) (rs : Reasons) : AbortHandle × Reasons :=
  ({ h with registered := h.registered ++ [i] }, if h.aborted then rs.stop i .cancelled else rs)

def clear : AbortHandle := { h with registered := [] }

def text : String :=
  "AbortHandle \x7b aborted: " ++ (if h.aborted then "true" else "false") ++ ", solvers: " ++
    toString h.registered.length ++ " \x7d"

end AbortHandle
end LeakTrace
