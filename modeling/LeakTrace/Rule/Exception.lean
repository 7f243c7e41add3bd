import LeakTrace.Rule.Basic

/-!
# Tainted exceptions are thrown and caught

A thrown taint travels as such until a handler catches it into its local. An exception that leaves a
method goes to the handlers around the call.
-/

namespace LeakTrace

def Rule.exception : Rule where
  name := "exception"
  normal _ f s _ := do
    let e ← read
    if e.isZero f then return none
    if f.thrown && s.isCatch then
      RuleM.killSource
      match s.lhs? with
      | none => return none
      | some lhs =>
        let path ← Track.paths (Paths.onto f.accessPath lhs)
        return (f.catchInto? (← Track.fresh) path).map fun g => [g]
    match s.action with
    | .throw v =>
      if ← Track.readsTaint f v then
        RuleM.killSource
        return some [f.throwAt (← Track.fresh) s.id]
      return none
    | _ => return none
  ret _ _ f exit ret _ := do
    match ret, exit.action with
    | some r, .throw v =>
      if r.isCatch then
        if ← Track.readsTaint f v then return some [f.throwAt (← Track.fresh) exit.id]
      return none
    | _, _ => return none

end LeakTrace
