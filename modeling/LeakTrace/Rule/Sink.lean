import LeakTrace.Rule.Basic

/-!
# Taints that reach a sink are recorded

Only active facts count. Once somebody who receives the results wants no more of them, no call is
entered or passed any longer.
-/

namespace LeakTrace
namespace Rule

def record (f : Fact) (s : Stmt) : Track Unit := do
  if let some d ← Track.sinkInfo s (some f.path) then
    if !(← Track.addResult d f s.id) then
      modify fun w => { w with rules := { w.rules with sinksClosed := true } }

/-- Records the fact if the value, read at a sink, may be what it taints. -/
def recordIfRead (f : Fact) (s : Stmt) (v : Value) : Track Unit := do
  let e ← read
  if e.isSink s.id && f.isActive then
    if let some l := f.path.base then
      if ← Track.anyMayAlias (v.roots false) (.var l) then record f s

/-- The receiver or an argument of the call carries the taint. -/
def isVisibleInCallee (f : Fact) (s : Stmt) : Track Bool := do
  match s.call?, f.path.base with
  | some c, some l =>
    let inArgs ← Track.anyMayAlias c.args (.var l)
    return (inArgs && (f.path.deep || f.path.isLocal)) || c.base == some l
  | _, _ => return false

def closeCalls : RuleM Unit := do
  if (← getThe World).rules.sinksClosed then RuleM.killAll

def sink : Rule where
  name := "sink"
  normal _ f s _ := do
    match s.action with
    | .ret v | .branch v _ | .assign _ v => recordIfRead f s v
    | _ => pure ()
    return none
  call _ _ _ _ := do
    closeCalls
    return none
  callToReturn _ f s := do
    let e ← read
    if e.isSink s.id && f.isActive && f.path.base.isSome then
      let visible ← if s.isCall then isVisibleInCallee f s else pure true
      if visible then record f s
    closeCalls
    return none
  ret _ _ f exit _ _ := do
    let e ← read
    if let some v := exit.returned? then
      let returns ← Track.readsTaint f v
      if (f.path.isLocal || f.path.deep) && f.isActive && returns && e.isSink exit.id then
        record f exit
    closeCalls
    return none

end Rule
end LeakTrace
