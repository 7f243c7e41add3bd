import LeakTrace.Rule.Basic

/-!
# Static fields across calls

A tainted static field enters the methods that read it, directly or through what they call, and it
comes back at every return. Where static fields are ignored, facts about them end at calls, and
static initialisers are not entered.
-/

namespace LeakTrace

def Rule.carry (f : Fact) (s : StmtId) : RuleM (Option FactSet) := do
  return (← Track.deriveAt f s).map fun g => [g]

def Rule.staticField : Rule where
  name := "static_field"
  call _ f s dest := do
    let e ← read
    let ignored := e.config.staticFields == .ignored
    if ignored && ((e.method dest).isStaticInitializer || f.path.isStaticField) then
      RuleM.killAll
      return none
    if !f.path.isStaticField then return none
    match f.path.firstField? with
    | none => return none
    | some field =>
      if e.config.aliasing.isLazy || e.graph.readsStatic dest field then carry f s.id
      else return none
  callToReturn _ f _ := do
    let e ← read
    if e.config.staticFields == .ignored && f.path.isStaticField then RuleM.killAll
    return none
  ret _ _ f exit _ _ := do
    let e ← read
    if !f.path.isStaticField then return none
    if e.config.staticFields == .ignored then
      RuleM.killAll
      return none
    carry f exit.id

end LeakTrace
