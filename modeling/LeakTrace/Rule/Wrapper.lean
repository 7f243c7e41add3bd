import LeakTrace.Rule.Basic

/-!
# Models of library methods at calls

A modelled call is not entered if its model is exclusive. Past the call the model says what becomes
of a fact that the call mentions, and new facts start searches for their aliases.
-/

namespace LeakTrace
namespace Rule

/-- The fact is about the receiver or an argument of the call. -/
def isMentioned (f : Fact) (s : Stmt) : Track Bool := do
  match s.call?, f.path.base with
  | some c, some l =>
    let onBase ← match c.base with
      | some b => Track.mayAliasValues (.var b) (.var l)
      | none => pure false
    if onBase then return true
    for a in c.args do
      if ← Track.mayAliasValues (.var l) a then return true
    return false
  | _, _ => return false

/-- A new fact past a call needs a search for aliases. -/
def needsSearch (e : Env) (s : Stmt) (f : Fact) (target : Value) : Bool :=
  let p := f.path
  let isObject := (p.ty.map Ty.isClass).getD false &&
    (!(p.ty.map Ty.isString).getD false || p.immutable)
  (e.config.staticFields != .ignored && p.isStaticField) || (isObject && p.deep) ||
    s.canCreateAliases target p

/-- What the model of a call makes of a fact, with the aliases of what is new. -/
def applyModel (d1 f : Fact) (s : Stmt) : Track (Option FactSet) := do
  let e ← read
  match ← Track.modelTaints s f with
  | none => return none
  | some taints =>
    return some (← taints.foldlM (fun set g => do
      match g.aliasTarget? with
      | none => return set
      | some target =>
        let overwritten := s.lhs?.any fun lhs => g.path.hasRoot lhs
        if g.same f || overwritten || !needsSearch e s g target then return set
        Track.computeAliases d1 s.id target set s.method g) taints)

/-- The model only says something about a fact that the call mentions, and nothing about a call that
is a source. -/
def modelled (d1 f : Fact) (s : Stmt) : Track (Option FactSet) := do
  let e ← read
  if e.isZero f || e.models.isNone then return none
  if f.path.base.isSome then
    if !(← isMentioned f s) then return none
  if !e.config.inspectSources then
    if (← Track.sourceInfo s.id).isSome then return none
  applyModel d1 f s

def wrapper : Rule where
  name := "wrapper"
  callToReturn d1 f s := do
    match ← modelled d1 f s with
    | none => return none
    | some taints =>
      -- A modelled copy with the incoming path replaces the incoming fact.
      if let some g := taints.find? fun g => g.path == f.path then
        if !g.is f then RuleM.killSource
      return some taints
  call _ _ s _ := do
    let e ← read
    if e.isExclusive s then RuleM.killAll
    return none

end Rule
end LeakTrace
