import LeakTrace.Rule.Basic

/-!
# Control dependencies

A branch on tainted data makes everything that depends on it tainted. The branch leaves behind a
conditional fact, which names no place and carries the statement where the branch ends; while such a
fact is alive every assignment taints its left side, and every sink is reached.
-/

namespace LeakTrace
namespace Rule

/-- The branch ends here. A conditional fact that has no other branch to live in dies, and the
answer is whether it does. -/
def leavesBranch (f : Fact) (s : Stmt) : RuleM Bool := do
  if f.joinsAt s.id && f.path.isEmpty && f.joins.length ≤ 1 then
    RuleM.killAll
    return true
  return false

/-- The values that decide where control goes from a statement. -/
def decidingValues (e : Env) (s dest : Stmt) : List Value :=
  if e.graph.forward.isRaise s.id dest.id then s.uses
  else
    match s.action with
    | .branch (.var l) _ => [.var l]
    | .branch c _ => c.uses
    | _ => []

def reportSink (f : Fact) (s : Stmt) : Track Unit := do
  let e ← read
  if e.isSink s.id then
    if let some d ← Track.sinkInfo s none then
      let _ ← Track.addResult d f s.id

/-- Enters the conditional at a statement if the fact decides it. -/
def enter (f : Fact) (s : Stmt) (base : Local) : List Value → Track (Option FactSet)
  | [] => return none
  | v :: rest => do
    let e ← read
    if ← Track.mayAliasValues v (.var base) then
      let join := e.graph.joinOf s.id
      -- Inside a branch that lasts until the method ends nothing is gained.
      let covered := match f.joins.head?, join with
        | some (.exit m), .stmt u => m == e.graph.methodOf u
        | _, _ => false
      if covered then enter f s base rest
      else return some [f.enterConditional (← Track.fresh) join s.id]
    else enter f s base rest

/-- The fact names the receiver of the method that holds the statement. -/
def isOnReceiver (f : Fact) (s : Stmt) : Track Bool := do
  let e ← read
  let m := e.method s.method
  if m.isStatic || f.path.firstField?.isSome then return false
  match m.self, f.path.base with
  | some this, some l => Track.mayAliasValues (.var this) (.var l)
  | _, _ => return false

/-- What receives the result of a call inside the conditional is tainted. -/
def taintResult (d1 f : Fact) (s : Stmt) : Track (Option FactSet) := do
  let e ← read
  match s.lhs? with
  | none => return none
  | some lhs =>
    if !f.path.isEmpty && (f.joins.head?.bind Join.stmt?).isNone then return none
    -- Locals of a conditionally called method are invisible to the caller.
    if e.isConditional d1 && !lhs.isFieldRef then return none
    let path ← Track.paths (Paths.ofValue lhs true)
    return (← Track.derive f path (some s.id)).map fun g => [g]

/-- A constant returned inside the conditional taints the result of the call. -/
def returnConstant (callers : List Fact) (f : Fact) (exit call : Stmt) (lhs : Value) :
    Track (Option FactSet) := do
  let e ← read
  let path ← Track.paths (Paths.onto f.accessPath lhs)
  match ← Track.derive f path (some exit.id) with
  | none => return none
  | some g =>
    if call.canCreateAliases lhs g.path && !callers.any e.isConditional then
      return some (← callers.foldlM
        (fun set d1 => Track.computeAliases d1 exit.id lhs set call.method g) [g])
    return some [g]

/-- A field that receives the result of a call inside the conditional is tainted. -/
def returnField (callers : List Fact) (f : Fact) (exit call : Stmt) (lhs : Value) :
    Track (Option FactSet) := do
  let e ← read
  let path ← Track.paths (Paths.onto f.accessPath lhs)
  match ← Track.derive f path (some exit.id) with
  | none => return none
  | some g =>
    if g.implicit && !g.path.steps.isEmpty && !callers.any e.isConditional then
      return some (← callers.foldlM
        (fun set d1 => Track.computeAliases d1 call.id lhs set call.method g) [g])
    return some [g]

def implicit : Rule where
  name := "implicit"
  normal _ f s dest := do
    let e ← read
    if e.isZero f then return none
    if ← leavesBranch f s then return none
    if !f.isActive || f.path.isEmpty then return none
    match f.path.base with
    | none => return none
    | some base => enter f s base (decidingValues e s dest)
  call d1 f s _ := do
    let e ← read
    if e.isZero f then return none
    if ← leavesBranch f s then return none
    -- A conditional fact that entered the call covers everything else in this context.
    let key := (s.id, d1.toTaint)
    if (← getThe World).rules.conditionalCalls.contains key then
      RuleM.killAll
      return none
    if f.path.isEmpty then
      modifyThe World fun w =>
        { w with rules := { w.rules with conditionalCalls := w.rules.conditionalCalls.insert key } }
      return some [f.callConditional (← Track.fresh) s.id]
    if f.inConditional then RuleM.killAll
    return none
  callToReturn d1 f s := do
    let e ← read
    if e.isZero f then return none
    if ← leavesBranch f s then return none
    if f.isActive then
      if f.path.isEmpty || f.inConditional then reportSink f s
      else if ← isOnReceiver f s then reportSink f s
    taintResult d1 f s
  ret callers _ f exit _ call := do
    if f.path.isEmpty then
      match exit.returned?, call.bind fun c => c.lhs?.map fun lhs => (c, lhs) with
      | some v, some (c, lhs) =>
        if v.isConst then return ← returnConstant callers f exit c lhs
      | _, _ => pure ()
      RuleM.killAll
      return none
    match call with
    | none => return none
    | some c =>
      match c.lhs? with
      | none => return none
      | some lhs =>
        if !exit.isReturn || !f.inConditional || !lhs.isFieldRef then return none
        returnField callers f exit c lhs

end Rule
end LeakTrace
