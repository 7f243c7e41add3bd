import LeakTrace.Flow.Basic

/-!
# Taints out of a callee

At an exit the returned value flows into the left side of the call. Objects that the caller handed
in as arguments or as the receiver are shared, so what the callee tainted below them is tainted in
the caller too. An alias that still waits for a statement of the callee does not leave it.
-/

namespace LeakTrace

/-- An exit seen from a call: the callee, its exit, and where the caller goes on. -/
structure Leaving where
  callee : Method
  exit : Stmt
  call : Stmt
  /-- The left side of the call, if the exit hands a value to it. -/
  result : Option Value
  contexts : List Fact

namespace Track
variable (l : Leaving)

/-- The returned value flows into the left side of the call. -/
def outOfResult (f : Fact) (set : FactSet) : Track FactSet := do
  let e ← read
  match l.exit.returned?, l.result with
  | some v, some lhs =>
    if !(← holdsTaint v f) then return set
    match ← derive f (← paths (Paths.onto f.accessPath lhs)) (some l.exit.id) with
    | none => return set
    | some g =>
      let set := set.insert g
      if e.config.aliasing.searchesOnReturn then
        computeAliasesIn l.contexts l.call.id lhs set l.call.method g
      else return set
  | _, _ => return set

/-- An argument of which the callee can change what is below. -/
def isShared (e : Env) (l : Leaving) (f : Fact) (p : Local) (arg : Value) : Bool :=
  let a := f.path
  arg.holds && e.casts.checkPath a arg.ty && a.deep && !(a.ty.any Ty.isPrimitive) &&
    !((a.ty.any Ty.isString) && !a.immutable) && !e.graph.writes l.callee.id p

/-- Moves a taint to a value of the caller and looks for its aliases there. -/
def moveOut (f : Fact) (v : Value) (search : Fact → Bool) (set : FactSet) :
    Track FactSet := do
  let a := f.accessPath
  match ← derive f (← paths (Paths.ontoTyped a v a.ty false)) (some l.exit.id) with
  | none => return set
  | some g =>
    let set := set.insert g
    if search g then computeAliasesIn l.contexts l.call.id v set l.call.method g
    else return set

/-- Taints below parameters are taints below the arguments. The answer also says whether the taint
is below some parameter. -/
def outOfParams (c : Call) (f : Fact) (set : FactSet) :
    Track (Bool × FactSet) := do
  let e ← read
  l.callee.params.zipIdx.foldlM (fun (below, set) (p, i) => do
    match c.args[i]? with
    | none => return (below, set)
    | some arg =>
      if l.result == some arg then return (below, set)
      if !(← holdsTaint (.var p) f) then return (below, set)
      if isShared e l f p arg then return (true, ← moveOut l f arg (fun _ => true) set)
      else return (true, set)) (false, set)

/-- A taint below the receiver of the callee is one below the receiver of the call. -/
def outOfReceiver (c : Call) (calleeD1 f : Fact) (set : FactSet) :
    Track FactSet := do
  let e ← read
  match l.callee.self, c.base with
  | some this, some base =>
    if l.result == some (.var this) || !f.path.deep then return set
    if !(← holdsTaint (.var this) f) then return set
    if !e.casts.checkPath f.path this.ty then return set
    moveOut l f (.var base) (fun g => !g.same calleeD1) set
  | _, _ => return set

/-- Looks for aliases of what is tainted implicitly, or of everything where the search asks for it,
and records the call. -/
def finishReturn (f : Fact) (set : FactSet) : Track FactSet := do
  let e ← read
  let conditional := l.contexts.any e.isConditional
  let set ← set.foldlM (fun acc g => do
    if (g.implicit && !conditional) || e.config.aliasing.searchesOnReturn then
      match g.aliasTarget? with
      | some target => computeAliasesIn l.contexts l.call.id target acc l.call.method g
      | none => return acc
    else return acc) set
  stampCall f l.call.id set

/-- Moves a taint of the callee to the places of the caller that it is seen by. -/
def moveToCaller (calleeD1 f : Fact) (set : FactSet) : Track FactSet := do
  if f.path.base.isNone || l.callee.isStaticInitializer then return set
  let set ← outOfResult l f set
  match l.call.call? with
  | none => return set
  | some c =>
    let (below, set) ← outOfParams l c f set
    if below then return set else outOfReceiver l c calleeD1 f set

/-- The facts that leave a callee, for a fact that the call has made active if it does so. -/
def leaveCallee (call : Option Stmt) (callee : MethodId) (exit : Stmt) (ret : Option Stmt)
    (f calleeD1 : Fact) (contexts : List Fact) : Track FactSet := do
  let e ← read
  if f.waitsFor.any fun u => e.graph.methodOf u == callee then return []
  let (fromRules, kill) ←
    (Rule.applyReturn (Rule.chain e) contexts calleeD1 f exit ret call).run {}
  if kill.all then return []
  match call with
  | none => return []
  | some cs =>
    let toHandler := ret.any Stmt.isCatch
    let l : Leaving := ⟨e.method callee, exit, cs, if toHandler then none else cs.lhs?, contexts⟩
    let set := fromRules.getD []
    let set := if e.config.aliasing.isLazy && f.path.canHaveAliases then set.insert f else set
    finishReturn l f (← moveToCaller l calleeD1 f set)

def outOfCallee (call : Option Stmt) (callee : MethodId) (exit : Stmt) (ret : Option Stmt)
    (f calleeD1 : Fact) (contexts : List Fact) : Track FactSet := do
  let now ← match call with
    | some c => activateAt f c.id
    | none => pure f
  leaveCallee call callee exit ret now calleeD1 contexts

end Track
end LeakTrace
