import LeakTrace.Flow.Basic

/-!
# Taints into and past calls

A taint enters a callee through the receiver and the arguments, if the callee reads them at all.
Past the call it goes on where no callee carries it: a field of an object that all callees see
travels through them instead.
-/

namespace LeakTrace
namespace Track

/-! ## Into a callee -/

def pathsOfParams (callee : Method) (c : Call) (f : Fact) (reflective : Bool) :
    Track (List AccessPath) := do
  let onto (p : Local) : Track (Option AccessPath) := paths (Paths.onto f.accessPath (.var p))
  if reflective then
    -- A tainted argument array may reach any parameter.
    match c.args[1]? with
    | some args => if ← holdsTaint args f then callee.params.filterMapM onto else return []
    | none => return []
  else if callee.sig.params.isEmpty then return []
  else
    c.args.zipIdx.filterMapM fun (arg, i) => do
      if ← holdsTaint arg f then
        match callee.params[i]? with
        | some p => onto p
        | none => return none
      else return none

def pathOfReceiver (callee : Method) (c : Call) (f : Fact) : Track (Option AccessPath) := do
  let e ← read
  match c.base, callee.self with
  | some base, some this =>
    if callee.isStatic then return none
    if !(← holdsTaint (.var base) f) then return none
    if !e.casts.checkReceiver f.path callee.owner then return none
    paths (Paths.onto f.accessPath (.var this))
  | _, _ => return none

/-- The paths by which a callee sees what the fact taints at a call. -/
def pathsInCallee (callee : Method) (c : Call) (f : Fact) (reflective : Bool) :
    Track (List AccessPath) := do
  let e ← read
  let a := f.accessPath
  if a.isEmpty then return []
  let kept := if e.config.aliasing.isLazy && a.canHaveAliases then [a] else []
  if a.base.isNone then return kept
  let receiver ← pathOfReceiver callee c f
  return kept ++ receiver.toList ++ (← pathsOfParams callee c f reflective)

def intoCallee (d1 f : Fact) (call : Stmt) (callee : MethodId) : Track FactSet := do
  let e ← read
  let (fromRules, kill) ← (Rule.applyCall (Rule.chain e) d1 f call callee).run {}
  if kill.all then return []
  let set := fromRules.getD []
  match call.call? with
  | none => return set
  | some c =>
    let mapped ← pathsInCallee (e.method callee) c f (e.graph.isReflective call.id)
    mapped.foldlM (fun set a => do
      let isRead := a.base.any (e.graph.reads callee)
      if e.config.aliasing.isLazy || f.implicit || isRead then
        return set.insertAll (← derive f (some a) (some call.id)).toList
      else return set) set

/-! ## Past a call -/

def allRead (c : Call) (f : Fact) (reflective : Bool) : List MethodId → Track Bool
  | [] => return true
  | m :: rest => do
    let e ← read
    if e.isExcluded m then return false
    let callee := e.method m
    let isRead ←
      if callee.isConcrete then
        pure ((← pathsInCallee callee c f reflective).all fun a => a.base.all (e.graph.reads m))
      else pure true
    if isRead then allRead c f reflective rest else return false

/-- The callees carry the taint themselves: it is a field of an object that all of them read. -/
def carriedByCallees (f now : Fact) (call : Stmt) : Track Bool := do
  let e ← read
  let p := f.path
  let callees := e.graph.calleesOf call.id
  let isValue := p.ty.any fun t => t.isPrimitive || (t.isString && !p.immutable)
  if !callees.any (fun m => (e.method m).isConcrete) || isValue ||
      (!e.config.inspectSources && e.isSource call.id) ||
      (!e.config.inspectSinks && e.isSink call.id) || !now.path.isInstanceField then return false
  match call.call? with
  | none => return false
  | some c =>
    if !(← allRead c f (e.graph.isReflective call.id) callees) then return false
    let onBase ← match c.base with
      | some b => holdsTaint (.var b) now
      | none => pure false
    let onArg ← anyHoldsTaint c.args now
    return onBase || onArg

def passesCall (f now : Fact) (call : Stmt) (killed : Bool) : Track Bool := do
  let e ← read
  let direct ←
    if killed || now.path.isStaticField then pure false
    else pure !(← carriedByCallees f now call)
  -- Static fields skip callees that never write them.
  let untouched := f.path.isStaticField && f.path.firstField?.any fun field =>
    !(e.graph.calleesOf call.id).any fun m => e.graph.writesStatic m field
  return direct || untouched || f.inConditional || f.path.isEmpty

def addNative (d1 : Fact) (call : Stmt) (c : Call) (f : Fact) (set : FactSet) :
    Track FactSet := do
  let e ← read
  let isNative := (e.graph.calleesOf call.id).any (fun m => (e.method m).isNative) ||
    (e.program.bySignature? c.method.signature).any (·.isNative)
  let isArgument := f.path.base.any fun l => c.args.any fun a => a.local? == some l
  if !e.native || !isNative || !isArgument then return set
  match ← nativeTaints call f c.args with
  | none => return set
  | some taints =>
    taints.foldlM (fun set g => do
      let set := set.insert g
      match g.aliasTarget? with
      | none => return set
      | some target =>
        if g.path.isStaticField || call.canCreateAliases target g.path then
          computeAliases d1 call.id target set call.method g
        else return set) set

def pastCall (d1 f : Fact) (call : Stmt) : Track FactSet := do
  let e ← read
  let now ← activateAt f call.id
  let (set, kill) ← (Rule.applyCallToReturn (Rule.chain e) d1 now call false).run {}
  if kill.all then return []
  if e.isZero f then return set
  -- The conditional lasts until the method is left: nothing here can end it.
  if now.joins.head?.any fun j => j.stmt?.isNone then return [now]
  let passes ← passesCall f now call kill.source
  let set := if passes && !e.isZero now then set.insert now else set
  let set ← match call.call? with
    | some c => addNative d1 call c now set
    | none => pure set
  stampCall now call.id set

end Track
end LeakTrace
