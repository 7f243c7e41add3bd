import LeakTrace.Flow.Basic

/-!
# The flow functions of the alias search

Facts walk against the control flow, as inactive copies of taints on the heap. Every alias found on
the way up is handed to the forward solver right below the statement that created it, and carries
that statement as its turn. Should the same path come back up in a later search, the search stops at
the turn: above it the base names an older object.
-/

namespace LeakTrace

/-- What a definition makes of a fact found below it. -/
inductive Verdict where
  | unrelated
  /-- It creates an alias of the type, with the first field taken off where `cutFirst` says so. -/
  | alias (ty : Option Ty) (cutFirst : Bool)
  /-- The search goes on above it only with what is known already. -/
  | settled
  | dead

namespace Backward

/-! ## Definitions -/

/-- A fact about a place that can have aliases: primitive values have none. -/
def aliasable (f : Option Fact) : Option Fact :=
  f.filter fun f => !(f.path.rootTy?.any Ty.isPrimitive)

def isPrimitiveLike (t : Ty) : Bool := t.isPrimitive || t.isPrimitiveArray

/-- Hands an alias to the forward solver just below a statement. -/
def handForward (d1 : Fact) (s : StmtId) (f : Fact) : Track Unit := do
  let e ← read
  if e.hasForward then
    let turned := f.turnAt (← Track.fresh) s
    for t in e.graph.forward.succs s do
      Track.sendEdge .forward d1 t turned

def isAbout (p : Path) (base : Local) (field : Field) : Bool :=
  p.isInstanceField && p.base == some base && p.firstField? == some field

/-- The right side is tainted: the left side is an alias of it from here on. -/
def leftVerdict (e : Env) (lhs rhs : Value) (p : Path) : Verdict :=
  let whole : Verdict :=
    if !p.isOn (rhs.root false) then .unrelated
    else
      let element := match rhs with
        | .element _ _ => true
        | _ => false
      if !lhs.isElement && !element && !e.casts.checkPath p lhs.ty then .dead
      else
        let ty := if lhs.isElement then p.ty.bind fun t => t.addDimension? (.array lhs.ty)
          else if element then p.ty.bind Ty.element?
          else p.ty
        match rhs with
        | .cast t _ =>
          .alias (if ty.any fun u => e.hierarchy.canStore u t then ty else some t) false
        | .length _ | .isInstance _ _ => .settled
        | .element _ _ => if p.part == .length then .settled else .alias ty false
        | _ => .alias ty false
  match rhs.root false with
  | .field base field => if isAbout p base field then .alias p.firstTy? true else .unrelated
  | .global field =>
    if e.config.staticFields != .ignored && p.isStaticField && p.firstField? == some field then
      .alias p.ty true
    else .unrelated
  | _ => whole

/-- The left side is tainted: the right side is an alias of it as well. -/
def rightVerdict (e : Env) (lhs rhs : Value) (p : Path) : Verdict :=
  match lhs with
  | .field base field => if isAbout p base field then .alias p.firstTy? true else .unrelated
  | .element base _ =>
    if p.base == some base && p.part != .length then .alias p.ty false else .unrelated
  | .var l =>
    if p.base != some l then .unrelated
    else if p.isInstanceField || e.casts.checkPath p rhs.ty then .alias p.ty false
    else .dead
  | _ => .unrelated

/-- The type under which the right side takes over a taint, and whether it can hold it. -/
def takenOver (e : Env) (lhs rhs : Value) (ty : Option Ty) : Option Ty × Bool :=
  let held := (rhs.root false).ty
  match ty with
  | none => (none, true)
  | some t =>
    match rhs, lhs with
    | .element _ _, _ => (t.addDimension? (.array rhs.ty), true)
    | _, .element _ _ =>
      let element := t.element?.getD Ty.object
      -- Generic element types are tightened to what is actually stored.
      let element := if element.isObjectLike then held else element
      (some element, e.casts.check held (some element))
    | .length _, _ => (none, true)
    | _, _ => (some t, true)

/-- Looks for an alias on the right side of a definition whose left side is tainted. -/
def takeRight (d1 : Fact) (s : Stmt) (lhs rhs : Value) (f : Fact) (set : FactSet)
    (ty : Option Ty) (cutFirst : Bool) : Track (Option FactSet) := do
  let e ← read
  let rv := rhs.root false
  let (ty, fits) := takenOver e lhs rhs ty
  let ty := match rhs with
    | .length _ => none
    | _ => ty
  -- Only plain locals and static fields may carry primitive taints.
  if f.path.isInstanceField && (ty.any isPrimitiveLike || isPrimitiveLike rv.ty) then return none
  if !fits || !e.casts.check rv.ty ty || (rv.isGlobal && e.config.staticFields == .ignored) then
    return some set
  let path ← Track.paths (Paths.ontoTyped f.accessPath rv ty cutFirst)
  match aliasable (← Track.derive f path (some s.id)) with
  | none => return some set
  | some g =>
    if g.path == f.path then return some set
    if rv.isGlobal && e.config.staticFields == .insensitive then
      let _ ← Track.addGlobal g
      return some set
    handForward d1 s.id g
    return some (set.insert g)

/-- The facts above an assignment for a fact found below it; nothing if the search ends there. -/
def acrossAssign (d1 : Fact) (s : Stmt) (lhs rhs : Value) (f : Fact) : Track (Option FactSet) := do
  let e ← read
  let overwritten := f.path.hasRoot lhs
  let set : FactSet := if overwritten then [] else [f]
  let rv := rhs.root false
  if overwritten && !rv.holds then return some set
  let computed := match rhs with
    | .allocArray _ _ | .binary _ _ _ | .negate _ => true
    | _ => rv.isConst
  if computed then return some set
  let handedOver := f.path.isExactly rv && rv.ty.isClass && !f.cutDependent
  if !handedOver && !rv.ty.isPrimitive then
    match leftVerdict e lhs rhs f.path with
    | .dead => return none
    | .settled => return some set
    | .unrelated => pure ()
    | .alias ty cutFirst =>
      let path ← Track.paths (Paths.ontoTyped f.accessPath lhs ty cutFirst)
      if let some g := aliasable (← Track.derive f path (some s.id)) then
        -- Valid only below the definition, so it does not go on upwards.
        if g.path != f.path then handForward d1 s.id g
  if !rv.isTracked || lhs.ty.isPrimitive then return some set
  match rightVerdict e lhs rhs f.path with
  | .dead => return none
  | .settled | .unrelated => return some set
  | .alias ty cutFirst => takeRight d1 s lhs rhs f set ty cutFirst

def acrossDefinition (d1 : Fact) (s : Stmt) (lhs : Value) (f : Fact) : Track FactSet := do
  let e ← read
  if e.isZero f then return []
  match s.action with
  | .entry _ _ => return [f]
  | .assign _ rhs => return (← acrossAssign d1 s lhs rhs f).getD []
  | _ => return []

def normal (d1 f : Fact) (s succ : StmtId) : Track Flow := do
  let e ← read
  let stmt := e.stmt s
  match stmt.lhs? with
  | none => return { facts := [f] }
  | some lhs =>
    if e.isZero f then return Flow.silent
    let set ← acrossDefinition d1 stmt (lhs.root true) f
    let set := if f.turn == some s then set.erase f else set
    -- A definition at the start of the method is not visited as a statement of its own.
    let dest := e.stmt succ
    if e.graph.backward.isExit succ then
      if let some lhs := dest.lhs? then
        for g in set do
          let _ ← acrossDefinition d1 dest (lhs.root true) g
    return Flow.visible s set

/-! ## Calls -/

def isBarred (f : Fact) (s : Stmt) (callee : MethodId) : Track Bool := do
  let e ← read
  let c := e.config
  if (!c.inspectSources && e.isSource s.id) || (!c.inspectSinks && e.isSink s.id) then return true
  -- The taint came out of this callee.
  if ← Track.isActivating s.id f.waitsFor then return true
  let unread := c.staticFields != .ignored && f.path.isStaticField &&
    f.path.firstField?.any fun field => !e.graph.readsStatic callee field
  return (c.staticFields == .ignored && (e.method callee).isStaticInitializer) ||
    e.isExclusive s || e.isExcluded callee || unread

/-- The paths with which a taint enters a callee from below the call. -/
def entering (f : Fact) (s : Stmt) (callee : Method) : Track (List AccessPath) := do
  let e ← read
  let a := f.accessPath
  -- A tainted result is whatever the callee returns.
  let returned := if s.lhs?.any a.toPath.isOn then
      (callee.body.filterMap fun t => (e.stmt t).returned?).filter fun v =>
        v.isTracked && e.casts.checkPath a.toPath v.ty
    else []
  let fromResult ← returned.filterMapM fun v => Track.paths (Paths.ontoTyped a v none false)
  let static :=
    if e.config.staticFields != .ignored && a.isStaticField then [a] else []
  match s.call? with
  | none => return fromResult ++ static
  | some c =>
    let receiver := match c.base, callee.self with
      | some b, some this =>
        if !callee.isStatic && a.base == some b && e.casts.checkReceiver a.toPath callee.owner &&
            !c.args.any a.toPath.isOn then some this
        else none
      | _, _ => none
    let params := if callee.sig.params.isEmpty then []
      else c.args.zipIdx.filterMap fun (arg, i) =>
        if a.toPath.isOn arg then callee.params[i]? else none
    let entered ← (receiver.toList ++ params).filterMapM fun l =>
      Track.paths (Paths.onto a (.var l))
    return fromResult ++ static ++ entered

def call (d1 f : Fact) (s : StmtId) (callee : MethodId) : Track Flow := do
  let e ← read
  if f.turn == some s || !(e.method callee).hasBody || e.isZero f then return Flow.silent
  let stmt := e.stmt s
  if ← isBarred f stmt callee then return Flow.visible s []
  let set ← (← entering f stmt (e.method callee)).foldlM (fun (set : FactSet) a => do
    return set.insertAll (aliasable (← Track.derive f (some a) (some s))).toList) []
  -- What leaves the callee in this context returns to the forward analysis too.
  return { Flow.visible s set with
    contexts := if e.hasForward then set.map fun g => ⟨.forward, callee, g, s, d1⟩ else [] }

/-! ## Returns -/

/-- Two arguments that are one object make their parameters aliases, and a returned parameter is an
alias without any assignment. -/
def handParamAliases (calleeD1 f moved : Fact) (exit : StmtId) (callee : Method) (c : Call)
    (i : Nat) (p : Local) (arg : Value) : Track Unit := do
  let e ← read
  if !e.hasForward then return
  for (other, j) in c.args.zipIdx do
    if i != j && other == arg then
      if let some q := callee.params[j]? then
        let a := moved.accessPath
        let path ← Track.paths (Paths.ontoTyped a (.var q) a.ty false)
        if let some g := aliasable (← Track.derive f path (some exit)) then
          Track.sendEdge .forward calleeD1 exit (g.turnAt (← Track.fresh) exit)
  let returned := (e.graph.backward.starts callee.id).any fun s =>
    ((e.stmt s).returned?.bind Value.local?) == some p
  if returned then
    Track.sendEdge .forward calleeD1 exit (f.turnAt (← Track.fresh) exit)

/-- A parameter whose argument the caller can see through. -/
def leadsOut (e : Env) (p : Path) (callee : MethodId) (l : Local) (arg : Value) : Bool :=
  arg.holds && e.casts.checkPath p arg.ty && !(p.ty.any Ty.isPrimitive) &&
    !((p.ty.any Ty.isString) && !p.immutable) && !e.graph.writes callee l

def moveUp (f : Fact) (exit call : StmtId) (callee : MethodId) (v : Value) :
    Track (Option Fact) := do
  let a := f.accessPath
  let path ← Track.paths (Paths.ontoTyped a v a.ty false)
  match aliasable (← Track.derive f path (some exit)) with
  | none => return none
  | some g =>
    let _ ← Track.registerActivation call callee g
    return some g

/-- Leaves a callee upwards. Results do not exist yet at its top, so only parameters and the
receiver lead back. -/
def aboveCallee (calleeD1 f : Fact) (exit : StmtId) (callee : Method) (call : Stmt)
    (c : Call) : Track FactSet := do
  let e ← read
  let p := f.path
  let onParams := callee.params.zipIdx.filter fun (l, _) => p.base == some l
  let set ← onParams.foldlM (fun (set : FactSet) (l, i) => do
    match c.args[i]? with
    | none => return set
    | some arg =>
      if !leadsOut e p callee.id l arg then return set
      match ← moveUp f exit call.id callee.id arg with
      | none => return set
      | some g =>
        handParamAliases calleeD1 f g exit callee c i l arg
        return set.insert g) []
  if !onParams.isEmpty || callee.isStatic then return set
  match callee.self, c.base with
  | some this, some base =>
    if p.base == some this && e.casts.checkReceiver p callee.owner then
      return set.insertAll (← moveUp f exit call.id callee.id (.var base)).toList
    else return set
  | _, _ => return set

def ret (call : Option StmtId) (callee : MethodId) (exit : StmtId) (calleeD1 f : Fact) :
    Track Flow := do
  let e ← read
  match call with
  | none => return Flow.silent
  | some cs =>
    if e.isZero f then return Flow.silent
    if e.config.staticFields != .ignored && f.path.isStaticField then
      let _ ← Track.registerActivation cs callee f
      return { facts := [f], seenAt := some cs, leftAt := some exit }
    let stmt := e.stmt cs
    match stmt.call? with
    | none => return { seenAt := some cs, leftAt := some exit }
    | some c =>
      let set ← aboveCallee calleeD1 f exit (e.method callee) stmt c
      return { facts := ← Track.stampCall f cs set, seenAt := some cs, leftAt := some exit }

/-! ## Past calls -/

/-- The fact goes on above a call that it has nothing to do with, or that nobody enters. -/
def passes (e : Env) (f : Fact) (s : Stmt) : Bool :=
  match s.call? with
  | none => true
  | some c =>
    let p := f.path
    let callees := e.graph.calleesOf s.id
    let notEntered := callees.isEmpty ||
      (e.program.bySignature? c.method.signature).any fun m => e.isExcluded m.id
    let carried := e.config.staticFields != .ignored && p.isStaticField &&
      p.firstField?.any fun field => callees.any fun m => e.graph.writesStatic m field
    let mentioned := (c.base.isSome && c.base == p.base) || c.args.any p.isOn
    !s.lhs?.any p.isOn && (notEntered || !(carried || mentioned))

def pastCall (d1 f : Fact) (s : Stmt) : Track FactSet := do
  let e ← read
  if e.isZero f then return []
  match ← Track.sharingAliases s f with
  | some (g :: rest) =>
    (g :: rest).foldlM (fun (set : FactSet) g => do
      if !g.same f then handForward d1 s.id g
      return if s.lhs?.any g.path.isOn then set else set.insert g) []
  | _ => return if passes e f s then [f] else []

def callToReturn (d1 f : Fact) (s : StmtId) : Track Flow := do
  let e ← read
  let set ← pastCall d1 f (e.stmt s)
  return Flow.visible s (if f.turn == some s then set.erase f else set)

end Backward
end LeakTrace
