import LeakTrace.Alias.Query

/-!
# Looking for the aliases of a new taint

A new taint on the heap may be visible through other names. The flow-sensitive search hands an
inactive copy to the backward solver. The search by points-to sets walks the method once for each
taint and context. Inside a conditionally called method there is no calling context to search in;
there the heap assignments of the method relate their two sides in both directions.
-/

namespace LeakTrace
namespace Track

/-! ## Conditionally called methods -/

/-- The two sides of every heap assignment of a method, in both directions. -/
def heapPairs (m : Method) : Track (List (AccessPath × AccessPath)) := do
  let e ← read
  let pairs ← m.body.mapM fun s => do
    match (e.stmt s).action with
    | .assign lhs rhs =>
      let movable (v : Value) : Bool := v.isFieldRef || v.local?.isSome
      if (lhs.isFieldRef && movable rhs) || (rhs.isFieldRef && movable lhs) then
        let a ← paths (Paths.ofValue lhs true)
        let b ← paths (Paths.ofValue rhs true)
        match a, b with
        | some a, some b => return [(a, b), (b, a)]
        | _, _ => return []
      else return []
    | _ => return []
  return pairs.flatten

def partners (pairs : List (AccessPath × AccessPath)) (a : AccessPath) : List AccessPath :=
  pairs.foldl (fun found (x, y) =>
    if x.same a && !found.any y.same then found ++ [y] else found) []

/-- Aliases of a tainted field by the heap assignments of the method. `search` goes on from an alias
whose base is itself a field. -/
def aliasesByPairs (pairs : List (AccessPath × AccessPath))
    (search : Value → FactSet → Fact → Track FactSet) (target : Value) (set : FactSet) (f : Fact) :
    Track FactSet := do
  match target with
  | .field base _ =>
    let some b ← paths (Paths.ofValue (.var base) true) | return set
    (partners pairs b).foldlM (fun set a => do
      let merged ← paths (Paths.merge a f.accessPath)
      let some g ← derive f merged none | return set
      if set.contains g then return set
      let set := set.insert g
      match a.base, a.firstField? with
      | some l, some field => search (.field l field) set g
      | _, _ => return set) set
  | _ => return set

/-- Each search adds a fact to the set, so `fuel` is not reached. -/
def methodAliases (fuel : Nat) (pairs : List (AccessPath × AccessPath)) (target : Value)
    (set : FactSet) (f : Fact) : Track FactSet :=
  match fuel with
  | 0 => return set
  | n + 1 => aliasesByPairs pairs (methodAliases n pairs) target set f

/-! ## Points-to sets -/

def isHeapOperand : Value → Bool
  | .var _ | .field _ _ | .global _ | .element _ _ => true
  | _ => false

/-- Makes the fact wait for the statement that created the taint. -/
def waitIf (before : Bool) (act : StmtId) (f : Fact) : Track Fact := do
  let e ← read
  if before then return f.deactivate (← fresh) act e.config.defersActivation else return f

/-- Hands an alias that was found at a statement to the taint analysis. -/
def sendAlias (d1 f : Fact) (path : Option AccessPath) (act : StmtId) (before : Bool)
    (s : StmtId) : Track Unit := do
  if let some g ← derive f path (some s) then
    sendEdge .forward d1 s (← waitIf before act g)

/-- Aliases of a taint by one statement of the method. `search` goes on from an alias that the
statement creates. -/
def aliasesAt (search : Fact → StmtId → Track Unit) (d1 f : Fact) (target : PointsToTarget)
    (appended : List Step) (deep : Bool) (act : StmtId) (before : Bool) (s : StmtId) :
    Track Unit := do
  let e ← read
  let a := f.accessPath
  let overlaps (x y : PointsToTarget) : Bool := e.pointsTo.mayAlias e.hierarchy x y
  let aliased (v : Value) : Bool := (PointsToTarget.ofValue? v).any (overlaps target ·)
  match (e.stmt s).call? with
  | some c =>
    let baseAliases := match c.base, a.base with
      | some b, some p => overlaps (.local b) (.local p)
      | _, _ => false
    let argAliases := (c.args.filterMap Value.local?).any fun l => overlaps (.local l) target
    if baseAliases || argAliases then
      sendAlias d1 f (← paths (Paths.append a appended deep)) act before s
  | none =>
    match (e.stmt s).lhs?, (e.stmt s).rhs? with
    | some lhs, some rhs =>
      -- The taint may alias the right side: the left side takes over the fields.
      if isHeapOperand rhs && !appended.isEmpty && aliased rhs then
        let path ← paths (Paths.make { value := some lhs, steps := appended, deep })
        if let some g ← derive f path (some s) then search (← waitIf before act g) s
      -- The taint may alias the left side: the right side is tainted as well.
      if isHeapOperand lhs && isHeapOperand rhs && aliased lhs then
        let path ← paths (Paths.make { value := some rhs, steps := appended, deep })
        sendAlias d1 f path act before s
    | _, _ => return

/-- Aliases of a taint by the statements of the method; those before `act` have to wait for it. -/
def aliasesIn (search : Fact → StmtId → Track Unit) (d1 : Fact) (m : MethodId) (f : Fact)
    (appended : List Step) (deep : Bool) (act : StmtId) : Track Unit := do
  let e ← read
  let a := f.accessPath
  if a.steps.length > 1 || !e.hasForward then return
  let some target := PointsToTarget.ofPath? a.toPath | return
  let body := (e.method m).body
  let _ ← body.foldlM (fun before s => do
    let before := before && s != act
    aliasesAt search d1 f target appended deep act before s
    return before) (body.contains act)

/-- Aliases of a taint: those of what its path is a part of, and those by the statements of the
method. -/
def aliasesOf (search : Fact → List Step → Bool → StmtId → Track Unit) (d1 : Fact) (m : MethodId)
    (f : Fact) (appended : List Step) (deep : Bool) (act : StmtId) : Track Unit := do
  let a := f.accessPath
  if a.isInstanceField || (a.isStaticField && a.steps.length > 1) then
    if let some last := a.steps.getLast? then
      let parent ← paths (Paths.dropLast a)
      if let some g ← derive f parent none then
        search g (last :: appended) deep act
  aliasesIn (fun g s => search g [] g.path.deep s) d1 m f appended deep act

/-- A search that was made before is not repeated. -/
def searchOnce (d1 : Fact) (m : MethodId) (search : Fact → List Step → Bool → StmtId → Track Unit)
    (f : Fact) (appended : List Step) (deep : Bool) (act : StmtId) : Track Unit := do
  let key := (m, f.toTaint, d1.toTaint)
  if (← get).searched.contains key then return
  modify fun w => { w with searched := w.searched.insert key }
  aliasesOf search d1 m f appended deep act

/-- Searches the method for aliases of a taint. `appended` are fields that were taken off the path
on the way, `act` is the statement that created the taint. Each search is a new one, so `fuel` is
not reached. -/
def searchPointsTo (fuel : Nat) (d1 : Fact) (m : MethodId) (f : Fact) (appended : List Step)
    (deep : Bool) (act : StmtId) : Track Unit :=
  match fuel with
  | 0 => return
  | n + 1 => searchOnce d1 m (searchPointsTo n d1 m) f appended deep act

/-! ## All strategies -/

/-- More steps than any search takes. -/
def searchFuel : Nat := 1000000000000

/-- Looks for aliases of a fact that is new at a statement, and returns the set with those that are
found at once. -/
def computeAliases (d1 : Fact) (src : StmtId) (target : Value) (set : FactSet) (m : MethodId)
    (f : Fact) : Track FactSet := do
  let e ← read
  if !f.path.canHaveAliases then return set
  if e.isConditional d1 then
    match target with
    | .field _ _ => methodAliases searchFuel (← heapPairs (e.method m)) target set f
    | _ => return set
  else
    match e.config.aliasing with
    | .flowSensitive =>
      if e.hasBackward then
        let g := f.deactivate (← fresh) src e.config.defersActivation
        for p in e.graph.forward.preds src do
          sendEdge .backward d1 p g
      return set
    | .ptsBased =>
      searchPointsTo searchFuel d1 m f [] f.path.deep src
      return set
    | .lazy | .none => return set

end Track
end LeakTrace
