import LeakTrace.Alias.Select
import LeakTrace.Track

/-!
# Questions about aliases

Whether a new taint can have aliases at all, whether a tainted path covers a value that is read, and
whether two values may be the same object. Only the lazy alias search needs the points-to oracle
here: the other searches make aliases explicit, so that equal roots decide.
-/

namespace LeakTrace
namespace AliasSearch

/-- Aliases are found in the order of statements. -/
def isFlowSensitive : AliasSearch → Bool
  | .flowSensitive | .lazy => true
  | _ => false

/-- Aliases are decided where a value is read. -/
def isInteractive (a : AliasSearch) : Bool := a == .lazy

/-- Aliases are also looked for when a taint leaves a method. -/
def searchesOnReturn (a : AliasSearch) : Bool := a == .ptsBased

/-- Taints enter every callee, whether it reads them or not. -/
def isLazy (a : AliasSearch) : Bool := a == .lazy

end AliasSearch

/-- Strings and primitive values have no aliases that matter. -/
def Path.canHaveAliases (p : Path) : Bool :=
  !((p.ty.map Ty.isString).getD false && !p.immutable) &&
    !((p.rootTy?.map Ty.isPrimitive).getD false)

/-- Tainting the value at the statement can create aliases worth looking for. -/
def Stmt.canCreateAliases (s : Stmt) (v : Value) (source : Path) : Bool :=
  let overwritten := match s.lhs? with
    | some (.var l) => source.base == some l
    | _ => false
  if s.isDefinition && overwritten then false
  else if s.isDefinition && (v.isElement || v.isFieldRef) then true
  else if v.ty.isPrimitive || v.isConst then false
  else if v.ty.isString && !source.immutable then false
  else
    match v with
    | .field _ _ | .global _ => true
    | .var l => l.ty.isArray
    | _ => false

namespace Track

def pathsMayAlias (a b : Path) : Track Bool := do
  let e ← read
  return match PointsToTarget.ofPath? a, PointsToTarget.ofPath? b with
    | some x, some y => e.pointsTo.mayAlias e.hierarchy x y
    | _, _ => false

def lazyMayAlias (a b : Path) : Track Bool := do
  if a == b then return true
  pathsMayAlias a b

/-- What the alias search itself knows about two paths; only the lazy one knows anything. -/
def searchMayAlias (a b : Path) : Track Bool := do
  if (← read).config.aliasing.isInteractive then lazyMayAlias a b else return false

/-- Matches the fields of a read against a path. Where the path leaves out a folded stretch,
the stretch is put back in. -/
def coverFields (a : AccessPath) (field : Option Field) : Track (Option AccessPath) := do
  match field with
  | none => return some a
  | some f =>
    match a.steps.head? with
    | none => return if a.deep then some a else none
    | some s =>
      if s.field == f then return some a
      -- The first field of a static path is its root and is never folded.
      if a.isStaticField then return none
      let patterns := ((a.ty.map (← get).paths.patternsFor).getD [])
      match patterns.find? fun p => (p.head?.map (·.field)) == some f with
      | some p => paths (Paths.expand a 0 p)
      | none => return none

/-- The path by which a taint covers a value that is read, if it does. Mostly that is its own path;
it may also be the path with a folded stretch put back in. -/
def mayAlias (a : AccessPath) (v : Value) : Track (Option AccessPath) := do
  let e ← read
  if !v.holds then return none
  if e.config.aliasing.isInteractive then
    match ← paths (Paths.ofValue v true) with
    | none => return none
    | some b => if !(← lazyMayAlias a.toPath b.toPath) then return none
  else
    let sameRoot := match v with
      | .var l | .element l _ | .field l _ => a.base == some l
      | _ => true
    if !sameRoot then return none
  if v.isGlobal && !a.isStaticField then return none
  coverFields a (match v with
    | .field _ f | .global f => some f
    | _ => none)

def mayAliasValues (v w : Value) : Track Bool := do
  let e ← read
  if !v.holds || !w.holds then return false
  if v == w then return true
  if !e.config.aliasing.isInteractive then return false
  let a ← paths (Paths.ofValue v false)
  let b ← paths (Paths.ofValue w false)
  match a, b with
  | some a, some b => lazyMayAlias a.toPath b.toPath
  | _, _ => return false

def anyMayAlias (vs : List Value) (w : Value) : Track Bool := do
  for v in vs do
    if ← mayAliasValues v w then return true
  return false

end Track
end LeakTrace
