import LeakTrace.Flow.Basic

/-!
# Taints across assignments

An assignment whose right side reads a taint taints its left side. What is read decides the path:
reading a field takes that field off, reading the whole object keeps the path, and inside a
conditional on tainted data everything that is written is tainted.
-/

namespace LeakTrace

/-- How the right side of an assignment reads a taint. -/
structure Reading where
  /-- The path that is read, which can differ from the tainted one by a folded stretch. -/
  path : AccessPath
  /-- The first field of the path is what was read. -/
  cutFirst : Bool := false
  /-- The type of what is read, if it is known better than by declaration. -/
  ty : Option Ty := none

namespace Track

def reading? (f : Fact) (v : Value) : Track (Option Reading) := do
  let e ← read
  let a := f.accessPath
  match v with
  | .global _ =>
    let hit ← mayAlias a v
    if e.config.staticFields == .ignored then return none
    return hit.map fun path => { path, cutFirst := true }
  | .field base field =>
    match ← mayAlias a v with
    | some path => return some { path, cutFirst := path.firstField? == some field }
    | none =>
      if !(← holdsTaint (.var base) f) || !a.steps.isEmpty || !a.deep then return none
      let path ← paths (Paths.ofValue (.var base) true)
      return some { path := path.getD a, ty := some field.ty }
  | _ =>
    if ← holdsTaint v f then return some { path := a, ty := a.ty } else return none

/-- How the first of the values that does so reads the taint. A field of the null reference ends the
search. -/
def firstReading? (f : Fact) : List Value → Track (Option Reading)
  | [] => return none
  | v :: rest => do
    let onNull : Bool := match v with
      | .field base _ => base.ty == .null
      | _ => false
    if onNull then return none
    match ← reading? f v with
    | some r => return some r
    | none => firstReading? f rest

def arrivingTy (e : Env) (lhs rhs : Value) (ty : Option Ty) : Option Ty :=
  let ty := match lhs, ty with
    | .element _ _, some t => t.addDimension? (.array lhs.ty)
    | _, t => t
  match rhs with
  | .cast t _ => if ty.any fun u => e.hierarchy.canStore u t then ty else some t
  | .binary op _ _ => if op == .cmp || op.isCondition then none else ty
  | .length _ => none
  | _ => ty

def written (s : Stmt) (lhs rhs : Value) (f : Fact) (r : Reading) :
    Track (Option Fact) := do
  let e ← read
  let a := f.accessPath
  if a.isEmpty then
    let path ← paths (Paths.ofValue lhs true)
    return f.deriveAs? (← fresh) path (some s.id) true
  let asFlag ← match rhs with
    | .isInstance _ _ =>
      if e.config.instanceOf then
        derive f (← paths (Paths.ofTyped lhs (some .boolean) true .both)) (some s.id)
      else pure none
    | _ => pure none
  match asFlag with
  | some g => return some g
  | none =>
    let part := if lhs.isElement && e.config.arraySizes then .contents else a.part
    let path ← paths (Paths.rebase a lhs (arrivingTy e lhs rhs r.ty) r.cutFirst true part)
    derive f path (some s.id)

def taintLeft (d1 : Fact) (s : Stmt) (lhs rhs : Value) (f : Fact) (r : Reading) :
    Track FactSet := do
  let e ← read
  if lhs.isGlobal && e.config.staticFields == .ignored then return []
  match ← written s lhs rhs f r with
  | none => return []
  | some g =>
    if lhs.isGlobal && e.config.staticFields == .insensitive then
      let _ ← addGlobal g
      return []
    if s.canCreateAliases lhs g.path then computeAliases d1 s.id lhs [g] s.method g
    else return [g]

/-- How the right side of an assignment reads the taint. An alias whose object is handed over whole
was found above already. -/
def rightReading? (f : Fact) (rhs : Value) : Track (Option Reading) := do
  let a := f.accessPath
  if a.isEmpty then return some { path := a }
  if !f.isActive && f.path.isExactly rhs && rhs.ty.isClass && !f.cutDependent then return none
  firstReading? f (rhs.roots true)

/-- The facts after an assignment that reads the taint, among them the fact itself. -/
def assignRead (d1 : Fact) (s : Stmt) (lhs rhs : Value) (f : Fact) (r : Reading) :
    Track FactSet := do
  let a := f.accessPath
  let cannotAlias := lhs.ty.isPrimitive || (lhs.ty.isString && !a.immutable)
  if !f.isActive && cannotAlias then return [f]
  match ← if r.path.same a then pure (some f) else derive f (some r.path) none with
  | none => return []
  | some g => return (← taintLeft d1 s lhs rhs g r).insert f

/-- The facts after an assignment; none if it does not read what the fact taints. -/
def assign (d1 : Fact) (s : Stmt) (lhs rhs : Value) (f : Fact) : Track FactSet := do
  let e ← read
  let isLength := match rhs with
    | .length _ => true
    | _ => false
  if isLength then return [f]
  let conditional := f.accessPath.isEmpty || (f.joins.head?.bind Join.stmt?).isSome
  -- Locals of a conditionally called method are invisible to the caller.
  if conditional && e.isConditional d1 && !lhs.isFieldRef then return [f]
  match ← rightReading? f rhs with
  | none => return []
  | some r => assignRead d1 s lhs rhs f r

end Track
end LeakTrace
