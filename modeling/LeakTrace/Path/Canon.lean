import LeakTrace.Config.Basic
import LeakTrace.Path.Reduce

/-!
# The canonical form of access paths

Every access path is made by `PathRules.canon`, in six steps: drop the first field where the path
moves through a field reference, collapse repetitions, narrow types against the declared ones, skip
detours to enclosing instances, fold recursive stretches, and cut to the length limit. A request
that names no place, or a place that cannot exist, has no canonical form.

**Folding reports even where no path results**: the last checks come after it, and what was cut out
of the chain stays known.
-/

namespace LeakTrace

structure PathRequest where
  /-- The root; without one the first step must be a static field. -/
  value : Option Value := none
  /-- A type for the root that is more exact than the declared one. -/
  ty : Option Ty := none
  steps : List Step := []
  deep : Bool := true
  /-- Drop the first step of the whole chain. -/
  cutFirst : Bool := false
  /-- Shorten chains through enclosing instances and recursive types. -/
  reduce : Bool := true
  part : ArrayPart := .both
  immutable : Bool := false
deriving Repr, Inhabited

structure PathRules where
  settings : PathSettings := {}
  casts : Casts := default
deriving Repr, Inhabited

/-- The outcome of a request: the path, if there is one, and the stretches cut by folding. -/
structure Canonical where
  path : Option AccessPath
  cuts : List (Ty × List Step) := []
deriving Repr, Inhabited

/-- A place before it is brought into canonical form. -/
structure Place where
  base : Option Local
  ty : Option Ty
  steps : List Step
deriving Repr, Inhabited

/-- The place a request names: fields at the root become the first step. -/
def PathRequest.place? (r : PathRequest) (ty : Option Ty) : Option Place :=
  match r.value with
  | some (.field b f) => some ⟨some b, some b.ty, Step.of f :: r.steps⟩
  | some (.global f) => some ⟨none, none, Step.of f :: r.steps⟩
  | some (.element b _) | some (.var b) => some ⟨some b, some (ty.getD b.ty), r.steps⟩
  | some _ => none
  | none => if r.steps.isEmpty then none else some ⟨none, ty, r.steps⟩

namespace PathRules
variable (r : PathRules)

/-! ## Narrowing types -/

/-- The type of the base, at least as exact as its declaration and the owner of the first field. -/
def narrowBase (h : Hierarchy) (p : Place) : Option (Option Ty) :=
  match p.base with
  | none => some p.ty
  | some l =>
    if p.ty == some l.ty then some p.ty
    else do
      let t ← match p.ty with
        | some t => h.morePrecise? t l.ty
        | none => some l.ty
      match p.steps with
      | s :: _ =>
        if t.isArray then return some t else return some (← h.morePrecise? t s.field.ownerTy)
      | [] => return some t

/-- Each step's type, at least as exact as the owner of the next field. -/
def narrowSteps (h : Hierarchy) : List Step → Option (List Step)
  | s :: next :: rest => do
    let ty ← if s.ty.isArray then some s.ty else h.morePrecise? s.ty next.field.ownerTy
    return { s with ty } :: (← narrowSteps h (next :: rest))
  | steps => some steps

def narrow (p : Place) : Option Place :=
  if r.casts.enabled then do
    let ty ← narrowBase r.casts.hierarchy p
    let steps ← narrowSteps r.casts.hierarchy p.steps
    return { p with ty, steps }
  else some p

/-! ## The pipeline -/

/-- The elements of a primitive array have no fields. -/
def arrayAllows (p : Place) : Bool :=
  match p.base.bind (·.ty.element?) with
  | some e => e.isReference || p.steps.isEmpty
  | none => true

/-- Primitive values have no fields, and a path names something. -/
def feasible (p : Place) : Bool :=
  !((p.ty.map Ty.isPrimitive).getD false && !p.steps.isEmpty) &&
    p.steps.dropLast.all (fun s => !s.field.ty.isPrimitive) &&
    !(p.base.isNone && p.steps.isEmpty)

/-- The chain after dropping the first field and collapsing repetitions. -/
def prepare (q : PathRequest) (steps : List Step) : List Step :=
  let steps := if r.settings.length == 0 then [] else steps
  let steps := if q.cutFirst then steps.drop 1 else steps
  if r.settings.collapseRepeats then Step.collapse steps else steps

/-- The chain after skipping detours, and after folding. The first step of a path without base is
its root and stays. -/
def shorten (q : PathRequest) (p : Place) : Step.Folded :=
  let steps :=
    if r.settings.foldOuterThis && q.reduce then Step.skipOuter p.ty p.steps else p.steps
  if r.settings.foldRecursive && q.reduce then
    match p.base, steps with
    | none, s :: rest =>
      let f := Step.fold (some s.ty) rest
      { f with steps := s :: f.steps }
    | none, [] => ⟨[], []⟩
    | some _, steps => Step.fold p.ty steps
  else ⟨steps, []⟩

/-- Cuts the chain to the limit; what was cut off is meant as well. -/
def limit (q : PathRequest) (p : Place) (folded : Bool) : AccessPath :=
  let tooLong := p.steps.length > r.settings.length
  { base := p.base
    ty := p.ty
    steps := p.steps.take r.settings.length
    deep := q.deep || tooLong
    part := q.part
    immutable := q.immutable
    cut := tooLong || folded }

def canon (q : PathRequest) : Canonical :=
  let ty := if r.casts.enabled then q.ty else none
  let place := do
    let p ← q.place? ty
    let p ← r.narrow { p with steps := r.prepare q p.steps }
    if arrayAllows p then some p else none
  match place with
  | none => ⟨none, []⟩
  | some p =>
    let f := r.shorten q p
    let a := r.limit q { p with steps := f.steps } (!f.cuts.isEmpty)
    ⟨if feasible ⟨a.base, a.ty, a.steps⟩ then some a else none, f.cuts⟩

end PathRules
end LeakTrace
