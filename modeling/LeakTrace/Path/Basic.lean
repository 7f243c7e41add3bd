import LeakTrace.Code.Cast
import LeakTrace.Code.Value

/-!
# Access paths

An access path names a place that can hold data: a local or a static field, followed by a chain of
field steps. It says whether everything below that place is meant as well, and which part of an
array. **Equality is the equality of `Path`**: an `AccessPath` adds one flag, whether the chain was
shortened on the way, and that flag never tells two paths apart.
-/

namespace LeakTrace

inductive ArrayPart where
  | contents
  | length
  | both
deriving DecidableEq, Hashable, Repr, Inhabited

/-- One field of a chain, with the type the analysis knows for it. -/
structure Step where
  field : Field
  ty : Ty
deriving DecidableEq, Hashable, Repr, Inhabited

def Step.of (f : Field) : Step := ⟨f, f.ty⟩

structure Path where
  /-- The local at the root; static fields have none. -/
  base : Option Local := none
  ty : Option Ty := none
  steps : List Step := []
  /-- Everything reachable from the place is meant as well. -/
  deep : Bool := true
  part : ArrayPart := .both
  /-- Aliases matter although the value cannot change. -/
  immutable : Bool := false
deriving DecidableEq, Hashable, Repr, Inhabited

structure AccessPath extends Path where
  /-- The chain was cut to the length limit or folded. -/
  cut : Bool := false
deriving Repr, Inhabited

namespace Path
variable (p : Path)

def empty : Path := {}

def isEmpty (p : Path) : Bool := p.base.isNone && p.steps.isEmpty

def isLocal : Bool := p.base.isSome && p.steps.isEmpty

def isInstanceField : Bool := p.base.isSome && !p.steps.isEmpty

def isStaticField : Bool := p.base.isNone && !p.steps.isEmpty

def fields : List Field := p.steps.map (·.field)

def firstField? : Option Field := p.steps.head?.map (·.field)

def firstTy? : Option Ty := p.steps.head?.map (·.ty)

def lastField? : Option Field := p.steps.getLast?.map (·.field)

/-- The type at the end of the chain, or of the base where there is no chain. -/
def lastTy? : Option Ty :=
  match p.steps.getLast? with
  | some s => some s.ty
  | none => p.ty

def rootTy? : Option Ty := if p.isStaticField then p.firstTy? else p.ty

def startsWith : Value → Bool
  | .var l => p.base == some l
  | .global f => p.isStaticField && p.firstField? == some f
  | .field b f => p.base == some b && p.firstField? == some f
  | _ => false

/-- Every place that `q` means is meant by `p` as well. -/
def entails (p q : Path) : Bool :=
  !p.isEmpty && !q.isEmpty && p.base == q.base && (p.deep || !q.deep) &&
    (p.part == .both || p.part == q.part) &&
    (if p.deep then p.fields.isPrefixOf q.fields else p.fields == q.fields)

/-- Same place, whatever types and flags say. -/
def samePlace (p q : Path) : Bool := p.base == q.base && p.fields == q.fields

def text (p : Path) : String :=
  if p.isEmpty then "<<zero>>"
  else
    let root := match p.base, p.ty with
      | some l, some t => l.name ++ "(" ++ t.text ++ ")"
      | some l, none => l.name
      | none, _ => ""
    let chain := match p.base, p.steps with
      | none, s :: rest => s.field.text :: rest.map fun s => "." ++ s.field.name
      | _, steps => steps.map fun s => "." ++ s.field.name
    root ++ String.join chain ++ (if p.deep then " *" else "") ++
      match p.part with
      | .both => " <+length>"
      | .length => " <length>"
      | .contents => ""

end Path

def AccessPath.empty : AccessPath := ⟨Path.empty, false⟩

def AccessPath.same (a b : AccessPath) : Bool := a.toPath == b.toPath

/-- The object a path names can have type `t`. Only a path that ends at its root can name a
primitive array, and the empty path has no root. -/
def Casts.checkPath (c : Casts) (p : Path) (t : Ty) : Bool :=
  !c.enabled ||
    (let rest := if p.isStaticField then p.steps.drop 1 else p.steps
     let ends := if p.isStaticField then rest.isEmpty else p.isLocal
     c.check t p.rootTy? && (ends || !t.isPrimitiveArray) &&
       match rest with
       | s :: _ => c.check t (some s.field.ownerTy)
       | [] => true)

/-- The base of a path can be the receiver of a method of the class. -/
def Casts.checkReceiver (c : Casts) (p : Path) (owner : String) : Bool :=
  !c.enabled ||
    match p.ty with
    | some t =>
      if t.isPrimitive then false
      else if t.isArray then (Ty.cls owner).isObject
      else c.checkPath p (.cls owner)
    | none => c.checkPath p (.cls owner)

end LeakTrace
