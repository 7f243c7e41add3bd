import LeakTrace.Closure
import LeakTrace.Code.Ty

/-!
# Classes and what may be stored where

A hierarchy is the list of its class declarations, in the order they were made. A class that was
never declared is a direct subclass of `java.lang.Object`; a class declared twice has the
information of its last declaration, while every declaration counts for the subtypes of the
classes it names.

The three compatibility questions build on each other: `canStore` is assignment compatibility,
`morePrecise?` picks the lower of two comparable types, and `castable` asks whether a cast can
succeed at all.
-/

namespace LeakTrace

/-- What a class declaration says besides the name. -/
structure ClassInfo where
  superclass : Option String := none
  interfaces : List String := []
  isInterface : Bool := false
  /-- Library classes can be kept out of an analysis. -/
  isLibrary : Bool := false
deriving DecidableEq, Repr, Inhabited

structure ClassDecl where
  name : String
  info : ClassInfo
deriving DecidableEq, Repr, Inhabited

structure Hierarchy where
  decls : List ClassDecl := []
deriving DecidableEq, Repr, Inhabited

namespace Hierarchy
variable (h : Hierarchy)

def declare (name : String) (info : ClassInfo) : Hierarchy :=
  { h with decls := h.decls ++ [⟨name, info⟩] }

/-- The last declaration of a class counts. -/
def info? (name : String) : Option ClassInfo :=
  h.decls.foldl (fun found d => if d.name == name then some d.info else found) none

def isLibrary (h : Hierarchy) (name : String) : Bool :=
  ((h.info? name).map (·.isLibrary)).getD false

def superclass? (name : String) : Option String :=
  (h.info? name).bind (·.superclass)

def parents (name : String) : List String :=
  match h.info? name with
  | some i => i.superclass.toList ++ i.interfaces
  | none => []

/-- Direct subtypes of a class, once for every mention in a declaration. -/
def children (name : String) : List String :=
  h.decls.flatMap fun d =>
    ((d.info.superclass.toList ++ d.info.interfaces).filter (· == name)).map fun _ => d.name

/-- No walk through the hierarchy meets more names than this: the start and every name that some
declaration mentions. -/
def nameBound : Nat :=
  h.decls.foldl (fun n d => n + 2 + d.info.interfaces.length) 1

/-- The class itself and everything it extends or implements. -/
def supertypes (name : String) : List String :=
  closure h.parents h.nameBound [name]

/-- The class itself and everything that extends or implements it, breadth first. -/
def subtypes (name : String) : List String :=
  closure h.children h.nameBound [name]

def isSubtype (child parent : String) : Bool :=
  child == parent || parent == Ty.objectName || (h.supertypes child).contains parent

/-- The class and its superclasses, nearest first. A cyclic chain is followed once around. -/
def superChain (name : String) : List String :=
  closure (fun c => (h.superclass? c).toList) h.nameBound [name]

/-! ## Compatibility of types -/

/-- A value of type `child` may be stored in a variable of type `parent`. -/
def canStore (h : Hierarchy) : (child parent : Ty) → Bool
  | .null, p => p == .null || p.isReference
  | .cls c, p => p == .cls c || p.isObject ||
    match p with
    | .cls q => h.isSubtype c q
    | _ => false
  | .array c, p => p.isObjectLike ||
    match p with
    | .array q => if c.isPrimitive || q.isPrimitive then c == q else c == q || h.canStore c q
    | _ => false
  | c, p => c == p

/-- The lower of two types that are comparable, `none` if no value can have both.

An array and a type comparable with its elements are accepted, and the array is kept. -/
def morePrecise? (h : Hierarchy) (a b : Ty) : Option Ty :=
  if a == b then some a
  else if a.isObjectLike && b.isReference then some b
  else if b.isObjectLike && a.isReference then some a
  else if a.isPrimitive && b.isPrimitive then none
  else if h.canStore b a then some b
  else if h.canStore a b then some a
  else
    match a, b with
    | .array x, .array y => (h.morePrecise? x y).map .array
    | .array x, other => (h.morePrecise? x other).map fun _ => a
    | other, .array y => (h.morePrecise? other y).map fun _ => b
    | _, _ => none
termination_by sizeOf a + sizeOf b

/-- A cast between two types is feasible if either can hold the other. -/
def castable (dest source : Ty) : Bool :=
  dest == source || (dest.isPrimitive && source.isPrimitive) ||
    h.canStore dest source || h.canStore source dest

end Hierarchy
end LeakTrace
