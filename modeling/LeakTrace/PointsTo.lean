import LeakTrace.Path.Basic

/-!
# Which places may hold the same object

A points-to oracle answers for locals, fields of locals and static fields. The one by type says that
two places may hold the same object when their declared types admit a common one.
-/

namespace LeakTrace

/-- A place whose contents can be asked about. -/
inductive PointsToTarget where
  | local (l : Local)
  | field (l : Local) (f : Field)
  | global (f : Field)
deriving DecidableEq, Repr, Inhabited

namespace PointsToTarget

/-- The root of a path with its first field. -/
def ofPath? (p : Path) : Option PointsToTarget :=
  match p.base, p.firstField? with
  | some b, some f => some (.field b f)
  | some b, none => some (.local b)
  | none, some f => some (.global f)
  | none, none => none

def ofValue? : Value → Option PointsToTarget
  | .var l | .element l _ => some (.local l)
  | .field l f => some (.field l f)
  | .global f => some (.global f)
  | _ => none

def ty : PointsToTarget → Ty
  | .local l => l.ty
  | .field _ f | .global f => f.ty

end PointsToTarget

inductive PointsTo where
  | byType
  | always
  | never
deriving DecidableEq, Repr, Inhabited

/-- Two locals may refer to one object. -/
def PointsTo.localsOverlap (h : Hierarchy) (a b : Local) : Bool :=
  if a == b then a.ty.isReference
  else a.ty.isReference && b.ty.isReference && h.castable a.ty b.ty

/-- Two places may hold the same object. -/
def PointsTo.mayAlias (o : PointsTo) (h : Hierarchy) (a b : PointsToTarget) : Bool :=
  match o with
  | .always => true
  | .never => false
  | .byType =>
    match a, b with
    | .local x, .local y => localsOverlap h x y
    | .field x f, .field y g => f == g && f.ty.isReference && localsOverlap h x y
    | a, b =>
      if a == b then a.ty.isReference
      else a.ty.isReference && b.ty.isReference && h.castable a.ty b.ty

end LeakTrace
