import LeakTrace.Code.Hierarchy

/-!
# Casts that can succeed

The checks that let the analysis drop taints on casts that cannot succeed. Without type checking
every cast may succeed.
-/

namespace LeakTrace

structure Casts where
  hierarchy : Hierarchy
  enabled : Bool
deriving Repr, Inhabited

/-- A value of type `source` can be cast to `dest`. An unknown type always can. -/
def Casts.check (c : Casts) (dest : Ty) (source : Option Ty) : Bool :=
  !c.enabled ||
    match source with
    | some s => c.hierarchy.castable dest s
    | none => true

/-- Arrays are not nested deeper by the alias search. -/
def Ty.maxDimensions : Nat := 3

/-- The array type that holds values of type `t`: arrays gain a dimension up to the limit, any other
type takes the given array type. -/
def Ty.addDimension? (t array : Ty) : Option Ty :=
  if !t.isArray then some array
  else if t.dimensions ≥ maxDimensions then none
  else some (.array t)

end LeakTrace
