import LeakTrace.Path.Basic

/-!
# The place that an expression reads or writes

Casts, lengths and negations are looked through, and an array element stands for its array. What is
left is compared with the root of a tainted path: loosely, where the path may go on below it, or
strictly, where it must end there.
-/

namespace LeakTrace
namespace Value

/-- The value whose taint an expression takes over. With `keepElements` array elements stay. -/
def root (keepElements : Bool) : Value → Value
  | .element b i => if keepElements then .element b i else .var b
  | .cast _ op | .length op | .negate op => op.root keepElements
  | v => v

/-- The values whose taint an expression takes over: both operands of a binary expression. -/
def roots (keepElements : Bool) : Value → List Value
  | .binary _ l r => [l.root keepElements, r.root keepElements]
  | v => [v.root keepElements]

/-- Locals and fields: what an alias can be rooted in. -/
def isTracked : Value → Bool
  | .var _ | .field _ _ | .global _ => true
  | _ => false

end Value

namespace Path

def hasRoot (p : Path) : Value → Bool
  | .var l => p.base == some l
  | .field b f => p.base == some b && p.firstField? == some f
  | .global f => p.firstField? == some f
  | _ => false

def isExactly (p : Path) (v : Value) : Bool :=
  p.hasRoot v &&
    match v with
    | .var _ => p.isLocal
    | .field _ _ | .global _ => p.steps.length == 1
    | _ => false

def isOn (p : Path) (v : Value) : Bool := v.local?.isSome && v.local? == p.base

end Path
end LeakTrace
