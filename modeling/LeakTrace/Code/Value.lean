import LeakTrace.Code.Ty

/-!
# Locals, fields and the values of three-address code

A value is what stands on either side of an assignment. Four forms *hold* something and can
therefore carry a taint — locals, instance fields, static fields and array elements
(`Value.holds`); the rest are computed from those.

**`Value.uses` is the read set.** It lists every value read while the value is evaluated,
outermost first, the value itself left out. Everything that asks "is this local read here" goes
through it.
-/

namespace LeakTrace

/-- A variable of one method. The number is unique in the program and fixes the rest. -/
structure Local where
  id : Nat
  name : String
  ty : Ty
deriving DecidableEq, Hashable, Repr, Inhabited

structure Field where
  owner : String
  name : String
  ty : Ty
  isStatic : Bool
deriving DecidableEq, Hashable, Repr, Inhabited

def Field.ownerTy (f : Field) : Ty := .cls f.owner

def Field.text (f : Field) : String := "<" ++ f.owner ++ ": " ++ f.ty.text ++ " " ++ f.name ++ ">"

structure MethodRef where
  owner : String
  name : String
  params : List Ty
  ret : Ty
deriving DecidableEq, Hashable, Repr, Inhabited

namespace MethodRef

/-- What dispatch compares: everything but the declaring class. -/
def subSignature (m : MethodRef) : String :=
  m.ret.text ++ " " ++ m.name ++ "(" ++ String.intercalate "," (m.params.map Ty.text) ++ ")"

/-- The signature that a class's method with this sub-signature has. -/
def signatureIn (owner subSignature : String) : String :=
  "<" ++ owner ++ ": " ++ subSignature ++ ">"

def signature (m : MethodRef) : String := signatureIn m.owner m.subSignature

end MethodRef

inductive Const where
  | int (value : Int)
  | str (value : String)
  | cls (name : String)
  | null
deriving DecidableEq, Hashable, Repr, Inhabited

def Const.ty : Const → Ty
  | .int _ => .int
  | .str _ => .string
  | .cls _ => .cls "java.lang.Class"
  | .null => .null

def Const.text : Const → String
  | .int v => toString v
  | .str s => "\"" ++ s ++ "\""
  | .cls c => "class \"" ++ c ++ "\""
  | .null => "null"

inductive BinOp where
  | add | sub | mul | div | rem | and | or | xor | shl | shr
  | cmp
  | eq | ne | lt | le | gt | ge
deriving DecidableEq, Hashable, Repr, Inhabited

namespace BinOp

def all : List BinOp :=
  [.add, .sub, .mul, .div, .rem, .and, .or, .xor, .shl, .shr, .cmp, .eq, .ne, .lt, .le, .gt, .ge]

def symbol : BinOp → String
  | .add => "+"
  | .sub => "-"
  | .mul => "*"
  | .div => "/"
  | .rem => "%"
  | .and => "&"
  | .or => "|"
  | .xor => "^"
  | .shl => "<<"
  | .shr => ">>"
  | .cmp => "cmp"
  | .eq => "=="
  | .ne => "!="
  | .lt => "<"
  | .le => "<="
  | .gt => ">"
  | .ge => ">="

def ofSymbol? (s : String) : Option BinOp := all.find? (·.symbol == s)

def isCondition : BinOp → Bool
  | .eq | .ne | .lt | .le | .gt | .ge => true
  | _ => false

end BinOp

inductive CallKind where
  | static
  | virtual
  | interface
  /-- Constructor or superclass call, chosen by the declared class. -/
  | special
deriving DecidableEq, Hashable, Repr, Inhabited

namespace CallKind

def all : List CallKind := [.static, .virtual, .interface, .special]

def name : CallKind → String
  | .static => "static"
  | .virtual => "virtual"
  | .interface => "interface"
  | .special => "special"

def ofName? (s : String) : Option CallKind := all.find? (·.name == s)

end CallKind

inductive Value where
  | var (l : Local)
  | field (base : Local) (f : Field)
  | global (f : Field)
  | element (base : Local) (index : Value)
  | const (c : Const)
  | cast (ty : Ty) (op : Value)
  | isInstance (op : Value) (ty : Ty)
  | length (op : Value)
  | alloc (ty : Ty)
  | allocArray (elem : Ty) (size : Value)
  | binary (op : BinOp) (lhs rhs : Value)
  | negate (op : Value)
  | call (kind : CallKind) (method : MethodRef) (base : Option Local) (args : List Value)
  | self (ty : Ty)
  | param (index : Nat) (ty : Ty)
  | caught (ty : Ty)
deriving Repr, Inhabited

namespace Value

mutual

/-- Equality of values, by recursion on the first. -/
def beq : Value → Value → Bool
  | .var a, .var b => a == b
  | .field a f, .field b g => a == b && f == g
  | .global f, .global g => f == g
  | .element a i, .element b j => a == b && beq i j
  | .const a, .const b => a == b
  | .cast t a, .cast u b => t == u && beq a b
  | .isInstance a t, .isInstance b u => t == u && beq a b
  | .length a, .length b => beq a b
  | .alloc t, .alloc u => t == u
  | .allocArray t a, .allocArray u b => t == u && beq a b
  | .binary o a b, .binary p c d => o == p && beq a c && beq b d
  | .negate a, .negate b => beq a b
  | .call k m b as, .call l n c bs => k == l && m == n && b == c && beqList as bs
  | .self t, .self u => t == u
  | .param i t, .param j u => i == j && t == u
  | .caught t, .caught u => t == u
  | _, _ => false

def beqList : List Value → List Value → Bool
  | [], [] => true
  | a :: as, b :: bs => beq a b && beqList as bs
  | _, _ => false

end

instance : BEq Value := ⟨beq⟩

def null : Value := .const .null

def ty : Value → Ty
  | .var l => l.ty
  | .field _ f | .global f => f.ty
  | .element base _ => base.ty.element?.getD .object
  | .const c => c.ty
  | .cast t _ => t
  | .isInstance _ _ => .boolean
  | .length _ => .int
  | .alloc t => t
  | .allocArray e _ => .array e
  | .binary op l _ => if op == .cmp then .int else if op.isCondition then .boolean else l.ty
  | .negate v => v.ty
  | .call _ m _ _ => m.ret
  | .self t | .param _ t | .caught t => t

/-! ## The forms that hold something -/

def local? : Value → Option Local
  | .var l => some l
  | _ => none

def isConst : Value → Bool
  | .const _ => true
  | _ => false

def isFieldRef : Value → Bool
  | .field _ _ | .global _ => true
  | _ => false

def isElement : Value → Bool
  | .element _ _ => true
  | _ => false

def isGlobal : Value → Bool
  | .global _ => true
  | _ => false

/-- Locals, fields and array elements can carry a taint. -/
def holds : Value → Bool
  | .var _ | .field _ _ | .global _ | .element _ _ => true
  | _ => false

def base? : Value → Option Local
  | .var l => some l
  | .field b _ | .element b _ => some b
  | _ => none

/-! ## Reads -/

mutual

/-- Every value read while this one is evaluated, itself left out. -/
def uses : Value → List Value
  | .field base _ => [.var base]
  | .element base index => .var base :: index :: index.uses
  | .cast _ op | .isInstance op _ | .length op | .negate op | .allocArray _ op => op :: op.uses
  | .binary _ l r => l :: l.uses ++ r :: r.uses
  | .call _ _ base args => (base.map Value.var).toList ++ usesList args
  | _ => []

def usesList : List Value → List Value
  | [] => []
  | a :: rest => a :: a.uses ++ usesList rest

end

/-! ## Text -/

mutual

def text : Value → String
  | .var l => l.name
  | .field base f => base.name ++ "." ++ f.name
  | .global f => f.text
  | .element base index => base.name ++ "[" ++ index.text ++ "]"
  | .const c => c.text
  | .cast t op => "(" ++ t.text ++ ") " ++ op.text
  | .isInstance op t => op.text ++ " instanceof " ++ t.text
  | .length op => "lengthof " ++ op.text
  | .alloc t => "new " ++ t.text
  | .allocArray e size => "newarray (" ++ e.text ++ ")[" ++ size.text ++ "]"
  | .binary op l r => l.text ++ " " ++ op.symbol ++ " " ++ r.text
  | .negate v => "neg " ++ v.text
  | .call _ m base args =>
    (match base with
      | some b => b.name
      | none => m.owner) ++ "." ++ m.name ++ "(" ++ String.intercalate ", " (texts args) ++ ")"
  | .self _ => "@this"
  | .param i _ => "@parameter" ++ toString i
  | .caught _ => "@caughtexception"

def texts : List Value → List String
  | [] => []
  | v :: rest => v.text :: texts rest

end
end Value

structure Call where
  kind : CallKind
  method : MethodRef
  base : Option Local
  args : List Value
deriving Repr, Inhabited

def Call.toValue (c : Call) : Value := .call c.kind c.method c.base c.args

def Value.call? : Value → Option Call
  | .call k m b as => some ⟨k, m, b, as⟩
  | _ => none

end LeakTrace
