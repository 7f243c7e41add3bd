/-!
# The types of the analysed programs

The type language of a Java-like three-address code: eight primitives, `void`, the type of the
null constant, class types by name, and arrays. Every other module asks its questions about types
through the predicates here.

**Text and type determine each other** as far as text can: `Ty.text` writes a type and `Ty.ofText`
reads it back. A class may carry any name, so a class called `int` is the one thing that does not
survive the trip — `ofText` reads that text as the primitive.
-/

namespace LeakTrace

inductive Ty where
  | void
  | boolean
  | byte
  | char
  | short
  | int
  | long
  | float
  | double
  | null
  | cls (name : String)
  | array (elem : Ty)
deriving DecidableEq, Hashable, Repr, Inhabited

namespace Ty

def objectName : String := "java.lang.Object"

def stringName : String := "java.lang.String"

def markerNames : List String := ["java.io.Serializable", "java.lang.Cloneable"]

def object : Ty := .cls objectName

def string : Ty := .cls stringName

/-! ## Questions about one type -/

def isPrimitive : Ty → Bool
  | .boolean | .byte | .char | .short | .int | .long | .float | .double => true
  | _ => false

def isReference : Ty → Bool
  | .cls _ | .array _ | .null => true
  | _ => false

def isArray : Ty → Bool
  | .array _ => true
  | _ => false

def isClass : Ty → Bool
  | .cls _ => true
  | _ => false

def element? : Ty → Option Ty
  | .array e => some e
  | _ => none

def className? : Ty → Option String
  | .cls n => some n
  | _ => none

def innermost : Ty → Ty
  | .array e => e.innermost
  | t => t

def dimensions : Ty → Nat
  | .array e => e.dimensions + 1
  | _ => 0

/-- Arrays whose innermost element is primitive, such as `int[][]`. -/
def isPrimitiveArray (t : Ty) : Bool := t.isArray && t.innermost.isPrimitive

def isString (t : Ty) : Bool := t == string

def isObject (t : Ty) : Bool := t == object

/-- The types that can hold any reference. -/
def isObjectLike : Ty → Bool
  | .cls n => n == objectName || markerNames.contains n
  | _ => false

def isPrimitiveOrString (t : Ty) : Bool := t.isPrimitive || t.isString

/-! ## Text -/

def text : Ty → String
  | .void => "void"
  | .boolean => "boolean"
  | .byte => "byte"
  | .char => "char"
  | .short => "short"
  | .int => "int"
  | .long => "long"
  | .float => "float"
  | .double => "double"
  | .null => "null_type"
  | .cls n => n
  | .array e => e.text ++ "[]"

def ofName (s : String) : Ty :=
  match s with
  | "void" => .void
  | "boolean" => .boolean
  | "byte" => .byte
  | "char" => .char
  | "short" => .short
  | "int" => .int
  | "long" => .long
  | "float" => .float
  | "double" => .double
  | "null_type" => .null
  | n => .cls n

/-- Reads a type from its reversed characters, taking off one pair of brackets at a time. -/
def ofReversed : List Char → Ty
  | ']' :: '[' :: rest => .array (ofReversed rest)
  | cs => ofName (String.ofList cs.reverse)

def ofText (s : String) : Ty := ofReversed s.toList.reverse

/-! ## Order

Types are listed in the order of the constructors, then by their contents. -/

def rank : Ty → Nat
  | .void => 0
  | .boolean => 1
  | .byte => 2
  | .char => 3
  | .short => 4
  | .int => 5
  | .long => 6
  | .float => 7
  | .double => 8
  | .null => 9
  | .cls _ => 10
  | .array _ => 11

def cmp : Ty → Ty → Ordering
  | .cls a, .cls b => compare a b
  | .array a, .array b => cmp a b
  | a, b => compare a.rank b.rank

end Ty
end LeakTrace
