import LeakTrace.Text.Yaml.Node

/-!
# What the nodes of a YAML document mean

A scalar has no type of its own: whoever reads it says what it should be. Numbers and truth values
are written plainly, or as a block with the tag of their type; a text may be written in any way.

**Following aliases is rationed.** A small document can unfold into a very large one by aliases to
nodes that hold aliases. An extraction therefore carries how many more aliases it may follow, and
fails when there are none left.
-/

namespace LeakTrace

/-- The extraction of a value from a document. The state is the number of aliases that may still be
followed. -/
abbrev Extract := StateT Nat Option

namespace Yaml

/-! ## The texts of values -/

def isNullText (s : String) : Bool := ["null", "Null", "NULL", "~"].contains s

def boolOfText? (s : String) : Option Bool :=
  if ["true", "True", "TRUE"].contains s then some true
  else if ["false", "False", "FALSE"].contains s then some false
  else none

private def digitsIn? (radix : Nat) (cs : List Char) : Option Nat :=
  if cs.isEmpty then none
  else cs.foldlM (fun v c => (hex? c).bind fun d =>
    if d < radix then some (v * radix + d) else none) 0

/-- Takes off one plus sign; a second sign behind it is refused. -/
private def unsigned? : List Char → Option (List Char)
  | '+' :: cs => if cs.head? == some '+' || cs.head? == some '-' then none else some cs
  | cs => some cs

/-- A whole number without sign or with a plus sign, in base ten, sixteen, eight or two, below
`2 ^ 64`. A decimal with leading zeros is no number. -/
def natOfText? (s : String) : Option Nat := do
  let cs ← unsigned? s.toList
  let v ← match cs with
    | '0' :: 'x' :: ds => digitsIn? 16 ds
    | '0' :: 'o' :: ds => digitsIn? 8 ds
    | '0' :: 'b' :: ds => digitsIn? 2 ds
    | '0' :: _ :: _ => none
    | ds => digitsIn? 10 ds
  if v < Nat.pow 2 64 then some v else none

private def exponent? : List Char → Option Int
  | [] => some 0
  | e :: ds =>
    if e != 'e' && e != 'E' then none
    else
      match ds with
      | '-' :: ds => (digitsIn? 10 ds).map fun n => -(n : Int)
      | '+' :: ds => (digitsIn? 10 ds).map fun n => (n : Int)
      | ds => (digitsIn? 10 ds).map fun n => (n : Int)

/-- A decimal number with optional point and exponent, without sign. -/
private def decimal? (cs : List Char) : Option Float :=
  let whole := cs.takeWhile Char.isDigit
  let rest := cs.dropWhile Char.isDigit
  let (places, rest) := match rest with
    | '.' :: cs => (cs.takeWhile Char.isDigit, cs.dropWhile Char.isDigit)
    | cs => ([], cs)
  if whole.isEmpty && places.isEmpty then none
  else
    (exponent? rest).bind fun e =>
      let digits := (digitsIn? 10 (whole ++ places)).getD 0
      let e := e - places.length
      -- Beyond these sizes the number is zero or too large.
      let size : Int := e + (Nat.toDigits 10 digits).length
      if digits == 0 || size < -400 then some 0.0
      else if size > 400 then none
      else
        let f := Float.ofScientific digits (e < 0) e.natAbs
        if f.isInf then none else some f

/-- A decimal number, an infinity by its name, or the value that is no number. -/
def floatOfText? (s : String) : Option Float := do
  let cs ← unsigned? s.toList
  if [".inf", ".Inf", ".INF"].contains (String.ofList cs) then some (1.0 / 0.0)
  else if ["-.inf", "-.Inf", "-.INF"].contains s then some (-1.0 / 0.0)
  else if [".nan", ".NaN", ".NAN"].contains s then some (0.0 / 0.0)
  else
    match cs with
    | '-' :: ds => (decimal? ds).map (-·)
    | ds => decimal? ds

/-! ## The values of nodes -/

namespace Node

def aliasBudget (root : Node) : Nat := 100 * root.size

/-- The node that an alias stands for, any other node itself. -/
def resolve (root : Node) : Node → Extract Node
  | .alias id => do
    match ← get with
    | 0 => failure
    | n + 1 =>
      set n
      liftM (root.find? id)
  | y => return y

/-- The text of a scalar that is read as a value of the named type. -/
private def valueText? (type : String) : Node → Option String
  | .scalar p text style =>
    if style == .plain || (style == .literal && p.tag == some (coreTag type)) then some text
    else none
  | _ => none

/-- A plain scalar without any characters stands for an empty collection too. -/
private def isBlankScalar : Node → Bool
  | .scalar _ text style => text.isEmpty && style == .plain
  | _ => false

variable (root y : Node)

def nat : Extract Nat := do
  liftM ((valueText? "int" (← resolve root y)).bind natOfText?)

def float : Extract Float := do
  liftM ((valueText? "float" (← resolve root y)).bind floatOfText?)

def bool : Extract Bool := do
  liftM ((valueText? "bool" (← resolve root y)).bind boolOfText?)

def text : Extract String := do
  match ← resolve root y with
  | .scalar _ text _ => return text
  | _ => failure

private def ownTag? : List UInt8 → Option String
  | b :: bs => if b == '!'.toNat.toUInt8 then String.fromUTF8? bs.toByteArray else none
  | [] => none

/-- A word out of a fixed list: a text, or a tag that says it all. -/
def word : Extract String := do
  match ← resolve root y with
  | .scalar p text style =>
    match p.tag.bind ownTag? with
    | some name =>
      if style == .plain && (text.isEmpty || isNullText text) then return name else failure
    | none => return text
  | _ => failure

/-- The node, or nothing if it says that there is nothing. What has the tag for nothing must say
so. -/
def optional : Extract (Option Node) := do
  let y ← resolve root y
  match y with
  | .scalar p text .plain =>
    match p.tag with
    | some tag =>
      if tag != coreTag "null" then return some y
      else if isNullText text then return none
      else failure
    | none => return if text.isEmpty || isNullText text then none else some y
  | y => return some y

def items : Extract (List Node) := do
  match ← resolve root y with
  | .seq _ items => return items
  | y => if isBlankScalar y then return [] else failure

def entries : Extract (List (String × Node)) := do
  match ← resolve root y with
  | .map _ entries => entries.mapM fun e => return (← text root e.1, e.2)
  | y => if isBlankScalar y then return [] else failure

end Node
end Yaml
end LeakTrace
