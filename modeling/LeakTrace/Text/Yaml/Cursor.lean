/-!
# A place in a YAML text

Layout matters in YAML, so a place in the text is more than what is left of it: `Cursor` counts
lines, columns and bytes as it moves. Columns are counted in characters from zero.
-/

namespace LeakTrace
namespace Yaml
variable (c : Char)

/-! ## Characters -/

def isBlank : Bool := c == ' ' || c == '\t'

/-- Five characters end a line: line feed, carriage return, next line, and the separators of lines
and paragraphs. -/
def isBreak : Bool :=
  c == '\n' || c == '\r' || c.toNat == 0x85 || c.toNat == 0x2028 || c.toNat == 0x2029

def isSpace : Bool := isBlank c || isBreak c

def isWord : Bool := c.isAlphanum || c == '_' || c == '-'

/-- Characters with a meaning of their own inside brackets. -/
def isFlowMark : Bool :=
  c == ',' || c == '[' || c == ']' || c == '{' || c == '}'

/-- A mark of byte order is passed over at the start of a line, but it takes a column. -/
def isByteOrderMark : Bool := c.toNat == 0xFEFF

/-- Characters that may occur in a text at all: no control characters but tabs and line ends. -/
def isAllowed : Bool :=
  let n := c.toNat
  n == 0x09 || n == 0x0A || n == 0x0D || (0x20 ≤ n && n ≤ 0x7E) || n == 0x85 ||
    (0xA0 ≤ n && n ≤ 0xFFFD) || 0x10000 ≤ n

def hex? : Option Nat :=
  if c.isDigit then some (c.toNat - '0'.toNat)
  else if 'a' ≤ c && c ≤ 'f' then some (c.toNat - 'a'.toNat + 10)
  else if 'A' ≤ c && c ≤ 'F' then some (c.toNat - 'A'.toNat + 10)
  else none

/-- The text ends here or goes on with a blank or a new line. -/
def atGap : List Char → Bool
  | [] => true
  | c :: _ => isSpace c

def byteLength (cs : List Char) : Nat := cs.foldl (fun n c => n + c.utf8Size) 0

/-! ## Places -/

structure Cursor where
  rest : List Char
  offset : Nat := 0
  line : Nat := 0
  column : Nat := 0
deriving Inhabited

namespace Cursor
variable (c : Cursor)

def atEnd : Bool := c.rest.isEmpty

def isAt (x : Char) : Bool := c.rest.head? == some x

def advance (n : Nat) : Cursor :=
  ⟨c.rest.drop n, c.offset + byteLength (c.rest.take n), c.line, c.column + n⟩

def advanceWhile (p : Char → Bool) : Cursor :=
  c.advance (c.rest.takeWhile p).length

/-- The line end at this place, as scalars keep it, and the place behind it. A carriage return with
a line feed is one line end; only the two separators are kept as they are. -/
def newline? : Option (Char × Cursor) :=
  match c.rest with
  | '\r' :: '\n' :: cs => some ('\n', ⟨cs, c.offset + 2, c.line + 1, 0⟩)
  | x :: cs =>
    if isBreak x then
      some (if x.toNat < 0x2028 then '\n' else x, ⟨cs, c.offset + x.utf8Size, c.line + 1, 0⟩)
    else none
  | [] => none

/-- A marker between documents stands here, at the start of a line. -/
def atMarker : Bool :=
  c.column == 0 &&
    match c.rest with
    | '-' :: '-' :: '-' :: cs | '.' :: '.' :: '.' :: cs => atGap cs
    | _ => false

/-- Moves over blanks and a comment to the end of the line, which must follow, and behind it. -/
def endLine? : Option Cursor :=
  let c := c.advanceWhile isBlank
  let c := if c.isAt '#' then c.advanceWhile (!isBreak ·) else c
  if c.atEnd then some c else c.newline?.map (·.2)

end Cursor
end Yaml
end LeakTrace
