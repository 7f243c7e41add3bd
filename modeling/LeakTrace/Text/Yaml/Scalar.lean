import LeakTrace.Text.Yaml.Cursor

/-!
# The text of scalars

A scalar is written plainly, in quotation marks of two kinds, or as a block of indented lines. The
readers here take a cursor and return the text the scalar stands for with the cursor behind it, or
nothing if the scalar is not well formed. Every step of a reader passes at least one character, so
its `fuel` never runs out if it exceeds the number of characters that are left.

**Folding.** Within plain and quoted scalars a line end is read as a blank, and of several line ends
in a row the first is dropped (`Gap.text`). Block scalars that start with `>` fold too, but not
around lines that are indented further.
-/

namespace LeakTrace
namespace Yaml

inductive Style where
  | plain
  | singleQuoted
  | doubleQuoted
  /-- A block that keeps its lines. -/
  | literal
  /-- A block whose lines are joined. -/
  | folded
deriving DecidableEq, Repr, Inhabited

/-! ## Blank space inside a scalar -/

/-- Blank space between two words of a scalar. -/
structure Gap where
  blanks : List Char := []
  breaks : List Char := []
  /-- A line end that was escaped came first. -/
  escaped : Bool := false
deriving Inhabited

def Gap.hasBreak (g : Gap) : Bool := g.escaped || !g.breaks.isEmpty

def Gap.text (g : Gap) : List Char :=
  if g.escaped then g.breaks
  else
    match g.breaks with
    | [] => g.blanks
    | ['\n'] => [' ']
    | '\n' :: more => more
    | breaks => breaks

/-- Reads blank space. On lines after the first a tab before column `least` is refused. -/
def readGap (least : Nat) : Nat → Gap → Cursor → Option (Gap × Cursor)
  | 0, _, _ => none
  | n + 1, g, c =>
    match c.newline? with
    | some (b, c) => readGap least n { g with breaks := g.breaks ++ [b] } c
    | none =>
      match c.rest with
      | [] => some (g, c)
      | x :: _ =>
        if !isBlank x then some (g, c)
        else if !g.hasBreak then readGap least n { g with blanks := g.blanks ++ [x] } (c.advance 1)
        else if x == '\t' && c.column < least then none
        else readGap least n g (c.advance 1)

/-! ## Plain scalars -/

/-- The characters of a plain scalar up to blank space or an indicator that ends it. Inside brackets
a colon in front of an indicator is refused. -/
def plainWord (flow : Bool) : List Char → Option (List Char)
  | [] => some []
  | c :: cs =>
    if isSpace c then some []
    else if flow && c == ':' && cs.head?.any (fun d => isFlowMark d || d == '?') then none
    else if (c == ':' && atGap cs) || (flow && isFlowMark c) then some []
    else (plainWord flow cs).map (c :: ·)

/-- The rest of a plain scalar after the text `acc` and the space `g`. Outside brackets its lines
start at column `least` or deeper. The flag says that a line end stands behind it. -/
def readPlain (flow : Bool) (least : Nat) :
    Nat → String → Gap → Cursor → Option (String × Bool × Cursor)
  | 0, _, _, _ => none
  | n + 1, acc, g, c =>
    if c.atMarker || c.isAt '#' then some (acc, g.hasBreak, c)
    else
      match plainWord flow c.rest with
      | none => none
      | some [] => some (acc, g.hasBreak, c)
      | some word =>
        let acc := acc ++ String.ofList (g.text ++ word)
        let c := c.advance word.length
        match readGap least n {} c with
        | none => none
        | some (g, next) =>
          if next.offset == c.offset then some (acc, false, c)
          else if !flow && next.column < least then some (acc, g.hasBreak, next)
          else readPlain flow least n acc g next

/-! ## Quoted scalars -/

/-- The character whose number has the digits of `value` and then `n` more, in base sixteen. -/
def hexChar : Nat → Nat → List Char → Option Char
  | 0, value, _ => if h : value.isValidChar then some (Char.ofNatAux value h) else none
  | n + 1, value, c :: cs => (hex? c).bind fun d => hexChar n (value * 16 + d) cs
  | _ + 1, _, [] => none

def escapes : List (Char × Nat) :=
  [('0', 0), ('a', 7), ('b', 8), ('t', 9), ('\t', 9), ('n', 10), ('v', 11), ('f', 12), ('r', 13),
    ('e', 27), (' ', 32), ('"', 34), ('/', 47), ('\\', 92), ('N', 0x85), ('_', 0xA0), ('L', 0x2028),
    ('P', 0x2029)]

/-- The character of an escape behind its backslash, and how many characters the escape has. -/
def escape? : List Char → Option (Char × Nat)
  | 'x' :: cs => (hexChar 2 0 cs).map fun c => (c, 3)
  | 'u' :: cs => (hexChar 4 0 cs).map fun c => (c, 5)
  | 'U' :: cs => (hexChar 8 0 cs).map fun c => (c, 9)
  | c :: _ => (escapes.find? (·.1 == c)).map fun e => (Char.ofNat e.2, 1)
  | [] => none

/-- The text `acc` with the characters of a quoted scalar up to blank space or the closing mark. The
flag says that an escaped line end came first. -/
def quotedWord (double : Bool) : Nat → String → Cursor → Option (String × Bool × Cursor)
  | 0, _, _ => none
  | n + 1, acc, c =>
    let word := c.rest.takeWhile fun x =>
      !isSpace x && (if double then x != '"' && x != '\\' else x != '\'')
    let acc := acc ++ String.ofList word
    let c := c.advance word.length
    match c.rest with
    | '\'' :: '\'' :: _ => quotedWord double n (acc.push '\'') (c.advance 2)
    | '\\' :: cs =>
      match (c.advance 1).newline? with
      | some (_, c) => some (acc, true, c)
      | none =>
        match escape? cs with
        | some (e, used) => quotedWord double n (acc.push e) (c.advance (used + 1))
        | none => none
    | _ => some (acc, false, c)

/-- The rest of a quoted scalar after the text `acc`. No document may end inside it. -/
def readQuoted (double : Bool) : Nat → String → Cursor → Option (String × Cursor)
  | 0, _, _ => none
  | n + 1, acc, c =>
    if c.atMarker || c.atEnd then none
    else
      match quotedWord double n acc c with
      | none => none
      | some (acc, escaped, c) =>
        if c.isAt (if double then '"' else '\'') then some (acc, c.advance 1)
        else
          match readGap 0 n { escaped := escaped } c with
          | none => none
          | some (g, c) => readQuoted double n (acc ++ String.ofList g.text) c

/-! ## Block scalars -/

/-- What becomes of the line ends behind the last line of a block. -/
inductive Chomping where
  /-- None is kept. -/
  | strip
  /-- That of the last line is kept. -/
  | clip
  /-- All are kept. -/
  | keep
deriving DecidableEq, Repr, Inhabited

def Chomping.ofMark? : Option Char → Option Chomping
  | some '-' => some .strip
  | some '+' => some .keep
  | _ => none

/-- A depth of indentation, one digit that is not zero. -/
private def depth? : Option Char → Option Nat
  | some c => if c.isDigit then some (c.toNat - '0'.toNat) else none
  | none => none

/-- The signs behind `|` or `>`, in either order: what to do with final line ends, and how deep the
block is indented if that is said. -/
def blockHeader? (c : Cursor) : Option (Chomping × Option Nat × Cursor) :=
  let header : Chomping × Option Nat × Nat :=
    match Chomping.ofMark? c.rest[0]? with
    | some k =>
      match depth? c.rest[1]? with
      | some d => (k, some d, 2)
      | none => (k, none, 1)
    | none =>
      match depth? c.rest[0]? with
      | some d =>
        match Chomping.ofMark? c.rest[1]? with
        | some k => (k, some d, 2)
        | none => (.clip, some d, 1)
      | none => (.clip, none, 0)
  let (chomping, depth, used) := header
  if depth == some 0 then none
  else (c.advance used).endLine?.map fun c => (chomping, depth, c)

/-- Moves over empty lines to the first character of a line at column `indent`, or of a line that is
indented less. Without `indent` any number of blanks is passed. The answer has the line ends, and
the deepest column that was reached. -/
def blockBreaks (indent : Option Nat) :
    Nat → List Char → Nat → Cursor → Option (List Char × Nat × Cursor)
  | 0, _, _, _ => none
  | n + 1, breaks, deepest, c =>
    let room := match indent with
      | some i => c.rest.take (i - c.column)
      | none => c.rest
    let c := c.advance (room.takeWhile (· == ' ')).length
    let deepest := max deepest c.column
    if c.isAt '\t' && indent.all (c.column < ·) then none
    else
      match c.newline? with
      | some (b, c) => blockBreaks indent n (breaks ++ [b]) deepest c
      | none => some (breaks, deepest, c)

/-- The lines of a block in column `indent`. `ended` is the line end of the last line and `breaks`
are those of empty lines behind it; `deeper` says that the last line started with a blank. -/
def blockLines (folding : Bool) (indent : Nat) : Nat → String → Option Char → List Char → Bool →
    Cursor → Option (String × Option Char × List Char × Cursor)
  | 0, _, _, _, _, _ => none
  | n + 1, acc, ended, breaks, deeper, c =>
    if c.column != indent || c.atEnd then some (acc, ended, breaks, c)
    else
      let blank := c.rest.head?.any isBlank
      let joint :=
        if folding && ended == some '\n' && !deeper && !blank then
          if breaks.isEmpty then [' '] else []
        else ended.toList
      let line := c.rest.takeWhile (!isBreak ·)
      let acc := acc ++ String.ofList (joint ++ breaks ++ line)
      let c := c.advance line.length
      let (ended, c) := match c.newline? with
        | some (b, c) => (some b, c)
        | none => (none, c)
      match blockBreaks (some indent) n [] 0 c with
      | none => none
      | some (breaks, _, c) => blockLines folding indent n acc ended breaks blank c

/-- Reads a block scalar behind its `|` or `>`. The block is deeper than `least`, the column of the
collection it stands in plus one. -/
def readBlock (folding : Bool) (least fuel : Nat) (c : Cursor) : Option (String × Cursor) := do
  let (chomping, depth, c) ← blockHeader? c
  let given := depth.map fun d => if least == 0 then d else least - 1 + d
  let (breaks, deepest, c) ← blockBreaks given fuel [] 0 c
  let indent := given.getD (max deepest (max least 1))
  let (text, ended, breaks, c) ← blockLines folding indent fuel "" none breaks false c
  let last := if chomping == .strip then [] else ended.toList
  let more := if chomping == .keep then breaks else []
  return (text ++ String.ofList (last ++ more), c)

end Yaml
end LeakTrace
