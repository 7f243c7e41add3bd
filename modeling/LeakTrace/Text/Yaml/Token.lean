import LeakTrace.Text.Yaml.Scalar

/-!
# The tokens of a YAML text

Tokens are the signs, names and scalars of a text together with the starts and ends of collections
that are only shown by indentation.

**A key is found late.** That a scalar or a bracket starts a key is known only when a colon follows.
Until then the scanner remembers where a key could have started (`PossibleKey`); at the colon it
puts `Token.key`, and if needed the start of a mapping, in front of what it has read since. A key
ends on its line and has at most 1024 bytes.
-/

namespace LeakTrace
namespace Yaml
variable (c : Cursor)

inductive Token where
  /-- The version of YAML that a document claims. -/
  | version (major minor : Nat)
  /-- A handle for tags and the bytes it stands for. -/
  | handle (name : String) (bytes : List UInt8)
  | documentStart
  | documentEnd
  /-- A sequence by indentation begins. -/
  | blockSequence
  /-- A mapping by indentation begins. -/
  | blockMapping
  /-- A collection by indentation ends. -/
  | blockEnd
  | openSequence
  | closeSequence
  | openMapping
  | closeMapping
  | comma
  | dash
  | key
  | value
  | alias (name : String)
  | anchor (name : String)
  /-- A tag by its handle, empty if it has none, and the bytes behind it. -/
  | tag (handle : String) (bytes : List UInt8)
  | scalar (text : String) (style : Style)
deriving DecidableEq, Repr, Inhabited

/-! ## Tags and directives -/

/-- Punctuation that may stand in a tag; `verbatim` tags may also hold signs of flow collections. -/
def isTagChar (verbatim : Bool) (c : Char) : Bool :=
  isWord c || [';', '/', '?', ':', '@', '&', '=', '+', '$', '.', '%', '!', '~', '*', '\'', '(',
    ')'].contains c || (verbatim && (c == ',' || c == '[' || c == ']'))

/-- How many bytes a character has by its first byte. -/
def byteCount? (first : Nat) : Option Nat :=
  if first < 0x80 then some 1
  else if first < 0xC0 then none
  else if first < 0xE0 then some 2
  else if first < 0xF0 then some 3
  else if first < 0xF8 then some 4
  else none

/-- A byte written as a percent sign and two digits. -/
def percentByte? : List Char → Option (Nat × List Char)
  | '%' :: a :: b :: cs => do return ((← hex? a) * 16 + (← hex? b), cs)
  | _ => none

/-- The bytes of a character after its first, each of them escaped. -/
def followingBytes? : Nat → List Char → Option (List UInt8 × List Char)
  | 0, cs => some ([], cs)
  | n + 1, cs => do
    let (b, cs) ← percentByte? cs
    if 0x80 ≤ b && b < 0xC0 then
      let (bs, cs) ← followingBytes? n cs
      return (b.toUInt8 :: bs, cs)
    else none

/-- The bytes of a tag; characters may be escaped byte by byte. -/
def tagBytes? (verbatim : Bool) : Nat → List Char → Option (List UInt8 × List Char)
  | 0, _ => none
  | _, [] => some ([], [])
  | n + 1, c :: cs =>
    if !isTagChar verbatim c then some ([], c :: cs)
    else if c == '%' then do
      let (first, cs) ← percentByte? (c :: cs)
      let (more, cs) ← followingBytes? ((← byteCount? first) - 1) cs
      let (bs, cs) ← tagBytes? verbatim n cs
      return (first.toUInt8 :: more ++ bs, cs)
    else do
      let (bs, cs) ← tagBytes? verbatim n cs
      return (c.toNat.toUInt8 :: bs, cs)

/-- Reads the bytes of a tag, which has at least one character unless some stand `before`. A zero
byte ends the tag. -/
def readTagBytes (verbatim : Bool) (before : List Char) (c : Cursor) :
    Option (List UInt8 × Cursor) := do
  let (bs, rest) ← tagBytes? verbatim (c.rest.length + 1) c.rest
  let used := c.rest.length - rest.length
  if used == 0 && before.isEmpty then none
  else
    let all := (before.drop 1).map (·.toNat.toUInt8) ++ bs
    return (all.takeWhile (· != 0), c.advance used)

/-- The handle at the start of a tag: an exclamation mark, or a word between two. What has no second
mark is part of the tag itself. -/
def handleChars (cs : List Char) : List Char :=
  let word := (cs.drop 1).takeWhile isWord
  let first := cs.take (word.length + 1)
  if cs[word.length + 1]? == some '!' then first ++ ['!'] else first

/-- The token of a tag with the cursor on its exclamation mark, whatever follows. -/
def tagToken : Option (Token × Cursor) :=
  if c.rest[1]? == some '<' then do
    let (bs, c) ← readTagBytes true [] (c.advance 2)
    if c.isAt '>' then some (.tag "" bs, c.advance 1) else none
  else
    let handle := handleChars c.rest
    let after := c.advance handle.length
    if handle.length > 1 && handle.getLast? == some '!' then
      (readTagBytes false [] after).map fun (bs, c) => (.tag (String.ofList handle) bs, c)
    else
      (readTagBytes false handle after).map fun (bs, c) =>
        (if bs.isEmpty then .tag "" ['!'.toNat.toUInt8] else .tag "!" bs, c)

/-- Reads a tag. Behind it stands blank space, or a comma inside brackets. -/
def readTag (flow : Bool) (c : Cursor) : Option (Token × Cursor) := do
  let (token, c) ← tagToken c
  if atGap c.rest || (flow && c.isAt ',') then some (token, c) else none

def readName : Option (String × Cursor) :=
  let name := c.rest.takeWhile isWord
  let c := c.advance name.length
  if !name.isEmpty &&
      (atGap c.rest || (c.rest.head?).any fun x =>
        ['?', ':', ',', ']', '}', '%', '@', Char.ofNat 96].contains x) then
    some (String.ofList name, c)
  else none

def readVersionPart : Option (Nat × Cursor) :=
  let digits := c.rest.takeWhile Char.isDigit
  if digits.isEmpty || digits.length > 9 then none
  else
    some (digits.foldl (fun v d => v * 10 + (d.toNat - '0'.toNat)) 0, c.advance digits.length)

/-- The version of YAML, two numbers with a point between. -/
def readVersion : Option (Token × Cursor) := do
  let (major, c) ← readVersionPart c
  if c.isAt '.' then
    let (minor, c) ← readVersionPart (c.advance 1)
    some (.version major minor, c)
  else none

/-- A handle for tags and, after blanks, what it stands for. -/
def readHandle : Option (Token × Cursor) := do
  let handle := handleChars c.rest
  let named := c.isAt '!' && (handle.length == 1 || handle.getLast? == some '!')
  let c := c.advance handle.length
  if named && c.rest.head?.any isBlank then
    let (bs, c) ← readTagBytes true [] (c.advanceWhile isBlank)
    if atGap c.rest then some (.handle (String.ofList handle) bs, c) else none
  else none

/-- Reads a directive behind its percent sign, to the end of its line. -/
def readDirective : Option (Token × Cursor) := do
  let name := c.rest.takeWhile isWord
  let c := c.advance name.length
  let value := c.advanceWhile isBlank
  let (token, c) ←
    if !atGap c.rest then none
    else if name == ['Y', 'A', 'M', 'L'] then readVersion value
    else if name == ['T', 'A', 'G'] then readHandle value
    else none
  some (token, ← c.endLine?)

/-! ## The scanner -/

/-- A place where a key may have started. -/
structure PossibleKey where
  token : Nat
  /-- Nothing but a key can stand there. -/
  required : Bool
  offset : Nat
  line : Nat
  column : Nat
deriving Inhabited

structure Scanner where
  cursor : Cursor
  tokens : Array Token := #[]
  flow : Nat := 0
  /-- The column of the innermost collection by indentation, below zero if there is none. -/
  indent : Int := -1
  outer : List Int := []
  /-- For every open bracket, and for the text around them, where a key may have started. -/
  keys : List (Option PossibleKey) := [none]
  keyAllowed : Bool := true
deriving Inhabited

/-- A step of the scanner. It fails if the text is not well formed. -/
abbrev Scan := StateT Scanner Option

namespace Scan

private def moveTo (c : Cursor) : Scan Unit := modify fun s => { s with cursor := c }

private def emit (t : Token) : Scan Unit := modify fun s => { s with tokens := s.tokens.push t }

private def allowKey (b : Bool) : Scan Unit := modify fun s => { s with keyAllowed := b }

private def emitSign (t : Token) : Scan Unit := do
  moveTo ((← get).cursor.advance 1)
  emit t

/-! ### Keys -/

/-- Gives up the key that may have started on this level. -/
def removeKey : Scan Unit := do
  match (← get).keys with
  | some k :: outer =>
    if k.required then failure
    modify fun s => { s with keys := none :: outer }
  | _ => return

/-- Remembers that a key may start here. In the column of the mapping around it nothing else can. -/
def saveKey : Scan Unit := do
  let s ← get
  if s.keyAllowed then
    let c := s.cursor
    let required := s.flow == 0 && s.indent == (c.column : Int)
    removeKey
    let k : PossibleKey := ⟨s.tokens.size, required, c.offset, c.line, c.column⟩
    modify fun s => { s with keys := some k :: s.keys.drop 1 }

/-- Gives up keys that would not end on their line or would be too long. -/
def dropStaleKeys : Scan Unit := do
  let s ← get
  let isStale (k : PossibleKey) : Bool :=
    k.line < s.cursor.line || k.offset + 1024 < s.cursor.offset
  if s.keys.any (·.any isStale) then
    if s.keys.any fun k => k.any fun k => isStale k && k.required then failure
    modify fun s => { s with keys := s.keys.map (Option.filter (!isStale ·)) }

/-! ### Indentation -/

/-- A collection starts in a column; unless one has there, its token is put at the given place. -/
def openBlock (column : Nat) (place : Nat) (t : Token) : Scan Unit := modify fun s =>
  if s.flow == 0 && s.indent < (column : Int) then
    { s with outer := s.indent :: s.outer, indent := column,
             tokens := s.tokens.insertIdxIfInBounds place t }
  else s

/-- Ends the collections whose columns lie behind the given one. -/
private def closeAll (column : Int) : List Int → Int → Array Token → Int × List Int × Array Token
  | outer, indent, tokens =>
    if indent > column then
      match outer with
      | i :: outer => closeAll column outer i (tokens.push .blockEnd)
      | [] => (-1, [], tokens.push .blockEnd)
    else (indent, outer, tokens)

def closeBlocks (column : Int) : Scan Unit := modify fun s =>
  if s.flow == 0 then
    let (indent, outer, tokens) := closeAll column s.outer s.indent s.tokens
    { s with indent, outer, tokens }
  else s

/-- Ends all collections and keys, before a marker or at the end. -/
private def closeDocument : Scan Unit := do
  closeBlocks (-1)
  removeKey
  allowKey false

/-! ### Tokens -/

/-- Moves to the next token over blanks, comments and lines. Where a key may start, a tab is no
blank. -/
def skipToToken : Nat → Scan Unit
  | 0 => failure
  | n + 1 => do
    let s ← get
    let c := s.cursor
    let c := if c.column == 0 && c.rest.head?.any isByteOrderMark then c.advance 1 else c
    let tabs := s.flow > 0 || !s.keyAllowed
    let c := c.advanceWhile fun x => x == ' ' || (tabs && x == '\t')
    let c := if c.isAt '#' then c.advanceWhile (!isBreak ·) else c
    match c.newline? with
    | some (_, c) =>
      moveTo c
      if s.flow == 0 then allowKey true
      skipToToken n
    | none => moveTo c

/-- A bracket opens a collection, which may itself be a key. -/
private def openFlow (t : Token) : Scan Unit := do
  saveKey
  modify fun s => { s with keys := none :: s.keys, flow := s.flow + 1, keyAllowed := true }
  emitSign t

private def closeFlow (t : Token) : Scan Unit := do
  removeKey
  modify fun s =>
    { s with keys := if s.flow > 0 then s.keys.drop 1 else s.keys, flow := s.flow - 1,
             keyAllowed := false }
  emitSign t

private def scanComma : Scan Unit := do
  removeKey
  allowKey true
  emitSign .comma

private def scanDash : Scan Unit := do
  let s ← get
  if s.flow == 0 && !s.keyAllowed then failure
  openBlock s.cursor.column s.tokens.size .blockSequence
  removeKey
  allowKey true
  emitSign .dash

private def scanKey : Scan Unit := do
  let s ← get
  if s.flow == 0 && !s.keyAllowed then failure
  openBlock s.cursor.column s.tokens.size .blockMapping
  removeKey
  allowKey (s.flow == 0)
  emitSign .key

/-- The colon behind a key. If a key was possible, it has been one. -/
private def scanValue : Scan Unit := do
  let s ← get
  match s.keys with
  | some k :: outer =>
    modify fun s =>
      { s with keys := none :: outer, tokens := s.tokens.insertIdxIfInBounds k.token .key }
    openBlock k.column k.token .blockMapping
    allowKey false
  | _ =>
    if s.flow == 0 && !s.keyAllowed then failure
    openBlock s.cursor.column s.tokens.size .blockMapping
    allowKey (s.flow == 0)
  emitSign .value

/-- A token that may start a key, by its reader. -/
private def scanStart (read : Scanner → Option (Token × Cursor)) : Scan Unit := do
  saveKey
  allowKey false
  let (t, c) ← liftM (read (← get))
  moveTo c
  emit t

private def scanQuoted (fuel : Nat) (double : Bool) : Scan Unit :=
  scanStart fun s =>
    (readQuoted double fuel "" (s.cursor.advance 1)).map fun (text, c) =>
      (.scalar text (if double then .doubleQuoted else .singleQuoted), c)

private def scanPlain (fuel : Nat) : Scan Unit := do
  saveKey
  allowKey false
  let s ← get
  let (text, ended, c) ← liftM (readPlain (s.flow > 0) (s.indent + 1).toNat fuel "" {} s.cursor)
  moveTo c
  emit (.scalar text .plain)
  if ended then allowKey true

private def scanBlock (fuel : Nat) (folding : Bool) : Scan Unit := do
  removeKey
  allowKey true
  let s ← get
  let (text, c) ← liftM (readBlock folding (s.indent + 1).toNat fuel (s.cursor.advance 1))
  moveTo c
  emit (.scalar text (if folding then .folded else .literal))

private def scanDirective : Scan Unit := do
  closeDocument
  let (t, c) ← liftM (readDirective ((← get).cursor.advance 1))
  moveTo c
  emit t

private def scanMarker : Scan Unit := do
  closeDocument
  let c := (← get).cursor
  moveTo (c.advance 3)
  emit (if c.isAt '-' then .documentStart else .documentEnd)

def startsPlain (flow : Bool) : List Char → Bool
  | [] => false
  | c :: cs =>
    if c == '-' then !cs.head?.any isBlank
    else if c == '?' || c == ':' then !flow && !atGap cs
    else
      !isSpace c && !isFlowMark c &&
        !( ['#', '&', '*', '!', '|', '>', '\'', '"', '%', '@', Char.ofNat 96].contains c)

/-- Reads the next token and what comes with it; the answer is whether there was one. The `fuel`
exceeds the number of characters that are left. -/
def next (fuel : Nat) : Scan Bool := do
  skipToToken fuel
  dropStaleKeys
  closeBlocks ((← get).cursor.column : Int)
  let s ← get
  let c := s.cursor
  let flow := s.flow > 0
  match c.rest with
  | [] =>
    closeDocument
    return false
  | x :: cs =>
    if c.column == 0 && x == '%' then scanDirective
    else if c.atMarker then scanMarker
    else if x == '[' then openFlow .openSequence
    else if x == '{' then openFlow .openMapping
    else if x == ']' then closeFlow .closeSequence
    else if x == '}' then closeFlow .closeMapping
    else if x == ',' then scanComma
    else if x == '-' && atGap cs then scanDash
    else if x == '?' && (flow || atGap cs) then scanKey
    else if x == ':' && (flow || atGap cs) then scanValue
    else if x == '*' then
      scanStart fun s => (readName (s.cursor.advance 1)).map fun (name, c) => (.alias name, c)
    else if x == '&' then
      scanStart fun s => (readName (s.cursor.advance 1)).map fun (name, c) => (.anchor name, c)
    else if x == '!' then scanStart fun s => readTag flow s.cursor
    else if x == '|' && !flow then scanBlock fuel false
    else if x == '>' && !flow then scanBlock fuel true
    else if x == '\'' then scanQuoted fuel false
    else if x == '"' then scanQuoted fuel true
    else if startsPlain flow c.rest then scanPlain fuel
    else failure
    return true

/-- Reads all tokens. Each is at least one character long, so it suffices that the fuel exceeds the
length of the text by two. -/
def all : Nat → Scan Unit
  | 0 => failure
  | n + 1 => do if ← next n then all n

end Scan

def tokens? (text : String) : Option (List Token) := do
  let cs := text.toList
  if !cs.all isAllowed then none
  else
    let (_, s) ← (Scan.all (cs.length + 2)).run { cursor := ⟨cs, 0, 0, 0⟩ }
    return s.tokens.toList

end Yaml
end LeakTrace
