import LeakTrace.Text.Decimal

/-!
# JSON documents

A document as a tree, a reader and a printer. Whole numbers that fit 64 bits stay exact; every
other number is a double. Objects keep their members in the order of the text, repeated names
included: what a repeated name means is for whoever reads the tree to say (`Json.get?` takes the
last).
-/

namespace LeakTrace

inductive Json where
  | null
  | bool (b : Bool)
  | int (i : Int)
  | float (f : Float)
  | str (s : String)
  | arr (items : List Json)
  | obj (members : List (String × Json))
deriving Inhabited

namespace Json

/-! ## Parts of a tree -/

/-- A member of an object; of several with one name the last. -/
def get? (j : Json) (name : String) : Option Json :=
  match j with
  | .obj ms => ms.foldl (fun found (k, v) => if k == name then some v else found) none
  | _ => none

/-- A member of an object, `null` when there is none. -/
def get (j : Json) (name : String) : Json := (j.get? name).getD .null

/-- A truth value, or the default when the tree is anything else. -/
def flag (default : Bool) : Json → Bool
  | .bool b => b
  | _ => default

def str? : Json → Option String
  | .str s => some s
  | _ => none

/-- A number that counts something: whole, not negative and below `2 ^ 64`. -/
def nat? : Json → Option Nat
  | .int i => if 0 ≤ i && i.toNat < Nat.pow 2 64 then some i.toNat else none
  | _ => none

def float? : Json → Option Float
  | .float f => some f
  | .int i => some (Float.ofInt i)
  | _ => none

/-! ## Printing -/

private def hexDigit (n : Nat) : Char := (Nat.digitChar n)

private def quoteChar (c : Char) : List Char :=
  match c with
  | '"' => ['\\', '"']
  | '\\' => ['\\', '\\']
  | '\n' => ['\\', 'n']
  | '\r' => ['\\', 'r']
  | '\t' => ['\\', 't']
  | c =>
    if c.toNat == 8 then ['\\', 'b']
    else if c.toNat == 12 then ['\\', 'f']
    else if c.toNat < 32 then
      ['\\', 'u', '0', '0', hexDigit (c.toNat / 16), hexDigit (c.toNat % 16)]
    else [c]

def quote (s : String) : String := "\"" ++ String.ofList (s.toList.flatMap quoteChar) ++ "\""

mutual

def write : Json → String
  | .null => "null"
  | .bool b => if b then "true" else "false"
  | .int i => toString i
  | .float f => NumberStyle.json.write f
  | .str s => quote s
  | .arr items => "[" ++ String.intercalate "," (writeAll items) ++ "]"
  | .obj ms => "\x7b" ++ String.intercalate "," (writeMembers ms) ++ "\x7d"

def writeAll : List Json → List String
  | [] => []
  | j :: rest => j.write :: writeAll rest

def writeMembers : List (String × Json) → List String
  | [] => []
  | (k, v) :: rest => (quote k ++ ":" ++ v.write) :: writeMembers rest

end

mutual

/-- Members in the order of their names, each name once. -/
def sorted : Json → Json
  | .arr items => .arr (sortedAll items)
  | .obj ms => .obj (sortedMembers ms)
  | j => j

def sortedAll : List Json → List Json
  | [] => []
  | j :: rest => j.sorted :: sortedAll rest

/-- Inserts from the back, so that of several members with one name the last stays. -/
def sortedMembers : List (String × Json) → List (String × Json)
  | [] => []
  | (k, v) :: rest =>
    let rest := sortedMembers rest
    if rest.any (·.1 == k) then rest
    else rest.takeWhile (·.1 < k) ++ (k, v.sorted) :: rest.dropWhile (·.1 < k)

end

/-! ## Reading

A reader takes what is left of the text and returns a value with what is left after it, or nothing
if the text is not well formed. -/

abbrev Reader (α : Type) := List Char → Option (α × List Char)

def skipBlanks : List Char → List Char
  | c :: cs => if c == ' ' || c == '\n' || c == '\r' || c == '\t' then skipBlanks cs else c :: cs
  | [] => []

/-- The text must go on with the given characters. -/
def expect : List Char → List Char → Option (List Char)
  | [], cs => some cs
  | e :: es, c :: cs => if e == c then expect es cs else none
  | _ :: _, [] => none

def hexValue? (c : Char) : Option Nat :=
  if '0' ≤ c && c ≤ '9' then some (c.toNat - '0'.toNat)
  else if 'a' ≤ c && c ≤ 'f' then some (c.toNat - 'a'.toNat + 10)
  else if 'A' ≤ c && c ≤ 'F' then some (c.toNat - 'A'.toNat + 10)
  else none

def readHex4 : Reader Nat
  | a :: b :: c :: d :: cs => do
    let a ← hexValue? a
    let b ← hexValue? b
    let c ← hexValue? c
    let d ← hexValue? d
    return (((a * 16 + b) * 16 + c) * 16 + d, cs)
  | _ => none

/-- The character of an escape by number; numbers beyond 16 bits come as two halves. -/
def readCodePoint (cs : List Char) : Option (Char × List Char) := do
  let (n, cs) ← readHex4 cs
  if 0xDC00 ≤ n && n ≤ 0xDFFF then none
  else if 0xD800 ≤ n && n ≤ 0xDBFF then
    let cs ← expect ['\\', 'u'] cs
    let (low, cs) ← readHex4 cs
    if 0xDC00 ≤ low && low ≤ 0xDFFF then
      return (Char.ofNat (0x10000 + (n - 0xD800) * 0x400 + (low - 0xDC00)), cs)
    else none
  else return (Char.ofNat n, cs)

def readEscape : Reader Char
  | '"' :: cs => some ('"', cs)
  | '\\' :: cs => some ('\\', cs)
  | '/' :: cs => some ('/', cs)
  | 'b' :: cs => some (Char.ofNat 8, cs)
  | 'f' :: cs => some (Char.ofNat 12, cs)
  | 'n' :: cs => some ('\n', cs)
  | 'r' :: cs => some ('\r', cs)
  | 't' :: cs => some ('\t', cs)
  | 'u' :: cs => readCodePoint cs
  | _ => none

/-- The rest of a text up to the closing mark. `fuel` bounds its characters; `acc` holds what was
read, last first. -/
def readString (fuel : Nat) (acc : List Char) (cs : List Char) : Option (String × List Char) :=
  match fuel, cs with
  | 0, _ | _, [] => none
  | _ + 1, '"' :: cs => some (String.ofList acc.reverse, cs)
  | n + 1, '\\' :: cs => do
    let (c, cs) ← readEscape cs
    readString n (c :: acc) cs
  | n + 1, c :: cs => if c.toNat < 32 then none else readString n (c :: acc) cs

/-- Digits as a number with at most 64 bits; digits that no longer fit are only counted. -/
def readDigits (value : Nat) (dropped : Nat) : List Char → Nat × Nat × List Char
  | [] => (value, dropped, [])
  | c :: cs =>
    if c.isDigit then
      let next := value * 10 + (c.toNat - '0'.toNat)
      if dropped == 0 && next < Nat.pow 2 64 then readDigits next 0 cs
      else readDigits value (dropped + 1) cs
    else (value, dropped, c :: cs)

/-- Scales a number by powers of ten, at most `10 ^ 308` at a time. There is no result beyond the
largest double. -/
def scaleByTen : Nat → Float → Int → Option Float
  | 0, _, _ => none
  | n + 1, f, e =>
    if e.natAbs ≤ 308 then
      let p := Float.ofScientific 1 false e.natAbs
      let r := if 0 ≤ e then f * p else f / p
      if r.isInf then none else some r
    else if f == 0.0 then some f
    else if 0 ≤ e then none
    else scaleByTen n (f / 1e308) (e + 308)

/-- The exponent of a number, zero if there is none. It is cut at a size beyond which nothing
changes. -/
def readExponent (cs : List Char) : Option (Int × List Char) :=
  let digits (negative : Bool) (cs : List Char) : Option (Int × List Char) :=
    match cs with
    | c :: _ =>
      if c.isDigit then
        let ds := (cs.takeWhile Char.isDigit).dropWhile (· == '0')
        let e := if ds.length > 6 then 1000000 else (String.ofList ds).toNat?.getD 0
        some (if negative then -(e : Int) else e, cs.dropWhile Char.isDigit)
      else none
    | [] => none
  match cs with
  | 'e' :: '-' :: cs | 'E' :: '-' :: cs => digits true cs
  | 'e' :: '+' :: cs | 'E' :: '+' :: cs => digits false cs
  | 'e' :: cs | 'E' :: cs => digits false cs
  | cs => some (0, cs)

/-- The digits after the point, if there are any: the number with them appended, and how many were
taken. As long as they fit 64 bits they are taken, also if digits before the point were dropped. -/
def readFraction (value : Nat) : List Char → Option (Nat × Nat × List Char)
  | '.' :: cs =>
    match cs with
    | c :: _ =>
      if c.isDigit then
        let (v, dropped, rest) := readDigits value 0 cs
        some (v, (cs.takeWhile Char.isDigit).length - dropped, rest)
      else none
    | [] => none
  | cs => some (value, 0, cs)

def readMagnitude (negative : Bool) (cs : List Char) : Option (Json × List Char) := do
  let c ← cs.head?
  if !c.isDigit then none
  else if c == '0' && (cs.drop 1).head?.any Char.isDigit then none
  else
    let (whole, dropped, rest) := readDigits 0 0 cs
    let isWhole := match rest.head? with
      | some c => c != '.' && c != 'e' && c != 'E'
      | none => true
    if isWhole && dropped == 0 && !(negative && (whole == 0 || whole > Nat.pow 2 63)) then
      return (.int (if negative then -(whole : Int) else whole), rest)
    else
      let (digits, places, rest) ← readFraction whole rest
      let (e, rest) ← readExponent rest
      let f ← scaleByTen 4000 (Float.ofNat digits) (e + dropped - places)
      return (.float (if negative then -f else f), rest)

mutual

/-- One value. `fuel` bounds the values and members of the document, `depth` how deep they nest. -/
def readValue (fuel depth : Nat) (cs : List Char) : Option (Json × List Char) :=
  match fuel with
  | 0 => none
  | n + 1 =>
    match skipBlanks cs with
    | 'n' :: cs => (expect ['u', 'l', 'l'] cs).map fun cs => (.null, cs)
    | 't' :: cs => (expect ['r', 'u', 'e'] cs).map fun cs => (.bool true, cs)
    | 'f' :: cs => (expect ['a', 'l', 's', 'e'] cs).map fun cs => (.bool false, cs)
    | '"' :: cs => (readString (cs.length + 1) [] cs).map fun (s, cs) => (.str s, cs)
    | '[' :: cs =>
      match depth, skipBlanks cs with
      | 0, _ => none
      | _ + 1, ']' :: cs => some (.arr [], cs)
      | d + 1, cs => (readItems n d [] cs).map fun (items, cs) => (.arr items, cs)
    | '{' :: cs =>
      match depth, skipBlanks cs with
      | 0, _ => none
      | _ + 1, '}' :: cs => some (.obj [], cs)
      | d + 1, cs => (readMembers n d [] cs).map fun (ms, cs) => (.obj ms, cs)
    | '-' :: cs => readMagnitude true cs
    | cs => readMagnitude false cs

def readItems (fuel depth : Nat) (acc : List Json) (cs : List Char) :
    Option (List Json × List Char) :=
  match fuel with
  | 0 => none
  | n + 1 =>
    match readValue n depth cs with
    | none => none
    | some (j, cs) =>
      match skipBlanks cs with
      | ',' :: cs => readItems n depth (j :: acc) cs
      | ']' :: cs => some ((j :: acc).reverse, cs)
      | _ => none

def readMembers (fuel depth : Nat) (acc : List (String × Json)) (cs : List Char) :
    Option (List (String × Json) × List Char) :=
  match fuel with
  | 0 => none
  | n + 1 =>
    match skipBlanks cs with
    | '"' :: cs =>
      match readString (cs.length + 1) [] cs with
      | none => none
      | some (k, cs) =>
        match skipBlanks cs with
        | ':' :: cs =>
          match readValue n depth cs with
          | none => none
          | some (j, cs) =>
            match skipBlanks cs with
            | ',' :: cs => readMembers n depth ((k, j) :: acc) cs
            | '}' :: cs => some (((k, j) :: acc).reverse, cs)
            | _ => none
        | _ => none
    | _ => none

end

def maxDepth : Nat := 127

def readChars? (cs : List Char) : Option Json := do
  let (j, rest) ← readValue (2 * cs.length + 2) maxDepth cs
  if (skipBlanks rest).isEmpty then some j else none

def read? (text : String) : Option Json := readChars? text.toList

/-! ## Skipping

A value that nobody asks for need not have a value: it must be written correctly, but its numbers
may be too large, its texts may hold half a character, and it may nest to any depth. -/

def skipString : List Char → Option (List Char)
  | [] => none
  | '"' :: cs => some cs
  | '\\' :: 'u' :: a :: b :: c :: d :: cs =>
    if [a, b, c, d].all (hexValue? · |>.isSome) then skipString cs else none
  | '\\' :: c :: cs =>
    if ['"', '\\', '/', 'b', 'f', 'n', 'r', 't'].contains c then skipString cs else none
  | c :: cs => if c.toNat < 32 || c == '\\' then none else skipString cs

def skipDigits : List Char → Option (List Char)
  | c :: cs => if c.isDigit then some (cs.dropWhile Char.isDigit) else none
  | [] => none

def skipMagnitude (cs : List Char) : Option (List Char) := do
  let rest ← skipDigits cs
  if cs.head? == some '0' && (cs.drop 1).head?.any Char.isDigit then none
  else
    let rest ← match rest with
      | '.' :: rest => skipDigits rest
      | rest => some rest
    return (← readExponent rest).2

def skipName (cs : List Char) : Option (List Char) :=
  match skipBlanks cs with
  | '"' :: cs => (skipString cs).bind fun cs => expect [':'] (skipBlanks cs)
  | _ => none

mutual

/-- Skips a value and then what is open around it: `closers` are the closing signs that are still
to come. -/
def skipValue (fuel : Nat) (closers : List Char) (cs : List Char) : Option (List Char) :=
  match fuel with
  | 0 => none
  | n + 1 =>
    match skipBlanks cs with
    | 'n' :: cs => (expect ['u', 'l', 'l'] cs).bind (skipClosers n closers)
    | 't' :: cs => (expect ['r', 'u', 'e'] cs).bind (skipClosers n closers)
    | 'f' :: cs => (expect ['a', 'l', 's', 'e'] cs).bind (skipClosers n closers)
    | '"' :: cs => (skipString cs).bind (skipClosers n closers)
    | '[' :: cs =>
      match skipBlanks cs with
      | ']' :: cs => skipClosers n closers cs
      | cs => skipValue n (']' :: closers) cs
    | '{' :: cs =>
      match skipBlanks cs with
      | '}' :: cs => skipClosers n closers cs
      | cs => (skipName cs).bind (skipValue n ('}' :: closers))
    | '-' :: cs => (skipMagnitude cs).bind (skipClosers n closers)
    | cs => (skipMagnitude cs).bind (skipClosers n closers)

def skipClosers (fuel : Nat) (closers : List Char) (cs : List Char) : Option (List Char) :=
  match fuel, closers with
  | 0, _ => none
  | _ + 1, [] => some cs
  | n + 1, close :: outer =>
    match skipBlanks cs with
    | ',' :: cs =>
      if close == '}' then (skipName cs).bind (skipValue n closers) else skipValue n closers cs
    | c :: cs => if c == close then skipClosers n outer cs else none
    | [] => none

end

/-- The characters of the first value of a text, and what is left after it. -/
def splitValue (cs : List Char) : Option (List Char × List Char) :=
  (skipValue (2 * cs.length + 2) [] cs).map fun rest => (cs.take (cs.length - rest.length), rest)

/-- The values of an array, unread. `fuel` bounds their number. -/
def splitItems (fuel : Nat) (cs : List Char) : Option (List (List Char)) :=
  match fuel with
  | 0 => none
  | n + 1 =>
    match splitValue cs with
    | none => none
    | some (item, rest) =>
      match skipBlanks rest with
      | ',' :: rest => (splitItems n rest).map (item :: ·)
      | [']'] => some [item]
      | _ => none

def splitMembers (fuel : Nat) (cs : List Char) : Option (List (String × List Char)) :=
  match fuel with
  | 0 => none
  | n + 1 =>
    match skipBlanks cs with
    | '"' :: cs => do
      let (name, cs) ← readString (cs.length + 1) [] cs
      let (value, rest) ← splitValue (← expect [':'] (skipBlanks cs))
      match skipBlanks rest with
      | ',' :: rest => return (name, value) :: (← splitMembers n rest)
      | ['}'] => return [(name, value)]
      | _ => none
    | _ => none

def items? (cs : List Char) : Option (List (List Char)) :=
  match skipBlanks cs with
  | '[' :: cs => if skipBlanks cs == [']'] then some [] else splitItems (cs.length + 1) cs
  | _ => none

/-- The characters of an object as the names of its members with the characters of their values. -/
def members? (cs : List Char) : Option (List (String × List Char)) :=
  match skipBlanks cs with
  | '{' :: cs => if skipBlanks cs == ['}'] then some [] else splitMembers (cs.length + 1) cs
  | _ => none

end Json
end LeakTrace
