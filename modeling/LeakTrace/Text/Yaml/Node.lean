import LeakTrace.Text.Yaml.Token

/-!
# YAML documents as trees

A text holds at most one document. Its tree keeps scalars as they were written, with their style and
tag: what `007` or `!!int 5` mean is for whoever reads the tree to say.

**Aliases stay.** An alias refers to a node by a number, so a node may contain a reference to
itself. An anchor gets as its number how many different names there were before it; a name that is
used again therefore may share its number with the next one, and an alias means the last node in
the document that carries its number (`Node.find?`).
-/

namespace LeakTrace
namespace Yaml

structure Props where
  tag : Option (List UInt8) := none
  anchor : Option Nat := none
deriving DecidableEq, Repr, Inhabited

/-- The tag of a type that every reader of YAML knows. -/
def coreTag (name : String) : List UInt8 := ("tag:yaml.org,2002:" ++ name).toUTF8.toList

inductive Node where
  | alias (id : Nat)
  | scalar (props : Props) (text : String) (style : Style)
  | seq (props : Props) (items : List Node)
  | map (props : Props) (entries : List (Node × Node))
deriving Inhabited

namespace Node

def empty : Node := .scalar {} "" .plain

mutual

/-- The last node with an anchor of the given number. -/
def find? (id : Nat) : Node → Option Node
  | .alias _ => none
  | .scalar p text style => if p.anchor == some id then some (.scalar p text style) else none
  | .seq p items =>
    (findItem? id items).or (if p.anchor == some id then some (.seq p items) else none)
  | .map p entries =>
    (findPair? id entries).or (if p.anchor == some id then some (.map p entries) else none)

def findItem? (id : Nat) : List Node → Option Node
  | [] => none
  | y :: rest => (findItem? id rest).or (find? id y)

def findPair? (id : Nat) : List (Node × Node) → Option Node
  | [] => none
  | (k, v) :: rest => ((findPair? id rest).or (find? id v)).or (find? id k)

end

mutual

/-- The length of a document: collections count their start and their end. -/
def size : Node → Nat
  | .alias _ | .scalar _ _ _ => 1
  | .seq _ items => sizeItems items + 2
  | .map _ entries => sizeEntries entries + 2

def sizeItems : List Node → Nat
  | [] => 0
  | y :: rest => size y + sizeItems rest

def sizeEntries : List (Node × Node) → Nat
  | [] => 0
  | (k, v) :: rest => size k + size v + sizeEntries rest

end
end Node

/-! ## From tokens to nodes -/

structure Builder where
  tokens : List Token
  /-- The handles of tags and what they stand for. -/
  handles : List (String × List UInt8) := []
  /-- The names of anchors and the number each has now. -/
  anchors : List (String × Nat) := []
deriving Inhabited

/-- A step that takes tokens. It fails if they make no document. -/
abbrev Build := StateT Builder Option

namespace Build

private def peek : Build (Option Token) := return (← get).tokens.head?

private def drop : Build Unit := modify fun b => { b with tokens := b.tokens.drop 1 }

private def sees (ts : List Token) : Build Bool := return (← peek).any ts.contains

/-- Takes the next token if it is `t`; the answer is whether it was. -/
private def takes (t : Token) : Build Bool := do
  if ← sees [t] then
    drop
    return true
  else return false

private def comma : Build Unit := do
  if ← takes .comma then return else failure

private def addAnchor (name : String) : Build Nat := do
  let old := (← get).anchors
  let id := old.length
  modify fun b => { b with anchors := (name, id) :: old.filter (·.1 != name) }
  return id

/-- The bytes that a tag stands for; its handle must be known. -/
private def fullTag (handle : String) (bytes : List UInt8) : Build (List UInt8) := do
  if handle.isEmpty then return bytes
  else
    match (← get).handles.find? (·.1 == handle) with
    | some (_, before) => return before ++ bytes
    | none => failure

private def takeAnchor : Build (Option String) := do
  match ← peek with
  | some (.anchor name) =>
    drop
    return some name
  | _ => return none

private def takeTag : Build (Option (List UInt8)) := do
  match ← peek with
  | some (.tag handle bytes) =>
    drop
    return some (← fullTag handle bytes)
  | _ => return none

private def props : Build Props := do
  let name ← takeAnchor
  let tag ← takeTag
  let name ← if name.isSome then pure name else takeAnchor
  match name with
  | some name => return { tag, anchor := some (← addAnchor name) }
  | none => return { tag }

mutual

/-- A node. Collections by indentation are allowed in a `block`; as the value or key of a mapping a
sequence need not be indented further (`level`). -/
def node (fuel : Nat) (block level : Bool) : Build Node :=
  match fuel with
  | 0 => failure
  | n + 1 => do
    match ← peek with
    | some (.alias name) =>
      drop
      match (← get).anchors.find? (·.1 == name) with
      | some (_, id) => return .alias id
      | none => failure
    | _ =>
      let p ← props
      match ← peek with
      | some (.scalar text style) =>
        drop
        return .scalar p text style
      | some .openSequence =>
        drop
        return .seq p (← flowItems n true)
      | some .openMapping =>
        drop
        return .map p (← flowEntries n true)
      | some t =>
        if level && t == .dash then return .seq p (← levelItems n)
        else if block && t == .blockSequence then
          drop
          return .seq p (← blockItems n)
        else if block && t == .blockMapping then
          drop
          return .map p (← blockEntries n)
        else if p.tag.isSome || p.anchor.isSome then return .scalar p "" .plain
        else failure
      | none => if p.tag.isSome || p.anchor.isSome then return .scalar p "" .plain else failure

/-- A node, or the empty one before the given tokens. -/
def nodeUnless (fuel : Nat) (ends : List Token) (block level : Bool) : Build Node :=
  match fuel with
  | 0 => failure
  | n + 1 => do if ← sees ends then return .empty else node n block level

def blockItems (fuel : Nat) : Build (List Node) :=
  match fuel with
  | 0 => failure
  | n + 1 => do
    if ← takes .dash then
      let y ← nodeUnless n [.dash, .blockEnd] true false
      return y :: (← blockItems n)
    else if ← takes .blockEnd then return []
    else failure

/-- The items of a sequence that is not indented further than the mapping around it. -/
def levelItems (fuel : Nat) : Build (List Node) :=
  match fuel with
  | 0 => failure
  | n + 1 => do
    if ← takes .dash then
      let y ← nodeUnless n [.dash, .key, .value, .blockEnd] true false
      return y :: (← levelItems n)
    else return []

def blockEntries (fuel : Nat) : Build (List (Node × Node)) :=
  match fuel with
  | 0 => failure
  | n + 1 => do
    if ← takes .key then
      let ends := [Token.key, .value, .blockEnd]
      let k ← nodeUnless n ends true true
      let v ← if ← takes .value then nodeUnless n ends true true else pure .empty
      return (k, v) :: (← blockEntries n)
    else if ← takes .blockEnd then return []
    else failure

/-- The items of a sequence in brackets. Between two items stands a comma. -/
def flowItems (fuel : Nat) (first : Bool) : Build (List Node) :=
  match fuel with
  | 0 => failure
  | n + 1 => do
    if ← takes .closeSequence then return []
    unless first do comma
    if ← takes .closeSequence then return []
    let y ← if ← takes .key then flowPair n else node n false false
    return y :: (← flowItems n false)

/-- A single entry within a sequence in brackets. A key that is left out takes the sign behind it
with it. -/
def flowPair (fuel : Nat) : Build Node :=
  match fuel with
  | 0 => failure
  | n + 1 => do
    let k ←
      if ← sees [.value, .comma, .closeSequence] then do
        drop
        pure Node.empty
      else node n false false
    let v ←
      if ← takes .value then nodeUnless n [.comma, .closeSequence] false false
      else pure Node.empty
    return .map {} [(k, v)]

/-- The entries of a mapping in brackets. A key alone has the empty value. -/
def flowEntries (fuel : Nat) (first : Bool) : Build (List (Node × Node)) :=
  match fuel with
  | 0 => failure
  | n + 1 => do
    if ← takes .closeMapping then return []
    unless first do comma
    if ← takes .closeMapping then return []
    if ← takes .key then
      let k ← nodeUnless n [.value, .comma, .closeMapping] false false
      let v ←
        if ← takes .value then nodeUnless n [.comma, .closeMapping] false false
        else pure Node.empty
      return (k, v) :: (← flowEntries n false)
    else
      let k ← node n false false
      return (k, .empty) :: (← flowEntries n false)

end

/-! ## Documents -/

/-- The handles that are known without being declared. -/
private def knownHandles : List (String × List UInt8) :=
  [("!", ['!'.toNat.toUInt8]), ("!!", coreTag "")]

/-- Takes the directives before a document: one version at most, which must be 1.1 or 1.2, and every
handle once. -/
private def directives : Nat → Bool → Build Unit
  | 0, _ => failure
  | n + 1, versioned => do
    match ← peek with
    | some (.version major minor) =>
      if versioned || major != 1 || (minor != 1 && minor != 2) then failure
      drop
      directives n true
    | some (.handle name bytes) =>
      if (← get).handles.any (·.1 == name) then failure
      modify fun b => { b with handles := b.handles ++ [(name, bytes)] }
      drop
      directives n versioned
    | _ => return

private def endMarkers : Nat → Build Unit
  | 0 => failure
  | n + 1 => do if ← takes .documentEnd then endMarkers n

/-- The document behind its marker, which must be there. It may be empty. -/
private def markedRoot (fuel : Nat) : Build Node := do
  if ← takes .documentStart then
    match ← peek with
    | none | some (.version _ _) | some (.handle _ _) | some .documentStart
    | some .documentEnd => return .empty
    | _ => node fuel true false
  else failure

def document (fuel : Nat) : Build (Option Node) := do
  match ← peek with
  | none => return none
  | some t =>
    let isMarked := match t with
      | .version _ _ | .handle _ _ | .documentStart => true
      | _ => false
    directives fuel false
    modify fun b => { b with handles := b.handles ++ knownHandles }
    let root ← if isMarked then markedRoot fuel else node fuel true false
    endMarkers fuel
    if (← peek).isSome then failure
    return some root

end Build

/-- Reads a text that holds one document at most; a text without any is the empty node. -/
def read? (text : String) : Option Node := do
  let tokens ← tokens? text
  let (root, _) ← (Build.document (4 * tokens.length + 4)).run { tokens }
  return root.getD .empty

end Yaml
end LeakTrace
