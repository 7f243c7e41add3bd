import LeakTrace.Graph.View
import LeakTrace.Input.Decode

/-!
# Programs written as JSON

Fields and method references are declared once under a key, and everything else names them by it.
Statements are arrays that start with their kind. Branch targets and trap positions count from the
first written statement of the method, and a local's name means the one made last with that name.
-/

namespace LeakTrace

structure Names where
  fields : List (String × Field)
  sigs : List (String × MethodRef)
  find : String → Option Local

namespace Names

private def lookup {α : Type} (entries : List (String × α)) (key : String) : Option α :=
  entries.foldl (fun found (k, a) => if k == key then some a else found) none

def field (n : Names) (j : Json) : Decode Field := do
  let key ← j.text
  match lookup n.fields key with
  | some f => pure f
  | none => throw (.unknown "field" key)

def sig (n : Names) (j : Json) : Decode MethodRef := do
  let key ← j.text
  match lookup n.sigs key with
  | some m => pure m
  | none => throw (.unknown "signature" key)

def localVar (n : Names) (j : Json) : Decode Local := do
  let name ← j.text
  match n.find name with
  | some l => pure l
  | none => throw (.unknown "local" name)

end Names

namespace Input

def ty (j : Json) : Decode Ty := Ty.ofText <$> j.text

def callKind (j : Json) : Decode CallKind := do
  match CallKind.ofName? (← j.text) with
  | some k => pure k
  | none => throw (.unsupported "call kind" j)

def binOp (j : Json) : Decode BinOp := do
  match BinOp.ofSymbol? (← j.text) with
  | some o => pure o
  | none => throw (.unsupported "operator" j)

mutual

def value (n : Names) : Json → Decode Value
  | .null => pure .null
  | .int i => pure (.const (.int i))
  | .arr [.str "str", s] => do return .const (.str (← s.text))
  | .arr [.str "class", c] => do return .const (.cls (← c.text))
  | .arr [.str "field", o, f] => do return .field (← n.localVar o) (← n.field f)
  | .arr [.str "static", f] => do return .global (← n.field f)
  | .arr [.str "array", a, i] => do return .element (← n.localVar a) (← value n i)
  | .arr [.str "cast", t, v] => do return .cast (← ty t) (← value n v)
  | .arr [.str "instanceof", v, t] => do return .isInstance (← value n v) (← ty t)
  | .arr [.str "length", v] => do return .length (← value n v)
  | .arr [.str "neg", v] => do return .negate (← value n v)
  | .arr [.str "new", t] => do return .alloc (← ty t)
  | .arr [.str "newarray", t, v] => do return .allocArray (← ty t) (← value n v)
  | .arr [.str "bin", op, l, r] => do
    return .binary (← binOp op) (← value n l) (← value n r)
  | .arr [.str "call", k, m, b, .arr args] => do
    return .call (← callKind k) (← n.sig m) (← b.optional n.localVar) (← values n args)
  | .arr [.str "this", t] => do return .self (← ty t)
  | .arr [.str "param", i, t] => do return .param (← i.nat) (← ty t)
  | .arr [.str "caught", t] => do return .caught (← ty t)
  | j => do return .var (← n.localVar j)

def values (n : Names) : List Json → Decode (List Value)
  | [] => pure []
  | j :: rest => do return (← value n j) :: (← values n rest)

end

def action (n : Names) (j : Json) : Decode Action := do
  match j with
  | .arr [.str "=", l, r] => return .assign (← value n l) (← value n r)
  | .arr [.str "call", k, m, b, args] =>
    return .call ⟨← callKind k, ← n.sig m, ← b.optional n.localVar, ← values n (← args.listOrEmpty)⟩
  | .arr [.str "return"] => return .retVoid
  | .arr [.str "return", v] => return .ret (← value n v)
  | .arr [.str "if", c, t] => return .branch (← value n c) (← t.nat)
  | .arr [.str "goto", t] => return .jump (← t.nat)
  | .arr [.str "throw", v] => return .throw (← value n v)
  | .arr [.str "catch", l] =>
    let l ← n.localVar l
    return .entry l (.caught l.ty)
  | .arr [.str "nop"] => return .skip
  | j => throw (.unsupported "statement" j)

def trap (j : Json) : Decode Trap := do
  return ⟨← (j.item 0).nat, ← (j.item 1).nat, ← (j.item 2).nat, ← ty (j.item 3)⟩

def classInfo (j : Json) : Decode ClassInfo := do
  return {
    superclass := ← (j.get "super").optional Json.text
    interfaces := ← (← (j.get "interfaces").listOrEmpty).mapM Json.text
    isInterface := (j.get "interface").flag false
    isLibrary := (j.get "library").flag false }

/-- A class of a program: unless it says more than a name and a superclass, the root class is its
superclass by default. -/
def programClass (j : Json) : Decode (String × ClassInfo) := do
  let name ← (j.get "name").text
  let info ← classInfo j
  let explicit := (j.get "raw").flag false ||
    (match j.get "interfaces", j.get "interface" with
      | .null, .null => false
      | _, _ => true)
  if explicit then return (name, info)
  else return (name, { info with superclass := some (info.superclass.getD Ty.objectName) })

def method (fields : List (String × Field)) (sigs : List (String × MethodRef)) (p : Program)
    (j : Json) : Decode Program := do
  let bare : Names := ⟨fields, sigs, fun _ => none⟩
  let sig ← bare.sig (j.get "sig")
  let isStatic := (j.get "static").flag false
  match j.get "kind" with
  | .str "declare" => return p.addMethod sig isStatic false
  | .str "native" => return p.addMethod sig isStatic true
  | _ =>
    let locals ← (← (j.get "locals").listOrEmpty).mapM fun l => do
      return (← (l.item 0).text, ← ty (l.item 1))
    let p := p.openBody sig isStatic locals
    let names : Names := ⟨fields, sigs, (p.method (p.methods.size - 1)).local?⟩
    let body ← (← (j.get "body").listOrEmpty).mapM (action names)
    let traps ← (← (j.get "traps").listOrEmpty).mapM trap
    return p.closeBody body traps

end Input

/-- A program as read, with the keys of its fields and method references. -/
structure ProgramInput where
  program : Program
  fields : List (String × Field)
  sigs : List (String × MethodRef)
  /-- Call edges that the class hierarchy does not show. -/
  extra : List (StmtId × MethodId)

namespace ProgramInput

def ofJson (j : Json) : Decode ProgramInput := do
  let fields ← (j.get "fields").sorted.members.mapM fun (k, f) => do
    return (k, (⟨← (f.item 0).text, ← (f.item 1).text, ← Input.ty (f.item 2),
      (f.item 3).flag false⟩ : Field))
  let sigs ← (j.get "sigs").sorted.members.mapM fun (k, m) => do
    let params ← (← (m.item 2).listOrEmpty).mapM Input.ty
    return (k, (⟨← (m.item 0).text, ← (m.item 1).text, params, ← Input.ty (m.item 3)⟩ : MethodRef))
  let classes ← (← (j.get "classes").listOrEmpty).mapM Input.programClass
  let p := classes.foldl (fun p (name, info) => p.addClass name info) Program.empty
  let p ← (← (j.get "methods").listOrEmpty).foldlM (Input.method fields sigs) p
  let entries ← (← (j.get "entry").listOrEmpty).mapM Json.nat
  let extra ← (← (j.get "extra").listOrEmpty).mapM fun e => do
    return (← (e.item 0).nat, ← (e.item 1).nat)
  return ⟨entries.foldl Program.addEntry p, fields, sigs, extra⟩

def graph (i : ProgramInput) : Graph := .ofProgram i.program i.extra

/-- Outside bodies a local is written with its method: `name@2`. -/
def findLocal (i : ProgramInput) (name : String) : Option Local := do
  let parts := name.splitOn "@"
  let m ← (← parts.getLast?).toNat?
  (i.program.method m).local? (String.intercalate "@" parts.dropLast)

def names (i : ProgramInput) : Names := ⟨i.fields, i.sigs, i.findLocal⟩

end ProgramInput
end LeakTrace
