import LeakTrace.Code.Hierarchy
import LeakTrace.Code.Stmt

/-!
# Methods, programs and how they are put together

A program is a hierarchy, numbered methods, numbered statements and entry points. Programs grow
only through the operations of the second half of this file, which keep three facts true: a
statement's number is its place in `stmts`, a method's number is its place in `methods`, and the
statements of one body are consecutive.

Looking up a number outside the program is harmless: it reads as a `nop` of method 0, or as a
method without body.
-/

namespace LeakTrace

/-- An exception handler and the statements it covers, both ends included. -/
structure Trap where
  first : StmtId
  last : StmtId
  handler : StmtId
  exception : Ty
deriving DecidableEq, Repr, Inhabited

structure Method where
  id : MethodId
  sig : MethodRef
  isStatic : Bool := true
  isNative : Bool := false
  /-- Statements in layout order; the first is the entry. -/
  body : List StmtId := []
  self : Option Local := none
  params : List Local := []
  locals : List Local := []
  traps : List Trap := []
deriving Repr, Inhabited

namespace Method

def owner (m : Method) : String := m.sig.owner

def name (m : Method) : String := m.sig.name

def signature (m : Method) : String := m.sig.signature

def hasBody (m : Method) : Bool := !m.body.isEmpty

def isConcrete (m : Method) : Bool := m.hasBody && !m.isNative

def isStaticInitializer (m : Method) : Bool := m.name == "<clinit>"

def isConstructor (m : Method) : Bool := m.name == "<init>"

def local? (m : Method) (name : String) : Option Local :=
  m.locals.foldl (fun found l => if l.name == name then some l else found) none

end Method

structure Program where
  hierarchy : Hierarchy
  methods : Array Method := #[]
  stmts : Array Stmt := #[]
  entries : List MethodId := []
  localCount : Nat := 0
deriving Repr, Inhabited

namespace Program
variable (p : Program)

/-! ## Looking things up -/

def stmt (s : StmtId) : Stmt := p.stmts[s]?.getD ⟨s, 0, .skip⟩

def method (m : MethodId) : Method :=
  p.methods[m]?.getD { id := m, sig := ⟨"", "", [], .void⟩ }

def methodOf (s : StmtId) : Method := p.method (p.stmt s).method

/-- Of several methods with one signature the last declared answers. -/
def bySignature? (signature : String) : Option Method :=
  p.methods.foldl (fun found m => if m.signature == signature then some m else found) none

/-- The method that a class has under a sub-signature: its own, or the nearest inherited one. -/
def inherited? (owner subSignature : String) : Option Method :=
  (p.hierarchy.superChain owner).findSome? fun c =>
    p.bySignature? (MethodRef.signatureIn c subSignature)

/-- The walk from a class over its superclasses to the first that has a method with the
sub-signature. It has no answer yet if it is not over with the given number of classes. -/
def lookupWithin (p : Program) (subSignature : String) : Nat → String → Option (Option Method)
  | 0, _ => none
  | n + 1, owner =>
    match p.bySignature? (MethodRef.signatureIn owner subSignature) with
    | some m => some (some m)
    | none =>
      match p.hierarchy.superclass? owner with
      | some c => p.lookupWithin subSignature n c
      | none => some none

/-- The walk without a bound. It remembers no class, so it never ends where the superclasses go round
in a circle and none of them has the method: it passes all names and then `2 ^ 64` classes more,
which no machine lives to see. -/
def lookup (owner subSignature : String) : Option (Option Method) :=
  p.lookupWithin subSignature (p.hierarchy.nameBound + Nat.pow 2 64) owner

def resolve? (owner subSignature : String) : Option Method :=
  (p.lookup owner subSignature).join

/-! ## Putting programs together -/

/-- The program that holds only the root class and the string class. -/
def empty : Program where
  hierarchy := (({} : Hierarchy).declare Ty.objectName {}).declare Ty.stringName
    { superclass := some Ty.objectName, isLibrary := true }

def addClass (name : String) (info : ClassInfo) : Program :=
  { p with hierarchy := p.hierarchy.declare name info }

def addMethod (sig : MethodRef) (isStatic isNative : Bool) : Program :=
  { p with methods := p.methods.push { id := p.methods.size, sig, isStatic, isNative } }

def addLocal (name : String) (ty : Ty) : Program :=
  let l : Local := ⟨p.localCount, name, ty⟩
  { p with
    localCount := p.localCount + 1
    methods := p.methods.modify (p.methods.size - 1) fun m => { m with locals := m.locals ++ [l] } }

def addStmt (action : Action) : Program :=
  let id := p.stmts.size
  let last := p.methods.size - 1
  { p with
    stmts := p.stmts.push ⟨id, last, action⟩
    methods := p.methods.modify last fun m => { m with body := m.body ++ [id] } }

def addSelf (owner : String) : Program :=
  let l : Local := ⟨p.localCount, "this", .cls owner⟩
  let q := (p.addLocal l.name l.ty).addStmt (.entry l (.self l.ty))
  { q with methods := q.methods.modify (q.methods.size - 1) fun m => { m with self := some l } }

def addParam (index : Nat) (ty : Ty) : Program :=
  let l : Local := ⟨p.localCount, "p" ++ toString index, ty⟩
  let q := (p.addLocal l.name ty).addStmt (.entry l (.param index ty))
  { q with
    methods := q.methods.modify (q.methods.size - 1) fun m => { m with params := m.params ++ [l] } }

/-- Declares a method with a body and makes its locals: receiver, arguments, then `locals`. -/
def openBody (sig : MethodRef) (isStatic : Bool) (locals : List (String × Ty)) : Program :=
  let p := p.addMethod sig isStatic false
  let p := if isStatic then p else p.addSelf sig.owner
  let p := sig.params.zipIdx.foldl (fun p (ty, i) => p.addParam i ty) p
  locals.foldl (fun p (name, ty) => p.addLocal name ty) p

/-- Completes the method declared last. Targets and handlers count from the first of `body`. -/
def closeBody (body : List Action) (traps : List Trap) : Program :=
  let base := p.stmts.size
  let p := body.foldl (fun p a => p.addStmt (a.shift base)) p
  let traps := traps.map fun t =>
    { t with first := base + t.first, last := base + t.last, handler := base + t.handler }
  { p with methods := p.methods.modify (p.methods.size - 1) fun m => { m with traps } }

def addEntry (m : MethodId) : Program := { p with entries := p.entries ++ [m] }

end Program
end LeakTrace
