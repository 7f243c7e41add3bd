import LeakTrace.Graph.Basic
import LeakTrace.Path.Basic

/-!
# Taint facts

A fact says that a place is tainted, and remembers how that came about. Its `Taint` is what it says:
two facts with one taint are interchangeable for the analysis. Everything else is history: the fact
it was derived from, the statement of the derivation, the call it returned through.

**Facts have identities.** Each carries a number that no other fact of the run has, because the
history of a fact grows while it is known: facts that arrive at a place where an equal one is known
already become its neighbours, and neighbours are kept by number.
-/

namespace LeakTrace

inductive DefinitionKind where
  | source
  | sink
deriving DecidableEq, Hashable, Repr, Inhabited

/-- The rule by which a statement counts as source or sink. -/
structure Definition where
  kind : DefinitionKind
  id : String
  /-- A group for reports. -/
  category : Option String := none
deriving DecidableEq, Hashable, Repr, Inhabited

def Definition.text (d : Definition) : String :=
  match d.category with
  | some c => d.id ++ " [" ++ c ++ "]"
  | none => d.id

structure Origin where
  definition : Definition
  path : Path
  stmt : StmtId
  /-- Whatever the source wants to pass on. -/
  data : Option String := none
deriving DecidableEq, Hashable, Repr, Inhabited

def Origin.text (o : Origin) : String := o.path.text ++ " @ " ++ StmtId.text o.stmt

structure Taint where
  path : Path
  /-- Present until the first derivation that changes the path. -/
  origin : Option Origin := none
  /-- An alias found backwards only counts from this statement on. -/
  waitsFor : Option StmtId := none
  /-- Where the alias search handed the fact over; a later search stops there. -/
  turn : Option StmtId := none
  thrown : Bool := false
  /-- Tainted by a control dependency. -/
  implicit : Bool := false
  /-- The conditionals not left yet, innermost first. -/
  joins : List Join := []
  /-- An alias whose path was shortened on the way. -/
  cutDependent : Bool := false
deriving DecidableEq, Hashable, Repr, Inhabited

structure Fact extends Taint where
  id : Nat
  cut : Bool := false
  originCut : Bool := false
  pred : Option Fact := none
  stmt : Option StmtId := none
  call : Option StmtId := none
  /-- Number of derivations since the source. -/
  length : Nat := 0

instance : Inhabited Fact := ⟨{ path := Path.empty, id := 0 }⟩

namespace Taint

def isActive (t : Taint) : Bool := t.waitsFor.isNone

/-- Inside a conditional that depends on tainted data. -/
def inConditional (t : Taint) : Bool := !t.joins.isEmpty

/-- Equal but for the path. -/
def sameState (a b : Taint) : Bool := { a with path := b.path } == b

/-- Every place that `b` means is tainted by `a`, in the same state. -/
def entails (a b : Taint) : Bool := a.path.entails b.path && a.sameState b

def text (t : Taint) : String :=
  (if t.isActive then "" else "_") ++ t.path.text ++ " | " ++
    (match t.turn, t.waitsFor with
      | some s, _ => StmtId.text s
      | none, some s => StmtId.text s
      | none, none => "") ++ ">>"

end Taint

namespace Fact

/-- The path together with how it came about. -/
def accessPath (f : Fact) : AccessPath := ⟨f.path, f.cut⟩

def same (a b : Fact) : Bool := a.toTaint == b.toTaint

def is (a b : Fact) : Bool := a.id == b.id

end Fact

/-! ## Sets of facts -/

/-- Facts of which no two say the same, in the order they came in. -/
abbrev FactSet := List Fact

namespace FactSet

def contains (s : FactSet) (f : Fact) : Bool := s.any f.same

/-- Adds a fact unless one that says the same is there. -/
def insert (s : FactSet) (f : Fact) : FactSet := if s.contains f then s else s ++ [f]

def insertAll (s : FactSet) (fs : List Fact) : FactSet := fs.foldl insert s

def erase (s : FactSet) (f : Fact) : FactSet := s.filter (!f.same ·)

end FactSet
end LeakTrace
