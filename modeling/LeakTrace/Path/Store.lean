import LeakTrace.Path.Canon
import Std.Data.HashSet

/-!
# Making paths while remembering what was folded

Making a path leaves two traces. The stretches that folding cut out are registered under their type,
because an alias query has to consider them put back in; and the store knows how many different
paths were handed out. `Paths` is the state monad of both.

The derived operations change one aspect of a path and bring the result into canonical form again.
One that would change nothing returns the path it was given.
-/

namespace LeakTrace

structure PathStore where
  rules : PathRules := {}
  /-- Stretches cut by folding with the type they lead back to, in the order of registration. -/
  patterns : List (Ty × List Step) := []
  /-- Paths handed out, told apart also by the cut flag. -/
  made : Std.HashSet (Path × Bool) := ∅
deriving Inhabited

abbrev Paths := StateM PathStore

namespace PathStore

def register (s : PathStore) (pattern : Ty × List Step) : PathStore :=
  if s.patterns.contains pattern then s else { s with patterns := s.patterns ++ [pattern] }

/-- The stretches known to lead from a type back to it. -/
def patternsFor (s : PathStore) (t : Ty) : List (List Step) :=
  (s.patterns.filter (·.1 == t)).map (·.2)

def size (s : PathStore) : Nat := s.made.size

end PathStore

namespace Paths
variable (a : AccessPath)

def make (q : PathRequest) : Paths (Option AccessPath) := do
  let s ← get
  let c := s.rules.canon q
  let s := c.cuts.foldl PathStore.register s
  match c.path with
  | some a => set { s with made := s.made.insert (a.toPath, a.cut) }
  | none => set s
  return c.path

def ofValue (v : Value) (deep : Bool) : Paths (Option AccessPath) := make { value := some v, deep }

def ofTyped (v : Value) (ty : Option Ty) (deep : Bool) (part : ArrayPart) :
    Paths (Option AccessPath) :=
  make { value := some v, ty, deep, part }

def rebase (v : Value) (ty : Option Ty) (cutFirst reduce : Bool)
    (part : ArrayPart) : Paths (Option AccessPath) := do
  let unchanged := match a.base, v with
    | some b, .var l => b == l && a.ty == ty && a.part == part && !cutFirst
    | _, _ => false
  if unchanged then return some a
  match ← make { value := some v, ty, steps := a.steps, deep := a.deep, cutFirst, reduce, part,
                 immutable := a.immutable } with
  | some b => return some (if b.same a then a else b)
  | none => return none

/-- Moves a path to another root, keeping the type of its base. -/
def onto (v : Value) : Paths (Option AccessPath) :=
  rebase a v a.ty false true a.part

def ontoTyped (v : Value) (ty : Option Ty) (cutFirst : Bool) : Paths (Option AccessPath) :=
  rebase a v ty cutFirst true a.part

private def withSteps (steps : List Step) : PathRequest :=
  { value := a.base.map .var, ty := a.ty, steps, part := a.part }

def append (steps : List Step) (deep : Bool) : Paths (Option AccessPath) :=
  if steps.isEmpty then return some a
  else make { withSteps a (a.steps ++ steps) with deep }

/-- Puts the steps of the second path behind those of the first. -/
def merge (a b : AccessPath) : Paths (Option AccessPath) := append a b.steps b.deep

/-- Drops the last step, so that everything below is meant. -/
def dropLast (a : AccessPath) : Paths (Option AccessPath) :=
  if a.steps.isEmpty then return some a else make (withSteps a a.steps.dropLast)

/-- Puts a stretch that folding cut out back in at a position. -/
def expand (position : Nat) (pattern : List Step) : Paths (Option AccessPath) :=
  make { withSteps a (a.steps.take position ++ pattern ++ a.steps.drop position) with
    deep := a.deep, reduce := false, immutable := a.immutable }

end Paths
end LeakTrace
