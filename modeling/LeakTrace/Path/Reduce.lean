import LeakTrace.Path.Basic

/-!
# Shortening chains of steps

Three ways to shorten a chain without losing what it means.

* `collapse` removes field groups that repeat at once: `f.g.f.g.x` is `f.g.x`.
* `skipOuter` drops a detour through an inner object that leads back to its enclosing instance:
  `a.inner.this$0.c` is `a.c`.
* `fold` cuts out every stretch that leads from a type back to the same type, and reports what it
  cut, so that the stretch can be put back in when an alias is looked for.
-/

namespace LeakTrace
namespace Step

/-! ## Groups that repeat at once -/

/-- Splits a chain at the first step through a field: what stands before it, and what behind. -/
def splitAtField (f : Field) : List Step → Option (List Step × Step × List Step)
  | [] => none
  | s :: rest =>
    if s.field == f then some ([], s, rest)
    else (splitAtField f rest).map fun (before, y, after) => (s :: before, y, after)

/-- Puts a step in front of a collapsed chain: if the chain then starts with a group that repeats,
the group is kept once. -/
def pushCollapsed (x : Step) (ys : List Step) : List Step :=
  match splitAtField x.field ys with
  | some (before, y, after) =>
    if ((x :: before).map (·.field)).isPrefixOf ((y :: after).map (·.field)) then x :: after
    else x :: ys
  | none => x :: ys

/-- Removes groups of fields that repeat at once, from the end of the chain on. -/
def collapse : List Step → List Step
  | [] => []
  | x :: xs => pushCollapsed x (collapse xs)

/-! ## Enclosing instances -/

/-- Fields that lead from an inner object to its enclosing instance. -/
def isOuterThis (s : Step) : Bool := "this$".isPrefixOf s.field.name

/-- The chain up to and with its last step of type `t`. -/
def upToLast (t : Ty) (steps : List Step) : Option (List Step) :=
  match steps.reverse.dropWhile (·.ty != t) with
  | [] => none
  | rest => some rest.reverse

/-- One step behind a chain that is reduced already: a step to an enclosing instance that was
passed before goes back there. -/
def pushOuter (base : Option Ty) (done : List Step) (s : Step) : List Step :=
  if s.isOuterThis then
    if base == some s.field.ty then []
    else (upToLast s.field.ty done).getD (done ++ [s])
  else done ++ [s]

/-- Drops detours that lead back to an enclosing instance. -/
def skipOuter (base : Option Ty) (steps : List Step) : List Step :=
  steps.foldl (pushOuter base) []

/-! ## Stretches that lead back to their type -/

/-- A chain after folding, and the stretches that were cut out with the type they lead back to. -/
structure Folded where
  steps : List Step
  cuts : List (Ty × List Step) := []
deriving Repr, Inhabited

def Folded.addCut (f : Folded) (cut : Ty × List Step) : Folded := { f with cuts := cut :: f.cuts }

def leadsTo (t : Ty) (s : Step) : Bool := s.ty == t || s.field.ty == t

/-- Cuts stretches that start here and lead back to `t`. `mid` was passed without reaching `t`;
after a cut the steps that move up are passed as many as were passed before. -/
def foldHere (t : Ty) (mid rest : List Step) : Folded :=
  match rest with
  | [] => ⟨mid, []⟩
  | s :: tail =>
    if s.leadsTo t then
      (foldHere t (tail.take mid.length) (tail.drop mid.length)).addCut (t, mid ++ [s])
    else foldHere t (mid ++ [s]) tail
termination_by rest.length
decreasing_by
  · simp only [List.length_drop, List.length_cons]
    omega
  · simp

theorem foldHere_length_le (t : Ty) (mid rest : List Step) :
    (foldHere t mid rest).steps.length ≤ mid.length + rest.length := by
  fun_induction foldHere t mid rest with
  | case1 mid => simp
  | case2 mid s tail _ ih =>
    have h : (tail.take mid.length).length + (tail.drop mid.length).length = tail.length := by
      simp only [List.length_take, List.length_drop]
      omega
    simp only [Folded.addCut, List.length_cons]
    omega
  | case3 mid s tail _ ih =>
    simp only [List.length_append, List.length_cons, List.length_nil] at ih ⊢
    omega

/-- Cuts the stretches that lead back to the type before the chain, where that type is known and is
not the root class. -/
def foldStart (before : Option Ty) (steps : List Step) : Folded :=
  match before with
  | some t => if t.isObject then ⟨steps, []⟩ else foldHere t [] steps
  | none => ⟨steps, []⟩

theorem foldStart_length_le (before : Option Ty) (steps : List Step) :
    (foldStart before steps).steps.length ≤ steps.length := by
  unfold foldStart
  split
  · split
    · simp
    · simpa using foldHere_length_le _ [] steps
  · simp

/-- Folds at every position of the chain in turn; `before` is the type that leads into it. -/
def fold (before : Option Ty) (steps : List Step) : Folded :=
  match _h : foldStart before steps with
  | ⟨[], cuts⟩ => ⟨[], cuts⟩
  | ⟨s :: rest, cuts⟩ =>
    let more := fold (some s.ty) rest
    ⟨s :: more.steps, cuts ++ more.cuts⟩
termination_by steps.length
decreasing_by
  have h := foldStart_length_le before steps
  rw [_h] at h
  exact h

end Step
end LeakTrace
