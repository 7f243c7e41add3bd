import LeakTrace.Fact.Derive
import Mathlib.Tactic.Common

/-!
# What all derived facts have in common

Facts come from sources and are derived step after step. `Fact.Derived` are those that any such
history can make, and `Fact.Regular` is what they have in common, whichever order the derivations
came in.

**Who names no place waits for the end of one conditional.** Only a fact of this kind keeps a join,
and never two: a conditional is entered with a fact that names a place, and such a fact has none.
That these facts are implicit is what tells them apart from the zero fact.
-/

namespace LeakTrace
namespace Fact
variable {id : Nat} {stmt : Option StmtId}

/-- The path may be given to a derivation from `f`: it names a place, or is the path of `f`, and
then the fact stays implicit or explicit. -/
def Admits (f : Fact) (a : AccessPath) (implicit : Bool) : Prop :=
  a.toPath.isEmpty = false ∨ a = f.accessPath ∧ implicit = f.implicit

/-- Facts that come from a source by any sequence of derivations. -/
inductive Derived : Fact → Prop
  | ofSource {id : Nat} {origin : Origin} {cut thrown implicit : Bool} :
    origin.path.isEmpty = false → Derived (.ofSource id origin cut thrown implicit)
  | derive? {f g : Fact} {id : Nat} {a : AccessPath} {stmt : Option StmtId} {implicit : Bool} :
    Derived f → f.Admits a implicit → f.derive? id (some a) stmt implicit = some g → Derived g
  | deriveAs? {f g : Fact} {id : Nat} {a : AccessPath} {stmt : Option StmtId} {implicit : Bool} :
    Derived f → f.Admits a implicit → f.deriveAs? id (some a) stmt implicit = some g → Derived g
  | catchInto? {f g : Fact} {id : Nat} {a : AccessPath} :
    Derived f → f.Admits a f.implicit → f.catchInto? id (some a) = some g → Derived g
  | deactivate {f : Fact} {id : Nat} {unit : StmtId} {deferred : Bool} :
    Derived f → Derived (f.deactivate id unit deferred)
  | activate {f : Fact} {id : Nat} : Derived f → Derived (f.activate id)
  | turnAt {f : Fact} {id : Nat} {unit : StmtId} : Derived f → Derived (f.turnAt id unit)
  | throwAt {f : Fact} {id : Nat} {stmt : StmtId} : Derived f → Derived (f.throwAt id stmt)
  | leaveConditional {f : Fact} {id : Nat} : Derived f → Derived (f.leaveConditional id)
  | withCall {f : Fact} {id : Nat} {call : StmtId} : Derived f → Derived (f.withCall id call)
  /-- A conditional is entered with a fact that names a place. -/
  | enterConditional {f : Fact} {id : Nat} {join : Join} {stmt : StmtId} :
    Derived f → f.path.isEmpty = false → Derived (f.enterConditional id join stmt)
  | callConditional {f : Fact} {id : Nat} {call : StmtId} :
    Derived f → Derived (f.callConditional id call)

/-- What holds of every derived fact. -/
structure Regular (f : Fact) : Prop where
  joins_eq_nil : f.path.isEmpty = false → f.joins = []
  joins_le_one : f.joins.length ≤ 1
  implicit : f.path.isEmpty = true → f.implicit = true
  /-- An alias with a shortened path tells so. -/
  cutDependent : f.isActive = false → f.cut = true → f.cutDependent = true
  length_lt : ∀ p, f.pred = some p → p.length < f.length

@[simp]
theorem path_move {f : Fact} {a : AccessPath} : (f.move id a stmt).path = a.toPath := by
  unfold move
  split
  · next h =>
    simp only [Bool.and_eq_true, beq_iff_eq] at h
    exact h.1
  · rfl

@[simp]
theorem joins_move_empty {f : Fact} : (f.move id .empty stmt).joins = f.joins := by
  unfold move
  split <;> rfl

namespace Regular
variable {f g : Fact} {a : AccessPath} {implicit : Bool}

variable (h : f.Regular)
include h

theorem next (id : Nat) : (f.next id).Regular where
  __ := h
  length_lt := by
    rintro _ ⟨⟩
    exact Nat.lt_succ_self f.length

theorem move (hi : a.toPath.isEmpty → implicit) :
    ({ f.move id a stmt with implicit } : Fact).Regular := by
  unfold Fact.move
  split
  · next hsame =>
    have hpath : f.path = a.toPath := by simpa using (Bool.and_eq_true_iff.mp hsame).1
    exact { h.next id with implicit := fun hempty => hi (hpath ▸ hempty) }
  · refine { h.next id with joins_eq_nil := fun ha => ?_, joins_le_one := ?_, implicit := hi,
                            cutDependent := fun hactive hcut => ?_ }
    · exact if_neg (by simpa using ha)
    · dsimp only
      split
      · exact h.joins_le_one
      · exact Nat.zero_le 1
    · have hactive : f.isActive = false := hactive
      have hcut : a.cut := hcut
      simp [hactive, hcut]

/-- A path that may be given keeps facts without a place implicit. -/
theorem implicit_of_admits (ha : f.Admits a implicit) (hempty : a.toPath.isEmpty) : implicit := by
  rcases ha with ha | ⟨rfl, rfl⟩
  · rw [ha] at hempty
    cases hempty
  · exact h.implicit hempty

theorem derive? (ha : f.Admits a implicit) (hg : f.derive? id (some a) stmt implicit = some g) :
    g.Regular := by
  obtain rfl := Option.some.inj hg
  exact h.move (h.implicit_of_admits ha)

theorem moved (ha : f.Admits a f.implicit) : (f.move id a stmt).Regular := by
  have himplicit : (f.move id a stmt).implicit = f.implicit := by
    unfold Fact.move
    split <;> rfl
  have hmove : ({ f.move id a stmt with implicit := f.implicit } : Fact).Regular :=
    h.move (h.implicit_of_admits ha)
  exact { hmove with implicit := fun hempty => himplicit.trans (hmove.implicit hempty) }

/-- The alias of a fact has no joins, and tells whether its path was shortened. -/
theorem deactivate {unit : StmtId} {deferred : Bool} : (f.deactivate id unit deferred).Regular := by
  unfold Fact.deactivate
  split
  · exact h
  · have hmoved : (f.move id f.accessPath none).Regular := h.moved (.inr ⟨rfl, rfl⟩)
    exact { hmoved with
      joins_eq_nil := fun _ => rfl
      joins_le_one := Nat.zero_le 1
      cutDependent := fun _ hcut => (Bool.or_eq_true _ _).mpr (.inr hcut) }

theorem enterConditional (hplace : f.path.isEmpty = false) {join : Join} {stmt : StmtId} :
    (f.enterConditional id join stmt).Regular := by
  have hjoins : f.joins = [] := h.joins_eq_nil hplace
  unfold Fact.enterConditional
  rw [if_neg (by simp [hjoins])]
  refine { h.move (a := .empty) fun _ => rfl with joins_eq_nil := fun hne => ?_, joins_le_one := ?_ }
  · have hne : (f.move id .empty (some stmt)).path.isEmpty = false := hne
    rw [path_move] at hne
    cases hne
  · simp [hjoins]

end Regular

variable {f : Fact}

/-- Every derivation keeps what all derived facts have in common. -/
theorem Derived.regular (h : f.Derived) : f.Regular := by
  induction h with
  | ofSource hplace =>
    refine ⟨fun _ => rfl, Nat.zero_le 1, fun h => ?_, fun h => ?_, fun _ h => ?_⟩
    · simp [Fact.ofSource, hplace] at h
    · cases h
    · cases h
  | derive? _ ha hg ih => exact ih.derive? ha hg
  | deriveAs? _ ha hg ih =>
    unfold Fact.deriveAs? at hg
    dsimp only at hg
    split at hg
    · exact Option.some.inj hg ▸ ih
    · exact ih.derive? ha hg
  | catchInto? _ ha hg ih =>
    obtain rfl := Option.some.inj hg
    exact { ih.moved ha with }
  | deactivate _ ih => exact ih.deactivate
  | @activate f id _ ih =>
    unfold Fact.activate
    split
    · exact ih
    · exact { ih.next id with cutDependent := fun h => by cases h }
  | @turnAt f id _ _ ih =>
    unfold Fact.turnAt
    split
    · exact ih
    · exact { ih.next id with }
  | @throwAt f id _ _ ih => exact { ih.next id with }
  | @leaveConditional f id _ ih =>
    unfold Fact.leaveConditional
    split
    · exact ih
    · exact { ih.next id with
        joins_eq_nil := fun hplace => by simp [ih.joins_eq_nil hplace]
        joins_le_one := Nat.le_trans (List.drop_sublist 1 _).length_le ih.joins_le_one }
  | withCall _ ih => exact { ih with }
  | enterConditional _ hplace ih => exact ih.enterConditional hplace
  | callConditional _ ih =>
    exact { ih.move (a := .empty) fun _ => rfl with
      joins_eq_nil := fun _ => rfl, joins_le_one := Nat.zero_le 1 }

/-- Every derived fact is regular, and none says what the zero fact says. -/
theorem derived_facts_regular (h : f.Derived) : f.Regular ∧ ∀ id, f.same (.zero id) = false := by
  refine ⟨h.regular, fun id => beq_false_of_ne fun hzero => ?_⟩
  -- The zero fact names no place either, but is not implicit.
  have hplace : f.path.isEmpty := by rw [hzero]; rfl
  have himplicit : f.implicit := h.regular.implicit hplace
  rw [hzero] at himplicit
  cases himplicit

def cutSource : Fact :=
  .ofSource 0 { definition := { kind := .source, id := "source" }
                path := { base := some ⟨0, "x", .int⟩ }, stmt := 1 } true false false

def guardedAlias : Fact := (cutSource.deactivate 1 4 true).enterConditional 2 (.stmt 5) 3

theorem guardedAlias_regular : guardedAlias.Derived ∧ guardedAlias.path.isEmpty = true ∧
    guardedAlias.isActive = false ∧ guardedAlias.joins = [.stmt 5] ∧
    guardedAlias.Regular ∧ ∀ id, guardedAlias.same (.zero id) = false := by
  have hderived : guardedAlias.Derived := .enterConditional (.deactivate (.ofSource rfl)) rfl
  exact ⟨hderived, rfl, rfl, rfl, derived_facts_regular hderived⟩

end Fact
end LeakTrace
