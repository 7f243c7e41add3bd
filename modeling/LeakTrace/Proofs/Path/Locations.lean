import LeakTrace.Path.Basic
import Mathlib.Data.Set.Basic

/-!
# The locations that a path means

A path stands for a set of locations: its root, its fields or any chain that goes on from them, and
the parts of the value that is found there. The set is infinite where everything below is meant.
**Entailment between paths is inclusion of these sets**, so the tests on lengths, marks and array
parts ask exactly what they should.
-/

namespace LeakTrace

/-- What can be tainted about the value at the end of a chain. -/
inductive Aspect where
  | contents
  | length

/-- The aspect belongs to the part of an array. -/
def ArrayPart.Covers : ArrayPart → Aspect → Prop
  | .both, _ => True
  | .contents, a => a = .contents
  | .length, a => a = .length

theorem ArrayPart.covers_mono_iff {p q : ArrayPart} :
    (∀ a, q.Covers a → p.Covers a) ↔ p = .both ∨ p = q := by
  constructor
  · intro hall
    have hcontents := hall .contents
    have hlength := hall .length
    clear hall
    cases p <;> cases q <;> simp_all [Covers]
  · rintro (rfl | rfl) a ha
    · trivial
    · exact ha

/-- A place in memory with one aspect of what is there. Static fields have no root. -/
structure Location where
  root : Option Local
  fields : List Field
  aspect : Aspect

namespace Path
variable {p q : Path}

/-- The chains of fields that a path means: its own, and what goes on from it if the path is deep. -/
def Reaches (p : Path) (fields : List Field) : Prop :=
  if p.deep = true then p.fields <+: fields else fields = p.fields

def locations (p : Path) : Set Location :=
  {x | x.root = p.base ∧ p.Reaches x.fields ∧ p.part.Covers x.aspect}

theorem reaches_self (p : Path) : p.Reaches p.fields := by
  unfold Reaches
  split
  · exact List.prefix_rfl
  · rfl

/-- A deep path reaches more than one chain, and of different lengths. -/
theorem reaches_mono_iff : (∀ fields, q.Reaches fields → p.Reaches fields) ↔
    (q.deep → p.deep) ∧ (if p.deep = true then p.fields <+: q.fields else p.fields = q.fields) := by
  constructor
  · intro hall
    have hself := hall _ q.reaches_self
    cases hp : p.deep with
    | true => simpa [Reaches, hp] using hself
    | false =>
      simp only [Reaches, hp, Bool.false_eq_true, if_false] at hall hself ⊢
      refine ⟨fun hq => ?_, hself.symm⟩
      have hlonger := hall (q.fields ++ [default]) (by simp [hq])
      simp [← hself] at hlonger
  · rintro ⟨hdeep, hfields⟩ fields hq
    unfold Reaches at *
    cases hp : p.deep with
    | true =>
      simp only [hp, if_true] at hfields ⊢
      split at hq
      · exact hfields.trans hq
      · exact hq ▸ hfields
    | false =>
      have hq' : q.deep = false := Bool.eq_false_iff.mpr fun h => by simp [hdeep h] at hp
      simp_all

theorem exists_covers (a : ArrayPart) : ∃ x, a.Covers x := by
  cases a
  · exact ⟨.contents, rfl⟩
  · exact ⟨.length, rfl⟩
  · exact ⟨.length, trivial⟩

/-- Sets of locations are included part by part, since no part of a path is empty. -/
theorem locations_subset_iff : q.locations ⊆ p.locations ↔ p.base = q.base ∧
    (∀ fields, q.Reaches fields → p.Reaches fields) ∧ ∀ a, q.part.Covers a → p.part.Covers a := by
  constructor
  · intro hsub
    have hmem {fields : List Field} {a : Aspect} (hf : q.Reaches fields) (ha : q.part.Covers a) :
        (⟨q.base, fields, a⟩ : Location) ∈ p.locations := hsub ⟨rfl, hf, ha⟩
    obtain ⟨a, ha⟩ := exists_covers q.part
    exact ⟨(hmem q.reaches_self ha).1.symm, fun _ hf => (hmem hf ha).2.1,
      fun _ ha => (hmem q.reaches_self ha).2.2⟩
  · rintro ⟨hbase, hfields, haspect⟩ x ⟨hx, hf, ha⟩
    exact ⟨hx.trans hbase.symm, hfields _ hf, haspect _ ha⟩

/-! ## Entailment -/

theorem entails_iff : p.entails q ↔ p.isEmpty = false ∧ q.isEmpty = false ∧ p.base = q.base ∧
    (q.deep → p.deep) ∧ (p.part = .both ∨ p.part = q.part) ∧
    (if p.deep = true then p.fields <+: q.fields else p.fields = q.fields) := by
  unfold entails
  cases hd : p.deep <;> cases hq : q.deep <;> simp [List.isPrefixOf_iff_prefix, and_assoc]

theorem entails_iff_subset (hp : p.isEmpty = false) (hq : q.isEmpty = false) :
    p.entails q ↔ q.locations ⊆ p.locations := by
  rw [entails_iff, locations_subset_iff, reaches_mono_iff, ArrayPart.covers_mono_iff]
  constructor
  · rintro ⟨-, -, hbase, hdeep, hpart, hfields⟩
    exact ⟨hbase, ⟨hdeep, hfields⟩, hpart⟩
  · rintro ⟨hbase, ⟨hdeep, hfields⟩, hpart⟩
    exact ⟨hp, hq, hbase, hdeep, hpart, hfields⟩

theorem entails_refl (hp : p.isEmpty = false) : p.entails p :=
  (entails_iff_subset hp hp).mpr subset_rfl

theorem entails_trans {r : Path} (hpq : p.entails q) (hqr : q.entails r) : p.entails r := by
  obtain ⟨hp, hq, -⟩ := entails_iff.mp hpq
  obtain ⟨-, hr, -⟩ := entails_iff.mp hqr
  rw [entails_iff_subset hp hr]
  exact ((entails_iff_subset hq hr).mp hqr).trans ((entails_iff_subset hp hq).mp hpq)

/-- **Entailment is inclusion of locations**, hence a preorder on the paths that name a place. -/
theorem entailment_is_inclusion :
    (∀ p q : Path, p.isEmpty = false → q.isEmpty = false →
      (p.entails q = true ↔ q.locations ⊆ p.locations)) ∧
    (∀ p : Path, p.isEmpty = false → p.entails p = true) ∧
    ∀ p q r : Path, p.isEmpty = false → q.isEmpty = false → r.isEmpty = false →
      p.entails q = true → q.entails r = true → p.entails r = true :=
  ⟨fun _ _ => entails_iff_subset, fun _ => entails_refl, fun _ _ _ _ _ _ => entails_trans⟩

/-- The field `next` of a list, over and over, below a local. -/
def nexts (n : Nat) : Path where
  base := some ⟨0, "x", .cls "Node"⟩
  steps := List.replicate n (.of ⟨"Node", "next", .cls "Node", false⟩)

/-- All nodes behind the first are among those below the list, and the other way round the list itself
is missing. -/
theorem nexts_included :
    (nexts 1).locations ⊆ (nexts 0).locations ∧ ¬ (nexts 0).locations ⊆ (nexts 1).locations := by
  have hiff := entailment_is_inclusion.1
  rw [← hiff (nexts 0) (nexts 1) rfl rfl, ← hiff (nexts 1) (nexts 0) rfl rfl]
  decide +kernel

end Path
end LeakTrace
