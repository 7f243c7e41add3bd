import LeakTrace.Proofs.Vocabulary.Paths

/-!
# Where paths are rooted

A path is rooted in a local, or in a static field and then in no local at all. Of the values that a
path is made from, the root comes from the value that stands first; whatever else changes on the way
to canonical form, **the root stays**. So a path that is made from locals of one kind, or from paths
rooted in such locals, is rooted in one. Which path it is depends on the rules for paths and not on
what was made before: the answer is settled.
-/

namespace LeakTrace
variable {P : Local → Prop} {l : Local}

/-! ## Values -/

namespace Value
variable {b : Local}

/-- All locals that are mentioned in the value are of the kind. -/
def Within (P : Local → Prop) (v : Value) : Prop := ∀ l, Atom.local l ∈ v.atoms → P l

variable {v : Value}

@[simp]
theorem within_var : Within P (.var l) ↔ P l := by
  simp [Within, atoms]

@[simp]
theorem within_field {f : Field} : Within P (.field b f) ↔ P b := by
  simp [Within, atoms]

@[simp]
theorem within_element {i : Value} : Within P (.element b i) ↔ P b ∧ i.Within P := by
  simp [Within, atoms]

@[simp]
theorem within_call {kind : CallKind} {m : MethodRef} {base : Option Local} {args : List Value} :
    Within P (.call kind m base args) ↔ (∀ l ∈ base, P l) ∧ ∀ v ∈ args, v.Within P := by
  cases base <;> grind [Within, atoms, atomsOfList_eq_flatMap]

theorem Within.root (h : v.Within P) (keep : Bool) : (v.root keep).Within P :=
  fun l hl => h l ((root_standsIn v keep).atoms hl)

end Value

/-! ## Canonical forms -/

/-- The path is rooted in a local of the kind, or in none. -/
def Path.Rooted (P : Local → Prop) (p : Path) : Prop := ∀ l ∈ p.base, P l

theorem Path.rooted_of_base_none {p : Path} (h : p.base = none) : p.Rooted P := by
  intro l hl
  rw [h] at hl
  cases hl

namespace PathRequest
variable {q : PathRequest}

theorem rooted_place? (hq : ∀ v ∈ q.value, v.Within P) {ty : Option Ty} {p : Place}
    (hp : q.place? ty = some p) : ∀ l ∈ p.base, P l := by
  unfold place? at hp
  split at hp
  · next b f hv =>
    cases hp
    rintro _ ⟨⟩
    exact Value.within_field.mp (hq _ hv)
  · cases hp
    exact all_none
  · next b _ hv =>
    cases hp
    rintro _ ⟨⟩
    exact (Value.within_element.mp (hq _ hv)).1
  · next b hv =>
    cases hp
    rintro _ ⟨⟩
    exact Value.within_var.mp (hq _ hv)
  · cases hp
  · split at hp
    · cases hp
    · cases hp
      exact all_none

end PathRequest

namespace PathRules
variable {r : PathRules} {q : PathRequest}

theorem base_canon {a : AccessPath} (ha : a ∈ (r.canon q).path) :
    ∃ ty p, q.place? ty = some p ∧ a.base = p.base := by
  obtain ⟨p0, p1, hp0, hp1, -, -, rfl⟩ := path_canon_eq_some_iff.mp ha
  have hbase := base_narrow hp1
  exact ⟨_, p0, hp0, hbase⟩

theorem rooted_canon (hq : ∀ v ∈ q.value, v.Within P) :
    ∀ a ∈ (r.canon q).path, Path.Rooted P a.toPath := by
  intro a ha l hl
  obtain ⟨ty, p, hp, hbase⟩ := base_canon ha
  exact q.rooted_place? hq hp l (hbase.symm.trans hl)

theorem base_canon_var (hq : q.value = some (.var l)) :
    ∀ a ∈ (r.canon q).path, a.base = some l := by
  intro a ha
  obtain ⟨ty, p, hp, hbase⟩ := base_canon ha
  rw [PathRequest.place?, hq] at hp
  cases hp
  exact hbase

end PathRules

/-! ## Making paths -/

namespace Paths
variable {deep cutFirst reduce : Bool} {α β : Type} {q : PathRequest} {steps : List Step}

/-- Whatever the store, the action ends in a value with `Q`, and the rules stay. -/
def Gives {α : Type} (act : Paths α) (Q : α → Prop) : Prop :=
  ∀ r : PathRules, Keeps (·.rules = r) act Q

def RootedOpt (P : Local → Prop) (a : Option AccessPath) : Prop := ∀ p ∈ a, Path.Rooted P p.toPath

theorem RootedOpt.some {a : AccessPath} (h : a.toPath.Rooted P) : RootedOpt P (some a) := by
  rintro _ ⟨⟩
  exact h

variable {a b : AccessPath} {v : Value} {ty : Option Ty} {part : ArrayPart}

theorem make_holds {Q : Path → Prop} (hq : ∀ r : PathRules, ∀ a ∈ (r.canon q).path, Q a.toPath) :
    Gives (make q) fun o => ∀ p ∈ o, Q p.toPath := by
  rintro _ s rfl
  refine ⟨?_, s.rules_make q⟩
  rw [run_make]
  exact hq s.rules

theorem make_gives (hq : ∀ v ∈ q.value, v.Within P) : Gives (make q) (RootedOpt P) :=
  make_holds fun _ => PathRules.rooted_canon hq

theorem ofValue_gives (hv : v.Within P) : Gives (ofValue v deep) (RootedOpt P) := by
  refine make_gives ?_
  rintro _ ⟨⟩
  exact hv

theorem ofTyped_gives (hv : v.Within P) : Gives (ofTyped v ty deep part) (RootedOpt P) := by
  refine make_gives ?_
  rintro _ ⟨⟩
  exact hv

theorem rebase_gives (hv : v.Within P) :
    Gives (rebase a v ty cutFirst reduce part) (RootedOpt P) := by
  refine fun r => remake_keeps (make_gives (fun u hu => ?_) r) _ fun hsame => ?_
  · cases hu
    exact hv
  · split at hsame
    · next b l hb =>
      simp only [Bool.and_eq_true, beq_iff_eq] at hsame
      intro k hk
      rw [hb] at hk
      cases hk
      rw [hsame.1.1.1]
      exact Value.within_var.mp hv
    · cases hsame

theorem onto_var_gives : Gives (onto a (.var l)) fun o => ∀ p ∈ o, p.base = some l := by
  refine fun r => remake_keeps (P := (·.base = some l))
    (make_holds (Q := (·.base = some l)) (fun _ => PathRules.base_canon_var rfl) r) _ fun hsame => ?_
  split at hsame
  · next b k hb heq =>
    cases heq
    simp only [Bool.and_eq_true, beq_iff_eq] at hsame
    rw [hb, hsame.1.1.1]
  · cases hsame

theorem onto_gives (hv : v.Within P) : Gives (onto a v) (RootedOpt P) := rebase_gives hv

theorem ontoTyped_gives (hv : v.Within P) :
    Gives (ontoTyped a v ty cutFirst) (RootedOpt P) := rebase_gives hv

section
variable (ha : a.toPath.Rooted P)
include ha

theorem within_root : ∀ v ∈ a.base.map Value.var, v.Within P := by
  intro v hv
  obtain ⟨l, hl, rfl⟩ := Option.map_eq_some_iff.mp hv
  exact Value.within_var.mpr (ha l hl)

theorem append_gives : Gives (append a steps deep) (RootedOpt P) :=
  fun r => .ite (.pure (.some ha)) (make_gives (within_root ha) r)

theorem dropLast_gives : Gives (dropLast a) (RootedOpt P) :=
  fun r => .ite (.pure (.some ha)) (make_gives (within_root ha) r)

end

/-! ### Answers that stay -/

variable {r : PathRules}

/-- Under the rules the action has one answer. -/
def Settled (r : PathRules) {α : Type} (act : Paths α) : Prop :=
  ∃ a, Keeps (·.rules = r) act (· = a)

theorem Settled.pure {a : α} : Settled r (pure a) := ⟨a, .pure rfl⟩

theorem Settled.bind {x : Paths α} {g : α → Paths β} (h : Settled r x) (hg : ∀ a, Settled r (g a)) :
    Settled r (x >>= g) := by
  obtain ⟨a, ha⟩ := h
  obtain ⟨b, hb⟩ := hg a
  refine ⟨b, ha.bind ?_⟩
  rintro _ rfl
  exact hb

theorem Settled.ite {c : Prop} [Decidable c] {x y : Paths α} (ht : Settled r x) (he : Settled r y) :
    Settled r (if c then x else y) := by
  split
  · exact ht
  · exact he

theorem Settled.filterMapM {g : α → Paths (Option β)} {l : List α} (h : ∀ a ∈ l, Settled r (g a)) :
    Settled r (l.filterMapM g) := by
  induction l with
  | nil => exact pure
  | cons a rest ih =>
    rw [List.filterMapM_cons]
    have hrest := ih fun b hb => h b (List.mem_cons_of_mem a hb)
    refine (h a List.mem_cons_self).bind fun o => ?_
    cases o with
    | none => exact hrest
    | some b => exact hrest.bind fun _ => pure

theorem Gives.of_settled {act : Paths α} (h : ∀ r, act.Settled r) : act.Gives fun _ => True := by
  intro r s hs
  obtain ⟨a, ha⟩ := h r
  exact ⟨trivial, (ha s hs).2⟩

theorem make_settled : Settled r (make q) := by
  refine ⟨(r.canon q).path, ?_⟩
  rintro s rfl
  exact ⟨run_make q s, s.rules_make q⟩

theorem ofValue_settled : Settled r (ofValue v deep) := make_settled

theorem rebase_settled : Settled r (rebase a v ty cutFirst reduce part) := by
  refine .ite .pure (make_settled.bind fun o => ?_)
  cases o with
  | none => exact .pure
  | some b => exact .pure

theorem onto_settled : Settled r (onto a v) := rebase_settled

theorem append_settled : Settled r (append a steps deep) :=
  .ite .pure make_settled

theorem dropLast_settled : Settled r (dropLast a) := .ite .pure make_settled

end Paths
end LeakTrace
