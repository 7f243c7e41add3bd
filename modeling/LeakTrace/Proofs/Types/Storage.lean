import LeakTrace.Proofs.Dispatch.Hierarchy
import Mathlib.Data.Fintype.EquivFin

/-!
# The order of types by what they can hold

What a type can be stored in is read off its shape: null goes into every reference, a class into its
supertypes, an array into the root classes and into arrays that can hold its elements.

**The order is a preorder exactly if the root classes are on top.** Every class is stored in the root
class and every array in the marker interfaces, whatever the declarations say; so a supertype that
is declared for one of these three would have to hold all classes or all arrays too.

**The more precise of two types is the lower one unless that is a root class.** The comparison gives
a root class away against any other reference before it asks which of the two can hold the other.
-/

namespace LeakTrace
variable {t : Ty}

theorem Ty.isReference_of_isPrimitive (ht : t.isPrimitive) : t.isReference = false := by
  cases t <;> simp_all [isPrimitive, isReference]

theorem Ty.isReference_of_isObjectLike (ht : t.isObjectLike) : t.isReference := by
  cases t <;> simp_all [isObjectLike, isReference]

namespace Hierarchy
variable {h : Hierarchy} {a b c : Ty} {n m k : String}

/-! ## What can be stored where -/

section

attribute [local simp] canStore

theorem isSubtype_iff_leads : h.isSubtype n m ↔ m = Ty.objectName ∨ Leads h.parents n m := by
  by_cases hm : m = Ty.objectName
  · simp [isSubtype, hm]
  · simp [isSubtype_iff hm, hm]

theorem canStore_self (h : Hierarchy) (t : Ty) : h.canStore t t := by
  cases t <;> simp

theorem canStore_null_iff : h.canStore .null t ↔ t.isReference := by
  cases t <;> simp [Ty.isReference]

theorem canStore_cls_iff : h.canStore (.cls n) t ↔ ∃ m, t = .cls m ∧ h.isSubtype n m := by
  cases t with
  | cls m =>
    simp only [canStore, isSubtype, Ty.isObject, Ty.object, Bool.or_eq_true, beq_iff_eq]
    grind
  | _ => simp [Ty.isObject, Ty.object]

theorem canStore_value_iff (ha : a.isReference = false) : h.canStore a t ↔ a = t := by
  cases a <;> simp_all [Ty.isReference]

theorem isReference_of_canStore (hab : h.canStore a b) : b.isReference = a.isReference := by
  cases a with
  | null => exact canStore_null_iff.mp hab
  | cls n =>
    obtain ⟨m, rfl, -⟩ := canStore_cls_iff.mp hab
    rfl
  | array a => cases b <;> simp_all [Ty.isObjectLike, Ty.isReference]
  | _ => rw [(canStore_value_iff rfl).mp hab]

/-- Arrays are compared by their elements, also where these are no references. -/
theorem canStore_array_iff : h.canStore (.array a) t ↔
    t.isObjectLike ∨ ∃ b, t = .array b ∧ h.canStore a b := by
  cases t with
  | array b =>
    have hself : a = b → h.canStore a b := fun hab => hab ▸ h.canStore_self a
    have hvalue : (a.isPrimitive || b.isPrimitive) → h.canStore a b → a = b := by
      intro hprim hab
      refine (canStore_value_iff ?_).mp hab
      rcases Bool.or_eq_true_iff.mp hprim with ha | hb
      · exact Ty.isReference_of_isPrimitive ha
      · rw [← isReference_of_canStore hab]
        exact Ty.isReference_of_isPrimitive hb
    simp only [canStore, Ty.isObjectLike]
    split <;> simp <;> grind
  | _ => simp

end

/-! ## Root classes on top -/

/-- The root class has no supertype but itself, and the marker interfaces have none but the root
classes. -/
def RootsOnTop (h : Hierarchy) : Prop :=
  (∀ p ∈ h.parents Ty.objectName, p = Ty.objectName) ∧
    ∀ m ∈ Ty.markerNames, ∀ p ∈ h.parents m, (Ty.cls p).isObjectLike = true

section
variable (hroot : ∀ p ∈ h.parents Ty.objectName, p = Ty.objectName)
include hroot

theorem eq_objectName_of_leads (hm : Leads h.parents Ty.objectName m) : m = Ty.objectName := by
  induction hm with
  | refl => rfl
  | tail _ hstep ih => exact hroot _ (ih ▸ hstep)

theorem isSubtype_trans (hnm : h.isSubtype n m) (hmk : h.isSubtype m k) : h.isSubtype n k := by
  rw [isSubtype_iff_leads] at *
  rcases hmk with hk | hmk
  · exact .inl hk
  · rcases hnm with rfl | hnm
    · exact .inl (eq_objectName_of_leads hroot hmk)
    · exact .inr (hnm.trans hmk)

end

theorem isObjectLike_of_leads (htop : h.RootsOnTop) (hn : (Ty.cls n).isObjectLike)
    (hnm : Leads h.parents n m) : (Ty.cls m).isObjectLike := by
  induction hnm with
  | refl => exact hn
  | @tail p q _ hstep ih =>
    have hp : p = Ty.objectName ∨ p ∈ Ty.markerNames := by simpa [Ty.isObjectLike] using ih
    rcases hp with rfl | hp
    · rw [htop.1 q hstep]
      rfl
    · exact htop.2 p hp q hstep

theorem isObjectLike_of_canStore (htop : h.RootsOnTop) (ha : a.isObjectLike)
    (hab : h.canStore a b) : b.isObjectLike := by
  cases a with
  | cls n =>
    obtain ⟨m, rfl, hnm⟩ := canStore_cls_iff.mp hab
    rcases isSubtype_iff_leads.mp hnm with rfl | hnm
    · rfl
    · exact isObjectLike_of_leads htop ha hnm
  | _ => simp [Ty.isObjectLike] at ha

theorem canStore_trans (htop : h.RootsOnTop) (hab : h.canStore a b)
    (hbc : h.canStore b c) : h.canStore a c := by
  induction a generalizing b c with
  | null =>
    rw [canStore_null_iff, isReference_of_canStore hbc, isReference_of_canStore hab]
    rfl
  | cls n =>
    obtain ⟨m, rfl, hnm⟩ := canStore_cls_iff.mp hab
    obtain ⟨k, rfl, hmk⟩ := canStore_cls_iff.mp hbc
    exact canStore_cls_iff.mpr ⟨k, rfl, isSubtype_trans htop.1 hnm hmk⟩
  | array a ih =>
    rw [canStore_array_iff]
    rcases canStore_array_iff.mp hab with hlike | ⟨b, rfl, hstored⟩
    · exact .inl (isObjectLike_of_canStore htop hlike hbc)
    · rcases canStore_array_iff.mp hbc with hlike | ⟨c, rfl, hheld⟩
      · exact .inl hlike
      · exact .inr ⟨c, rfl, ih hstored hheld⟩
  | _ =>
    rw [(canStore_value_iff rfl).mp hab]
    exact hbc

theorem canStore_cls_cls (h : Hierarchy) (n m : String) :
    h.canStore (.cls n) (.cls m) = h.isSubtype n m := by
  rw [Bool.eq_iff_iff, canStore_cls_iff]
  simp

theorem canStore_parent (hp : m ∈ h.parents n) : h.canStore (.cls n) (.cls m) := by
  rw [canStore_cls_cls, isSubtype_iff_leads]
  exact .inr (.single hp)

/-- A class that no declaration knows has no supertype but itself and the root class. -/
theorem exists_unrelated (h : Hierarchy) (m : String) (hm : m ≠ Ty.objectName) :
    ∃ n, h.canStore (.cls n) (.cls m) = false := by
  obtain ⟨n, hn⟩ := Infinite.exists_notMem_finset (m :: h.decls.map ClassDecl.name).toFinset
  simp only [List.mem_toFinset, List.mem_cons, not_or] at hn
  have hparents : h.parents n = [] := by
    rw [List.eq_nil_iff_forall_not_mem]
    intro p hp
    obtain ⟨i, hi, -⟩ := mem_parents_iff.mp hp
    exact hn.2 (List.mem_map_of_mem (mem_of_info? hi))
  refine ⟨n, Bool.eq_false_iff.mpr fun hnm => ?_⟩
  rw [canStore_cls_cls] at hnm
  rcases (isSubtype_iff_leads.mp hnm).resolve_left hm |>.cases_head with rfl | ⟨p, hp, -⟩
  · exact hn.1 rfl
  · simp [hparents] at hp

/-- **What can be stored where is a preorder exactly if the root classes are on top.** -/
theorem canStore_preorder_iff (h : Hierarchy) :
    ((∀ t, h.canStore t t = true) ∧
      ∀ a b c, h.canStore a b = true → h.canStore b c = true → h.canStore a c = true) ↔
      h.RootsOnTop := by
  constructor
  · rintro ⟨-, htrans⟩
    refine ⟨fun p hp => ?_, fun m hm p hp => ?_⟩
    · by_contra hne
      obtain ⟨n, hn⟩ := h.exists_unrelated p hne
      have hroot : h.canStore (.cls n) Ty.object :=
        canStore_cls_iff.mpr ⟨_, rfl, isSubtype_iff_leads.mpr (.inl rfl)⟩
      simp [htrans _ _ _ hroot (canStore_parent hp)] at hn
    · -- An array is stored in the marker interface, so also in its supertype.
      have harray : h.canStore (.array .int) (.cls m) :=
        canStore_array_iff.mpr (.inl (by simp [Ty.isObjectLike, hm]))
      simpa [canStore_array_iff] using htrans _ _ _ harray (canStore_parent hp)
  · exact fun htop => ⟨h.canStore_self, fun _ _ _ => canStore_trans htop⟩

/-! ## The more precise of two types -/

theorem morePrecise?_eq (ht : h.morePrecise? a b = some t) : t = a ∨ t = b := by
  fun_induction morePrecise? h a b generalizing t with
  | case1 | case3 | case6 => exact .inl (Option.some.inj ht).symm
  | case2 | case5 => exact .inr (Option.some.inj ht).symm
  | case4 => cases ht
  | case7 x y _ _ _ _ _ _ ih =>
    obtain ⟨u, hu, rfl⟩ := Option.map_eq_some_iff.mp ht
    rcases ih hu with rfl | rfl
    · exact .inl rfl
    · exact .inr rfl
  | case8 =>
    obtain ⟨u, -, rfl⟩ := Option.map_eq_some_iff.mp ht
    exact .inl rfl
  | case9 =>
    obtain ⟨u, -, rfl⟩ := Option.map_eq_some_iff.mp ht
    exact .inr rfl
  | case10 => cases ht

/-- One of the types is a root class and the other a reference, or one can hold the other. -/
def Comparable (h : Hierarchy) (a b : Ty) : Prop :=
  (a.isObjectLike = true ∧ b.isReference = true) ∨ (b.isObjectLike = true ∧ a.isReference = true) ∨
    h.canStore a b = true ∨ h.canStore b a = true

theorem Comparable.isSome (hab : h.Comparable a b) : (h.morePrecise? a b).isSome := by
  rw [morePrecise?.eq_def]
  split_ifs with heq hleft hright hprim hba hstore
  · rfl
  · rfl
  · rfl
  · -- Two primitive types are compared only if they are the same.
    obtain ⟨ha, hb⟩ := Bool.and_eq_true_iff.mp hprim
    have ha := Ty.isReference_of_isPrimitive ha
    have hb := Ty.isReference_of_isPrimitive hb
    simp only [Comparable, canStore_value_iff ha, canStore_value_iff hb, ha, hb] at hab
    grind
  · rfl
  · rfl
  · simp only [Comparable] at hab
    grind

theorem isSome_morePrecise?_swap (hab : (h.morePrecise? a b).isSome) :
    (h.morePrecise? b a).isSome := by
  fun_induction morePrecise? h a b with
  | case1 a b heq =>
    rw [eq_of_beq heq]
    exact Comparable.isSome (.inr (.inr (.inl (h.canStore_self b))))
  | case2 a b _ hleft => exact Comparable.isSome (.inr (.inl (by simpa using hleft)))
  | case3 a b _ _ hright => exact Comparable.isSome (.inl (by simpa using hright))
  | case4 => cases hab
  | case5 a b _ _ _ _ hba => exact Comparable.isSome (.inr (.inr (.inl hba)))
  | case6 a b _ _ _ _ _ hstore => exact Comparable.isSome (.inr (.inr (.inr hstore)))
  -- Arrays are compared at least where what they hold is.
  | case7 x y _ _ _ _ _ _ ih =>
    rw [morePrecise?]
    split_ifs <;> simp_all [Ty.isPrimitive]
  | case8 other x hother _ _ _ _ _ _ ih =>
    rw [morePrecise?.eq_3 _ _ _ hother]
    split_ifs <;> simp_all [Ty.isPrimitive]
  | case9 other y hother _ _ _ _ _ _ ih =>
    rw [morePrecise?.eq_2 _ _ _ (by simpa using hother)]
    split_ifs <;> simp_all [Ty.isPrimitive]
  | case10 => cases hab

/-- Of two types of which only the first can be stored in the second, the first is more precise. A
root class is given away all the same, to any other reference. -/
theorem morePrecise?_of_below (hab : h.canStore a b) (hba : h.canStore b a = false) :
    h.morePrecise? a b = some (if a.isObjectLike then b else a) ∧
      h.morePrecise? b a = some (if a.isObjectLike && !b.isObjectLike then b else a) := by
  have hne : a ≠ b := by
    rintro rfl
    simp [canStore_self] at hba
  have href := isReference_of_canStore hab
  have hprim : (a.isPrimitive && b.isPrimitive) = false := by
    refine Bool.eq_false_iff.mpr fun hprim => hne ?_
    have ha := Ty.isReference_of_isPrimitive (Bool.and_eq_true_iff.mp hprim).1
    exact (canStore_value_iff ha).mp hab
  rw [morePrecise?.eq_def h a b, morePrecise?.eq_def h b a]
  cases hlike : a.isObjectLike with
  | true =>
    have ha := Ty.isReference_of_isObjectLike hlike
    cases hb : b.isObjectLike <;> simp [hne, hne.symm, ha, href]
  | false => simp [hne, hne.symm, hprim, Bool.and_comm b.isPrimitive, hab, hba]

/-- **The order of the two types decides neither whether one is more precise nor, root classes apart,
which.** Where only one can be stored in the other, it is found in both orders unless it is a root
class; a root class is never found when it comes first, and when it comes second only against another
root class. -/
theorem morePrecise?_lower_iff (h : Hierarchy) (a b : Ty) :
    (h.morePrecise? a b).isSome = (h.morePrecise? b a).isSome ∧
      (h.canStore a b = true → h.canStore b a = false →
        ((h.morePrecise? a b = some a ∧ h.morePrecise? b a = some a) ↔ a.isObjectLike = false) ∧
        (a.isObjectLike = true → h.morePrecise? a b = some b ∧
          h.morePrecise? b a = some (if b.isObjectLike then a else b))) := by
  refine ⟨Bool.eq_iff_iff.mpr ⟨isSome_morePrecise?_swap, isSome_morePrecise?_swap⟩, ?_⟩
  intro hab hba
  have hne : b ≠ a := by
    rintro rfl
    simp [canStore_self] at hba
  obtain ⟨hfirst, hsecond⟩ := morePrecise?_of_below hab hba
  rw [hfirst, hsecond]
  cases a.isObjectLike <;> cases b.isObjectLike <;> simp [hne]

def kennel : Hierarchy :=
  ⟨[⟨"app.Animal", {}⟩, ⟨"app.Dog", { superclass := some "app.Animal" }⟩]⟩

theorem dog_more_precise :
    kennel.canStore (.cls "app.Dog") (.cls "app.Animal") = true ∧
      kennel.canStore (.cls "app.Animal") (.cls "app.Dog") = false ∧
      kennel.morePrecise? (.cls "app.Dog") (.cls "app.Animal") = some (.cls "app.Dog") ∧
      kennel.morePrecise? (.cls "app.Animal") (.cls "app.Dog") = some (.cls "app.Dog") := by
  have hstore : kennel.canStore (.cls "app.Dog") (.cls "app.Animal") := by decide +kernel
  have hback : kennel.canStore (.cls "app.Animal") (.cls "app.Dog") = false := by decide +kernel
  refine ⟨hstore, hback, ?_⟩
  have hlower := (morePrecise?_lower_iff kennel (.cls "app.Dog") (.cls "app.Animal")).2 hstore hback
  exact hlower.1.mpr (by decide +kernel)

/-- Only a marker interface can be stored in the root class and not the other way round. It is found
if it comes second. -/
theorem marker_less_precise_than_root :
    kennel.canStore (.cls "java.io.Serializable") .object = true ∧
      kennel.canStore .object (.cls "java.io.Serializable") = false ∧
      kennel.morePrecise? (.cls "java.io.Serializable") .object = some .object ∧
      kennel.morePrecise? .object (.cls "java.io.Serializable") =
        some (.cls "java.io.Serializable") := by
  have hstore : kennel.canStore (.cls "java.io.Serializable") .object := by decide +kernel
  have hback : kennel.canStore .object (.cls "java.io.Serializable") = false := by decide +kernel
  exact ⟨hstore, hback, morePrecise?_of_below hstore hback⟩

end Hierarchy
end LeakTrace
