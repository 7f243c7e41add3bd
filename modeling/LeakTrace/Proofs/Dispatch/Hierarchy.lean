import LeakTrace.Code.Program
import LeakTrace.Proofs.Closure

/-!
# Classes seen from below and from above

Subtypes are searched downwards over all declarations that mention a class, supertypes upwards over
the information of a class. **The two views are each other's reverse where no class is declared
twice**; a second declaration hides what the first said from the upward view only. The superclasses
of a class are numbered by their distance, and the chain that the library lists has them in this
order, up to the first that comes again.
-/

namespace LeakTrace
open List Option

theorem foldl_remember {α β : Type} (test : α → Bool) (f : α → β) (l : List α) (o : Option β) :
    l.foldl (fun found a => if test a then some (f a) else found) o =
      ((l.filter test).getLast?.map f).or o := by
  induction l generalizing o with
  | nil => rfl
  | cons a rest ih =>
    rw [foldl_cons, ih, filter_cons]
    by_cases ha : test a
    · rw [if_pos ha, if_pos ha, getLast?_cons]
      cases (rest.filter test).getLast? <;> rfl
    · rw [if_neg ha, if_neg ha]

namespace Hierarchy
variable {h : Hierarchy} {c d r : String} {i : ClassInfo} {n : Nat}

/-! ## Declarations -/

def DeclaredOnce (h : Hierarchy) : Prop := (h.decls.map ClassDecl.name).Nodup

theorem info?_eq (h : Hierarchy) (c : String) :
    h.info? c = (h.decls.filter fun d => d.name == c).getLast?.map ClassDecl.info := by
  rw [info?, foldl_remember, or_none]

theorem mem_of_info? (hi : h.info? c = some i) : ⟨c, i⟩ ∈ h.decls := by
  rw [info?_eq] at hi
  obtain ⟨d, hd, rfl⟩ := map_eq_some_iff.mp hi
  obtain ⟨hmem, hname⟩ := mem_filter.mp (mem_of_getLast? hd)
  rwa [← eq_of_beq hname]

theorem info?_of_mem (honce : h.DeclaredOnce) (hc : ⟨c, i⟩ ∈ h.decls) : h.info? c = some i := by
  cases hinfo : h.info? c with
  | none =>
    rw [info?_eq, map_eq_none_iff, getLast?_eq_none_iff, filter_eq_nil_iff] at hinfo
    exact absurd (beq_self_eq_true c) (hinfo _ hc)
  | some j =>
    have heq := inj_on_of_nodup_map honce hc (mem_of_info? hinfo) rfl
    rw [(ClassDecl.mk.inj heq).2]

theorem mem_parents_iff : r ∈ h.parents c ↔
    ∃ i, h.info? c = some i ∧ r ∈ i.superclass.toList ++ i.interfaces := by
  unfold parents
  cases h.info? c <;> simp

theorem mem_children_iff : c ∈ h.children r ↔
    ∃ i, ⟨c, i⟩ ∈ h.decls ∧ r ∈ i.superclass.toList ++ i.interfaces := by
  simp only [children, mem_flatMap, List.mem_map, mem_filter, beq_iff_eq]
  constructor
  · rintro ⟨⟨name, info⟩, hd, s, ⟨hs, rfl⟩, rfl⟩
    exact ⟨info, hd, hs⟩
  · rintro ⟨info, hd, hr⟩
    exact ⟨_, hd, r, ⟨hr, rfl⟩, rfl⟩

theorem mem_children_iff_mem_parents (honce : h.DeclaredOnce) :
    c ∈ h.children r ↔ r ∈ h.parents c := by
  rw [mem_children_iff, mem_parents_iff]
  constructor
  · rintro ⟨i, hc, hr⟩
    exact ⟨i, info?_of_mem honce hc, hr⟩
  · rintro ⟨i, hc, hr⟩
    exact ⟨i, mem_of_info? hc, hr⟩

/-! ## The names that a walk can meet -/

def names (h : Hierarchy) (c : String) : List String :=
  c :: h.decls.flatMap fun d => d.name :: (d.info.superclass.toList ++ d.info.interfaces)

theorem length_names_le (h : Hierarchy) (c : String) : (h.names c).length ≤ h.nameBound := by
  have hfold : ∀ (l : List ClassDecl) (k : Nat),
      k + (l.flatMap fun d => d.name :: (d.info.superclass.toList ++ d.info.interfaces)).length ≤
        l.foldl (fun n d => n + 2 + d.info.interfaces.length) k := by
    intro l
    induction l with
    | nil => intro k; exact Nat.le_refl _
    | cons d rest ih =>
      intro k
      have hone : d.info.superclass.toList.length ≤ 1 := by
        cases d.info.superclass <;> simp
      have hrest := ih (k + 2 + d.info.interfaces.length)
      rw [flatMap_cons, foldl_cons]
      simp only [length_append, length_cons]
      omega
  have hall := hfold h.decls 1
  simp only [names, length_cons, nameBound]
  omega

theorem stocks_parents (h : Hierarchy) (c : String) : Stocks h.parents [c] (h.names c) where
  holds x hx := by
    rw [mem_singleton.mp hx]
    exact mem_cons_self
  closed x _ y hy := by
    obtain ⟨i, hi, hy⟩ := mem_parents_iff.mp hy
    refine mem_cons_of_mem _ (mem_flatMap.mpr ⟨_, mem_of_info? hi, ?_⟩)
    exact mem_cons_of_mem _ hy

theorem stocks_children (h : Hierarchy) (c : String) : Stocks h.children [c] (h.names c) where
  holds x hx := by
    rw [mem_singleton.mp hx]
    exact mem_cons_self
  closed x _ y hy := by
    obtain ⟨i, hy, _⟩ := mem_children_iff.mp hy
    exact mem_cons_of_mem _ (mem_flatMap.mpr ⟨_, hy, mem_cons_self⟩)

/-! ## Subtypes -/

theorem mem_supertypes_iff : r ∈ h.supertypes c ↔ Leads h.parents c r := by
  have hclosure := mem_closure_iff (y := r) (h.stocks_parents c) (h.length_names_le c)
  simpa [supertypes] using hclosure

theorem mem_subtypes_iff (honce : h.DeclaredOnce) : c ∈ h.subtypes r ↔ Leads h.parents c r := by
  have hclosure : c ∈ h.subtypes r ↔ Leads h.children r c := by
    simpa [subtypes] using mem_closure_iff (y := c) (h.stocks_children r) (h.length_names_le r)
  have hswap : (fun a b => b ∈ h.children a) = Function.swap fun a b => b ∈ h.parents a := by
    funext a b
    exact propext (mem_children_iff_mem_parents honce)
  rw [hclosure, Leads, hswap, Relation.reflTransGen_swap]

theorem isSubtype_iff (hr : r ≠ Ty.objectName) : h.isSubtype c r ↔ Leads h.parents c r := by
  simp only [isSubtype, Bool.or_eq_true, beq_iff_eq, hr, or_false, contains_eq_mem,
    decide_eq_true_eq, mem_supertypes_iff]
  constructor
  · rintro (rfl | hcr)
    · exact .refl
    · exact hcr
  · exact .inr

/-! ## Superclasses by distance -/

/-- The superclass at a distance, the class itself at distance 0. -/
def ancestor? (h : Hierarchy) (c : String) : Nat → Option String
  | 0 => some c
  | n + 1 => (h.ancestor? c n).bind h.superclass?

theorem ancestor?_add (h : Hierarchy) (c : String) (m n : Nat) :
    h.ancestor? c (m + n) = (h.ancestor? c m).bind fun d => h.ancestor? d n := by
  induction n with
  | zero => cases h.ancestor? c m <;> simp [ancestor?]
  | succ n ih =>
    rw [← Nat.add_assoc, ancestor?, ih]
    cases h.ancestor? c m <;> rfl

theorem ancestor?_succ (h : Hierarchy) (c : String) (n : Nat) :
    h.ancestor? c (n + 1) = (h.superclass? c).bind fun d => h.ancestor? d n := by
  rw [Nat.add_comm, ancestor?_add]
  simp [ancestor?]

theorem isSome_ancestor? {m : Nat} (hmn : m ≤ n) (hn : (h.ancestor? c n).isSome) :
    (h.ancestor? c m).isSome := by
  obtain ⟨k, rfl⟩ := Nat.exists_eq_add_of_le hmn
  rw [ancestor?_add] at hn
  cases hm : h.ancestor? c m with
  | none => simp [hm] at hn
  | some d => rfl

theorem leads_iff_ancestor? :
    Leads (fun c => (h.superclass? c).toList) c d ↔ ∃ n, h.ancestor? c n = some d := by
  constructor
  · intro hcd
    induction hcd with
    | refl => exact ⟨0, rfl⟩
    | @tail a b _ hstep ih =>
      obtain ⟨n, hn⟩ := ih
      refine ⟨n + 1, ?_⟩
      rw [ancestor?, hn]
      simpa using hstep
  · rintro ⟨n, hn⟩
    induction n generalizing d with
    | zero =>
      cases hn
      exact .refl
    | succ n ih =>
      obtain ⟨a, ha, had⟩ := bind_eq_some_iff.mp hn
      exact (ih ha).tail (by simpa using had)

theorem stocks_superclass (h : Hierarchy) (c : String) :
    Stocks (fun c => (h.superclass? c).toList) [c] (h.names c) where
  holds := (h.stocks_parents c).holds
  closed x hx y hy := by
    refine (h.stocks_parents c).closed x hx y (mem_parents_iff.mpr ?_)
    obtain ⟨i, hi, hy⟩ := bind_eq_some_iff.mp (mem_toList.mp hy)
    exact ⟨i, hi, mem_append_left _ (mem_toList.mpr hy)⟩

theorem mem_superChain_iff : d ∈ h.superChain c ↔ ∃ n, h.ancestor? c n = some d := by
  have hclosure := mem_closure_iff (y := d) (h.stocks_superclass c) (h.length_names_le c)
  simpa [superChain, leads_iff_ancestor?] using hclosure

/-- A class waits for at most one superclass, so the walk lists them by distance. -/
theorem closureFrom_superclass (n : Nat) (seen : List String)
    (hseen : ∀ j < seen.length, seen[j]? = h.ancestor? c j) :
    ∀ j < (closureFrom (fun c => (h.superclass? c).toList) n
        (h.ancestor? c seen.length).toList seen).length,
      (closureFrom (fun c => (h.superclass? c).toList) n
        (h.ancestor? c seen.length).toList seen)[j]? = h.ancestor? c j := by
  induction n generalizing seen with
  | zero => exact hseen
  | succ n ih =>
    rw [closureFrom]
    cases hx : h.ancestor? c seen.length with
    | none => exact hseen
    | some x =>
      by_cases hmem : x ∈ seen
      · simpa [hmem] using hseen
      · have hlist : ∀ j < (seen ++ [x]).length, (seen ++ [x])[j]? = h.ancestor? c j := by
          intro j hj
          by_cases hlt : j < seen.length
          · rw [getElem?_append_left hlt]
            exact hseen j hlt
          · have hj : j = seen.length := by
              simp only [length_append, length_singleton] at hj
              omega
            simp [hj, hx]
        have hnext : (h.superclass? x).toList = (h.ancestor? c (seen ++ [x]).length).toList := by
          simp [ancestor?, hx]
        simpa [hmem, hnext] using ih (seen ++ [x]) hlist

theorem getElem?_superChain {j : Nat} (hj : j < (h.superChain c).length) :
    (h.superChain c)[j]? = h.ancestor? c j :=
  closureFrom_superclass h.nameBound [] nofun j hj

theorem length_superChain_le (h : Hierarchy) (c : String) :
    (h.superChain c).length ≤ h.nameBound := by
  have hsub : h.superChain c ⊆ h.names c := by
    intro d hd
    obtain ⟨n, hn⟩ := mem_superChain_iff.mp hd
    exact (h.stocks_superclass c).leads ((h.stocks_superclass c).holds c (by simp))
      (leads_iff_ancestor?.mpr ⟨n, hn⟩)
  exact (subperm_of_subset (nodup_closure _ _ _) hsub).length_le.trans (h.length_names_le c)

/-- No class is among its own superclasses. -/
def Acyclic (h : Hierarchy) : Prop := ∀ c n, h.ancestor? c (n + 1) ≠ some c

theorem ancestor?_mul (hn : h.ancestor? c n = some c) (k : Nat) :
    h.ancestor? c (k * n) = some c := by
  induction k with
  | zero => rw [Nat.zero_mul, ancestor?]
  | succ k ih =>
    rw [Nat.succ_mul, ancestor?_add, ih]
    exact hn

/-- A class among its own superclasses has superclasses without end. -/
theorem isSome_of_circle (hcircle : h.ancestor? c (n + 1) = some c) (k : Nat) :
    (h.ancestor? c k).isSome := by
  have hle : k ≤ k * (n + 1) := Nat.le_mul_of_pos_right k (Nat.succ_pos n)
  exact isSome_ancestor? hle (by simp [ancestor?_mul hcircle])

theorem circle_of_long (hd : h.ancestor? c (h.superChain c).length = some d) :
    ∃ j k, h.ancestor? c j = some d ∧ h.ancestor? d (k + 1) = some d := by
  obtain ⟨j, hj⟩ := mem_iff_getElem?.mp (mem_superChain_iff.mpr ⟨_, hd⟩)
  obtain ⟨hlt, -⟩ := List.getElem?_eq_some_iff.mp hj
  rw [getElem?_superChain hlt] at hj
  obtain ⟨k, hk⟩ := Nat.exists_eq_add_of_lt hlt
  rw [hk, Nat.add_assoc, ancestor?_add, hj] at hd
  exact ⟨j, k, hj, hd⟩

/-- Superclasses that come to an end do so within the bound. -/
theorem ancestor?_eq_none_of_ends {k : Nat} (hk : h.ancestor? c k = none) (hn : h.nameBound ≤ n) :
    h.ancestor? c n = none := by
  cases hd : h.ancestor? c (h.superChain c).length with
  | none =>
    by_contra hsome
    have hlate := isSome_ancestor? ((h.length_superChain_le c).trans hn)
      (isSome_iff_ne_none.mpr hsome)
    simp [hd] at hlate
  | some d =>
    obtain ⟨j, i, hj, hcircle⟩ := circle_of_long hd
    have hlate : (h.ancestor? c (j + k)).isSome := by
      rw [ancestor?_add, hj]
      exact isSome_of_circle hcircle k
    have hend := isSome_ancestor? (Nat.le_add_left k j) hlate
    simp [hk] at hend

/-- The superclasses of every class come to an end exactly if there is no circle. -/
theorem acyclic_iff : h.Acyclic ↔ ∀ c, ∃ n, h.ancestor? c n = none := by
  constructor
  · intro hacyclic c
    refine ⟨(h.superChain c).length, ?_⟩
    cases hd : h.ancestor? c (h.superChain c).length with
    | none => rfl
    | some d =>
      obtain ⟨-, k, -, hcircle⟩ := circle_of_long hd
      exact absurd hcircle (hacyclic d k)
  · intro hends c n hcircle
    obtain ⟨k, hk⟩ := hends c
    have hend := isSome_of_circle hcircle k
    simp [hk] at hend

end Hierarchy
end LeakTrace
