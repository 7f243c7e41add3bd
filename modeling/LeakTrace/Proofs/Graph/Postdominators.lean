import LeakTrace.Graph.Postdom
import Mathlib.Data.Fintype.Prod
import Mathlib.Data.Nat.Bitwise

/-!
# Postdominator sets against paths

The sets that `Postdom.sets` computes are compared with what they stand for: paths from a position
to one without successors. Two facts of the loop carry everything. **It never removes a true
postdominator**, and **each set stays above what its successors prescribe**, so that every sweep
which changes something takes a position out. When it stops, the sets are exact wherever an exit can
be reached.

Cardinalities enter only in the choice of the immediate postdominator: the postdominators of a
postdominator are those of the position itself, less the position and whatever lies between.
-/

namespace LeakTrace
open List

/-! ## Paths to an exit -/

section Paths
variable {α : Type} {succs : α → List α} {i j p q : α} {l l1 l2 : List α}

/-- A path from a place to one without successors, both ends listed. -/
inductive Leaves (succs : α → List α) : α → List α → Prop where
  | stop {i : α} (h : succs i = []) : Leaves succs i [i]
  | step {i j : α} {l : List α} (h : j ∈ succs i) (hl : Leaves succs j l) : Leaves succs i (i :: l)

/-- Every path from `i` to an exit passes `p`. -/
def Unavoidable (succs : α → List α) (i p : α) : Prop := ∀ l, Leaves succs i l → p ∈ l

/-- All paths from `i` to an exit pass `p`, and none passes another such place, `i` apart, before. -/
structure MeetsFirst (succs : α → List α) (i p : α) : Prop where
  ne : p ≠ i
  always : Unavoidable succs i p
  first : ∀ l, Leaves succs i l →
    ∃ l1 l2, l = l1 ++ p :: l2 ∧ ∀ q ∈ l1, q ≠ i → ¬ Unavoidable succs i q

namespace Leaves

theorem head (h : Leaves succs i l) : ∃ l', l = i :: l' := by
  cases h with
  | stop => exact ⟨_, rfl⟩
  | step => exact ⟨_, rfl⟩

theorem mem_self (h : Leaves succs i l) : i ∈ l := by
  obtain ⟨l', rfl⟩ := h.head
  exact mem_cons_self

variable (h : Leaves succs i (l1 ++ p :: l2))
include h

/-- At any place a path may be left for another one from there. -/
theorem split :
    Leaves succs p (p :: l2) ∧ ∀ l3, Leaves succs p l3 → Leaves succs i (l1 ++ l3) := by
  induction l1 generalizing i with
  | nil =>
    obtain ⟨l', hl'⟩ := h.head
    obtain ⟨rfl, -⟩ := List.cons.inj hl'
    exact ⟨h, fun _ h3 => h3⟩
  | cons q l1 ih =>
    generalize hl : q :: l1 ++ p :: l2 = l at h
    cases h with
    | stop => simp at hl
    | step hj hl' =>
      obtain ⟨rfl, rfl⟩ := List.cons.inj hl
      exact (ih hl').imp_right fun hsplice l3 h3 => .step hj (hsplice l3 h3)

theorem rest : Leaves succs p (p :: l2) := h.split.1

end Leaves

namespace Unavoidable

theorem refl (i : α) : Unavoidable succs i i := fun _ hl => hl.mem_self

theorem reach (h : Unavoidable succs i p) (hi : ∃ l, Leaves succs i l) : ∃ l, Leaves succs p l := by
  obtain ⟨l, hl⟩ := hi
  obtain ⟨l1, l2, rfl⟩ := append_of_mem (h l hl)
  exact ⟨_, hl.rest⟩

theorem trans (hp : Unavoidable succs i p) (hq : Unavoidable succs p q) : Unavoidable succs i q := by
  intro l hl
  obtain ⟨l1, l2, rfl⟩ := append_of_mem (hp l hl)
  exact mem_append_right _ (hq _ hl.rest)

/-- After its last visit to `i` a path does not come back, so what cannot be avoided on it does not
lead back to `i`. -/
theorem antisymm (hp : Unavoidable succs i p) (hi : Unavoidable succs p i)
    (hreach : ∃ l, Leaves succs i l) : p = i := by
  obtain ⟨l, hl⟩ := hreach
  obtain ⟨l1, l2, hrev, hlast⟩ := eq_append_cons_of_mem (mem_reverse.mpr hl.mem_self)
  have hsplit : l = l2.reverse ++ i :: l1.reverse := by
    rw [← l.reverse_reverse, hrev, reverse_append, reverse_cons, append_assoc]
    rfl
  rw [hsplit] at hl
  rcases mem_cons.mp (hp _ hl.rest) with heq | hmem
  · exact heq
  · obtain ⟨a, b, hab⟩ := append_of_mem hmem
    have hlast' : i ∉ a ++ p :: b := by rwa [← hab, mem_reverse]
    have hback : Leaves succs i ((i :: a) ++ p :: b) := by
      rw [cons_append, ← hab]
      exact hl.rest
    exact absurd (mem_append_right a (hi _ hback.rest)) hlast'

/-- Where some path comes to `p` without `q`, what follows `p` has to meet `q`. -/
theorem of_before (hq : Unavoidable succs i q) (hl : Leaves succs i (l1 ++ p :: l2))
    (hbefore : q ∉ l1) : Unavoidable succs p q := fun _ h =>
  (mem_append.mp (hq _ (hl.split.2 _ h))).resolve_left hbefore

end Unavoidable

section
variable (hi : ∃ l, Leaves succs i l)
include hi

/-- Meeting first means: everything else that cannot be avoided comes later. -/
theorem meetsFirst_iff : MeetsFirst succs i p ↔
    p ≠ i ∧ Unavoidable succs i p ∧ ∀ q, q ≠ i → Unavoidable succs i q → Unavoidable succs p q := by
  constructor
  · intro h
    refine ⟨h.ne, h.always, fun q hne hq => ?_⟩
    obtain ⟨l, hl⟩ := hi
    obtain ⟨l1, l2, rfl, hbefore⟩ := h.first l hl
    exact hq.of_before hl fun hmem => hbefore q hmem hne hq
  · rintro ⟨hne, hp, hlater⟩
    refine ⟨hne, hp, fun l hl => ?_⟩
    obtain ⟨l1, l2, rfl, hfirst⟩ := eq_append_cons_of_mem (hp l hl)
    refine ⟨l1, l2, rfl, fun q hmem hqne hq => hfirst ?_⟩
    -- Before the first visit to `p` there is `q`, from where `p` cannot be avoided: they are one.
    obtain ⟨a, b, rfl⟩ := append_of_mem hmem
    have hl' : Leaves succs i (a ++ q :: (b ++ p :: l2)) := by simpa using hl
    have hqp : Unavoidable succs q p :=
      hp.of_before hl' fun ha => hfirst (mem_append_left _ ha)
    rwa [← (hlater q hqne hq).antisymm hqp (hp.reach hi)]

theorem MeetsFirst.unique (hp : MeetsFirst succs i p) (hq : MeetsFirst succs i q) : p = q := by
  obtain ⟨-, -, hlater⟩ := (meetsFirst_iff hi).mp hp
  obtain ⟨-, -, hlater'⟩ := (meetsFirst_iff hi).mp hq
  exact (hlater' p hp.ne hp.always).antisymm (hlater q hq.ne hq.always) (hq.always.reach hi)

theorem Unavoidable.exists_meetsFirst (hne : q ≠ i) (hq : Unavoidable succs i q) :
    ∃ p, MeetsFirst succs i p := by
  classical
  obtain ⟨l, hl⟩ := hi
  have hfind : (l.find? fun p => p ≠ i ∧ Unavoidable succs i p).isSome := by
    rw [find?_isSome]
    exact ⟨q, hq l hl, by simpa using ⟨hne, hq⟩⟩
  obtain ⟨p, hp⟩ := Option.isSome_iff_exists.mp hfind
  obtain ⟨hpred, l1, l2, rfl, hbefore⟩ := find?_eq_some_iff_append.mp hp
  obtain ⟨hpne, hpalways⟩ : p ≠ i ∧ Unavoidable succs i p := by simpa using hpred
  refine ⟨p, (meetsFirst_iff ⟨_, hl⟩).mpr ⟨hpne, hpalways, fun r hrne hr => hr.of_before hl ?_⟩⟩
  intro hmem
  have := hbefore r hmem
  simp [hrne, hr] at this

end

/-! Paths of two graphs that show each other the same steps correspond. -/

variable {β : Type} {succs' : β → List β} {R : α → β → Prop}

/-- Related places have related successors, and every place has one counterpart at most. -/
structure Mirrors (succs : α → List α) (succs' : β → List β) (R : α → β → Prop) : Prop where
  forth : ∀ {i s}, R i s → ∀ j ∈ succs i, ∃ t ∈ succs' s, R j t
  back : ∀ {i s}, R i s → ∀ t ∈ succs' s, ∃ j ∈ succs i, R j t
  left : ∀ {i j s}, R i s → R j s → i = j
  right : ∀ {i s t}, R i s → R i t → s = t

theorem exists_of_forall₂ {l' : List β} (h : List.Forall₂ R l l') (hp : p ∈ l) :
    ∃ t ∈ l', R p t := by
  induction h with
  | nil => cases hp
  | cons hR _ ih =>
    rcases mem_cons.mp hp with rfl | hp
    · exact ⟨_, mem_cons_self, hR⟩
    · obtain ⟨t, ht, hpt⟩ := ih hp
      exact ⟨t, mem_cons_of_mem _ ht, hpt⟩

namespace Mirrors
variable {s t : β}

section
variable (h : Mirrors succs succs' R)
include h

theorem flip : Mirrors succs' succs fun s i => R i s :=
  ⟨h.back, h.forth, h.right, h.left⟩

theorem leaves (hl : Leaves succs i l) (hi : R i s) :
    ∃ l', List.Forall₂ R l l' ∧ Leaves succs' s l' := by
  induction hl generalizing s with
  | stop hnil =>
    refine ⟨[s], .cons hi .nil, .stop (eq_nil_iff_forall_not_mem.mpr fun t ht => ?_)⟩
    obtain ⟨j, hj, -⟩ := h.back hi t ht
    rw [hnil] at hj
    cases hj
  | step hj _ ih =>
    obtain ⟨t, ht, hjt⟩ := h.forth hi _ hj
    obtain ⟨l', hll', hl'⟩ := ih hjt
    exact ⟨s :: l', .cons hi hll', .step ht hl'⟩

theorem reach (hi : R i s) (hreach : ∃ l, Leaves succs i l) : ∃ l, Leaves succs' s l := by
  obtain ⟨l, hl⟩ := hreach
  obtain ⟨l', -, hl'⟩ := h.leaves hl hi
  exact ⟨l', hl'⟩

theorem unavoidable (hi : R i s) (hp : R p t) (hunavoidable : Unavoidable succs i p) :
    Unavoidable succs' s t := by
  intro l' hl'
  obtain ⟨l, hll, hl⟩ := h.flip.leaves hl' hi
  obtain ⟨t', ht', hpt'⟩ := exists_of_forall₂ hll.flip (hunavoidable l hl)
  rwa [h.right hp hpt']

theorem exists_unavoidable (hi : R i s) (hreach : ∃ l, Leaves succs i l)
    (hp : Unavoidable succs i p) : ∃ t, R p t ∧ Unavoidable succs' s t := by
  obtain ⟨l, hl⟩ := hreach
  obtain ⟨l', hll', hl'⟩ := h.leaves hl hi
  obtain ⟨t, -, ht⟩ := exists_of_forall₂ hll' (hp l hl)
  exact ⟨t, ht, h.unavoidable hi ht hp⟩

theorem meetsFirst (hi : R i s) (hp : R p t) (hreach : ∃ l, Leaves succs i l)
    (hfirst : MeetsFirst succs i p) : MeetsFirst succs' s t := by
  have hreach' := h.reach hi hreach
  obtain ⟨hne, hunavoidable, hlater⟩ := (meetsFirst_iff hreach).mp hfirst
  refine (meetsFirst_iff hreach').mpr ⟨fun heq => hne (h.left hp (heq ▸ hi)),
    h.unavoidable hi hp hunavoidable, fun u hu hus => ?_⟩
  obtain ⟨q, hq, hiq⟩ := h.flip.exists_unavoidable hi hreach' hus
  refine h.unavoidable hp hq (hlater q (fun heq => hu (h.right hq (heq ▸ hi))) hiq)

end
end Mirrors
end Paths

/-! ## Masks as sets -/

namespace Mask

@[simp] theorem testBit_single (i p : Nat) : (single i).testBit p ↔ p = i := by
  simp [single, Nat.testBit_two_pow, eq_comm]

@[simp] theorem testBit_full (n p : Nat) : (full n).testBit p ↔ p < n := by
  simp [full]

theorem count_eq_card (n : Nat) (m : Mask) :
    count n m = ((Finset.range n).filter fun p => m.testBit p).card := by
  rw [Finset.card_def, Finset.filter_val, Finset.range_val, Multiset.range, Multiset.filter_coe,
    Multiset.coe_card]
  simp [count]

theorem count_add_one_eq_iff {n i : Nat} {a b : Mask} (hi : i < n) (hib : b.testBit i)
    (hia : a.testBit i ≠ true) (hab : ∀ p, a.testBit p → b.testBit p) :
    count n a + 1 = count n b ↔ ∀ p < n, p ≠ i → b.testBit p → a.testBit p := by
  rw [count_eq_card, count_eq_card, ← Finset.card_insert_of_notMem (a := i) (by simp [hia])]
  have hsub : insert i ((Finset.range n).filter fun p => a.testBit p) ⊆
      (Finset.range n).filter fun p => b.testBit p := by
    intro p hp
    simp only [Finset.mem_insert, Finset.mem_filter, Finset.mem_range] at hp ⊢
    rcases hp with rfl | ⟨hp, ha⟩
    · exact ⟨hi, hib⟩
    · exact ⟨hp, hab p ha⟩
  constructor
  · intro hcard p hp hne hb
    have hmem : p ∈ (Finset.range n).filter fun p => b.testBit p :=
      Finset.mem_filter.mpr ⟨Finset.mem_range.mpr hp, hb⟩
    rw [← Finset.eq_of_subset_of_card_le hsub hcard.ge] at hmem
    simpa [hne, hp] using hmem
  · intro h
    refine congrArg Finset.card (hsub.antisymm fun p hp => ?_)
    obtain ⟨hp, hb⟩ := Finset.mem_filter.mp hp
    rw [Finset.mem_range] at hp
    by_cases hpi : p = i
    · exact Finset.mem_insert.mpr (.inl hpi)
    · exact Finset.mem_insert_of_mem
        (Finset.mem_filter.mpr ⟨Finset.mem_range.mpr hp, h p hp hpi hb⟩)

end Mask

/-! ## The loop -/

namespace Postdom
variable {S : Array (List Nat)} {A A' : Array Mask} {i p : Nat} {m : Mask}

def next (S : Array (List Nat)) (i : Nat) : List Nat := S[i]?.getD []

def Has (sets : Array Mask) (i p : Nat) : Prop := (sets[i]?.getD 0).testBit p = true

instance : Decidable (Has A i p) := inferInstanceAs (Decidable (_ = true))

def start (S : Array (List Nat)) : Array Mask :=
  Array.ofFn fun i : Fin S.size => if (next S i).isEmpty then Mask.single i else Mask.full S.size

theorem sets_eq_settle (S : Array (List Nat)) :
    sets S = settle S (S.size * S.size + 1) (start S) := by
  unfold sets start
  congr 2
  funext i
  simp [next]

theorem testBit_foldl_and (ss : List Nat) (acc : Mask) :
    (ss.foldl (fun acc s => acc &&& (A[s]?.getD 0)) acc).testBit p ↔
      acc.testBit p ∧ ∀ s ∈ ss, Has A s p := by
  induction ss generalizing acc with
  | nil => simp
  | cons s rest ih => simp [ih, Has, Nat.testBit_and, and_assoc]

theorem testBit_refine : (refine S A i).testBit p ↔
    p = i ∨ next S i ≠ [] ∧ p < S.size ∧ ∀ s ∈ next S i, Has A s p := by
  unfold refine next
  cases S[i]?.getD [] with
  | nil => simp
  | cons s ss =>
    rw [Nat.testBit_or, Bool.or_eq_true, testBit_foldl_and, Mask.testBit_full, Mask.testBit_single]
    simp [or_comm]

theorem testBit_refine_mono (h : ∀ i p, Has A' i p → Has A i p)
    (hp : (refine S A' i).testBit p) : (refine S A i).testBit p := by
  rw [testBit_refine] at hp ⊢
  exact hp.imp_right fun ⟨hne, hlt, hall⟩ => ⟨hne, hlt, fun s hs => h s p (hall s hs)⟩

/-- What the loop keeps: no set is below what its successors prescribe, or misses a position that
cannot be avoided. -/
structure Above (S : Array (List Nat)) (sets : Array Mask) : Prop where
  size : sets.size = S.size
  bound : ∀ i p, Has sets i p → p < S.size
  refines : ∀ i < S.size, ∀ p, (refine S sets i).testBit p = true → Has sets i p
  complete : ∀ i < S.size, ∀ p < S.size, Unavoidable (next S) i p → Has sets i p

theorem has_set_self (hi : i < A.size) : Has (A.setIfInBounds i m) i p ↔ m.testBit p := by
  simp [Has, hi]

theorem has_set_ne {j : Nat} (hj : j ≠ i) : Has (A.setIfInBounds j m) i p ↔ Has A i p := by
  simp [Has, hj]

theorem Above.replace (h : Above S A) (hS : ∀ i, ∀ j ∈ next S i, j < S.size) (hi : i < S.size) :
    Above S (A.setIfInBounds i (refine S A i)) ∧
      ∀ j p, Has (A.setIfInBounds i (refine S A i)) j p → Has A j p := by
  have hisize : i < A.size := h.size ▸ hi
  have hless : ∀ j p, Has (A.setIfInBounds i (refine S A i)) j p → Has A j p := by
    intro j p hp
    by_cases hij : i = j
    · subst hij
      exact h.refines i hi p ((has_set_self hisize).mp hp)
    · exact (has_set_ne hij).mp hp
  refine ⟨⟨?_, fun j p hp => h.bound j p (hless j p hp), fun j hj p hp => ?_,
    fun j hj p hp hunavoidable => ?_⟩, hless⟩
  · rw [Array.size_setIfInBounds, h.size]
  · have hold := testBit_refine_mono hless hp
    by_cases hij : i = j
    · subst hij
      exact (has_set_self hisize).mpr hold
    · exact (has_set_ne hij).mpr (h.refines j hj p hold)
  · by_cases hij : i = j
    · subst hij
      rw [has_set_self hisize, testBit_refine]
      by_cases hpi : p = i
      · exact .inl hpi
      · refine .inr ⟨fun hnil => hpi ?_, hp, fun s hs => h.complete s (hS i s hs) p hp fun l hl => ?_⟩
        · exact mem_singleton.mp (hunavoidable [i] (.stop hnil))
        · exact (mem_cons.mp (hunavoidable _ (.step hs hl))).resolve_left hpi
    · exact (has_set_ne hij).mpr (h.complete j hj p hp hunavoidable)

theorem above_start (S : Array (List Nat)) : Above S (start S) := by
  have hget : ∀ i < S.size, (start S)[i]?.getD 0 =
      if next S i = [] then Mask.single i else Mask.full S.size := by
    intro i hi
    simp [start, next, hi]
  have hhas : ∀ i < S.size, ∀ p, Has (start S) i p ↔ if next S i = [] then p = i else p < S.size := by
    intro i hi p
    unfold Has
    rw [hget i hi]
    split <;> simp
  refine ⟨Array.size_ofFn, fun i p hp => ?_, fun i hi p hp => ?_, fun i hi p hp hunavoidable => ?_⟩
  · have hi : i < S.size := by
      by_contra hi
      simp [Has, start, hi] at hp
    rw [hhas i hi] at hp
    split at hp
    · exact hp ▸ hi
    · exact hp
  · rw [hhas i hi]
    rcases testBit_refine.mp hp with rfl | ⟨hne, hlt, -⟩
    · split
      · rfl
      · exact hi
    · rw [if_neg hne]
      exact hlt
  · rw [hhas i hi]
    split
    · next hnil => exact mem_singleton.mp (hunavoidable [i] (.stop hnil))
    · exact hp

section
variable (h : Above S A) (hS : ∀ i, ∀ j ∈ next S i, j < S.size)
include h hS

/-- A sweep over some positions keeps the invariant, only takes positions out, and leaves no set
above what its successors prescribed before. -/
theorem Above.foldr {is : List Nat} (his : ∀ i ∈ is, i < S.size)
    (hA' : is.foldr (fun i A => A.setIfInBounds i (refine S A i)) A = A') :
    Above S A' ∧ (∀ i p, Has A' i p → Has A i p) ∧
      ∀ i ∈ is, ∀ p, Has A' i p → (refine S A i).testBit p := by
  induction is generalizing A' with
  | nil =>
    subst hA'
    exact ⟨h, fun _ _ hp => hp, forall_mem_nil _⟩
  | cons j is ih =>
    obtain ⟨habove, hless, hrefined⟩ := ih (fun i hi => his i (mem_cons_of_mem _ hi)) rfl
    have hj := his j mem_cons_self
    obtain ⟨habove', hless'⟩ := habove.replace hS hj
    subst hA'
    refine ⟨habove', fun i p hp => hless i p (hless' i p hp), fun i hi p hp => ?_⟩
    by_cases hji : j = i
    · subst hji
      exact testBit_refine_mono hless ((has_set_self (habove.size ▸ hj)).mp hp)
    · have hmem := (mem_cons.mp hi).resolve_left (Ne.symm hji)
      exact hrefined i hmem p ((has_set_ne hji).mp hp)

theorem Above.sweep :
    Above S (sweep S A) ∧ (∀ i p, Has (Postdom.sweep S A) i p → Has A i p) ∧
      ∀ i < S.size, ∀ p, Has (Postdom.sweep S A) i p → (refine S A i).testBit p := by
  obtain ⟨habove, hless, hrefined⟩ := h.foldr hS (fun i hi => mem_range.mp hi) rfl
  exact ⟨habove, hless, fun i hi => hrefined i (mem_range.mpr hi)⟩

end

theorem Above.ext (h : Above S A) (h' : Above S A')
    (heq : ∀ i p, Has A i p ↔ Has A' i p) : A = A' := by
  refine Array.ext (h.size.trans h'.size.symm) fun i hi hi' => ?_
  refine Nat.eq_of_testBit_eq fun p => Bool.eq_iff_iff.mpr ?_
  simpa [Has, hi, hi'] using heq i p

def pairs (S : Array (List Nat)) (sets : Array Mask) : Finset (Nat × Nat) :=
  (Finset.range S.size ×ˢ Finset.range S.size).filter fun x => Has sets x.1 x.2

theorem card_pairs_le (S : Array (List Nat)) (A : Array Mask) :
    (pairs S A).card ≤ S.size * S.size := by
  refine (Finset.card_filter_le _ _).trans ?_
  rw [Finset.card_product, Finset.card_range]

section
variable (h : Above S A) (hS : ∀ i, ∀ j ∈ next S i, j < S.size)
include h hS

theorem Above.card_pairs_lt (hne : Postdom.sweep S A ≠ A) :
    (pairs S (Postdom.sweep S A)).card < (pairs S A).card := by
  obtain ⟨habove, hless, -⟩ := h.sweep hS
  refine Finset.card_lt_card (Finset.ssubset_iff_subset_ne.mpr ⟨?_, fun heq => hne ?_⟩)
  · intro x hx
    obtain ⟨hmem, hhas⟩ := Finset.mem_filter.mp hx
    exact Finset.mem_filter.mpr ⟨hmem, hless _ _ hhas⟩
  · refine habove.ext h fun i p => ⟨hless i p, fun hp => ?_⟩
    have hi : i < S.size := by
      by_contra hi
      have hout : ¬ i < A.size := h.size ▸ hi
      simp [Has, hout] at hp
    have hmem : (i, p) ∈ pairs S A :=
      Finset.mem_filter.mpr
        ⟨Finset.mk_mem_product (Finset.mem_range.mpr hi) (Finset.mem_range.mpr (h.bound i p hp)), hp⟩
    rw [← heq] at hmem
    exact (Finset.mem_filter.mp hmem).2

/-- With more rounds than there are members to take out, the loop ends by itself. -/
theorem Above.settle {fuel : Nat} (hfuel : (pairs S A).card < fuel) :
    ∃ k ≤ (pairs S A).card, settle S fuel A = (Postdom.sweep S)^[k] A ∧
      Postdom.sweep S (settle S fuel A) = settle S fuel A ∧ Above S (settle S fuel A) := by
  induction fuel generalizing A with
  | zero => exact absurd hfuel (Nat.not_lt_zero _)
  | succ fuel ih =>
    simp only [Postdom.settle, beq_iff_eq]
    split
    · next hstable => exact ⟨0, Nat.zero_le _, rfl, hstable, h⟩
    · next hne =>
      have hlt := h.card_pairs_lt hS hne
      obtain ⟨k, hk, heq, hstable, habove⟩ := ih (h.sweep hS).1 (by omega)
      exact ⟨k + 1, by omega, by rw [heq, Function.iterate_succ_apply], hstable, habove⟩

end

/-- The loop ends after at most one sweep for each pair of positions. -/
theorem sets_settled (hS : ∀ i, ∀ j ∈ next S i, j < S.size) :
    ∃ k ≤ S.size * S.size, sets S = (sweep S)^[k] (start S) ∧
      sweep S (sets S) = sets S ∧ Above S (sets S) := by
  have hle := card_pairs_le S (start S)
  obtain ⟨k, hk, hsettled⟩ := (above_start S).settle hS (Nat.lt_succ_of_le hle)
  rw [sets_eq_settle]
  exact ⟨k, hk.trans hle, hsettled⟩

/-! ## What the sets hold -/

section
variable (hS : ∀ i, ∀ j ∈ next S i, j < S.size)
include hS

variable (hi : i < S.size)
include hi

theorem lt_of_leaves {l : List Nat} (hl : Leaves (next S) i l) : ∀ q ∈ l, q < S.size := by
  induction hl with
  | stop => simpa using hi
  | step hj _ ih => exact forall_mem_cons.mpr ⟨hi, ih (hS _ _ hj)⟩

variable (hreach : ∃ l, Leaves (next S) i l)
include hreach

/-- Where an exit can be reached, the set holds what cannot be avoided. -/
theorem has_sets_iff : Has (sets S) i p ↔ Unavoidable (next S) i p := by
  obtain ⟨k, -, -, hstable, habove⟩ := sets_settled hS
  constructor
  · intro hp l hl
    induction hl with
    | @stop i hnil =>
      have hp' := (habove.sweep hS).2.2 i hi p (hstable.symm ▸ hp)
      rcases testBit_refine.mp hp' with rfl | ⟨hne, -⟩
      · exact mem_cons_self
      · exact absurd hnil hne
    | @step i j l hj hl ih =>
      have hp' := (habove.sweep hS).2.2 i hi p (hstable.symm ▸ hp)
      rcases testBit_refine.mp hp' with rfl | ⟨-, -, hall⟩
      · exact mem_cons_self
      · exact mem_cons_of_mem _ (ih (hS i j hj) ⟨l, hl⟩ (hall j hj))
  · intro hp
    obtain ⟨l, hl⟩ := hreach
    exact habove.complete i hi p (lt_of_leaves hS hi hl p (hp l hl)) hp

/-- Being in the set with an own set smaller by one is being met first. -/
theorem meetsFirst_iff_count :
    MeetsFirst (next S) i p ↔ p ≠ i ∧ Has (sets S) i p ∧ Mask.count S.size
    ((sets S)[p]?.getD 0) + 1 = Mask.count S.size ((sets S)[i]?.getD 0) := by
  rw [meetsFirst_iff hreach, has_sets_iff hS hi hreach]
  refine and_congr_right fun hne => and_congr_right fun hp => ?_
  obtain ⟨l, hl⟩ := hreach
  have hlt : ∀ q, Unavoidable (next S) i q → q < S.size :=
    fun q hq => lt_of_leaves hS hi hl q (hq l hl)
  have hi' : ∀ q, Has (sets S) i q ↔ Unavoidable (next S) i q :=
    fun q => has_sets_iff hS hi ⟨l, hl⟩
  have hp' : ∀ q, Has (sets S) p q ↔ Unavoidable (next S) p q :=
    fun q => has_sets_iff hS (hlt p hp) (hp.reach ⟨l, hl⟩)
  have hcount := Mask.count_add_one_eq_iff (a := (sets S)[p]?.getD 0)
    (b := (sets S)[i]?.getD 0) hi ((hi' i).mpr (.refl i))
    (fun h => hne (hp.antisymm ((hp' i).mp h) ⟨l, hl⟩))
    fun q hq => (hi' q).mpr (hp.trans ((hp' q).mp hq))
  rw [hcount]
  constructor
  · intro h q _ hqne hq
    exact (hp' q).mpr (h q hqne ((hi' q).mp hq))
  · intro h q hqne hq
    exact (hp' q).mp (h q (hlt q hq) hqne ((hi' q).mpr hq))

theorem immediate?_eq_some_iff :
    immediate? S.size (sets S) i = some p ↔ MeetsFirst (next S) i p := by
  obtain ⟨P, hfind, hP⟩ : ∃ P : Nat → Bool,
      immediate? S.size (sets S) i = (List.range S.size).find? P ∧
        ∀ q, P q ↔ MeetsFirst (next S) i q := by
    refine ⟨_, rfl, fun q => ?_⟩
    rw [meetsFirst_iff_count hS hi hreach]
    simp [Has, and_assoc]
  rw [hfind]
  constructor
  · intro h
    exact (hP p).mp (find?_some h)
  · intro h
    obtain ⟨l, hl⟩ := hreach
    have hp : p < S.size := lt_of_leaves hS hi hl p (h.always l hl)
    obtain ⟨q, hq⟩ := Option.isSome_iff_exists.mp
      (find?_isSome.mpr ⟨p, mem_range.mpr hp, (hP p).mpr h⟩)
    rw [hq, MeetsFirst.unique ⟨l, hl⟩ h ((hP q).mp (find?_some hq))]

end
end Postdom
end LeakTrace
