import LeakTrace.Path.Store
import Mathlib.Data.List.NodupEquivFin
import Mathlib.Order.WellFounded
import Mathlib.Tactic.Common

/-!
# What folding cuts out of a chain

Folding goes over the positions of a chain and cuts out stretches that lead back to the type before
the position. This file says what it has done when it is through. The stretches, put back in from
the last to the first, give the chain again (`Accounts`), so that all other laws of folding follow
from what is left and what was cut, and none of them looks at the loops again.

**A chain that was folded need not be folded.** After a cut the search goes on at the distance it
has reached, and the steps that moved up to the position are passed over. So one of them may lead
back to the type: at most as many steps as the longest stretch cut there has, less one
(`Accounts.reach`), and nothing else can (`normal_iff_passed`).
-/

namespace LeakTrace
open List

namespace Step
variable {steps rest mid : List Step} {before : Option Ty} {t : Ty} {s : Step} {cuts : List Cut}

/-! ## Chains with nothing to cut -/

/-- No step leads back to the type before the chain, or to that of an earlier step. The root class
does not count: everything leads there. -/
structure FoldFree (before : Option Ty) (steps : List Step) : Prop where
  start : ∀ t ∈ before, t.isObject = false → ∀ s ∈ steps, s.leadsTo t = false
  later : steps.Pairwise fun x s => x.ty.isObject = false → s.leadsTo x.ty = false

theorem foldFree_cons (h : FoldFree before (s :: rest)) : FoldFree (some s.ty) rest := by
  obtain ⟨hhead, hlater⟩ := pairwise_cons.mp h.later
  refine ⟨fun t ht hobj x hx => ?_, hlater⟩
  obtain rfl := Option.some.inj ht
  exact hhead x hx hobj

theorem foldHere_of_free (h : ∀ s ∈ rest, s.leadsTo t = false) :
    foldHere t mid rest = ⟨mid ++ rest, []⟩ := by
  induction rest generalizing mid with
  | nil => simp [foldHere]
  | cons s tail ih =>
    have hs := h s mem_cons_self
    rw [foldHere, if_neg (by simp [hs]), ih fun x hx => h x (mem_cons_of_mem s hx)]
    simp

theorem foldStart_of_free
    (h : ∀ t ∈ before, t.isObject = false → ∀ s ∈ steps, s.leadsTo t = false) :
    foldStart before steps = ⟨steps, []⟩ := by
  cases before with
  | none => rfl
  | some t =>
    by_cases ht : t.isObject
    · simp [foldStart, ht]
    · rw [foldStart, if_neg ht, foldHere_of_free (h t rfl (by simpa using ht))]
      rfl

theorem fold_of_free (h : FoldFree before steps) : fold before steps = ⟨steps, []⟩ := by
  induction steps generalizing before with
  | nil => rw [fold, foldStart_of_free h.start]
  | cons s rest ih =>
    rw [fold, foldStart_of_free h.start]
    simp only [ih (foldFree_cons h), append_nil]

def tyBefore (before : Option Ty) (steps : List Step) : Nat → Option Ty
  | 0 => before
  | i + 1 => steps[i]?.map (·.ty)

theorem tyBefore_cons (before : Option Ty) (s : Step) (rest : List Step) (i : Nat) :
    tyBefore before (s :: rest) (i + 1) = tyBefore (some s.ty) rest i := by
  cases i <;> rfl

/-- At and behind position `n` no step leads back to the type before it or before an earlier
position, where that type is known and is not the root class. -/
def Normal (n : Nat) (before : Option Ty) (steps : List Step) : Prop :=
  ∀ i j t s, n ≤ i → i ≤ j → tyBefore before steps i = some t → t.isObject = false →
    steps[j]? = some s → s.leadsTo t = false

theorem foldFree_of_normal (h : Normal 0 before steps) : FoldFree before steps where
  start t ht hobj s hs := by
    obtain ⟨j, hj⟩ := mem_iff_getElem?.mp hs
    exact h 0 j t s le_rfl (Nat.zero_le j) ht hobj hj
  later := pairwise_iff_getElem.mpr fun i j hi hj hij hobj =>
    h (i + 1) j steps[i].ty steps[j] (Nat.zero_le _) hij (by simp [tyBefore, hi]) hobj
      (getElem?_eq_getElem hj)

/-! ## Stretches and where they stood -/

/-- A stretch that was cut out at a position, with the type it leads back to. -/
structure Cut where
  position : Nat
  ty : Ty
  stretch : List Step

namespace Cut

def pattern (c : Cut) : Ty × List Step := (c.ty, c.stretch)

/-- The same stretch with one more step in front of the chain. -/
def behind (c : Cut) : Cut := { c with position := c.position + 1 }

def restore (c : Cut) (steps : List Step) : List Step :=
  steps.take c.position ++ c.stretch ++ steps.drop c.position

theorem foldr_restore_behind (cuts : List Cut) (s : Step) (steps : List Step) :
    (cuts.map behind).foldr restore (s :: steps) = s :: cuts.foldr restore steps := by
  induction cuts with
  | nil => rfl
  | cons c cuts ih =>
    rw [map_cons, foldr_cons, ih]
    rfl

theorem sublist_foldr_restore (cuts : List Cut) (steps : List Step) :
    steps.Sublist (cuts.foldr restore steps) := by
  induction cuts with
  | nil => exact .refl _
  | cons c cuts ih =>
    refine ih.trans ?_
    nth_rewrite 1 [← take_append_drop c.position (cuts.foldr restore steps)]
    exact (sublist_append_left _ _).append (.refl _)

theorem length_foldr_restore (cuts : List Cut) (steps : List Step) :
    (cuts.foldr restore steps).length = steps.length + (cuts.flatMap (·.stretch)).length := by
  induction cuts with
  | nil => rfl
  | cons c cuts ih =>
    have hparts := congrArg List.length (take_append_drop c.position (cuts.foldr restore steps))
    simp only [length_append] at hparts
    simp only [foldr_cons, restore, length_append, flatMap_cons]
    omega

theorem mem_foldr_restore :
    s ∈ cuts.foldr restore steps ↔ s ∈ steps ∨ ∃ c ∈ cuts, s ∈ c.stretch := by
  induction cuts with
  | nil => simp
  | cons c cuts ih =>
    have hparts := congrArg (s ∈ ·) (take_append_drop c.position (cuts.foldr restore steps))
    simp only [mem_append, ih] at hparts
    simp only [foldr_cons, restore, mem_append, exists_mem_cons_iff]
    grind

end Cut

/-- The stretches account for what folding from position `n` on made of a chain. -/
structure Accounts (n : Nat) (before : Option Ty) (steps : List Step) (f : Folded)
    (cuts : List Cut) : Prop where
  patterns : cuts.map Cut.pattern = f.cuts
  /-- The stretches, put back in from the last to the first, give the chain again. -/
  restores : cuts.foldr Cut.restore f.steps = steps
  position_le : ∀ c ∈ cuts, n ≤ c.position
  /-- A stretch is kept under the type that leads to its place. -/
  ty : ∀ c ∈ cuts, tyBefore before f.steps c.position = some c.ty
  isObject : ∀ c ∈ cuts, c.ty.isObject = false
  leadsBack : ∀ c ∈ cuts, ∃ s ∈ c.stretch.getLast?, s.leadsTo c.ty = true
  /-- What still leads back is nearer to its place than some stretch that was cut there reached. -/
  reach : ∀ i j t s, n ≤ i → i ≤ j → tyBefore before f.steps i = some t → t.isObject = false →
    f.steps[j]? = some s → s.leadsTo t = true →
    ∃ c ∈ cuts, c.position = i ∧ j + 1 < i + c.stretch.length

namespace Accounts
variable {n : Nat} {f : Folded}

theorem nil (before : Option Ty) : Accounts n before [] ⟨[], []⟩ [] where
  patterns := rfl
  restores := rfl
  position_le := forall_mem_nil _
  ty := forall_mem_nil _
  isObject := forall_mem_nil _
  leadsBack := forall_mem_nil _
  reach i j t s _ _ _ _ hs := by simp at hs

theorem behind (h : Accounts n (some s.ty) steps f cuts) :
    Accounts (n + 1) before (s :: steps) ⟨s :: f.steps, f.cuts⟩ (cuts.map Cut.behind) where
  patterns := by
    rw [← h.patterns, List.map_map]
    rfl
  restores := by rw [Cut.foldr_restore_behind, h.restores]
  position_le := List.forall_mem_map.mpr fun c hc => Nat.succ_le_succ (h.position_le c hc)
  ty := List.forall_mem_map.mpr fun c hc => (tyBefore_cons before s f.steps _).trans (h.ty c hc)
  isObject := List.forall_mem_map.mpr h.isObject
  leadsBack := List.forall_mem_map.mpr h.leadsBack
  reach i j t x hi hij ht hobj hx hleads := by
    obtain ⟨i, rfl⟩ := Nat.exists_eq_succ_of_ne_zero (Nat.ne_zero_of_lt hi)
    obtain ⟨j, rfl⟩ := Nat.exists_eq_succ_of_ne_zero (Nat.ne_zero_of_lt (hi.trans hij))
    obtain ⟨c, hc, hpos, hlt⟩ := h.reach i j t x (Nat.le_of_succ_le_succ hi)
      (Nat.le_of_succ_le_succ hij) ((tyBefore_cons before s f.steps i).symm.trans ht) hobj hx hleads
    exact ⟨c.behind, List.mem_map_of_mem hc, congrArg (· + 1) hpos, by
      simp only [Cut.behind]
      omega⟩

variable (h : Accounts n before steps f cuts)
include h

theorem length_le : f.steps.length ≤ steps.length := by
  rw [← h.restores, Cut.length_foldr_restore]
  exact Nat.le_add_right _ _

theorem cuts_eq_nil_iff : f.cuts = [] ↔ f.steps.length = steps.length := by
  rw [← h.patterns, map_eq_nil_iff, ← h.restores, Cut.length_foldr_restore]
  cases cuts with
  | nil => simp
  | cons c cuts =>
    obtain ⟨s, hs, -⟩ := h.leadsBack c mem_cons_self
    have hpos : 0 < c.stretch.length := by
      cases hstretch : c.stretch with
      | nil => simp [hstretch] at hs
      | cons _ _ => simp
    simp only [flatMap_cons, length_append, reduceCtorEq, false_iff]
    omega

theorem eq_of_cuts (hcuts : f.cuts = []) : f = ⟨steps, []⟩ := by
  obtain rfl : cuts = [] := by simpa [hcuts] using h.patterns
  obtain ⟨steps', cuts'⟩ := f
  obtain rfl : steps' = steps := h.restores
  obtain rfl : cuts' = [] := hcuts
  rfl

/-- The first step stays, or a stretch that begins with it was cut out in front. -/
theorem front :
    f.steps.head? = steps.head? ∨ ∃ c ∈ cuts, c.position = 0 ∧ c.stretch.head? = steps.head? := by
  have hall : ∀ cs ⊆ cuts, f.steps.head? = (cs.foldr Cut.restore f.steps).head? ∨
      ∃ c ∈ cs, c.position = 0 ∧ c.stretch.head? = (cs.foldr Cut.restore f.steps).head? := by
    intro cs hcs
    induction cs with
    | nil => exact .inl rfl
    | cons c cs ih =>
      obtain ⟨hc, hcs⟩ := cons_subset.mp hcs
      rw [foldr_cons, Cut.restore]
      cases hpos : c.position with
      | zero =>
        obtain ⟨s, hs, -⟩ := h.leadsBack c hc
        refine .inr ⟨c, mem_cons_self, hpos, ?_⟩
        cases hstretch : c.stretch with
        | nil => simp [hstretch] at hs
        | cons _ _ => rfl
      | succ i =>
        have hty := h.ty c hc
        obtain ⟨s, hs, -⟩ := Option.map_eq_some_iff.mp (hpos ▸ hty)
        have hmem := (Cut.sublist_foldr_restore cs f.steps).mem (mem_of_getElem? hs)
        cases hl : cs.foldr Cut.restore f.steps with
        | nil => simp [hl] at hmem
        | cons x l =>
          rw [hl] at ih
          rcases ih hcs with hhead | ⟨d, hd, hfront⟩
          · exact .inl hhead
          · exact .inr ⟨d, mem_cons_of_mem c hd, hfront⟩
  rw [← h.restores]
  exact hall cuts (List.Subset.refl cuts)

/-- **Only steps that moved up unseen can still lead back.** -/
theorem normal_iff_passed : Normal n before f.steps ↔ ∀ c ∈ cuts, ∀ s ∈
    (f.steps.drop c.position).take (c.stretch.length - 1), s.leadsTo c.ty = false := by
  constructor
  · intro hnormal c hc s hs
    obtain ⟨k, hk⟩ := mem_iff_getElem?.mp hs
    obtain ⟨-, hk⟩ := by simpa [getElem?_take, getElem?_drop] using hk
    exact hnormal c.position (c.position + k) c.ty s (h.position_le c hc) (Nat.le_add_right _ _)
      (h.ty c hc) (h.isObject c hc) hk
  · intro hpassed i j t s hi hij ht hobj hs
    by_contra hleads
    obtain ⟨c, hc, rfl, hlt⟩ := h.reach i j t s hi hij ht hobj hs (by simpa using hleads)
    obtain rfl : c.ty = t := Option.some.inj ((h.ty c hc).symm.trans ht)
    refine hleads (hpassed c hc s (mem_iff_getElem?.mpr ⟨j - c.position, ?_⟩))
    rw [getElem?_take, if_pos (by omega), getElem?_drop, Nat.add_sub_cancel' hij]
    exact hs

end Accounts

/-! ## Folding at one position -/

theorem foldHere_restores (t : Ty) (mid rest : List Step) :
    ((foldHere t mid rest).cuts.map fun c => Cut.mk 0 c.1 c.2).foldr Cut.restore
      (foldHere t mid rest).steps = mid ++ rest := by
  fun_induction foldHere t mid rest with
  | case1 mid => simp
  | case2 mid s tail _ ih => simp [Folded.addCut, ih, Cut.restore]
  | case3 mid s tail _ ih => simpa using ih

theorem foldHere_cuts (t : Ty) (mid rest : List Step) :
    ∀ c ∈ (foldHere t mid rest).cuts, c.1 = t ∧ ∃ s ∈ c.2.getLast?, s.leadsTo t := by
  fun_induction foldHere t mid rest with
  | case1 mid => exact forall_mem_nil _
  | case2 mid s tail hs ih =>
    exact forall_mem_cons.mpr ⟨⟨rfl, s, by simp, hs⟩, ih⟩
  | case3 mid s tail _ ih => exact ih

theorem foldHere_longer (h : (foldHere t mid rest).cuts ≠ []) :
    ∃ c ∈ (foldHere t mid rest).cuts, mid.length < c.2.length := by
  fun_induction foldHere t mid rest with
  | case1 mid => exact absurd rfl h
  | case2 mid s tail _ _ => exact ⟨_, mem_cons_self, by simp⟩
  | case3 mid s tail _ ih =>
    obtain ⟨c, hc, hlt⟩ := ih h
    rw [length_append] at hlt
    exact ⟨c, hc, (Nat.le_add_right _ _).trans_lt hlt⟩

theorem foldHere_reach {j : Nat} {x : Step} (hx : (foldHere t mid rest).steps[j]? = some x)
    (hleads : x.leadsTo t) :
    j < mid.length ∨ ∃ c ∈ (foldHere t mid rest).cuts, j + 1 < c.2.length := by
  fun_induction foldHere t mid rest with
  | case1 mid => exact .inl (List.getElem?_eq_some_iff.mp hx).1
  | case2 mid s tail _ ih =>
    rcases ih hx with hj | ⟨c, hc, hj⟩
    · have hlen := length_take_le mid.length tail
      exact .inr ⟨_, mem_cons_self, by simp; omega⟩
    · exact .inr ⟨c, mem_cons_of_mem _ hc, hj⟩
  | case3 mid s tail hs ih =>
    rcases ih hx with hj | hcut
    · rw [length_append, length_singleton] at hj
      rcases Nat.lt_succ_iff_lt_or_eq.mp hj with hj | rfl
      · exact .inl hj
      -- The step at this distance is `s` unless something was cut, and then far enough.
      · by_cases hnil : (foldHere t (mid ++ [s]) tail).cuts = []
        · have hkept := foldHere_restores t (mid ++ [s]) tail
          rw [hnil, map_nil, foldr_nil] at hkept
          rw [hkept] at hx
          obtain rfl : s = x := by simpa using hx
          exact absurd hleads hs
        · obtain ⟨c, hc, hlt⟩ := foldHere_longer hnil
          exact .inr ⟨c, hc, by simpa using hlt⟩
    · exact .inr hcut

/-- What folding at the first position does is accounted for by stretches that stood there. -/
theorem foldStart_accounts (before : Option Ty) (steps : List Step) :
    ((foldStart before steps).cuts.map fun c => Cut.mk 0 c.1 c.2).foldr Cut.restore
        (foldStart before steps).steps = steps ∧
      (∀ c ∈ (foldStart before steps).cuts, before = some c.1 ∧ c.1.isObject = false ∧
        ∃ s ∈ c.2.getLast?, s.leadsTo c.1) ∧
      ∀ t ∈ before, t.isObject = false → ∀ j x, (foldStart before steps).steps[j]? = some x →
        x.leadsTo t → ∃ c ∈ (foldStart before steps).cuts, j + 1 < c.2.length := by
  cases before with
  | none => exact ⟨rfl, forall_mem_nil _, fun _ ht => absurd ht (by simp)⟩
  | some t =>
    unfold foldStart
    dsimp only
    split
    · next hobj =>
      refine ⟨rfl, forall_mem_nil _, ?_⟩
      rintro _ ⟨⟩ hnot
      rw [hobj] at hnot
      cases hnot
    · next hobj =>
      refine ⟨foldHere_restores t [] steps, fun c hc => ?_, ?_⟩
      · obtain ⟨rfl, hlast⟩ := foldHere_cuts t [] steps c hc
        exact ⟨rfl, by simpa using hobj, hlast⟩
      · rintro _ ⟨⟩ - j x hx hleads
        exact (foldHere_reach hx hleads).resolve_left (Nat.not_lt_zero j)

/-! ## Folding at every position -/

/-- Folding at the first position comes before folding from the second on. -/
theorem Accounts.start {f : Folded} (h : Accounts 1 before (foldStart before steps).steps f cuts) :
    Accounts 0 before steps ⟨f.steps, (foldStart before steps).cuts ++ f.cuts⟩
      (((foldStart before steps).cuts.map fun c => Cut.mk 0 c.1 c.2) ++ cuts) := by
  obtain ⟨hrestores, hcuts, hreach⟩ := foldStart_accounts before steps
  refine ⟨?_, ?_, fun c _ => Nat.zero_le _, ?_, ?_, ?_, fun i j t s _ hij ht hobj hs hleads => ?_⟩
  · rw [map_append, List.map_map, h.patterns]
    exact congrArg (· ++ f.cuts) (List.map_id _)
  · rw [foldr_append, h.restores, hrestores]
  · exact forall_mem_append.mpr ⟨List.forall_mem_map.mpr fun c hc => (hcuts c hc).1, h.ty⟩
  · exact forall_mem_append.mpr ⟨List.forall_mem_map.mpr fun c hc => (hcuts c hc).2.1, h.isObject⟩
  · exact forall_mem_append.mpr ⟨List.forall_mem_map.mpr fun c hc => (hcuts c hc).2.2, h.leadsBack⟩
  · rcases Nat.eq_zero_or_pos i with rfl | hi
    · -- Later positions only move steps nearer.
      obtain ⟨g, hg⟩ := sublist_iff_exists_orderEmbedding_getElem?_eq.mp
        (h.restores ▸ Cut.sublist_foldr_restore cuts f.steps)
      obtain ⟨c, hc, hlt⟩ := hreach t ht hobj (g j) s ((hg j).symm.trans hs) hleads
      have hle : j ≤ g j := StrictMono.le_apply g.strictMono
      exact ⟨⟨0, c.1, c.2⟩, mem_append_left _ (List.mem_map_of_mem hc), rfl, by
        dsimp only
        omega⟩
    · obtain ⟨c, hc, hlt⟩ := h.reach i j t s hi hij ht hobj hs hleads
      exact ⟨c, mem_append_right _ hc, hlt⟩

theorem accounts_fold (before : Option Ty) (steps : List Step) :
    ∃ cuts, Accounts 0 before steps (fold before steps) cuts := by
  fun_induction fold before steps with
  | case1 before steps cuts hstart =>
    have h : Accounts 1 before (foldStart before steps).steps ⟨[], []⟩ [] := hstart ▸ .nil before
    exact ⟨_, by simpa [hstart] using h.start⟩
  | case2 before steps s rest cuts hstart more ih =>
    obtain ⟨cuts', hmore⟩ := ih
    have h : Accounts 1 before (foldStart before steps).steps ⟨s :: more.steps, more.cuts⟩
        (cuts'.map Cut.behind) := hstart ▸ hmore.behind
    exact ⟨_, by simpa [hstart] using h.start⟩

theorem foldFree_of_length (h : (fold before steps).steps.length = steps.length) :
    FoldFree before steps := by
  obtain ⟨cuts, hcuts⟩ := accounts_fold before steps
  have hnil := hcuts.cuts_eq_nil_iff.mpr h
  obtain rfl : cuts = [] := by simpa [hnil] using hcuts.patterns
  have hnormal : Normal 0 before (fold before steps).steps :=
    hcuts.normal_iff_passed.mpr (forall_mem_nil _)
  rw [hcuts.eq_of_cuts hnil] at hnormal
  exact foldFree_of_normal hnormal

def foldFrom : Nat → Option Ty → List Step → Folded
  | 0, before, steps => fold before steps
  | n + 1, _, s :: rest =>
    let f := foldFrom n (some s.ty) rest
    { f with steps := s :: f.steps }
  | _ + 1, _, [] => ⟨[], []⟩

theorem accounts_foldFrom (n : Nat) (before : Option Ty) (steps : List Step) :
    ∃ cuts, Accounts n before steps (foldFrom n before steps) cuts := by
  induction n generalizing before steps with
  | zero => exact accounts_fold before steps
  | succ n ih =>
    cases steps with
    | nil => exact ⟨[], .nil before⟩
    | cons s rest =>
      obtain ⟨cuts, h⟩ := ih (some s.ty) rest
      exact ⟨_, h.behind⟩

/-- A second run has nothing to do exactly if the chain is in normal form. -/
theorem foldFrom_eq_self_iff (n : Nat) (before : Option Ty) (steps : List Step) :
    foldFrom n before steps = ⟨steps, []⟩ ↔ Normal n before steps := by
  constructor
  · intro h
    obtain ⟨cuts, hcuts⟩ := accounts_foldFrom n before steps
    rw [h] at hcuts
    obtain rfl : cuts = [] := map_eq_nil_iff.mp hcuts.patterns
    exact hcuts.normal_iff_passed.mpr (forall_mem_nil _)
  · intro h
    induction n generalizing before steps with
    | zero => exact fold_of_free (foldFree_of_normal h)
    | succ n ih =>
      cases steps with
      | nil => rfl
      | cons s rest =>
        have hrest : Normal n (some s.ty) rest := fun i j t x hi hij ht =>
          h (i + 1) (j + 1) t x (Nat.succ_le_succ hi) (Nat.succ_le_succ hij)
            ((tyBefore_cons before s rest i).trans ht)
        simp [foldFrom, ih _ _ hrest]

end Step

/-! ## What the store knows -/

namespace PathStore
variable {s : PathStore} {stretch : List Step}

theorem patterns_register (s : PathStore) (c : Ty × List Step) :
    s.patterns ⊆ (s.register c).patterns ∧ c ∈ (s.register c).patterns := by
  unfold register
  split
  · next h => exact ⟨fun _ => id, by simpa using h⟩
  · exact ⟨subset_append_left _ _, mem_append_right _ (mem_singleton_self c)⟩

theorem patterns_foldl_register (s : PathStore) (cuts : List (Ty × List Step)) :
    s.patterns ⊆ (cuts.foldl register s).patterns ∧ cuts ⊆ (cuts.foldl register s).patterns := by
  induction cuts generalizing s with
  | nil => exact ⟨fun _ => id, nil_subset _⟩
  | cons c cuts ih =>
    obtain ⟨hold, hnew⟩ := ih (s.register c)
    obtain ⟨hs, hc⟩ := patterns_register s c
    exact ⟨List.Subset.trans hs hold, cons_subset.mpr ⟨hold hc, hnew⟩⟩

theorem mem_patternsFor {t : Ty} : stretch ∈ s.patternsFor t ↔ (t, stretch) ∈ s.patterns := by
  simp [patternsFor]

end PathStore

namespace Step

/-- **Folding loses nothing, and is through exactly if no step moved up unseen.** It cuts something
out exactly if the chain changes; the stretches, put back in from the last to the first, give the
chain again, and each of them is known for the type that leads to its place. What is left is in
normal form, and a second run changes nothing, exactly if behind no place where a stretch was cut
one of the steps that it was ahead of leads back to its type. -/
theorem fold_accounted (n : Nat) (before : Option Ty) (steps : List Step) (s : PathStore) :
    let f := foldFrom n before steps
    (f.cuts ≠ [] ↔ f.steps ≠ steps) ∧
      (foldFrom n before f.steps = ⟨f.steps, []⟩ ↔ Normal n before f.steps) ∧
      ∃ cuts, Accounts n before steps f cuts ∧
        (∀ c ∈ cuts, c.stretch ∈ (f.cuts.foldl PathStore.register s).patternsFor c.ty) ∧
        (Normal n before f.steps ↔ ∀ c ∈ cuts,
          ∀ x ∈ (f.steps.drop c.position).take (c.stretch.length - 1), x.leadsTo c.ty = false) := by
  intro f
  obtain ⟨cuts, h⟩ := accounts_foldFrom n before steps
  refine ⟨not_congr ⟨fun hnil => ?_, fun heq => ?_⟩, foldFrom_eq_self_iff n before f.steps, cuts, h,
    fun c hc => ?_, h.normal_iff_passed⟩
  · exact congrArg Folded.steps (h.eq_of_cuts hnil)
  · exact h.cuts_eq_nil_iff.mpr (congrArg List.length heq)
  · refine PathStore.mem_patternsFor.mpr ((PathStore.patterns_foldl_register s f.cuts).2 ?_)
    rw [← h.patterns]
    exact List.mem_map_of_mem hc

/-- A node has a successor, and a box that leads back to a node. -/
def boxedChain : List Step :=
  [.of ⟨"Node", "box", .cls "Box", false⟩, .of ⟨"Box", "back", .cls "Node", false⟩,
    .of ⟨"Node", "next", .cls "Node", false⟩, .of ⟨"Node", "data", .cls "Data", false⟩]

/-- Folding cuts `box.back` out of `box.back.next.data`. With that `next` has moved up to the place
of `box`, where the search does not look again, and stays. -/
theorem boxed_next_stays : (foldFrom 0 (some (.cls "Node")) boxedChain).steps =
    boxedChain.drop 2 ∧ ¬Normal 0 (some (.cls "Node")) (boxedChain.drop 2) := by
  refine ⟨by decide +kernel, fun h => ?_⟩
  exact absurd (h 0 0 (.cls "Node") _ le_rfl le_rfl rfl (by decide) rfl) (by decide)

end Step
end LeakTrace
