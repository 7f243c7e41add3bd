import LeakTrace.Proofs.Solve.History
import LeakTrace.Sources
import Mathlib.Algebra.BigOperators.Group.Finset.Basic
import Mathlib.Algebra.GroupWithZero.Nat
import Mathlib.Algebra.Order.BigOperators.Group.Finset
import Mathlib.Data.Set.Card

/-!
# A search finds the sources in a history, and no others

A search visits every fact once, by its number. Between visits what was seen is closed: the links of
a fact that was seen lead to facts that were seen or wait. When nothing waits any more, all of the
history was seen. With limits or without, all that a search does is to follow links, so every origin
it finds is in the history of the fact it started from. What was seen is never more than there is,
so a limit on visits matters exactly if the history is larger.

**The bound on visits is enough.** Each visit takes one fact from the stack and either drops it or
puts its links there, and the links of a fact go on the stack once: `unseen` is what may still be
put there, and with the stack it only shrinks.
-/

namespace LeakTrace
open List

namespace Finder
variable {w : World} {H : Set Fact} {f g k : Fact} {finder : Finder} {found : List Found}
  {o : Origin} {seen : Std.HashSet Nat} {stack : List Fact} {fuel : Nat}

@[mk_iff]
structure Unlimited (finder : Finder) : Prop where
  expired : finder.expired = false
  maxVisited : finder.maxVisited = none
  stopped : finder.stopped = none

instance : Decidable finder.Unlimited := decidable_of_iff' _ (unlimited_iff finder)

/-! ## The bound -/

/-- How many facts the links of the numbers that were not seen can put on the stack. -/
def unseen (w : World) (seen : Std.HashSet Nat) : Nat :=
  ∑ id ∈ (Finset.range w.nextId).filter (· ∉ seen), ((w.neighbors[id]?.getD []).length + 1)

theorem unseen_insert {id : Nat} (hid : id < w.nextId) (hnew : id ∉ seen) :
    unseen w (seen.insert id) + ((w.neighbors[id]?.getD []).length + 1) = unseen w seen := by
  have hsplit : (Finset.range w.nextId).filter (· ∉ seen) =
      insert id ((Finset.range w.nextId).filter (· ∉ seen.insert id)) := by
    ext k
    simp only [Finset.mem_filter, Finset.mem_range, Finset.mem_insert, Std.HashSet.mem_insert,
      beq_iff_eq]
    by_cases hk : k = id
    · subst hk
      simp [hid, hnew]
    · simp [hk, Ne.symm hk]
  have hnot : id ∉ (Finset.range w.nextId).filter (· ∉ seen.insert id) := by simp
  unfold unseen
  rw [hsplit, Finset.sum_insert hnot]
  omega

/-- Every key finds one list at most, and no two keys the same. -/
theorem sum_search_le (t : Index Nat (List Fact)) (code : Nat → Nat) (ids : Finset Nat) :
    ∑ id ∈ ids, ((t.search (code id) id).getD []).length ≤ t.values.flatten.length := by
  induction t generalizing ids with
  | empty => simp [Index.search, Index.values]
  | node c k v low high ihlow ihhigh =>
    have hone : ∑ id ∈ ids, (if id = k then v.length else 0) ≤ v.length := by
      rw [Finset.sum_ite_eq']
      split <;> omega
    calc ∑ id ∈ ids, (((Index.node c k v low high).search (code id) id).getD []).length
      _ ≤ ∑ id ∈ ids, ((if id = k then v.length else 0) +
            (((low.search (code id) id).getD []).length +
              ((high.search (code id) id).getD []).length)) := by
        refine Finset.sum_le_sum fun id _ => ?_
        rw [Index.search]
        split
        · next h => simp [h.2]
        · split <;> omega
      _ ≤ v.length + (low.values.flatten.length + high.values.flatten.length) := by
        rw [Finset.sum_add_distrib, Finset.sum_add_distrib]
        exact Nat.add_le_add hone (Nat.add_le_add (ihlow ids) (ihhigh ids))
      _ = (Index.node c k v low high).values.flatten.length := by
        simp [Index.values]

theorem unseen_lt_links (w : World) : unseen w ∅ + 1 < links w := by
  have hunseen : unseen w ∅ =
      ∑ id ∈ Finset.range w.nextId, (w.neighbors[id]?.getD []).length + w.nextId := by
    unfold unseen
    rw [Finset.filter_true_of_mem (by simp), Finset.sum_add_distrib]
    simp
  have hle : ∑ id ∈ Finset.range w.nextId, (w.neighbors[id]?.getD []).length ≤ _ :=
    sum_search_le w.neighbors Coded.code _
  unfold links
  omega

/-! ## The search -/

def Has (found : List Found) (o : Origin) : Prop := ∃ x ∈ found, x.origin = o

theorem collect_eq (found : List Found) (f : Fact) :
    collect found f = found ∧ (∀ o, f.origin = some o → Has found o) ∨
      ∃ o, f.origin = some o ∧ ¬Has found o ∧ collect found f = found ++ [⟨o, f.originCut⟩] := by
  have hany : ∀ o, found.any (·.origin == o) ↔ Has found o := by simp [Has]
  unfold collect
  split
  · next o ho =>
    split
    · next h => exact .inl ⟨rfl, fun o' ho' => Option.some.inj (ho.symm.trans ho') ▸ (hany o).mp h⟩
    · next h => exact .inr ⟨o, ho, mt (hany o).mpr h, rfl⟩
  · next hnone => exact .inl ⟨rfl, fun o ho => by cases hnone.symm.trans ho⟩

theorem Has.collect (h : Has found o) (f : Fact) : Has (collect found f) o := by
  rcases collect_eq found f with ⟨heq, -⟩ | ⟨o', -, -, heq⟩ <;> rw [heq]
  · exact h
  · exact h.imp fun x hx => ⟨mem_append_left _ hx.1, hx.2⟩

theorem has_collect_self (hf : f.origin = some o) : Has (collect found f) o := by
  rcases collect_eq found f with ⟨heq, h⟩ | ⟨o', ho, -, heq⟩ <;> rw [heq]
  · exact h o hf
  · exact ⟨_, mem_append_right _ mem_cons_self, Option.some.inj (ho.symm.trans hf)⟩

theorem nodup_collect (h : (found.map (·.origin)).Nodup) (f : Fact) :
    ((collect found f).map (·.origin)).Nodup := by
  rcases collect_eq found f with ⟨heq, -⟩ | ⟨o, -, hnew, heq⟩ <;> rw [heq]
  · exact h
  · rw [map_append]
    refine h.append (nodup_singleton o) fun o' ho ho' => hnew ?_
    obtain rfl : o' = o := mem_singleton.mp ho'
    exact List.mem_map.mp ho

/-! ## What is found -/

def linksOf (w : World) (f : Fact) : List Fact := (w.neighborsOf f).reverse ++ f.pred.toList

theorem mem_linksOf : g ∈ linksOf w f ↔ g ∈ w.neighborsOf f ∨ f.pred = some g := by
  simp [linksOf]

def history (w : World) (f : Fact) : Set Fact := {g | w.LeadsBack f g}

theorem linksOf_subset (hback : g ∈ history w f) : ∀ h ∈ linksOf w g, h ∈ history w f := by
  intro h hh
  rcases mem_linksOf.mp hh with hh | hh
  · exact hback.trans (.neighbor hh (.refl h))
  · exact hback.trans (.pred hh (.refl h))

/-- A property that is handed on along links holds of all the history. -/
theorem history_induction {P : Fact → Prop} (hback : g ∈ history w f) (hf : P f)
    (hlinks : ∀ g ∈ history w f, P g → ∀ h ∈ linksOf w g, P h) : P g := by
  induction (hback : w.LeadsBack f g) with
  | refl => exact hf
  | @pred f p g hp _ ih =>
    have hmem : p ∈ linksOf w f := mem_linksOf.mpr (.inr hp)
    exact ih (hlinks f (.refl f) hf p hmem) fun k hk => hlinks k (.pred hp hk)
  | @neighbor f n g hn _ ih =>
    have hmem : n ∈ linksOf w f := mem_linksOf.mpr (.inl hn)
    exact ih (hlinks f (.refl f) hf n hmem) fun k hk => hlinks k (.neighbor hn hk)

/-- Some fact in the history of `f` has the origin. -/
def Backed (w : World) (f : Fact) (x : Found) : Prop :=
  ∃ g, w.LeadsBack f g ∧ g.origin = some x.origin ∧ g.originCut = x.cut

theorem backed_collect (hfound : ∀ x ∈ found, Backed w f x) (hback : g ∈ history w f) :
    ∀ x ∈ collect found g, Backed w f x := by
  rcases collect_eq found g with ⟨heq, -⟩ | ⟨o, ho, -, heq⟩ <;> rw [heq]
  · exact hfound
  · exact forall_mem_append.mpr ⟨hfound, forall_mem_singleton.mpr ⟨g, hback, ho, rfl⟩⟩

theorem backed_visit (hstack : ∀ g ∈ stack, g ∈ history w f) (hfound : ∀ x ∈ found, Backed w f x) :
    ∀ x ∈ (visit w fuel finder stack seen found).2.1, Backed w f x := by
  induction fuel generalizing finder stack seen found with
  | zero => exact hfound
  | succ n ih =>
    cases stack with
    | nil =>
      intro x hx
      exact hfound x (mem_mergeSort.mp hx)
    | cons g stack =>
      obtain ⟨hg, hrest⟩ := forall_mem_cons.mp hstack
      -- A limit ends the search with what was found so far.
      have hgo : ∀ (limited : Bool) (finder : Finder), ∀ x ∈ (if limited then (finder, found, false)
          else visit w n finder (linksOf w g ++ stack) (seen.insert g.id)
            (collect found g)).2.1, Backed w f x := by
        intro limited finder
        cases limited with
        | true => exact hfound
        | false =>
          exact ih (forall_mem_append.mpr ⟨linksOf_subset hg, hrest⟩) (backed_collect hfound hg)
      unfold visit
      split
      · exact ih hrest hfound
      · exact hgo _ _

theorem backed_find : ∀ x ∈ (finder.find w f).2.1, Backed w f x :=
  backed_visit (forall_mem_singleton.mpr (.refl f)) (forall_mem_nil _)

/-- Every answer is about one of the observations, and backed by its history. -/
theorem backed_findAll {hits : List SinkHit} :
    ∀ s ∈ (finder.findAll w hits).2, s.hit ∈ hits ∧ ∀ x ∈ s.found, Backed w s.hit.fact x := by
  intro s hs
  have hmem := mem_mergeSort.mp hs
  refine List.foldlRecOn (motive := fun acc : Finder × List Search => ∀ s ∈ acc.2,
    s.hit ∈ hits ∧ ∀ x ∈ s.found, Backed w s.hit.fact x) hits _ ?_ ?_ s hmem
  · exact forall_mem_nil _
  · intro acc hacc h hh
    exact forall_mem_append.mpr ⟨hacc, forall_mem_singleton.mpr ⟨hh, backed_find⟩⟩

/-! ## The whole history -/

section
variable (hw : w.Populated H) (hf : f ∈ H)
include hw hf

theorem linksOf_mem : ∀ g ∈ linksOf w f, g ∈ H := fun g hg =>
  (mem_linksOf.mp hg).elim (hw.neighbors f g) (hw.pred f hf g)

theorem history_subset : history w f ⊆ H :=
  fun _ hback => history_induction hback hf fun _ _ => linksOf_mem hw

theorem injOn_history : Set.InjOn Fact.id (history w f) :=
  fun g hg k hk hid => hw.unique g (history_subset hw hf hg) k (history_subset hw hf hk) hid

theorem finite_history : (history w f).Finite := by
  refine Set.Finite.of_injOn (t := Finset.range w.nextId) (fun g hg => ?_) (injOn_history hw hf)
    (Finset.finite_toSet _)
  exact Finset.mem_coe.mpr (Finset.mem_range.mpr (hw.known g (history_subset hw hf hg)))

end

theorem exists_ids (seen : Std.HashSet Nat) :
    ∃ ids : Finset Nat, (∀ id, id ∈ ids ↔ id ∈ seen) ∧ ids.card = seen.size := by
  have hnodup : seen.toList.Nodup := Std.HashSet.distinct_toList.imp fun hne => by simpa using hne
  refine ⟨seen.toList.toFinset, fun id => by simp, ?_⟩
  rw [toFinset_card_of_nodup hnodup, Std.HashSet.length_toList]

def Met (stack : List Fact) (seen : Std.HashSet Nat) (g : Fact) : Prop := g.id ∈ seen ∨ g ∈ stack

theorem Met.drop (h : Met (k :: stack) seen g) (hk : k.id ∈ seen) : Met stack seen g := by
  refine h.elim .inl fun hg => ?_
  rcases mem_cons.mp hg with rfl | hg
  · exact .inl hk
  · exact .inr hg

theorem Met.visit {links : List Fact} (h : Met (k :: stack) seen g) :
    Met (links ++ stack) (seen.insert k.id) g := by
  rcases h with hg | hg
  · exact .inl (Std.HashSet.mem_insert.mpr (.inr hg))
  · rcases mem_cons.mp hg with rfl | hg
    · exact .inl Std.HashSet.mem_insert_self
    · exact .inr (mem_append_right _ hg)

/-- What holds between the visits of a search for the history of `f`: what was seen is closed up to
the stack, and its origins were found. -/
structure Explored (w : World) (f : Fact) (limit : Option Nat) (stack : List Fact)
    (seen : Std.HashSet Nat) (found : List Found) : Prop where
  start : Met stack seen f
  stack_back : ∀ g ∈ stack, g ∈ history w f
  seen_back : ∀ id ∈ seen, ∃ g ∈ history w f, g.id = id ∧
    (∀ k ∈ linksOf w g, Met stack seen k) ∧ ∀ o, g.origin = some o → Has found o
  within : ∀ max ∈ limit, seen.size ≤ max
  nodup : (found.map (·.origin)).Nodup

namespace Explored
variable {limit : Option Nat}

section
variable (h : Explored w f limit (k :: stack) seen found)
include h

theorem drop (hk : k.id ∈ seen) : Explored w f limit stack seen found where
  start := h.start.drop hk
  stack_back := (forall_mem_cons.mp h.stack_back).2
  seen_back id hid := by
    obtain ⟨g, hg, hgid, hlinks, horigin⟩ := h.seen_back id hid
    exact ⟨g, hg, hgid, fun k hk' => (hlinks k hk').drop hk, horigin⟩
  within := h.within
  nodup := h.nodup

theorem visit (hroom : ∀ max ∈ limit, (seen.insert k.id).size ≤ max) :
    Explored w f limit (linksOf w k ++ stack) (seen.insert k.id) (collect found k) := by
  obtain ⟨hk, hstack⟩ := forall_mem_cons.mp h.stack_back
  refine ⟨h.start.visit, forall_mem_append.mpr ⟨linksOf_subset hk, hstack⟩, fun id hid => ?_,
    hroom, nodup_collect h.nodup k⟩
  rcases Std.HashSet.mem_insert.mp hid with heq | hold
  · refine ⟨k, hk, by simpa using heq, fun g hg => ?_, fun o => has_collect_self⟩
    exact .inr (mem_append_left _ hg)
  · obtain ⟨g, hg, hgid, hlinks, horigin⟩ := h.seen_back id hold
    exact ⟨g, hg, hgid, fun k hk => (hlinks k hk).visit, fun o ho => (horigin o ho).collect k⟩

end

theorem size_le (hw : w.Populated H) (hf : f ∈ H) (h : Explored w f limit stack seen found) :
    seen.size ≤ (history w f).ncard := by
  obtain ⟨ids, hids, hcard⟩ := exists_ids seen
  rw [← hcard, ← Set.ncard_coe_finset, ← (injOn_history hw hf).ncard_image]
  refine Set.ncard_le_ncard (fun id hid => ?_) ((finite_history hw hf).image _)
  obtain ⟨g, hg, hgid, -⟩ := h.seen_back id ((hids id).mp hid)
  exact ⟨g, hg, hgid⟩

section
variable (hw : w.Populated H) (hf : f ∈ H) (h : Explored w f limit [] seen found)
include hw hf h

section
variable (hback : g ∈ history w f)
include hback

theorem closed (hseen : g.id ∈ seen) :
    (∀ k ∈ linksOf w g, k.id ∈ seen) ∧ ∀ o, g.origin = some o → Has found o := by
  obtain ⟨k, hk, hid, hlinks, horigin⟩ := h.seen_back g.id hseen
  obtain rfl := injOn_history hw hf hk hback hid
  exact ⟨fun n hn => (hlinks n hn).resolve_right not_mem_nil, horigin⟩

theorem seen_all : g.id ∈ seen :=
  history_induction hback (h.start.resolve_right not_mem_nil) fun _ hk hseen =>
    (h.closed hw hf hk hseen).1

theorem has (ho : g.origin = some o) :
    Has (found.mergeSort fun a b => a.origin.stmt ≤ b.origin.stmt) o := by
  obtain ⟨x, hx, rfl⟩ := (h.closed hw hf hback (h.seen_all hw hf hback)).2 o ho
  exact ⟨x, mem_mergeSort.mpr hx, rfl⟩

end

theorem ncard_le : ∀ max ∈ limit, (history w f).ncard ≤ max := by
  intro max hmax
  refine le_trans ?_ (h.within max hmax)
  obtain ⟨ids, hids, hcard⟩ := exists_ids seen
  rw [← hcard, ← Set.ncard_coe_finset, ← (injOn_history hw hf).ncard_image]
  refine Set.ncard_le_ncard ?_ ids.finite_toSet
  rintro _ ⟨g, hback, rfl⟩
  exact (hids g.id).mpr (h.seen_all hw hf hback)

end
end Explored

theorem unseen_links (stack : List Fact) (hw : w.Populated H) (hf : f ∈ H) (hnew : f.id ∉ seen) :
    (linksOf w f ++ stack).length + unseen w (seen.insert f.id) ≤ stack.length + unseen w seen := by
  have hroom := unseen_insert (hw.known f hf) hnew
  have hpred : f.pred.toList.length ≤ 1 := by cases f.pred <;> simp
  simp only [linksOf, length_append, length_reverse]
  unfold World.neighborsOf
  omega

theorem visit_fuel (hw : w.Populated H) {n m : Nat} (hstack : ∀ g ∈ stack, g ∈ H)
    (hn : stack.length + unseen w seen < n) (hm : stack.length + unseen w seen < m) :
    visit w n finder stack seen found = visit w m finder stack seen found := by
  induction n generalizing m finder stack seen found with
  | zero => exact absurd hn (Nat.not_lt_zero _)
  | succ n ih =>
    obtain ⟨m, rfl⟩ : ∃ k, m = k + 1 := Nat.exists_eq_add_one.mpr (Nat.zero_lt_of_lt hm)
    cases stack with
    | nil => rfl
    | cons k stack =>
      obtain ⟨hk, hrest⟩ := forall_mem_cons.mp hstack
      simp only [length_cons] at hn hm
      unfold visit
      split
      · exact ih hrest (by omega) (by omega)
      · next hnew =>
        have hlinks := unseen_links stack hw hk hnew
        have hgo : ∀ finder found, visit w n finder (linksOf w k ++ stack) (seen.insert k.id) found =
            visit w m finder (linksOf w k ++ stack) (seen.insert k.id) found := fun _ _ =>
          ih (forall_mem_append.mpr ⟨linksOf_mem hw hk, hrest⟩) (by omega) (by omega)
        simp only [linksOf] at hgo
        simp only [hgo]

theorem visit_cons (hexpired : finder.expired = false) (hstopped : finder.stopped = none) (n : Nat)
    (f : Fact) (stack : List Fact) (seen : Std.HashSet Nat) (found : List Found) :
    visit w (n + 1) finder (f :: stack) seen found =
      if seen.contains f.id then visit w n finder stack seen found
      else if finder.maxVisited.any ((seen.insert f.id).size > ·) then
        ({ finder with visited := finder.visited + 1 }, found, false)
      else visit w n { finder with visited := finder.visited + 1 }
        (linksOf w f ++ stack) (seen.insert f.id) (collect found f) := by
  obtain ⟨expired, maxVisited, baseline, stopped, visited⟩ := finder
  subst hexpired hstopped
  rfl

section
variable (hw : w.Populated H) (hf : f ∈ H) (hexpired : finder.expired = false)
include hw hf hexpired

/-- Without deadline and stop request, a search with enough fuel ends when all was seen, or at the
first fact that is too much. -/
theorem explored_visit (hstopped : finder.stopped = none)
    (h : Explored w f finder.maxVisited stack seen found)
    (hfuel : stack.length + unseen w seen < fuel) :
    (∃ all founds, Explored w f finder.maxVisited [] all founds ∧
      (visit w fuel finder stack seen found).2 =
        (founds.mergeSort fun a b => a.origin.stmt ≤ b.origin.stmt, true)) ∨
    (∃ max ∈ finder.maxVisited, max < (history w f).ncard) ∧
      ∃ founds, (founds.map (·.origin)).Nodup ∧
        (visit w fuel finder stack seen found).2 = (founds, false) := by
  induction fuel generalizing finder stack seen found with
  | zero => exact absurd hfuel (Nat.not_lt_zero _)
  | succ n ih =>
    cases stack with
    | nil => exact .inl ⟨seen, found, h, rfl⟩
    | cons k stack =>
      simp only [length_cons] at hfuel
      rw [visit_cons hexpired hstopped]
      split
      · next hold => exact ih hexpired hstopped (h.drop hold) (by omega)
      · next hnew =>
        split
        · next hmany =>
          obtain ⟨max, hmax, hlt⟩ := (Option.any_eq_true _ _).mp hmany
          -- But for the limit this fact would be visited too.
          have hvisit := ({ h with within := by simp } : Explored w f none _ _ _).visit (by simp)
          have hsize := hvisit.size_le hw hf
          exact .inr ⟨⟨max, hmax, (of_decide_eq_true hlt).trans_le hsize⟩, found, h.nodup, rfl⟩
        · next hroom =>
          have hk : k ∈ H := history_subset hw hf (h.stack_back k mem_cons_self)
          have hlinks := unseen_links stack hw hk hnew
          refine ih (show Finder.expired { finder with visited := finder.visited + 1 } = _ from
            hexpired) hstopped (h.visit fun max hmax => ?_) (by omega)
          have hle := (Option.any_eq_false _ _).mp (Bool.eq_false_iff.mpr hroom) max hmax
          exact not_lt.mp (of_decide_eq_false hle)

theorem explored_find (hstopped : finder.stopped = none) :
    (∃ all founds, Explored w f finder.maxVisited [] all founds ∧ (finder.find w f).2 =
      (founds.mergeSort fun a b => a.origin.stmt ≤ b.origin.stmt, true)) ∨
    (∃ max ∈ finder.maxVisited, max < (history w f).ncard) ∧
      ∃ founds, (founds.map (·.origin)).Nodup ∧ (finder.find w f).2 = (founds, false) := by
  have hstart : Explored w f finder.maxVisited [f] ∅ [] :=
    ⟨.inr mem_cons_self, forall_mem_singleton.mpr (.refl f), by simp, by simp, nodup_nil⟩
  have hfuel := unseen_lt_links w
  exact explored_visit hw hf hexpired hstopped hstart (by simp only [length_singleton]; omega)

end

/-- A search without limits ends, and finds every origin in the history of its fact. -/
theorem has_find (hw : w.Populated H) (hlim : finder.Unlimited) (hf : f ∈ H)
    (hback : w.LeadsBack f g) (ho : g.origin = some o) :
    Has (finder.find w f).2.1 o ∧ (finder.find w f).2.2 := by
  rcases explored_find hw hf hlim.expired hlim.stopped with
    ⟨all, founds, h, hfind⟩ | ⟨⟨max, hmax, -⟩, -⟩
  · rw [hfind]
    exact ⟨h.has hw hf hback ho, rfl⟩
  · rw [hlim.maxVisited] at hmax
    cases hmax

/-- The search is exact. It ends by itself, it visits all of the history unless that is more than
the limit, and what it finds are origins in the history, each once. If nothing was left out, these
are all of them, ordered by statement. -/
theorem find_exact (hw : w.Populated H) (hf : f ∈ H) (hexpired : finder.expired = false)
    (hstopped : finder.stopped = none) :
    (∀ fuel, links w ≤ fuel → visit w fuel finder [f] ∅ [] = finder.find w f) ∧
    (history w f).Finite ∧
    ((finder.find w f).2.2 = true ↔ ∀ max ∈ finder.maxVisited, (history w f).ncard ≤ max) ∧
    ((finder.find w f).2.1.map (·.origin)).Nodup ∧ (∀ x ∈ (finder.find w f).2.1, Backed w f x) ∧
    ((finder.find w f).2.2 = true →
      (finder.find w f).2.1.Pairwise (fun a b => a.origin.stmt ≤ b.origin.stmt) ∧
      ∀ o, Has (finder.find w f).2.1 o ↔ o ∈ w.origins f) := by
  refine ⟨fun fuel hfuel => ?_, finite_history hw hf, ?_⟩
  · have hlinks := unseen_lt_links w
    refine visit_fuel hw (by simpa using hf) ?_ ?_ <;> simp only [length_singleton] <;> omega
  have hbacked : ∀ x ∈ (finder.find w f).2.1, Backed w f x := backed_find
  rcases explored_find hw hf hexpired hstopped with
    ⟨all, founds, h, hfind⟩ | ⟨⟨max, hmax, hlt⟩, founds, hnodup, hfind⟩
  · rw [hfind] at hbacked ⊢
    refine ⟨iff_of_true rfl (h.ncard_le hw hf), ?_, hbacked, fun _ => ⟨?_, fun o => ⟨?_, ?_⟩⟩⟩
    · exact ((mergeSort_perm founds _).map _).nodup_iff.mpr h.nodup
    · refine (pairwise_mergeSort ?_ ?_ founds).imp of_decide_eq_true
      · simpa using fun a b c : Found => Nat.le_trans
      · simpa using fun a b : Found => Nat.le_total a.origin.stmt b.origin.stmt
    · rintro ⟨x, hx, rfl⟩
      obtain ⟨g, hback, ho, -⟩ := hbacked x hx
      exact ⟨g, hback, ho⟩
    · rintro ⟨g, hback, ho⟩
      exact h.has hw hf hback ho
  · rw [hfind] at hbacked ⊢
    exact ⟨iff_of_false Bool.false_ne_true fun hall => (hall max hmax).not_gt hlt, hnodup, hbacked,
      fun htrue => absurd htrue Bool.false_ne_true⟩

/-! ## A search in a circle -/

def circleOrigin : Origin :=
  { definition := { kind := .source, id := "source" }, path := { base := some ⟨0, "x", .int⟩ }
    stmt := 1 }

def circleSource : Fact := .ofSource 0 circleOrigin false false false

/-- What is derived from the source arrives where the source is. -/
def circle : World :=
  { nextId := 2, neighbors := (∅ : Index Nat (List Fact)).insert 0 [circleSource.next 1] }

theorem mem_neighborsOf_circle : g ∈ circle.neighborsOf f ↔ f.id = 0 ∧ g = circleSource.next 1 := by
  unfold World.neighborsOf circle
  simp only [Index.getElem?_insert]
  split
  · next hid => simp [← hid]
  · next hid => simp [Ne.symm hid]

theorem populated_circle : circle.Populated {circleSource, circleSource.next 1} where
  unique := by
    rintro _ (rfl | rfl) _ (rfl | rfl) hid
    · rfl
    · cases hid
    · cases hid
    · rfl
  known := by
    rintro _ (rfl | rfl)
    · exact Nat.zero_lt_two
    · exact Nat.one_lt_two
  pred := by
    rintro _ (rfl | rfl) p hp <;> cases hp
    exact .inl rfl
  neighbors f n hn := .inr (mem_neighborsOf_circle.mp hn).2

/-- Both facts of the circle are visited, or the search gives up where it may only see one. -/
theorem find_circle : circle.Populated {circleSource, circleSource.next 1} ∧
    circle.LeadsBack circleSource (circleSource.next 1) ∧
    (({} : Finder).find circle circleSource).2.2 = true ∧
    Has (({} : Finder).find circle circleSource).2.1 circleOrigin ∧
    (({ maxVisited := some 1 } : Finder).find circle circleSource).2.2 = false := by
  have hback : circle.LeadsBack circleSource (circleSource.next 1) :=
    .neighbor (mem_neighborsOf_circle.mpr ⟨rfl, rfl⟩) (.refl _)
  obtain ⟨-, hfin, hall, -, -, hexact⟩ :=
    find_exact populated_circle (.inl rfl) (show Finder.expired {} = false from rfl) rfl
  obtain ⟨-, -, hone, -⟩ :=
    find_exact populated_circle (.inl rfl)
      (show Finder.expired { maxVisited := some 1 } = false from rfl) rfl
  have hcomplete : (({} : Finder).find circle circleSource).2.2 := hall.mpr (by simp)
  refine ⟨populated_circle, hback, hcomplete, ?_, ?_⟩
  · exact ((hexact hcomplete).2 circleOrigin).mpr ⟨circleSource, .refl _, rfl⟩
  · rw [Bool.eq_false_iff, Ne, hone]
    intro hle
    have hlt : 1 < (history circle circleSource).ncard :=
      (Set.one_lt_ncard hfin).mpr ⟨circleSource, .refl _, circleSource.next 1, hback, fun h => by
        cases congrArg Fact.id h⟩
    exact (hle 1 rfl).not_gt hlt

end Finder
end LeakTrace
