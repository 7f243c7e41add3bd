import LeakTrace.Proofs.Vocabulary.Programs
import LeakTrace.Proofs.Vocabulary.Search
import Mathlib.Data.Set.Card

/-!
# Searches for aliases come to an end

Both searches go on from the aliases they find, and heap assignments may relate places in a circle.
**A search ends after finitely many calls of itself**, from any fact and in any world: all aliases
are over one vocabulary, which has finitely many taints, and no taint is searched from twice. That
calls are nested no deeper than `n` is said by putting any action in place of what `n` nested calls
would do next: it makes no difference.
-/

namespace LeakTrace
open List

variable {V : Vocabulary} {e : Env}

/-- How many taints over the vocabulary are not known yet. -/
noncomputable def Vocabulary.missing (V : Vocabulary) (known : Taint → Prop) : Nat :=
  {t : Taint | t.Over V ∧ ¬known t}.ncard

section
variable {known known' : Taint → Prop} (h : ∀ t, known t → known' t)
include h

theorem Vocabulary.missing_le : V.missing known' ≤ V.missing known :=
  Set.ncard_le_ncard (fun t ht => ⟨ht.1, mt (h t) ht.2⟩)
    ((Taint.finite_over V).subset fun _ ht => ht.1)

theorem Vocabulary.missing_lt {t : Taint} (ht : t.Over V) (hnew : ¬known t) (hknown : known' t) :
    V.missing known' < V.missing known := by
  refine Set.ncard_lt_ncard ⟨fun u hu => ⟨hu.1, mt (h u) hu.2⟩, fun hle => ?_⟩
    ((Taint.finite_over V).subset fun _ hu => hu.1)
  exact (hle ⟨ht, hnew⟩).2 hknown

end

namespace Track
variable {f d1 : Fact} {m : MethodId} {k : Nat}

/-- Paths are over the vocabulary, and fewer than `k` taints of it were not searched from. -/
structure Searching (V : Vocabulary) (d1 : Fact) (m : MethodId) (k : Nat) (w : World) : Prop where
  paths : w.paths.Over V
  missing : V.missing (fun t => (m, t, d1.toTaint) ∈ w.searched) < k

theorem makes_searching : Makes V e (Searching V d1 m k) := by
  refine ⟨fun h w hw => ?_, fun w hw => ⟨trivial, hw.1, hw.2⟩⟩
  obtain ⟨hq, hs⟩ := h w.paths hw.paths
  exact ⟨hq, hs, hw.missing⟩

theorem Searching.remember {w : World} (h : Searching V d1 m (k + 1) w) (hf : f.Over V)
    (hnew : (m, f.toTaint, d1.toTaint) ∉ w.searched) :
    Searching V d1 m k { w with searched := w.searched.insert (m, f.toTaint, d1.toTaint) } := by
  have hlt : V.missing (fun t => (m, t, d1.toTaint) ∈
        w.searched.insert (m, f.toTaint, d1.toTaint)) <
      V.missing fun t => (m, t, d1.toTaint) ∈ w.searched :=
    V.missing_lt (fun t ht => Std.HashSet.mem_insert.mpr (.inr ht)) hf hnew
      Std.HashSet.mem_insert_self
  exact ⟨h.paths, hlt.trans_le (Nat.le_of_lt_succ h.missing)⟩

section
variable (hV : V.Covers e)
include hV

theorem methodAliases_agree {I : World → Prop} (hI : Makes V e I)
    {pairs : List (AccessPath × AccessPath)} (hpairs : ∀ q ∈ pairs, Path.Over V q.2.toPath)
    (stop : Value → FactSet → Fact → Track FactSet) {target : Value} {set : FactSet}
    (ht : target.Over V) (hset : V.missing (· ∈ set.map (·.toTaint)) < k) (hf : f.Over V) :
    Agree e I (methodAliases k pairs target set f) ((aliasesByPairs pairs)^[k] stop target set f)
      fun set => V.missing (· ∈ set.map (·.toTaint)) < k := by
  induction k generalizing target set f with
  | zero => exact absurd hset (Nat.not_lt_zero _)
  | succ k ih =>
    rw [Function.iterate_succ_apply']
    -- The search goes on from an alias that is put into the set, so that one taint less is missing.
    have hinsert (set : FactSet) (g : Fact) (hset : V.missing (· ∈ set.map (·.toTaint)) < k + 1)
        (hg : g.Over V) (hnew : set.contains g = false) :
        V.missing (· ∈ (set.insert g).map (·.toTaint)) < k := by
      rw [FactSet.insert, hnew, if_neg Bool.false_ne_true, map_append]
      refine (Vocabulary.missing_lt (fun t => mem_append_left _) hg (fun hmem => ?_)
        (mem_append_right _ mem_cons_self)).trans_le (Nat.le_of_lt_succ hset)
      obtain ⟨x, hx, hxg⟩ := mem_map.mp hmem
      simp only [FactSet.contains, any_eq_false] at hnew
      exact hnew x hx (by simp [Fact.same, hxg])
    refine (methodSearch_over hV hI).aliasesByPairs hpairs (fun set g hset hg => ?_)
      (fun t set g ht hset hnew hg => ?_) ht hset hf
    · cases hnew : set.contains g with
      | true => rwa [FactSet.insert, if_pos hnew]
      | false => exact Nat.lt_succ_of_lt (hinsert set g hset hg hnew)
    · obtain ⟨hkeeps, heq⟩ := ih ht (hinsert set g hset hg hnew) hg
      exact ⟨hkeeps.mono fun _ => Nat.lt_succ_of_lt, heq⟩

theorem searchPointsTo_agree (stop : Fact → List Step → Bool → StmtId → Track Unit)
    {appended : List Step} {deep : Bool} {act : StmtId} (hf : f.Over V)
    (happ : ∀ x ∈ appended, Step.Over V x) (hact : act ∈ V.stmts) :
    Agree e (Searching V d1 m k) (searchPointsTo k d1 m f appended deep act)
      ((searchOnce d1 m)^[k] stop f appended deep act) := by
  induction k generalizing f appended deep act with
  | zero =>
    have hnone (w : World) : ¬Searching V d1 m 0 w := fun hw => Nat.not_lt_zero _ hw.missing
    exact ⟨fun w hw => absurd hw (hnone w), fun w hw => absurd hw (hnone w)⟩
  | succ k ih =>
    rw [Function.iterate_succ_apply']
    -- What is searched from is remembered before the search goes on.
    have hsearch : PointsToSearch e (Searching V d1 m k) (Value.Over V) (Step.Over V) (· ∈ V.stmts)
        (Fact.Over V) d1 := by
      refine pointsToSearch_over hV makes_searching (fun f n _ _ => ?_) fun w key hw => ⟨hw.1, ?_⟩
      · exact .read (.ite (.modify trivial fun w hw => ⟨hw.1, hw.2⟩) (.pure trivial))
      · exact (V.missing_le fun t ht => Std.HashSet.mem_insert.mpr (.inr ht)).trans_lt hw.missing
    exact searchOnce_agree (fun w hw => ⟨hw.paths, Nat.lt_succ_of_lt hw.missing⟩)
      (fun w hw => hw.remember hf) (hsearch.aliasesOf (hV.body m) (fun _ _ _ _ => ih) hf happ hact)

end
end Track

open Track in
/-- **Looking for aliases finishes.** In every program, method, configuration and world and from
every fact, both searches call themselves no deeper than some number of times, whatever a further
call would do. -/
theorem alias_searches_finish (e : Env) (w : World) (d1 f : Fact) (m : MethodId) :
    (∀ target set, ∃ n, ∀ stop,
      ((do (aliasesByPairs (← heapPairs (e.method m)))^[n] stop target set f).run e).run w =
        ((do methodAliases n (← heapPairs (e.method m)) target set f).run e).run w) ∧
    ∀ appended deep act, ∃ n, ∀ stop,
      (((searchOnce d1 m)^[n] stop f appended deep act).run e).run w =
        ((searchPointsTo n d1 m f appended deep act).run e).run w := by
  refine ⟨fun target set => ?_, fun appended deep act => ?_⟩
  · obtain ⟨V, hV⟩ : ∃ V, e.vocabulary w.paths [] [e.zero.toTaint, f.toTaint] [target] = V :=
      ⟨_, rfl⟩
    have hcovers : V.Covers e := Env.covers_vocabulary hV (Env.over_taints hV _ (by simp))
    have hf : f.Over V := Env.over_taints hV _ (by simp)
    have ht : target.Over V := Env.over_values hV _ (by simp)
    obtain ⟨k, hw⟩ : ∃ k, Searching V d1 m k w := ⟨_, Env.over_store hV, Nat.lt_succ_self _⟩
    have hI : Makes V e (Searching V d1 m k) := makes_searching
    exact ⟨_, fun stop => ((Agree.refl (heapPairs_over hcovers hI)).bind fun pairs hpairs =>
      methodAliases_agree hcovers hI hpairs stop ht (Nat.lt_succ_self _) hf).2 w hw |>.symm⟩
  · let rest : Taint := { path := { Path.empty with steps := appended } }
    obtain ⟨V, hV⟩ : ∃ V, e.vocabulary w.paths [act] [e.zero.toTaint, f.toTaint, rest] = V :=
      ⟨_, rfl⟩
    have hcovers : V.Covers e := Env.covers_vocabulary hV (Env.over_taints hV _ (by simp))
    have hf : f.Over V := Env.over_taints hV _ (by simp)
    have hrest : rest.Over V := Env.over_taints hV _ (by simp)
    have hact : act ∈ V.stmts := Env.mem_stmts hV act (by simp [Env.allStmts])
    have hw : Searching V d1 m _ w := ⟨Env.over_store hV, Nat.lt_succ_self _⟩
    exact ⟨_, fun stop =>
      ((searchPointsTo_agree hcovers stop hf hrest.path.steps hact).2 w hw).symm⟩

end LeakTrace
