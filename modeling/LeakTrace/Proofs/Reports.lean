import LeakTrace.Proofs.Oracle
import LeakTrace.Proofs.Scope.Memory
import LeakTrace.Proofs.Sources

/-!
# Every connection is backed by an observation

A report pairs observations at sinks with origins from their histories. Pairs are grouped by sink,
and observations that agree in the sink share a group; so a connection names the definition and the
statement of some observation, and **its source is in the history of that observation**.
-/

namespace LeakTrace
open List

namespace Results
variable {P : Definition → StmtId → Found → Prop} {r : Results} {sink : ResultSink}
  {l : List Search}

/-- Every pair of a sink and a source that is in the results is as `P` says. -/
def Pairs (P : Definition → StmtId → Found → Prop) (r : Results) : Prop :=
  ∀ g ∈ r.groups, ∀ x ∈ g.sources, P g.sink.definition g.sink.stmt x

theorem Pairs.connections (h : r.Pairs P) :
    ∀ c ∈ r.connections, P c.sink.definition c.sink.stmt c.source := by
  intro c hc
  obtain ⟨g, hg, hc⟩ := mem_flatMap.mp (mem_mergeSort.mp hc)
  obtain ⟨x, hx, rfl⟩ := List.mem_map.mp hc
  exact h g hg x hx

theorem Pairs.add (h : r.Pairs P) {x : Found} (hx : P sink.definition sink.stmt x) :
    (r.add sink x).Pairs P := by
  intro g hg y hy
  unfold Results.add at hg
  dsimp only at hg
  split at hg
  · obtain ⟨g', hg', rfl⟩ := List.mem_map.mp hg
    by_cases hsame : sink.same g'.sink
    · rw [if_pos hsame] at hy ⊢
      change y ∈ if g'.sources.any x.same then g'.sources else g'.sources ++ [x] at hy
      split at hy
      · exact h g' hg' y hy
      · rcases mem_append.mp hy with hy | hy
        · exact h g' hg' y hy
        · -- The group has the sink of another observation: the same, but for the path.
          simp only [ResultSink.same, Bool.and_eq_true, beq_iff_eq] at hsame
          rw [mem_singleton.mp hy, ← hsame.1.1, ← hsame.1.2]
          exact hx
    · rw [if_neg hsame] at hy ⊢
      exact h g' hg' y hy
  · rcases mem_append.mp hg with hg | hg
    · exact h g hg y hy
    · rw [mem_singleton.mp hg] at hy ⊢
      rw [mem_singleton.mp hy]
      exact hx

theorem Pairs.addAll (h : r.Pairs P) {l : List Found} (hl : ∀ x ∈ l, P sink.definition sink.stmt x) :
    (l.foldl (fun r x => r.add sink x) r).Pairs P := by
  induction l generalizing r with
  | nil => exact h
  | cons x rest ih =>
    exact ih (h.add (hl x mem_cons_self)) fun y hy => hl y (mem_cons_of_mem x hy)

theorem Pairs.addSearches (h : r.Pairs P)
    (hl : ∀ s ∈ l, ∀ x ∈ s.found, P s.hit.definition s.hit.stmt x) :
    (l.foldl (fun r s => s.found.foldl (fun r f => r.add (.ofHit s.hit) f) r) r).Pairs P := by
  induction l generalizing r with
  | nil => exact h
  | cons s rest ih =>
    have hs : ∀ x ∈ s.found, P s.hit.definition s.hit.stmt x := hl s mem_cons_self
    exact ih (h.addAll hs) fun s' hs' => hl s' (mem_cons_of_mem s hs')

theorem hits_addSearches :
    (l.foldl (fun r s => s.found.foldl (fun r f => r.add (.ofHit s.hit) f) r) r).hits = r.hits := by
  have hadd : ∀ (found : List Found) (sink : ResultSink) (r : Results),
      (found.foldl (fun r f => r.add sink f) r).hits = r.hits := by
    intro found sink
    induction found with
    | nil => exact fun _ => rfl
    | cons f rest ih => exact fun r => ih (r.add sink f)
  induction l generalizing r with
  | nil => rfl
  | cons s rest ih => exact ih.trans (hadd s.found (.ofHit s.hit) r)

end Results

namespace Analysis
variable {a : Analysis} {m : Machine} {r : Results}

/-- An observation of the sink has the source in its history. -/
def BackedBy (w : World) (hits : List SinkHit) (d : Definition) (n : StmtId) (x : Found) : Prop :=
  ∃ h ∈ hits, h.definition = d ∧ h.stmt = n ∧ Finder.Backed w h.fact x

theorem findSources_backed (hr : r.groups = []) :
    (a.findSources m r).Pairs (BackedBy m.world r.hits) := by
  unfold findSources
  dsimp only
  split
  · intro g hg
    change g ∈ r.groups at hg
    rw [hr] at hg
    cases hg
  · refine Results.Pairs.addSearches (fun g hg => ?_) fun s hs x hx => ?_
    · change g ∈ r.groups at hg
      rw [hr] at hg
      cases hg
    · obtain ⟨hhit, hfound⟩ := Finder.backed_findAll s hs
      exact ⟨s.hit, (mem_filter.mp hhit).1, rfl, rfl, hfound x hx⟩

theorem mem_hits_findSources : ∀ h ∈ (a.findSources m r).hits, h ∈ r.hits := by
  intro h hh
  unfold findSources at hh
  dsimp only at hh
  split at hh
  · cases hh
  · rw [Results.hits_addSearches] at hh
    obtain ⟨s, hs, rfl⟩ := List.mem_map.mp hh
    exact (mem_filter.mp (Finder.backed_findAll s hs).1).1

section Runs
variable {K : List StmtId → Memory} {F : List StmtId → Fitness} {met : Fact → Prop}
  (hs : ∀ sources, (∀ n ∈ sources, n ∈ a.scan.1) →
    (a.passSetup sources a.scan.2.1).Bears (World.Remembers (K sources)) (F sources))
  (hK : Shared a.env.pathRules met K)
include hs hK

variable (σ : Nat → Schedule)
include σ

/-- What is observed in the passes may be observed in one of them, and facts only met facts that
may be met. -/
theorem solveBy_remembers : (∀ f, ∀ g ∈ (a.solveBy σ).1.world.neighborsOf f, met g) ∧
    (∀ h ∈ (a.solveBy σ).2.hits, ∃ batch ∈ a.batches a.scan.1, (K batch).hit h) ∧
    (a.solveBy σ).2.groups = [] :=
  passesBy_remembers hK (fun batch hl => hs batch fun n hn => mem_of_mem_batches hl hn)
    (fun batch hl _ hh => ⟨batch, hl, hh⟩) rules_prescan
    (fun f g hg => by simp [World.neighborsOf] at hg) (forall_mem_nil _) σ

theorem runBy_hits : ∀ h ∈ (a.runBy σ).results.hits,
    ∃ batch ∈ a.batches a.scan.1, (K batch).hit h := by
  intro h hh
  unfold runBy at hh
  split at hh
  · cases hh
  · exact (solveBy_remembers hs hK σ).2.1 h (mem_hits_findSources h hh)

/-- **Whatever is reported was observed.** Behind every connection of a run, in whichever order its
tasks are run, is an observation that may be made, and the source is in its history. -/
theorem runBy_backed : ∀ c ∈ (a.runBy σ).results.connections,
    ∃ h, (∃ batch ∈ a.batches a.scan.1, (K batch).hit h) ∧ h.definition = c.sink.definition ∧
      h.stmt = c.sink.stmt ∧ Finder.Backed (a.solveBy σ).1.world h.fact c.source := by
  intro c hc
  obtain ⟨-, hhits, hgroups⟩ := solveBy_remembers hs hK σ
  unfold runBy at hc
  split at hc
  · cases mem_mergeSort.mp hc
  · obtain ⟨h, hh, hd, hn, hback⟩ := (findSources_backed hgroups).connections c hc
    exact ⟨h, hhits h hh, hd, hn, hback⟩

end Runs
end Analysis
end LeakTrace
