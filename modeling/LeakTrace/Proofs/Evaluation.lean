import LeakTrace.Proofs.Solve.Schedules
import LeakTrace.Proofs.Sources

/-!
# What runs report, by evaluation

Passes that end after a few tasks can be evaluated. So can the search for the sources of what was
observed, as long as no facts have met: it goes along a trail. **What comes out is what the run
reports** (`runBy_of_reported`), for every fixed choice of tasks.
-/

namespace LeakTrace
open List

/-! ## Passes -/

/-- At most `n` tasks, which are given by their places among those that wait. -/
def Schedule.short (p : Nat → Nat) (n : Nat) : Schedule := ⟨fun i _ => p i, n⟩

namespace Analysis

/-- No pass leaves work. -/
def idles (a : Analysis) (σ : Schedule) (sinks : List StmtId) : List (List StmtId) → Machine → Bool
  | [], _ => true
  | sources :: rest, m =>
    let m := a.passBy σ sources sinks m
    m.executor.queued.isEmpty && a.idles σ sinks rest m

/-- The passes of a run, if each of them ends after at most `n` tasks. -/
def shortly (a : Analysis) (p : Nat → Nat) (n : Nat) (sources sinks : List StmtId) :
    Option (Machine × Results) :=
  let start : Machine := { world := { paths := a.scan.2.2 }, cancelled := a.cancelled }
  if a.idles (.short p n) sinks (a.batches sources) start then
    some (a.passesBy (fun _ => .short p n) sinks (a.batches sources) start a.counted)
  else none

variable {a : Analysis} {m : Machine} {p : Nat → Nat} {n : Nat} {sources sinks : List StmtId}
  {r : Results}

theorem passBy_fixed (hn : n ≤ Machine.fuel)
    (hidle : (a.passBy (.short p n) sources sinks m).executor.queued = []) :
    a.passBy (.fixed p) sources sinks m = a.passBy (.short p n) sources sinks m := by
  unfold passBy at hidle ⊢
  dsimp only [Schedule.fixed, Schedule.short] at hidle ⊢
  rw [Machine.executor_modifyTable] at hidle
  rw [Machine.after_of_idle hidle hn]

theorem passesBy_fixed (hn : n ≤ Machine.fuel) {l : List (List StmtId)}
    (hidle : m.executor.queued = []) (h : a.idles (.short p n) sinks l m) :
    a.passesBy (fun _ => .fixed p) sinks l m r = a.passesBy (fun _ => .short p n) sinks l m r ∧
      (a.passesBy (fun _ => .short p n) sinks l m r).1.executor.queued = [] := by
  induction l generalizing m r with
  | nil => exact ⟨rfl, hidle⟩
  | cons sources rest ih =>
    obtain ⟨hidle, h⟩ := Bool.and_eq_true_iff.mp h
    have hidle := isEmpty_iff.mp hidle
    unfold passesBy
    rw [passBy_fixed hn hidle]
    dsimp only
    split
    · -- The run is stopped here, and no pass is left.
      exact ⟨rfl, hidle⟩
    · exact ih hidle h

theorem solveBy_fixed (hn : n ≤ Machine.fuel) (hsources : a.scan.1 = sources)
    (hsinks : a.scan.2.1 = sinks) {last : Machine × Results}
    (h : a.shortly p n sources sinks = some last) :
    a.solveBy (fun _ => .fixed p) = last ∧ last.1.executor.queued = [] := by
  subst hsources hsinks
  dsimp only [shortly] at h
  split at h
  case isFalse => cases h
  case isTrue hidles =>
    cases h
    exact passesBy_fixed hn rfl hidles

theorem run_eq_fixed : a.run = a.runBy fun _ => .fixed fun _ => 0 := run_eq_runBy

/-! ## Sources and sinks -/

theorem mergeSort_eq_of {l k : List StmtId} (h : l = k) (hk : k.Pairwise fun a b => decide (a ≤ b)) :
    l.mergeSort (fun a b => decide (a ≤ b)) = k := by
  rw [h]
  exact mergeSort_of_pairwise hk

theorem scan_sources (hfound : (((a.env.graph.reachable.flatMap fun m =>
      (a.env.method m).body).map a.env.stmt).filterM (m := Paths) fun s => do
        return (← a.env.oracle.source? a.env.program s).isSome).run
          { rules := a.env.pathRules } |>.1.map (·.id) = sources)
    (hsorted : sources.Pairwise fun a b => decide (a ≤ b)) : a.scan.1 = sources :=
  mergeSort_eq_of hfound hsorted

theorem scan_sinks (hfound : (((a.env.graph.reachable.flatMap fun m =>
      (a.env.method m).body).map a.env.stmt).filter fun s =>
        (a.env.oracle.sink? a.env.program s none).isSome).map (·.id) = sinks)
    (hsorted : sinks.Pairwise fun a b => decide (a ≤ b)) : a.scan.2.1 = sinks :=
  mergeSort_eq_of hfound hsorted

end Analysis

/-! ## The search for sources -/

namespace Finder
variable {finder : Finder} {f : Fact} {found : List Found}

/-- The origins along the predecessors of a fact, which all have other numbers. -/
def trail : Nat → Fact → List Nat → List Found → Option (List Found)
  | 0, _, _, _ => none
  | n + 1, f, ids, found =>
    if f.id ∈ ids then none
    else match f.pred with
      | none => some (collect found f)
      | some g => trail n g (f.id :: ids) (collect found f)

theorem visit_of_trail {w : World} (hlim : finder.Unlimited) (hnear : ∀ f, w.neighborsOf f = [])
    {n k : Nat} {seen : Std.HashSet Nat} {ids : List Nat} {all : List Found}
    (hids : ∀ id, id ∈ seen ↔ id ∈ ids) (hall : trail n f ids found = some all) :
    (visit w (n + k + 1) finder [f] seen found).2.1 =
      all.mergeSort fun a b => a.origin.stmt ≤ b.origin.stmt := by
  fun_induction trail n f ids found generalizing finder seen with
  | case1 => cases hall
  | case2 => cases hall
  | case3 n f ids found hid hpred =>
    cases hall
    rw [visit_cons hlim.expired hlim.stopped, if_neg (by simpa [hids] using hid),
      if_neg (by simp [hlim.maxVisited]), linksOf, hnear, hpred, Nat.succ_add]
    unfold visit
    rfl
  | case4 n f ids found hid g hpred ih =>
    have hlim' : Unlimited { finder with visited := finder.visited + 1 } := { hlim with }
    rw [visit_cons hlim.expired hlim.stopped, if_neg (by simpa [hids] using hid),
      if_neg (by simp [hlim.maxVisited]), linksOf, hnear, hpred, Nat.succ_add]
    exact ih hlim' (fun id => by simp [hids, @eq_comm _ id]) hall

theorem find_of_trail {w : World} {x : Found} (hlim : finder.Unlimited)
    (hnear : ∀ f, w.neighborsOf f = []) (hall : trail w.nextId f [] [] = some [x]) :
    (finder.find w f).2.1 = [x] := by
  have hlt : w.nextId < links w := by
    unfold links
    omega
  obtain ⟨k, hk⟩ := Nat.exists_eq_add_of_lt hlt
  rw [find, hk, visit_of_trail hlim hnear (by simp) hall]
  exact mergeSort_singleton x

end Finder

/-- The statements of source and sink of all connections. -/
def Results.ends (r : Results) : List (StmtId × StmtId) :=
  r.connections.map fun c => (c.source.origin.stmt, c.sink.stmt)

namespace Analysis
variable {a : Analysis} {m : Machine} {r : Results} {h : SinkHit} {x : Found} {p : Nat → Nat} {n : Nat}
  {sources sinks : List StmtId}

theorem findSources_single (hhits : r.hits = [h]) (hgroups : r.groups = [])
    (hfound : ((a.finder m.cancelled).find m.world h.fact).2.1 = [x]) :
    (a.findSources m r).groups = [⟨.ofHit h, [x]⟩] ∧ (a.findSources m r).hits = [h] := by
  have hpruned : SinkHit.pruned [h] = [h] := by simp [SinkHit.pruned, SinkHit.covers]
  unfold findSources
  rw [hhits, hpruned]
  simp only [isEmpty_cons, Bool.false_eq_true, if_false, Finder.findAll, foldl_cons, foldl_nil,
    nil_append, mergeSort_singleton, hfound, Results.add, hgroups, any_nil, map_cons, map_nil,
    and_self]

/-- The ends of the connections that are reported after the passes. An answer is only given if no
facts have met, the search has no limits and there is at most one connection. -/
def endsOf (a : Analysis) (m : Machine) (r : Results) : Option (List (StmtId × StmtId)) :=
  if m.world.neighbors.keys = [] ∧ r.groups = [] ∧ (a.finder m.cancelled).Unlimited then
    match r.hits with
    | [] => some []
    | [h] =>
      match Finder.trail m.world.nextId h.fact [] [] with
      | some [x] => some [(x.origin.stmt, h.stmt)]
      | _ => none
    | _ => none
  else none

theorem ends_findSources {ends : List (StmtId × StmtId)} (h : a.endsOf m r = some ends) :
    (a.findSources m r).ends = ends ∧
      (a.findSources m r).hits.map (·.stmt) = ends.map (·.2) ∧
      ∀ f, m.world.neighborsOf f = [] := by
  unfold endsOf at h
  split at h
  case isFalse => cases h
  case isTrue hplain =>
  obtain ⟨hkeys, hgroups, hlim⟩ := hplain
  have hnear : ∀ f, m.world.neighborsOf f = [] := by
    intro f
    simp [World.neighborsOf, Index.getElem?_eq_none.mpr (Index.not_mem_of_keys hkeys)]
  rw [← and_assoc]
  refine ⟨?_, hnear⟩
  split at h
  · next hhits =>
    cases h
    have hnone : a.findSources m r = { r with hits := [] } := by
      simp [findSources, hhits, SinkHit.pruned]
    rw [hnone]
    simp [Results.ends, Results.connections, hgroups]
  · next hit hhits =>
    split at h
    case h_2 => cases h
    case h_1 x htrail =>
    cases h
    have hfound := Finder.find_of_trail hlim hnear htrail
    obtain ⟨hgroups, hhits⟩ := findSources_single hhits hgroups hfound
    simp [Results.ends, Results.connections, hgroups, hhits, ResultSink.ofHit]
  · cases h

/-- The ends of the connections that a run of few tasks reports. -/
def reported (a : Analysis) (p : Nat → Nat) (n : Nat) (sources sinks : List StmtId) :
    Option (List (StmtId × StmtId)) :=
  (a.shortly p n sources sinks).bind fun (m, r) => a.endsOf m r

/-- **What is evaluated is what is reported.** -/
theorem runBy_of_reported (hn : n ≤ Machine.fuel) (hsources : a.scan.1 = sources)
    (hsinks : a.scan.2.1 = sinks) (hsome : sources ≠ [] ∧ sinks ≠ [])
    {ends : List (StmtId × StmtId)} (h : a.reported p n sources sinks = some ends) :
    let results := (a.runBy fun _ => .fixed p).results
    (a.solveBy fun _ => .fixed p).1.executor.queued = [] ∧ results.ends = ends ∧
      results.hits.map (·.stmt) = ends.map (·.2) ∧
      ∀ f, (a.solveBy fun _ => .fixed p).1.world.neighborsOf f = [] := by
  obtain ⟨⟨m, r⟩, hlast, h⟩ := Option.bind_eq_some_iff.mp h
  obtain ⟨hsolve, hidle⟩ := solveBy_fixed hn hsources hsinks hlast
  unfold runBy
  rw [if_neg (by simp [hsources, hsinks, hsome]), hsolve]
  exact ⟨hidle, ends_findSources h⟩

end Analysis
end LeakTrace
