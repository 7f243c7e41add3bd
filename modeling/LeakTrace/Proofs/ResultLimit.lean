import LeakTrace.Proofs.Activation
import LeakTrace.Proofs.Evaluation
import LeakTrace.Proofs.Graph.Layout
import LeakTrace.Proofs.Reports
import LeakTrace.Proofs.Solve.Moves

/-!
# No more results than were asked for

Flow functions look whether the limit on results is reached before they enter, leave or pass a call,
and results are recorded there only: a statement that is a sink and no call is a return, which has
no successor. One evaluation can record more than once, by two rules, but **it records the same fact
at the same sink, so it adds one result at most**; a pass therefore never has more results than the
limit allows.

The results of a pass are its own. Where sources are solved one at a time, every pass starts from
none, and the limit holds for each of them only.
-/

namespace LeakTrace
open List Track
open Region (whole whole_closed sends_all)

variable {e : Env} {k : Nat} {w : World} {f d1 : Fact} {s : Stmt} {extra : List (StmtId × MethodId)}
  {p : Program} {n t : StmtId} {I : World → Prop}

/-! ## Sinks -/

theorem Graph.returned?_of_mem_succs (ht : t ∈ (ofProgram p extra).forward.succs n) :
    (p.stmt n).returned? = none := by
  obtain ⟨M, -, x, hx, ht⟩ := mem_succs ht
  obtain ⟨-, next, -, rfl⟩ := Method.mem_exitsOfList hx
  unfold Stmt.returned?
  split
  · next v hret =>
    simp [Method.exitsOf, Exits.all, Action.successors, Stmt.isThrow, Stmt.isCall, Stmt.call?,
      hret] at ht
  · rfl

/-! ## One evaluation -/

structure SinkHit.Observes (e : Env) (s : Stmt) (t : Taint) (h : SinkHit) : Prop where
  stmt : h.stmt = s.id
  taint : h.fact.toTaint = t
  definition : e.oracle.sink? e.program s none = some h.definition

theorem SinkHit.Observes.same {t : Taint} {h h' : SinkHit} (hh : h.Observes e s t)
    (hh' : h'.Observes e s t) : h.same h' := by
  have hdefinition : h.definition = h'.definition :=
    Option.some.inj (hh.definition.symm.trans hh'.definition)
  simp [SinkHit.same, Fact.same, hdefinition, hh.stmt, hh'.stmt, hh.taint, hh'.taint]

theorem Stmt.welcomes_observed : s.Welcomes e (SinkHit.Observes e s (f.observedAt s.id)) f :=
  fun _ _ _ _ hd _ _ htaint => ⟨rfl, htaint, Oracle.sink?_none_of_path hd⟩

/-- It does not matter to what is recorded which identity the fact got when it became active. -/
theorem Fact.observedAt_activate (f : Fact) (i : Nat) (n : StmtId) :
    (f.activate i).observedAt n = (f.activate 0).observedAt n := by
  unfold activate
  split
  · rfl
  · simp only [observedAt, move, next, accessPath, reduceCtorEq, beq_iff_eq, Bool.and_eq_true,
      and_false, if_false]
    rfl

/-- A call records an active fact only, so it does not matter either whether it made it active. -/
theorem Track.activateAt_welcomes (hI : World.Unmoved I) : Keeps e I (activateAt f n) fun now =>
    s.Welcomes e (SinkHit.Observes e s ((f.activate 0).observedAt s.id)) now := by
  have hactivate : Keeps e I (do return f.activate (← fresh)) fun now =>
      s.Welcomes e (SinkHit.Observes e s ((f.activate 0).observedAt s.id)) now := by
    refine (fresh_fits hI).bind fun i _ => .pure ?_
    rw [← f.observedAt_activate i]
    exact Stmt.welcomes_observed
  refine .dite (fun hactive => .pure ?_) fun hwaits => .ite hactivate ?_
  · rw [show f.activate 0 = f from if_pos hactive]
    exact Stmt.welcomes_observed
  · refine isActivating_fits.bind fun _ _ => .ite hactivate <| .pure ?_
    exact fun hactive => absurd hactive hwaits

/-- There are at most `k` results, or one more that is as `R` says. -/
def World.RoomFor (R : SinkHit → Prop) (k : Nat) (w : World) : Prop :=
  w.results.length ≤ k ∨ w.results.length ≤ k + 1 ∧ ∃ h ∈ w.results, R h

theorem Upkeep.unrecorded (k : Nat) :
    Upkeep e (fun _ => True) (fun _ => False) fun w => w.results.length ≤ k where
  rest hw h := by
    rw [h.results]
    exact hw
  hit _ hR := hR.elim

theorem Upkeep.roomFor {R : SinkHit → Prop} (hR : ∀ h h', R h → R h' → h.same h') (k : Nat) :
    Upkeep e (fun _ => True) R (World.RoomFor R k) where
  rest hw h := by
    unfold World.RoomFor
    rw [h.results]
    exact hw
  hit {w h} hw hh hnew := by
    rcases hw with hw | ⟨-, old, hold, hsame⟩
    · refine .inr ⟨?_, h, mem_append_right _ mem_cons_self, hh⟩
      rw [length_append]
      exact Nat.succ_le_succ hw
    · exact absurd (hR h old hh hsame) (List.find?_eq_none.mp hnew old hold)

theorem Stmt.suits_all (s : Stmt) : s.Suits e (fun _ => True) I whole fun _ => True :=
  ⟨fun _ _ _ _ => trivial, sends_all⟩

namespace Forward
variable {m : MethodId}

section
variable (hk : e.config.stopAfter = k) (hpos : 0 < k)
include hk hpos

/-- A flow function that looks at the limit first, and records one taint at one statement, stays
within the limit. -/
theorem keeps_limit_of {rest : Env → Track Flow} {t : Taint}
    (hact : ∀ {I}, Upkeep e (fun _ => True) (SinkHit.Observes e s t) I →
      Keeps e I (do
        let e ← read
        if ← limitReached then return Flow.silent
        rest e)) :
    Keeps e (fun w => w.results.length ≤ k) (do
      let e ← read
      if ← limitReached then return Flow.silent
      rest e) := by
  intro w hw
  refine ⟨trivial, ?_⟩
  by_cases hfull : k ≤ w.results.length
  · have hreached : Keeps e (· = w) limitReached (·) := by
      refine .read (.get ?_)
      rintro _ rfl
      refine .pure ?_
      simp [hk, hpos, hfull]
    have hsilent := Keeps.read (e := e) (f := fun e => do
      if ← limitReached then return Flow.silent
      rest e) (hreached.bind fun _ hyes =>
        .dite (fun _ => .pure (Q := fun _ => True) trivial) fun hno => absurd hyes hno)
    rw [(hsilent w rfl).2]
    exact hw
  · have hroom : Upkeep e _ (SinkHit.Observes e s t) _ :=
      .roomFor (fun _ _ => SinkHit.Observes.same) (k - 1)
    rcases (hact hroom w (.inl (by omega))).2 with h | ⟨h, -⟩
    · exact h.trans (Nat.sub_le k 1)
    · omega

theorem callToReturn_keeps_limit :
    Keeps e (fun w => w.results.length ≤ k) (callToReturn d1 f n) := by
  refine keeps_limit_of hk hpos (s := e.stmt n) (t := (f.activate 0).observedAt (e.stmt n).id) ?_
  intro I hI
  refine (callToReturn_fits (r := whole) (H := fun _ => True) hI (fun _ _ _ _ => trivial)
    whole_closed (Stmt.suits_all _) trivial ?_).mono fun _ _ => trivial
  exact (activateAt_welcomes hI.unmoved).mono fun _ hnow => ⟨Fact.fits_whole trivial, hnow⟩

theorem ret_keeps_limit {call site : Option StmtId} {exit : StmtId} {contexts : List Fact} :
    Keeps e (fun w => w.results.length ≤ k) (ret call m exit site f d1 contexts) := by
  cases call with
  | none =>
    refine keeps_limit_of hk hpos (s := e.stmt exit) (t := f.observedAt (e.stmt exit).id) ?_
    intro I hI
    exact (ret_none_fits (r := whole) (H := fun _ => True) hI (fun _ _ _ _ => trivial)
      whole_closed Stmt.welcomes_observed trivial).mono fun _ _ => trivial
  | some cs =>
    refine keeps_limit_of hk hpos (s := e.stmt exit)
      (t := (f.activate 0).observedAt (e.stmt exit).id) ?_
    intro I hI
    refine (ret_fits (r := whole) (H := fun _ => True) hI (fun _ _ _ _ => trivial)
      whole_closed sends_all trivial ?_).mono fun _ _ => trivial
    exact (activateAt_welcomes hI.unmoved).mono fun _ hnow => ⟨trivial, hnow⟩

end

/-- Where execution goes on after a statement that is no call there is no sink. -/
theorem normal_keeps_limit (hgraph : e.graph = .ofProgram p extra)
    (hcall : e.graph.isCall n = false) (ht : t ∈ e.graph.forward.succs n) :
    Keeps e (fun w => w.results.length ≤ k) (normal d1 f n t) := by
  have hnone : (e.stmt n).returned? = none := by
    rw [hgraph] at ht
    have hret := Graph.returned?_of_mem_succs ht
    rwa [← Graph.program_ofProgram p extra, ← hgraph] at hret
  have hplain : (e.stmt n).call? = none :=
    Option.isNone_iff_eq_none.mp (Option.isSome_eq_false_iff.mp hcall)
  have hsink : ∀ g, True → (e.stmt n).Welcomes e (fun _ => False) g := by
    intro g _ _ _ d path hd
    simp [Oracle.sink?, hplain, hnone] at hd
  exact (normal_fits (r := whole) (H := fun _ => True) (Upkeep.unrecorded k)
    (fun _ _ _ _ => trivial) whole_closed (Stmt.suits_all _) hsink
    (Fact.fits_whole trivial) (fun _ _ => trivial) (fun _ => trivial) trivial).mono
      fun _ _ => trivial

theorem call_keeps_limit : Keeps e (fun w => w.results.length ≤ k) (call d1 f n m) :=
  (call_fits (H := fun _ => True) (Upkeep.unrecorded k) (fun _ _ _ _ => trivial)
    whole_closed Region.whole_contains (fun _ _ hw => hw) trivial).mono fun _ _ => trivial

end Forward

theorem Backward.Of.keeps_limit {act : Track Flow} (hact : Backward.Of d1 f act) :
    Keeps e (fun w => w.results.length ≤ k) act :=
  (hact.fits (H := fun _ => True) (Upkeep.unrecorded k) (fun _ _ _ _ => trivial)
    (fun _ _ hw => hw) ⟨fun _ _ => trivial, fun _ _ => trivial⟩ trivial).mono fun _ _ => trivial

/-! ## Runs -/

theorem Setup.preserves_limit {watch : Watch} (hgraph : e.graph = .ofProgram p extra)
    (hk : e.config.stopAfter = k) (hpos : 0 < k) :
    (Setup.ofEnv e watch).Preserves fun m => m.world.results.length ≤ k := by
  refine Setup.preservesOn_world (J := fun w => w.results.length ≤ k) (fun w f g merge hw => ?_)
    (fun w hw => hw) ?_
  · obtain ⟨n, hn⟩ := w.addNeighbor_eq f g merge
    rw [hn]
    exact hw
  · rintro act ⟨side, ed, hact⟩
    cases hact with
    | normal hcall ht =>
      cases side with
      | forward => exact Forward.normal_keeps_limit hgraph hcall ht
      | backward => exact (Backward.Of.normal _ _).keeps_limit
    | call m =>
      cases side with
      | forward => exact Forward.call_keeps_limit
      | backward => exact (Backward.Of.call _ _).keeps_limit
    | ret other call m exit site f d1 contexts =>
      cases other with
      | forward => exact Forward.ret_keeps_limit hk hpos
      | backward => exact (Backward.Of.ret _ _ _).keeps_limit
    | callToReturn t =>
      cases side with
      | forward => exact Forward.callToReturn_keeps_limit hk hpos
      | backward => exact (Backward.Of.callToReturn _).keeps_limit

theorem Finder.length_foldl {step : Finder × List Search → SinkHit → Finder × List Search}
    (hstep : ∀ acc hit, (step acc hit).2.length = acc.2.length + 1) (hits : List SinkHit)
    (acc : Finder × List Search) : (hits.foldl step acc).2.length = acc.2.length + hits.length := by
  induction hits generalizing acc with
  | nil => rfl
  | cons hit rest ih =>
    rw [foldl_cons, ih, hstep, length_cons]
    exact Nat.add_right_comm _ _ _

theorem Finder.length_findAll {finder : Finder} {hits : List SinkHit} :
    (finder.findAll w hits).2.length = hits.length := by
  refine (length_mergeSort _).trans ?_
  rw [Finder.length_foldl fun acc hit => length_append]
  exact Nat.zero_add _

namespace Analysis
variable {a : Analysis} {sources sinks : List StmtId}

theorem length_hits_findSources {m : Machine} {r : Results} :
    (a.findSources m r).hits.length = (SinkHit.pruned r.hits).length := by
  unfold findSources
  dsimp only
  split
  · next hnone => rw [List.isEmpty_iff.mp hnone]
  · rw [Results.hits_addSearches, length_map, Finder.length_findAll]

section
variable (hgraph : a.env.graph = .ofProgram p extra) (hpos : 0 < a.env.config.stopAfter)
include hgraph hpos

theorem passBy_limit (σ : Schedule) (sources sinks : List StmtId) (m : Machine) :
    (a.passBy σ sources sinks m).world.results.length ≤ a.env.config.stopAfter := by
  have hs : (a.passSetup sources sinks).Preserves fun m =>
      m.world.results.length ≤ a.env.config.stopAfter := Setup.preserves_limit hgraph rfl hpos
  have hstart : (a.applyBudgets (a.passSetup sources sinks).sides
      (nextMachine m)).world.results.length ≤ a.env.config.stopAfter := by
    rw [world_applyBudgets]
    exact Nat.zero_le _
  unfold passBy
  dsimp only
  rw [Machine.world_modifyTable]
  exact hs.after (Work.seed_preserves hs _ hstart).1 σ.pick σ.tasks

theorem passesBy_limit (σ : Nat → Schedule) (l : List (List StmtId)) (m : Machine) (r : Results) :
    (a.passesBy σ sinks l m r).2.hits.length ≤
      r.hits.length + a.env.config.stopAfter * l.length := by
  induction l generalizing m r with
  | nil => exact Nat.le_add_right _ _
  | cons sources rest ih =>
    have hpass := passBy_limit hgraph hpos (σ rest.length) sources sinks m
    unfold passesBy
    dsimp only
    rw [length_cons, Nat.mul_succ]
    split
    · rw [length_append]
      omega
    · refine (ih _ _).trans ?_
      rw [length_append]
      omega

theorem runBy_limit (σ : Nat → Schedule) :
    (a.runBy σ).results.hits.length ≤ a.env.config.stopAfter * (a.batches a.scan.1).length := by
  unfold runBy
  split
  · exact Nat.zero_le _
  · refine length_hits_findSources.le.trans ((length_filter_le _ _).trans ?_)
    exact (passesBy_limit hgraph hpos σ _ _ _).trans (Nat.zero_add _).le

end

/-- **The limit holds for each pass.** Where sources are solved together no more results are
reported than were asked for; where they are solved one at a time, no more than that for each
source. Tasks may be run in any order. -/
theorem hits_within_limit_of_each_pass {a : Analysis} {p : Program}
    {extra : List (StmtId × MethodId)} (hgraph : a.env.graph = .ofProgram p extra)
    (hpos : 0 < a.env.config.stopAfter) (σ : Nat → Schedule) :
    (a.runBy σ).results.hits.length ≤
      a.env.config.stopAfter * if a.env.config.oneSourceAtATime then a.scan.1.length else 1 := by
  refine (runBy_limit hgraph hpos σ).trans (Nat.mul_le_mul_left _ (Nat.le_of_eq ?_))
  unfold batches
  split
  · exact length_map _
  · rfl

end Analysis

/-! ## Two passes -/

namespace Analysis
variable {m : Machine}

def twoLeaks : Program :=
  let text : Ty := .cls "java.lang.String"
  let x : Local := ⟨0, "x", text⟩
  let y : Local := ⟨1, "y", text⟩
  let source : Value := .call .static ⟨"App", "source", [], text⟩ none []
  let sink (v : Local) : Action := .call ⟨.static, ⟨"App", "sink", [text], .void⟩, none, [.var v]⟩
  let p := Program.empty.openBody ⟨"App", "main", [], .void⟩ true [("x", text), ("y", text)]
  (p.closeBody [.assign (.var x) source, sink x, .assign (.var y) source, sink y, .retVoid]
    []).addEntry 0

def leaky : Analysis where
  env :=
    { graph := .ofProgram twoLeaks []
      oracle := (({} : Oracle).addSource ⟨"App", "source", [], .cls "java.lang.String"⟩
        [.result]).addSink ⟨"App", "sink", [.cls "java.lang.String"], .void⟩ none
      config := { stopAfter := 1, oneSourceAtATime := true, solver := { maxPathLength := none } } }

theorem leaky_sources : leaky.scan.1 = [0, 2] := scan_sources (by decide +kernel) (by decide)

theorem leaky_sinks : leaky.scan.2.1 = [1, 3] := scan_sinks (by decide +kernel) (by decide)

/-- One result for each of the two sources. -/
theorem leaky_within_limit_of_each_pass : leaky.env.graph = .ofProgram twoLeaks
    [] ∧ leaky.env.config.stopAfter = 1 ∧ ∀ σ, (leaky.runBy σ).results.hits.length ≤ 2 := by
  refine ⟨rfl, rfl, fun σ => ?_⟩
  have hlimit := hits_within_limit_of_each_pass (a := leaky) (p := twoLeaks) rfl (by decide) σ
  rw [leaky_sources] at hlimit
  exact hlimit

/-- **The limit starts over with every pass.** One result is asked for, and two are reported. -/
theorem leaky_reports_two : leaky.env.config.stopAfter = 1 ∧ leaky.run.results.hits.length = 2 := by
  refine ⟨rfl, ?_⟩
  have hpasses : (leaky.shortly (fun _ => 0) 2 [0, 2] [1, 3]).any fun last =>
      (SinkHit.pruned last.2.hits).length == 2 := by
    decide +kernel
  obtain ⟨last, hlast, hlength⟩ := (Option.any_eq_true _ _).mp hpasses
  obtain ⟨hsolve, -⟩ := solveBy_fixed (by decide) leaky_sources leaky_sinks hlast
  rw [run_eq_fixed]
  unfold runBy
  rw [if_neg (by rw [leaky_sources, leaky_sinks]; decide), length_hits_findSources, hsolve]
  exact beq_iff_eq.mp hlength

end Analysis
end LeakTrace
