import LeakTrace.Proofs.Calls.Rules
import LeakTrace.Proofs.Endpoints
import LeakTrace.Proofs.Evaluation

/-!
# Sources that are solved together

A pass solves a batch of sources: all of them, or one at a time. Calls that are sources of the batch
are not entered unless the configuration wants it, and other sources are calls like any other. So
whatever is observed **stems from sources of one batch, and got there without entering a call of
it**; and solving sources one at a time reports flows through calls that are sources themselves,
which no run that solves them together does.
-/

namespace LeakTrace
open List Track

/-! ## Calls that are not entered -/

section
variable {e : Env} {I : World → Prop} {d1 f : Fact} {s : Stmt} {n : StmtId} {m : MethodId}

theorem Rule.applyCall_of_bars (h : bars e f s) :
    Keeps e I ((applyCall (chain e) d1 f s m).run {}) fun p => p.2.all = true := by
  obtain ⟨rest, hchain⟩ : ∃ rest, chain e = source :: rest := ⟨_, rfl⟩
  unfold applyCall
  rw [hchain, ask_cons, StateT.run_bind]
  refine (source_call_tells {}).bind fun p hp => ?_
  have hall : p.2.all = true := hp.1.mpr (.inr h)
  change Keeps e I (StateT.run (if p.2.all then pure none else _) p.2) _
  rw [if_pos hall]
  exact .pure hall

variable (hclosed : e.config.inspectSources = false) (hn : e.isSource (e.stmt n).id = true)
include hclosed hn

theorem Forward.call_of_isSource : Keeps e I (Forward.call d1 f n m) (·.facts = []) := by
  refine .read (limitReached_keeps.bind fun _ _ => .guard rfl <| .guard rfl ?_)
  have hinto : Keeps e I (intoCallee d1 f (e.stmt n) m) (· = []) := by
    refine .read ((Rule.applyCall_of_bars (.inl ⟨hclosed, hn⟩)).bind ?_)
    rintro ⟨out, kill⟩ (hkill : kill.all = true)
    dsimp only
    rw [if_pos hkill]
    exact .pure rfl
  exact hinto.bind fun _ hset => .pure hset

theorem Backward.call_of_isSource : Keeps e I (Backward.call d1 f n m) (·.facts = []) := by
  refine .read (.guard rfl ?_)
  have hbarred : Keeps e I (isBarred f (e.stmt n) m) (· = true) := by
    refine .read ?_
    rw [if_pos (by simp [hclosed, hn])]
    exact .pure rfl
  refine hbarred.bind ?_
  rintro _ rfl
  exact .pure rfl

theorem Env.not_letsIn_of_isSource {side : Side} : ¬ e.LetsIn side f n m := by
  rintro ⟨d1, w, hfacts⟩
  cases side with
  | forward =>
    exact hfacts (Forward.call_of_isSource (I := fun _ => True) hclosed hn w trivial).1
  | backward =>
    exact hfacts (Backward.call_of_isSource (I := fun _ => True) hclosed hn w trivial).1

end

/-! ## From method to method -/

/-- Data can get from the first method to the second: into a callee, unless the call is closed, or
back to a caller. -/
inductive Graph.Spreads (g : Graph) (closed : List StmtId) : MethodId → MethodId → Prop
  | enter {n : StmtId} {m : MethodId} : g.Calls n m → n ∉ closed → g.Spreads closed (g.methodOf n) m
  | leave {n : StmtId} {m : MethodId} : g.Calls n m → g.Spreads closed m (g.methodOf n)

abbrev Graph.SpreadsTo (g : Graph) (closed : List StmtId) : MethodId → MethodId → Prop :=
  Relation.ReflTransGen (g.Spreads closed)

/-- The calls that a pass over the batch does not enter for being sources. -/
def Env.closedCalls (e : Env) (batch : List StmtId) : List StmtId :=
  if e.config.inspectSources then [] else batch

/-- The origins of the fact are sources of the pass, and data can get from all of them to the
statement. -/
def Env.Supplies (e : Env) (n : StmtId) (f : Fact) : Prop :=
  f.OriginsIn fun x => x.origin.stmt ∈ e.sources ∧
    e.graph.SpreadsTo (e.closedCalls e.sources) (e.graph.methodOf x.origin.stmt) (e.graph.methodOf n)

theorem Env.heritable_supplies {e : Env} (n : StmtId) : Fact.Heritable (e.Supplies n) :=
  Fact.heritable_originsIn

namespace Env.Supplies
variable {e : Env} {n t : StmtId} {f : Fact} (hf : e.Supplies n f)
include hf

theorem stays (h : e.graph.methodOf t = e.graph.methodOf n) : e.Supplies t f := by
  unfold Env.Supplies
  rw [h]
  exact hf

theorem spreads (h : e.graph.Spreads (e.closedCalls e.sources) (e.graph.methodOf n)
    (e.graph.methodOf t)) : e.Supplies t f :=
  hf.mono fun _ hx => ⟨hx.1, hx.2.tail h⟩

end Env.Supplies

/-! ## One pass -/

def Fitness.supplied (e : Env) : Fitness where
  fact _ := e.Supplies
  context := e.graph.Calls

def Memory.supplied (e : Env) : Memory where
  rules := e.pathRules
  edge _ := e.Supplies
  hit h := e.Supplies h.stmt h.fact

/-- Where a fact leaves a method, it is known there and comes to the caller. -/
def Env.Passing (e : Env) (n c : StmtId) (f : Fact) : Prop := e.Supplies n f ∧ e.Supplies c f

section
variable {e : Env} {ρ : MethodId → Region} {k : Nat}
  (hown : ∀ {n m}, (ρ m).stmts n → e.graph.methodOf n = m)
include hown

theorem Fitness.supplied_handedOn (hρ : Partition e ρ) (hz : e.zero = .zero k)
    (hids : ∀ n, (e.stmt n).id = n) : (Fitness.supplied e).HandedOn e.Passing e
      (Memory.supplied e).hit (World.Remembers (.supplied e)) where
  derived _ n := Env.heritable_supplies n
  passing _ _ := fun _ _ hf hg => ⟨hf.1.continues hg, hf.2.continues hg⟩
  zero _ _ := by
    rw [hz]
    exact show e.Supplies _ _ from Fact.originsIn_zero k
  arrives hf := ⟨hf, hf⟩
  returns _ hcall hf := ⟨hf, Env.Supplies.spreads hf (.leave hcall)⟩
  activated i _ hf _ := ⟨hf.1.activate i, hf.2.activate i⟩
  creates {n _ info a i} _ _ hanswer _ := by
    rw [hids] at hanswer ⊢
    have hsource : n ∈ e.sources := List.contains_iff_mem.mp hanswer.1
    have hmade : e.Supplies n (.ofSource i ⟨info.definition, a.toPath, n, none⟩ a.cut false false) :=
      Fact.originsIn_ofSource ⟨hsource, .refl⟩
    exact ⟨hmade, hmade⟩
  records n _ := by
    intro _ _ _ _ _ hg _
    rw [hids]
    exact hg.1
  along ht hf := hf.2.stays (hown (hρ.own_succs ht))
  enter {side n t m _ _} hcall ht hin hg := by
    have hstart : e.graph.methodOf t = m := by
      refine hown ((hρ.contains m).body t ?_)
      cases side with
      | forward => exact List.mem_of_mem_head? (Option.mem_toList.mp ht)
      | backward => exact (List.mem_filter.mp ht).1
    have hopen : n ∉ e.closedCalls e.sources := by
      unfold Env.closedCalls
      split
      · exact List.not_mem_nil
      · next hinspect =>
        intro hn
        refine Env.not_letsIn_of_isSource (by simpa using hinspect) ?_ hin
        rw [hids]
        exact List.contains_iff_mem.mpr hn
    subst hstart
    exact Env.Supplies.spreads hg (.enter hcall hopen)
  back ht hf := Env.Supplies.stays hf (hown (hρ.own_preds ht))
  leave _ hcall ht hf :=
    (Env.Supplies.spreads hf (.leave hcall)).stays (hown (hρ.own_preds ht))
  registers _ := ⟨fun _ _ hw _ => { hw with }, fun _ _ hw _ => { hw with }⟩
  neighbor _ _ hw := hw.addNeighbor _ trivial _
  entry _ := trivial
  exit _ _ _ := trivial
  context _ _ hcall := hcall

theorem Fitness.supplied_asked (hstatic : e.config.staticFields ≠ .insensitive) :
    (Fitness.supplied e).Asked e.Passing e ρ (Message.Allowed (.supplied e)) where
  sends _ _ :=
    { search := fun _ _ hn hg => Env.Supplies.stays (hg.kind.2.deactivate _ _ _) (hown hn)
      pointsTo := fun _ hf hn hg => Env.Supplies.stays (hf.2.makes hg.kind) (hown hn)
      global := fun h => absurd h hstatic }
  hands _ :=
    { here := fun hn hg => Env.Supplies.stays hg.kind (hown hn)
      global := fun h => absurd h hstatic }

end

theorem Setup.bears_supplied {e : Env} (watch : Watch) {p : Program} {k : Nat}
    {extra : List (StmtId × MethodId)} (hp : p.Assembled) (hgraph : e.graph = .ofProgram p extra)
    (hz : e.zero = .zero k) (hstatic : e.config.staticFields ≠ .insensitive)
    (himplicit : e.config.implicitFlows.tracksControlFlow = false) :
    (Setup.ofEnv e watch).Bears (World.Remembers (.supplied e))
      ((Fitness.supplied e).within e (p.regionOf fun _ _ => True)) := by
  have hρ : Partition e (p.regionOf fun _ _ => True) :=
    hp.partition hgraph (fun _ _ _ _ _ => trivial) (fun _ _ _ => trivial) (fun _ _ _ => trivial)
      himplicit
  have hown {n : StmtId} {m : MethodId} (hn : (p.regionOf (fun _ _ => True) m).stmts n) :
      e.graph.methodOf n = m := by
    rw [hgraph]
    exact hn
  exact Setup.bears_remembers hz hρ (fun _ _ => trivial) (fun _ _ => trivial) (fun _ _ _ hf => hf)
    (Fitness.supplied_handedOn hown hρ hz (hp.stmt_ids hgraph))
    (Fitness.supplied_asked hown hstatic)

/-! ## Runs -/

namespace Analysis
variable {a : Analysis}

/-- **Observations stay in a batch.** Take a run in any order, without implicit flows and with static
fields that are tracked along the graph. Whatever is observed at a sink, all origins in the
derivations of the observed fact are sources of one batch, and data can get from there to the sink
without entering a call of the batch, unless sources are looked into. If no facts have met in the
run, the same holds of all connections that are reported. -/
theorem observations_stay_in_a_batch {p : Program} {extra : List (StmtId × MethodId)} {k : Nat}
    (hp : p.Assembled) (hgraph : a.env.graph = .ofProgram p extra) (hz : a.env.zero = .zero k)
    (hstatic : a.env.config.staticFields ≠ .insensitive)
    (himplicit : a.env.config.implicitFlows.tracksControlFlow = false) :
    let g := a.env.graph
    let Supplied (batch : List StmtId) (source sink : StmtId) : Prop := source ∈ batch ∧
      g.SpreadsTo (a.env.closedCalls batch) (g.methodOf source) (g.methodOf sink)
    (∃ σ, a.run = a.runBy σ) ∧ ∀ σ,
      (∀ h ∈ (a.runBy σ).results.hits, ∃ batch ∈ a.batches a.scan.1,
        ∀ f o, h.fact.StemsFrom f → f.origin = some o → Supplied batch o.stmt h.stmt) ∧
      ((∀ f, (a.solveBy σ).1.world.neighborsOf f = []) →
        ∀ c ∈ (a.runBy σ).results.connections, ∃ batch ∈ a.batches a.scan.1,
          Supplied batch c.source.origin.stmt c.sink.stmt) := by
  intro g Supplied
  have hs (sources : List StmtId) (_ : ∀ n ∈ sources, n ∈ a.scan.1) :=
    Setup.bears_supplied (e := (a.passSetup sources a.scan.2.1).env) a.watch hp hgraph hz hstatic
      himplicit
  have hK : Shared a.env.pathRules _ fun sources =>
      .supplied (a.passSetup sources a.scan.2.1).env :=
    ⟨fun _ => rfl, fun _ => rfl, fun _ => trivial⟩
  refine ⟨⟨_, run_eq_runBy⟩, fun σ => ⟨fun h hh => ?_, fun hmet c hc => ?_⟩⟩
  · obtain ⟨batch, hbatch, hsupplied⟩ := runBy_hits hs hK σ h hh
    exact ⟨batch, hbatch, fun f o hf ho => hsupplied f hf o ho⟩
  · obtain ⟨h, ⟨batch, hbatch, hsupplied⟩, -, hn, f, hback, ho, -⟩ := runBy_backed hs hK σ c hc
    rw [← hn]
    exact ⟨batch, hbatch, hsupplied f (hback.stemsFrom hmet) _ ho⟩

/-! ## Solving sources one at a time -/

/-- `main` hands what it gets from a source to `read`, a source that hands its argument to a sink. -/
def reread : Program :=
  let read : MethodRef := ⟨"App", "read", [.int], .int⟩
  let a : Local := ⟨0, "a", .int⟩
  let b : Local := ⟨1, "b", .int⟩
  let p := (Program.empty.openBody ⟨"App", "main", [], .void⟩ true
    [("a", .int), ("b", .int)]).closeBody
    [.assign (.var a) (.call .static ⟨"App", "source", [], .int⟩ none []),
      .assign (.var b) (.call .static read none [.var a]), .retVoid] []
  let p := (p.openBody read true []).closeBody
    [.call ⟨.static, ⟨"App", "sink", [.int], .void⟩, none, [.var ⟨2, "p0", .int⟩]⟩,
      .ret (.const (.int 0))] []
  p.addEntry 0

theorem assembled_reread : reread.Assembled := by
  refine .addEntry 0 (.addBody _ true _ ?_ nofun (.addBody _ true _ ?_ nofun .empty))
  · decide
  · decide

def rereading (oneSourceAtATime : Bool) : Analysis where
  env :=
    { graph := .ofProgram reread []
      oracle := ((({} : Oracle).addSource ⟨"App", "source", [], .int⟩ [.result]).addSource
        ⟨"App", "read", [.int], .int⟩ [.result]).addSink ⟨"App", "sink", [.int], .void⟩ none
      config :=
        { oneSourceAtATime
          solver := { maxPathLength := none, maxJoin := none, maxCallees := none } } }

theorem rereading_sources : ∀ split, (rereading split).scan.1 = [0, 1]
  | false => scan_sources (by decide +kernel) (by decide)
  | true => scan_sources (by decide +kernel) (by decide)

theorem rereading_sinks : ∀ split, (rereading split).scan.2.1 = [4]
  | false => scan_sinks (by decide +kernel) (by decide)
  | true => scan_sinks (by decide +kernel) (by decide)

theorem rereading_reports (split : Bool) :
    ((rereading split).solveBy fun _ => .fixed fun _ => 0).1.executor.queued = [] ∧
      (rereading split).run.results.ends = if split then [(0, 4)] else [] := by
  have hreported : ∀ split, (rereading split).reported (fun _ => 0) 6 [0, 1] [4] =
      some (if split then [(0, 4)] else []) := by
    decide +kernel
  rw [run_eq_fixed]
  obtain ⟨hidle, hends, -⟩ := runBy_of_reported (by decide) (rereading_sources split)
    (rereading_sinks split) (by decide) (hreported split)
  exact ⟨hidle, hends⟩

/-- While the call of `read` is closed, nothing gets from `main` to another method. -/
theorem stays_of_closed_reread {batch : List StmtId} (hclosed : 1 ∈ batch) {m : MethodId}
    (h : (rereading true).env.graph.SpreadsTo batch 0 m) : m = 0 := by
  have hcalls {n : StmtId} {m : MethodId} (h : (rereading true).env.graph.Calls n m) :
      n = 1 ∧ m = 1 :=
    h.of_tables (P := fun n m => n = 1 ∧ m = 1) (by decide +kernel) (by decide +kernel)
  induction h with
  | refl => rfl
  | tail _ hstep ih =>
    subst ih
    generalize hzero : (0 : MethodId) = z at hstep
    cases hstep with
    | enter hcall hopen => exact absurd ((hcalls hcall).1 ▸ hclosed) hopen
    | leave hcall => exact absurd (hzero.trans (hcalls hcall).2) (by decide)

/-- What is observed in `read` is due to the source in `main`, and that only if sources are solved
one at a time; then there is such an observation. -/
theorem rereading_observations : reread.Assembled ∧ (rereading true).run.results.ends = [(0, 4)] ∧
    ∀ split σ, ∀ h ∈ ((rereading split).runBy σ).results.hits, h.stmt = 4 → ∀ f o,
      h.fact.StemsFrom f → f.origin = some o → split = true ∧ o.stmt = 0 := by
  refine ⟨assembled_reread, (rereading_reports true).2, fun split σ h hh hstmt f o hf ho => ?_⟩
  obtain ⟨-, hruns⟩ := observations_stay_in_a_batch (a := rereading split) (k := 0)
    assembled_reread rfl rfl nofun rfl
  obtain ⟨batch, hbatch, hsupplied⟩ := (hruns σ).1 h hh
  obtain ⟨hmem, hspreads⟩ := hsupplied f o hf ho
  rw [hstmt] at hspreads
  rw [rereading_sources] at hbatch
  have hmain : ∀ n ∈ [0, 1], (rereading split).env.graph.methodOf n = 0 := by
    cases split <;> decide +kernel
  rw [hmain o.stmt (mem_of_mem_batches hbatch hmem)] at hspreads
  have hopen : 1 ∉ batch := fun hclosed => absurd (stays_of_closed_reread hclosed hspreads)
    (by cases split <;> decide +kernel)
  cases split with
  | false =>
    rw [mem_singleton.mp hbatch] at hopen
    exact absurd (by decide) hopen
  | true =>
    rcases (mem_cons.mp hbatch).imp_right mem_singleton.mp with rfl | rfl
    · exact ⟨rfl, mem_singleton.mp hmem⟩
    · exact absurd (mem_singleton_self 1) hopen

/-- **Solving sources one at a time makes a difference.** Together they give no connection, and one
at a time the first source is connected to the sink. Both runs have no work left. -/
theorem rereading_split_differs :
    let inOrder (_ : Nat) : Schedule := .fixed fun _ => 0
    (∀ split, (rereading split).run = (rereading split).runBy inOrder ∧
      ((rereading split).solveBy inOrder).1.executor.queued = []) ∧
    (rereading false).run.results.ends = [] ∧ (rereading true).run.results.ends = [(0, 4)] :=
  ⟨fun split => ⟨run_eq_fixed, (rereading_reports split).1⟩, (rereading_reports false).2,
    (rereading_reports true).2⟩

end Analysis
end LeakTrace
