import LeakTrace.Proofs.Calls.Fields
import LeakTrace.Proofs.Graph.Layout
import LeakTrace.Proofs.Scope.Runs

/-!
# Solvers at calls

A task at a call enters the callees and goes past the call, and each of the two is decided without
the other. A tainted field that the callees carry does not go past; **if the solver then does not
enter them, because there are too many, the taint is lost.** Otherwise it is known after the task at
all return sites or at the start of every callee that sees it.
-/

namespace LeakTrace
open Machine Track

variable {e : Env} {I : World → Prop} {F : Fitness} {K : Side → Edge.Key → Prop} {f d1 g : Fact}
  {n : StmtId} {m : Machine} {w : World} {r : PathRules} {c : Call} {s : Setup} {side : Side}
  {k i : Nat} {ed : Edge} {Q : Machine → Prop} {callee : MethodId}

/-! ## Worlds -/

/-- Calls are entered, and paths are made by the given rules. -/
structure World.Open (r : PathRules) (w : World) : Prop where
  sinks : w.rules.sinksClosed = false
  rules : w.paths.rules = r

theorem Upkeep.lasting_open (hlimit : e.resultLimit = none) :
    Upkeep.Lasting e (fun _ => True) (fun _ => True) (World.Open r) where
  rest hw h := ⟨h.sinksClosed.trans hw.sinks, h.pathRules.trans hw.rules⟩
  send hw _ := ⟨hw.sinks, hw.rules⟩
  hit hw _ _ := ⟨hw.sinks, hw.rules⟩
  again hw _ _ := World.addNeighbor_of fun _ => ⟨hw.sinks, hw.rules⟩
  close _ _ h := absurd h (by simp [hlimit])
  global := addGlobal_of_send (M := fun _ => True) (fun _ _ hw => ⟨hw.sinks, hw.rules⟩)
    fun _ _ hw _ => ⟨hw.sinks, hw.rules⟩
  emptied _ hw := ⟨hw.sinks, hw.rules⟩
  covered _ _ hw := ⟨hw.sinks, hw.rules⟩

/-! ## What a task achieves -/

/-- The taint is known at the start of the callee, as one of the paths. -/
def Machine.Entered (m : Machine) (e : Env) (f : Fact) (ps : List AccessPath) (callee : MethodId) :
    Prop :=
  ∃ g, f.EntersAs ps g ∧
    ∀ start ∈ e.graph.forward.starts callee, m.Has .forward (g.toTaint, start, g.toTaint)

theorem Setup.Admits.stored (hg : s.Admits g) (hf : s.Admits f) : s.Admits (g.stored f) :=
  Fact.stored_of hg hf

namespace Work
section
variable (hs : s.Bears I F) (hwatch : s.watch.failAt = none) (hm : m.Bears s I F K)
  {facts : FactSet}
include hs hwatch hm

theorem propagateAll_has (hfacts : ∀ g ∈ facts, F.fact side n (g.stored f)) (hf : f ∈ facts)
    (hlength : s.Admits f) {call : Option StmtId} :
    m.Ends s (propagateAll side d1 n f call facts) fun _ m' =>
      m'.Bears s I F m.Has ∧ m'.Has side (d1.toTaint, n, f.toTaint) := by
  refine (hm.ends_forM (Q := fun g m' => g = f → m'.Has side (d1.toTaint, n, f.toTaint))
    (fun hq hgrow heq => hgrow _ _ (hq heq)) fun g hg a ha => ?_).mono fun _ m' hm' =>
      ⟨hm'.1, hm'.2 f hf rfl⟩
  have hfit := hfacts g hg
  by_cases heq : g = f
  · subst heq
    refine (ha.has_propagate hs hfit (hlength.stored hlength)).mono fun _ b hb =>
      ⟨hb.1, fun _ => ?_⟩
    have hhas := hb.2
    rwa [Edge.key, Fact.toTaint_stored] at hhas
  · exact (ha.ends (propagate_bears hs hfit) hwatch).mono fun _ b hb =>
      ⟨hb.1, fun h => absurd h heq⟩

variable (hcall : F.context ed.stmt callee)
include hcall

theorem enterWith_has
    (hf : ∀ t ∈ (s.problem side).view.starts callee, F.fact side t (f.stored ed.d2))
    (hlength : s.Admits (f.stored ed.d2)) :
    m.Ends s (enterWith s side callee ed.stmt ed.d1 (f.stored ed.d2)) fun _ m' =>
      m'.Bears s I F m.Has ∧
        ∀ t ∈ (s.problem side).view.starts callee, m'.Has side (f.toTaint, t, f.toTaint) := by
  rw [ends_bind]
  refine (hm.ends_forM (Q := fun t m' => m'.Has side (f.toTaint, t, f.toTaint))
    (fun hq hgrow => hgrow _ _ hq) fun t ht a ha => ?_).mono fun _ a ha => ?_
  · refine (ha.has_propagate hs (hf t ht) hlength).mono fun _ b hb => ⟨hb.1, ?_⟩
    have hhas := hb.2
    rwa [Edge.key, Fact.toTaint_stored] at hhas
  · refine (ha.1.ends (hs.carries.enter hcall) hwatch).mono fun _ b hb => ?_
    exact ⟨hb.1.trans ha.1, fun t ht => hb.1.known _ _ (ha.2 t ht)⟩

theorem enterAll_has
    (hfit : ∀ g ∈ facts, ∀ t ∈ (s.problem side).view.starts callee, F.fact side t (g.stored ed.d2))
    (hf : f ∈ facts) (hlength : s.Admits (f.stored ed.d2)) :
    m.Ends s (facts.forM fun g => enterWith s side callee ed.stmt ed.d1 (g.stored ed.d2))
      fun _ m' => m'.Bears s I F m.Has ∧
        ∀ t ∈ (s.problem side).view.starts callee, m'.Has side (f.toTaint, t, f.toTaint) := by
  -- The round for `f` makes it known, and no other round takes that back.
  refine (hm.ends_forM (Q := fun x m' => x = f → ∀ t ∈ (s.problem side).view.starts callee,
    m'.Has side (f.toTaint, t, f.toTaint)) (fun hq hgrow heq t ht => hgrow _ _ (hq heq t ht))
      fun x hx b hb => ?_).mono fun _ b hb => ⟨hb.1, hb.2 f hf rfl⟩
  by_cases heq : x = f
  · subst heq
    exact (enterWith_has hs hwatch hb hcall (hfit x hx) hlength).mono fun _ _ h =>
      ⟨h.1, fun _ => h.2⟩
  · exact (hb.ends (hs.carries.enterWith hcall (hfit x hx)) hwatch).mono fun _ _ h =>
      ⟨h.1, fun hx => absurd hx heq⟩

end

section Call
variable (hs : s.Bears I F) (hwatch : s.watch = {}) (hm : m.Bears s I F K)
  (he : F.fact side ed.stmt ed.d2)
include hs hwatch hm he

section
variable (hlength : s.Admits ed.d2)
include hlength

theorem processCallee_has {callee : MethodId} (hcall : F.context ed.stmt callee)
    (hbody : (s.env.method callee).isConcrete) {P : Fact → Prop} (hP : ∀ g, P g → s.Admits g)
    (hfinds : Track.Keeps s.env I ((s.problem side).call ed.d1 ed.d2 ed.stmt callee) fun o =>
      ∃ g ∈ o.facts, P g) :
    m.Ends s (processCallee side ed callee) fun _ m' => m'.Bears s I F m.Has ∧
      ∃ g, P g ∧
        ∀ t ∈ (s.problem side).view.starts callee, m'.Has side (g.toTaint, t, g.toTaint) := by
  have hfail : s.watch.failAt = none := by rw [hwatch]
  have hflow : Keeps s (Machine.Bears s I F m.Has) (callFlow side ed.d1 ed.d2 ed.stmt callee)
      fun facts => (∀ g ∈ facts, ∀ t ∈ (s.problem side).view.starts callee,
        F.fact side t (g.stored ed.d2)) ∧
        ∃ g ∈ facts, P g :=
    hs.callFlow hcall ((hs.call he hcall).and hfinds) fun h => absurd (by rw [hwatch]) h
  unfold processCallee
  simp only [ends_bind, ends_read]
  rw [if_neg (by simp [hbody])]
  rw [ends_bind]
  refine (hm.ends hflow hfail).mono ?_
  rintro facts a ⟨ha, hfit, g, hg, hPg⟩
  refine (enterAll_has hs hfail ha hcall hfit hg ((hP g hPg).stored hlength)).mono fun _ b hb => ?_
  exact ⟨hb.1.trans ha, g, hPg, hb.2⟩

theorem passCall_has {site : StmtId} (hsite : site ∈ (s.problem side).view.succs ed.stmt)
    (hpast : Track.Keeps s.env I ((s.problem side).callToReturn ed.d1 ed.d2 ed.stmt site) fun o =>
      ed.d2 ∈ o.facts) : m.Ends s (passCall s side ed site) fun _ m' =>
      m'.Bears s I F m.Has ∧ m'.Has side (ed.d1.toTaint, site, ed.d2.toTaint) := by
  have hfail : s.watch.failAt = none := by rw [hwatch]
  have hflow : Keeps s (Machine.Bears s I F m.Has) (evaluate .callToReturn ed.d2
      ((s.problem side).callToReturn ed.d1 ed.d2 ed.stmt site)) fun o =>
        (∀ g ∈ o.facts, F.fact side site (g.stored ed.d2)) ∧ ed.d2 ∈ o.facts :=
    evaluate_bears hs ((hs.callToReturn he hsite).and hpast) fun h => absurd (by rw [hwatch]) h
  rw [ends_bind]
  refine (hm.ends hflow hfail).mono fun flow a ⟨ha, hfit, hmem⟩ => ?_
  refine (propagateAll_has hs hfail ha hfit hmem hlength).mono fun _ b hb => ?_
  exact ⟨hb.1.trans ha, hb.2⟩

theorem processCall_has_sites (hpast : ∀ site ∈ (s.problem side).view.succs ed.stmt,
      Track.Keeps s.env I ((s.problem side).callToReturn ed.d1 ed.d2 ed.stmt site) fun o =>
        ed.d2 ∈ o.facts) :
    m.Ends s (processCall side ed) fun _ m' => ∀ site ∈ (s.problem side).view.succs ed.stmt,
      m'.Has side (ed.d1.toTaint, site, ed.d2.toTaint) := by
  have hsites : ∀ a : Machine, a.Bears s I F m.Has → a.Ends s
      (((s.problem side).view.succs ed.stmt).forM (passCall s side ed)) fun _ m' =>
          ∀ site ∈ (s.problem side).view.succs ed.stmt,
            m'.Has side (ed.d1.toTaint, site, ed.d2.toTaint) := by
    intro a ha
    refine (ha.ends_forM (Q := fun site m' => m'.Has side (ed.d1.toTaint, site, ed.d2.toTaint))
      (fun hq hgrow => hgrow _ _ hq) fun site hsite b hb => ?_).mono fun _ _ h => h.2
    exact passCall_has hs hwatch hb he hlength hsite (hpast site hsite)
  unfold processCall
  simp only [ends_bind, ends_read]
  split
  · -- Entering the callees first does not hinder.
    rw [ends_bind]
    refine (hm.ends (.forM fun _ => (hs.carriesAt he).processCallee) (by rw [hwatch])).mono ?_
    exact fun _ a ha => hsites a ha.1
  · exact hsites m (hm.weaken fun _ _ hk => hk)

end

theorem processCall_has_callees {Q : MethodId → Machine → Prop}
    (hfan : s.env.config.solver.maxCallees.all ((s.env.graph.calleesOf ed.stmt).length ≤ ·))
    (hstable : ∀ {x a b}, Q x a → (∀ side k, a.Has side k → b.Has side k) → Q x b)
    (hcallee : ∀ callee ∈ s.env.graph.calleesOf ed.stmt, ∀ a : Machine,
      a.Bears s I F (fun _ _ => False) →
        a.Ends s (processCallee side ed callee) fun _ b => b.Bears s I F a.Has ∧ Q callee b) :
    m.Ends s (processCall side ed) fun _ m' => ∀ callee ∈ s.env.graph.calleesOf ed.stmt,
      Q callee m' := by
  unfold processCall
  simp only [ends_bind, ends_read]
  rw [if_pos hfan, ends_bind]
  refine (hm.ends_forM (Q := Q) hstable hcallee).mono fun _ a ha => ?_
  refine (ha.1.ends (.forM fun _ => (hs.carriesAt he).passCall) (by rw [hwatch])).mono ?_
  exact fun _ b hb callee hmem => hstable (ha.2 callee hmem) hb.1.known

end Call
end Work

/-! ## Machines of a run -/

/-- Calls are entered, the exits that are recorded for a method are its own, and no edge waits whose
fact has too long a history. -/
structure Machine.Orderly (s : Setup) (m : Machine) : Prop where
  opened : m.world.rules.sinksClosed = false
  exits : ∀ side callee d, ∀ p ∈ (m.table side).summariesOf callee d,
    s.env.graph.methodOf p.1 = callee
  lengths : ∀ t ∈ m.executor.queued, s.Admits t.edge.d2

theorem Machine.orderly_single {t : Task} (ht : s.Admits t.edge.d2) :
    Orderly s { executor := { queued := [t] } } where
  opened := rfl
  exits side callee d p hp := by
    cases side <;> simp [Table.summariesOf, table] at hp
  lengths t' ht' := by rwa [List.mem_singleton.mp ht']

/-- A fact may be wherever it fits in everything there is, and be stored for any edge. -/
def Fitness.whole (e : Env) : Fitness :=
  { Fitness.any.within e fun _ => Region.whole with entry := fun _ _ => True }

theorem Fitness.fact_whole : (Fitness.whole e).fact side n f :=
  Fact.fits_whole trivial

theorem Machine.Orderly.bears (h : m.Orderly s) :
    m.Bears s (World.Open m.world.paths.rules) (.whole e) fun _ _ => False where
  world := ⟨h.opened, rfl⟩
  stored _ _ _ _ := ⟨trivial, Fitness.fact_whole⟩
  queued t ht := ⟨Fitness.fact_whole, h.lengths t ht⟩
  summaries side callee d p hp := ⟨h.exits side callee d p hp, trivial, Fitness.fact_whole⟩
  contexts _ _ _ _ _ := trivial
  known _ _ := False.elim

/-- What is kept about edges where all facts are welcome. -/
abbrev Machine.BearsOpen (e : Env) (watch : Watch) (r : PathRules) (m : Machine) : Prop :=
  m.Bears (.ofEnv e watch) (World.Open r) (.whole e) fun _ _ => False

theorem Setup.bears_whole (hz : e.zero = .zero k)
    (hI : Upkeep.Lasting e (fun _ => True) (fun _ => True) I)
    (hregister : ∀ w a, I w → I { w with activations := a })
    (hneighbor : ∀ w n, I w → I { w with neighbors := n }) (watch : Watch) :
    (Setup.ofEnv e watch).Bears I (.whole e) :=
  (Setup.bears_ofEnv hI hz Partition.whole
    (Fitness.any_handedOn (fun _ _ => trivial) hregister hneighbor)
    Fitness.asked_all fun _ _ _ _ _ _ _ => Fact.fits_whole trivial).forgetEntries

theorem Setup.bears_open (hz : e.zero = .zero k) (hlimit : e.resultLimit = none) (watch : Watch) :
    (Setup.ofEnv e watch).Bears (World.Open r) (.whole e) :=
  Setup.bears_whole hz (Upkeep.lasting_open hlimit) (fun _ _ hw => ⟨hw.sinks, hw.rules⟩)
    (fun _ _ hw => ⟨hw.sinks, hw.rules⟩) watch

/-- Every pass starts with an orderly machine. -/
theorem Analysis.orderly_start (a : Analysis) (hz : a.env.zero = .zero k)
    (hlimit : a.env.resultLimit = none) (sources sinks : List StmtId) (m : Machine) :
    let s := a.passSetup sources sinks
    ((a.applyBudgets s.sides (nextMachine m)).run s (Work.seed sources)).2.Orderly s := by
  intro s
  have hs := Setup.bears_open (e := s.env) (r := m.world.paths.rules) (k := k) hz hlimit a.watch
  have hstart := a.bears_after sources sinks m hs ⟨rfl, rfl⟩ (fun _ _ => 0) 0
  exact ⟨hstart.world.sinks, fun side callee d p hp => (hstart.summaries side callee d p hp).1,
    fun t ht => (hstart.queued t ht).2⟩

theorem Machine.step_call_of {i : Nat} {ed : Edge} (ht : m.executor.queued[i]? = some ⟨side, ed⟩)
    (hlive : m.executor.interrupted = false) (hcall : s.env.graph.isCall ed.stmt)
    {Q : Machine → Prop} (hQ : ∀ a x, Q a → Q { a with executor := x })
    (hwork : ((m.started i ⟨side, ed⟩).modifyTable side fun t =>
      { t with processed := t.processed + 1 }).Ends s (Work.processCall side ed) fun _ b => Q b) :
    Q (m.step s i) := by
  have hprocess : (m.started i ⟨side, ed⟩).Ends s (Work.process side ed) fun _ b => Q b := by
    unfold Work.process
    simp only [ends_bind, ends_read, ends_modify]
    rw [if_pos hcall]
    exact hwork
  obtain ⟨_, b, hrun, hb⟩ := hprocess
  rw [step_of_live ht hlive, hrun]
  exact hQ b _ hb

theorem Machine.Bears.step_call (h : m.Bears s I F K) (ht : m.executor.queued[i]? = some ⟨side, ed⟩)
    (hlive : m.executor.interrupted = false) (hcall : s.env.graph.isCall ed.stmt)
    (hQ : ∀ a x, Q a → Q { a with executor := x })
    (hwork : ∀ a : Machine, a.Bears s I F K → a.Ends s (Work.processCall side ed) fun _ b => Q b) :
    Q (m.step s i) :=
  step_call_of ht hlive hcall hQ (hwork _ ((h.started i _).mark side fun _ => ⟨rfl, rfl, rfl⟩))

/-! ## Tainted fields -/

/-- A callee that sees the fact has locals for what is handed to it, and so it has a body. -/
theorem Program.LaidOut.isConcrete_of_seenBy {M : Message → Prop} {p : Program} (hp : p.LaidOut)
    (hprogram : e.program = p) (hlazy : e.config.aliasing.isLazy = false)
    (hI : Upkeep e M (fun _ => True) I) (hw : I w) (hseen : seenBy e w f n c callee ≠ []) :
    (e.method callee).isConcrete := by
  obtain ⟨a, ha⟩ := List.exists_mem_of_ne_nil _ hseen
  obtain ⟨l, -, hl⟩ := (pathsInCallee_based hlazy hI w hw).1 a ha
  rw [Env.method, hprogram] at hl ⊢
  rcases (hp.laidOut_method callee).handed with hbody | ⟨hself, hparams⟩
  · exact hbody
  · simp [hself, hparams] at hl

/-- Nothing keeps the solver from entering the callees that see the fact. -/
structure Env.Welcomes (e : Env) (w : World) (f : Fact) (n : StmtId) (c : Call) : Prop where
  fanOut : e.config.solver.maxCallees.all ((e.graph.calleesOf n).length ≤ ·) = true
  history : e.config.solver.maxPathLength.all (f.length < ·) = true
  inert : ∀ m ∈ e.graph.calleesOf n, Track.seenBy e w f n c m ≠ [] →
    Rule.isInert (e.method m) = false
  initializer : e.config.staticFields = .ignored → ∀ m ∈ e.graph.calleesOf n,
    Track.seenBy e w f n c m ≠ [] → (e.method m).isStaticInitializer = false

theorem Env.Welcomes.admits {watch : Watch} (h : e.Welcomes w f n c) {ps : List AccessPath}
    (hg : f.EntersAs ps g) : (Setup.ofEnv e watch).Admits g := by
  have hhistory := h.history
  unfold Setup.Admits Setup.ofEnv
  cases hmax : e.config.solver.maxPathLength with
  | none => rfl
  | some k =>
    rw [hmax] at hhistory
    have hlt : f.length < k := by simpa using hhistory
    simpa using hg.length.trans hlt

section Field
section Step
variable (he : e.Plain) (h : m.BearsOpen e {} r) (hn : (e.stmt n).id = n)
  (ht : m.executor.queued[i]? = some ⟨.forward, d1, n, f⟩) (hlive : m.executor.interrupted = false)
  (hcall : e.graph.isCall n) (hc : (e.stmt n).call? = some c)
include he h hn ht hlive hcall hc

theorem Machine.step_has_sites (hactive : f.isActive) (hfield : f.path.isInstanceField)
    (hlhs : ∀ l, (e.stmt n).lhs? = some (.var l) → f.path.base ≠ some l)
    (hpasses : Rule.allInert e n ∨ ¬ Carried e m.world f n c) : ∀ site ∈ e.graph.forward.succs n,
    (m.step (.ofEnv e {}) i).Has .forward (d1.toTaint, site, f.toTaint) := by
  obtain ⟨k, hz⟩ := he.zero
  have hI := Upkeep.lasting_open (e := e) (r := r) he.resultLimit
  have hs := Setup.bears_open (e := e) (r := r) hz he.resultLimit {}
  have hlength := (h.queued _ (List.mem_of_getElem? ht)).2
  refine h.step_call ht hlive hcall (Q := fun b => ∀ site ∈ e.graph.forward.succs n,
    b.Has .forward (d1.toTaint, site, f.toTaint)) (fun _ _ hq => hq) fun a ha => ?_
  refine Work.processCall_has_sites hs rfl ha Fitness.fact_whole hlength fun site _ => ?_
  exact Forward.callToReturn_field he hI.toUpkeep (fun _ hw => hw.sinks) (fun _ hw => hw.rules)
    h.world hn hc hactive hfield hlhs hpasses

theorem Machine.step_entered (hcarried : Carried e m.world f n c)
    (hwelcome : e.Welcomes m.world f n c)
    (hbodies : ∀ callee, seenBy e m.world f n c callee ≠ [] → (e.method callee).isConcrete) :
    ∀ callee ∈ e.graph.calleesOf n, seenBy e m.world f n c callee ≠ [] →
      (m.step (.ofEnv e {}) i).Entered e f (seenBy e m.world f n c callee) callee := by
  obtain ⟨k, hz⟩ := he.zero
  have hI := Upkeep.lasting_open (e := e) (r := r) he.resultLimit
  have hs := Setup.bears_open (e := e) (r := r) hz he.resultLimit {}
  have hlength := (h.queued _ (List.mem_of_getElem? ht)).2
  refine h.step_call ht hlive hcall (Q := fun b => ∀ callee ∈ e.graph.calleesOf n,
    seenBy e m.world f n c callee ≠ [] →
      b.Entered e f (seenBy e m.world f n c callee) callee) (fun _ _ hq => hq) fun a ha => ?_
  refine Work.processCall_has_callees hs rfl ha Fitness.fact_whole hwelcome.fanOut
    (fun hq hgrow hseen => ?_) fun callee hmem b hb => ?_
  · obtain ⟨g, hg, hhas⟩ := hq hseen
    exact ⟨g, hg, fun t ht => hgrow _ _ (hhas t ht)⟩
  · by_cases hseen : seenBy e m.world f n c callee = []
    · refine (hb.ends ((hs.carriesAt Fitness.fact_whole).processCallee hmem) rfl).mono ?_
      intro _ b hb
      exact ⟨hb.1, fun hno => absurd hseen hno⟩
    · have hbody := hbodies callee hseen
      have henters : Keeps e _ (((Setup.ofEnv e {}).problem .forward).call d1 f n callee) _ :=
        Forward.call_field he hI.toUpkeep (fun _ hw => hw.sinks) (fun _ hw => hw.rules) h.world
          hbody (hwelcome.inert callee hmem hseen)
          (fun hignored => hwelcome.initializer hignored callee hmem hseen) hn hc hcarried hmem
      exact (Work.processCallee_has hs rfl hb Fitness.fact_whole hlength trivial hbody
        (P := f.EntersAs (seenBy e m.world f n c callee)) (fun _ => hwelcome.admits)
        (henters.mono fun _ hg => hg hseen)).mono fun _ _ hb => ⟨hb.1, fun _ => hb.2⟩

end Step

/-- **A tainted field stays in sight of a call.** Whenever the forward solver works on an edge at a
call, with an active taint on a field of an object that the call does not assign, the taint is known
afterwards at all return sites, or every callee that sees it has it at its start. That is so unless
the callees carry the taint and something keeps the solver from entering them. -/
theorem field_taint_passes_or_enters {p : Program} {extra : List (StmtId × MethodId)}
    (hp : p.Assembled) (hgraph : e.graph = .ofProgram p extra) (he : e.Plain) {start : Machine}
    (hstart : start.Orderly (.ofEnv e {})) (pick : Nat → Machine → Nat) (j : Nat)
    (hm : start.after (.ofEnv e {}) pick j = m)
    (ht : m.executor.queued[i]? = some ⟨.forward, d1, n, f⟩)
    (hlive : m.executor.interrupted = false) (hcall : e.graph.isCall n = true)
    (hc : (e.stmt n).call? = some c) (hactive : f.isActive = true)
    (hfield : f.path.isInstanceField = true)
    (hlhs : ∀ l, (e.stmt n).lhs? = some (.var l) → f.path.base ≠ some l)
    (hwelcome : Track.Carried e m.world f n c →
      Rule.allInert e n = true ∨ e.Welcomes m.world f n c) :
    (∀ site ∈ e.graph.forward.succs n,
      (m.step (.ofEnv e {}) i).Has .forward (d1.toTaint, site, f.toTaint)) ∨
    ∀ callee ∈ e.graph.calleesOf n, Track.seenBy e m.world f n c callee ≠ [] →
      (m.step (.ofEnv e {}) i).Entered e f (Track.seenBy e m.world f n c callee) callee := by
  obtain ⟨k, hz⟩ := he.zero
  have hprogram : e.program = p := congrArg Graph.program hgraph
  have hn : (e.stmt n).id = n := by
    rw [Env.stmt, hprogram]
    exact hp.laidOut.ids n
  have hbears : m.BearsOpen e {} start.world.paths.rules := by
    rw [← hm]
    exact hstart.bears.after (Setup.bears_open hz he.resultLimit {}) pick j
  by_cases hpasses : Rule.allInert e n ∨ ¬ Carried e m.world f n c
  · exact .inl (m.step_has_sites he hbears hn ht hlive hcall hc hactive hfield hlhs hpasses)
  · obtain ⟨hinert, hcarried⟩ := not_or.mp hpasses
    have hcarried := not_not.mp hcarried
    have hbodies : ∀ callee, seenBy e m.world f n c callee ≠ [] → _ := fun _ hseen =>
      hp.laidOut.isConcrete_of_seenBy hprogram he.aliasing
        (Upkeep.lasting_open he.resultLimit).toUpkeep hbears.world hseen
    exact .inr (m.step_entered he hbears hn ht hlive hcall hc hcarried
      ((hwelcome hcarried).resolve_left hinert) hbodies)

end Field

/-! ## A crowd of callees -/

def boxField : Field := ⟨"Box", "v", .cls "java.lang.String", false⟩

def shownBox : Local := ⟨7, "o", .cls "Box"⟩

def lookAtBox : Call :=
  ⟨.virtual, ⟨"Base", "look", [.cls "Box"], .void⟩, some ⟨6, "p0", .cls "Base"⟩, [.var shownBox]⟩

/-- `main` passes a box to a method that has two implementations, which both read its field. -/
def lookers : Program :=
  let text : Ty := .cls "java.lang.String"
  let look (owner : String) : MethodRef := ⟨owner, "look", [.cls "Box"], .void⟩
  let body (first : Nat) : List Action :=
    [.assign (.var ⟨first + 2, "t", text⟩) (.field ⟨first + 1, "p0", .cls "Box"⟩ boxField),
      .retVoid]
  let p := ((Program.empty.addClass "Base" {}).addClass "Left"
    { superclass := some "Base" }).addClass "Right" { superclass := some "Base" }
  let p := (p.openBody (look "Left") false [("t", text)]).closeBody (body 0) []
  let p := (p.openBody (look "Right") false [("t", text)]).closeBody (body 3) []
  let p := (p.openBody ⟨"App", "main", [.cls "Base"], .void⟩ true [("o", .cls "Box")]).closeBody
    [.call lookAtBox, .retVoid] []
  p.addEntry 2

theorem assembled_lookers : lookers.Assembled := by
  refine .addEntry 2 (.addBody _ true _ ?_ nofun (.addBody _ false _ ?_ nofun
    (.addBody _ false _ ?_ nofun (.addClass _ _ (.addClass _ _ (.addClass _ _ .empty))))))
  · decide
  · decide
  · decide

/-- The call is entered if it has at most so many callees. -/
def lookingAt (most : Nat) : Env where
  graph := .ofProgram lookers []
  config := { solver := { maxCallees := some most } }

set_option maxRecDepth 2000 in
theorem stmt_lookers : lookers.stmt 9 = ⟨9, 2, .call lookAtBox⟩ := rfl

theorem stmt_lookingAt (most : Nat) : (lookingAt most).stmt 9 = ⟨9, 2, .call lookAtBox⟩ :=
  (congrArg (Program.stmt · 9) (Graph.program_ofProgram lookers [])).trans stmt_lookers

theorem plain_lookingAt (most : Nat) : (lookingAt most).Plain := ⟨⟨0, rfl⟩, rfl, rfl, rfl, rfl, rfl⟩

def boxTaint : Fact where
  id := 1
  path := { base := some shownBox, ty := some (.cls "Box"), steps := [.of boxField] }

def looking : Machine where
  executor := { queued := [⟨.forward, .zero 0, 9, boxTaint⟩] }

theorem orderly_looking (most : Nat) : looking.Orderly (.ofEnv (lookingAt most) {}) :=
  Machine.orderly_single rfl

/-- Where two callees are not too many, both have the taint at their start. -/
theorem looked_at_taint_enters :
    let e := lookingAt 2
    let c := lookAtBox
    let m := looking.step (.ofEnv e {}) 0
    (∀ callee ∈ e.graph.calleesOf 9, Track.seenBy e {} boxTaint 9 c callee ≠ []) ∧
    e.Welcomes {} boxTaint 9 c ∧
    ((∀ site ∈ e.graph.forward.succs 9,
      m.Has .forward ((Fact.zero 0).toTaint, site, boxTaint.toTaint)) ∨
    ∀ callee ∈ e.graph.calleesOf 9, Track.seenBy e {} boxTaint 9 c callee ≠ [] →
      m.Entered e boxTaint (Track.seenBy e {} boxTaint 9 c callee) callee) := by
  intro e c m
  have hwelcome : e.Welcomes {} boxTaint 9 c :=
    { fanOut := by decide +kernel
      history := by decide +kernel
      inert := by decide +kernel
      initializer := nofun }
  refine ⟨by decide +kernel, hwelcome, ?_⟩
  refine field_taint_passes_or_enters assembled_lookers rfl (plain_lookingAt 2) (orderly_looking 2)
    (fun _ _ => 0) 0 rfl rfl rfl (by decide +kernel) ?_ rfl rfl ?_ fun _ => .inr hwelcome
  · rw [stmt_lookingAt]
    rfl
  · rw [stmt_lookingAt]
    exact nofun

/-- Where two callees are too many, the taint is lost: it is not known past the call, and no callee
has it, though both read it. -/
theorem crowded_field_taint_lost :
    let e := lookingAt 1
    let c := lookAtBox
    let m := looking.step (.ofEnv e {}) 0
    e.Plain ∧ looking.Orderly (.ofEnv e {}) ∧
    (∀ callee ∈ e.graph.calleesOf 9, Track.seenBy e {} boxTaint 9 c callee ≠ []) ∧
    ¬ ((∀ site ∈ e.graph.forward.succs 9,
      m.Has .forward ((Fact.zero 0).toTaint, site, boxTaint.toTaint)) ∨
    ∀ callee ∈ e.graph.calleesOf 9, Track.seenBy e {} boxTaint 9 c callee ≠ [] →
      m.Entered e boxTaint (Track.seenBy e {} boxTaint 9 c callee) callee) := by
  intro e c m
  have hseen : ∀ callee ∈ e.graph.calleesOf 9, seenBy e {} boxTaint 9 c callee ≠ [] := by
    decide +kernel
  have hnone : ∀ k, ¬ m.Has .forward k := fun _ => Index.not_mem_of_keys (by decide +kernel)
  refine ⟨plain_lookingAt 1, orderly_looking 1, hseen, ?_⟩
  rintro (hsites | hcallees)
  · exact hnone _ (hsites 10 (by decide +kernel))
  · obtain ⟨g, -, hhas⟩ := hcallees 0 (by decide +kernel) (hseen 0 (by decide +kernel))
    exact hnone _ (hhas 0 (by decide +kernel))

end LeakTrace
