import LeakTrace.Proofs.Endpoints
import LeakTrace.Proofs.Registry

/-!
# Taints follow the control flow

A taint moves along the edges of the graph: from a statement to its successors, from a call into a
callee, and from the end of a callee to what follows the call. The alias search walks against them,
but what it finds waits: it counts from the statement on that asked for aliases, or from a call on
that leads there. So **whatever is observed, control can get there from where it came from**, along
the derivations of the observed fact. Facts that it merely met are not among them: two facts that
meet share their histories also where they were before.
-/

namespace LeakTrace
variable {cut thrown implicit : Bool} {k : Nat} {s : StmtId}

/-! ## Control -/

namespace Graph
variable {g : Graph} {t n call unit : StmtId} {m : MethodId}

/-- Control can take the step. Calls and returns need not match. -/
inductive Flows (g : Graph) : StmtId → StmtId → Prop where
  | next {n t : StmtId} : t ∈ g.forward.succs n → Flows g n t
  | enter {call t : StmtId} {m : MethodId} : g.Calls call m → t ∈ g.forward.starts m →
    Flows g call t
  | leave {exit call t : StmtId} : g.forward.isExit exit = true →
    g.Calls call (g.methodOf exit) → t ∈ g.forward.succs call → Flows g exit t

/-- Control can get from one statement to the other. -/
abbrev Reaches (g : Graph) : StmtId → StmtId → Prop := Relation.ReflTransGen g.Flows

/-- Control can get past the second statement: it reaches the statement, or the end of something
that is called there. -/
inductive Passes (g : Graph) (s n : StmtId) : Prop where
  | here : g.Reaches s n → Passes g s n
  | callee {exit : StmtId} : g.forward.isExit exit = true → g.Calls n (g.methodOf exit) →
    g.Reaches s exit → Passes g s n

theorem Passes.next (h : g.Passes s n) (ht : t ∈ g.forward.succs n) : g.Reaches s t := by
  cases h with
  | here hs => exact hs.tail (.next ht)
  | callee hexit hcall hs => exact hs.tail (.leave hexit hcall ht)

/-- Control can always leave: every statement is on the way to an end of its method, and there is
something in the method after every call. -/
structure Returns (g : Graph) : Prop where
  ends : ∀ n, ∃ exit, g.forward.isExit exit = true ∧ g.methodOf exit = g.methodOf n ∧
    g.Reaches n exit
  goesOn : ∀ n m, g.Calls n m → ∃ t ∈ g.forward.succs n, g.methodOf t = g.methodOf n

/-- It suffices that control can go down the text of each method until it ends. -/
theorem Returns.of_downward (size : Nat) (hend : ∀ n, size ≤ n → g.forward.isExit n)
    (hdown : ∀ n < size, g.forward.isExit n ∨
      ∃ t ∈ g.forward.succs n, n < t ∧ g.methodOf t = g.methodOf n)
    (hcalls : ∀ n m, g.Calls n m → g.forward.isExit n = false ∧ n < size) : g.Returns := by
  refine ⟨fun n => ?_, fun n m hcall => ?_⟩
  · -- From statement to statement less of the text is left.
    induction h : size - n using Nat.strongRecOn generalizing n with
    | ind left ih =>
      by_cases hn : n < size
      · rcases hdown n hn with hexit | ⟨t, ht, hlt, hm⟩
        · exact ⟨n, hexit, rfl, .refl⟩
        · obtain ⟨exit, hexit, hm', ht'⟩ := ih (size - t) (h ▸ Nat.sub_lt_sub_left hn hlt) t rfl
          exact ⟨exit, hexit, hm'.trans hm, .head (.next ht) ht'⟩
      · exact ⟨n, hend n (Nat.le_of_not_lt hn), rfl, .refl⟩
  · obtain ⟨hgoes, hn⟩ := hcalls n m hcall
    rcases hdown n hn with hexit | ⟨t, ht, -, hm⟩
    · rw [hgoes] at hexit
      cases hexit
    · exact ⟨t, ht, hm⟩

theorem Returns.leaves (hg : g.Returns) (h : g.Passes s n) :
    ∃ exit, g.forward.isExit exit ∧ g.methodOf exit = g.methodOf n ∧ g.Reaches s exit := by
  cases h with
  | here hs =>
    obtain ⟨exit, hexit, hm, hn⟩ := hg.ends n
    exact ⟨exit, hexit, hm, hs.trans hn⟩
  | callee hexit hcall hs =>
    obtain ⟨t, ht, hmt⟩ := hg.goesOn n _ hcall
    obtain ⟨exit', hexit', hm', ht'⟩ := hg.ends t
    exact ⟨exit', hexit', hm'.trans hmt, (Passes.callee hexit hcall hs).next ht |>.trans ht'⟩

theorem Returns.passes_call (hg : g.Returns) (h : g.Passes s n)
    (hcall : g.Calls call (g.methodOf n)) : g.Passes s call := by
  obtain ⟨exit, hexit, hm, hs⟩ := hg.leaves h
  rw [← hm] at hcall
  exact .callee hexit hcall hs

/-- What gets past a statement gets past the calls that are registered for it. -/
theorem Returns.passes_registered (hg : g.Returns) {a : Activations} (ha : a.Founded g g.Calls unit)
    (hcall : call ∈ a.calls) (h : g.Passes s unit) : g.Passes s call := by
  have hchain := ha.calls call hcall
  clear hcall
  induction hchain with
  | single hstep => exact hg.passes_call h hstep.2
  | tail _ hstep ih => exact hg.passes_call ih hstep.2

/-- Something that starts at `s` may show at `t`: control can get past `t` or, where `t` ends its
method, past a call of the method. -/
def ShowsAt (g : Graph) (s t : StmtId) : Prop :=
  g.Passes s t ∨ g.forward.isExit t = true ∧ ∃ call, g.Calls call (g.methodOf t) ∧ g.Passes s call

end Graph

/-! ## Origins of facts that count -/

namespace Fact
variable {f g : Fact} {o : Origin} {i : Nat}

/-- The fact has the origin, and it has counted all the way from there. -/
inductive Counts : Fact → Origin → Prop where
  | here {f : Fact} {o : Origin} : f.waitsFor = none → f.origin = some o → Counts f o
  | back {f p : Fact} {o : Origin} : f.waitsFor = none → f.pred = some p → Counts p o → Counts f o

theorem Counts.active (h : f.Counts o) : f.waitsFor = none := by
  cases h with
  | here hactive _ => exact hactive
  | back hactive _ _ => exact hactive

theorem Counts.of_continues (h : g.Counts o) (hfg : f.Continues g) : f.Counts o := by
  have hactive : f.waitsFor = none := hfg.waitsFor.symm.trans h.active
  cases h with
  | here _ ho =>
    rcases hfg.history with ⟨-, hnone | hshares⟩ | ⟨-, hshares⟩
    · rw [hnone] at ho
      cases ho
    · exact .here hactive (hshares.1.symm.trans ho)
    · exact .here hactive (hshares.1.symm.trans ho)
  | back _ hp hrest =>
    rcases hfg.history with ⟨hpred, -⟩ | ⟨hpred, -⟩
    · rw [hpred] at hp
      cases hp
      exact hrest
    · exact .back hactive (hpred.symm.trans hp) hrest

theorem Counts.of_activate (h : (f.activate i).Counts o) : f.Counts o := by
  unfold Fact.activate at h
  split at h
  · exact h
  · cases h with
    | here _ ho => cases ho
    | back _ hp hrest =>
      cases hp
      exact hrest

theorem not_counts_zero : ¬ (Fact.zero k).Counts o := by
  intro h
  cases h with
  | here _ ho => cases ho
  | back _ hp _ => cases hp

end Fact

/-! ## Facts on their way -/

namespace Fact
variable {g : Graph} {D A D' A' : StmtId → Prop} {f : Fact} {c n : StmtId} {i : Nat}

/-- Where the origins of a fact are: `D` holds of those that have counted ever since. If control can
always leave, then `A` holds of all of them if the fact counts; and if it waits, control can get
from there past what it waits for. -/
structure Traced (g : Graph) (D A : StmtId → Prop) (f : Fact) : Prop where
  direct : ∀ o, f.Counts o → D o.stmt
  active : g.Returns → f.waitsFor = none → f.OriginsIn fun x => A x.origin.stmt
  waiting : g.Returns → ∀ u, f.waitsFor = some u → f.OriginsIn fun x => g.Passes x.origin.stmt u

theorem heritable_traced : Heritable (Traced g D A) := by
  intro f f' hf hff'
  refine ⟨fun o ho => hf.direct o (ho.of_continues hff'), fun hg hactive => ?_, fun hg u hu => ?_⟩
  · exact (hf.active hg (hff'.waitsFor.symm.trans hactive)).continues hff'
  · exact (hf.waiting hg u (hff'.waitsFor.symm.trans hu)).continues hff'

theorem Traced.mono (hf : f.Traced g D A) (hD : ∀ s, D s → D' s) (hA : ∀ s, A s → A' s) :
    f.Traced g D' A' where
  direct o ho := hD _ (hf.direct o ho)
  active hg hactive := (hf.active hg hactive).mono fun _ => hA _
  waiting := hf.waiting

theorem traced_zero : (Fact.zero k).Traced g D A where
  direct _ ho := absurd ho not_counts_zero
  active _ _ := originsIn_zero k
  waiting _ _ _ := originsIn_zero k

theorem traced_ofSource {o : Origin} (hD : D o.stmt) (hA : A o.stmt) :
    (Fact.ofSource i o cut thrown implicit).Traced g D A where
  direct _ ho := by
    cases ho with
    | here _ ho =>
      cases ho
      exact hD
    | back _ hp _ => cases hp
  active _ _ := originsIn_ofSource hA
  waiting _ _ hu := by cases hu

theorem Traced.activate (hf : f.Traced g D A)
    (hA : g.Returns → ∀ u, f.waitsFor = some u → ∀ s, g.Passes s u → A s) :
    (f.activate i).Traced g D A where
  direct o ho := hf.direct o ho.of_activate
  active hg _ := by
    refine OriginsIn.activate ?_ i
    cases hwaits : f.waitsFor with
    | none => exact hf.active hg hwaits
    | some u => exact (hf.waiting hg u hwaits).mono fun _ => hA hg u hwaits _
  waiting _ u hu := by
    rw [waitsFor_activate] at hu
    cases hu

theorem Traced.deactivate (hf : f.Traced g D (g.Passes · c)) :
    (f.deactivate i c true).Traced g D' A' := by
  cases hwaits : f.waitsFor with
  | none =>
    have hunit : (f.deactivate i c true).waitsFor = some c := by
      simp [Fact.deactivate, Taint.isActive, hwaits]
    refine ⟨fun o ho => ?_, fun _ hnone => ?_, fun hg u hu => ?_⟩
    · rw [ho.active] at hunit
      cases hunit
    · rw [hnone] at hunit
      cases hunit
    · rw [hu] at hunit
      cases hunit
      exact (hf.active hg hwaits).deactivate i c true
  | some v =>
    have hsame : f.deactivate i c true = f := by simp [Fact.deactivate, Taint.isActive, hwaits]
    rw [hsame]
    refine ⟨fun o ho => ?_, fun _ hnone => ?_, hf.waiting⟩
    · rw [ho.active] at hwaits
      cases hwaits
    · rw [hnone] at hwaits
      cases hwaits

def Arrives (g : Graph) (n : StmtId) : Fact → Prop := Traced g (g.Reaches · n) (g.Reaches · n)

/-- The fact is at `n` and about to have passed `c`. -/
structure Leaves (g : Graph) (n c : StmtId) (f : Fact) : Prop extends
    f.Traced g (g.Reaches · n) (g.Passes · c) where
  place : c = n ∨ g.forward.isExit n = true ∧ g.Calls c (g.methodOf n)

/-- The fact is looked for, so it does not count. -/
def Sought (g : Graph) : Fact → Prop := Traced g (fun _ => False) (fun _ => False)

theorem Leaves.showsAt (hf : f.Leaves g n c) (hs : g.Passes s c) : g.ShowsAt s n := by
  rcases hf.place with rfl | ⟨hexit, hcall⟩
  · exact .inl hs
  · exact .inr ⟨hexit, c, hcall, hs⟩

theorem Leaves.next {t : StmtId} (hf : f.Leaves g n c) (ht : t ∈ g.forward.succs c) :
    f.Arrives g t := by
  refine hf.toTraced.mono (fun s hs => ?_) fun s hs => hs.next ht
  rcases hf.place with rfl | ⟨hexit, hcall⟩
  · exact hs.tail (.next ht)
  · exact hs.tail (.leave hexit hcall ht)

end Fact

/-! ## Runs -/

/-- Facts of the taint analysis are where control gets to, and facts of the alias search wait. -/
def Fitness.followsControl (g : Graph) : Fitness where
  fact
    | .forward, n, f => f.Arrives g n
    | .backward, _, f => f.Sought g
  exit side n := (Problem.ofSide g side).view.isExit n = true
  context := g.Calls

/-- What is observed counts, and it is on its way past the statement. -/
def SinkHit.Follows (g : Graph) (h : SinkHit) : Prop :=
  h.fact.waitsFor = none ∧ ∃ c, h.fact.Leaves g h.stmt c

def Memory.followsControl (g : Graph) (r : PathRules) : Memory where
  rules := r
  edge := (Fitness.followsControl g).fact
  hit := SinkHit.Follows g
  registry a := ∀ unit, Activations.Founded (a[unit]?.getD {}) g g.Calls unit

section Runs
variable {e : Env} {r : PathRules}

theorem Fact.WakesAt.passes {f : Fact} {c u : StmtId}
    (h : f.WakesAt (World.Remembers (.followsControl e.graph r)) c) (hg : e.graph.Returns)
    (hu : f.waitsFor = some u) (hs : e.graph.Passes s u) : e.graph.Passes s c := by
  rcases h with hc | ⟨w, v, hw, hv, a, ha, hcalls⟩
  · rw [hu] at hc
    cases hc
    exact hs
  · rw [hu] at hv
    cases hv
    have hfounded := hw.registry u
    rw [ha] at hfounded
    exact hg.passes_registered hfounded hcalls hs

theorem Fitness.followsControl_handedOn (hz : e.zero = .zero k) (hids : ∀ n, (e.stmt n).id = n)
    (hmethods : ∀ m, (e.method m).id = m) :
    (Fitness.followsControl e.graph).HandedOn (fun n c f => f.Leaves e.graph n c) e
      (SinkHit.Follows e.graph) (World.Remembers (.followsControl e.graph r)) where
  derived side _ := by
    cases side with
    | forward => exact Fact.heritable_traced
    | backward => exact Fact.heritable_traced
  passing _ _ _ _ hf hfg := ⟨Fact.heritable_traced hf.toTraced hfg, hf.place⟩
  zero side _ := by
    rw [hz]
    cases side with
    | forward => exact Fact.traced_zero
    | backward => exact Fact.traced_zero
  arrives hf := ⟨hf.mono (fun _ hs => hs) fun _ hs => .here hs, .inl rfl⟩
  returns hexit hcall hf :=
    ⟨hf.mono (fun _ hs => hs) fun _ hs => .callee hexit hcall hs, .inr ⟨hexit, hcall⟩⟩
  activated {n c unit f} i hunit hf hwakes := by
    rw [hids, or_self] at hunit
    subst hunit
    exact ⟨hf.toTraced.activate fun hg _ hu _ hs => hwakes.passes hg hu hs, hf.place⟩
  creates _ hf _ _ := by
    rw [hids]
    exact ⟨Fact.traced_ofSource .refl (.here .refl), hf.place⟩
  records n c := by
    intro g d path _ _ hg hactive
    rw [hids]
    exact ⟨hactive, c, hg⟩
  along ht hf := hf.next ht
  enter {side n t m f g} hcall ht _ hf := by
    cases side with
    | forward =>
      have hstep : e.graph.Flows n t := .enter hcall ht
      exact Fact.Traced.mono hf (fun _ hs => hs.tail hstep) fun _ hs => hs.tail hstep
    | backward => exact hf
  back _ hf := hf
  leave _ _ _ hf := hf
  registers hcall := by
    rw [hids, hmethods, and_self]
    intro w unit hw hm
    exact { hw with registry := World.Founded.register hw.registry hcall hm }
  neighbor _ _ hw := hw.addNeighbor _ trivial _
  entry _ := trivial
  exit _ _ hexit := hexit
  context _ _ hcall := hcall

theorem Fitness.followsControl_asked {ρ : MethodId → Region} (hids : ∀ n, (e.stmt n).id = n)
    (hdefers : e.config.aliasing = .flowSensitive → e.config.defersActivation)
    (hpts : e.config.aliasing ≠ .ptsBased) (hstatic : e.config.staticFields ≠ .insensitive)
    (himplicit : e.config.implicitFlows.tracksControlFlow = false) :
    (Fitness.followsControl e.graph).Asked (fun n c f => f.Leaves e.graph n c) e ρ
      (Message.Allowed (.followsControl e.graph r)) where
  sends n c :=
    { search := fun halias hunit _ hf => by
        rw [himplicit, hids] at hunit
        obtain rfl := hunit.resolve_right Bool.false_ne_true
        rw [hdefers halias]
        exact hf.kind.toTraced.deactivate
      pointsTo := fun h => absurd h hpts
      global := fun h => absurd h hstatic }
  hands _ :=
    { here := fun _ hf => Fact.Traced.mono hf.kind (fun _ => False.elim) fun _ => False.elim
      global := fun h => absurd h hstatic }

theorem Setup.bears_followsControl {watch : Watch} (hz : e.zero = .zero k)
    (hids : ∀ n, (e.stmt n).id = n) (hmethods : ∀ m, (e.method m).id = m)
    (hsensitive : e.config.aliasing = .flowSensitive → e.config.flowSensitiveAliasing)
    (hpts : e.config.aliasing ≠ .ptsBased) (hstatic : e.config.staticFields ≠ .insensitive)
    (himplicit : e.config.implicitFlows.tracksControlFlow = false) :
    (Setup.ofEnv e watch).Bears (World.Remembers (.followsControl e.graph r))
      ((Fitness.followsControl e.graph).within e fun _ => Region.whole) := by
  have hdefers : e.config.aliasing = .flowSensitive → e.config.defersActivation := by
    intro halias
    simp [Config.defersActivation, halias, hsensitive halias]
  exact Setup.bears_remembers hz .whole (fun _ _ => trivial) (fun _ _ => trivial)
    (fun _ _ _ hf => hf)
    (Fitness.followsControl_handedOn hz hids hmethods)
    (Fitness.followsControl_asked hids hdefers hpts hstatic himplicit)

end Runs

/-! ## Observations -/

namespace SinkHit
variable {g : Graph} {h : SinkHit} {f : Fact} {o : Origin}

theorem Follows.reaches (hh : h.Follows g) (ho : h.fact.Counts o) : g.Reaches o.stmt h.stmt := by
  obtain ⟨-, c, hfact⟩ := hh
  exact hfact.direct o ho

theorem Follows.showsAt (hh : h.Follows g) (hg : g.Returns) (hf : h.fact.StemsFrom f)
    (ho : f.origin = some o) : g.ShowsAt o.stmt h.stmt := by
  obtain ⟨hactive, c, hfact⟩ := hh
  exact hfact.showsAt (hfact.active hg hactive f hf o ho)

end SinkHit

namespace Analysis
variable {a : Analysis}

/-- **Observations follow the control flow.** Take a run in any order, with aliases that wait for
the statement they are found for, static fields that are tracked along the graph, and no implicit
flows. Whatever is observed at a sink, control gets there from every origin that has counted ever
since; and if control can always leave methods, what starts at any origin in the derivations of the
observed fact may show there. If no facts have met in the run, the latter holds of all connections
that are reported. -/
theorem observations_follow_control {p : Program} {extra : List (StmtId × MethodId)} {k : Nat}
    (hp : p.Assembled) (hgraph : a.env.graph = .ofProgram p extra) (hz : a.env.zero = .zero k)
    (hsensitive : a.env.config.aliasing = .flowSensitive →
      a.env.config.flowSensitiveAliasing = true)
    (hpts : a.env.config.aliasing ≠ .ptsBased) (hstatic : a.env.config.staticFields ≠ .insensitive)
    (himplicit : a.env.config.implicitFlows.tracksControlFlow = false) :
    let g := a.env.graph
    (∃ σ, a.run = a.runBy σ) ∧ ∀ σ,
      (∀ h ∈ (a.runBy σ).results.hits, (∀ o, h.fact.Counts o → g.Reaches o.stmt h.stmt) ∧
        (g.Returns → ∀ f o, h.fact.StemsFrom f → f.origin = some o → g.ShowsAt o.stmt h.stmt)) ∧
      (g.Returns → (∀ f, (a.solveBy σ).1.world.neighborsOf f = []) →
        ∀ c ∈ (a.runBy σ).results.connections, g.ShowsAt c.source.origin.stmt c.sink.stmt) := by
  intro g
  have hs : ∀ sources, (∀ n ∈ sources, n ∈ a.scan.1) → (a.passSetup sources a.scan.2.1).Bears
      (World.Remembers (.followsControl g a.env.pathRules))
      ((Fitness.followsControl g).within a.env fun _ => Region.whole) := fun sources _ =>
    Setup.bears_followsControl (e := (a.passSetup sources a.scan.2.1).env) hz (hp.stmt_ids hgraph)
      (hp.method_ids hgraph) hsensitive hpts hstatic himplicit
  have hK : Shared a.env.pathRules _ fun _ => .followsControl g a.env.pathRules :=
    ⟨fun _ => rfl, fun _ => rfl, fun _ unit => by simpa using Activations.founded_empty⟩
  refine ⟨⟨_, run_eq_runBy⟩, fun σ => ⟨fun h hh => ?_, fun hg hmet c hc => ?_⟩⟩
  · obtain ⟨-, -, hfollows⟩ := runBy_hits hs hK σ h hh
    exact ⟨fun o ho => hfollows.reaches ho, fun hg f o hf ho => hfollows.showsAt hg hf ho⟩
  · obtain ⟨h, ⟨-, -, hfollows⟩, -, hn, f, hback, ho, -⟩ := runBy_backed hs hK σ c hc
    rw [← hn]
    exact SinkHit.Follows.showsAt hfollows hg (hback.stemsFrom hmet) ho

theorem returns_guardedHandOver : guardedHandOver.env.graph.Returns := by
  have hexits : guardedHandOver.env.graph.exits.size = 6 := by decide +kernel
  refine .of_downward 6 (fun n hn => ?_) (by decide +kernel) fun n m hcall => ?_
  · simp [Graph.forward, Graph.exitsOf, Array.getElem?_eq_none (hexits ▸ hn), Exits.all]
  · exact hcall.of_tables (P := fun n _ => guardedHandOver.env.graph.forward.isExit n = false ∧ n < 6)
      (by decide +kernel) (by decide +kernel)

/-- What starts at an origin of something observed there may show where it is observed, and what
starts at the source call is observed at the call of `keep`. -/
theorem guardedHandOver_follows_control :
    let e := guardedHandOver.env
    handOver.Assembled ∧ e.graph.Returns ∧ e.config.aliasing = .flowSensitive ∧
      e.config.flowSensitiveAliasing = true ∧ e.config.staticFields = .sensitive ∧
      e.config.implicitFlows.tracksControlFlow = false ∧
      (∀ σ, ∀ h ∈ (guardedHandOver.runBy σ).results.hits, ∀ f o, h.fact.StemsFrom f →
        f.origin = some o → e.graph.ShowsAt o.stmt h.stmt) ∧
      guardedHandOver.run.results.hits.map (·.stmt) = [1] ∧
      ∃ c ∈ guardedHandOver.run.results.connections, c.source.origin.stmt = 0 ∧ c.sink.stmt = 1 ∧
        e.graph.ShowsAt 0 1 := by
  intro e
  obtain ⟨-, hruns⟩ := observations_follow_control (a := guardedHandOver) (k := 0)
    assembled_handOver rfl rfl (fun _ => rfl) nofun nofun rfl
  obtain ⟨hends, hhits, hnear⟩ := guardedHandOver_reports
  refine ⟨assembled_handOver, returns_guardedHandOver, rfl, rfl, rfl, rfl,
    fun σ h hh => ((hruns σ).1 h hh).2 returns_guardedHandOver, hhits, ?_⟩
  obtain ⟨c, hc, hcends⟩ := List.mem_map.mp (hends ▸ List.mem_singleton_self (0, 1))
  obtain ⟨hsource, hsink⟩ := Prod.mk.inj hcends
  have hshows := (hruns _).2 returns_guardedHandOver hnear c (run_eq_fixed ▸ hc)
  rw [hsource, hsink] at hshows
  exact ⟨c, hc, hsource, hsink, hshows⟩

end Analysis
end LeakTrace
