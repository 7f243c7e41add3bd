import LeakTrace.Proofs.Descent
import LeakTrace.Proofs.Evaluation
import LeakTrace.Proofs.Reports
import LeakTrace.Proofs.Scope.Programs

/-!
# No endpoint of a connection is invented

Origins are created by source statements. After that they are copied along derivations, dropped by
some of them, handed between both analyses and linked to other facts, and in the end a search
collects what it finds. Through all of it **an origin stays what the oracle said when it was
created**, and a sink is only ever observed where the oracle says so.
-/

namespace LeakTrace

/-! ## Runs -/

def Fitness.originsIn (G : Found → Prop) : Fitness := { fact := fun _ _ => Fact.OriginsIn G }

/-- An observation of a sink as `S` says, by a fact whose origins are as `G` says. -/
def SinkHit.Within (G : Found → Prop) (S : Definition → StmtId → Prop) (h : SinkHit) : Prop :=
  h.fact.OriginsIn G ∧ S h.definition h.stmt

/-- Nothing is remembered but facts whose origins are as `G` says and sinks as `S` says. -/
def Memory.originsIn (G : Found → Prop) (S : Definition → StmtId → Prop) (r : PathRules) :
    Memory where
  rules := r
  edge _ _ := Fact.OriginsIn G
  hit := SinkHit.Within G S
  met := Fact.OriginsIn G

section Runs
variable {e : Env} {G : Found → Prop} {S : Definition → StmtId → Prop} {r : PathRules} {k : Nat}

/-- Statements create origins as `G` says, and facts are recorded as `S` says. -/
structure Env.Admits (e : Env) (G : Found → Prop) (S : Definition → StmtId → Prop)
    (I : World → Prop) : Prop where
  source {n : StmtId} {info : SourceInfo} {p : AccessPath} : e.Answers I n info →
    p ∈ info.paths → G ⟨⟨info.definition, p.toPath, n, none⟩, p.cut⟩
  sink {n : StmtId} {d : Definition} {path : Option Path} : e.isSink (e.stmt n).id = true →
    e.oracle.sink? e.program (e.stmt n) path = some d → S d (e.stmt n).id

theorem Fitness.originsIn_handedOn (hz : e.zero = .zero k)
    (he : e.Admits G S (World.Remembers (.originsIn G S r))) : (Fitness.originsIn G).HandedOn
    (fun _ _ => Fact.OriginsIn G) e (SinkHit.Within G S) (World.Remembers (.originsIn G S r)) where
  derived _ _ := Fact.heritable_originsIn
  passing _ _ := Fact.heritable_originsIn
  zero _ _ := by
    rw [hz]
    exact Fact.originsIn_zero k
  arrives hf := hf
  returns _ _ hf := hf
  activated i _ hf _ := hf.activate i
  creates _ _ hanswer hp := Fact.originsIn_ofSource (he.source hanswer hp)
  records _ _ := fun _ _ _ hsink hd hg _ => ⟨hg, he.sink hsink hd⟩
  along _ hf := hf
  enter _ _ _ hf := hf
  back _ hf := hf
  leave _ _ _ hf := hf
  registers _ := ⟨fun _ _ hw _ => { hw with }, fun _ _ hw _ => { hw with }⟩
  neighbor _ hg hw := hw.addNeighbor _ hg _
  entry _ := trivial
  exit _ _ _ := trivial
  context _ _ _ := trivial

theorem Fitness.originsIn_asked {ρ : MethodId → Region} : (Fitness.originsIn G).Asked
    (fun _ _ => Fact.OriginsIn G) e ρ (Message.Allowed (.originsIn G S r)) where
  sends _ _ :=
    { search := fun _ _ _ hg => hg.kind.deactivate _ _ _
      pointsTo := fun _ hf _ hg => hf.makes hg.kind
      global := fun _ hg => hg.kind }
  hands _ := { here := fun _ hg => hg.kind, global := fun _ hg => hg.kind }

end Runs

/-! ## Endpoints -/

/-- The origin is genuine: the statement is reachable, and the oracle says of it, whatever paths
were made before, that it is a source by this definition and taints this path. -/
structure Env.Originates (e : Env) (x : Found) : Prop where
  covered : e.Covers x.origin.stmt
  answer : ∃ info : SourceInfo,
    (∀ s : PathStore, s.rules = e.pathRules →
      ((e.oracle.source? e.program (e.stmt x.origin.stmt)).run s).1 = some info) ∧
    info.definition = x.origin.definition ∧
    ∃ p ∈ info.paths, p.toPath = x.origin.path ∧ p.cut = x.cut

/-- The statement is reachable, and the oracle says that it is a sink by this definition. -/
structure Env.Observes (e : Env) (d : Definition) (n : StmtId) : Prop where
  covered : e.Covers n
  answer : e.oracle.sink? e.program (e.stmt n) none = some d

theorem Env.originates_of_answer {e : Env} {n : StmtId} {info : SourceInfo} {p : AccessPath}
    {s : PathStore} (hn : e.Covers n) (hs : s.rules = e.pathRules)
    (hinfo : ((e.oracle.source? e.program (e.stmt n)).run s).1 = some info)
    (hp : p ∈ info.paths) : e.Originates ⟨⟨info.definition, p.toPath, n, none⟩, p.cut⟩ := by
  obtain ⟨i, hi⟩ : (e.oracle.source? e.program (e.stmt n)).Settled e.pathRules :=
    Oracle.source?_settled
  refine ⟨hn, info, fun s' hs' => ?_, rfl, p, hp, rfl, rfl⟩
  rw [(hi s' hs').1, ← (hi s hs).1]
  exact hinfo

namespace Analysis
variable {a : Analysis}

theorem admits_passSetup {sources sinks : List StmtId} {I : World → Prop}
    (hids : ∀ n, (a.env.stmt n).id = n) (hI : ∀ w, I w → w.paths.rules = a.env.pathRules)
    (hsources : ∀ n ∈ sources, a.env.Covers n) (hsinks : ∀ n ∈ sinks, a.env.Covers n) :
    (a.passSetup sources sinks).env.Admits a.env.Originates a.env.Observes I where
  source {n info p} hanswer hp := by
    obtain ⟨hsource, w, hw, hinfo⟩ := hanswer
    have hn : n ∈ sources := List.contains_iff_mem.mp hsource
    exact Env.originates_of_answer (e := a.env) (hsources n hn) (hI w hw) hinfo hp
  sink {n d path} hsink hd := by
    have hid : ((a.passSetup sources sinks).env.stmt n).id = n := hids n
    rw [hid] at hsink ⊢
    have hn : n ∈ sinks := List.contains_iff_mem.mp hsink
    exact ⟨hsinks n hn, Oracle.sink?_none_of_path hd⟩

theorem bears_passSetup {k : Nat} (sources : List StmtId) (hids : ∀ n, (a.env.stmt n).id = n)
    (hz : a.env.zero = .zero k) (hsources : ∀ n ∈ sources, n ∈ a.scan.1) :
    (a.passSetup sources a.scan.2.1).Bears
      (World.Remembers (.originsIn a.env.Originates a.env.Observes a.env.pathRules))
      ((Fitness.originsIn a.env.Originates).within (a.passSetup sources a.scan.2.1).env
        fun _ => Region.whole) := by
  have hadmits : (a.passSetup sources a.scan.2.1).env.Admits a.env.Originates a.env.Observes
      (World.Remembers (.originsIn a.env.Originates a.env.Observes a.env.pathRules)) :=
    admits_passSetup hids (fun _ hw => hw.rules)
      (fun n hn => covers_source hids n (hsources n hn)) (covers_sink hids)
  exact Setup.bears_remembers (e := (a.passSetup sources a.scan.2.1).env) hz .whole
    (fun _ _ => trivial) (fun _ hh => hh.1)
    (fun _ _ _ hf => hf) (Fitness.originsIn_handedOn hz hadmits) Fitness.originsIn_asked

/-- **No endpoint is invented.** The run is one of the runs in any order, and whatever the order, if
a connection is reported then its source is a statement of a reachable method that the oracle takes
for a source by the reported definition, with the reported path among those it taints; and its sink
is a statement of a reachable method that the oracle takes for a sink by the reported definition. -/
theorem connections_are_genuine {p : Program} {extra : List (StmtId × MethodId)} {k : Nat}
    (hp : p.Assembled) (hgraph : a.env.graph = .ofProgram p extra) (hz : a.env.zero = .zero k) :
    (∃ σ, a.run = a.runBy σ) ∧ ∀ σ, ∀ c ∈ (a.runBy σ).results.connections,
      a.env.Originates c.source ∧ a.env.Observes c.sink.definition c.sink.stmt := by
  refine ⟨⟨_, run_eq_runBy⟩, fun σ c hc => ?_⟩
  have hids : ∀ n, (a.env.stmt n).id = n := hp.stmt_ids hgraph
  have hs := fun sources => bears_passSetup sources hids hz
  have hK : Shared a.env.pathRules _ fun _ =>
      .originsIn a.env.Originates a.env.Observes a.env.pathRules :=
    ⟨fun _ => rfl, fun _ => rfl, fun _ => trivial⟩
  obtain ⟨hmet, -⟩ := solveBy_remembers hs hK σ
  obtain ⟨h, ⟨-, -, hfact, hsink⟩, hd, hn, g, hback, horigin, hcut⟩ := runBy_backed hs hK σ c hc
  refine ⟨?_, hd ▸ hn ▸ hsink⟩
  have hg := hfact.leadsBack hmet hback g (.refl g) _ horigin
  rw [hcut] at hg
  exact hg

/-- What `main` gets from the source must not be handed to `keep`. -/
def guardedHandOver : Analysis where
  env :=
    { graph := .ofProgram handOver []
      oracle := (({} : Oracle).addSource ⟨"App", "source", [], .cls "java.lang.String"⟩
        [.result]).addSink ⟨"App", "keep", [.cls "java.lang.String"], .void⟩ none }

theorem guardedHandOver_reports :
    let results := guardedHandOver.run.results
    results.ends = [(0, 1)] ∧ results.hits.map (·.stmt) = [1] ∧
      ∀ f, (guardedHandOver.solveBy fun _ => .fixed fun _ => 0).1.world.neighborsOf f = [] := by
  have hsources : guardedHandOver.scan.1 = [0] := scan_sources (by decide +kernel) (by decide)
  have hsinks : guardedHandOver.scan.2.1 = [1] := scan_sinks (by decide +kernel) (by decide)
  have hreported : guardedHandOver.reported (fun _ => 0) 7 [0] [1] = some [(0, 1)] := by
    decide +kernel
  rw [run_eq_fixed]
  exact (runBy_of_reported (by decide) hsources hsinks (by decide) hreported).2

/-- What is reported of it leads from the source call to the call of `keep`, in any order. -/
theorem guardedHandOver_connections :
    let e := guardedHandOver.env
    handOver.Assembled ∧ e.graph = .ofProgram handOver [] ∧ e.zero = .zero 0 ∧
      guardedHandOver.run.results.ends = [(0, 1)] ∧
      ∀ σ, ∀ c ∈ (guardedHandOver.runBy σ).results.connections,
        c.source.origin.stmt = 0 ∧ c.sink.stmt = 1 := by
  intro e
  refine ⟨assembled_handOver, rfl, rfl, guardedHandOver_reports.1, fun σ c hc => ?_⟩
  obtain ⟨hsource, hsink⟩ := (connections_are_genuine (a := guardedHandOver) (k := 0)
    assembled_handOver rfl rfl).2 σ c hc
  have hsources : ∀ m ∈ e.graph.reachable, ∀ n ∈ (e.method m).body,
      ((e.oracle.source? e.program (e.stmt n)).run { rules := e.pathRules }).1.isSome → n = 0 := by
    decide +kernel
  have hsinks : ∀ m ∈ e.graph.reachable, ∀ n ∈ (e.method m).body,
      (e.oracle.sink? e.program (e.stmt n) none).isSome → n = 1 := by
    decide +kernel
  constructor
  · obtain ⟨⟨m, hm, hn⟩, info, hinfo, -⟩ := hsource
    refine hsources m hm _ hn ?_
    rw [hinfo _ rfl]
    rfl
  · obtain ⟨⟨m, hm, hn⟩, hd⟩ := hsink
    refine hsinks m hm _ hn ?_
    rw [hd]
    rfl

end Analysis
end LeakTrace
