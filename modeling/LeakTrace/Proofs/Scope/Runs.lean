import LeakTrace.Proofs.Scope.Flows
import LeakTrace.Proofs.Solve.Bearing

/-!
# Solvers keep facts in their scope

Each method of a program has a region. An edge is fit if its fact fits in the region of the method
that holds the statement, and is there as may be said of facts at that statement; flow functions
make fit edges of fit ones, so both solvers know fit edges only, whatever the order of their tasks.
-/

namespace LeakTrace
variable {e : Env} {ρ : MethodId → Region}

/-- Every method has a region that it lies in, and a statement of a region has the scope of its
method. -/
structure Partition (e : Env) (ρ : MethodId → Region) : Prop where
  closed : ∀ m, (ρ m).Closed e
  contains : ∀ m, (ρ m).Contains e m
  own : ∀ n, (ρ (e.graph.methodOf n)).stmts n
  locals : ∀ m n, (ρ m).stmts n → (ρ (e.graph.methodOf n)).locals = (ρ m).locals

theorem Partition.whole : Partition e fun _ => Region.whole where
  closed _ := Region.whole_closed
  contains _ := Region.whole_contains
  own _ := trivial
  locals _ _ _ := rfl

/-- What the fact says fits in the method that holds the statement. -/
def Region.Places (e : Env) (ρ : MethodId → Region) (n : StmtId) (t : Taint) : Prop :=
  t.Fits (ρ (e.graph.methodOf n)).locals

/-- Facts have to fit in their method as well. -/
def Fitness.within (F : Fitness) (e : Env) (ρ : MethodId → Region) : Fitness :=
  { F with fact := fun side n f => f.Fits (ρ (e.graph.methodOf n)).locals (F.fact side n) }

namespace Partition
variable {H H' : Fact → Prop} {t n : StmtId} {m : MethodId}

variable (hρ : Partition e ρ)
include hρ

/-- What comes out fits where it goes, also if what came in is stored in its place. -/
theorem places (hn : (ρ m).stmts n) {f g : Fact} (hg : g.Fits (ρ m).locals H) (hf : H f)
    (hH : ∀ h, H h → H' h) : (g.stored f).Fits (ρ (e.graph.methodOf n)).locals H' := by
  refine ⟨?_, hH _ ?_⟩
  · rw [Fact.toTaint_stored, hρ.locals m n hn]
    exact hg.toFits
  · exact Fact.stored_of hg.kind hf

theorem own_succs (ht : t ∈ e.graph.forward.succs n) : (ρ (e.graph.methodOf n)).stmts t :=
  (hρ.closed _).succs n (hρ.own n) t ht

theorem own_preds (ht : t ∈ e.graph.forward.preds n) : (ρ (e.graph.methodOf n)).stmts t :=
  (hρ.closed _).preds n (hρ.own n) t ht

end Partition

/-! ## Flow functions of both analyses -/

variable {M : Message → Prop} {R : SinkHit → Prop} {I : World → Prop} {F : Fitness}
  {W : StmtId → StmtId → Fact → Prop} {k : Nat} {watch : Watch}

/-- What an invariant of worlds has to put up with while solvers run. -/
structure Upkeep.Lasting (e : Env) (M : Message → Prop) (R : SinkHit → Prop) (I : World → Prop) :
    Prop extends Upkeep e M R I where
  emptied : ∀ w, I w → I { w with outbox := [] }
  covered : ∀ w k, I w → I (w.coverCall k)

/-- The call lets something of the fact into the callee. -/
def Env.LetsIn (e : Env) (side : Side) (f : Fact) (n : StmtId) (m : MethodId) : Prop :=
  ∃ d1 w, ((((Problem.ofSide e.graph side).call d1 f n m).run e).run w).1.facts ≠ []

/-- What is said of facts is handed on: by derivations, to what statements create and record, and
along all edges of the graph that something goes along.

On its way forward a fact is at a statement, then it is passing it, and then at the next one. In
between it may become active, so `W n c` is what is said of facts at `n` that are about to have
passed `c`: `n` itself or, where `n` is an exit, the call. -/
structure Fitness.HandedOn (F : Fitness) (W : StmtId → StmtId → Fact → Prop) (e : Env)
    (R : SinkHit → Prop) (I : World → Prop) : Prop where
  derived (side : Side) (n : StmtId) : Fact.Heritable (F.fact side n)
  passing (n c : StmtId) : Fact.Heritable (W n c)
  zero (side : Side) (n : StmtId) : F.fact side n e.zero
  arrives {n : StmtId} {f : Fact} : F.fact .forward n f → W n n f
  returns {exit call : StmtId} {f : Fact} : F.exit .forward exit →
    F.context call (e.graph.methodOf exit) → F.fact .forward exit f → W exit call f
  activated {n c unit : StmtId} {f : Fact} (i : Nat) : unit = c ∨ unit = (e.stmt c).id → W n c f →
    f.WakesAt I unit → W n c (f.activate i)
  creates {n : StmtId} {f : Fact} {info : SourceInfo} {a : AccessPath} {i : Nat} :
    e.isZero f = true → W n n f → e.Answers I (e.stmt n).id info → a ∈ info.paths →
    W n n (.ofSource i ⟨info.definition, a.toPath, (e.stmt n).id, none⟩ a.cut false false)
  records (n c : StmtId) : (e.stmt n).Records e R (W n c)
  along {n c t : StmtId} {f : Fact} : t ∈ e.graph.forward.succs c → W n c f → F.fact .forward t f
  enter {side : Side} {n t : StmtId} {m : MethodId} {f g : Fact} : F.context n m →
    t ∈ (Problem.ofSide e.graph side).view.starts m → e.LetsIn side f n m → F.fact side n g →
    F.fact side t g
  back {n t : StmtId} {f : Fact} : t ∈ e.graph.forward.preds n → F.fact .backward n f →
    F.fact .backward t f
  leave {exit call t : StmtId} {f : Fact} : F.exit .backward exit →
    F.context call (e.graph.methodOf exit) → t ∈ e.graph.forward.preds call →
    F.fact .backward exit f → F.fact .backward t f
  registers {call : StmtId} {m : MethodId} : F.context call m →
    World.Registers e I call m ∧ World.Registers e I (e.stmt call).id (e.method m).id
  neighbor {side : Side} {n : StmtId} {f g : Fact} {w : World} {merge : Bool} : F.fact side n f →
    F.fact side n g → I w → I (w.addNeighbor f g merge).2
  entry : ∀ ed : Edge, F.entry ed.key ed.d2
  exit : ∀ side n, (Problem.ofSide e.graph side).view.isExit n = true → F.exit side n
  context : ∀ n m, e.graph.Calls n m → F.context n m

/-- Both analyses may ask for edges about the facts at a statement, in the region of its method. -/
structure Fitness.Asked (F : Fitness) (W : StmtId → StmtId → Fact → Prop) (e : Env)
    (ρ : MethodId → Region) (M : Message → Prop) : Prop where
  sends : ∀ n c, (ρ (e.graph.methodOf c)).Sends e (W n c) (e.stmt c).id M
  hands : ∀ n, (ρ (e.graph.methodOf n)).Hands e (F.fact .backward n) M

namespace Fitness
variable {n c : StmtId} {f : Fact}

variable (hF : F.HandedOn W e R I)
include hF

theorem HandedOn.suits (hM : F.Asked W e ρ M) (n : StmtId) :
    (e.stmt n).Suits e M I (ρ (e.graph.methodOf n)) (W n n) where
  creates := hF.creates
  sends := hM.sends n n

theorem HandedOn.welcomes (hf : W n c f) : (e.stmt n).Welcomes e R f :=
  (hF.records n c).welcomes (hF.passing n c) hf

theorem HandedOn.activateAt (hI : World.Unmoved I) {P : Local → Prop} (hf : f.Fits P (W n c)) :
    Track.Keeps e I (Track.activateAt f (e.stmt c).id) fun now =>
      now.Fits P (W n c) ∧ (e.stmt n).Welcomes e R now :=
  (Track.activateAt_fits hI hf fun hwakes i => hF.activated i (.inr rfl) hf.kind hwakes).mono
    fun _ hnow => ⟨hnow, hF.welcomes hnow.kind⟩

end Fitness

theorem Setup.bears_ofEnv (hI : Upkeep.Lasting e M R I) (hz : e.zero = .zero k)
    (hρ : Partition e ρ) (hF : F.HandedOn W e R I) (hM : F.Asked W e ρ M)
    (hmessage : ∀ w, I w → ∀ side d1 n d2, Message.edge side d1 n d2 ∈ w.outbox →
      (F.within e ρ).fact side n d2) :
    (Setup.ofEnv e watch).Bears I (F.within e ρ) where
  zero side n := by
    refine ⟨⟨.inr (Path.rooted_of_base_none ?_)⟩, hF.zero side n⟩
    change e.zero.path.base = none
    rw [hz]
    rfl
  neighbor hf hg := hF.neighbor hf.kind hg.kind
  entry := hF.entry
  exit := hF.exit
  context := hF.context
  emptied := hI.emptied
  message := hmessage
  contexts _ _ _ _ _ := Problem.contexts_call
  normal {side d1 f n t} hf ht := by
    cases side with
    | forward =>
      have hpass : W n n f := hF.arrives hf.kind
      refine (Forward.normal_fits hI.toUpkeep (hF.passing n n) (hρ.closed _) (hF.suits hM n)
        (fun _ => hF.welcomes) (hf.imp fun _ => trivial)
        (fun hwaits i => hF.activated i (.inl rfl) hpass (.inl hwaits))
        (fun _ => hpass) (hρ.own n)).mono fun _ ho g hg => ?_
      exact hρ.places (hρ.own_succs ht) (ho g hg) hpass fun _ => hF.along ht
    | backward =>
      refine (Backward.normal_fits hI.toUpkeep (hF.derived _ n) (hρ.closed _) (hM.hands n) hf
        (hρ.own n) (hρ.own_preds ht)).mono fun _ ho g hg => ?_
      exact hρ.places (hρ.own_preds ht) (ho g hg) hf.kind fun _ => hF.back ht
  call {side d1 f n m} hf hcall w hw := by
    have hin {g : Fact} (hg : g ∈ ((((Problem.ofSide e.graph side).call d1 f n m).run e).run
        w).1.facts) : e.LetsIn side f n m := ⟨d1, w, List.ne_nil_of_mem hg⟩
    cases side with
    | forward =>
      obtain ⟨ho, hI'⟩ := Forward.call_fits hI.toUpkeep (hF.derived _ n) (hρ.closed m)
        (hρ.contains m) (fun _ w hw => hI.covered w _ hw) hf.kind w hw
      refine ⟨fun g hg t ht => ?_, hI'⟩
      have hbody := List.mem_of_mem_head? (Option.mem_toList.mp ht)
      exact hρ.places ((hρ.contains m).body t hbody) (ho g hg) hf.kind
        fun _ => hF.enter hcall ht (hin hg)
    | backward =>
      obtain ⟨ho, hI'⟩ := Backward.call_fits hI.unmoved (hF.derived _ n) (hρ.closed m)
        (hρ.contains m) hf.kind w hw
      refine ⟨fun g hg t ht => ?_, hI'⟩
      exact hρ.places ((hρ.contains m).body t (List.mem_filter.mp ht).1) (ho g hg) hf.kind
        fun _ => hF.enter hcall ht (hin hg)
  ret {side call exit site f d1 contexts} hf hexit hcall := by
    cases side with
    | forward =>
      have hpass : f.Fits (ρ (e.graph.methodOf exit)).locals (W exit call) :=
        hf.imp (hF.returns hexit hcall)
      refine (Forward.ret_fits hI.toUpkeep (hF.passing exit call) (hρ.closed _)
        (hM.sends exit call) (hρ.own call) ((hF.activateAt hI.unmoved hpass).mono fun _ hg =>
          ⟨hg.1.kind, hg.2⟩)).mono fun _ ho g hg t ht => ?_
      exact hρ.places (hρ.own_succs ht) (ho g hg) hpass.kind fun _ => hF.along ht
    | backward =>
      have hown : ∀ c ∈ some call, (ρ (e.graph.methodOf call)).stmts c := by
        rintro _ ⟨⟩
        exact hρ.own call
      have hreg : ∀ c ∈ some call, World.Registers e I c (e.graph.methodOf exit) ∧
          World.Registers e I (e.stmt c).id (e.method (e.graph.methodOf exit)).id := by
        rintro _ ⟨⟩
        exact hF.registers hcall
      refine (Backward.ret_fits hI.toUpkeep (hF.derived _ exit) hreg (hρ.closed _) hown
        (hM.hands exit) (hρ.contains _) hf (hρ.own exit)).mono fun _ ho g hg t ht => ?_
      exact hρ.places (hρ.own_preds ht) (ho g hg) hf.kind fun _ => hF.leave hexit hcall ht
  leave {side exit f d1} hf := by
    cases side with
    | forward =>
      exact (Forward.ret_none_fits hI.toUpkeep (hF.passing exit exit)
        (hρ.closed (e.graph.methodOf exit)) (hF.welcomes (hF.arrives hf.kind))
        (hF.arrives hf.kind)).mono fun _ _ => trivial
    | backward => exact .read (.pure trivial)
  callToReturn {side d1 f n t} hf ht := by
    cases side with
    | forward =>
      have hpass : f.Fits (ρ (e.graph.methodOf n)).locals (W n n) := hf.imp hF.arrives
      refine (Forward.callToReturn_fits hI.toUpkeep (hF.passing n n) (hρ.closed _)
        (hF.suits hM n) (hρ.own n) (hF.activateAt hI.unmoved hpass)).mono fun _ ho g hg => ?_
      exact hρ.places (hρ.own_succs ht) (ho g hg) hpass.kind fun _ => hF.along ht
    | backward =>
      refine (Backward.callToReturn_fits hI.toUpkeep (hF.derived _ n) (hρ.closed _) (hM.hands n)
        (hρ.own n) hf).mono fun _ ho g hg => ?_
      exact hρ.places (hρ.own_preds ht) (ho g hg) hf.kind fun _ => hF.back ht

/-! ## Where only the place of a fact counts -/

/-- Anything may be said at any statement. -/
def Fitness.any : Fitness := .ofTaints fun _ _ _ => True

theorem Fitness.within_any : Fitness.any.within e ρ = .ofTaints fun _ => Region.Places e ρ := by
  have hfact : (Fitness.any.within e ρ).fact = fun _ n f => Region.Places e ρ n f.toTaint := by
    funext side n f
    exact propext ⟨fun h => h.toFits, fun h => ⟨h, trivial⟩⟩
  unfold Fitness.ofTaints
  rw [← hfact]
  rfl

theorem Fitness.any_handedOn (hR : ∀ h : SinkHit, h.fact.waitsFor = none → R h)
    (hregister : ∀ w a, I w → I { w with activations := a })
    (hneighbor : ∀ w n, I w → I { w with neighbors := n }) :
    Fitness.any.HandedOn (fun _ _ _ => True) e R I where
  derived _ _ := fun _ _ _ _ => trivial
  passing _ _ := fun _ _ _ _ => trivial
  zero _ _ := trivial
  arrives _ := trivial
  returns _ _ _ := trivial
  activated _ _ _ _ := trivial
  creates _ _ _ _ := trivial
  records _ _ := fun _ _ _ _ _ _ hg => hR _ hg
  along _ _ := trivial
  enter _ _ _ _ := trivial
  back _ _ := trivial
  leave _ _ _ _ := trivial
  registers _ := ⟨fun w _ hw _ => hregister w _ hw, fun w _ hw _ => hregister w _ hw⟩
  neighbor _ _ hw := World.addNeighbor_of fun n => hneighbor _ n hw
  entry _ := rfl
  exit _ _ _ := trivial
  context _ _ _ := trivial

theorem Fitness.asked_all : Fitness.any.Asked (fun _ _ _ => True) e ρ fun _ => True where
  sends _ _ := Region.sends_all
  hands _ := ⟨fun _ _ => trivial, fun _ _ => trivial⟩

end LeakTrace
