import LeakTrace.Proofs.Solve.Tables

/-!
# One walk through the work on an edge

Work may fail halfway, and what it did up to there stays, so `Work.Keeps` speaks of the machine that
is left behind either way.

**The walk is the same for every invariant.** What differs is which edges may be propagated, which
contexts entered and which exits left (`Terms`), and why the invariant outlasts each single move of
a task. `Setup.Carries` collects the moves that any task may make and `Setup.CarriesAt` those that
belong to the edge of one task; `CarriesAt.process` puts them together along the text of the engine.
-/

namespace LeakTrace
variable {α : Type} {site : StmtId}

/-! ## Work that may fail -/

/-- From a machine with `J` the action ends in one with `I`, even if it fails; if it does not, in a
value with `Q`. It only fails if an observer may fail it. -/
def Work.Leads (s : Setup) (J : Machine → Prop) {α : Type} (act : Work α) (I : Machine → Prop)
    (Q : α → Prop := fun _ => True) : Prop :=
  ∀ m, J m → I (m.run s act).2 ∧ (∀ a, (m.run s act).1 = .ok a → Q a) ∧
    (s.watch.failAt = none → ∃ a, (m.run s act).1 = .ok a)

/-- What holds of the machine before holds of it afterwards. -/
def Work.Keeps (s : Setup) (I : Machine → Prop) {α : Type} (act : Work α)
    (Q : α → Prop := fun _ => True) : Prop :=
  Work.Leads s I act I Q

namespace Work.Leads
variable {β : Type} {s : Setup} {I J K : Machine → Prop} {x y : Work α} {Q : α → Prop}
  {R : β → Prop} {c : Prop} {m : Machine} {a : α} {f : α → Work β}

theorem pure (h : Q a) : Leads s I (pure a) I Q := by
  intro m hm
  refine ⟨hm, ?_, fun _ => ⟨a, rfl⟩⟩
  rintro _ ⟨⟩
  exact h

theorem bind_of (h : Leads s J x K Q) (hfail : ∀ m, K m → I m) (hf : ∀ a, Q a → Leads s K (f a) I R) :
    Leads s J (x >>= f) I R := by
  intro m hm
  obtain ⟨hm', hq, hok⟩ := h m hm
  rw [Machine.run_bind]
  rcases hx : m.run s x with ⟨r, m'⟩
  rw [hx] at hm' hq hok
  cases r with
  | ok a => exact hf a (hq a rfl) m' hm'
  | error message =>
    refine ⟨hfail m' hm', nofun, fun hwatch => ?_⟩
    obtain ⟨_, ha⟩ := hok hwatch
    cases ha

theorem bind (h : Leads s J x I Q) (hf : ∀ a, Q a → Leads s I (f a) I R) :
    Leads s J (x >>= f) I R :=
  h.bind_of (fun _ hm => hm) hf

protected theorem read {f : Setup → Work β} (h : Leads s J (f s) I R) : Leads s J (read >>= f) I R :=
  fun m hm => h m hm

theorem get_bind_eq {f : Machine → Work β} (h : ∀ m, J m → Leads s (· = m) (f m) I R) :
    Leads s J (get >>= f) I R :=
  fun m hm => h m hm m rfl

protected theorem get {f : Machine → Work β} (h : ∀ m, J m → Leads s J (f m) I R) :
    Leads s J (get >>= f) I R :=
  fun m hm => h m hm m hm

theorem modify_bind {F : Machine → Machine} {f : Unit → Work β} (h : ∀ m, J m → K (F m))
    (hf : Leads s K (f ()) I R) : Leads s J (modify F >>= f) I R :=
  fun m hm => hf (F m) (h m hm)

theorem modify {f : Machine → Machine} (h : ∀ m, J m → I (f m)) :
    Leads s J (modify f : Work Unit) I :=
  fun m hm => ⟨h m hm, fun _ _ => trivial, fun _ => ⟨(), rfl⟩⟩

theorem throw {message : String} (h : s.watch.failAt ≠ none) :
    Leads s I (throw message : Work α) I Q :=
  fun _ hm => ⟨hm, nofun, fun hnone => absurd hnone h⟩

theorem dite [Decidable c] (ht : c → Leads s J x I Q) (he : ¬c → Leads s J y I Q) :
    Leads s J (if c then x else y) I Q := by
  split
  · exact ht ‹c›
  · exact he ‹¬c›

theorem ite [Decidable c] (ht : Leads s J x I Q) (he : Leads s J y I Q) :
    Leads s J (if c then x else y) I Q :=
  .dite (fun _ => ht) fun _ => he

theorem guard [Decidable c] (h : Q a) (hx : Leads s I x I Q) :
    Leads s I (if c then Pure.pure a else x) I Q :=
  .ite (.pure h) hx

theorem forM {l : List β} {f : β → Work PUnit} (h : ∀ x ∈ l, Leads s I (f x) I) :
    Leads s I (l.forM f) I := by
  induction l with
  | nil => exact pure trivial
  | cons x rest ih =>
    exact (h x List.mem_cons_self).bind fun _ _ => ih fun y hy => h y (List.mem_cons_of_mem x hy)

theorem mono {Q' : α → Prop} (h : Leads s J x I Q) (hQ : ∀ a, Q a → Q' a) : Leads s J x I Q' := by
  intro m hm
  obtain ⟨hm', hq, hok⟩ := h m hm
  exact ⟨hm', fun a ha => hQ a (hq a ha), hok⟩

theorem at_machine (h : Leads s J x I Q) (hm : J m) : Leads s (· = m) x I Q := by
  rintro _ rfl
  exact h _ hm

theorem of_ends (h : ∀ m, J m → m.Ends s x fun a m' => I m' ∧ Q a) : Leads s J x I Q := by
  intro m hm
  obtain ⟨a, m', hrun, hm', hq⟩ := h m hm
  rw [hrun]
  refine ⟨hm', ?_, fun _ => ⟨a, rfl⟩⟩
  rintro _ ⟨⟩
  exact hq

theorem ends (h : Leads s J x I Q) (hwatch : s.watch.failAt = none) (hm : J m) :
    m.Ends s x fun a m' => I m' ∧ Q a := by
  obtain ⟨hm', hq, hok⟩ := h m hm
  obtain ⟨a, ha⟩ := hok hwatch
  exact ⟨a, (m.run s x).2, Prod.ext ha rfl, hm', hq a ha⟩

end Work.Leads

theorem Work.Keeps.and_keeps {s : Setup} {I J : Machine → Prop} {x : Work α} {Q R : α → Prop}
    (h : Keeps s I x Q) (hact : Keeps s J x R) : Keeps s (fun m => I m ∧ J m) x Q :=
  fun m hm => ⟨⟨(h m hm.1).1, (hact m hm.2).1⟩, (h m hm.1).2⟩

theorem Machine.Ends.and_keeps {s : Setup} {m : Machine} {I : Machine → Prop} {act : Work α}
    {Q : α → Machine → Prop} (h : m.Ends s act Q) (hact : Work.Keeps s I act) (hm : I m) :
    m.Ends s act fun a m' => Q a m' ∧ I m' := by
  obtain ⟨a, m', hrun, hq⟩ := h
  have hm' := (hact m hm).1
  rw [hrun] at hm'
  exact ⟨a, m', hrun, hq, hm'⟩

variable {s : Setup} {I J : Machine → Prop}

/-! ## Edges and flow functions -/

@[simp]
theorem Machine.world_stop (m : Machine) (sides : List Side) (r : StopReason) :
    (m.stop sides r).world = m.world := by
  have hfold : (sides.foldl (fun m side => m.modifyTable side (·.stop r)) m).world = m.world :=
    List.foldlRecOn (motive := fun m' : Machine => m'.world = m.world) sides _ rfl
      fun m' hm' side _ => (world_modifyTable m' side _).trans hm'
  unfold Machine.stop
  dsimp only
  split <;> exact hfold

@[simp]
theorem Machine.world_cancel (m : Machine) (sides : List Side) :
    (m.cancel sides).world = m.world := by
  unfold cancel
  split
  · rfl
  · exact world_stop m sides .cancelled

namespace Work
variable {side : Side} {e : Edge} {kind : FlowKind} {f : Fact} {n : StmtId}

theorem join_keeps {stored other : Fact} {call : Option StmtId}
    (hneighbor : ∀ m merge, I m → I { m with world := (m.world.addNeighbor stored other merge).2 })
    (hmark : ∀ m, I m → I (m.modifyTable side fun t => { t with joined := t.joined + 1 })) :
    Keeps s I (join side stored other call) := by
  refine .read (.modify fun m hm => ?_)
  dsimp only
  split
  · exact hm
  · split
    · exact hmark _ (hneighbor m _ hm)
    · exact hneighbor m _ hm

theorem deliverAll_keeps (habort : ∀ m, I m → I (m.stop s.sides .abortRequested))
    (hempty : ∀ m, I m → I { m with world := { m.world with outbox := [] } })
    (hedge : ∀ m, I m → ∀ side d1 n d2, Message.edge side d1 n d2 ∈ m.world.outbox →
      Keeps s I (addEdge side ⟨d1, n, d2⟩)) :
    Keeps s I deliverAll := by
  refine .get fun m hm => .modify_bind hempty (.forM fun message hmem => ?_)
  have hmem := List.mem_reverse.mp hmem
  cases message with
  | edge side d1 n d2 => exact hedge m hm side d1 n d2 hmem
  | abort => exact .read (.modify habort)

section
variable (hseen : ∀ m seen, I m → I { m with seen })
  (hcancel : ∀ n, s.watch.cancelAt = some n → ∀ m, I m → I (m.cancel s.sides))
include hseen hcancel

/-- An observer sees the fact, and may fail the work or cancel the run. -/
theorem observe_keeps : Keeps s I (observe kind f n) := by
  have hlast : Keeps s I (do
      if s.watch.cancelAt == some n then modify fun m => m.cancel s.sides) :=
    .dite (fun hat => .modify (hcancel n (by simpa using hat))) fun _ => .pure trivial
  refine .read (.modify_bind (fun m hm => hseen m _ hm) ?_)
  dsimp only
  split
  · next t message hfail =>
    refine .ite ?_ hlast
    exact (Leads.throw (Q := fun _ => True) (by simp [hfail])).bind fun _ _ => hlast
  · exact hlast

/-- Evaluating a flow function: what it leaves behind is as `J` says until its messages are
delivered, and what comes out is as `Q` says, or nothing where observers drop it. -/
theorem evaluate_keeps {act : Track Flow} {Q : Flow → Prop}
    (hact : ∀ m, I m → Q ((act.run s.env).run m.world).1 ∧
      J { m with world := ((act.run s.env).run m.world).2 })
    (hdropped : s.watch.killAt ≠ [] → ∀ o, Q o → Q { o with facts := [] })
    (hdeliver : Leads s J deliverAll I) : Keeps s I (evaluate kind f act) Q := by
  refine .read (.get_bind_eq fun m hm => ?_)
  rcases hrun : (act.run s.env).run m.world with ⟨flow, world⟩
  have hflow : Q flow := by
    have hq := (hact m hm).1
    rwa [hrun] at hq
  -- Observers leave the world as it is, so the flow function still belongs to it afterwards.
  have hrest : Leads s (fun m' => I m' ∧ m'.world = m.world) (do
      modify fun m => { m with world }
      deliverAll
      return if flow.leftAt.any s.watch.killAt.contains then { flow with facts := [] } else flow)
      I Q := by
    refine .modify_bind (fun m' hm' => ?_) (hdeliver.bind fun _ _ => .pure ?_)
    · have hnow := (hact m' hm'.1).2
      rwa [hm'.2, hrun] at hnow
    · split
      · next hkilled =>
        refine hdropped (fun hnone => ?_) flow hflow
        rw [hnone] at hkilled
        cases hleft : flow.leftAt <;> simp [hleft] at hkilled
      · exact hflow
  dsimp only
  split
  · refine .at_machine (.bind_of (observe_keeps (fun m' seen hm' => ⟨hseen m' seen hm'.1, hm'.2⟩)
      fun n hn m' hm' => ⟨hcancel n hn m' hm'.1, ?_⟩) (fun _ hm' => hm'.1) fun _ _ => hrest) ⟨hm, rfl⟩
    rw [Machine.world_cancel]
    exact hm'.2
  · exact hrest.at_machine ⟨hm, rfl⟩

end
end Work

/-! ## What a task owes -/

/-- What may be propagated, entered and left. -/
structure Terms where
  edge : Side → Edge → Prop := fun _ _ => True
  /-- A call may enter the method with the fact, from all of the contexts. -/
  entered : Side → MethodId → Fact → StmtId → List Fact → Prop := fun _ _ _ _ _ => True
  /-- A method that was entered with the first fact may be left with the second. -/
  left : Side → MethodId → Fact → StmtId → Fact → Prop := fun _ _ _ _ _ => True

/-- All facts that a call flow finds may enter the callee. -/
def Terms.Enters (T : Terms) (s : Setup) (side : Side) (callee : MethodId) (e : Edge)
    (facts : FactSet) : Prop :=
  ∀ g ∈ facts, T.entered side callee (g.stored e.d2) e.stmt [e.d1] ∧
    ∀ n ∈ (s.problem side).view.starts callee, T.edge side ⟨g.stored e.d2, n, g.stored e.d2⟩

/-- The invariant outlasts what any task may do. -/
structure Setup.Carries (s : Setup) (T : Terms) (I : Machine → Prop) : Prop where
  propagate {side : Side} {e : Edge} {call : Option StmtId} : T.edge side e →
    Work.Keeps s I (Work.propagate side e call)
  register {m : Machine} {side : Side} {callee : MethodId} {d3 d1 : Fact} {call : StmtId} :
    T.entered side callee d3 call [d1] → I m →
    I (m.modifyTable side fun t => t.addIncoming callee d3 call d1)
  callers {m : Machine} {side : Side} {callee : MethodId} {d3 f : Fact} {exit : StmtId} : I m →
    T.left side callee d3 exit f → ∀ p ∈ (m.table side).callersOf callee d3,
      T.entered side callee d3 p.1 p.2
  summaries {m : Machine} {side : Side} {callee : MethodId} {d3 : Fact} {call : StmtId}
    {contexts : List Fact} : I m → T.entered side callee d3 call contexts →
    ∀ p ∈ (m.table side).summariesOf callee d3, T.left side callee d3 p.1 p.2
  ret {side : Side} {callee : MethodId} {d3 f : Fact} {call exit site : StmtId}
    {contexts : List Fact} : T.left side callee d3 exit f →
    T.entered side callee d3 call contexts → site ∈ (s.problem side).view.succs call →
    Work.Keeps s I (Work.evaluate .ret f
      ((s.problem side).ret (some call) callee exit (some site) f d3 contexts)) fun o =>
        ∀ g ∈ o.facts, ∀ d ∈ contexts, T.edge side ⟨d, site, g.stored f⟩

/-- The invariant outlasts every move of a task that works on the edge. -/
structure Setup.CarriesAt (s : Setup) (T : Terms) (I : Machine → Prop) (side : Side) (e : Edge) :
    Prop extends s.Carries T I where
  counts {m : Machine} : I m →
    I (m.modifyTable side fun t => { t with processed := t.processed + 1 })
  normal {t : StmtId} : s.env.graph.isCall e.stmt = false →
    t ∈ (s.problem side).view.succs e.stmt →
    Work.Keeps s I (Work.evaluate .normal e.d2 ((s.problem side).normal e.d1 e.d2 e.stmt t)) fun o =>
      ∀ g ∈ o.facts, T.edge side ⟨e.d1, t, g.stored e.d2⟩
  call {callee : MethodId} : callee ∈ s.env.graph.calleesOf e.stmt →
    Work.Keeps s I (Work.evaluate .call e.d2 ((s.problem side).call e.d1 e.d2 e.stmt callee))
      fun o => T.Enters s side callee e o.facts ∧
        ∀ c ∈ o.contexts, T.entered c.side c.callee c.entry c.call [c.d1]
  pass {site : StmtId} : site ∈ (s.problem side).view.succs e.stmt →
    Work.Keeps s I (Work.evaluate .callToReturn e.d2
      ((s.problem side).callToReturn e.d1 e.d2 e.stmt site)) fun o =>
        ∀ g ∈ o.facts, T.edge side ⟨e.d1, site, g.stored e.d2⟩
  left : (s.problem side).view.isExit e.stmt = true →
    T.left side (s.env.graph.methodOf e.stmt) e.d1 e.stmt e.d2
  /-- An exit that is known gets a neighbour. -/
  neighbor {m : Machine} {stored : Fact} {merge : Bool} :
    (s.problem side).view.isExit e.stmt = true → I m →
    (m.table side).summary? (s.env.graph.methodOf e.stmt) e.d1 e.stmt e.d2 = some stored →
    I { m with world := (m.world.addNeighbor stored e.d2 merge).2 }
  summarise {m : Machine} : (s.problem side).view.isExit e.stmt = true → I m →
    I (m.modifyTable side fun t => t.addSummary (s.env.graph.methodOf e.stmt) e.d1 e.stmt e.d2)
  unbalanced {call : StmtId} : call ∈ s.env.graph.callersOf (s.env.graph.methodOf e.stmt) →
    T.entered side (s.env.graph.methodOf e.stmt) e.d1 call [s.env.zero]
  leave : (s.problem side).view.isExit e.stmt = true →
    Work.Keeps s I (Work.evaluate .ret e.d2 ((s.problem side).ret none
      (s.env.graph.methodOf e.stmt) e.stmt none e.d2 e.d1 []))

variable {T : Terms} {side : Side} {e : Edge} {callee : MethodId} {call : StmtId} {d1 d3 f : Fact}

/-! ## The walk -/

namespace Setup.Carries
open Work

variable (hs : s.Carries T I) {contexts : List Fact}
include hs

theorem propagateAll {n : StmtId} {input : Fact} {call : Option StmtId} {facts : FactSet}
    (hfacts : ∀ g ∈ facts, T.edge side ⟨d1, n, g.stored input⟩) :
    Keeps s I (Work.propagateAll side d1 n input call facts) :=
  .forM fun g hg => hs.propagate (hfacts g hg)

theorem returnFlow {exit : StmtId} (hleft : T.left side callee d3 exit f)
    (h : T.entered side callee d3 call contexts) (hsite : site ∈ (s.problem side).view.succs call) :
    Keeps s I (Work.returnFlow side (some call) callee exit (some site) f d3 contexts) fun facts =>
      ∀ g ∈ facts, ∀ d ∈ contexts, T.edge side ⟨d, site, g.stored f⟩ :=
  .read ((hs.ret hleft h hsite).bind fun _ ho => .pure ho)

theorem enter (h : T.entered side callee d3 call [d1]) :
    Keeps s I (Work.enter side callee d3 call d1) := by
  refine .get fun _ _ => .guard trivial <| .modify_bind
    (fun _ hm => hs.register h hm) ?_
  refine .read (.get fun m hm => .forM fun p hp => .forM fun site hsite => ?_)
  exact (hs.returnFlow (hs.summaries hm h p hp) h hsite).bind fun _ hfacts =>
    hs.propagateAll fun g hg => hfacts g hg d1 List.mem_cons_self

theorem enterWith (h : T.entered side callee d3 call [d1])
    (hstarts : ∀ n ∈ (s.problem side).view.starts callee, T.edge side ⟨d3, n, d3⟩) :
    Keeps s I (Work.enterWith s side callee call d1 d3) :=
  .bind (.forM fun n hn => hs.propagate (hstarts n hn)) fun _ _ => hs.enter h

theorem callFlow {Q : FactSet → Prop}
    (h : Keeps s I (evaluate .call f ((s.problem side).call d1 f call callee)) fun o =>
      Q o.facts ∧ ∀ c ∈ o.contexts, T.entered c.side c.callee c.entry c.call [c.d1]) :
    Keeps s I (Work.callFlow side d1 f call callee) Q :=
  .read (.bind h fun _ ho => .bind (.forM fun c hc => hs.enter (ho.2 c hc)) fun _ _ =>
    .pure ho.1)

theorem returnTo (hleft : T.left side callee e.d1 e.stmt e.d2)
    (h : T.entered side callee e.d1 call contexts) :
    Keeps s I (Work.returnTo side callee e call contexts) := by
  refine .read (.forM fun site hsite => ?_)
  exact (hs.returnFlow hleft h hsite).bind fun _ hfacts => .forM fun d hd =>
    hs.propagateAll fun g hg => hfacts g hg d hd

end Setup.Carries

namespace Setup.CarriesAt
open Work

variable (hs : s.CarriesAt T I side e)
include hs

theorem processCallee (hcallee : callee ∈ s.env.graph.calleesOf e.stmt) :
    Keeps s I (Work.processCallee side e callee) := by
  refine .read (.guard trivial ?_)
  exact (hs.callFlow (hs.call hcallee)).bind fun _ hfacts => .forM fun g hg =>
    hs.enterWith (hfacts g hg).1 (hfacts g hg).2

theorem passCall (hsite : site ∈ (s.problem side).view.succs e.stmt) :
    Keeps s I (Work.passCall s side e site) :=
  (hs.pass hsite).bind fun _ ho => hs.propagateAll ho

theorem processCall : Keeps s I (Work.processCall side e) := by
  have hpast : Keeps s I (((s.problem side).view.succs e.stmt).forM (Work.passCall s side e)) :=
    .forM fun site hsite => hs.passCall hsite
  refine .read (.ite ?_ hpast)
  exact .bind (.forM fun callee hcallee => hs.processCallee hcallee) fun _ _ => hpast

theorem addSummary (hexit : (s.problem side).view.isExit e.stmt) :
    Keeps s I (Work.addSummary side (s.env.graph.methodOf e.stmt) e) := by
  refine .read (.guard trivial <| .get_bind_eq fun m hm => ?_)
  split
  · next hstored =>
    refine .ite (.modify_bind ?_ (.pure trivial)) <| .at_machine (.pure trivial) hm
    rintro _ rfl
    exact hs.neighbor hexit hm hstored
  · exact .at_machine (.modify_bind (fun _ hm => hs.summarise hexit hm) (.pure trivial)) hm

theorem processExit (hexit : (s.problem side).view.isExit e.stmt) :
    Keeps s I (Work.processExit side e) := by
  have hleft := hs.left hexit
  refine .read ((hs.addSummary hexit).bind fun _ _ => .guard trivial <| .get fun m hm => ?_)
  refine .bind (.forM fun p hp => hs.returnTo hleft (hs.callers hm hleft p hp)) fun _ _ =>
    .ite ?_ <| .pure trivial
  refine .bind (.forM fun call hcall => hs.returnTo hleft (hs.unbalanced hcall)) fun _ _ =>
    .ite ?_ <| .pure trivial
  exact .bind (.read ((hs.leave hexit).bind fun _ _ => .pure trivial)) fun _ (_ : True) =>
    .pure trivial

theorem processNormal (hcall : s.env.graph.isCall e.stmt = false) :
    Keeps s I (Work.processNormal side e) :=
  .read (.forM fun _ ht => (hs.normal hcall ht).bind fun _ ho => hs.propagateAll ho)

/-- **Work on an edge** keeps what each of its moves keeps. -/
theorem process : Keeps s I (Work.process side e) := by
  refine .read (.modify_bind (fun _ hm => hs.counts hm) ?_)
  refine .dite (fun _ => hs.processCall) fun hcall => ?_
  have hcall : s.env.graph.isCall e.stmt = false := by simpa using hcall
  refine .dite (fun hexit => ?_) fun _ => hs.processNormal hcall
  exact (hs.processExit hexit).bind fun _ _ => hs.processNormal hcall

end Setup.CarriesAt
end LeakTrace
