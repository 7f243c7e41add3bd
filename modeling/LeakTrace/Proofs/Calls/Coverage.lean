import LeakTrace.Proofs.Calls.Branches
import LeakTrace.Proofs.Calls.Tasks
import LeakTrace.Proofs.Evaluation
import LeakTrace.Proofs.Scope.Tasks

/-!
# A branch covers one callee of a call

When the forward solver works on a conditional fact at a call, it asks about the callees one after
the other, and the answer about the first of them covers the call. **So one callee gets the fact, or
none if it is a method of the runtime; no other is entered**, however many implementations a call
has that depends on tainted data. Taints that come to the call later do not enter it either, so that
the order of tasks decides what does.
-/

namespace LeakTrace
open Machine
open Setup (ofEnv)

variable {e : Env} {I J : World → Prop} {K : Side → Edge.Key → Prop} {r : PathRules}
  {d1 d3 f : Fact} {n call : StmtId} {key : StmtId × Taint} {m m0 m' : Machine} {callee : MethodId}
  {R : Flow → World → Prop} {k : Nat} {kind : FlowKind} {act : Track Flow}

/-! ## Calls that are covered -/

theorem Upkeep.and {M : Message → Prop} {R : SinkHit → Prop} (hI : Upkeep e M R I)
    (hJ : Upkeep e M R J) : Upkeep e M R fun w => I w ∧ J w where
  rest hw h := ⟨hI.rest hw.1 h, hJ.rest hw.2 h⟩
  send hw hm := ⟨hI.send hw.1 hm, hJ.send hw.2 hm⟩
  abort := hI.abort
  hit hw hh hnew := ⟨hI.hit hw.1 hh hnew, hJ.hit hw.2 hh hnew⟩
  again hw hold hh := ⟨hI.again hw.1 hold hh, hJ.again hw.2 hold hh⟩
  close hw hh hlimit := ⟨hI.close hw.1 hh hlimit, hJ.close hw.2 hh hlimit⟩
  global hM w hw := ⟨trivial, (hI.global hM w hw.1).2, (hJ.global hM w hw.2).2⟩

theorem Upkeep.conditionalCalls (P : List (StmtId × Taint) → Prop) :
    Upkeep.Always e fun w => P w.rules.conditionalCalls :=
  .of_kept fun hw _ hcalls => by rwa [hcalls]

/-- Calls are entered, and the call is covered in the context. -/
def World.Covered (r : PathRules) (key : StmtId × Taint) (w : World) : Prop :=
  w.Open r ∧ key ∈ w.rules.conditionalCalls

theorem Upkeep.lasting_covered (hlimit : e.resultLimit = none) :
    Upkeep.Lasting e (fun _ => True) (fun _ => True) (World.Covered r key) where
  toUpkeep := (Upkeep.lasting_open hlimit).and (Upkeep.conditionalCalls (key ∈ ·))
  emptied w hw := ⟨(Upkeep.lasting_open hlimit).emptied w hw.1, hw.2⟩
  covered w k hw :=
    ⟨(Upkeep.lasting_open hlimit).covered w k hw.1, List.mem_insert_of_mem hw.2⟩

theorem Setup.bears_covered (hz : e.zero = .zero k) (hlimit : e.resultLimit = none) (watch : Watch) :
    (ofEnv e watch).Bears (World.Covered r key) (.whole e) :=
  Setup.bears_whole hz (Upkeep.lasting_covered hlimit)
    (fun _ _ hw => ⟨⟨hw.1.sinks, hw.1.rules⟩, hw.2⟩)
    (fun _ _ hw => ⟨⟨hw.1.sinks, hw.1.rules⟩, hw.2⟩) watch

/-! ## Where methods were entered from -/

/-- The forward solver knows the same callers of these methods in both machines. -/
def Machine.SameCallers (m0 : Machine) (P : MethodId → Prop) (m : Machine) : Prop :=
  ∀ callee, P callee → ∀ d, m.forward.callersOf callee d = m0.forward.callersOf callee d

variable {P : MethodId → Prop} {s : Setup} {side : Side}

theorem Machine.SameCallers.refl (m : Machine) (P : MethodId → Prop) : m.SameCallers P m :=
  fun _ _ _ => rfl

theorem Machine.SameCallers.of_incoming (h : m0.SameCallers P m)
    (hincoming : m'.forward.incoming = m.forward.incoming) : m0.SameCallers P m' := by
  intro callee hP d
  rw [← h callee hP d]
  unfold Table.callersOf
  rw [hincoming]

theorem Machine.monotone_sameCallers : Machine.Monotone (m0.SameCallers P) where
  grows hm _ _ hincoming _ := hm.of_incoming (hincoming .forward)
  neighbor hm := hm

namespace Work

theorem deliverAll_sameCallers : Keeps s (m0.SameCallers P) deliverAll :=
  deliverAll_preserves monotone_sameCallers
    (fun m hm => hm.of_incoming (m.incoming_stop _ _ .forward)) fun _ hm => hm

theorem evaluate_sameCallers (hwatch : s.watch = {}) :
    Keeps s (m0.SameCallers P) (evaluate kind f act) := by
  refine evaluate_preserves (J := m0.SameCallers P) monotone_sameCallers
    (fun n hn => ?_) (fun _ hm => hm) deliverAll_sameCallers
  rw [hwatch] at hn
  cases hn

theorem enter_sameCallers (hwatch : s.watch = {}) (hcallee : ¬ P callee) :
    Keeps s (m0.SameCallers P) (enter side callee d3 call d1) := by
  refine .get fun _ _ => .guard trivial ?_
  refine .modify_bind (K := m0.SameCallers P) (fun m hm x hx d => ?_) ?_
  · cases side with
    | backward => exact hm x hx d
    | forward =>
      -- Callers are listed by method, so those of another one are not touched.
      have hne : (callee, d3.toTaint) ≠ (x, d.toTaint) := by
        refine fun heq => hcallee ?_
        rwa [(Prod.mk.inj heq).1]
      rw [← hm x hx d]
      change ((m.forward.incoming.insert _ _)[(x, d.toTaint)]?).getD [] = _
      rw [Index.getElem?_insert, if_neg hne]
      rfl
  · refine .read (.get fun _ _ => .forM fun _ _ => .forM fun _ _ => ?_)
    refine .bind (.read ((evaluate_sameCallers hwatch).bind fun _ _ =>
      .pure (Q := fun _ => True) trivial)) fun _ _ =>
        propagateAll_preserves monotone_sameCallers

end Work

theorem Machine.ends_evaluate_of (hwatch : s.watch = {}) {kind : FlowKind} {act : Track Flow}
    {R : Flow → World → Prop} {Q : Flow → Machine → Prop} (hact : m.world.Ends s.env act R)
    (hdeliver : ∀ o w seen, R o w →
      Ends { m with world := w, seen } s Work.deliverAll fun _ m' => Q o m') :
    m.Ends s (Work.evaluate kind f act) Q :=
  ends_evaluate_deliver hwatch fun seen => hdeliver _ _ seen hact

/-! ## Callees in turn -/

/-- The callee that a conditional fact enters. The first one that is asked about covers the call,
even if it is a method of the runtime and is not entered itself. -/
def Env.coveredCallee (e : Env) (callees : List MethodId) : Option MethodId :=
  (callees.find? e.asksAbout).filter fun m => !Rule.isInert (e.method m)

/-- A conditional fact is known at the start of the callee. -/
def Machine.Branches (m : Machine) (e : Env) (callee : MethodId) : Prop :=
  ∃ g, e.isConditional g = true ∧
    ∀ start ∈ e.graph.forward.starts callee, m.Has .forward (g.toTaint, start, g.toTaint)

theorem Machine.Branches.mono (h : m.Branches e callee)
    (hgrow : ∀ side k, m.Has side k → m'.Has side k) : m'.Branches e callee := by
  obtain ⟨g, hg, hhas⟩ := h
  exact ⟨g, hg, fun start hstart => hgrow _ _ (hhas start hstart)⟩

theorem Setup.Admits.callConditional {watch : Watch} {i : Nat}
    (h : e.config.solver.maxPathLength.all (f.length < ·)) :
    (ofEnv e watch).Admits (f.callConditional i n) := by
  change e.config.solver.maxPathLength.all _
  cases hmax : e.config.solver.maxPathLength with
  | none => rfl
  | some k =>
    rw [hmax] at h
    simpa [Fact.length_callConditional, Nat.succ_le_iff] using h

/-- Edges are kept, and no method with `P` has been entered. -/
structure Machine.Passes (m0 : Machine) (e : Env) (I : World → Prop) (K : Side → Edge.Key → Prop)
    (P : MethodId → Prop) (m : Machine) : Prop where
  bears : m.Bears (.ofEnv e {}) I (.whole e) K
  callers : m0.SameCallers P m

theorem Machine.Passes.of_world (h : m0.Passes e I K P m) {w : World} (hw : J w)
    (seen : Std.HashSet (FlowKind × StmtId × Taint)) :
    m0.Passes e J K P { m with world := w, seen } :=
  ⟨h.bears.of_marked (.beside ..) hw, h.callers⟩

theorem Machine.Passes.weaken (h : m0.Passes e I K P m) {K' : Side → Edge.Key → Prop}
    (hk : ∀ side k, K' side k → m.Has side k) : m0.Passes e I K' P m :=
  ⟨h.bears.weaken hk, h.callers⟩

theorem Work.Keeps.passes {α : Type} {x : Work α} {Q : α → Prop}
    (h : Keeps (.ofEnv e {}) (Machine.Bears (.ofEnv e {}) I (.whole e) K) x Q)
    (h' : Keeps (.ofEnv e {}) (m0.SameCallers P) x) :
    Keeps (.ofEnv e {}) (m0.Passes e I K P) x Q := by
  intro m hm
  obtain ⟨⟨hbears, hcallers⟩, hq⟩ := h.and_keeps h' m ⟨hm.bears, hm.callers⟩
  exact ⟨⟨hbears, hcallers⟩, hq⟩

namespace Work

theorem processCallee_silent {A : Machine → Prop}
    (hdeliver : Keeps (.ofEnv e {}) A deliverAll)
    (hseen : ∀ m seen, A m → A { m with seen })
    (hflow : ∀ m, A m → (e.method callee).isConcrete →
      m.world.Ends e (Forward.call d1 f n callee) fun o w' =>
        (o.facts = [] ∧ w' = m.world) ∧ o.Announces e d1 n callee) :
    Keeps (.ofEnv e {}) A (processCallee .forward ⟨d1, n, f⟩ callee) := by
  refine .read (.dite (fun _ => .pure trivial) fun hbody => ?_)
  have hbody : (e.method callee).isConcrete := by simpa [ofEnv] using hbody
  refine .of_ends fun m hm => ?_
  unfold callFlow
  simp only [ends_bind, ends_read]
  refine ends_evaluate_of rfl (hflow m hm hbody) ?_
  rintro o _ seen ⟨⟨hfacts, rfl⟩, hcontexts⟩
  refine (hdeliver.ends rfl (hseen m seen hm)).mono fun _ m' hm' => ?_
  rw [hcontexts, hfacts, List.map_nil, ite_self]
  exact ends_forM_nil.mpr (ends_pure.mpr (ends_forM_nil.mpr hm'))

theorem enterOne_passes (hs : (ofEnv e {}).Bears I (.whole e)) (ed : Edge) (hP : ¬ P callee)
    {g : Fact} (hg : e.isConditional g)
    (hlength : (ofEnv e {}).Admits (g.stored ed.d2)) (hm : m0.Passes e I K P m) :
    m.Ends (.ofEnv e {}) (List.forM [g] fun g =>
      enterWith (.ofEnv e {}) .forward callee ed.stmt ed.d1 (g.stored ed.d2)) fun _ m' =>
        m0.Passes e I K P m' ∧ m'.Branches e callee := by
  have hcallers : Keeps (.ofEnv e {}) (m0.SameCallers P) (List.forM [g] fun g =>
      enterWith (.ofEnv e {}) .forward callee ed.stmt ed.d1 (g.stored ed.d2)) :=
    .forM fun _ _ => .bind (.forM fun _ _ =>
      propagate_preserves monotone_sameCallers) fun _ _ => enter_sameCallers rfl hP
  refine ((enterAll_has hs rfl hm.bears trivial (fun _ _ _ _ => Fitness.fact_whole)
    List.mem_cons_self hlength).and_keeps hcallers hm.callers).mono ?_
  rintro _ c ⟨⟨hc, hhas⟩, hsame⟩
  exact ⟨⟨hc.weaken fun side k hk => hc.known side k (hm.bears.known side k hk), hsame⟩,
    g, hg, hhas⟩

theorem passCall_passes (hs : (ofEnv e {}).Bears I (.whole e)) (ed : Edge) :
    Keeps (.ofEnv e {}) (m0.Passes e I K P) ((((ofEnv e {}).problem side).view.succs
      ed.stmt).forM (passCall (.ofEnv e {}) side ed)) := by
  refine .forM fun site hsite => ((hs.carriesAt Fitness.fact_whole).passCall hsite).passes ?_
  exact (evaluate_sameCallers rfl).bind fun _ _ =>
    propagateAll_preserves monotone_sameCallers

section
variable (he : e.Branching) (hn : (e.stmt n).id = n) (hf : f.BranchesAt e n)
include he hn hf

theorem processCallee_covered :
    Keeps (.ofEnv e {}) (m0.Passes e (World.Covered r (n, d1.toTaint)) K P)
      (processCallee .forward ⟨d1, n, f⟩ callee) := by
  obtain ⟨k, hz⟩ := he.zero
  have hs : (ofEnv e {}).Bears (World.Covered r (n, d1.toTaint)) (.whole e) :=
    Setup.bears_covered hz he.resultLimit {}
  refine processCallee_silent ((deliverAll_bears hs).passes deliverAll_sameCallers)
    (fun m seen hm => hm.of_world hm.bears.world seen) fun m hm hbody => ?_
  exact Forward.call_covered he hn hf hm.bears.world.1.sinks hbody hm.bears.world.2

theorem processCallee_unasked (hasks : e.asksAbout callee = false) : Keeps
    (.ofEnv e {}) (fun m => m0.Passes e (World.Open r) K P m ∧ key ∉ m.world.rules.conditionalCalls)
    (processCallee .forward ⟨d1, n, f⟩ callee) := by
  obtain ⟨k, hz⟩ := he.zero
  have hs := Setup.bears_open (r := r) hz he.resultLimit {}
  have hdeliver : Keeps (.ofEnv e {}) (fun m => key ∉ m.world.rules.conditionalCalls) deliverAll :=
    deliverAll_world (J := fun w => key ∉ w.rules.conditionalCalls)
      (fun w f g merge hw => (w.conditionalCalls_addNeighbor f g merge).symm ▸ hw) fun _ hw => hw
  refine processCallee_silent (((deliverAll_bears hs).passes deliverAll_sameCallers).and_keeps
    hdeliver) (fun m seen hm => ⟨hm.1.of_world hm.1.bears.world seen, hm.2⟩) fun m hm hbody => ?_
  exact Forward.call_unasked he hn hf hm.1.bears.world.sinks hbody hasks

section
variable (hhistory : e.config.solver.maxPathLength.all (f.length < ·))
  (hlength : (ofEnv e {}).Admits f)
include hhistory hlength

section
variable (hm : m0.Passes e (World.Open r) K P m)
  (hnew : (n, d1.toTaint) ∉ m.world.rules.conditionalCalls)
include hm hnew

/-- The first callee that is asked about covers the call, and has the fact if it is entered. -/
theorem processCallee_covers (hasks : e.asksAbout callee)
    (hP : Rule.isInert (e.method callee) = false → ¬ P callee) :
    m.Ends (.ofEnv e {}) (processCallee .forward ⟨d1, n, f⟩ callee) fun _ m' =>
      m0.Passes e (World.Covered r (n, d1.toTaint)) K P m' ∧
      (Rule.isInert (e.method callee) = false → m'.Branches e callee) := by
  obtain ⟨k, hz⟩ := he.zero
  have hs : (ofEnv e {}).Bears (World.Covered r (n, d1.toTaint)) (.whole e) :=
    Setup.bears_covered hz he.resultLimit {}
  have hopen := hm.bears.world
  have hbody := Env.isConcrete_of_asksAbout hasks
  unfold processCallee callFlow
  simp only [ends_bind, ends_read]
  rw [if_neg (by simp [ofEnv, hbody])]
  simp only [ends_bind, ends_read]
  refine ends_evaluate_of rfl (Forward.call_enters he hn hf hopen.sinks hasks hnew) ?_
  rintro o _ seen ⟨⟨hfacts, rfl⟩, hcontexts⟩
  -- The call is covered before anything is entered, so that from here on worlds are covered ones.
  have hworld : World.Covered r (n, d1.toTaint)
      { m.world.coverCall (n, d1.toTaint) with nextId := m.world.nextId + 1 } :=
    ⟨⟨hopen.sinks, hopen.rules⟩, List.mem_insert_self⟩
  refine (((deliverAll_bears hs).passes deliverAll_sameCallers).ends rfl
    (hm.of_world hworld seen)).mono ?_
  rintro _ a ⟨ha, -⟩
  simp only [ends_pure]
  cases hruntime : Rule.isInert (e.method callee) with
  | true =>
    rw [hcontexts, hfacts.trans (if_pos hruntime), List.map_nil, ite_self]
    refine ends_forM_nil.mpr (ends_forM_nil.mpr ⟨ha, fun hno => ?_⟩)
    cases hno
  | false =>
    rw [hfacts.trans (if_neg (Bool.not_eq_true _ ▸ hruntime))]
    have hP := hP hruntime
    have henter : Keeps (.ofEnv e {}) (m0.Passes e (World.Covered r (n, d1.toTaint)) K P)
        (o.contexts.forM fun c => enter c.side c.callee c.entry c.call c.d1) := by
      rw [hcontexts]
      refine .forM fun c hc => ?_
      split at hc
      · obtain ⟨_, -, rfl⟩ := List.mem_map.mp hc
        exact (hs.carries.enter trivial).passes (enter_sameCallers rfl hP)
      · cases hc
    refine (henter.ends rfl ha).mono fun _ b hb => ?_
    exact (enterOne_passes hs ⟨d1, n, f⟩ hP (Fact.isConditional_callConditional hz _ f n)
      ((Setup.Admits.callConditional hhistory).stored hlength) hb.1).mono fun _ _ hc =>
        ⟨hc.1, fun _ => hc.2⟩

/-- **All callees in turn.** Those before the first one that is asked about and those behind it are
not entered. -/
theorem processCallees_cover {callees : List MethodId}
    (hP : ∀ callee, e.coveredCallee callees = some callee → ¬ P callee) :
    m.Ends (.ofEnv e {}) (callees.forM (processCallee .forward ⟨d1, n, f⟩)) fun _ m' =>
      m0.Passes e (World.Open r) K P m' ∧
      ∀ callee, e.coveredCallee callees = some callee → m'.Branches e callee := by
  induction callees generalizing m with
  | nil => exact ends_forM_nil.mpr ⟨hm, nofun⟩
  | cons first behind ih =>
    rw [ends_forM_cons]
    -- The invariant changes at the first callee that is asked about: before it the call is not
    -- covered, and behind it the call is.
    cases hasks : e.asksAbout first with
    | false =>
      have hskip : e.coveredCallee (first :: behind) = e.coveredCallee behind := by
        rw [Env.coveredCallee, List.find?_cons_of_neg (by simp [hasks]), Env.coveredCallee]
      rw [hskip] at hP ⊢
      refine ((processCallee_unasked he hn hf hasks).ends rfl ⟨hm, hnew⟩).mono fun _ a ha => ?_
      exact ih ha.1.1 ha.1.2 hP
    | true =>
      have hhead : e.coveredCallee (first :: behind) =
          (some first).filter fun m => !Rule.isInert (e.method m) := by
        rw [Env.coveredCallee, List.find?_cons_of_pos hasks]
      rw [hhead] at hP ⊢
      have hcovered : ∀ callee, (some first).filter (fun m => !Rule.isInert (e.method m)) =
          some callee → callee = first ∧ Rule.isInert (e.method first) = false := by
        intro callee hcallee
        obtain ⟨hsome, hentered⟩ := Option.filter_eq_some_iff.mp hcallee
        cases hsome
        exact ⟨rfl, by simpa using hentered⟩
      refine (processCallee_covers he hn hf hhistory hlength hm hnew hasks fun hentered =>
        hP first (by simp [hentered])).mono fun _ a ha => ?_
      have hbehind : Keeps (.ofEnv e {}) (m0.Passes e (World.Covered r (n, d1.toTaint)) a.Has P)
          (behind.forM (processCallee .forward ⟨d1, n, f⟩)) :=
        .forM fun _ _ => processCallee_covered he hn hf
      refine (hbehind.ends rfl (ha.1.weaken fun _ _ hk => hk)).mono fun _ b hb => ?_
      have hgrow := hb.1.bears.known
      refine ⟨(hb.1.of_world hb.1.bears.world.1 _).weaken fun side k hk =>
        hgrow side k (ha.1.bears.known side k hk), fun callee hcallee => ?_⟩
      obtain ⟨rfl, hentered⟩ := hcovered callee hcallee
      exact (ha.2 hentered).mono hgrow

end

theorem processCall_covers
    (hfan : e.config.solver.maxCallees.all ((e.graph.calleesOf n).length ≤ ·))
    (hP : ∀ callee, e.coveredCallee (e.graph.calleesOf n) = some callee → ¬ P callee)
    (hm : m0.Passes e (World.Open r) K P m)
    (hnew : (n, d1.toTaint) ∉ m.world.rules.conditionalCalls) :
    m.Ends (.ofEnv e {}) (processCall .forward ⟨d1, n, f⟩) fun _ m' => m0.SameCallers P m' ∧
      ∀ callee, e.coveredCallee (e.graph.calleesOf n) = some callee → m'.Branches e callee := by
  obtain ⟨k, hz⟩ := he.zero
  have hs := Setup.bears_open (r := r) hz he.resultLimit {}
  unfold processCall
  simp only [ends_bind, ends_read]
  split
  · rw [ends_bind]
    refine (processCallees_cover he hn hf hhistory hlength hm hnew hP).mono fun _ a ha => ?_
    refine ((passCall_passes hs ⟨d1, n, f⟩).ends rfl (ha.1.weaken fun _ _ hk => hk)).mono
      fun _ b hb => ?_
    exact ⟨hb.1.callers, fun callee hcallee => (ha.2 callee hcallee).mono hb.1.bears.known⟩
  · next hcrowd => exact absurd hfan hcrowd

end
end
end Work

/-! ## The first edge of a context -/

/-- Before the task `j` no edge with a conditional fact is worked on at the call in the context. -/
def Machine.Uncovered (s : Setup) (pick : Nat → Machine → Nat) (n : StmtId) (t : Taint) (j : Nat)
    (m : Machine) : Prop :=
  ∀ i < j, ∀ d g : Fact, let now := m.after s pick i
    now.executor.queued[pick i now]? = some ⟨.forward, d, n, g⟩ → s.env.isConditional g = true →
      d.toTaint ≠ t

theorem Machine.Uncovered.after (hz : e.zero = .zero k) (hids : ∀ n, (e.stmt n).id = n)
    {pick : Nat → Machine → Nat} {t : Taint} {j : Nat}
    (hm : (n, t) ∉ m.world.rules.conditionalCalls) (hfirst : m.Uncovered (.ofEnv e {}) pick n t j) :
    (n, t) ∉ (m.after (.ofEnv e {}) pick j).world.rules.conditionalCalls := by
  induction j with
  | zero => exact hm
  | succ j ih =>
    refine Setup.PreservesAt.step (I := fun m => (n, t) ∉ m.world.rules.conditionalCalls)
      (fun task htask => ?_) (ih fun i hi => hfirst i (Nat.lt_succ_of_lt hi))
    refine Setup.preservesOn_world (J := fun w => (n, t) ∉ w.rules.conditionalCalls)
      (fun w f g merge hw => (w.conditionalCalls_addNeighbor f g merge).symm ▸ hw) (fun _ hw => hw)
      fun act hact => hact.keeps hz (Upkeep.conditionalCalls ((n, t) ∉ ·)) (fun _ _ hw => hw) ?_
    intro hside hconditional w hw hcovered
    obtain ⟨side, d, n', g⟩ := task
    obtain rfl : side = .forward := hside
    -- If the task covered this very call, it would be the edge that was ruled out.
    rcases List.mem_insert_iff.mp hcovered with heq | hold
    · obtain ⟨hstmt, htaint⟩ := Prod.mk.inj heq
      rw [hids] at hstmt
      subst hstmt
      exact hfirst j (Nat.lt_succ_self j) d g htask hconditional htaint.symm
    · exact hw hold

/-- **A branch covers one callee of a call.** The first time the forward solver works on a
conditional fact at a call in some context, the fact gets known at the start of the first callee it
asks about, unless that one is a method of the runtime; no other method is entered. -/
theorem branch_enters_one_callee {p : Program} {extra : List (StmtId × MethodId)} (hp : p.Assembled)
    (hgraph : e.graph = .ofProgram p extra) (he : e.Branching) {start : Machine}
    (hstart : start.Orderly (.ofEnv e {}))
    (hnew : (n, d1.toTaint) ∉ start.world.rules.conditionalCalls) (pick : Nat → Machine → Nat)
    (j : Nat) (hfirst : start.Uncovered (.ofEnv e {}) pick n d1.toTaint j)
    (hm : start.after (.ofEnv e {}) pick j = m) {i : Nat}
    (ht : m.executor.queued[i]? = some ⟨.forward, d1, n, f⟩)
    (hlive : m.executor.interrupted = false) (hcall : e.graph.isCall n = true)
    (hf : f.BranchesAt e n)
    (hfan : e.config.solver.maxCallees.all ((e.graph.calleesOf n).length ≤ ·) = true)
    (hhistory : e.config.solver.maxPathLength.all (f.length < ·) = true) :
    (∀ callee, e.coveredCallee (e.graph.calleesOf n) = some callee →
      (m.step (.ofEnv e {}) i).Branches e callee) ∧
    ∀ callee, e.coveredCallee (e.graph.calleesOf n) ≠ some callee → ∀ d,
      (m.step (.ofEnv e {}) i).forward.callersOf callee d = m.forward.callersOf callee d := by
  obtain ⟨k, hz⟩ := he.zero
  have hids : ∀ n, (e.stmt n).id = n := by
    rw [← show e.program = p from congrArg Graph.program hgraph] at hp
    exact hp.laidOut.ids
  have hbears : m.BearsOpen e {} start.world.paths.rules := by
    rw [← hm]
    exact hstart.bears.after (Setup.bears_open hz he.resultLimit {}) pick j
  have hnew := hm ▸ hfirst.after hz hids hnew
  have hlength := (hbears.queued _ (List.mem_of_getElem? ht)).2
  have hmark := (hbears.started i ⟨.forward, d1, n, f⟩).mark .forward
    (f := fun t => { t with processed := t.processed + 1 }) fun _ => ⟨rfl, rfl, rfl⟩
  have hwork := Work.processCall_covers (P := (e.coveredCallee (e.graph.calleesOf n) ≠ some ·)) he
    (hids n) hf hhistory hlength hfan (fun callee hcallee hno => hno hcallee)
    ⟨hmark, (Machine.SameCallers.refl m _).of_incoming rfl⟩ hnew
  have hstep := step_call_of (s := .ofEnv e {}) (Q := fun b =>
    m.SameCallers (e.coveredCallee (e.graph.calleesOf n) ≠ some ·) b ∧
      ∀ callee, e.coveredCallee (e.graph.calleesOf n) = some callee → b.Branches e callee)
    ht hlive hcall (fun _ _ hq => hq) hwork
  exact ⟨hstep.2, hstep.1⟩

/-! ## Two implementations -/

/-- Whether a box is looked at depends on tainted data, and branches are tracked. -/
def lookingInBranch : Env where
  graph := .ofProgram lookers []
  config := { implicitFlows := .all }

def branchTaint : Fact where
  id := 1
  path := .empty
  implicit := true

def branching : Machine where
  executor := { queued := [⟨.forward, .zero 0, 9, branchTaint⟩] }

theorem branching_lookingInBranch : lookingInBranch.Branching := ⟨⟨0, rfl⟩, rfl, rfl, rfl, rfl⟩

theorem branchesAt_branchTaint : branchTaint.BranchesAt lookingInBranch 9 :=
  ⟨by decide +kernel, rfl, rfl, rfl⟩

theorem orderly_branching : branching.Orderly (.ofEnv lookingInBranch {}) :=
  Machine.orderly_single rfl

/-- The fact enters the first implementation, and the second is not entered. -/
theorem branch_enters_left :
    let e := lookingInBranch
    let m := branching.step (.ofEnv e {}) 0
    e.Branching ∧ branchTaint.BranchesAt e 9 ∧ e.coveredCallee (e.graph.calleesOf 9) = some 0 ∧
    m.Branches e 0 ∧ ∀ d, m.forward.callersOf 1 d = branching.forward.callersOf 1 d := by
  intro e m
  have hcovered : e.coveredCallee (e.graph.calleesOf 9) = some 0 := by decide +kernel
  have hqueued : branching.executor.queued[0]? = some ⟨.forward, .zero 0, 9, branchTaint⟩ := rfl
  have hone := branch_enters_one_callee assembled_lookers rfl branching_lookingInBranch
    orderly_branching List.not_mem_nil (fun _ _ => 0) 0
    (fun _ h => absurd h (Nat.not_lt_zero _)) rfl hqueued rfl (by decide +kernel)
    branchesAt_branchTaint (by decide +kernel) rfl
  refine ⟨branching_lookingInBranch, branchesAt_branchTaint, hcovered, hone.1 0 hcovered,
    hone.2 1 ?_⟩
  rw [hcovered]
  decide

/-- The second implementation of the call has no edge at its start, though it is asked about just
like the first one. -/
theorem right_not_covered :
    let e := lookingInBranch
    e.Branching ∧ branching.Orderly (.ofEnv e {}) ∧ branchTaint.BranchesAt e 9 ∧
    1 ∈ e.graph.calleesOf 9 ∧ e.asksAbout 1 = true ∧ Rule.isInert (e.method 1) = false ∧
    ¬ (branching.step (.ofEnv e {}) 0).Branches e 1 := by
  have hfar : ∀ k ∈ ((branching.step (.ofEnv lookingInBranch {}) 0).table .forward).index.keys,
      k.2.1 ≠ 4 := by
    decide +kernel
  intro e
  refine ⟨branching_lookingInBranch, orderly_branching, branchesAt_branchTaint, by decide +kernel,
    by decide +kernel, by decide +kernel, ?_⟩
  rintro ⟨g, -, hhas⟩
  have hknown := hhas 4 (by decide +kernel)
  exact hfar _ (Index.mem_keys hknown) rfl

/-! ## Calls that are closed -/

/-- **A branch closes a call.** When a conditional fact flows into a callee, the call is covered in
the context. From then on nothing that names a place enters a callee there, whatever tasks are run
and in whichever order. -/
theorem branch_closes_call (he : e.Branching) (hn : (e.stmt n).id = n) :
    (∀ w : World, w.rules.sinksClosed = false → f.BranchesAt e n → e.asksAbout callee = true →
      (n, d1.toTaint) ∈ (((Forward.call d1 f n callee).run e).run w).2.rules.conditionalCalls) ∧
    ∀ start : Machine, start.Orderly (.ofEnv e {}) →
      (n, d1.toTaint) ∈ start.world.rules.conditionalCalls → ∀ (pick : Nat → Machine → Nat) (i : Nat)
        (d g : Fact) (other : MethodId), d.toTaint = d1.toTaint → g.path.isEmpty = false →
      (((Forward.call d g n other).run e).run (start.after (.ofEnv e {}) pick i).world).1.facts =
        [] := by
  obtain ⟨k, hz⟩ := he.zero
  refine ⟨fun w hopen hf hasks => Forward.call_covers he hn hf hopen hasks, ?_⟩
  intro start hstart hcovered pick i d g other hd hg
  have hbears : start.Bears (.ofEnv e {}) (World.Covered start.world.paths.rules (n, d.toTaint))
      (.whole e) _ := hstart.bears.of_marked (.beside ..) ⟨⟨hstart.opened, rfl⟩, hd ▸ hcovered⟩
  have hworld := (hbears.after (Setup.bears_covered hz he.resultLimit {}) pick i).world
  exact Forward.call_closed he hn hworld.1.sinks hg hworld.2

/-- The callee reads a shared field and writes it back, and whether it is called depends on tainted
data. -/
def touchingInBranch : Env := { rewriting with config := { implicitFlows := .all } }

/-- The field enters the callee, unless the branch did so before. -/
theorem touching_order_decides :
    let e := touchingInBranch
    let branch := Forward.call (.zero 0) branchTaint 0 1
    let facts (w : World) := (((Forward.call (.zero 0) sharedTaint 0 1).run e).run w).1.facts
    (∃ g ∈ facts {}, g.path = sharedTaint.path) ∧ facts ((branch.run e).run {}).2 = [] := by
  intro e branch facts
  have he : e.Branching := ⟨⟨0, rfl⟩, rfl, rfl, rfl, rfl⟩
  have hf : branchTaint.BranchesAt e 0 := ⟨by decide +kernel, rfl, rfl, rfl⟩
  have hasks : e.asksAbout 1 := by decide +kernel
  obtain ⟨hcovers, hclosed⟩ := branch_closes_call (n := 0) (f := branchTaint) he rfl
  have hcovered := hcovers {} rfl hf hasks
  have hopen : ((branch.run e).run {}).2.rules.sinksClosed = false := by
    rw [(Forward.call_enters (w := {}) he rfl hf rfl hasks List.not_mem_nil).1.2]
    rfl
  generalize ((branch.run e).run {}).2 = w at hcovered hopen
  constructor
  · exact (Forward.call_static_enters (f := sharedTaint) rfl rfl rfl rfl (by decide +kernel) rfl
      rfl rfl rfl (by decide +kernel) (by decide +kernel)).mpr
      ⟨by decide +kernel, by decide +kernel, fun h => h.2.elim (by simp) nofun, by decide +kernel⟩
  · exact hclosed { world := w }
      ⟨hopen, by rintro (_ | _) _ _ _ hp <;> simp [Table.summariesOf, table] at hp, nofun⟩
      hcovered (fun _ _ => 0) 0 (.zero 0) sharedTaint 1 rfl rfl

/-! ## Reports that hang on the order -/

/-- The argument of `take` is tainted where `k` is not zero, and elsewhere it depends on tainted data
whether `take` is called. -/
def branchedTake : Program :=
  let take : MethodRef := ⟨"App", "take", [.int], .int⟩
  let a : Local := ⟨0, "a", .int⟩
  let b : Local := ⟨1, "b", .int⟩
  let k : Local := ⟨2, "k", .int⟩
  let isZero (l : Local) : Value := .binary .eq (.var l) (.const (.int 0))
  let p := (Program.empty.openBody ⟨"App", "main", [], .void⟩ true
    [("a", .int), ("b", .int), ("k", .int)]).closeBody
    [.assign (.var a) (.call .static ⟨"App", "source", [], .int⟩ none []), .branch (isZero k) 4,
      .assign (.var b) (.var a), .jump 5, .branch (isZero a) 7,
      .call ⟨.static, take, none, [.var b]⟩, .retVoid, .retVoid] []
  let p := (p.openBody take true []).closeBody [.ret (.var ⟨3, "p0", .int⟩)] []
  p.addEntry 0

/-- What `take` returns leaves the program. -/
def takingInBranch : Analysis where
  env :=
    { graph := .ofProgram branchedTake []
      oracle := (({} : Oracle).addSource ⟨"App", "source", [], .int⟩ [.result]).addReturnSink
        ⟨"App", "take", [.int], .int⟩
      config :=
        { implicitFlows := .all
          solver := { maxPathLength := none, maxJoin := none, maxCallees := none } } }

theorem takingInBranch_reports {p : Nat → Nat} {ends : List (StmtId × StmtId)}
    (h : takingInBranch.reported p 18 [0] [9] = some ends) :
    (takingInBranch.solveBy fun _ => .fixed p).1.executor.queued = [] ∧
      (takingInBranch.runBy fun _ => .fixed p).results.ends = ends := by
  have hsources : takingInBranch.scan.1 = [0] :=
    Analysis.scan_sources (by decide +kernel) (by decide)
  have hsinks : takingInBranch.scan.2.1 = [9] := Analysis.scan_sinks (by decide +kernel) (by decide)
  obtain ⟨hidle, hends, -⟩ := Analysis.runBy_of_reported (by decide) hsources hsinks (by decide) h
  exact ⟨hidle, hends⟩

/-- **The order decides what is reported.** The run takes the first task that waits; then the branch
closes the call of `take`, and nothing is reported. Where the second one is next once, the argument
gets there before. Both ways no work is left. -/
theorem takingInBranch_order_decides :
    let inOrder (_ : Nat) : Schedule := .fixed fun _ => 0
    let early (_ : Nat) : Schedule := .fixed fun i => [0, 0, 1].getD i 0
    takingInBranch.run = takingInBranch.runBy inOrder ∧
    ((takingInBranch.solveBy inOrder).1.executor.queued = [] ∧
      (takingInBranch.runBy inOrder).results.ends = []) ∧
    (takingInBranch.solveBy early).1.executor.queued = [] ∧
      (takingInBranch.runBy early).results.ends = [(0, 9)] :=
  ⟨Analysis.run_eq_fixed, takingInBranch_reports (by decide +kernel),
    takingInBranch_reports (by decide +kernel)⟩

end LeakTrace
