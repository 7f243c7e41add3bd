import LeakTrace.Proofs.Keeps.Assignments
import LeakTrace.Proofs.Keeps.Backward
import LeakTrace.Proofs.Keeps.Rules

/-!
# What flow functions keep

The flow functions at statements and calls, for a property of facts and of worlds that is left open.
Each of them asks the rules and adds what it moves on its own, so **what rules keep and what moving
keeps is all that is asked for here**. Vocabulary and scopes are the two cases of it.
-/

namespace LeakTrace
open Track
open FactSet (All AllOpt)

variable {e : Env} {I : World → Prop} {U W : Value → Prop} {P : Fact → Prop} {d1 f : Fact}
  {s : Stmt} {n t : StmtId} {m : MethodId} {set : FactSet} {contexts : List Fact}
  {cs : Option StmtId}

/-- All facts that come out have the property, and the other solver is told nothing. -/
abbrev Flow.Plain (P : Fact → Prop) (o : Flow) : Prop := o.facts.All P ∧ o.contexts = []

/-- All facts that come out of the call have the property, and the other solver is told of contexts
that are entered with such facts. -/
abbrev Flow.Enters (P : Fact → Prop) (n : StmtId) (d1 : Fact) (o : Flow) : Prop :=
  o.facts.All P ∧ ∀ c ∈ o.contexts, P c.entry ∧ c.call = n ∧ c.d1 = d1

theorem Flow.enters_silent : Flow.silent.Enters P n d1 := ⟨.nil, List.forall_mem_nil _⟩

theorem Flow.enters_visible {told : Bool} {side : Side} (h : set.All P) :
    Flow.Enters P n d1 { Flow.visible n set with
      contexts := if told then set.map fun g => ⟨side, m, g, n, d1⟩ else [] } := by
  refine ⟨h, fun c hc => ?_⟩
  cases told with
  | false => cases hc
  | true =>
    obtain ⟨g, hg, rfl⟩ := List.mem_map.mp hc
    exact ⟨h g hg, rfl, rfl⟩

namespace Track

abbrev Gains (e : Env) (I : World → Prop) (P : Fact → Prop) (f : Fact) (n : StmtId)
    (l : List AccessPath) : Prop :=
  ∀ a ∈ l, Keeps e I (derive f (some a) (some n)) fun o => ∀ g ∈ o, P g

/-! ## Past a call -/

theorem addNative_of (h : Rule.Site e I U W P d1 f s) {c : Call} (hargs : ∀ v ∈ c.args, W v)
    (hset : set.All P) : Keeps e I (addNative d1 s c f set) (All P) := by
  refine .read (.guard hset ?_)
  refine (h.nativeTaints hargs).bind fun o ho => ?_
  split
  · exact .pure hset
  · next taints =>
    refine .foldlM (fun set hset g hg => ?_) hset
    have hg : P g := ho taints rfl g hg
    dsimp only
    split
    · exact .pure (hset.insert hg)
    · next target ht =>
      refine .ite ?_ <| .pure (hset.insert hg)
      exact h.search target _ g (h.target g hg target ht) (hset.insert hg) hg

/-- What goes on past a call is as the call leaves it: `hnow` says what the call makes active. -/
theorem pastCall_of (hnow : Keeps e I (activateAt f s.id) fun now => Rule.Site e I U W P d1 now s)
    (hargs : ∀ c ∈ s.call?, ∀ v ∈ c.args, W v)
    (hpaths : ∀ c ∈ s.call?, ∀ m reflective,
      Keeps e I (pathsInCallee (e.method m) c f reflective)) :
    Keeps e I (pastCall d1 f s) (All P) := by
  refine .read (hnow.bind fun now h => ?_)
  have hask (v : Value) (hv : U v) : Keeps e I (holdsTaint v now) :=
    holdsTaint_keeps fun l hl => h.mayAlias v _ hv (h.root l hl)
  have hpasses {killed : Bool} : Keeps e I (passesCall f now s killed) := by
    refine passesCall_keeps_of hpaths (fun c hc => ?_) fun c hc => ?_
    · exact ⟨fun b hb => hask _ ((h.args c hc).1 b hb), fun v hv => hask v ((h.args c hc).2 v hv)⟩
    · exact anyHoldsTaint_keeps fun l hl v hv =>
        h.mayAlias v _ ((h.args c hc).2 v hv) (h.root l hl)
  have hstamp {set : FactSet} (hset : set.All P) : Keeps e I (stampCall now s.id set) (All P) :=
    .mapM fun g hg => .guard (hset g hg) <|
      h.fresh.bind fun i _ => .pure (h.withCall g i (hset g hg))
  refine (Rule.applyCallToReturn_keeps h.fact (fun _ => h.chain_callToReturn) {}).bind fun p hp =>
    .guard .nil <| .guard hp <| .guard (.singleton h.fact) <| hpasses.bind fun passes _ => ?_
  have hset : ∀ b : Bool, All P (if b then p.1.insert now else p.1) := by
    intro b
    cases b with
    | false => exact hp
    | true => exact All.insert hp h.fact
  dsimp only
  split
  · next c hc => exact (addNative_of h (hargs c hc) (hset _)).bind fun _ hset' => hstamp hset'
  · exact hstamp (hset _)

/-! ## Into a callee and out of it -/

theorem intoCallee_of
    (hrules : ∀ r ∈ Rule.chain e, RuleM.Keeps e I (r.call d1 f s m) (AllOpt P))
    (hpaths : ∀ c ∈ s.call?, ∀ reflective,
      Keeps e I (pathsInCallee (e.method m) c f reflective) (Gains e I P f s.id)) :
    Keeps e I (intoCallee d1 f s m) (All P) := by
  refine .read ((Rule.ask_keeps hrules .none {}).bind fun p hp => .guard .nil ?_)
  split
  · exact .pure (AllOpt.getD hp)
  · next c hc =>
    refine (hpaths c hc _).bind fun mapped hmapped =>
      .foldlM (fun set hset a ha => .ite ?_ <| .pure hset) (AllOpt.getD hp)
    exact (hmapped a ha).bind fun _ ho =>
      .pure (hset.insertAll fun g hg => ho g (Option.mem_toList.mp hg))

/-- What the rules leave behind holds where the callee is left, if the searches of the caller keep
it. A taint that is decided lazily leaves under its own name. -/
theorem leaveCallee_of {call site : Option Stmt} {contexts : List Fact} {w : World}
    (hstays : (f.waitsFor.any fun u => e.graph.methodOf u == m) → I w)
    (hrules : w.Ends e ((Rule.applyReturn (Rule.chain e) contexts d1 f s site call).run {})
      fun p w' => AllOpt P p.1 ∧ I w')
    (hcarries : ∀ c ∈ call, Leaving.Carries e I W P ⟨e.method m, s, c, c.lhs?, contexts⟩ f)
    (hlazy : e.config.aliasing.isLazy → P f) :
    w.Ends e (leaveCallee call m s site f d1 contexts) fun set w' => set.All P ∧ I w' := by
  refine .read ?_
  by_cases hwaits : (f.waitsFor.any fun u => e.graph.methodOf u == m)
  · rw [if_pos hwaits]
    exact ⟨.nil, hstays hwaits⟩
  rw [if_neg hwaits]
  refine hrules.bind ?_
  rintro p w' ⟨hp, hw'⟩
  refine Keeps.ends (.guard .nil ?_) hw'
  split
  · exact .pure .nil
  · next cs =>
    have hl : Leaving.Carries e I W P ⟨e.method m, s, cs,
        if site.any Stmt.isCatch then none else cs.lhs?, contexts⟩ f := by
      split
      · exact { hcarries cs rfl with result := all_none }
      · exact hcarries cs rfl
    refine moveToCaller_carries hl ?_
    split
    · next h => exact hp.getD.insert (hlazy (Bool.and_eq_true_iff.mp h).1)
    · exact hp.getD

end Track

/-! ## The taint analysis -/

namespace Forward

theorem passStmt_of (h : Rule.Site e I U W P d1 f (e.stmt n))
    (hassign : ∀ lhs rhs, (e.stmt n).action = .assign lhs rhs →
      Keeps e I (assign d1 (e.stmt n) lhs rhs f) (All P)) :
    Keeps e I (passStmt d1 f n t) (Flow.Plain P) := by
  refine .read ((Rule.applyNormal_keeps h.fact (fun _ => h.chain_normal) {}).bind fun p hp =>
    .guard ⟨.nil, rfl⟩ ?_)
  split
  · next lhs rhs hact =>
    exact .guard ⟨hp, rfl⟩ <| (hassign lhs rhs hact).bind fun _ hset =>
      .pure ⟨All.insertAll hp hset, rfl⟩
  · exact .pure ⟨hp, rfl⟩

theorem call_of (hset : Keeps e I (intoCallee d1 f (e.stmt n) m) (All P)) :
    Keeps e I (call d1 f n m) (Flow.Enters P n d1) :=
  .read (limitReached_keeps.bind fun _ _ =>
    .guard Flow.enters_silent <| .guard Flow.enters_silent <|
      hset.bind fun _ hset => .pure (Flow.enters_visible hset))

theorem ret_of {cs site : Option StmtId} {contexts : List Fact}
    (hset : Keeps e I (outOfCallee (cs.map e.stmt) m (e.stmt n) (site.map e.stmt) f d1
      contexts) (All P)) :
    Keeps e I (ret cs m n site f d1 contexts) (Flow.Plain P) :=
  .read (limitReached_keeps.bind fun _ _ => .guard ⟨.nil, rfl⟩ <| .guard ⟨.nil, rfl⟩ <|
    hset.bind fun _ hset => .pure ⟨hset, rfl⟩)

theorem callToReturn_of (hset : Keeps e I (pastCall d1 f (e.stmt n)) (All P)) :
    Keeps e I (callToReturn d1 f n) (Flow.Plain P) :=
  .read (limitReached_keeps.bind fun _ _ => .guard ⟨.nil, rfl⟩ <|
    hset.bind fun _ hset => .pure ⟨hset, rfl⟩)

end Forward

/-! ## The alias search -/

namespace Backward

theorem handForward_of (hfresh : Keeps e I fresh)
    (hsend : ∀ i, ∀ t ∈ e.graph.forward.succs n,
      Keeps e I (sendEdge .forward d1 t (f.turnAt i n))) :
    Keeps e I (handForward d1 n f) := by
  refine .read (.ite (hfresh.bind fun i _ => ?_) <| .pure trivial)
  refine Keeps.bind (.forIn (R := fun _ => True) (fun t ht _ _ => ?_) trivial)
    fun _ _ => .pure trivial
  exact (hsend i t ht).bind fun _ _ => .pure trivial

theorem call_of (hentering : Keeps e I (entering f (e.stmt n) (e.method m))
      (Gains e I P f n)) : Keeps e I (call d1 f n m) (Flow.Enters P n d1) := by
  refine .read (.guard Flow.enters_silent <| isBarred_keeps.bind fun _ _ =>
    .guard ⟨.nil, List.forall_mem_nil _⟩ <| hentering.bind fun mapped hmapped => ?_)
  refine Keeps.bind (Q := All P) (.foldlM (fun set hset a ha => ?_) .nil)
    fun _ hset => .pure (Flow.enters_visible hset)
  exact (hmapped a ha).bind fun _ ho =>
    .pure (hset.insertAll fun g hg => all_aliasable ho g (Option.mem_toList.mp hg))

theorem moveUp_of {v : Value} {cs : StmtId}
    (hmove : Obtains e I P f (Paths.ontoTyped f.accessPath v f.accessPath.ty false) (some n))
    (hreg : ∀ g, Keeps e I (registerActivation cs m g)) :
    Keeps e I (moveUp f n cs m v) fun o => ∀ g ∈ o, P g := by
  unfold moveUp
  dsimp only
  rw [← bind_assoc]
  refine hmove.bind fun o ho => ?_
  split
  · exact .pure all_none
  · next g hg =>
    refine (hreg g).bind fun _ _ => .pure ?_
    rintro _ ⟨⟩
    exact all_aliasable ho g hg

theorem ret_of {cs : Option StmtId} (hstatic : ∀ k ∈ cs, f.path.isStaticField → P f ∧
      Keeps e I (registerActivation k m f))
    (habove : ∀ k ∈ cs, ∀ c ∈ (e.stmt k).call?,
      Keeps e I (aboveCallee d1 f n (e.method m) (e.stmt k) c) (All P))
    (hstamp : ∀ k set, set.All P → Keeps e I (stampCall f k set) (All P)) :
    Keeps e I (ret cs m n d1 f) (Flow.Plain P) := by
  refine .read ?_
  split
  · exact .pure ⟨.nil, rfl⟩
  · next k =>
    refine .guard ⟨.nil, rfl⟩ <| .dite (fun hfield => ?_) fun _ => ?_
    · obtain ⟨hf, hreg⟩ := hstatic k rfl (Bool.and_eq_true_iff.mp hfield).2
      exact hreg.bind fun _ _ => .pure ⟨.singleton hf, rfl⟩
    · dsimp only
      split
      · exact .pure ⟨.nil, rfl⟩
      · next c hc =>
        exact (habove k rfl c hc).bind fun _ hset =>
          (hstamp k _ hset).bind fun _ hset' => .pure ⟨hset', rfl⟩

end Backward
end LeakTrace
