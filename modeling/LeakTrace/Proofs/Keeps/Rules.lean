import LeakTrace.Proofs.Keeps.Search
import LeakTrace.Proofs.Vocabulary.Tracking

/-!
# What rules keep

The rules of propagation, for a property of facts and of worlds that is left open. `Rule.Site` says
what has to hold where a rule is asked about a fact at a statement: which values can be asked about,
what is derived for which values, and what may be recorded. **Rules share what they do**, so each of
them is gone through once, here, and what it keeps follows from the site.
-/

namespace LeakTrace
open Track
open FactSet (All AllOpt)

namespace Rule
variable {e : Env} {I : World → Prop} {U W : Value → Prop} {P : Fact → Prop} {d1 f g : Fact}
  {s dest : Stmt} {v lhs : Value} {n : StmtId} {m : MethodId} {r : Rule}

/-! ## Answers -/

theorem allOpt_map {o : Option Fact} (h : ∀ g ∈ o, P g) : AllOpt P (o.map fun g => [g]) := by
  intro t ht
  obtain ⟨g, hg, rfl⟩ := Option.map_eq_some_iff.mp ht
  exact .singleton (h g hg)

theorem killAll_none_keeps :
    RuleM.Keeps e I (do RuleM.killAll; return none) (AllOpt P) :=
  .andThen (.killAll trivial) (.pure .none)

theorem leavesBranch_keeps : RuleM.Keeps e I (leavesBranch f s) :=
  .ite (.andThen (.killAll trivial) (.pure trivial)) <|
    .pure trivial

theorem closing_keeps : RuleM.Keeps e I (do closeCalls; return none) (AllOpt P) := by
  have hclose : RuleM.Keeps e I closeCalls :=
    .getWorld_bind fun _ _ => .ite (.killAll trivial) <| .pure trivial
  exact hclose.bind fun _ _ => .pure .none

theorem recording_keeps {c : Prop} [Decidable c]
    (hrecord : c → Keeps e I (record f s)) :
    RuleM.Keeps e I (do
      if c then record f s
      closeCalls
      return none) (AllOpt P) :=
  .dite (fun hc => .lift_bind (hrecord hc) fun _ _ => closing_keeps) fun _ =>
    closing_keeps

/-! ## Questions -/

theorem recordIfRead_keeps
    (hask : ∀ l ∈ f.path.base, Keeps e I (anyMayAlias (v.roots false) (.var l)))
    (hrecord : f.isActive → e.isSink s.id → Keeps e I (record f s)) :
    Keeps e I (recordIfRead f s v) := by
  refine .read (.dite (fun hsink => ?_) fun _ => .pure trivial)
  obtain ⟨hsink, hactive⟩ := Bool.and_eq_true_iff.mp hsink
  split
  · next l hl =>
    exact (hask l hl).bind fun _ _ => .ite (hrecord hactive hsink) <| .pure trivial
  · exact .pure trivial

theorem isVisibleInCallee_keeps
    (hask : ∀ c ∈ s.call?, ∀ l ∈ f.path.base, Keeps e I (anyMayAlias c.args (.var l))) :
    Keeps e I (isVisibleInCallee f s) := by
  unfold isVisibleInCallee
  split
  · next c l hc hl => exact (hask c hc l hl).bind fun _ _ => .pure trivial
  · exact .pure trivial

theorem isOnReceiver_keeps
    (hask : ∀ this ∈ (e.method s.method).self, ∀ l ∈ f.path.base,
      Keeps e I (mayAliasValues (.var this) (.var l))) :
    Keeps e I (isOnReceiver f s) := by
  refine .read (.guard trivial ?_)
  split
  · next this l hthis hl => exact hask this hthis l hl
  · exact .pure trivial

/-! ## Along a statement -/

/-- A rule is asked about the fact at the statement, on the way to the next one. Values with `U` can
be asked about, and what is moved to values with `W` has `P`. -/
structure Site (e : Env) (I : World → Prop) (U W : Value → Prop) (P : Fact → Prop) (d1 f : Fact)
    (s : Stmt) : Prop extends Track.LibraryCall e I W P s f where
  fact : P f
  -- the values that are asked about
  root : ∀ l ∈ f.path.base, U (.var l)
  self : ∀ l ∈ (e.method s.method).self, U (.var l)
  args : ∀ c ∈ s.call?, (∀ b ∈ c.base, U (.var b)) ∧ ∀ v ∈ c.args, U v
  values : ∀ v ∈ s.values, U v
  uses : ∀ v ∈ s.uses, U v
  deciding : ∀ dest, ∀ v ∈ decidingValues e s dest, U v
  roots : ∀ v, U v → ∀ u ∈ v.roots false, U u
  operand : ∀ v, U (.length v) → U v
  size : ∀ ty v, U (.allocArray ty v) → U v
  mayAlias : ∀ u v, U u → U v → Track.Keeps e I (Track.mayAliasValues u v)
  -- the facts that are made
  asLength : ∀ v, W v → Track.Obtains e I P f (Paths.ofTyped v (some .int) true .both) (some s.id)
  rebaseAs : ∀ v ty part, W v → ty = none ∨ ty = f.accessPath.ty.bind Ty.element? →
    Track.Obtains e I P f (Paths.rebase f.accessPath v ty false true part) (some s.id)
  throwAt : ∀ i, P (f.throwAt i s.id)
  catchInto : ∀ v, W v → Track.Keeps e I (Track.paths (Paths.onto f.accessPath v))
    fun p => ∀ i, ∀ g ∈ f.catchInto? i p, P g
  enterAt : ∀ i, P (f.enterConditional i (e.graph.joinOf s.id) s.id)
  creates : e.isZero f = true → Track.Keeps e I (Track.sourceInfo s.id) fun o => ∀ info ∈ o,
    ∀ a ∈ info.paths, ∀ i, P (.ofSource i ⟨info.definition, a.toPath, s.id, none⟩ a.cut false false)
  -- what is asked of the solvers and of the oracle, and what is recorded
  search : ∀ v set g, U v → FactSet.All P set → P g →
    Track.Keeps e I (Track.computeAliases d1 s.id v set s.method g) (FactSet.All P)
  target : ∀ g, P g → ∀ v ∈ g.aliasTarget?, U v
  asksSource : Track.Keeps e I (Track.sourceInfo s.id)
  records : f.isActive = true → e.isSink s.id = true → Track.Keeps e I (record f s)
  reports : f.isActive = true → Track.Keeps e I (reportSink f s)

namespace Site
variable (h : Site e I U W P d1 f s)
include h

theorem anyMayAlias {us : List Value} (hus : ∀ u ∈ us, U u) (hv : U v) :
    Keeps e I (Track.anyMayAlias us v) :=
  anyMayAlias_keeps fun u hu => h.mayAlias u v (hus u hu) hv

theorem readsTaint (hv : U v) : Keeps e I (Track.readsTaint f v) :=
  readsTaint_keeps fun l hl => h.mayAlias _ v (h.root l hl) hv

/-! ### Sources and sinks -/

theorem atSource {elsewhere : RuleM Unit} (helse : RuleM.Keeps e I elsewhere) :
    RuleM.Keeps e I (Rule.atSource d1 f s elsewhere) (AllOpt P) := by
  refine .read (.dite (fun _ => .pure .none) fun hzero => ?_)
  refine .andThen (.killSource trivial) ?_
  refine .lift_bind (h.creates (by simpa using hzero)) fun o ho => ?_
  cases o with
  | none => exact helse.bind fun _ _ => .pure .none
  | some info =>
    have htaints : Keeps e I (sourceTaints d1 s info) (All P) := by
      refine .foldlM (fun set hset a ha => h.fresh.bind fun i _ => ?_) .nil
      have hf := ho info rfl a ha i
      refine .foldlM (fun set hset v hv => ?_) (hset.insert hf)
      exact .ite (h.search v set _ (h.uses v hv) hset hf) <| .pure hset
    exact .lift_bind htaints fun _ hset => .pure (.some hset)

theorem sink_normal : RuleM.Keeps e I (sink.normal d1 f s dest) (AllOpt P) := by
  have hread (v : Value) (hv : v ∈ s.values) : RuleM.Keeps e I (do
      recordIfRead f s v
      return none) (AllOpt P) := by
    have hrecord : Keeps e I (recordIfRead f s v) :=
      recordIfRead_keeps (fun l hl => h.anyMayAlias (h.roots v (h.values v hv)) (h.root l hl))
        h.records
    exact .lift_bind hrecord fun _ _ => .pure .none
  unfold sink
  dsimp only
  split
  · next hact => exact hread _ (by simp [Stmt.values, hact])
  · next hact => exact hread _ (by simp [Stmt.values, hact])
  · next hact => exact hread _ (by simp [Stmt.values, hact])
  · exact .pure .none

theorem sink_callToReturn : RuleM.Keeps e I (sink.callToReturn d1 f s) (AllOpt P) := by
  refine .read (.dite (fun hsink => ?_) fun _ => closing_keeps)
  simp only [Bool.and_eq_true] at hsink
  have hrecord := h.records hsink.1.2 hsink.1.1
  refine .ite ?_ ?_
  · have hvisible : Keeps e I (isVisibleInCallee f s) :=
      isVisibleInCallee_keeps fun c hc l hl => h.anyMayAlias (h.args c hc).2 (h.root l hl)
    exact .lift_bind hvisible fun _ _ => recording_keeps fun _ => hrecord
  · exact RuleM.Keeps.bind (Q := fun _ => True) (.pure trivial) fun _ _ =>
      recording_keeps fun _ => hrecord

/-! ### Arrays and exceptions -/

theorem throughArray {rhs : Value} (hl : W lhs) (hr : U rhs) :
    Keeps e I (Rule.throughArray f s lhs rhs) fun o => ∀ g ∈ o, P g := by
  refine .read ?_
  dsimp only
  split
  · next op =>
    exact (h.readsTaint (h.operand op hr)).bind fun _ _ =>
      .guard all_none <| h.asLength lhs hl
  · exact .guard all_none <|
      .ite (h.rebaseAs lhs _ _ hl (.inr rfl)) <|
        .ite (h.rebaseAs lhs _ _ hl (.inl rfl)) <| .pure all_none
  · next ty size =>
    exact .guard all_none <|
      (h.readsTaint (h.size ty size hr)).bind fun _ _ =>
        .guard all_none <| h.rebaseAs lhs _ _ hl (.inl rfl)
  · exact .pure all_none

theorem array_normal : RuleM.Keeps e I (array.normal d1 f s dest) (AllOpt P) := by
  unfold array
  dsimp only
  split
  · next lhs rhs hact =>
    have hl : W lhs := h.lhs lhs (by simp [Stmt.lhs?, hact])
    have hvalues := h.values
    simp only [Stmt.values, hact] at hvalues
    refine .guard .none ?_
    refine .lift_bind (h.throughArray hl (hvalues rhs (by simp))) fun o ho => ?_
    split
    · exact .pure .none
    · next g =>
      have hg : P g := ho g rfl
      refine .ite ?_ <| .pure (.some (.singleton hg))
      exact .lift_bind (h.search lhs [g] g (hvalues lhs (by simp)) (.singleton hg) hg)
        fun _ hset => .pure (.some hset)
  · exact .pure .none

theorem exception_normal : RuleM.Keeps e I (exception.normal d1 f s dest) (AllOpt P) := by
  refine .read (.guard .none <| .ite ?_ ?_)
  · refine .andThen (.killSource trivial) ?_
    split
    · exact .pure .none
    · next lhs hlhs =>
      exact .lift_bind (h.catchInto lhs (h.lhs lhs hlhs)) fun p hp =>
        .lift_bind h.fresh fun i _ => .pure (allOpt_map (hp i))
  · split
    · next v hact =>
      have hv : U v := h.values v (by simp [Stmt.values, hact])
      refine .lift_bind (h.readsTaint hv) fun _ _ => .ite ?_ <|
        .pure .none
      refine .andThen (.killSource trivial) ?_
      exact .lift_bind h.fresh fun i _ => .pure (.some (.singleton (h.throwAt i)))
    · exact .pure .none

/-! ### Models of library methods -/

theorem isMentioned : Keeps e I (Rule.isMentioned f s) := by
  unfold Rule.isMentioned
  split
  · next c l hc hl =>
    have hl := h.root l hl
    have hloop (onBase : Bool) : Keeps e I (do
        if onBase then return true
        for a in c.args do
          if ← mayAliasValues (.var l) a then return true
        return false) := by
      refine .guard trivial ?_
      refine Keeps.bind (.forIn (R := fun _ => True) (fun v hv _ _ => ?_) trivial)
        fun r _ => ?_
      · exact (h.mayAlias _ v hl ((h.args c hc).2 v hv)).bind fun _ _ =>
          .guard trivial <| .pure trivial
      · dsimp only
        split <;> exact .pure trivial
    dsimp only
    split
    · next b hb =>
      exact (h.mayAlias _ _ ((h.args c hc).1 b hb) hl).bind fun onBase _ => hloop onBase
    · exact hloop false
  · exact .pure trivial

theorem applyModel : Keeps e I (Rule.applyModel d1 f s) (AllOpt P) := by
  refine .read ((h.modelTaints h.fact).bind fun o ho => ?_)
  split
  · exact .pure .none
  · next taints =>
    have htaints : All P taints := ho taints rfl
    refine Keeps.bind (Q := All P) (.foldlM (fun set hset g hg => ?_) htaints)
      fun _ hset => .pure (.some hset)
    split
    · exact .pure hset
    · next v hv =>
      refine .guard hset ?_
      exact h.search v set g (h.target g (htaints g hg) v hv) hset (htaints g hg)

theorem wrapper_callToReturn : RuleM.Keeps e I (wrapper.callToReturn d1 f s) (AllOpt P) := by
  have hrest : Keeps e I (do
      if !e.config.inspectSources then
        if (← sourceInfo s.id).isSome then return none
      Rule.applyModel d1 f s) (AllOpt P) :=
    .ite (h.asksSource.bind fun _ _ => .guard .none <| h.applyModel) <|
      h.applyModel
  have hmodelled : Keeps e I (modelled d1 f s) (AllOpt P) :=
    .read (.guard .none <| .ite (h.isMentioned.bind fun _ _ =>
      .guard .none <| hrest) hrest)
  refine .lift_bind hmodelled fun o ho => ?_
  split
  · exact .pure .none
  · split
    · exact .optional (.killSource trivial) (.pure ho)
    · exact .pure ho

/-! ### Control dependencies -/

theorem enter {base : Local} (hbase : U (.var base)) {vs : List Value} (hvs : ∀ v ∈ vs, U v) :
    Keeps e I (Rule.enter f s base vs) (AllOpt P) := by
  induction vs with
  | nil => exact .pure .none
  | cons v rest ih =>
    have hrest := ih fun u hu => hvs u (List.mem_cons_of_mem v hu)
    refine .read ((h.mayAlias v _ (hvs v List.mem_cons_self) hbase).bind fun _ _ =>
      .ite (.ite hrest ?_) hrest)
    exact h.fresh.bind fun i _ => .pure (.some (.singleton (h.enterAt i)))

theorem implicit_normal : RuleM.Keeps e I (implicit.normal d1 f s dest) (AllOpt P) := by
  refine .read (.guard .none <| leavesBranch_keeps.bind fun _ _ =>
    .guard .none <| .guard .none ?_)
  split
  · exact .pure .none
  · next base hbase => exact .lift (h.enter (h.root base hbase) (h.deciding dest))

theorem taintResult : Keeps e I (Rule.taintResult d1 f s) (AllOpt P) := by
  refine .read ?_
  split
  · exact .pure .none
  · next lhs hlhs =>
    refine .guard .none <| .guard .none ?_
    rw [← bind_assoc]
    exact (h.ofValue lhs (h.lhs lhs hlhs)).bind fun _ ho => .pure (allOpt_map ho)

theorem implicit_callToReturn : RuleM.Keeps e I (implicit.callToReturn d1 f s) (AllOpt P) := by
  have hresult : RuleM.Keeps e I (liftM (Rule.taintResult d1 f s)) (AllOpt P) :=
    .lift h.taintResult
  have hreport (hactive : f.isActive) :
      RuleM.Keeps e I (do reportSink f s; Rule.taintResult d1 f s) (AllOpt P) :=
    .lift_bind (h.reports hactive) fun _ _ => hresult
  refine .read (.guard .none <| leavesBranch_keeps.bind fun _ _ =>
    .guard .none <| .dite (fun hactive => ?_) fun _ => hresult)
  have hreceiver : Keeps e I (isOnReceiver f s) :=
    isOnReceiver_keeps fun this hthis l hl => h.mayAlias _ _ (h.self this hthis) (h.root l hl)
  refine .ite (hreport hactive) ?_
  exact .lift_bind hreceiver fun _ _ =>
    .ite (hreport hactive) hresult

/-! ### Rules that only object -/

theorem strongUpdate_callToReturn :
    RuleM.Keeps e I (strongUpdate.callToReturn d1 f s) (AllOpt P) := by
  unfold strongUpdate
  dsimp only
  split
  · next l rhs hact =>
    have hl : U (.var l) := h.values _ (by simp [Stmt.values, hact])
    split
    · next b hb =>
      exact .lift_bind (h.mayAlias _ _ hl (h.root b hb)) fun _ _ =>
        .optional (.killSource trivial) (.pure .none)
    · exact .pure .none
  · exact .pure .none

/-! ### All rules -/

theorem chain_normal (hr : r ∈ chain e) : RuleM.Keeps e I (r.normal d1 f s dest) (AllOpt P) := by
  apply chain_cases hr
  · exact h.atSource (.killAll trivial)
  · exact h.sink_normal
  · exact .pure .none
  · exact h.array_normal
  · exact h.exception_normal
  · exact .pure .none
  · exact fun _ => h.implicit_normal
  · exact strongUpdate_normal_keeps
  · exact typing_normal_keeps
  · exact .pure .none
  · exact stopAfter_keeps _

theorem chain_callToReturn (hr : r ∈ chain e) :
    RuleM.Keeps e I (r.callToReturn d1 f s) (AllOpt P) := by
  apply chain_cases hr
  · exact h.atSource (.pure trivial)
  · exact h.sink_callToReturn
  · exact .read (.optional (.killAll trivial) (.pure .none))
  · exact .pure .none
  · exact .pure .none
  · exact h.wrapper_callToReturn
  · exact fun _ => h.implicit_callToReturn
  · exact h.strongUpdate_callToReturn
  · exact .pure .none
  · exact .read (.guard (.some (.singleton h.fact)) <| .pure .none)
  · exact stopAfter_keeps _

end Site

/-! ## Into a method and out of it -/

theorem carry_keeps (hcarry : Keeps e I (deriveAt f n) fun o => ∀ g ∈ o, P g) :
    RuleM.Keeps e I (carry f n) (AllOpt P) :=
  .lift_bind hcarry fun _ ho => .pure (allOpt_map ho)

/-- Into a method rules bring static fields and what is there on a condition only. -/
theorem chain_call {m : MethodId} (hfresh : Keeps e I fresh)
    (hcarry : f.path.isStaticField → Keeps e I (deriveAt f s.id) fun o => ∀ g ∈ o, P g)
    (hcover : e.isConditional f → ∀ w, I w → I { w with rules := { w.rules with
      conditionalCalls := w.rules.conditionalCalls.insert (s.id, d1.toTaint) } })
    (hcall : ∀ i, P (f.callConditional i s.id)) {r : Rule} (hr : r ∈ chain e) :
    RuleM.Keeps e I (r.call d1 f s m) (AllOpt P) := by
  apply chain_cases hr
  · have hsink : Keeps e I (sinkInfo s (some f.path)) :=
      .read (.pure trivial)
    refine .read (.optional (.killAll trivial) (.ite ?_ <| .pure .none))
    exact .lift_bind hsink fun _ _ => .optional (.killAll trivial) (.pure .none)
  · exact closing_keeps
  · refine .read (.ite killAll_none_keeps <| .dite (fun _ => .pure .none)
      fun hstatic => ?_)
    split
    · exact .pure .none
    · exact .ite (carry_keeps (hcarry (by simpa using hstatic))) <| .pure .none
  · exact .pure .none
  · exact .pure .none
  · exact .read (.optional (.killAll trivial) (.pure .none))
  · refine fun _ => .read (.dite (fun _ => .pure .none) fun hzero => leavesBranch_keeps.bind
      fun _ _ => .guard .none <| .getWorld_bind fun w _ =>
        .ite killAll_none_keeps <| .dite (fun hempty => ?_) fun _ =>
          .optional (.killAll trivial) (.pure .none))
    have hcond : e.isConditional f := by simp [Env.isConditional, hempty, hzero]
    refine RuleM.Keeps.bind (Q := fun _ => True) (.modifyWorld trivial fun w hw => hcover hcond w hw)
      fun _ _ => ?_
    exact .lift_bind hfresh fun i _ => .pure (.some (.singleton (hcall i)))
  · exact .pure .none
  · exact .pure .none
  · exact .read (.optional (.killAll trivial) (.pure .none))
  · exact stopAfter_keeps _

theorem moveToResult_keeps {lhs : Value} {n src : StmtId} {m : MethodId} {callers : List Fact}
    (hmove : Obtains e I P f (Paths.onto f.accessPath lhs) (some n))
    (hsearch : ∀ d ∈ callers, ∀ set g, All P set → P g →
      Keeps e I (computeAliases d src lhs set m g) (All P))
    (search : Fact → Bool) :
    Keeps e I (do
      let path ← paths (Paths.onto f.accessPath lhs)
      match ← derive f path (some n) with
      | none => return none
      | some g =>
        if search g then
          return some (← callers.foldlM (fun set d1 => computeAliases d1 src lhs set m g) [g])
        return some [g]) (AllOpt P) := by
  rw [← bind_assoc]
  refine hmove.bind fun o ho => ?_
  split
  · exact .pure .none
  · next g =>
    have hg : P g := ho g rfl
    refine .ite ?_ <| .pure (.some (.singleton hg))
    exact Keeps.bind (Q := All P)
      (.foldlM (fun set hset d hd => hsearch d hd set g hset hg) (.singleton hg))
      fun _ hset => .pure (.some hset)

/-- A rule is asked about the fact at an exit, on the way to the call. -/
structure Exit (e : Env) (I : World → Prop) (P : Fact → Prop) (callers : List Fact) (f : Fact)
    (s : Stmt) (call : Option Stmt) : Prop where
  fresh : Track.Keeps e I Track.fresh
  reads : ∀ v ∈ s.values, Track.Keeps e I (Track.readsTaint f v)
  records : f.isActive = true → e.isSink s.id = true → Track.Keeps e I (record f s)
  carry : f.path.isStaticField = true →
    Track.Keeps e I (Track.deriveAt f s.id) fun o => ∀ g ∈ o, P g
  throwAt : ∀ i, P (f.throwAt i s.id)
  onto : ∀ c ∈ call, ∀ lhs ∈ c.lhs?, Track.Obtains e I P f (Paths.onto f.accessPath lhs) (some s.id)
  search : e.config.implicitFlows.tracksControlFlow → ∀ c ∈ call, ∀ lhs ∈ c.lhs?, ∀ src,
    src = s.id ∨ src = c.id → ∀ d ∈ callers, ∀ set g, FactSet.All P set → P g →
      Track.Keeps e I (Track.computeAliases d src lhs set c.method g) (FactSet.All P)

namespace Exit
variable {callers : List Fact} {call site : Option Stmt} (h : Exit e I P callers f s call)
include h

theorem sink_ret : RuleM.Keeps e I (sink.ret callers d1 f s site call) (AllOpt P) := by
  refine .read ?_
  split
  · next v hv =>
    have hv := h.reads v (Stmt.mem_values_of_returned hv)
    refine .lift_bind hv fun _ _ => recording_keeps fun hc => ?_
    simp only [Bool.and_eq_true] at hc
    exact h.records hc.1.1.2 hc.2
  · exact closing_keeps

theorem exception_ret : RuleM.Keeps e I (exception.ret callers d1 f s site call) (AllOpt P) := by
  unfold exception
  dsimp only
  split
  · next r v hact =>
    have hv := h.reads v (by simp [Stmt.values, hact])
    refine .ite ?_ <| .pure .none
    refine .lift_bind hv fun _ _ => .ite ?_ <| .pure .none
    exact .lift_bind h.fresh fun i _ => .pure (.some (.singleton (h.throwAt i)))
  · exact .pure .none

theorem implicit_ret (htracks : e.config.implicitFlows.tracksControlFlow) :
    RuleM.Keeps e I (implicit.ret callers d1 f s site call) (AllOpt P) := by
  have hmove {c : Stmt} {lhs : Value} {src : StmtId} (hc : c ∈ call) (hlhs : lhs ∈ c.lhs?)
      (hsrc : src = s.id ∨ src = c.id) :=
    moveToResult_keeps (m := c.method) (h.onto c hc lhs hlhs) (h.search htracks c hc lhs hlhs src hsrc)
  unfold implicit
  dsimp only
  refine .ite ?_ ?_
  · split
    · next v c lhs _ hcall =>
      obtain ⟨c', hc', hlhs⟩ := Option.bind_eq_some_iff.mp hcall
      obtain ⟨lhs', hlhs', heq⟩ := Option.map_eq_some_iff.mp hlhs
      cases heq
      have hresult : Keeps e I (returnConstant callers f s c lhs) (AllOpt P) :=
        .read (hmove hc' hlhs' (.inl rfl) fun g =>
          c.canCreateAliases lhs g.path && !callers.any e.isConditional)
      refine .ite ?_ killAll_none_keeps
      exact .lift_bind hresult fun _ hset => .pure hset
    · exact killAll_none_keeps
  · split
    · exact .pure .none
    · next c =>
      split
      · exact .pure .none
      · next lhs hlhs =>
        refine .guard .none <| .lift ?_
        exact .read (hmove rfl hlhs (.inr rfl) fun g =>
          g.implicit && !g.path.steps.isEmpty && !callers.any e.isConditional)

theorem chain_ret (hr : r ∈ chain e) :
    RuleM.Keeps e I (r.ret callers d1 f s site call) (AllOpt P) := by
  apply chain_cases hr
  · exact .pure .none
  · exact h.sink_ret
  · exact .read (.dite (fun _ => .pure .none) fun hstatic => .ite killAll_none_keeps <|
      carry_keeps (h.carry (by simpa using hstatic)))
  · exact .pure .none
  · exact h.exception_ret
  · exact .pure .none
  · exact h.implicit_ret
  · exact .pure .none
  · exact .pure .none
  · exact .pure .none
  · exact stopAfter_keeps _

end Exit
end Rule
end LeakTrace
