import LeakTrace.Proofs.Alike.Queries
import LeakTrace.Proofs.Keeps.Logic

/-!
# Every rule takes facts that are alike to facts that are alike

One lemma for each rule, and from them one for the chain. **Only one rule looks further back than
the fact itself**: a strong update spares a fact that became active at the very statement, which it
sees from the fact that it was derived from. So on edges between statements two facts also have to
agree on that.
-/

namespace LeakTrace
open List Track
open FactSet (AlikeOpt)

variable {e : Env} {b : Nat × Nat}

/-- In two runs with facts that are alike the rule adds facts that are alike, and asks to drop the
same. -/
structure Rule.Alike (e : Env) (b : Nat × Nat) (r : Rule) : Prop where
  normal {d1 d1' f g : Fact} (hd : d1.toTaint = d1'.toTaint) (h : f.Alike b g) (s dest : Stmt)
    (hpred : justActivated f s.id = justActivated g s.id) :
    RuleM.Alike e b (r.normal d1 f s dest) (r.normal d1' g s dest) (AlikeOpt b)
  call {d1 d1' f g : Fact} (hd : d1.toTaint = d1'.toTaint) (h : f.Alike b g) (s : Stmt)
    (dest : MethodId) :
    RuleM.Alike e b (r.call d1 f s dest) (r.call d1' g s dest) (AlikeOpt b)
  callToReturn {d1 d1' f g : Fact} (hd : d1.toTaint = d1'.toTaint) (h : f.Alike b g)
    (s : Stmt) :
    RuleM.Alike e b (r.callToReturn d1 f s) (r.callToReturn d1' g s) (AlikeOpt b)
  ret {ds ds' : List Fact} {d d' f g : Fact} (hds : ds.map (·.toTaint) = ds'.map (·.toTaint))
    (hd : d.toTaint = d'.toTaint) (h : f.Alike b g) (exit : Stmt) (site call : Option Stmt) :
    RuleM.Alike e b (r.ret ds d f exit site call) (r.ret ds' d' g exit site call)
      (AlikeOpt b)

namespace Rule
variable {d1 d1' f g : Fact}

theorem single_alike {x y : Option Fact} (h : Option.Rel (Fact.Alike b) x y) :
    AlikeOpt b (x.map fun f => [f]) (y.map fun f => [f]) := by
  cases h with
  | none => exact .none
  | some hxy => exact .some (.cons hxy .nil)

/-! ## Sources -/

theorem sourceTaints_alike (hd : d1.toTaint = d1'.toTaint) (s : Stmt) (info : SourceInfo) :
    Track.Alike e b (sourceTaints d1 s info) (sourceTaints d1' s info) (FactSet.Alike b) := by
  refine .foldlM _ (fun set set' a hset => ?_) .nil
  refine .fresh_bind fun n hn => .foldlM _ (fun set set' v hset => ?_) ?_
  · refine .ite (computeAliases_alike ?_ hd _ _ hset _) (.pure hset)
    exact ⟨rfl, rfl, rfl, hn⟩
  · exact hset.insert ⟨rfl, rfl, rfl, hn⟩

theorem atSource_alike (hd : d1.toTaint = d1'.toTaint) (h : f.Alike b g) (s : Stmt)
    {elsewhere : RuleM Unit} (helse : RuleM.Alike e b elsewhere elsewhere Eq) : RuleM.Alike e b
    (atSource d1 f s elsewhere) (atSource d1' g s elsewhere) (AlikeOpt b) := by
  refine .read ?_
  rw [e.isZero_congr h.taint]
  refine .ite (.pure .none) (.bind_eq .killSource fun _ => ?_)
  refine .bind_eq (.lift (sourceInfo_steady _)) fun info => ?_
  cases info with
  | some info => exact .bind (.lift (sourceTaints_alike hd s info)) fun _ _ hs => .pure (.some hs)
  | none => exact helse.bind_eq fun _ => .pure .none

theorem source_alike : Rule.Alike e b source where
  normal hd h s _ _ := atSource_alike hd h s .killAll
  callToReturn hd h s := atSource_alike hd h s (.pure rfl)
  ret _ _ _ _ _ _ := .pure .none
  call _ h s _ := by
    refine .read (.optional .killAll ?_)
    rw [h.taint]
    refine .ite (.bind_eq (.lift (sinkInfo_steady _ _)) fun d => ?_) (.pure .none)
    exact .optional .killAll (.pure .none)

/-! ## Sinks -/

theorem record_alike (h : f.Alike b g) (s : Stmt) :
    Track.Alike e b (record f s) (record g s) Eq := by
  unfold record
  rw [h.taint]
  refine (sinkInfo_steady _ _).bind_eq fun d => ?_
  cases d with
  | none => exact .pure rfl
  | some d =>
    refine (addResult_alike h d s.id).bind_eq fun more => .ite (.modify ?_) (.pure rfl)
    intro w w' hw
    refine { hw with rules := ?_ }
    dsimp only
    rw [hw.rules]

theorem recordIfRead_alike (h : f.Alike b g) (s : Stmt) (v : Value) :
    Track.Alike e b (recordIfRead f s v) (recordIfRead g s v) Eq := by
  refine .read ?_
  rw [h.taint]
  refine .ite ?_ (.pure rfl)
  cases g.path.base with
  | none => exact .pure rfl
  | some l =>
    refine (anyMayAlias_steady _ _).bind_eq fun _ => .ite (record_alike h s) (.pure rfl)

theorem isVisibleInCallee_alike (h : f.toTaint = g.toTaint) (s : Stmt) :
    Track.Alike e b (isVisibleInCallee f s) (isVisibleInCallee g s) Eq := by
  unfold isVisibleInCallee
  rw [h]
  cases s.call? with
  | none => exact .pure rfl
  | some c =>
    cases g.path.base with
    | none => exact .pure rfl
    | some l => exact (anyMayAlias_steady _ _).bind_eq fun _ => .pure rfl

theorem closeCalls_alike : RuleM.Alike e b closeCalls closeCalls Eq := by
  refine .getWorld_bind fun w w' hw => ?_
  rw [hw.rules]
  exact .ite .killAll (.pure rfl)

theorem closing_alike : RuleM.Alike e b (closeCalls >>= fun _ => pure none)
    (closeCalls >>= fun _ => pure none) (AlikeOpt b) :=
  closeCalls_alike.bind_eq fun _ => .pure .none

theorem sink_alike : Rule.Alike e b sink where
  normal _ h s _ _ := by
    have hread (v : Value) : RuleM.Alike e b (liftM (recordIfRead _ s v))
        (liftM (recordIfRead _ s v)) Eq := .lift (recordIfRead_alike h s v)
    unfold sink
    dsimp only
    cases s.action with
    | ret v => exact (hread v).bind_eq fun _ => .pure .none
    | branch v _ => exact (hread v).bind_eq fun _ => .pure .none
    | assign _ v => exact (hread v).bind_eq fun _ => .pure .none
    | _ => exact .pure .none
  call _ _ _ _ := closing_alike
  callToReturn _ h s := by
    refine .read ?_
    rw [h.taint]
    refine .ite (.ite ?_ ?_) closing_alike
    · refine .bind_eq (.lift (isVisibleInCallee_alike h.taint s)) fun visible => ?_
      exact .optional (.lift (record_alike h s)) closing_alike
    · exact .bind_eq (.pure rfl) fun _ => .optional (.lift (record_alike h s)) closing_alike
  ret _ _ h exit _ _ := by
    refine .read ?_
    rw [h.taint]
    cases exit.returned? with
    | none => exact closing_alike
    | some v =>
      refine .bind_eq (.lift (readsTaint_alike h.taint v)) fun returns => ?_
      exact .optional (.lift (record_alike h exit)) closing_alike

/-! ## Static fields -/

theorem carry_alike (h : f.Alike b g) (s : StmtId) :
    RuleM.Alike e b (carry f s) (carry g s) (AlikeOpt b) :=
  .bind (.lift (deriveAt_alike h s)) fun _ _ hxy => .pure (single_alike hxy)

theorem staticField_alike : Rule.Alike e b staticField where
  normal _ _ _ _ _ := .pure .none
  call {_ _ f g} _ h s dest := by
    refine .read ?_
    rw [h.taint]
    refine .ite (.bind_eq .killAll fun _ => .pure .none) (.ite (.pure .none) ?_)
    cases g.path.firstField? with
    | none => exact .pure .none
    | some field => exact .ite (carry_alike h s.id) (.pure .none)
  callToReturn _ h _ := by
    refine .read ?_
    rw [h.taint]
    exact .optional .killAll (.pure .none)
  ret _ _ h exit _ _ := by
    refine .read ?_
    rw [h.taint]
    refine .ite (.pure .none) (.ite (.bind_eq .killAll fun _ => .pure .none) ?_)
    exact carry_alike h exit.id

/-! ## Arrays and exceptions -/

theorem throughArray_alike (h : f.Alike b g) (s : Stmt) (lhs rhs : Value) : Track.Alike e b
    (throughArray f s lhs rhs) (throughArray g s lhs rhs) (Option.Rel (Fact.Alike b)) := by
  have hat (act : Paths (Option AccessPath)) :
      Track.Alike e b (paths act >>= fun path => derive f path (some s.id))
        (paths act >>= fun path => derive g path (some s.id))
        (Option.Rel (Fact.Alike b)) :=
    .bind_eq (.paths _) fun path => derive_alike h path _
  refine .read ?_
  rw [h.accessPath]
  cases rhs with
  | length op =>
    exact (readsTaint_alike h.taint op).bind_eq fun _ => .ite (.pure .none) (hat _)
  | element base index =>
    exact .ite (.pure .none) (.ite (hat _) (.ite (hat _) (.pure .none)))
  | allocArray _ size =>
    refine .ite (.pure .none) ((readsTaint_alike h.taint size).bind_eq fun _ => ?_)
    exact .ite (.pure .none) (hat _)
  | _ => exact .pure .none

theorem array_alike : Rule.Alike e b array where
  call _ _ _ _ := .pure .none
  callToReturn _ _ _ := .pure .none
  ret _ _ _ _ _ _ := .pure .none
  normal hd h s _ _ := by
    unfold array
    dsimp only
    rw [h.taint]
    cases s.action with
    | assign lhs rhs =>
      refine .ite (.pure .none) (.bind (.lift (throughArray_alike h s lhs rhs)) ?_)
      intro x y hxy
      cases hxy with
      | none => exact .pure .none
      | some hxy =>
        have hone : FactSet.Alike b [_] [_] := .cons hxy .nil
        dsimp only
        rw [hxy.taint]
        refine .ite (.bind (.lift ?_) fun _ _ hs => .pure (.some hs)) (.pure (.some hone))
        exact computeAliases_alike hxy hd _ _ hone _
    | _ => exact .pure .none

theorem exception_alike : Rule.Alike e b exception where
  call _ _ _ _ := .pure .none
  callToReturn _ _ _ := .pure .none
  normal _ h s _ _ := by
    refine .read ?_
    rw [e.isZero_congr h.taint, h.taint, h.accessPath]
    refine .ite (.pure .none) (.ite (.bind_eq .killSource fun _ => ?_) ?_)
    · cases s.lhs? with
      | none => exact .pure .none
      | some lhs =>
        refine .bind_eq (.lift (.paths _)) fun path => .fresh_bind fun n hn => .pure ?_
        exact single_alike (h.catchInto? hn path)
    · cases s.action with
      | throw v =>
        refine .bind_eq (.lift (readsTaint_alike h.taint v)) fun _ => ?_
        refine .ite (.bind_eq .killSource fun _ => .fresh_bind fun n hn => .pure ?_) (.pure .none)
        exact .some (.cons (h.throwAt hn s.id) .nil)
      | _ => exact .pure .none
  ret _ _ h exit site _ := by
    unfold exception
    dsimp only
    cases site with
    | none => exact .pure .none
    | some r =>
      cases exit.action with
      | throw v =>
        refine .ite (.bind_eq (.lift (readsTaint_alike h.taint v)) fun _ => ?_) (.pure .none)
        refine .ite (.fresh_bind fun n hn => .pure ?_) (.pure .none)
        exact .some (.cons (h.throwAt hn exit.id) .nil)
      | _ => exact .pure .none

/-! ## Models -/

theorem isMentioned_alike (h : f.toTaint = g.toTaint) (s : Stmt) :
    Track.Alike e b (isMentioned f s) (isMentioned g s) Eq := by
  unfold isMentioned
  rw [h]
  cases s.call? with
  | none => exact .pure rfl
  | some c =>
    cases g.path.base with
    | none => exact .pure rfl
    | some l =>
      have hargs (onBase : Bool) : Steady e b (do
          if onBase then return true
          for a in c.args do
            if ← mayAliasValues (.var l) a then return true
          return false) := by
        refine .ite (.pure rfl) (.bind_eq (.forIn _ (fun v _ => ?_) _) fun r => ?_)
        · exact (mayAliasValues_steady _ v).bind_eq fun _ => .ite (.pure rfl) (.pure rfl)
        · dsimp only
          split <;> exact .pure rfl
      dsimp only
      cases c.base with
      | none => exact .bind_eq (.pure rfl) hargs
      | some base => exact (mayAliasValues_steady _ _).bind_eq hargs

section
variable (hd : d1.toTaint = d1'.toTaint) (h : f.Alike b g) (s : Stmt)
include hd h s

theorem applyModel_alike :
    Track.Alike e b (applyModel d1 f s) (applyModel d1' g s) (AlikeOpt b) := by
  refine .read ((modelTaints_alike h s).bind_option (.pure .none) fun _ _ htaints => ?_)
  refine .bind (.foldlM₂ htaints (fun set set' x y hxy hset => ?_) htaints)
    fun _ _ hs => .pure (.some hs)
  have hskip (target : Value) : (x.same f || (s.lhs?.any fun lhs => x.path.hasRoot lhs) ||
      !needsSearch e s x target) = (y.same g || (s.lhs?.any fun lhs => y.path.hasRoot lhs) ||
      !needsSearch e s y target) := by
    unfold Fact.same needsSearch
    rw [hxy.taint, h.taint]
  rw [hxy.aliasTarget?]
  cases y.aliasTarget? with
  | none => exact .pure hset
  | some target =>
    dsimp only
    rw [hskip]
    exact .ite (.pure hset) (computeAliases_alike hxy hd _ _ hset _)

theorem modelled_alike :
    Track.Alike e b (modelled d1 f s) (modelled d1' g s) (AlikeOpt b) := by
  have hsources : Track.Alike e b
      (if !e.config.inspectSources then do
        if (← sourceInfo s.id).isSome then return none
        applyModel d1 f s
      else applyModel d1 f s)
      (if !e.config.inspectSources then do
        if (← sourceInfo s.id).isSome then return none
        applyModel d1' g s
      else applyModel d1' g s) (AlikeOpt b) := by
    refine .ite ((sourceInfo_steady _).bind_eq fun _ => ?_) (applyModel_alike hd h s)
    exact .ite (.pure .none) (applyModel_alike hd h s)
  refine .read ?_
  rw [e.isZero_congr h.taint, h.taint]
  refine .ite (.pure .none) (.ite ?_ hsources)
  exact (isMentioned_alike h.taint s).bind_eq fun _ => .ite (.pure .none) hsources

end

theorem wrapper_alike : Rule.Alike e b wrapper where
  normal _ _ _ _ _ := .pure .none
  ret _ _ _ _ _ _ := .pure .none
  call _ _ _ _ := .read (.optional .killAll (.pure .none))
  callToReturn {_ _ f g} hd h s := by
    refine .bind (.lift (modelled_alike hd h s)) fun taints taints' htaints => ?_
    cases htaints with
    | none => exact .pure .none
    | @some x y hxy =>
      have hfound := hxy.find? (fun u => u.path == f.path) (fun u => u.path == g.path)
        fun hu => by rw [hu.taint, h.taint]
      dsimp only
      generalize x.find? (fun u => u.path == f.path) = u at hfound
      generalize y.find? (fun u => u.path == g.path) = v at hfound
      cases hfound with
      | none => exact .pure (.some hxy)
      | some huv =>
        dsimp only
        rw [huv.is_eq h]
        exact .optional .killSource (.pure (.some hxy))

/-! ## Control dependencies -/

theorem leavesBranch_alike (h : f.toTaint = g.toTaint) (s : Stmt) :
    RuleM.Alike e b (leavesBranch f s) (leavesBranch g s) Eq := by
  unfold leavesBranch Fact.joinsAt
  rw [h]
  exact .ite (.bind_eq .killAll fun _ => .pure rfl) (.pure rfl)

theorem reportSink_alike (h : f.Alike b g) (s : Stmt) :
    Track.Alike e b (reportSink f s) (reportSink g s) Eq := by
  refine .read (.ite ((sinkInfo_steady _ _).bind_eq fun d => ?_) (.pure rfl))
  cases d with
  | none => exact .pure rfl
  | some d => exact (addResult_alike h d s.id).bind_eq fun _ => .pure rfl

theorem enter_alike (h : f.Alike b g) (s : Stmt) (base : Local) (vs : List Value) :
    Track.Alike e b (enter f s base vs) (enter g s base vs) (AlikeOpt b) := by
  induction vs with
  | nil => exact .pure .none
  | cons v rest ih =>
    refine .read ((mayAliasValues_steady _ _).bind_eq fun _ => .ite ?_ ih)
    rw [h.taint]
    refine .ite ih (.fresh_bind fun n hn => .pure ?_)
    exact .some (.cons (h.enterConditional hn _ _) .nil)

theorem isOnReceiver_alike (h : f.toTaint = g.toTaint) (s : Stmt) :
    Track.Alike e b (isOnReceiver f s) (isOnReceiver g s) Eq := by
  refine .read ?_
  rw [h]
  refine .ite (.pure rfl) ?_
  cases (e.method s.method).self with
  | none => exact .pure rfl
  | some this =>
    cases g.path.base with
    | none => exact .pure rfl
    | some l => exact mayAliasValues_steady _ _

theorem taintResult_alike (hd : d1.toTaint = d1'.toTaint) (h : f.Alike b g) (s : Stmt) :
    Track.Alike e b (taintResult d1 f s) (taintResult d1' g s) (AlikeOpt b) := by
  refine .read ?_
  rw [h.taint, e.isConditional_congr hd]
  cases s.lhs? with
  | none => exact .pure .none
  | some lhs =>
    refine .ite (.pure .none) (.ite (.pure .none) (.bind_eq (.paths _) fun path => ?_))
    exact (derive_alike h path _).bind fun _ _ hxy => .pure (single_alike hxy)

section Returns
variable {ds ds' : List Fact}

theorem any_isConditional_congr (h : ds.map (·.toTaint) = ds'.map (·.toTaint)) :
    ds.any e.isConditional = ds'.any e.isConditional := by
  have hany (l : List Fact) : l.any e.isConditional =
      (l.map (·.toTaint)).any fun t => t.path.isEmpty && !(t == e.zero.toTaint) := by
    rw [List.any_map]
    rfl
  rw [hany, hany, h]

section
variable (hds : ds.map (·.toTaint) = ds'.map (·.toTaint)) (h : f.Alike b g)
include hds h

/-- A new fact, with its aliases in the contexts of the caller where they are looked for. -/
theorem searchedIn_alike (c : Bool) (src : StmtId) (lhs : Value) (m : MethodId) :
    Track.Alike e b
      (if c then do
        return some (← ds.foldlM (fun set d1 => computeAliases d1 src lhs set m f) [f])
      else return some [f])
      (if c then do
        return some (← ds'.foldlM (fun set d1 => computeAliases d1 src lhs set m g) [g])
      else return some [g]) (AlikeOpt b) := by
  have hone : FactSet.Alike b [f] [g] := .cons h .nil
  refine .ite (.bind ?_ fun _ _ hs => .pure (.some hs)) (.pure (.some hone))
  exact computeAliasesIn_alike h hds src lhs hone m

theorem returned_alike (exit call : Stmt) (lhs : Value) :
    Track.Alike e b (returnConstant ds f exit call lhs) (returnConstant ds' g exit call lhs)
      (AlikeOpt b) ∧
    Track.Alike e b (returnField ds f exit call lhs) (returnField ds' g exit call lhs)
      (AlikeOpt b) := by
  constructor
  all_goals
    refine .read ?_
    rw [h.accessPath, any_isConditional_congr hds]
    refine .bind_eq (.paths _) fun path =>
      (derive_alike h path _).bind_option (.pure .none) fun x y hxy => ?_
    dsimp only
    rw [hxy.taint]
    exact searchedIn_alike hds hxy _ _ _ _

end
end Returns

theorem implicit_alike : Rule.Alike e b implicit where
  normal {_ _ f g} _ h s dest _ := by
    refine .read ?_
    rw [e.isZero_congr h.taint]
    refine .ite (.pure .none) ((leavesBranch_alike h.taint s).bind_eq fun _ => ?_)
    rw [h.taint]
    refine .ite (.pure .none) (.ite (.pure .none) ?_)
    cases g.path.base with
    | none => exact .pure .none
    | some base => exact .lift (enter_alike h s base _)
  call {d1 d1' f g} hd h s _ := by
    refine .read ?_
    rw [e.isZero_congr h.taint]
    refine .ite (.pure .none) ((leavesBranch_alike h.taint s).bind_eq fun _ => ?_)
    rw [h.taint, hd]
    refine .ite (.pure .none) (.getWorld_bind fun w w' hw => ?_)
    rw [hw.rules]
    refine .ite (.bind_eq .killAll fun _ => .pure .none) (.ite ?_ ?_)
    · refine .bind_eq (.modifyWorld fun v v' hv => ?_) fun _ => .fresh_bind fun n hn => .pure ?_
      · refine { hv with rules := ?_ }
        dsimp only
        rw [hv.rules]
      · exact .some (.cons (h.callConditional hn _) .nil)
    · exact .optional .killAll (.pure .none)
  callToReturn {_ _ f g} hd h s := by
    have hrest : RuleM.Alike e b (liftM (taintResult _ f s)) (liftM (taintResult _ g s))
        (AlikeOpt b) := .lift (taintResult_alike hd h s)
    refine .read ?_
    rw [e.isZero_congr h.taint]
    refine .ite (.pure .none) ((leavesBranch_alike h.taint s).bind_eq fun _ => ?_)
    rw [h.taint]
    refine .ite (.pure .none) (.ite (.ite ?_ ?_) hrest)
    · exact .bind_eq (.lift (reportSink_alike h s)) fun _ => hrest
    · refine .bind_eq (.lift (isOnReceiver_alike h.taint s)) fun _ => ?_
      exact .optional (.lift (reportSink_alike h s)) hrest
  ret {ds ds' _ _ f g} hds _ h exit _ call := by
    have hkill : RuleM.Alike e b (RuleM.killAll >>= fun _ => pure none)
        (RuleM.killAll >>= fun _ => pure none) (AlikeOpt b) :=
      .bind_eq .killAll fun _ => .pure .none
    unfold implicit
    dsimp only
    rw [h.taint]
    refine .ite ?_ ?_
    · split
      · exact .ite (.lift (returned_alike hds h _ _ _).1) hkill
      · exact hkill
    · cases call with
      | none => exact .pure .none
      | some c =>
        dsimp only
        cases c.lhs? with
        | none => exact .pure .none
        | some lhs => exact .ite (.pure .none) (.lift (returned_alike hds h _ _ _).2)

/-! ## Strong updates -/

theorem strongUpdate_alike : Rule.Alike e b strongUpdate where
  call _ _ _ _ := .pure .none
  ret _ _ _ _ _ _ := .pure .none
  normal {_ _ f g} _ h s _ hpred := by
    unfold strongUpdate
    dsimp only
    rw [h.taint, h.stmt, hpred]
    cases s.action with
    | assign lhs rhs =>
      refine .ite (.pure .none) (.ite ?_ (.ite ?_ ?_))
      · cases lhs with
        | field base field => exact .optional .killAll (.pure .none)
        | var l => exact .optional .killAll (.pure .none)
        | _ => exact .pure .none
      · cases lhs with
        | global field => exact .optional .killAll (.pure .none)
        | _ => exact .pure .none
      · cases g.path.base with
        | none => exact .pure .none
        | some base =>
          cases lhs with
          | var l => exact .ite (.bind_eq (.setKill _) fun _ => .pure .none) (.pure .none)
          | _ => exact .pure .none
    | _ => exact .pure .none
  callToReturn {_ _ f g} _ h s := by
    unfold strongUpdate
    dsimp only
    rw [h.taint]
    split
    · cases g.path.base with
      | none => exact .pure .none
      | some base =>
        refine .bind_eq (.lift (mayAliasValues_steady _ _)) fun _ => ?_
        exact .optional .killSource (.pure .none)
    · exact .pure .none

/-! ## Casts, runtime methods and the limit on results -/

theorem typing_alike : Rule.Alike e b typing where
  call _ _ _ _ := .pure .none
  callToReturn _ _ _ := .pure .none
  ret _ _ _ _ _ _ := .pure .none
  normal _ h s _ _ := by
    refine .read ?_
    rw [h.taint]
    refine .ite (.pure .none) ?_
    split
    · exact .optional .killAll (.pure .none)
    · exact .pure .none

theorem skipSystemClass_alike : Rule.Alike e b skipSystemClass where
  normal _ _ _ _ _ := .pure .none
  call _ _ _ _ := .read (.optional .killAll (.pure .none))
  callToReturn _ h _ := .read (.ite (.pure (.some (.cons h .nil))) (.pure .none))
  ret _ _ _ _ _ _ := .pure .none

theorem stopAfter_alike (k : Nat) : Rule.Alike e b (stopAfter k) := by
  have hcheck : RuleM.Alike e b
      (do
        if (← getThe World).results.length ≥ k then RuleM.killAll
        return none)
      (do
        if (← getThe World).results.length ≥ k then RuleM.killAll
        return none) (AlikeOpt b) := by
    refine .getWorld_bind fun w w' hw => ?_
    rw [hw.results_length]
    exact .optional .killAll (.pure .none)
  exact ⟨fun _ _ _ _ _ => hcheck, fun _ _ _ _ => hcheck, fun _ _ _ => hcheck,
    fun _ _ _ _ _ _ => hcheck⟩

/-! ## All rules -/

theorem chain_alike : ∀ r ∈ chain e, Rule.Alike e b r := by
  intro r hr
  apply chain_cases hr
  exacts [source_alike, sink_alike, staticField_alike, array_alike, exception_alike, wrapper_alike,
    fun _ => implicit_alike, strongUpdate_alike, typing_alike, skipSystemClass_alike, stopAfter_alike _]

section Chain
variable {rules : List Rule}

theorem ask_alike {hook hook' : Rule → RuleM (Option FactSet)}
    (hhook : ∀ r ∈ rules, RuleM.Alike e b (hook r) (hook' r) (AlikeOpt b))
    {acc acc' : Option FactSet} (hacc : AlikeOpt b acc acc') :
    RuleM.Alike e b (ask hook rules acc) (ask hook' rules acc') (AlikeOpt b) := by
  induction rules generalizing acc acc' with
  | nil => exact .pure hacc
  | cons r rest ih =>
    refine (hhook r mem_cons_self).bind fun out out' hout => .getKill_bind fun k => ?_
    refine .ite (.pure .none) (ih (fun r hr => hhook r (mem_cons_of_mem _ hr)) ?_)
    cases hout with
    | none => cases hacc with
      | none => exact .none
      | some hacc => exact .some hacc
    | some hout => cases hacc with
      | none => exact .some (FactSet.Alike.insertAll .nil hout)
      | some hacc => exact .some (hacc.insertAll hout)

variable (hrules : ∀ r ∈ rules, Rule.Alike e b r) (hd : d1.toTaint = d1'.toTaint)
  (h : f.Alike b g)
include hrules hd h

theorem applyNormal_alike (s dest : Stmt) (hpred : justActivated f s.id = justActivated g s.id) :
    RuleM.Alike e b (applyNormal rules d1 f s dest) (applyNormal rules d1' g s dest)
      (FactSet.Alike b) := by
  refine (ask_alike (fun r hr => (hrules r hr).normal hd h s dest hpred) .none).bind ?_
  intro out out' hout
  refine .getKill_bind fun k => .ite (.pure .nil) (.pure ?_)
  have hset := FactSet.Alike.getD hout
  split
  · exact hset
  · exact hset.insert h

theorem applyCallToReturn_alike (s : Stmt) (pass : Bool) :
    RuleM.Alike e b (applyCallToReturn rules d1 f s pass)
      (applyCallToReturn rules d1' g s pass) (FactSet.Alike b) := by
  refine (ask_alike (fun r hr => (hrules r hr).callToReturn hd h s) .none).bind ?_
  intro out out' hout
  refine .getKill_bind fun k => .ite (.pure .nil) (.pure ?_)
  have hset := FactSet.Alike.getD hout
  split
  · exact hset.insert h
  · exact hset

end Chain
end Rule
end LeakTrace
