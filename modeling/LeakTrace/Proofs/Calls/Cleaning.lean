import LeakTrace.Proofs.Calls.Models

/-!
# What modelled calls clean

A model that cleans the receiver and the arguments of a call gives nothing back. That alone does not
clean them: **a taint also goes around its model.** The rules never ask that the incoming fact is
dropped because the model drops it, so the fact still goes past the call where no callee carries it
and the call does not assign its root.
-/

namespace LeakTrace
open List Track
open FactSet (Says)

variable {e : Env} {I : World → Prop} {d1 f : Fact} {s : Stmt} {c : Call} {l : Local} {w w' : World}
  {r : PathRules} {α : Type} {k : Kill}

/-! ## The rules past a modelled call -/

/-- Results, closed sinks and the rules for paths are as they were. -/
structure World.Still (w w' : World) : Prop where
  results : w'.results = w.results
  sinksClosed : w'.rules.sinksClosed = w.rules.sinksClosed
  pathRules : w'.paths.rules = w.paths.rules

theorem World.still_refl (w : World) : w.Still w := ⟨rfl, rfl, rfl⟩

theorem World.still_unmoved (w : World) : World.Unmoved w.Still :=
  fun hw hs => ⟨hw.results, hw.sinksClosed, hs.trans hw.pathRules⟩

theorem Upkeep.still : Upkeep e (fun _ => True) (fun _ => False) w.Still where
  rest hw h := ⟨h.results.trans hw.results, h.sinksClosed.trans hw.sinksClosed,
    h.pathRules.trans hw.pathRules⟩
  send hw _ := ⟨hw.results, hw.sinksClosed, hw.pathRules⟩
  hit _ h := h.elim
  again _ _ h := h.elim
  close _ h := h.elim
  global := addGlobal_of_send (M := fun _ => True)
    (fun _ _ hw => ⟨hw.results, hw.sinksClosed, hw.pathRules⟩)
    fun _ _ hw _ => ⟨hw.results, hw.sinksClosed, hw.pathRules⟩

def World.Enough (w : World) (e : Env) : Prop :=
  w.rules.sinksClosed = true ∨ 0 < e.config.stopAfter ∧ e.config.stopAfter ≤ w.results.length

theorem World.Still.enough (h : w.Still w') : w'.Enough e ↔ w.Enough e := by
  rw [Enough, Enough, h.sinksClosed, h.results]

theorem RuleM.keeps_of_lift {β : Type} {x : Track α} {A : α → Prop} {g : α → RuleM β}
    {Q : β × Kill → Prop} (hx : Track.Keeps e I x A)
    (hg : ∀ a, A a → Track.Keeps e I ((g a).run k) Q) :
    Track.Keeps e I (StateT.run (liftM x >>= g) k) Q := by
  change Track.Keeps e I (x >>= fun a => (g a).run k) Q
  exact hx.bind hg

theorem RuleM.ends_getWorld {g : World → RuleM α} {Q : α × Kill → World → Prop}
    (h : w.Ends e ((g w).run k) Q) : w.Ends e (StateT.run (getThe World >>= g) k) Q :=
  h

theorem Track.mayAliasValues_self : Keeps e I (mayAliasValues (.var l) (.var l)) (·) :=
  .read (.dite (fun h => absurd h Bool.false_ne_true) fun _ => .dite (fun _ => .pure rfl)
    fun hno => absurd (Value.beq_var.mpr rfl) hno)

namespace Rule
variable {R : SinkHit → Prop} {model : Model}

theorem anyValue_of_mem (hI : World.Unmoved I) {vs : List Value} (h : .var l ∈ vs) :
    Keeps e I (do
      for v in vs do
        if ← mayAliasValues (.var l) v then return true
      return false) (·) := by
  induction vs with
  | nil => cases h
  | cons v rest ih =>
    simp only [forIn_cons, bind_assoc]
    rcases mem_cons.mp h with rfl | h
    · refine mayAliasValues_self.bind ?_
      rintro _ rfl
      exact .pure rfl
    · refine (mayAliasValues_fits hI).bind fun b _ => ?_
      cases b with
      | true => exact .pure rfl
      | false => exact ih h

theorem isMentioned_of_meets (hI : World.Unmoved I) (hf : f.MeetsModel e s c model l) :
    Keeps e I (isMentioned f s) (·) := by
  unfold isMentioned
  rw [hf.call, hf.root]
  dsimp only
  rcases hf.passed with hbase | hargs
  · rw [hbase]
    refine mayAliasValues_self.bind ?_
    rintro _ rfl
    exact .pure rfl
  · split
    · exact (mayAliasValues_fits hI).bind fun onBase _ => .guard rfl <|
        anyValue_of_mem hI hargs
    · exact anyValue_of_mem hI hargs

section
variable (hI : Upkeep e (fun _ => True) R I) (hr : ∀ w, I w → w.paths.rules = r)
include hI hr

/-- The model is asked, and what it says is not added to: aliases are only looked for. -/
theorem applyModel_tells (hf : f.MeetsModel e s c model l) (hw : I w) :
    Keeps e I (applyModel d1 f s) (FromModel f s l (KeptByModel e w f s)) := by
  obtain ⟨K, hK⟩ := modelTaints_tells (e := e) hI.unmoved hr hf
  have hkept : KeptByModel e w f s ↔ K := by
    obtain ⟨taints, htaints, hiff, -⟩ := (hK w hw).1
    rw [KeptByModel, htaints]
    exact hiff
  refine .read (hK.bind ?_)
  rintro _ ⟨taints, rfl, hiff, hhead⟩
  refine Keeps.bind (Q := (· = taints)) (.foldlM (fun set hset g _ => ?_) rfl) ?_
  · subst hset
    split
    · exact .pure rfl
    · next target htarget =>
      exact .guard rfl <|
        computeAliases_same hI fun _ => Fact.aliasTarget?_ne_field htarget
  · rintro _ rfl
    exact .pure ⟨_, rfl, hiff.trans hkept.symm, hhead⟩

variable (hzero : e.isZero f = false) (hsource : e.isSource s.id = false)
  (hf : f.MeetsModel e s c model l)
include hzero hsource hf

/-- Nobody but the model has a say in whether it is asked about a fact that the call mentions. -/
theorem modelled_tells (hw : I w) :
    Keeps e I (modelled d1 f s) (FromModel f s l (KeptByModel e w f s)) := by
  have hmodels : e.models.isNone = false := by simpa using hf.models
  refine .read (.dite (fun h => ?_) fun _ => ?_)
  · simp [hzero, hmodels] at h
  · rw [if_pos (by rw [hf.root]; rfl)]
    refine (isMentioned_of_meets hI.unmoved hf).bind ?_
    rintro _ rfl
    have hmade : Keeps e I (applyModel d1 f s) (FromModel f s l (KeptByModel e w f s)) :=
      applyModel_tells hI hr hf hw
    have hinfo : Keeps e I (sourceInfo s.id) (· = none) :=
      .read (.dite (fun h => absurd h (by simp [hsource])) fun _ => .pure rfl)
    refine .dite (fun h => absurd h Bool.false_ne_true) fun _ => .ite (hinfo.bind ?_) <|
      hmade
    rintro _ rfl
    exact hmade

/-- The model never asks to drop the fact but where the call assigns its root. -/
theorem wrapper_callToReturn_keeps (hw : I w) :
    Keeps e I ((wrapper.callToReturn d1 f s).run k) fun p =>
      p.2.all = k.all ∧ (p.2.source → k.source ∨ s.lhs? = some (.var l)) ∧
        ∃ taints, p.1 = some taints ∧ (taints.Says f ↔ KeptByModel e w f s) := by
  refine RuleM.keeps_of_lift (modelled_tells hI hr hzero hsource hf hw) ?_
  rintro _ ⟨taints, rfl, hiff, hhead⟩
  dsimp only
  split
  · next g hg =>
    by_cases his : g.is f
    · rw [if_neg (by simp [his])]
      exact .pure ⟨rfl, .inl, taints, rfl, hiff⟩
    · rw [if_pos (by simp [his])]
      refine .pure ⟨rfl, fun _ => .inr ?_, taints, rfl, hiff⟩
      rcases hhead with rfl | hhead | hlhs
      · cases hg
      · -- A fact in front is found first, and it is the fact itself.
        obtain ⟨rest, rfl⟩ := head?_eq_some_iff.mp hhead
        rw [find?_cons_of_pos (by simp)] at hg
        cases hg
        exact absurd (beq_self_eq_true f.id) his
      · exact hlhs
  · exact .pure ⟨rfl, .inl, taints, rfl, hiff⟩

end

theorem strongUpdate_callToReturn_keeps (hI : World.Unmoved I) (hr : ∀ w, I w → w.paths.rules = r)
    (hc : s.call? = some c) (hw : I w) :
    Keeps e I ((strongUpdate.callToReturn d1 f s).run k) fun p =>
      p.1 = none ∧ p.2.all = k.all ∧ (p.2.source ↔ k.source ∨ Overwritten e w f s) := by
  unfold strongUpdate
  dsimp only
  split
  · next l rhs hact =>
    have hlhs : s.lhs? = some (.var l) := by simp [Stmt.lhs?, hact]
    split
    · next b hb =>
      have hiff (v : Bool) (hv : v = (((mayAliasValues (.var l) (.var b)).run e).run w).1) :
          Overwritten e w f s ↔ v := by
        subst hv
        simp [Overwritten, hlhs, hb]
      refine RuleM.keeps_of_lift ((mayAliasValues_settled hI hr).keeps hw) fun v hv => ?_
      rw [hiff v hv]
      cases v with
      | true => exact .pure ⟨rfl, rfl, by simp⟩
      | false => exact .pure ⟨rfl, rfl, by simp⟩
    · next hb =>
      have hno : ¬ Overwritten e w f s := by simp [Overwritten, hb]
      exact .pure ⟨rfl, rfl, by simp [hno]⟩
  · next hact =>
    have hno : ¬ Overwritten e w f s := by
      rintro ⟨l, -, hlhs, -⟩
      -- A statement that calls and has a left side is an assignment.
      cases h : s.action with
      | assign lhs rhs =>
        simp only [Stmt.lhs?, h, Option.some.injEq] at hlhs
        subst hlhs
        exact hact l rhs h
      | entry => simp [Stmt.call?, h] at hc
      | _ => simp [Stmt.lhs?, h] at hlhs
    exact .pure ⟨rfl, rfl, by simp [hno]⟩

/-- Nothing is added, and nothing comes out if sinks are closed. -/
def Closes (r : PathRules) (k : Kill) (p : Option FactSet × Kill) (w : World) : Prop :=
  p = (none, { k with all := k.all || w.rules.sinksClosed }) ∧ w.paths.rules = r

theorem closeCalls_ends (hw : w.paths.rules = r) :
    w.Ends e (StateT.run (do closeCalls; return none) k) (Closes r k) := by
  unfold closeCalls
  rw [bind_assoc]
  refine RuleM.ends_getWorld ?_
  cases hclosed : w.rules.sinksClosed
  all_goals
    refine ⟨?_, hw⟩
    change _ = ((none : Option FactSet), { k with all := k.all || w.rules.sinksClosed })
    rw [hclosed]
  · rw [Bool.or_false]
    rfl
  · rw [Bool.or_true]
    rfl

theorem record_ends (visible : Bool) (hw : w.paths.rules = r) :
    w.Ends e (StateT.run (do
      if visible then record f s
      closeCalls
      return none) k) (Closes r k) := by
  cases visible with
  | true =>
    have hrecord : Keeps e (fun w => w.paths.rules = r) (record f s) :=
      record_fits Upkeep.ruled fun _ _ _ _ _ _ => trivial
    exact (hrecord.ends hw).bind fun _ _ h => closeCalls_ends h.2
  | false => exact closeCalls_ends hw

theorem sink_callToReturn_ends :
    w.Ends e ((sink.callToReturn d1 f s).run k) (Closes w.paths.rules k) := by
  have hruled : Upkeep.Always e fun w' =>
    w'.paths.rules = w.paths.rules := .ruled
  change w.Ends e (StateT.run (if e.isSink s.id && f.isActive && f.path.base.isSome then _ else _)
    k) _
  split
  · split
    · exact ((isVisibleInCallee_keeps fun _ _ _ _ => anyMayAlias_fits
        hruled.unmoved).ends rfl).bind fun _ _ h => record_ends _ h.2
    · exact record_ends true rfl
  · exact closeCalls_ends rfl

theorem stopAfter_callToReturn_ends {n : Nat} :
    w.Ends e (((stopAfter n).callToReturn d1 f s).run k) fun p w' =>
    p.1 = none ∧ p.2.source = k.source ∧ (p.2.all ↔ k.all ∨ n ≤ w.results.length) ∧ w' = w := by
  refine RuleM.ends_getWorld ?_
  split
  · next hn => exact ⟨rfl, rfl, by simp [hn]; rfl, rfl⟩
  · next hn => exact ⟨rfl, rfl, by simp [hn]; rfl, rfl⟩

section Ask
variable {hook : Rule → RuleM (Option FactSet)} {rule : Rule} {rest : List Rule}
  {acc : Option FactSet} {J : Option FactSet × Kill → World → Prop}

theorem ask_ends {Q : Option FactSet × Kill → World → Prop} (hr : w.Ends e ((hook rule).run k) Q)
    (hstop : ∀ p w', Q p w' → p.2.all → J (none, p.2) w')
    (hrest : ∀ p w', Q p w' → p.2.all = false →
      w'.Ends e ((ask hook rest (gather acc p.1)).run p.2) J) :
    w.Ends e ((ask hook (rule :: rest) acc).run k) J := by
  rw [ask_cons, StateT.run_bind]
  refine hr.bind fun p w' hp => ?_
  change w'.Ends e (StateT.run (if p.2.all then pure none else _) p.2) _
  by_cases hall : p.2.all
  · rw [if_pos hall]
    exact hstop p w' hp hall
  · rw [if_neg hall]
    exact hrest p w' hp (by simpa using hall)

theorem ask_nil (h : J (acc, k) w) : w.Ends e ((ask hook [] acc).run k) J := h

theorem ask_tells {kills : Prop} (hr : RuleM.Tells e (· = w) (hook rule) kills (· = none))
    (hk : k.all = false) (hstop : kills → ∀ k' : Kill, k'.all → J (none, k') w)
    (hrest : ¬ kills → w.Ends e ((ask hook rest acc).run k) J) :
    w.Ends e ((ask hook (rule :: rest) acc).run k) J := by
  refine ask_ends ((hr k).ends rfl) ?_ ?_
  · rintro p _ ⟨⟨hall, -⟩, rfl⟩ hkilled
    exact hstop ((hall.mp hkilled).resolve_left (by simp [hk])) p.2 hkilled
  · rintro ⟨_, source, all⟩ _ ⟨⟨hall, hsource, rfl⟩, rfl⟩ hlive
    have hkept : (⟨source, all⟩ : Kill) = k := by
      rcases k with ⟨_, _⟩
      simp_all
    rw [hkept, gather_none]
    exact hrest fun h => Bool.false_ne_true (hlive.symm.trans (hall.mpr (.inr h)))

theorem ask_silent (hr : RuleM.Silent e (· = w) (hook rule)) (hk : k.all = false)
    (hrest : w.Ends e ((ask hook rest acc).run k) J) :
    w.Ends e ((ask hook (rule :: rest) acc).run k) J :=
  ask_tells hr hk False.elim fun _ => hrest

theorem ask_silentOptional {b : Prop} [Decidable b] (hr : b → RuleM.Silent e (· = w) (hook rule))
    (hk : k.all = false) (hrest : w.Ends e ((ask hook rest acc).run k) J) :
    w.Ends e ((ask hook ((if b then [rule] else []) ++ rest) acc).run k) J := by
  by_cases hb : b
  · rw [if_pos hb]
    exact ask_silent (hr hb) hk hrest
  · rw [if_neg hb]
    exact hrest

end Ask

/-- What the rules make of a fact that goes past a modelled call, asked in `w`: the model and inert
callees give it again if `kept`. -/
structure Heard (e : Env) (w : World) (f : Fact) (s : Stmt) (kept : Prop)
    (p : Option FactSet × Kill) (w' : World) : Prop where
  pathRules : w'.paths.rules = w.paths.rules
  all : p.2.all = true ↔ w'.Enough e
  source : p.2.all = false → (p.2.source = true ↔ Track.Overwritten e w f s)
  given : p.2.all = false → (FactSet.Says (p.1.getD []) f ↔ kept ∨ allInert e s.id = true)

section
variable (hopen : w.rules.sinksClosed = false) (hstill : w.Still w')
include hopen hstill

theorem ask_limit {kept : Prop} {acc : Option FactSet} (hk : k.all = false)
    (hsource : k.source ↔ Overwritten e w f s)
    (hgiven : Says (acc.getD []) f ↔ kept ∨ allInert e s.id) :
    w'.Ends e ((ask (fun r => r.callToReturn d1 f s)
      (if e.config.stopAfter > 0 then [stopAfter e.config.stopAfter] else []) acc).run k)
      (Heard e w f s kept) := by
  have henough : w'.Enough e ↔ e.config.stopAfter > 0 ∧ e.config.stopAfter ≤ w'.results.length := by
    rw [World.Enough, hstill.sinksClosed, hopen]
    simp
  by_cases hlimit : e.config.stopAfter > 0
  · rw [if_pos hlimit]
    refine ask_ends stopAfter_callToReturn_ends ?_ ?_
    · rintro ⟨_, k'⟩ _ ⟨-, -, hk', rfl⟩ (hstop : k'.all)
      have hno : ¬ k'.all = false := by simp [hstop]
      refine ⟨hstill.pathRules, ?_, fun h => absurd h hno, fun h => absurd h hno⟩
      rw [henough, hk']
      simp [hk, hlimit]
    · rintro ⟨_, k'⟩ _ ⟨rfl, hsame, hk', rfl⟩ -
      refine ask_nil ⟨hstill.pathRules, ?_, fun _ => ?_, fun _ => ?_⟩
      · rw [henough, hk']
        simp [hk, hlimit]
      · rw [← hsource, ← hsame]
      · rwa [gather_none]
  · rw [if_neg hlimit]
    refine ask_nil ⟨hstill.pathRules, ?_, fun _ => hsource, fun _ => hgiven⟩
    rw [henough]
    exact ⟨fun h => absurd (hk.symm.trans h) Bool.false_ne_true, fun h => absurd h.1 hlimit⟩

theorem ask_afterModel (hc : s.call? = some c) (hl : f.path.base = some l) (hk : k.all = false)
    (hkill : k.source → s.lhs? = some (.var l)) {set : FactSet} :
    w'.Ends e ((ask (fun r => r.callToReturn d1 f s)
      (strongUpdate :: ((if e.config.typeChecking then [typing] else []) ++
        (skipSystemClass :: if e.config.stopAfter > 0 then [stopAfter e.config.stopAfter] else [])))
      (some set)).run k) (Heard e w f s (set.Says f)) := by
  have hself : s.lhs? = some (.var l) → Overwritten e w f s := fun hlhs =>
    ⟨l, l, hlhs, hl, (mayAliasValues_self (I := fun _ => True) w trivial).1⟩
  refine ask_ends ((strongUpdate_callToReturn_keeps w.still_unmoved (fun _ h => h.pathRules) hc
    w.still_refl).ends hstill) ?_ ?_
  · rintro _ w1 ⟨⟨-, hall, -⟩, -⟩ hstop
    exact absurd (hk.symm.trans (hall.symm.trans hstop)) Bool.false_ne_true
  · rintro ⟨_, k1⟩ w1 ⟨⟨rfl, -, hsource⟩, hstill⟩ hk1
    have hsource : k1.source ↔ Overwritten e w f s :=
      hsource.trans ⟨fun h => h.elim (fun h => hself (hkill h)) id, .inr⟩
    refine ask_silentOptional (fun _ => RuleM.silent_none) hk1
      (ask_ends ((skipSystemClass_callToReturn_tells k1).ends hstill) ?_ ?_)
    · rintro _ w2 ⟨⟨hall, -⟩, -⟩ hstop
      have hall : k1.all := (hall.mp hstop).resolve_right id
      exact absurd (hk1.symm.trans hall) Bool.false_ne_true
    · rintro ⟨_, k2⟩ w2 ⟨⟨-, hsame, rfl⟩, hstill⟩ hk2
      refine ask_limit hopen hstill hk2 (by rw [← hsource, ← hsame]) ?_
      by_cases hinert : allInert e s.id
      · rw [if_pos hinert]
        exact ⟨fun _ => .inr hinert, fun _ => (FactSet.says_insert set f f).mpr (.inr rfl)⟩
      · rw [if_neg hinert, gather_none]
        exact ⟨.inl, fun h => h.resolve_right hinert⟩

end

variable (hflows : e.config.implicitFlows.tracksControlFlow = false) (hzero : e.isZero f = false)
  (hsource : e.isSource s.id = false)
include hflows hzero hsource

variable (hf : f.MeetsModel e s c model l)
include hf

/-- **Past a modelled call** the rules let nothing through once enough results were found, and
object to the fact where the call assigns its root. That the model drops the fact is no
objection. -/
theorem ask_modelled : w.Ends e ((ask (fun r => r.callToReturn d1 f s) (chain e) none).run {})
      (Heard e w f s (KeptByModel e w f s)) := by
  have hstatic : f.path.isStaticField = false := by simp [Path.isStaticField, hf.root]
  unfold chain
  simp only [hf.models, hflows, if_true, Bool.false_eq_true, if_false, append_nil,
    append_assoc, cons_append, nil_append]
  refine ask_silent (source_callToReturn_tells hzero) rfl (ask_ends sink_callToReturn_ends ?_ ?_)
  · rintro _ w1 ⟨rfl, hrules⟩ hclosed
    have hclosed : w1.rules.sinksClosed := hclosed
    have hno {p : Prop} : (false || w1.rules.sinksClosed) = false → p := by simp [hclosed]
    exact ⟨hrules, ⟨fun _ => .inl hclosed, fun _ => hclosed⟩, hno, hno⟩
  · rintro _ w1 ⟨rfl, hrules⟩ hopen
    have hopen : w1.rules.sinksClosed = false := hopen
    rw [hopen, gather_none]
    refine ask_silent (staticField_callToReturn_tells (.inr hstatic)) rfl
      (ask_silentOptional (fun _ => RuleM.silent_none) rfl
        (ask_silentOptional (fun _ => RuleM.silent_none) rfl
        (ask_ends ((wrapper_callToReturn_keeps Upkeep.still (fun _ h => h.pathRules) hzero hsource
          hf w1.still_refl).ends w1.still_refl) ?_ ?_)))
    · rintro ⟨_, _⟩ w2 ⟨⟨hnot, -⟩, -⟩ hall
      exact absurd (hnot.symm.trans hall) Bool.false_ne_true
    · rintro ⟨_, k⟩ w2 ⟨⟨hk, hkill, taints, rfl, hkept⟩, hstill⟩ -
      have hkill : k.source → s.lhs? = some (.var l) := fun h =>
        (hkill h).resolve_left Bool.false_ne_true
      refine (ask_afterModel hopen hstill hf.call hf.root hk hkill).mono fun p w' hp => ?_
      refine ⟨hp.pathRules.trans hrules, hp.all, fun h => ?_, fun h => ?_⟩
      · rw [hp.source h, overwritten_congr hrules]
      · rw [hp.given h, keptByModel_congr hrules hf, ← hkept]
        exact or_congr_left ((FactSet.says_insertAll [] taints).trans
          ⟨fun h => h.resolve_left not_mem_nil, .inr⟩)

theorem applyCallToReturn_modelled :
    w.Ends e ((applyCallToReturn (chain e) d1 f s false).run {}) fun p w' =>
      Heard e w f s (KeptByModel e w f s) (some p.1, p.2) w' := by
  unfold applyCallToReturn
  rw [StateT.run_bind]
  refine (ask_modelled hflows hzero hsource hf).bind fun p w' hp => ?_
  change w'.Ends e (StateT.run (if p.2.all then pure [] else pure (p.1.getD [])) p.2) _
  by_cases hall : p.2.all
  · have hno {q : Prop} : p.2.all = false → q := by simp [hall]
    rw [if_pos hall]
    exact ⟨hp.pathRules, hp.all, hno, hno⟩
  · rw [if_neg hall]
    exact { hp with }

end Rule

/-! ## Past the call -/

namespace Track
variable {R : SinkHit → Prop} {set : FactSet}

theorem goesAround_iff : GoesAround e w f s c ↔ Rule.allInert e s.id ∨ f.inConditional ∨
    (¬ Overwritten e w f s ∧ (((carriedByCallees f f s).run e).run w).1 = false) ∨
    CopiedByRuntime e w f s c := by
  constructor
  · rintro (h | h | ⟨hroot, hcallees⟩ | h) <;> simp_all
  · rintro (h | h | ⟨hroot, hcallees⟩ | h)
    · exact .inert h
    · exact .conditional h
    · exact .untouched hroot hcallees
    · exact .copied h

theorem passesCall_tells (hI : World.Unmoved I) (hr : ∀ w, I w → w.paths.rules = r)
    (hl : f.path.base = some l) (hw : I w) {killed : Bool} :
    Keeps e I (passesCall f f s killed) fun b => b ↔ f.inConditional ∨
      killed = false ∧ (((carriedByCallees f f s).run e).run w).1 = false := by
  have hstatic : f.path.isStaticField = false := by simp [Path.isStaticField, hl]
  have hempty : f.path.isEmpty = false := by simp [Path.isEmpty, hl]
  refine .read (.dite (fun h => ?_) fun h => ?_)
  · have hkilled : killed := by simpa [hstatic] using h
    rw [pure_bind]
    exact .pure (by simp [hstatic, hempty, hkilled])
  · have hkilled : killed = false := by simpa [hstatic] using h
    refine ((carriedByCallees_settled hI hr).keeps hw).bind fun b hb => .pure ?_
    simp [hstatic, hempty, hkilled, hb, or_comm]

theorem insertAll_searching (hI : Upkeep e (fun _ => True) R I) {taints : List Fact} :
    Keeps e I (taints.foldlM (fun (set : FactSet) g => do
      let set := set.insert g
      match g.aliasTarget? with
      | none => return set
      | some target =>
        if g.path.isStaticField || s.canCreateAliases target g.path then
          computeAliases d1 s.id target set s.method g
        else return set) set) (· = set.insertAll taints) := by
  induction taints generalizing set with
  | nil => exact .pure rfl
  | cons g rest ih =>
    rw [foldlM_cons]
    refine Keeps.bind (Q := (· = set.insert g)) ?_ ?_
    · dsimp only
      split
      · exact .pure rfl
      · next target htarget =>
        exact .ite (computeAliases_same hI fun _ => Fact.aliasTarget?_ne_field htarget) <|
          .pure rfl
    · rintro _ rfl
      exact ih

theorem addNative_tells
    (hI : Upkeep e (fun _ => True) R I) (hr : ∀ w, I w → w.paths.rules = r) (hw : I w) : Keeps e I
    (addNative d1 s c f set) fun out => out.Says f ↔ set.Says f ∨ CopiedByRuntime e w f s c := by
  refine .read (.dite (fun hno => .pure ?_) fun hyes => ?_)
  · have hnot : ¬ CopiedByRuntime e w f s c := by
      rintro ⟨hunderstood, hnative, hargument, -⟩
      rw [hunderstood, hnative, hargument] at hno
      cases hno
    exact ⟨.inl, fun h => h.resolve_right hnot⟩
  · simp only [Bool.or_eq_true, Bool.not_eq_true', not_or, Bool.not_eq_false] at hyes
    obtain ⟨⟨hunderstood, hnative⟩, hargument⟩ := hyes
    have hiff : CopiedByRuntime e w f s c ↔
        Says ((((nativeTaints s f c.args).run e).run w).1.getD []) f :=
      ⟨CopiedByRuntime.again, fun h =>
        ⟨hunderstood, Bool.or_eq_true_iff.mpr hnative, hargument, h⟩⟩
    rw [hiff]
    refine ((nativeTaints_decided hI.unmoved hr).keeps hw).bind fun o ho => ?_
    rw [← ho]
    cases o with
    | none => exact .pure ⟨.inl, fun h => h.resolve_right not_mem_nil⟩
    | some taints =>
      refine (insertAll_searching hI).mono ?_
      rintro _ rfl
      exact FactSet.says_insertAll set taints

theorem pastCall_modelled {model : Model}
    (hflows : e.config.implicitFlows.tracksControlFlow = false) (hzero : e.isZero f = false)
    (hsource : e.isSource s.id = false) (hactive : f.isActive) (hf : f.MeetsModel e s c model l) :
    w.Ends e (pastCall d1 f s) fun set w' => set.Says f ↔
      ¬ w'.Enough e ∧ (KeptByModel e w f s ∨ GoesAround e w f s c) := by
  have hactivated : Keeps e (· = w) (activateAt f s.id) (· = f) := activateAt_active hactive
  refine .read ((hactivated.ends rfl).bind ?_)
  rintro now w₀ ⟨hnow, hw₀⟩
  subst now w₀
  refine (Rule.applyCallToReturn_modelled hflows hzero hsource hf).bind ?_
  rintro ⟨set, k⟩ w1 hheard
  dsimp only
  by_cases hall : k.all
  · rw [if_pos hall]
    exact ⟨fun h => absurd h not_mem_nil, fun h => absurd (hheard.all.mp hall) h.1⟩
  · have hopen : ¬ w1.Enough e := mt hheard.all.mpr hall
    have hall : k.all = false := by simpa using hall
    have hrules : w1.paths.rules = w.paths.rules := hheard.pathRules
    have hkilled : k.source = false ↔ ¬ Overwritten e w1 f s := by
      rw [← overwritten_congr hrules, ← hheard.source hall, Bool.not_eq_true]
    have hgiven : set.Says f ↔ KeptByModel e w f s ∨ Rule.allInert e s.id :=
      hheard.given hall
    have haround : GoesAround e w f s c ↔ GoesAround e w1 f s c :=
      ⟨.congr hrules, .congr hrules.symm⟩
    refine World.Ends.mono (Keeps.ends (I := w1.Still) (Q := fun out => out.Says f ↔
      KeptByModel e w f s ∨ GoesAround e w f s c) ?_ w1.still_refl) ?_
    · rw [if_neg (by simp [hall]), if_neg (by simp [hzero])]
      refine .dite (fun hlasts => .pure ?_) fun _ =>
        (passesCall_tells w1.still_unmoved (fun _ h => h.pathRules) hf.root w1.still_refl).bind
          fun b hb => ?_
      · -- A conditional that lasts until the method is left lets nothing but the fact pass.
        exact ⟨fun _ => .inr (.conditional (Fact.inConditional_of_lasts hlasts)), fun _ =>
          mem_singleton.mpr rfl⟩
      · rw [hf.call]
        refine (addNative_tells Upkeep.still (fun _ h => h.pathRules) w1.still_refl).bind
          fun more hmore => (stampCall_map Upkeep.still).mono fun out hout => ?_
        have hstamped : out.Says f ↔ more.Says f := by rw [Says, Says, hout]
        have hinsert : Says (if b && !e.isZero f then set.insert f else set) f ↔
            set.Says f ∨ b := by
          cases b with
          | true => simp [hzero, FactSet.says_insert]
          | false => simp
        rw [hstamped, hmore, hinsert, hgiven, hb, hkilled, haround, goesAround_iff]
        simp only [or_assoc]
    · rintro out w2 ⟨hout, hstill⟩
      rw [hout, hstill.enough]
      exact ⟨fun h => ⟨hopen, h⟩, And.right⟩

end Track

theorem Track.limitReached_tells : Keeps e (· = w) limitReached fun b =>
    b ↔ 0 < e.config.stopAfter ∧ e.config.stopAfter ≤ w.results.length := by
  refine .read (.get ?_)
  rintro _ rfl
  exact .pure (by simp)

/-- **A modelled call does not clean what it mentions.** Unless enough results were found by then,
an active taint of the receiver or of an argument goes past the call exactly if its model keeps it
or it goes around the model. A model that cleans never keeps it, so whether the call cleans is up to
the rest: a taint that no callee carries stays where the call does not assign its root. -/
theorem Forward.goes_past_modelled_iff {k : Nat} (hz : e.zero = .zero k)
    (hflows : e.config.implicitFlows.tracksControlFlow = false) {n : StmtId} {model : Model}
    (hc : (e.stmt n).call? = some c) (hmodel : e.modelOf? (e.stmt n) = some model)
    (hsource : e.isSource (e.stmt n).id = false) (hactive : f.isActive = true)
    (hl : f.path.base = some l) (hpassed : c.base = some l ∨ .var l ∈ c.args) (d1 : Fact)
    (w : World) :
    (FactSet.Says (((Forward.callToReturn d1 f n).run e).run w).1.facts f ↔
      ¬ (((Forward.callToReturn d1 f n).run e).run w).2.Enough e ∧
        (Track.KeptByModel e w f (e.stmt n) ∨ Track.GoesAround e w f (e.stmt n) c)) ∧
    (model.kills = true → ¬ Track.KeptByModel e w f (e.stmt n)) := by
  have hzero : e.isZero f = false := Env.isZero_of_path hz (by simp [Path.isEmpty, hl])
  have hf : f.MeetsModel e (e.stmt n) c model l := ⟨hc, hmodel, hl, hpassed⟩
  constructor
  · change w.Ends e (Forward.callToReturn d1 f n) fun o w' => Says o.facts f ↔
      ¬ w'.Enough e ∧ (KeptByModel e w f (e.stmt n) ∨ GoesAround e w f (e.stmt n) c)
    refine .read ((limitReached_tells.ends rfl).bind ?_)
    rintro b w₀ ⟨hb, hw₀⟩
    subst w₀
    cases b with
    | true =>
      have henough : w.Enough e := .inr (hb.mp rfl)
      exact ⟨fun h => absurd h not_mem_nil, fun h => absurd henough h.1⟩
    | false => exact pastCall_modelled hflows hzero hsource hactive hf
  · intro hkills
    have hnone : Keeps e (fun _ => True) (modelTaints (e.stmt n) f) (· = some []) :=
      modelTaints_kills hf hkills
    rw [KeptByModel, (hnone w trivial).1]
    exact not_mem_nil

/-! ## Two calls of a method that cleans -/

def cleanMethod : MethodRef := ⟨"App", "clean", [.cls "java.lang.String"], .cls "java.lang.String"⟩

def cleanModel : Model where
  signature := cleanMethod.signature
  kills := true
  exclusive := true

def dirty : Local := ⟨0, "x", .cls "java.lang.String"⟩

def cleanCall : Call := ⟨.static, cleanMethod, none, [.var dirty]⟩

/-- `main` starts with a call of `clean`, which is known by its model only. -/
def calling (first : Action) : Env where
  graph := .ofProgram (((Program.empty.openBody ⟨"App", "main", [], .void⟩ true
    [("x", .cls "java.lang.String")]).closeBody [first, .retVoid] []).addEntry 0) []
  models := some ⟨[cleanModel]⟩

def cleaning : Env := calling (.call cleanCall)

def recleaning : Env := calling (.assign (.var dirty) cleanCall.toValue)

def dirtyTaint : Fact where
  id := 1
  path := { base := some dirty, ty := some (.cls "java.lang.String") }

/-- The call assigns what it cleans, and only that is why nothing is left of it. -/
theorem recleaning_lets_nothing_past :
    recleaning.isModelled (recleaning.stmt 0) = true ∧ ¬ FactSet.Says
    (((Forward.callToReturn (.zero 0) dirtyTaint 0).run recleaning).run {}).1.facts dirtyTaint := by
  refine ⟨by decide +kernel, fun hpast => ?_⟩
  have hmodel : recleaning.modelOf? (recleaning.stmt 0) = some cleanModel := rfl
  have hcall : (recleaning.stmt 0).call? = some cleanCall := rfl
  have hbase : dirtyTaint.path.base = some dirty := rfl
  obtain ⟨hiff, hkills⟩ := Forward.goes_past_modelled_iff (k := 0) rfl rfl hcall hmodel rfl rfl
    hbase (.inr (mem_singleton.mpr rfl)) (.zero 0) {}
  obtain ⟨-, hkept | haround⟩ := hiff.mp hpast
  · exact hkills rfl hkept
  · cases haround with
    | inert h => exact absurd h (by decide +kernel)
    | conditional h => cases h
    | untouched hroot _ => exact hroot ⟨dirty, dirty, rfl, rfl, rfl⟩
    | copied h => exact absurd h.native (by decide +kernel)

/-- The model cleans the argument and nothing is said to take its place, and yet the taint goes past
the call. -/
theorem cleaning_lets_taint_past :
    cleaning.modelOf? (cleaning.stmt 0) = some cleanModel ∧ cleanModel.kills = true ∧
    cleaning.isSource 0 = false ∧
    (((Track.modelTaints (cleaning.stmt 0) dirtyTaint).run cleaning).run {}).1.map List.length =
      some 0 ∧
    (((Forward.callToReturn (.zero 0) dirtyTaint 0).run cleaning).run {}).1.facts.map (·.toTaint) =
      [dirtyTaint.toTaint] := by
  decide +kernel

end LeakTrace
