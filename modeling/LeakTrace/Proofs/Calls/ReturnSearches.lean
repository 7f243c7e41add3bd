import LeakTrace.Proofs.Assignments.NewTaints
import LeakTrace.Proofs.Calls.Cleaning
import LeakTrace.Proofs.Scope.Programs

/-!
# Where a return looks for aliases

What leaves a callee is new in the caller, so its aliases are looked for there: the search starts
before the call and its facts wait for the call. **One search strays.** Where a constant is returned
inside a conditional, the rule for implicit flows starts the search at the exit of the callee, with
a path that only means something in the caller. The rule next to it, for fields that receive a
result, starts at the call.
-/

namespace LeakTrace
open List Track
open Region (whole whole_closed sends_all)
open FactSet (All AllOpt)

variable {e : Env} {M : Message → Prop} {R : SinkHit → Prop} {I : World → Prop} {w : World}
  {d1 f g : Fact} {contexts : List Fact} {exit call : Stmt} {U : StmtId → Prop} {set : FactSet}
  {u : StmtId}

/-! ## Messages -/

/-- The edge starts a search for aliases from the statement: it goes to what comes before, and a
fact that was active waits for the statement. -/
structure StartsSearch (e : Env) (u n : StmtId) (g : Fact) : Prop where
  before : n ∈ e.graph.forward.preds u
  waits : ∃ h i, g = Fact.deactivate i h u e.config.defersActivation

/-- All searches among the messages start from a statement as `U` says. -/
def SearchesFrom (e : Env) (U : StmtId → Prop) (m : Message) : Prop :=
  ∀ d n g, m = .edge .backward d n g → ∃ u, U u ∧ StartsSearch e u n g

/-- Since the world `w` only such messages were sent, and paths are made as before. -/
def World.Searched (e : Env) (U : StmtId → Prop) (w w' : World) : Prop :=
  (∃ new, w'.outbox = new ++ w.outbox ∧ ∀ m ∈ new, SearchesFrom e U m) ∧
    w'.paths.rules = w.paths.rules

theorem World.searched_self : w.Searched e U w :=
  ⟨⟨[], rfl, forall_mem_nil _⟩, rfl⟩

theorem Upkeep.searched : Upkeep e (SearchesFrom e U) (fun _ => True) (w.Searched e U) := by
  refine .of_outbox (J := fun l rules =>
    (∃ new, l = new ++ w.outbox ∧ ∀ m ∈ new, SearchesFrom e U m) ∧ rules = w.paths.rules) nofun ?_
  rintro m _ rules hm ⟨⟨new, rfl, hnew⟩, hrules⟩
  exact ⟨⟨m :: new, rfl, forall_mem_cons.mpr ⟨hm, hnew⟩⟩, hrules⟩

abbrev Fact.Any : Fact → Prop := Fact.Fits whole.locals fun _ => True

theorem FactSet.all_fit : set.All Fact.Any :=
  fun _ _ => Fact.fits_whole trivial

theorem Fact.heritable_any : Fact.Heritable fun _ => True := fun _ _ _ _ => trivial

theorem Forward.activateAt_samePath {c : StmtId} (hI : World.Unmoved I) :
    Keeps e I (activateAt f c) fun now => now.accessPath = f.accessPath := by
  have hactivate (i : Nat) : (f.activate i).accessPath = f.accessPath := by
    unfold Fact.activate
    split <;> rfl
  have hself : f.Fits whole.locals fun now => now.accessPath = f.accessPath :=
    Fact.fits_whole rfl
  exact (activateAt_fits hI hself fun _ => hactivate).mono fun _ hnow => hnow.kind

section
variable (haliasing : e.config.aliasing = .flowSensitive)
include haliasing

namespace Track
variable {src : StmtId} {lhs : Value} {m : MethodId}

theorem computeAliases_starts (hI : Upkeep e (SearchesFrom e U) R I)
    (hsrc : f.path.canHaveAliases → U src) {target : Value} :
    Keeps e I (computeAliases d1 src target set m f) (All Fact.Any) := by
  refine computeAliases_keeps_of FactSet.all_fit (fun _ _ _ _ => methodSearch_fits hI.unmoved
    Fact.heritable_any whole_closed (fun _ _ => trivial) _ FactSet.all_fit
    (Fact.fits_whole trivial)) (fresh_fits hI.unmoved) (fun hcan _ i n hn => sendEdge_fits hI ?_)
    fun hpts => ?_
  · rintro _ _ _ ⟨⟩
    exact ⟨src, hsrc hcan, hn, f, i, rfl⟩
  · rw [haliasing] at hpts
    cases hpts

theorem moveToResult_starts {n : StmtId} (search : Fact → Bool)
    (hsrc : ∀ a, ((Paths.onto f.accessPath lhs).run w.paths).1 = some a →
      ∀ g : Fact, g.path = a.toPath → search g → a.toPath.canHaveAliases → U src) :
    Keeps e (w.Searched e U) (do
      let path ← paths (Paths.onto f.accessPath lhs)
      match ← derive f path (some n) with
      | none => return none
      | some g =>
        if search g then
          return some (← contexts.foldlM (fun set d1 => computeAliases d1 src lhs set m g) [g])
        return some [g])
      (AllOpt Fact.Any) := by
  have hunmoved : World.Unmoved (w.Searched e U) := Upkeep.searched.unmoved
  have hpath : Keeps e (w.Searched e U) (paths (Paths.onto f.accessPath lhs))
      (· = ((Paths.onto f.accessPath lhs).run w.paths).1) := by
    intro w' hw'
    obtain ⟨a, ha⟩ := Paths.onto_settled (a := f.accessPath) (v := lhs) (r := w.paths.rules)
    exact ⟨(ha w'.paths hw'.2).1.trans (ha w.paths rfl).1.symm,
      hunmoved hw' ((ha w'.paths hw'.2).2.trans hw'.2.symm)⟩
  -- The path does not depend on what was sent since `w`, so it is the one that `hsrc` speaks of.
  refine hpath.bind ?_
  rintro _ rfl
  cases ha : ((Paths.onto f.accessPath lhs).run w.paths).1 with
  | none =>
    have hnone : Keeps e (w.Searched e U) (derive f none (some n)) (· = none) :=
      (fresh_fits hunmoved).bind fun _ _ => .pure rfl
    refine hnone.bind ?_
    rintro _ rfl
    exact .pure .none
  | some a =>
    refine (derive_made hunmoved).bind ?_
    rintro _ ⟨g, rfl, hg⟩
    refine .dite (fun hsearch => ?_) fun _ => .pure (.some FactSet.all_fit)
    refine Keeps.bind (.foldlM (fun set _ d _ => computeAliases_starts haliasing Upkeep.searched
      fun hcan => ?_) FactSet.all_fit) fun _ hset => .pure (.some hset)
    rw [hg] at hcan
    exact hsrc a ha g hg hsearch hcan

end Track

/-! ## The rules -/

namespace Rule
variable {site : Option Stmt}

/-- A constant comes back inside a conditional, to the place `b` of the caller, which can have
aliases. -/
structure Strays (e : Env) (w : World) (contexts : List Fact) (a : AccessPath) (exit call : Stmt)
    (b : AccessPath) : Prop where
  tracks : e.config.implicitFlows.tracksControlFlow = true
  conditional : a.isEmpty = true
  constant : ∃ v, exit.returned? = some v ∧ v.isConst = true
  result : ∃ lhs, call.lhs? = some lhs ∧ ((Paths.onto a lhs).run w.paths).1 = some b ∧
    call.canCreateAliases lhs b.toPath = true
  aliased : b.toPath.canHaveAliases = true
  contexts : contexts.any e.isConditional = false

/-- Where the rules start their searches on a return. -/
def SearchStart (e : Env) (w : World) (contexts : List Fact) (a : AccessPath) (exit call : Stmt)
    (u : StmtId) : Prop :=
  u = call.id ∨ u = exit.id ∧ ∃ b, Strays e w contexts a exit call b

theorem implicit_ret_starts (htracks : e.config.implicitFlows.tracksControlFlow) :
    RuleM.Keeps e (w.Searched e (SearchStart e w contexts f.accessPath exit call))
    (implicit.ret contexts d1 f exit site (some call)) (AllOpt Fact.Any) := by
  unfold implicit
  dsimp only
  refine .dite (fun hempty => ?_) fun _ => ?_
  · split
    · next v c lhs hv hc =>
      obtain ⟨lhs', hlhs, hpair⟩ := Option.map_eq_some_iff.mp hc
      cases hpair
      refine .dite (fun hconst => ?_) fun _ => killAll_none_keeps
      have hresult : Keeps e (w.Searched e (SearchStart e w contexts f.accessPath exit call))
          (returnConstant contexts f exit call lhs)
          (AllOpt Fact.Any) := by
        refine .read (moveToResult_starts haliasing (fun g =>
          call.canCreateAliases lhs g.path && !contexts.any e.isConditional) ?_)
        intro a ha g hg hsearch hcan
        rw [hg, Bool.and_eq_true, Bool.not_eq_true'] at hsearch
        exact .inr ⟨rfl, a, htracks, hempty, ⟨v, hv, hconst⟩, ⟨lhs, hlhs, ha, hsearch.1⟩, hcan,
          hsearch.2⟩
      exact .lift_bind hresult fun _ hset => .pure hset
    · exact killAll_none_keeps
  · split
    · exact .pure .none
    · next lhs _ =>
      refine .guard .none <| .lift ?_
      exact .read (moveToResult_starts haliasing (fun g =>
        g.implicit && !g.path.steps.isEmpty && !contexts.any e.isConditional)
        fun _ _ _ _ _ _ => .inl rfl)

theorem chain_ret_starts {rule : Rule} (hrule : rule ∈ chain e) :
    RuleM.Keeps e (w.Searched e (SearchStart e w contexts f.accessPath exit call))
    (rule.ret contexts d1 f exit site (some call)) (AllOpt Fact.Any) := by
  have hret : RuleM.Keeps e (w.Searched e (SearchStart e w contexts f.accessPath exit call))
      (rule.ret contexts d1 f exit site none)
      (AllOpt Fact.Any) :=
    (exit_fits .searched Fact.heritable_any whole_closed all_none Stmt.welcomes_all
      all_none trivial).chain_ret hrule
  revert hret
  apply chain_cases hrule
  case himplicit => exact fun htracks _ => implicit_ret_starts haliasing htracks
  all_goals exact id

end Rule

/-! ## A return as a whole -/

namespace Forward
variable {c n : StmtId} {callee : MethodId} {site : Option StmtId}

theorem leaveCallee_starts {ret : Option Stmt} :
    Keeps e (w.Searched e (Rule.SearchStart e w contexts f.accessPath exit (e.stmt c)))
      (leaveCallee (some (e.stmt c)) callee exit ret f d1 contexts) := by
  intro w' hw'
  have hrules : RuleM.Keeps e
      (w.Searched e (Rule.SearchStart e w contexts f.accessPath exit (e.stmt c)))
      (Rule.applyReturn (Rule.chain e) contexts d1 f exit ret (some (e.stmt c))) _ :=
    Rule.applyReturn_keeps fun rule hrule => Rule.chain_ret_starts haliasing hrule
  refine ⟨trivial, (leaveCallee_ends (r := whole) (H := fun _ => True)
    Upkeep.searched.unmoved Fact.heritable_any whole_closed (fun _ => hw')
    ((hrules {}).ends hw') ?_ ?_ trivial).2⟩
  · rintro _ ⟨⟩ target set g hset -
    exact .foldlM (fun _ _ _ _ =>
      computeAliases_starts haliasing Upkeep.searched fun _ => .inl rfl) hset
  · rintro _ ⟨⟩
    exact ⟨c, trivial, rfl⟩

theorem ret_starts :
    Keeps e (w.Searched e (Rule.SearchStart e w contexts f.accessPath (e.stmt n) (e.stmt c)))
    (ret (some c) callee n site f d1 contexts) := by
  refine .read (limitReached_keeps.bind fun _ _ => .guard trivial <| .guard trivial ?_)
  have hleave : Keeps e
      (w.Searched e (Rule.SearchStart e w contexts f.accessPath (e.stmt n) (e.stmt c)))
      (outOfCallee (some (e.stmt c)) callee (e.stmt n) (site.map e.stmt) f d1 contexts) := by
    refine (activateAt_samePath Upkeep.searched.unmoved).bind fun now hnow => ?_
    rw [← hnow]
    exact leaveCallee_starts haliasing
  exact hleave.bind fun _ _ => .pure trivial

end Forward
end

/-! ## The search that strays -/

/-- For all contexts the search from the statement was asked for, with facts on the path that wait
for the statement. -/
def World.Asks (e : Env) (u : StmtId) (p : Path) (contexts : List Fact) (w : World) : Prop :=
  ∀ d ∈ contexts, ∀ n ∈ e.graph.forward.preds u, ∃ g, .edge .backward d n g ∈ w.outbox ∧
    g.path = p ∧ (e.config.defersActivation = true → g.waitsFor = some u)

theorem Upkeep.asks {p : Path} :
    Upkeep.Always e (World.Asks e u p contexts) := by
  refine .of_outbox (M := fun _ => True) (J := fun l _ => ∀ d ∈ contexts,
    ∀ n ∈ e.graph.forward.preds u, ∃ g, .edge .backward d n g ∈ l ∧ g.path = p ∧
      (e.config.defersActivation → g.waitsFor = some u)) trivial ?_
  intro m l rules _ hl d hd n hn
  obtain ⟨g, hg, hrest⟩ := hl d hd n hn
  exact ⟨g, mem_cons_of_mem m hg, hrest⟩

theorem Fact.path_deactivate {i : Nat} {deferred : Bool} :
    (f.deactivate i u deferred).path = f.path := by
  unfold deactivate
  split
  · rfl
  · exact path_move

namespace Track
variable {src : StmtId} {target lhs : Value} {m : MethodId}

theorem sendEdges_ends (hback : e.hasBackward) {ns : List StmtId} :
    w.Ends e (forIn ns PUnit.unit fun n _ => do
      sendEdge .backward d1 n g
      pure (.yield PUnit.unit)) fun _ w' =>
        ∀ n, n ∈ ns ∨ .edge .backward d1 n g ∈ w.outbox → .edge .backward d1 n g ∈ w'.outbox := by
  induction ns generalizing w with
  | nil => exact fun n hn => hn.resolve_left not_mem_nil
  | cons n rest ih =>
    have hsend : w.Ends e (sendEdge .backward d1 n g) fun _ w' =>
        w' = { w with outbox := .edge .backward d1 n g :: w.outbox } := by
      refine .read ?_
      dsimp only
      rw [if_pos hback]
      rfl
    rw [forIn_cons]
    simp only [bind_assoc, pure_bind]
    refine hsend.bind ?_
    rintro _ _ rfl
    refine ih.mono fun _ w' hw' t ht => hw' t ?_
    simp only [mem_cons, Message.edge.injEq, true_and, and_true] at ht ⊢
    tauto

variable (haliasing : e.config.aliasing = .flowSensitive) (hback : e.hasBackward)
  (hactive : f.isActive)
include haliasing hback hactive

theorem computeAliases_asks (hcan : f.path.canHaveAliases) (hcond : e.isConditional d1 = false) :
    w.Ends e (computeAliases d1 src target set m f) fun _ w' => w'.Asks e src f.path [d1] := by
  refine .read ?_
  rw [if_neg (by simp [hcan]), if_neg (by simp [hcond]), haliasing]
  dsimp only
  rw [if_pos hback]
  have hfresh : w.Ends e fresh fun _ _ => True := trivial
  refine hfresh.bind fun i w' _ => (sendEdges_ends hback).bind fun _ w'' hsent => ?_
  intro d hd n hn
  obtain rfl := mem_singleton.mp hd
  refine ⟨_, hsent n (.inl hn), Fact.path_deactivate, fun hdefers => ?_⟩
  simp [Fact.deactivate, hactive, hdefers]

theorem computeAliasesIn_asks (hcan : f.path.canHaveAliases)
    (hcond : ∀ d ∈ contexts, e.isConditional d = false) :
    w.Ends e (contexts.foldlM (fun set d => computeAliases d src target set m f) set)
      fun _ w' => w'.Asks e src f.path contexts := by
  induction contexts generalizing w set with
  | nil => exact forall_mem_nil _
  | cons d rest ih =>
    rw [foldlM_cons]
    have hd : e.isConditional d = false := hcond d mem_cons_self
    refine (computeAliases_asks haliasing hback hactive hcan hd).bind fun set' w' hw' => ?_
    have hrest : w'.Ends e (rest.foldlM (fun set d => computeAliases d src target set m f) set')
        fun _ w'' => w''.Asks e src f.path rest :=
      ih fun d' hd' => hcond d' (mem_cons_of_mem d hd')
    -- `ih` says nothing about the context at the head: what was asked for it has to survive the rest.
    have hkeep : Keeps e (World.Asks e src f.path [d])
        (rest.foldlM (fun set d => computeAliases d src target set m f) set')
        (All Fact.Any) :=
      .foldlM (fun _ hset _ _ => computeAliases_fits Upkeep.asks Fact.heritable_any
        whole_closed sends_all (.inl rfl) trivial hset (fun _ _ => trivial)
        (Fact.fits_whole trivial)) FactSet.all_fit
    refine (hrest.and (hkeep.ends hw')).mono ?_
    rintro _ w'' ⟨hasked, -, hfirst⟩ d' hd'
    rcases mem_cons.mp hd' with rfl | hd'
    · exact hfirst d' mem_cons_self
    · exact hasked d' hd'

end Track

namespace Rule
variable {site : Option Stmt} {lhs : Value} {b : AccessPath} {k : Kill}

theorem sink_ret_silent (hbase : f.path.base = none) (hopen : w.rules.sinksClosed = false) :
    RuleM.Silent e (· = w) (sink.ret contexts d1 f exit site (some call)) := by
  have hclose : RuleM.Silent e (· = w) (do closeCalls; return none) :=
    closeCalls_bind_tells (fun _ hw => by rw [hw, hopen]) RuleM.silent_none
  unfold sink
  dsimp only
  refine .read ?_
  split
  · next v _ =>
    have hreads : Keeps e (· = w) (readsTaint f v) (· = false) := by
      unfold readsTaint
      rw [hbase]
      exact .pure rfl
    refine .lift_bind hreads ?_
    rintro _ rfl
    simpa using hclose
  · exact hclose

theorem staticField_ret_silent (hempty : f.path.isEmpty) :
    RuleM.Silent e I (staticField.ret contexts d1 f exit site (some call)) := by
  have hstatic : f.path.isStaticField = false := by
    simp_all [Path.isEmpty, Path.isStaticField]
  refine .read ?_
  rw [if_pos (by simp [hstatic])]
  exact .pure rfl id

theorem exception_ret_silent {v : Value} (hreturns : exit.returned? = some v) :
    RuleM.Silent e I (exception.ret contexts d1 f exit site (some call)) := by
  unfold exception
  dsimp only
  split
  · next hthrow =>
    simp [Stmt.returned?, hthrow] at hreturns
  · exact .pure rfl id

variable (haliasing : e.config.aliasing = .flowSensitive) (hback : e.hasBackward)
  (hactive : f.isActive)
include haliasing hback hactive

theorem returnConstant_asks (hpath : ((Paths.onto f.accessPath lhs).run w.paths).1 = some b)
    (hcreates : call.canCreateAliases lhs b.toPath)
    (hcan : b.toPath.canHaveAliases) (hcond : contexts.any e.isConditional = false) : w.Ends e
    (returnConstant contexts f exit call lhs) fun _ w' => w'.Asks e exit.id b.toPath contexts := by
  have hmade : w.Ends e (paths (Paths.onto f.accessPath lhs)) fun o _ => o = some b := hpath
  refine .read (hmade.bind ?_)
  rintro _ w' rfl
  have hderived : Keeps e (fun _ => True) (derive f (some b) (some exit.id))
      fun o => ∃ g, o = some g ∧ g.path = b.toPath :=
    derive_made fun _ _ => trivial
  have hwaits : Keeps e (fun _ => True) (derive f (some b) (some exit.id))
      (Fact.FitsOpt whole.locals fun g => g.waitsFor = f.waitsFor) :=
    derive_fits (fun _ _ => trivial) (Fact.heritable_waitsFor (· = f.waitsFor)) rfl
      fun _ _ _ _ => .inr trivial
  refine ((hderived.ends trivial).and (hwaits.ends trivial)).bind ?_
  rintro _ w'' ⟨⟨⟨g, rfl, hg⟩, -⟩, hfits, -⟩
  have hgactive : g.isActive :=
    (congrArg Option.isNone (hfits g rfl).kind).trans hactive
  dsimp only
  rw [hg, hcreates, hcond, if_pos (by rfl), ← hg]
  rw [← hg] at hcan
  refine (computeAliasesIn_asks haliasing hback hgactive hcan ?_).bind
    fun _ _ hasked => hasked
  simpa using hcond

theorem implicit_ret_asks (hstrays : Strays e w contexts f.accessPath exit call b) :
    w.Ends e ((implicit.ret contexts d1 f exit site (some call)).run k)
      fun _ w' => w'.Asks e exit.id b.toPath contexts := by
  obtain ⟨v, hreturns, hconst⟩ := hstrays.constant
  obtain ⟨lhs, hlhs, hpath, hcreates⟩ := hstrays.result
  have hcall : ((some call).bind fun c => c.lhs?.map fun lhs => (c, lhs)) = some (call, lhs) := by
    simp [hlhs]
  have hempty : f.path.isEmpty := hstrays.conditional
  unfold implicit
  dsimp only
  rw [if_pos hempty, hreturns, hcall]
  dsimp only
  rw [if_pos hconst]
  have hresult : w.Ends e (returnConstant contexts f exit call lhs)
      fun _ w' => w'.Asks e exit.id b.toPath contexts :=
    returnConstant_asks haliasing hback hactive hpath hcreates hstrays.aliased hstrays.contexts
  exact hresult

/-- No rule before the one for implicit flows has something to say about a conditional that a
method returns from, and none after it takes the search back. -/
theorem applyReturn_asks (hopen : w.rules.sinksClosed = false)
    (hstrays : Strays e w contexts f.accessPath exit call b) (hcall : whole.HasStmt e call) :
    w.Ends e ((applyReturn (chain e) contexts d1 f exit site (some call)).run {})
      fun _ w' => w'.Asks e exit.id b.toPath contexts := by
  have hempty : f.path.isEmpty := hstrays.conditional
  have hbase : f.path.base = none := by
    simp_all [Path.isEmpty]
  obtain ⟨v, hreturns, -⟩ := hstrays.constant
  have hrest {rule : Rule} (hrule : rule ∈ chain e) : RuleM.Keeps e
      (World.Asks e exit.id b.toPath contexts) (rule.ret contexts d1 f exit site (some call))
      (AllOpt Fact.Any) := by
    refine (exit_fits Upkeep.asks Fact.heritable_any whole_closed
      (fun _ _ => sends_all) Stmt.welcomes_all ?_ trivial).chain_ret hrule
    rintro _ ⟨⟩
    exact hcall
  -- The chain is walked rule by rule, and `hrest` has to see the same list to cover its tail.
  unfold chain at hrest
  unfold applyReturn chain
  simp only [append_assoc, cons_append, nil_append] at hrest ⊢
  refine ask_silent RuleM.silent_none rfl (ask_silent (sink_ret_silent hbase hopen) rfl
    (ask_silent (staticField_ret_silent hempty) rfl
      (ask_silentOptional (fun _ => RuleM.silent_none) rfl
      (ask_silentOptional (fun _ => exception_ret_silent hreturns) rfl
        (ask_silentOptional (fun _ => RuleM.silent_none) rfl ?_)))))
  rw [if_pos hstrays.tracks, singleton_append] at hrest ⊢
  refine ask_ends (implicit_ret_asks haliasing hback hactive hstrays)
    (fun _ _ hasked _ => hasked) ?_
  intro p w' hasked _
  have hsome : AllOpt Fact.Any (gather none p.1) :=
    fun _ _ => FactSet.all_fit
  refine World.Ends.mono (Keeps.ends (ask_keeps (fun rule hrule => hrest ?_) hsome p.2)
    hasked) fun _ _ hlater => hlater.2
  simp only [mem_cons, mem_append] at hrule ⊢
  tauto

end Rule

/-! ## Where searches start -/

namespace Forward
variable {c n : StmtId} {callee : MethodId} {site : Option StmtId} {b : AccessPath}

section
variable (haliasing : e.config.aliasing = .flowSensitive) (hback : e.hasBackward)
include haliasing hback

theorem leaveCallee_asks (hactive : f.isActive) (hopen : w.rules.sinksClosed = false)
    (hstrays : Rule.Strays e w contexts f.accessPath exit (e.stmt c) b) {ret : Option Stmt} :
    w.Ends e (leaveCallee (some (e.stmt c)) callee exit ret f d1 contexts)
      fun _ w' => w'.Asks e exit.id b.toPath contexts := by
  have hcall : whole.HasStmt e (e.stmt c) := ⟨c, trivial, rfl⟩
  have hupkeep : Upkeep.Always e
      (World.Asks e exit.id b.toPath contexts) := .asks
  have hrules : w.Ends e ((Rule.applyReturn (Rule.chain e) contexts d1 f exit ret
      (some (e.stmt c))).run {}) fun _ w' => w'.Asks e exit.id b.toPath contexts :=
    Rule.applyReturn_asks haliasing hback hactive hopen hstrays hcall
  refine World.Ends.mono (leaveCallee_ends (r := whole) (H := fun _ => True)
    hupkeep.unmoved Fact.heritable_any whole_closed ?_
    (hrules.mono fun _ _ hasked => ⟨fun _ _ => FactSet.all_fit, hasked⟩) ?_ ?_ trivial)
    fun _ _ hasked => hasked.2
  · -- An active fact waits for nothing in the callee.
    intro hwaits
    rw [Option.isNone_iff_eq_none.mp hactive] at hwaits
    cases hwaits
  · rintro _ ⟨⟩ target set g hset hg
    exact searchIn_fits hupkeep Fact.heritable_any whole_closed sends_all
      hcall hset hg
  · rintro _ ⟨⟩
    exact hcall

theorem ret_asks (hzero : e.isZero f = false) (hactive : f.isActive) (hroom : ¬ w.Enough e)
    (hstrays : Rule.Strays e w contexts f.accessPath (e.stmt n) (e.stmt c) b) :
    w.Ends e (ret (some c) callee n site f d1 contexts)
      fun _ w' => w'.Asks e (e.stmt n).id b.toPath contexts := by
  obtain ⟨hopen, hlimit⟩ := not_or.mp hroom
  have hbelow : (decide (e.config.stopAfter > 0) &&
      decide (w.results.length ≥ e.config.stopAfter)) = false := by simpa using hlimit
  have hgoes : w.Ends e limitReached fun reached w' => reached = false ∧ w = w' :=
    .read (.get ⟨hbelow, rfl⟩)
  have hnow : w.Ends e (activateAt f (e.stmt c).id) fun now w' => f = now ∧ w = w' :=
    ((activateAt_active hactive).ends (I := (w = ·)) rfl).mono fun _ _ h => ⟨h.1.symm, h.2⟩
  have hleave : w.Ends e (outOfCallee (some (e.stmt c)) callee (e.stmt n) (site.map e.stmt) f
      d1 contexts) fun _ w' => w'.Asks e (e.stmt n).id b.toPath contexts := by
    refine hnow.bind ?_
    rintro _ _ ⟨rfl, rfl⟩
    exact leaveCallee_asks haliasing hback hactive (by simpa using hopen) hstrays
  refine .read (hgoes.bind ?_)
  rintro _ _ ⟨rfl, rfl⟩
  rw [if_neg Bool.false_ne_true, if_neg (by simp [hzero])]
  exact hleave.bind fun _ _ hasked => hasked

end

/-- **Searches on a return** start at the call, in its method, and their facts wait for the call;
or a constant came back inside a conditional, and the search starts at the exit of the callee. It
does so in every such case: for the place of the caller that the constant goes to, it is asked
before the exit, and its facts wait for the exit. -/
theorem return_searches_from_call_or_exit {p : Program} {extra : List (StmtId × MethodId)}
    (hp : p.Assembled) (hgraph : e.graph = .ofProgram p extra)
    (haliasing : e.config.aliasing = .flowSensitive) (c n : StmtId) (callee : MethodId)
    (site : Option StmtId) (f d1 : Fact) (contexts : List Fact) (w : World) :
    let w' := (((ret (some c) callee n site f d1 contexts).run e).run w).2
    (∃ new, w'.outbox = new ++ w.outbox ∧ ∀ d m g, .edge .backward d m g ∈ new →
      ∃ u, (u = c ∨ u = n ∧ ∃ b, Rule.Strays e w contexts f.accessPath (e.stmt n) (e.stmt c) b) ∧
        e.graph.methodOf m = e.graph.methodOf u ∧
        ∃ h i, g = Fact.deactivate i h u e.config.defersActivation) ∧
    (e.hasBackward = true → e.isZero f = false → f.isActive = true → ¬ w.Enough e →
      ∀ b, Rule.Strays e w contexts f.accessPath (e.stmt n) (e.stmt c) b →
        ∀ d ∈ contexts, ∀ m ∈ e.graph.forward.preds n,
          e.graph.methodOf m = e.graph.methodOf n ∧
          ∃ g, .edge .backward d m g ∈ w'.outbox ∧ g.path = b.toPath ∧
            (e.config.defersActivation = true → g.waitsFor = some n)) := by
  intro w'
  have hids : ∀ k, (e.stmt k).id = k := hp.stmt_ids hgraph
  have hmethod {u m : StmtId} (hm : m ∈ e.graph.forward.preds u) :
      e.graph.methodOf m = e.graph.methodOf u := by
    rw [hgraph] at hm ⊢
    exact hp.laidOut.method_preds hm
  constructor
  · obtain ⟨⟨new, hnew, hsearches⟩, -⟩ := (ret_starts haliasing w World.searched_self).2
    refine ⟨new, hnew, fun d m g hmem => ?_⟩
    obtain ⟨u, hu, hstarts⟩ := hsearches _ hmem d m g rfl
    rw [Rule.SearchStart, hids, hids] at hu
    exact ⟨u, hu, hmethod hstarts.before, hstarts.waits⟩
  · intro hback hzero hactive hroom b hstrays d hd m hm
    have hasked : w'.Asks e (e.stmt n).id b.toPath contexts :=
      ret_asks haliasing hback hzero hactive hroom hstrays
    rw [hids] at hasked
    exact ⟨hmethod hm, hasked d hd m hm⟩

/-! ## A constant answer -/

def shelfLocal : Local := ⟨1, "shelf", .cls "Shelf"⟩

def shelfItem : Field := ⟨"Shelf", "item", .cls "java.lang.Object", false⟩

/-- `main` branches on a flag and writes what `answer` returns, a constant, to `shelf.item`. -/
def answering : Program :=
  let answer : MethodRef := ⟨"App", "answer", [], .cls "java.lang.Object"⟩
  let main : MethodRef := ⟨"App", "main", [], .void⟩
  let p := (Program.empty.openBody answer true []).closeBody [.skip, .ret .null] []
  let p := (p.openBody main true [("flag", .int), ("shelf", .cls "Shelf")]).closeBody
    [.branch (.var ⟨0, "flag", .int⟩) 2,
      .assign (.field shelfLocal shelfItem) (.call .static answer none []), .retVoid] []
  p.addEntry 1

theorem assembled_answering : answering.Assembled := by
  refine .addEntry 1 (.addBody _ true _ ?_ nofun (.addBody _ true _ ?_ nofun .empty))
  · decide
  · decide

def answeringEnv : Env where
  graph := .ofProgram answering []
  config := { implicitFlows := .all }

def inBranch : Fact := { id := 1, path := .empty, implicit := true }

def shelfPath : AccessPath where
  base := some shelfLocal
  ty := some (.cls "Shelf")
  steps := [⟨shelfItem, .cls "java.lang.Object"⟩]
  deep := true

/-- The search for `shelf.item` starts in `answer`, which has no such local. -/
theorem answer_asks_at_exit : ∃ g, .edge .backward (.zero 0) 0 g ∈
    (((ret (some 3) 0 1 (some 4) inBranch inBranch [.zero 0]).run answeringEnv).run {}).2.outbox ∧
    g.path = shelfPath.toPath ∧ g.waitsFor = some 1 := by
  have hmade : ((Paths.onto inBranch.accessPath (.field shelfLocal shelfItem)).run {}).1 =
      some shelfPath := by
    have hparts : (((Paths.onto inBranch.accessPath (.field shelfLocal shelfItem)).run {}).1.map
        fun b => (b.toPath, b.cut)) = some (shelfPath.toPath, false) := by decide +kernel
    obtain ⟨⟨_, _⟩, hb, ⟨⟩⟩ := Option.map_eq_some_iff.mp hparts
    exact hb
  have hstrays : Rule.Strays answeringEnv {} [.zero 0] inBranch.accessPath (answeringEnv.stmt 1)
      (answeringEnv.stmt 3) shelfPath :=
    ⟨rfl, rfl, ⟨.null, rfl, rfl⟩, ⟨.field shelfLocal shelfItem, rfl, hmade, by decide⟩,
      by decide, by decide⟩
  have hroom : ¬ World.Enough {} answeringEnv := by
    simp [World.Enough, answeringEnv]
  obtain ⟨-, g, hmem, hpath, hwaits⟩ := (return_searches_from_call_or_exit assembled_answering
    (e := answeringEnv) rfl rfl 3 1 0 (some 4) inBranch inBranch [.zero 0] {}).2 rfl (by decide) rfl
    hroom shelfPath hstrays (.zero 0) mem_cons_self 0 (by decide +kernel)
  exact ⟨g, hmem, hpath, hwaits rfl⟩

/-- The statement where a message starts a search, and what its fact waits for. -/
def searchStart? : Message → Option (StmtId × Option StmtId)
  | .edge .backward _ n g => some (n, g.waitsFor)
  | _ => none

/-- Of the two searches that the return starts, one is in the method of the call and waits for the
call. The other is in the callee and waits for its exit. -/
theorem answer_searches_in_callee :
    (((ret (some 3) 0 1 (some 4) inBranch inBranch [.zero 0]).run answeringEnv).run
      {}).2.outbox.filterMap searchStart? = [(2, some 3), (0, some 1)] ∧
    answeringEnv.graph.methodOf 2 = answeringEnv.graph.methodOf 3 ∧
    answeringEnv.graph.methodOf 0 ≠ answeringEnv.graph.methodOf 3 ∧
    answeringEnv.graph.methodOf 1 ≠ answeringEnv.graph.methodOf 3 := by
  decide +kernel

end Forward
end LeakTrace
