import LeakTrace.Proofs.Scope.Flows

/-!
# What the rules say about a fact at a call

A rule that is asked about a taint at a call says one of three things: nothing, that nothing comes
out, or which facts to add. `RuleM.Tells` states which, and `Rule.Told` what becomes of it when the
rest of the chain is asked. **Into a callee** a chain without models objects at sources that are not
looked into, at static fields that are ignored, at calls that a conditional fact covers, and at
methods of the runtime that never move taints; **past the call** it never objects.
-/

namespace LeakTrace
open Track

variable {e : Env} {I : World → Prop} {M : Message → Prop} {d1 f : Fact} {s : Stmt}
  {x : RuleM (Option FactSet)}

/-! ## Aliases -/

theorem Value.var_beq (l b : Local) : (Value.var l == .var b) = (l == b) := rfl

theorem Track.mayAliasValues_plain (hlazy : e.config.aliasing.isLazy = false) {v u : Value} :
    Keeps e I (mayAliasValues v u) (· = (v.holds && u.holds && v == u)) := by
  refine .read (.dite (fun h => .pure ?_) fun h => .dite (fun heq => .pure ?_) fun heq =>
    .dite (fun _ => .pure ?_) fun hno => ?_)
  · cases hv : v.holds <;> simp_all
  · simp_all
  · simp_all
  · have hlazy : e.config.aliasing.isInteractive = false := hlazy
    exact absurd hlazy (by simpa using hno)

/-! ## One rule -/

namespace RuleM

/-- Whatever was asked to be dropped before, the rule asks that nothing comes out exactly if
`kills`, has no objection against the incoming fact otherwise, and answers with `Q`. -/
def Tells (e : Env) (I : World → Prop) (x : RuleM (Option FactSet)) (kills : Prop)
    (Q : Option FactSet → Prop) : Prop :=
  ∀ k : Kill, Track.Keeps e I (x.run k) fun p =>
    (p.2.all = true ↔ k.all = true ∨ kills) ∧ p.2.source = k.source ∧ Q p.1

namespace Tells
variable {α : Type} {y : RuleM (Option FactSet)} {kills c : Prop} {Q R : Option FactSet → Prop}

theorem pure {out : Option FactSet} (hq : Q out) (hno : ¬ kills) : Tells e I (pure out) kills Q :=
  fun _ => .pure ⟨by simp [hno], rfl, hq⟩

theorem mono (h : Tells e I x kills Q) (hqr : ∀ out, Q out → R out) : Tells e I x kills R :=
  fun k => (h k).mono fun _ hp => ⟨hp.1, hp.2.1, hqr _ hp.2.2⟩

protected theorem read {g : Env → RuleM (Option FactSet)} (h : Tells e I (g e) kills Q) :
    Tells e I (read >>= g) kills Q :=
  fun k => h k

theorem getWorld_bind {g : World → RuleM (Option FactSet)}
    (h : ∀ w, I w → Tells e I (g w) kills Q) : Tells e I (getThe World >>= g) kills Q :=
  fun k w hw => h w hw k w hw

theorem dite [Decidable c] (ht : c → Tells e I x kills Q) (he : ¬ c → Tells e I y kills Q) :
    Tells e I (if c then x else y) kills Q := by
  split
  · exact ht ‹c›
  · exact he ‹¬ c›

theorem ite [Decidable c] (ht : Tells e I x kills Q) (he : Tells e I y kills Q) :
    Tells e I (if c then x else y) kills Q :=
  .dite (fun _ => ht) fun _ => he

theorem lift_bind {x : Track α} {A : α → Prop} {g : α → RuleM (Option FactSet)}
    (hx : Track.Keeps e I x A) (hg : ∀ a, A a → Tells e I (g a) kills Q) :
    Tells e I (liftM x >>= g) kills Q := by
  intro k
  change Track.Keeps e I (x >>= fun a => (g a).run k) _
  exact hx.bind fun a ha => hg a ha k

theorem lift {x : Track (Option FactSet)} (hx : Track.Keeps e I x Q) :
    Tells e I (liftM x) False Q :=
  lift_bind (g := Pure.pure) hx fun _ ha => pure ha id

theorem killAll_bind {later : Prop} (h : Tells e I x later Q) (hk : kills) :
    Tells e I (killAll >>= fun _ => x) kills Q := by
  intro k
  refine (h { k with all := true }).mono fun p hp => ⟨?_, hp.2.1, hp.2.2⟩
  rw [hp.1]
  simp [hk]

theorem of_iff {kills' : Prop} (h : Tells e I x kills Q) (hk : kills ↔ kills') :
    Tells e I x kills' Q := by
  rwa [← hk]

theorem killIf_bind [Decidable c] (h : Tells e I x kills Q) :
    Tells e I (if c then killAll >>= fun _ => x else x) (c ∨ kills) Q :=
  .dite (fun hc => h.killAll_bind (.inl hc)) fun hc => h.of_iff (by simp [hc])

end Tells

abbrev Silent (e : Env) (I : World → Prop) (x : RuleM (Option FactSet)) : Prop :=
  Tells e I x False (· = none)

theorem silent_none : Silent e I (pure none) := .pure rfl id

theorem Silent.keeps {P : Fact → Prop} (h : Silent e I x) : Keeps e I x (FactSet.AllOpt P) := by
  refine fun k => (h k).mono ?_
  rintro ⟨_, _⟩ ⟨-, -, rfl⟩
  exact .none

end RuleM
open RuleM (Tells Silent silent_none)

/-! ## A chain of rules -/

namespace Rule
variable {covered : Prop}

/-- The facts so far with those that a rule adds. -/
def gather (acc out : Option FactSet) : Option FactSet :=
  match acc, out with
  | acc, none => acc
  | none, some out => some (FactSet.insertAll [] out)
  | some set, some out => some (set.insertAll out)

@[simp]
theorem gather_none (acc : Option FactSet) : gather acc none = acc := by
  cases acc <;> rfl

theorem ask_cons (hook : Rule → RuleM (Option FactSet)) (r : Rule) (rest : List Rule)
    (acc : Option FactSet) :
    ask hook (r :: rest) acc = (do
      let out ← hook r
      if (← getThe Kill).all then return none
      ask hook rest (gather acc out)) := rfl

/-- Asked after rules that did not object and found `acc`, the rules object exactly if `kills`, and
otherwise the result is as `J` says. -/
def Told (e : Env) (I : World → Prop) (hook : Rule → RuleM (Option FactSet)) (rules : List Rule)
    (acc : Option FactSet) (kills : Prop) (J : Option FactSet → Prop) : Prop :=
  ∀ k : Kill, k.all = false → Track.Keeps e I ((ask hook rules acc).run k) fun p =>
    (p.2.all = true ↔ kills) ∧ p.2.source = k.source ∧ (p.2.all = false → J p.1)

namespace Told
variable {hook : Rule → RuleM (Option FactSet)} {r : Rule} {rest : List Rule} {acc : Option FactSet}
  {now later c : Prop} {Q J : Option FactSet → Prop}

theorem nil (h : J acc) (hno : ¬ now) : Told e I hook [] acc now J :=
  fun k hk => .pure ⟨by simp [hk, hno], rfl, fun _ => h⟩

theorem cons (hr : Tells e I (hook r) now Q)
    (hrest : ∀ out, Q out → Told e I hook rest (gather acc out) later J) :
    Told e I hook (r :: rest) acc (now ∨ later) J := by
  intro k hk
  rw [ask_cons, StateT.run_bind]
  refine (hr k).bind fun p hp => ?_
  change Keeps e I (StateT.run (if p.2.all then pure none else _) p.2) _
  -- `now` is decided by what the rule asked for: the chain stops there, or goes on with the rest.
  by_cases hall : p.2.all
  · have hnow : now := (hp.1.mp hall).resolve_left (by simp [hk])
    rw [if_pos hall]
    exact .pure ⟨by simp [hall, hnow], hp.2.1, fun hno => nomatch hall.symm.trans hno⟩
  · have hnow : ¬ now := fun hnow => hall (hp.1.mpr (.inr hnow))
    rw [if_neg hall]
    refine (hrest p.1 hp.2.2 p.2 (by simpa using hall)).mono fun q hq => ?_
    exact ⟨by rw [hq.1]; simp [hnow], hq.2.1.trans hp.2.1, hq.2.2⟩

theorem of_iff {rules : List Rule} (h : Told e I hook rules acc now J) (hk : now ↔ later) :
    Told e I hook rules acc later J := by
  rwa [← hk]

theorem last (hr : Tells e I (hook r) now Q) (hrest : ∀ out, Q out → J (gather acc out)) :
    Told e I hook [r] acc now J := by
  have h : Told e I hook [r] acc (now ∨ False) J :=
    cons hr fun out hout => nil (hrest out hout) id
  rwa [or_false] at h

theorem silent (hr : Silent e I (hook r)) (hrest : Told e I hook rest acc later J) :
    Told e I hook (r :: rest) acc later J := by
  have h : Told e I hook (r :: rest) acc (False ∨ later) J := by
    refine cons hr ?_
    rintro _ rfl
    rwa [gather_none]
  rwa [false_or] at h

theorem optional [Decidable c] (hr : c → Tells e I (hook r) now Q) (hnone : Q none)
    (hrest : ∀ out, Q out → Told e I hook rest (gather acc out) later J) :
    Told e I hook ((if c then [r] else []) ++ rest) acc ((c ∧ now) ∨ later) J := by
  by_cases hc : c
  · rw [if_pos hc]
    simpa [hc] using cons (hr hc) hrest
  · rw [if_neg hc]
    simpa [hc] using hrest none hnone

theorem silentOptional [Decidable c] (hr : c → Silent e I (hook r))
    (hrest : Told e I hook rest acc later J) :
    Told e I hook ((if c then [r] else []) ++ rest) acc later J := by
  by_cases hc : c
  · rw [if_pos hc]
    exact silent (hr hc) hrest
  · rw [if_neg hc]
    exact hrest

end Told

/-- Without models of the library, and where no number of results is enough. -/
theorem chain_plain (hmodels : e.models = none) (hstop : e.config.stopAfter = 0) :
    chain e = source :: sink :: staticField :: ((if e.config.arrays then [array] else []) ++
      ((if e.config.exceptions then [exception] else []) ++
      ((if e.config.implicitFlows.tracksControlFlow then [implicit] else []) ++
      strongUpdate :: ((if e.config.typeChecking then [typing] else []) ++ [skipSystemClass])))) := by
  simp [chain, hmodels, hstop]

/-! ## Into a callee -/

variable {dest : MethodId}

/-- Sources, and sinks of the fact, that the configuration does not want to be entered. -/
def bars (e : Env) (f : Fact) (s : Stmt) : Prop :=
  (e.config.inspectSources = false ∧ e.isSource s.id = true) ∨
    (e.config.inspectSinks = false ∧ e.isSink s.id = true) ∧
      (e.oracle.sink? e.program s (some f.path)).isSome = true

theorem source_call_tells : Tells e I (source.call d1 f s dest) (bars e f s) (· = none) := by
  refine .read ?_
  have hsink : Tells e I (do
      if !e.config.inspectSinks && e.isSink s.id then
        if (← sinkInfo s (some f.path)).isSome then RuleM.killAll
      return none)
      ((e.config.inspectSinks = false ∧ e.isSink s.id) ∧
        (e.oracle.sink? e.program s (some f.path)).isSome) (· = none) := by
    refine .dite (fun hc => ?_) fun hc => .pure rfl fun h => hc (by simpa using h.1)
    have hinfo : Keeps e I (sinkInfo s (some f.path))
        (· = e.oracle.sink? e.program s (some f.path)) := .read (.pure rfl)
    refine .lift_bind hinfo ?_
    rintro _ rfl
    have hsinks : e.config.inspectSinks = false ∧ e.isSink s.id := by simpa using hc
    exact silent_none.killIf_bind.of_iff (by simp [hsinks])
  exact hsink.killIf_bind.of_iff (by simp [bars])

theorem closeCalls_bind_tells {kills : Prop} {Q : Option FactSet → Prop}
    (hopen : ∀ w, I w → w.rules.sinksClosed = false) (h : Tells e I x kills Q) :
    Tells e I (closeCalls >>= fun _ => x) kills Q := by
  unfold closeCalls
  rw [bind_assoc]
  refine .getWorld_bind fun w hw => ?_
  rw [if_neg (by simp [hopen w hw]), pure_bind]
  exact h

theorem sink_call_tells (hopen : ∀ w, I w → w.rules.sinksClosed = false) :
    Silent e I (sink.call d1 f s dest) :=
  closeCalls_bind_tells hopen silent_none

/-- The fact is about a static field that the method reads, directly or through what it calls. -/
def readsStaticPath (e : Env) (f : Fact) (m : MethodId) : Prop :=
  f.path.isStaticField = true ∧ ∃ field ∈ f.path.firstField?,
    e.config.aliasing.isLazy = true ∨ e.graph.readsStatic m field = true

/-- The fact as it is, at another statement. -/
def Restates (f : Fact) (out : Option FactSet) : Prop := ∃ g, out = some [g] ∧ g.path = f.path

theorem carry_tells (hfresh : ∀ w n, I w → I { w with nextId := n }) {n : StmtId} :
    Tells e I (carry f n) False (Restates f) := by
  have hderive : Keeps e I (deriveAt f n) fun g =>
      ∃ h, g = some h ∧ h.path = f.path := by
    intro w hw
    refine ⟨?_, hfresh w _ hw⟩
    change ∃ h, f.deriveAs? w.nextId (some f.accessPath) (some n) f.implicit = some h ∧ _
    simp only [Fact.deriveAs?]
    split
    · exact ⟨f, rfl, rfl⟩
    · refine ⟨_, rfl, ?_⟩
      simp only [Fact.move]
      split <;> rfl
  refine .lift_bind hderive ?_
  rintro _ ⟨h, rfl, hpath⟩
  exact .pure ⟨h, rfl, hpath⟩ id

/-- Static fields are not tracked, and the call is about one. -/
abbrev losesStatic (e : Env) (f : Fact) (m : MethodId) : Prop :=
  e.config.staticFields = .ignored ∧ ((e.method m).isStaticInitializer ∨ f.path.isStaticField)

/-- The fact is handed to a method that reads its static field, and only there. -/
abbrev HandsStatic (e : Env) (f : Fact) (m : MethodId) (out : Option FactSet) : Prop :=
  (e.config.staticFields ≠ .ignored → readsStaticPath e f m → Restates f out) ∧
    (¬ readsStaticPath e f m → out = none)

theorem staticField_call_tells (hfresh : ∀ w n, I w → I { w with nextId := n }) :
    Tells e I (staticField.call d1 f s dest) (losesStatic e f dest) (HandsStatic e f dest) := by
  refine .read (.dite (fun hkill => ?_) fun hkill => ?_)
  · have hkill : losesStatic e f dest := by simpa using hkill
    have hnone : Tells e I (pure none) False (HandsStatic e f dest) :=
      .pure ⟨fun hno => absurd hkill.1 hno, fun _ => rfl⟩ id
    exact hnone.killAll_bind hkill
  · have hkill : ¬ losesStatic e f dest := by simpa using hkill
    refine .dite (fun hpath => ?_) fun hpath => ?_
    · refine .pure ⟨fun _ hreads => ?_, fun _ => rfl⟩ hkill
      rw [hreads.1] at hpath
      cases hpath
    · split
      · next hfirst =>
        refine .pure ⟨fun _ hreads => ?_, fun _ => rfl⟩ hkill
        obtain ⟨-, field, hfield, -⟩ := hreads
        rw [hfirst] at hfield
        cases hfield
      · next field hfirst =>
        have hiff : readsStaticPath e f dest ↔
            (e.config.aliasing.isLazy || e.graph.readsStatic dest field) := by
          have hstatic : f.path.isStaticField := by simpa using hpath
          simp [readsStaticPath, hstatic, hfirst]
        refine .dite (fun hreads => ?_) fun hreads =>
          .pure ⟨fun _ h => absurd (hiff.mp h) hreads, fun _ => rfl⟩ hkill
        exact ((carry_tells hfresh).mono fun out hout =>
          ⟨fun _ _ => hout, fun hno => absurd (hiff.mpr hreads) hno⟩).of_iff (by simp only [hkill])

theorem leavesBranch_of_path (hpath : f.path.isEmpty = false) : leavesBranch f s = pure false :=
  if_neg (by simp [hpath])

/-- A conditional fact entered the call in this context, or the fact depends on one. -/
theorem implicit_call_tells (hzero : e.isZero f = false) (hpath : f.path.isEmpty = false)
    (hcovered : ∀ w, I w → (w.rules.conditionalCalls.contains (s.id, d1.toTaint) ↔ covered)) :
    Tells e I (implicit.call d1 f s dest) (covered ∨ f.inConditional) (· = none) := by
  refine .read ?_
  rw [if_neg (by simp [hzero]), leavesBranch_of_path hpath, pure_bind]
  refine .getWorld_bind fun w hw => .dite (fun hcall => ?_) fun hcall => ?_
  · exact silent_none.killAll_bind (.inl ((hcovered w hw).mp hcall))
  · have hno : ¬ covered := fun h => hcall ((hcovered w hw).mpr h)
    rw [if_neg (by simp [hpath])]
    exact silent_none.killIf_bind.of_iff (by simp [hno])

theorem skipSystemClass_call_tells :
    Tells e I (skipSystemClass.call d1 f s dest) (isInert (e.method dest)) (· = none) :=
  .read (silent_none.killIf_bind.of_iff (by simp))

/-- **Into a callee.** The chain objects for four reasons, and adds the fact only where it is about
a static field that the callee reads. -/
theorem applyCall_told (hmodels : e.models = none) (hstop : e.config.stopAfter = 0)
    (hzero : e.isZero f = false) (hpath : f.path.isEmpty = false)
    (hopen : ∀ w, I w → w.rules.sinksClosed = false)
    (hfresh : ∀ w n, I w → I { w with nextId := n }) {covered : Prop}
    (hcovered : e.config.implicitFlows.tracksControlFlow → ∀ w, I w →
      (w.rules.conditionalCalls.contains (s.id, d1.toTaint) ↔ covered)) :
    Told e I (fun r => r.call d1 f s dest) (chain e) none
      (bars e f s ∨ losesStatic e f dest ∨
        (e.config.implicitFlows.tracksControlFlow ∧ (covered ∨ f.inConditional)) ∨
        isInert (e.method dest)) (HandsStatic e f dest) := by
  rw [chain_plain hmodels hstop]
  refine .cons source_call_tells ?_
  rintro _ rfl
  refine .silent (sink_call_tells hopen) (.cons (staticField_call_tells hfresh) fun out hout => ?_)
  refine .silentOptional (fun _ => silent_none) (.silentOptional (fun _ => silent_none) ?_)
  refine .optional (fun htracks => implicit_call_tells hzero hpath (hcovered htracks)) rfl ?_
  rintro _ rfl
  refine .silent (silent_none) (.silentOptional (fun _ => silent_none) ?_)
  refine .last skipSystemClass_call_tells fun _ hskip => ?_
  subst hskip
  refine ⟨fun htracked hreads => ?_, fun hno => ?_⟩
  · obtain ⟨g, rfl, hg⟩ := hout.1 htracked hreads
    exact ⟨g, rfl, hg⟩
  · rw [hout.2 hno]
    rfl

/-! ## Past the call -/

theorem source_callToReturn_tells (hzero : e.isZero f = false) :
    Silent e I (source.callToReturn d1 f s) :=
  .read (.dite (fun _ => .pure rfl id) fun hno => absurd hzero (by simpa using hno))

theorem sink_callToReturn_tells (hI : Upkeep e M (fun _ => True) I)
    (hopen : ∀ w, I w → w.rules.sinksClosed = false) :
    Silent e I (sink.callToReturn d1 f s) := by
  have hclose : Silent e I (do closeCalls; return none) :=
    closeCalls_bind_tells hopen silent_none
  have hrecord : ∀ visible : Bool, Silent e I (do
      if visible then record f s
      closeCalls
      return none) := fun _ =>
    .ite (.lift_bind (record_fits hI fun _ _ _ _ _ _ => trivial) fun _ _ => hclose) <|
      hclose
  refine .read (.ite (.ite ?_ ?_) hclose)
  · exact .lift_bind (isVisibleInCallee_keeps fun _ _ _ _ => anyMayAlias_fits hI.unmoved)
      fun visible _ => hrecord visible
  · rw [pure_bind]
    exact hrecord true

theorem staticField_callToReturn_tells
    (htracked : e.config.staticFields ≠ .ignored ∨ f.path.isStaticField = false) :
    Silent e I (staticField.callToReturn d1 f s) := by
  refine .read (.dite (fun hkill => ?_) fun _ => .pure rfl id)
  have hkill : e.config.staticFields = .ignored ∧ f.path.isStaticField := by
    simpa using hkill
  rcases htracked with h | h
  · exact absurd hkill.1 h
  · exact absurd hkill.2 (by simp [h])

theorem strongUpdate_callToReturn_tells (hlazy : e.config.aliasing.isLazy = false)
    (hlhs : ∀ l, s.lhs? = some (.var l) → f.path.base ≠ some l) :
    Silent e I (strongUpdate.callToReturn d1 f s) := by
  unfold strongUpdate
  dsimp only
  split
  · next l rhs hact =>
    split
    · next b hb =>
      have hne : l ≠ b := by
        rintro rfl
        exact hlhs l (by simp [Stmt.lhs?, hact]) hb
      refine .lift_bind (mayAliasValues_plain hlazy) ?_
      rintro _ rfl
      rw [if_neg (by simp [Value.var_beq, hne])]
      exact silent_none
    · exact silent_none
  · exact silent_none

/-- The callees, of which there are some, are all methods of the runtime that never move taints. -/
def allInert (e : Env) (n : StmtId) : Bool :=
  !(e.graph.calleesOf n).isEmpty && (e.graph.calleesOf n).all fun m => isInert (e.method m)

theorem skipSystemClass_callToReturn_tells :
    Tells e I (skipSystemClass.callToReturn d1 f s) False
      (· = if allInert e s.id then some [f] else none) := by
  refine .read (.dite (fun hall => .pure ?_ id) fun hall => .pure ?_ id)
  · exact (if_pos hall).symm
  · exact (if_neg hall).symm

variable (hI : Upkeep e M (fun _ => True) I) (hpath : f.path.isEmpty = false)
include hI hpath

theorem taintResult_tells : Keeps e I (taintResult d1 f s) fun out =>
    f.inConditional = false → out = none := by
  refine .read ?_
  split
  · exact .pure fun _ => rfl
  · next lhs _ =>
    refine .dite (fun _ => .pure fun _ => rfl) fun hcond => .ite (.pure fun _ => rfl) ?_
    have hin : f.inConditional := by
      cases hjoins : f.joins with
      | nil => simp [hpath, hjoins] at hcond
      | cons => simp [Taint.inConditional, hjoins]
    have hderive {p : Option AccessPath} {n : Option StmtId} : Keeps e I (derive f p n) :=
      (fresh_fits hI.unmoved).bind fun _ _ => .pure trivial
    exact (ofValue_fits hI.unmoved).bind fun p _ => hderive.bind fun _ _ =>
      .pure fun hno => absurd hin (by simp [hno])

variable (hzero : e.isZero f = false)
include hzero

theorem implicit_callToReturn_tells : Tells e I (implicit.callToReturn d1 f s) False fun out =>
    f.inConditional = false → out = none := by
  have hresult : Tells e I (liftM (taintResult d1 f s)) False fun out =>
      f.inConditional = false → out = none := .lift (taintResult_tells hI hpath)
  have hreport : Tells e I (do reportSink f s; taintResult d1 f s) False fun out =>
      f.inConditional = false → out = none :=
    .lift_bind (reportSink_fits hI fun _ _ _ _ _ _ _ => trivial) fun _ _ => hresult
  refine .read ?_
  rw [if_neg (by simp [hzero]), leavesBranch_of_path hpath, pure_bind]
  refine .dite (fun h => nomatch h) fun _ => .ite (.ite hreport ?_) <|
    hresult
  exact .lift_bind (isOnReceiver_keeps fun _ _ _ _ => mayAliasValues_fits hI.unmoved) fun _ _ =>
    .ite hreport hresult

/-- **Past a call.** The chain never objects to an active taint whose root the call does not assign,
and it adds nothing but the fact itself, at methods of the runtime, and what depends on a
conditional. -/
theorem applyCallToReturn_told (hmodels : e.models = none) (hstop : e.config.stopAfter = 0)
    (hlazy : e.config.aliasing.isLazy = false) (hopen : ∀ w, I w → w.rules.sinksClosed = false)
    (htracked : e.config.staticFields ≠ .ignored ∨ f.path.isStaticField = false)
    (hlhs : ∀ l, s.lhs? = some (.var l) → f.path.base ≠ some l) :
    Told e I (fun r => r.callToReturn d1 f s) (chain e) none False fun out =>
      f.inConditional = false ∨ e.config.implicitFlows.tracksControlFlow = false →
        out = if allInert e s.id then some [f] else none := by
  have himplicit (htracks : e.config.implicitFlows.tracksControlFlow) :
      Tells e I (implicit.callToReturn d1 f s) False fun out =>
        f.inConditional = false ∨ e.config.implicitFlows.tracksControlFlow = false → out = none :=
    (implicit_callToReturn_tells hI hpath hzero).mono fun _ hout hplain =>
      hout (hplain.resolve_right (by simp [htracks]))
  rw [chain_plain hmodels hstop]
  refine .silent (source_callToReturn_tells hzero) (.silent
    (sink_callToReturn_tells hI hopen)
    (.silent (staticField_callToReturn_tells htracked) ?_))
  refine .silentOptional (fun _ => silent_none) (.silentOptional (fun _ => silent_none) ?_)
  refine Told.of_iff (.optional himplicit (fun _ => rfl) fun out hout =>
    .silent (strongUpdate_callToReturn_tells hlazy hlhs)
      (.silentOptional (fun _ => silent_none) (.last skipSystemClass_callToReturn_tells ?_)))
    (by simp)
  rintro _ rfl hplain
  rw [hout hplain]
  split <;> rfl

end Rule
end LeakTrace
