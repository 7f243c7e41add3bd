import LeakTrace.Proofs.Calls.Cleaning

/-!
# Conditional facts at calls

A conditional fact enters a call once in each context. The first callee that the rules are asked
about gets it, and the call is noted as covered; **from then on the call is answered with nothing in
that context**, whichever callee is asked about. Rules that object later do not take the note back,
so a method of the runtime may use up the only chance of the others.
-/

namespace LeakTrace
variable {e : Env} {w : World} {d1 f : Fact} {n : StmtId} {s : Stmt} {callee : MethodId} {k : Kill}

/-! ## The setting -/

/-- Branches are tracked, and nothing but the configuration keeps facts from entering calls. -/
structure Env.Branching (e : Env) : Prop where
  zero : ∃ k, e.zero = .zero k
  models : e.models = none
  stopAfter : e.config.stopAfter = 0
  resultLimit : e.resultLimit = none
  tracks : e.config.implicitFlows.tracksControlFlow = true

/-- A conditional fact at a statement that is neither a source nor a sink, and not where its branch
ends. -/
structure Fact.BranchesAt (f : Fact) (e : Env) (n : StmtId) : Prop where
  conditional : e.isConditional f = true
  source : e.isSource n = false
  sink : e.isSink n = false
  inside : f.joinsAt n = false

/-- A callee about which the rule for branches is asked: there is a body to enter, and the rules
before that one do not object. -/
def Env.asksAbout (e : Env) (m : MethodId) : Bool :=
  (e.method m).isConcrete && !e.isExcluded m &&
    !(e.config.staticFields == .ignored && (e.method m).isStaticInitializer)

theorem Env.isConcrete_of_asksAbout (h : e.asksAbout callee) : (e.method callee).isConcrete := by
  simp only [asksAbout, Bool.and_eq_true] at h
  exact h.1.1

namespace Fact.BranchesAt
variable (hf : f.BranchesAt e n)
include hf

theorem isEmpty : f.path.isEmpty := (Bool.and_eq_true_iff.mp hf.conditional).1

theorem isZero : e.isZero f = false := by
  simpa using (Bool.and_eq_true_iff.mp hf.conditional).2

theorem isStaticField : f.path.isStaticField = false := by
  have hempty := hf.isEmpty
  simp only [Path.isEmpty, Bool.and_eq_true] at hempty
  simp [Path.isStaticField, hempty.2]

end Fact.BranchesAt

theorem Fact.isConditional_callConditional {k : Nat} (hz : e.zero = .zero k) (i : Nat) (f : Fact)
    (n : StmtId) : e.isConditional (f.callConditional i n) := by
  have hpath : (f.callConditional i n).path = Path.empty := by
    simp only [callConditional, move]
    split
    · next hsame =>
      simp only [Bool.and_eq_true, beq_iff_eq] at hsame
      exact hsame.1
    · rfl
  have hzero : e.isZero (f.callConditional i n) = false := by
    refine Bool.eq_false_iff.mpr fun h => ?_
    have himplicit := congrArg Taint.implicit (same_iff.mp h)
    rw [hz] at himplicit
    cases himplicit
  rw [Env.isConditional, hzero, hpath]
  rfl

theorem Fact.length_callConditional (i : Nat) (f : Fact) (n : StmtId) :
    (f.callConditional i n).length = f.length + 1 := by
  simp only [callConditional, move]
  split <;> rfl

/-! ## The rules -/

theorem RuleM.ends_read {α : Type} {g : Env → RuleM α} {Q : α × Kill → World → Prop}
    (h : w.Ends e ((g e).run k) Q) : w.Ends e (StateT.run (read >>= g) k) Q :=
  h

namespace Rule

theorem staticField_call_conditional (hf : f.BranchesAt e s.id) :
    RuleM.Tells e (· = w) (staticField.call d1 f s callee)
    (e.config.staticFields = .ignored ∧ (e.method callee).isStaticInitializer) (· = none) := by
  refine .read (.dite (fun hkill => RuleM.silent_none.killAll_bind ?_) fun hkill => ?_)
  · simpa [hf.isStaticField] using hkill
  · rw [if_pos (by simp [hf.isStaticField])]
    exact RuleM.silent_none.of_iff (by simpa [hf.isStaticField] using hkill)

section Implicit
variable (hf : f.BranchesAt e s.id)
include hf

theorem leavesBranch_of_inside : leavesBranch f s = pure false :=
  if_neg (by simp [hf.inside])

theorem implicit_call_covered (hcovered : (s.id, d1.toTaint) ∈ w.rules.conditionalCalls) :
    w.Ends e ((implicit.call d1 f s callee).run k) fun p w' =>
      p = (none, { k with all := true }) ∧ w' = w := by
  unfold implicit
  dsimp only
  rw [leavesBranch_of_inside hf]
  refine RuleM.ends_read ?_
  rw [if_neg (by simp [hf.isZero]), pure_bind]
  refine RuleM.ends_getWorld ?_
  rw [if_pos (List.contains_iff_mem.mpr hcovered)]
  exact ⟨rfl, rfl⟩

theorem implicit_call_enters (hnew : (s.id, d1.toTaint) ∉ w.rules.conditionalCalls) :
    w.Ends e ((implicit.call d1 f s callee).run k) fun p w' =>
      p = (some [f.callConditional w.nextId s.id], k) ∧
        w' = { w.coverCall (s.id, d1.toTaint) with nextId := w.nextId + 1 } := by
  unfold implicit
  dsimp only
  rw [leavesBranch_of_inside hf]
  refine RuleM.ends_read ?_
  rw [if_neg (by simp [hf.isZero]), pure_bind]
  refine RuleM.ends_getWorld ?_
  rw [if_neg (by simpa using hnew), if_pos hf.isEmpty]
  exact ⟨rfl, rfl⟩

end Implicit

/-- The rules that are asked after the one for branches. -/
def afterImplicit (e : Env) : List Rule :=
  strongUpdate :: ((if e.config.typeChecking then [typing] else []) ++ [skipSystemClass])

section Chain
variable (he : e.Branching) (hf : f.BranchesAt e s.id) (hopen : w.rules.sinksClosed = false)
  {J : Option FactSet × Kill → World → Prop}
include he hf hopen

/-- Before the rule for branches only static initialisers meet an objection. -/
theorem applyCall_conditional
    (hbarred : e.config.staticFields = .ignored ∧ (e.method callee).isStaticInitializer →
      ∀ k : Kill, k.all → J (none, k) w)
    (hasked : ¬ (e.config.staticFields = .ignored ∧ (e.method callee).isStaticInitializer) →
      w.Ends e ((ask (fun r => r.call d1 f s callee) (implicit :: afterImplicit e) none).run {})
        J) :
    w.Ends e ((applyCall (chain e) d1 f s callee).run {}) J := by
  rw [applyCall, chain_plain he.models he.stopAfter, if_pos he.tracks, List.singleton_append]
  refine ask_silent (source_call_tells.of_iff (by simp [bars, hf.source, hf.sink])) rfl
    (ask_silent (sink_call_tells ?_) rfl ?_)
  · rintro _ rfl
    exact hopen
  -- The two optional rules do not look at calls.
  exact ask_tells (staticField_call_conditional hf) rfl hbarred fun hno =>
    ask_silentOptional (fun _ => RuleM.silent_none) rfl
      (ask_silentOptional (fun _ => RuleM.silent_none) rfl (hasked hno))

end Chain

/-- After the rule for branches only methods of the runtime meet an objection. -/
theorem ask_afterImplicit {acc : Option FactSet} {J : Option FactSet × Kill → World → Prop}
    (hinert : isInert (e.method callee) → ∀ k : Kill, k.all → J (none, k) w)
    (hpasses : isInert (e.method callee) = false → J (acc, {}) w) :
    w.Ends e ((ask (fun r => r.call d1 f s callee) (afterImplicit e) acc).run {}) J := by
  refine ask_silent RuleM.silent_none rfl (ask_silentOptional (fun _ => RuleM.silent_none) rfl ?_)
  exact ask_tells skipSystemClass_call_tells rfl hinert fun hno =>
    ask_nil (hpasses (Bool.eq_false_iff.mpr hno))

end Rule

/-! ## Into a callee -/

/-- The contexts of the facts are told to the solver for aliases, where there is one. -/
def Flow.Announces (o : Flow) (e : Env) (d1 : Fact) (n : StmtId) (callee : MethodId) : Prop :=
  o.contexts = if e.config.aliasing == .flowSensitive && e.hasBackward then
    o.facts.map fun g => ⟨.backward, callee, g, n, d1⟩ else []

/-- A conditional fact names nothing that a callee could see under another name, so that only the
rules decide. -/
theorem Track.intoCallee_conditional (hf : f.BranchesAt e s.id) {J : FactSet → World → Prop}
    (h : w.Ends e ((Rule.applyCall (Rule.chain e) d1 f s callee).run {}) fun p w' =>
      J (if p.2.all then [] else p.1.getD []) w') :
    w.Ends e (intoCallee d1 f s callee) J := by
  refine .read (h.bind ?_)
  rintro ⟨out, k⟩ w' hj
  dsimp only at hj ⊢
  by_cases hall : k.all
  · rw [if_pos hall] at hj ⊢
    exact hj
  · rw [if_neg hall] at hj ⊢
    split
    · exact hj
    · have hnone {m c b} : Keeps e (· = w') (pathsInCallee m c f b) (· = []) :=
        .read (.dite (fun _ => .pure rfl) fun hpath => absurd hf.isEmpty hpath)
      refine (hnone.ends rfl).bind ?_
      rintro _ _ ⟨rfl, rfl⟩
      exact hj

namespace Forward
section Call
variable (he : e.Branching) (hn : (e.stmt n).id = n) (hf : f.BranchesAt e n)
include he hn hf

/-- The flow into a callee is up to the rules, where there is something to enter. -/
theorem call_conditional (hbody : (e.method callee).hasBody) {J : FactSet → World → Prop}
    (hexcluded : e.isExcluded callee → J [] w)
    (hinto : e.isExcluded callee = false →
      w.Ends e ((Rule.applyCall (Rule.chain e) d1 f (e.stmt n) callee).run {}) fun p w' =>
        J (if p.2.all then [] else p.1.getD []) w') :
    w.Ends e (call d1 f n callee) fun o w' => J o.facts w' ∧ o.Announces e d1 n callee := by
  refine .read (((Track.limitReached_plain he.stopAfter).ends (I := (· = w)) rfl).bind ?_)
  rintro _ _ ⟨rfl, rfl⟩
  rw [if_neg Bool.false_ne_true]
  cases hx : e.isExcluded callee with
  | true =>
    rw [if_pos (by simp)]
    exact ⟨hexcluded hx, (ite_self _).symm⟩
  | false =>
    rw [if_neg (by simp [hf.isZero, hbody])]
    rw [← hn] at hf
    exact (Track.intoCallee_conditional hf (hinto hx)).bind fun set w' hset => ⟨hset, rfl⟩

variable (hopen : w.rules.sinksClosed = false)
include hopen

theorem call_unasked (hbody : (e.method callee).isConcrete) (hasks : e.asksAbout callee = false) :
    w.Ends e (call d1 f n callee) fun o w' =>
      (o.facts = [] ∧ w' = w) ∧ o.Announces e d1 n callee := by
  refine call_conditional (J := fun set w' => set = [] ∧ w' = w) he hn hf
    (Bool.and_eq_true_iff.mp hbody).1 (fun _ => ⟨rfl, rfl⟩) fun hexcluded => ?_
  refine Rule.applyCall_conditional he (hn.symm ▸ hf) hopen (fun _ k hk => ⟨if_pos hk, rfl⟩)
    fun hasked => absurd hasks ?_
  simpa [Env.asksAbout, hbody, hexcluded] using hasked

theorem call_covered (hbody : (e.method callee).isConcrete)
    (hcovered : (n, d1.toTaint) ∈ w.rules.conditionalCalls) :
    w.Ends e (call d1 f n callee) fun o w' =>
      (o.facts = [] ∧ w' = w) ∧ o.Announces e d1 n callee := by
  have hf' : f.BranchesAt e (e.stmt n).id := by rwa [hn]
  refine call_conditional (J := fun set w' => set = [] ∧ w' = w) he hn hf
    (Bool.and_eq_true_iff.mp hbody).1 (fun _ => ⟨rfl, rfl⟩) fun _ =>
      Rule.applyCall_conditional he hf' hopen (fun _ k hk => ⟨if_pos hk, rfl⟩) fun _ => ?_
  refine Rule.ask_ends (Rule.implicit_call_covered hf' (by rwa [hn])) ?_ ?_
  · rintro _ _ ⟨rfl, rfl⟩ hall
    exact ⟨if_pos hall, rfl⟩
  · rintro _ _ ⟨rfl, rfl⟩ hlive
    cases hlive

/-- The first callee that is asked about covers the call, and gets the fact unless it is a method of
the runtime. -/
theorem call_enters (hasks : e.asksAbout callee)
    (hnew : (n, d1.toTaint) ∉ w.rules.conditionalCalls) :
    w.Ends e (call d1 f n callee) fun o w' =>
      (o.facts = (if Rule.isInert (e.method callee) then [] else [f.callConditional w.nextId n]) ∧
        w' = { w.coverCall (n, d1.toTaint) with nextId := w.nextId + 1 }) ∧
      o.Announces e d1 n callee := by
  simp only [Env.asksAbout, Bool.and_eq_true, Bool.not_eq_true', Bool.and_eq_false_iff] at hasks
  obtain ⟨⟨hbody, hexcluded⟩, hinitializer⟩ := hasks
  have hf' : f.BranchesAt e (e.stmt n).id := by rwa [hn]
  refine call_conditional (J := fun set w' => set = _ ∧ w' = _) he hn hf
    (Bool.and_eq_true_iff.mp hbody).1 (fun hx => absurd (hexcluded.symm.trans hx) Bool.false_ne_true)
    fun _ => Rule.applyCall_conditional he hf' hopen (fun hbarred => ?_) fun _ => ?_
  · rcases hinitializer with hno | hno
    · simp [hbarred.1] at hno
    · exact absurd (hno.symm.trans hbarred.2) Bool.false_ne_true
  refine Rule.ask_ends (Rule.implicit_call_enters hf' (by rwa [hn])) ?_ ?_
  · rintro _ _ ⟨rfl, rfl⟩ hall
    cases hall
  rintro _ _ ⟨rfl, rfl⟩ -
  rw [hn]
  exact Rule.ask_afterImplicit (fun hinert k hk => ⟨(if_pos hk).trans (if_pos hinert).symm, rfl⟩)
    fun hinert => ⟨(if_neg (by simp [hinert])).symm, rfl⟩

theorem call_covers (hasks : e.asksAbout callee) : w.Ends e (call d1 f n callee) fun _ w' =>
    (n, d1.toTaint) ∈ w'.rules.conditionalCalls := by
  by_cases hcovered : (n, d1.toTaint) ∈ w.rules.conditionalCalls
  · refine (call_covered he hn hf hopen (Env.isConcrete_of_asksAbout hasks) hcovered).mono ?_
    rintro _ _ ⟨⟨-, rfl⟩, -⟩
    exact hcovered
  · refine (call_enters he hn hf hopen hasks hcovered).mono ?_
    rintro _ _ ⟨⟨-, rfl⟩, -⟩
    exact List.mem_insert_self

omit hf in
/-- Nothing that names a place enters a call that is covered. -/
theorem call_closed (hpath : f.path.isEmpty = false)
    (hcovered : (n, d1.toTaint) ∈ w.rules.conditionalCalls) :
    (((call d1 f n callee).run e).run w).1.facts = [] := by
  obtain ⟨k, hz⟩ := he.zero
  have htold : Rule.Told e (·.rules = w.rules) (fun r => r.call d1 f (e.stmt n) callee)
      (Rule.chain e) none _ _ :=
    Rule.applyCall_told he.models he.stopAfter (Env.isZero_of_path hz hpath) hpath
      (fun _ hw => by rw [hw, hopen]) (fun _ _ hw => hw)
      fun _ _ hw => by rw [hw, hn, List.contains_iff_mem]
  have hcall : Track.Keeps e (·.rules = w.rules) (call d1 f n callee) (·.facts = []) := by
    refine .read ((Track.limitReached_plain he.stopAfter).bind fun _ _ => .guard rfl <| .guard rfl <|
      .bind (Q := (· = [])) (.read ((htold {} rfl).bind fun p hp => ?_)) fun _ hset => .pure hset)
    dsimp only
    rw [if_pos (hp.1.mpr (.inr (.inr (.inl ⟨he.tracks, .inl hcovered⟩))))]
    exact .pure rfl
  exact (hcall w rfl).1

end Call
end Forward
end LeakTrace
