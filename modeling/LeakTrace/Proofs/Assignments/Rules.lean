import LeakTrace.Proofs.Calls.Models

/-!
# What the rules say about a fact at an assignment

Of all rules only two object to a taint that comes to an assignment. The strong update objects if
the left side is what the path starts with, the typing rule if the right side casts the base of the
path to a type that it cannot have. So **a taint is never lost by accident**: where it does not come
out of an assignment, its root was overwritten or the cast cannot succeed.
-/

namespace LeakTrace
open Track
open RuleM (silent_none Tells Silent)
open FactSet (All AllOpt Says)

variable {e : Env} {I : World → Prop} {w : World} {d1 f : Fact} {s dest : Stmt} {lhs rhs : Value}
  {kills : Prop}

theorem Track.Keeps.any {α : Type} (x : Track α) : Keeps e (fun _ => True) x :=
  fun _ _ => ⟨trivial, trivial⟩

/-! ## Roots of paths -/

namespace Path
variable {p : Path} {v : Value}

theorem not_startsWith_of_isElement (h : v.isElement) : ¬ p.startsWith v := by
  cases v <;> simp_all [Value.isElement, startsWith]

theorem startsWith_iff : p.startsWith v ↔ (∃ l, v = .var l ∧ p.base = some l) ∨
    (∃ b g, v = .field b g ∧ p.base = some b ∧ p.firstField? = some g) ∨
    ∃ g, v = .global g ∧ p.isStaticField ∧ p.firstField? = some g := by
  cases v <;> simp [startsWith]

end Path

/-- Elements of arrays, their lengths, and the sizes of new ones. -/
def Value.readsArray : Value → Bool
  | .element _ _ | .length _ | .allocArray _ _ => true
  | _ => false

/-! ## The rules -/

namespace Rule
variable {J : Option FactSet → Prop}

theorem source_normal_tells (hzero : e.isZero f = false) :
    Silent e I (source.normal d1 f s dest) :=
  .read (.dite (fun _ => .pure rfl id) fun hno => absurd hzero (by simpa using hno))

theorem throughArray_none (hplain : rhs.readsArray = false) :
    Keeps e I (throughArray f s lhs rhs) (· = none) := by
  refine .read ?_
  cases rhs <;> first | exact .pure rfl | cases hplain

/-- A branch that ends takes only conditional facts with it. -/
theorem implicit_normal_tells (hzero : e.isZero f = false) (hpath : f.path.isEmpty = false)
    (henter : ∀ b, Keeps e I (enter f s b (decidingValues e s dest))) :
    Tells e I (implicit.normal d1 f s dest) False fun _ => True := by
  refine .read ?_
  rw [if_neg (by simp [hzero]), leavesBranch_of_path hpath, pure_bind]
  refine .dite (fun h => nomatch h) fun _ => .ite (.pure trivial id) ?_
  split
  · exact .pure trivial id
  · exact .lift (henter _)

/-- The assignment overwrites the root of the path, and not because the fact is what it writes: an
alias that was found here, or one that it has just made active. -/
def overwrites (f : Fact) (s : Stmt) (lhs : Value) : Prop :=
  f.path.startsWith lhs = true ∧ ¬ (f.isActive = false ∧ f.stmt = some s.id) ∧
    justActivated f s.id = false

/-- The right side casts the base of the path to a type that the path cannot have. -/
def miscasts (e : Env) (p : Path) (rhs : Value) : Prop :=
  ∃ t l, rhs = .cast t (.var l) ∧ p.base = some l ∧ e.casts.checkPath p t = false

theorem typing_normal_tells (hrhs : s.rhs? = some rhs) :
    Tells e I (typing.normal d1 f s dest) (miscasts e f.path rhs) (· = none) := by
  refine .read (.dite (fun hstatic => .pure rfl ?_) fun _ => ?_)
  · rintro ⟨t, l, -, hl, -⟩
    rw [Path.base_of_isStaticField hstatic] at hl
    cases hl
  · split
    · next t op hcast =>
      obtain rfl : rhs = .cast t op := Option.some.inj (hrhs.symm.trans hcast)
      refine silent_none.killIf_bind.of_iff ?_
      cases op with
      | var l => simp [miscasts, Path.isOn, Value.local?, @eq_comm _ (some l)]
      | _ => simp [miscasts, Path.isOn, Value.local?]
    · next hother =>
      refine .pure rfl ?_
      rintro ⟨t, l, rfl, -, -⟩
      exact hother t _ hrhs

theorem typeChecking_of_miscasts {p : Path} (h : miscasts e p rhs) : e.config.typeChecking := by
  obtain ⟨t, l, -, -, hcheck⟩ := h
  by_contra hoff
  simp [Casts.checkPath, Env.casts, hoff] at hcheck

section
variable (hact : s.action = .assign lhs rhs)
include hact

theorem sink_normal_tells (hrecord : Keeps e I (recordIfRead f s rhs)) :
    Silent e I (sink.normal d1 f s dest) := by
  unfold sink
  dsimp only
  rw [hact]
  exact .lift_bind hrecord fun _ _ => .pure rfl id

theorem array_normal_tells (hplain : rhs.readsArray = false ∨ ∀ w, I w) :
    Tells e I (array.normal d1 f s dest) False fun out => rhs.readsArray = false → out = none := by
  unfold array
  dsimp only
  rw [hact]
  refine .ite (.pure (fun _ => rfl) id) ?_
  by_cases hreads : rhs.readsArray = false
  · refine .lift_bind (throughArray_none hreads) ?_
    rintro _ rfl
    exact .pure (fun _ => rfl) id
  · have hall : ∀ w, I w := hplain.resolve_left hreads
    have hany {α : Type} (x : Track α) : Keeps e I x :=
      fun _ _ => ⟨trivial, hall _⟩
    have hout (out : Option FactSet) : rhs.readsArray = false → out = none :=
      fun h => absurd h hreads
    refine .lift_bind (hany _) fun g _ => ?_
    split
    · exact .pure (hout _) id
    · exact .ite (.lift_bind (hany _) fun _ _ => .pure (hout _) id) <|
        .pure (hout _) id

/-- Exceptions are caught where a handler begins, and thrown by statements of their own. -/
theorem exception_normal_tells : Silent e I (exception.normal d1 f s dest) := by
  refine .read (.ite (.pure rfl id) ?_)
  have hcatch : s.isCatch = false := by simp [Stmt.isCatch, hact]
  rw [if_neg (by simp [hcatch]), hact]
  exact .pure rfl id

/-- At an assignment only arrays and implicit flows can add something to a taint. -/
theorem applyNormal_assign_keeps {P : Fact → Prop} (hzero : e.isZero f = false) (hf : P f)
    (hrecord : Keeps e I (recordIfRead f s rhs))
    (harray : RuleM.Keeps e I (array.normal d1 f s dest) (AllOpt P))
    (himplicit : e.config.implicitFlows.tracksControlFlow →
      RuleM.Keeps e I (implicit.normal d1 f s dest) (AllOpt P)) :
    RuleM.Keeps e I (applyNormal (chain e) d1 f s dest) (All P) := by
  refine applyNormal_keeps hf fun r hr => ?_
  apply chain_cases hr
  · exact (source_normal_tells hzero).keeps
  · exact (sink_normal_tells hact hrecord).keeps
  · exact .pure .none
  · exact harray
  · exact (exception_normal_tells hact).keeps
  · exact .pure .none
  · exact himplicit
  · exact strongUpdate_normal_keeps
  · exact typing_normal_keeps
  · exact .pure .none
  · exact stopAfter_keeps _

variable (hlocal : f.path.isLocal → f.path.startsWith lhs = false)
include hlocal

/-- A path that ends at its base may be read where it is overwritten; all others are just gone. -/
theorem strongUpdate_normal_tells :
    Tells e I (strongUpdate.normal d1 f s dest) (overwrites f s lhs) (· = none) := by
  unfold strongUpdate
  dsimp only
  rw [hact]
  dsimp only
  refine .dite (fun hspared => .pure rfl ?_) fun hopen => ?_
  · rintro ⟨hstart, hown, hjust⟩
    rw [hjust, Bool.or_false, Bool.or_eq_true] at hspared
    rcases hspared with helement | hspared
    · exact Path.not_startsWith_of_isElement helement hstart
    · exact hown (by simpa using hspared)
  · have hiff : f.path.startsWith lhs ↔ overwrites f s lhs := by
      simp only [Bool.or_eq_true, not_or, Bool.not_eq_true] at hopen
      refine ⟨fun hstart => ⟨hstart, ?_, hopen.2⟩, fun h => h.1⟩
      simpa using hopen.1.2
    refine Tells.of_iff ?_ hiff
    -- A path with fields, a static field, and a local or no place at all.
    refine .dite (fun hfields => ?_) fun hfields => .dite (fun hstatic => ?_) fun hstatic => ?_
    · have hbase : f.path.base.isSome := (Bool.and_eq_true_iff.mp hfields).1
      cases lhs with
      | var l => exact silent_none.killIf_bind.of_iff (by simp [Path.startsWith])
      | field b g => exact silent_none.killIf_bind.of_iff (by simp [Path.startsWith])
      | global g =>
        refine .pure rfl ?_
        simp [Path.startsWith, Path.isStaticField, ← Option.not_isSome, hbase]
      | _ => exact .pure rfl Bool.false_ne_true
    · have hbase : f.path.base = none := Path.base_of_isStaticField hstatic
      cases lhs with
      | global g => exact silent_none.killIf_bind.of_iff (by simp [Path.startsWith, hstatic])
      | _ => exact .pure rfl (by simp [Path.startsWith, hbase])
    · have hsteps (hbase : f.path.base.isSome) : f.path.steps = [] := by
        simpa [Path.isInstanceField, hbase] using hfields
      split
      · next b l hb =>
        have hne : ¬ (some b == some l) := by
          have hstart := hlocal (by simp [Path.isLocal, hb, hsteps])
          simpa [Path.startsWith, hb] using hstart
        rw [if_neg fun h => hne (by simpa using (beq_iff_eq.mp h).symm)]
        exact .pure rfl (by rwa [Path.startsWith, hb])
      · next hother =>
        refine .pure rfl fun hstart => ?_
        rcases Path.startsWith_iff.mp hstart with ⟨l, rfl, hb⟩ | ⟨b, g, rfl, hb, hg⟩ |
          ⟨g, rfl, hstatic', -⟩
        · exact hother l l hb rfl
        · simp [Path.firstField?, hsteps (by simp [hb])] at hg
        · exact hstatic hstatic'

/-! ## The chain -/

/-- The rules at the end of the chain object for two reasons, and add nothing. -/
theorem objecting_told {acc : Option FactSet} (hacc : J acc) :
    Told e I (fun r => r.normal d1 f s dest)
      (strongUpdate :: ((if e.config.typeChecking then [typing] else []) ++ [skipSystemClass])) acc
      (overwrites f s lhs ∨ miscasts e f.path rhs) J := by
  have hcast : (e.config.typeChecking ∧ miscasts e f.path rhs) ∨ False ↔ miscasts e f.path rhs := by
    rw [or_false]
    exact ⟨fun h => h.2, fun h => ⟨typeChecking_of_miscasts h, h⟩⟩
  refine .cons (strongUpdate_normal_tells hact hlocal) ?_
  rintro _ rfl
  refine Told.of_iff
    (.optional (fun _ => typing_normal_tells (by simp [Stmt.rhs?, hact])) rfl ?_) hcast
  rintro _ rfl
  refine .last silent_none ?_
  rintro _ rfl
  simpa using hacc

/-- **At an assignment** the chain objects for two reasons, and adds nothing unless arrays are read
or control dependencies are tracked. -/
theorem applyNormal_told (hstop : e.config.stopAfter = 0) (hzero : e.isZero f = false)
    (hpath : f.path.isEmpty = false) (hrecord : Keeps e I (recordIfRead f s rhs))
    (henter : ∀ b, Keeps e I (enter f s b (decidingValues e s dest)))
    (hplain : rhs.readsArray = false ∨ ∀ w, I w) :
    Told e I (fun r => r.normal d1 f s dest) (chain e) none
      (overwrites f s lhs ∨ miscasts e f.path rhs) fun out =>
        e.config.implicitFlows.tracksControlFlow = false → rhs.readsArray = false → out = none := by
  have himplicit (htracks : e.config.implicitFlows.tracksControlFlow) :
      Tells e I (implicit.normal d1 f s dest) False fun out =>
        e.config.implicitFlows.tracksControlFlow = false → out = none :=
    (implicit_normal_tells hzero hpath henter).mono fun _ _ hno => by simp [htracks] at hno
  unfold chain
  simp only [hstop, if_false, gt_iff_lt, Nat.lt_irrefl, List.append_nil, List.append_assoc,
    List.cons_append, List.nil_append]
  -- Before those that object come sources, sinks, static fields, arrays, exceptions, models and
  -- implicit flows.
  refine .silent (source_normal_tells hzero) (.silent (sink_normal_tells hact hrecord)
    (.silent silent_none ?_))
  refine Told.of_iff (.optional (fun _ => array_normal_tells hact hplain) (fun _ => rfl)
    fun added hadded => .silentOptional (fun _ => exception_normal_tells hact)
      (.silentOptional (fun _ => silent_none) (.optional himplicit (fun _ => rfl)
        fun out hout => objecting_told hact hlocal fun hno hreads => ?_))) (by simp)
  rw [hadded hreads, hout hno]
  rfl

end

theorem applyNormal_run {rules : List Rule}
    (h : Told e I (fun r => r.normal d1 f s dest) rules none kills J) :
    Keeps e I ((applyNormal rules d1 f s dest).run {}) fun p =>
      (p.2.all ↔ kills) ∧ (p.2.all = false → ∃ out, J out ∧ p.1 = (out.getD []).insert f) := by
  unfold applyNormal
  rw [StateT.run_bind]
  refine (h {} rfl).bind fun p hp => ?_
  change Keeps e I (StateT.run (if p.2.all then pure []
    else pure (if p.2.source then p.1.getD [] else (p.1.getD []).insert f)) p.2) _
  have hsource : p.2.source = false := hp.2.1
  rw [hsource]
  by_cases hall : p.2.all
  · rw [if_pos hall]
    exact .pure ⟨hp.1, fun hno => absurd (hall.symm.trans hno) (by simp)⟩
  · rw [if_neg hall]
    exact .pure ⟨hp.1, fun hno => ⟨p.1, hp.2.2 hno, rfl⟩⟩

end Rule

/-! ## Across an assignment -/

namespace Forward
variable {n succ : StmtId}

/-- Nothing comes out if a rule objects, and otherwise what the rules added, the fact, and what the
assignment makes of it. -/
theorem normal_assign {kills : Prop} {J : Option FactSet → Prop} {Q : FactSet → Prop}
    (hact : (e.stmt n).action = .assign lhs rhs) (hactive : f.isActive)
    (hzero : e.isZero f = false) (hw : I w)
    (hrules : Rule.Told e I (fun r => r.normal d1 f (e.stmt n) (e.stmt succ)) (Rule.chain e) none
      kills J)
    (hassign : ∀ w', I w' → w'.Ends e (assign d1 (e.stmt n) lhs rhs f) fun set _ => Q set) :
    w.Ends e (normal d1 f n succ) fun flow _ => (kills → flow.facts = []) ∧
      (¬ kills → ∃ out set, J out ∧ Q set ∧
        flow.facts = ((out.getD []).insert f).insertAll set) := by
  have hwaits : f.waitsFor = none := Option.isNone_iff_eq_none.mp hactive
  unfold normal
  rw [hwaits, if_neg (by simp)]
  refine .read (((Rule.applyNormal_run hrules).ends hw).bind fun p w' hp => ?_)
  obtain ⟨⟨hkills, hout⟩, hw'⟩ := hp
  rcases p with ⟨set, kill⟩
  dsimp only at hkills hout ⊢
  by_cases hall : kill.all
  · rw [if_pos hall]
    exact ⟨fun _ => rfl, fun hno => absurd (hkills.mp hall) hno⟩
  · rw [if_neg hall, hact]
    dsimp only
    rw [hzero, if_neg Bool.false_ne_true]
    obtain ⟨out, hJ, rfl⟩ := hout (by simpa using hall)
    refine (hassign w' hw').bind fun more _ hmore => ?_
    exact ⟨fun h => absurd (hkills.mpr h) hall, fun _ => ⟨out, more, hJ, hmore, rfl⟩⟩

theorem normal_tells (hstop : e.config.stopAfter = 0) (hact : (e.stmt n).action = .assign lhs rhs)
    (hactive : f.isActive) (hzero : e.isZero f = false) (hpath : f.path.isEmpty = false)
    (hlocal : f.path.isLocal → f.path.startsWith lhs = false) :
    w.Ends e (normal d1 f n succ) fun flow _ =>
      (Rule.overwrites f (e.stmt n) lhs ∨ Rule.miscasts e f.path rhs → flow.facts = []) ∧
      (¬ (Rule.overwrites f (e.stmt n) lhs ∨ Rule.miscasts e f.path rhs) → Says flow.facts f) := by
  -- What the rules and the assignment do to the world does not matter here.
  have hrules : Rule.Told e (fun _ => True) (fun r => r.normal d1 f (e.stmt n) (e.stmt succ))
      (Rule.chain e) none _ _ :=
    Rule.applyNormal_told hact hlocal hstop hzero hpath (.any _) (fun _ => .any _)
      (.inr fun _ => trivial)
  refine (normal_assign (Q := fun _ => True) hact hactive hzero trivial hrules fun _ _ =>
    trivial).mono ?_
  rintro flow _ ⟨hkilled, hkept⟩
  refine ⟨hkilled, fun hno => ?_⟩
  obtain ⟨out, set, -, -, hfacts⟩ := hkept hno
  rw [hfacts]
  exact (FactSet.says_insertAll _ set).mpr (.inl ((FactSet.says_insert _ f f).mpr (.inr rfl)))

/-- **No taint is lost by accident.** A taint that does not come out of an assignment had its root
overwritten, or was cast to a type that it cannot have. These are good reasons: of a path with
fields nothing is left then, unless the assignment has just made the taint active. -/
theorem lost_only_if_overwritten_or_miscast (hstop : e.config.stopAfter = 0)
    (hact : (e.stmt n).action = .assign lhs rhs) (hactive : f.isActive = true)
    (hzero : e.isZero f = false) (hpath : f.path.isEmpty = false) :
    (¬ FactSet.Says (((normal d1 f n succ).run e).run w).1.facts f →
      f.path.startsWith lhs = true ∨ Rule.miscasts e f.path rhs) ∧
    (f.path.isLocal = false → Rule.justActivated f (e.stmt n).id = false →
      f.path.startsWith lhs = true ∨ Rule.miscasts e f.path rhs →
        (((normal d1 f n succ).run e).run w).1.facts = []) := by
  constructor
  · intro hlost
    by_contra hno
    obtain ⟨hstart, hcast⟩ := not_or.mp hno
    have hkept : ¬ (Rule.overwrites f (e.stmt n) lhs ∨ Rule.miscasts e f.path rhs) :=
      fun h => h.elim (fun hover => hstart hover.1) hcast
    exact hlost
      ((normal_tells hstop hact hactive hzero hpath fun _ => by simpa using hstart).2 hkept)
  · intro hlocal hjust hreason
    have hkilled : Rule.overwrites f (e.stmt n) lhs ∨ Rule.miscasts e f.path rhs :=
      hreason.imp_left fun hstart => ⟨hstart, by simp [hactive], hjust⟩
    exact (normal_tells hstop hact hactive hzero hpath fun h => by simp [hlocal] at h).1 hkilled

/-! ## A note that is no number -/

def noteLocal : Local := ⟨0, "note", .cls "java.lang.Object"⟩

def countLocal : Local := ⟨1, "count", .cls "java.lang.Integer"⟩

def counting : Env where
  graph := .ofProgram (((Program.empty.openBody ⟨"App", "main", [], .void⟩ true
    [("note", .cls "java.lang.Object"), ("count", .cls "java.lang.Integer")]).closeBody
    [.assign (.var countLocal) (.cast (.cls "java.lang.Integer") (.var noteLocal)),
      .retVoid] []).addEntry 0) []

def noteTaint : Fact where
  id := 1
  path := { base := some noteLocal, ty := some (.cls "java.lang.String") }

/-- Nothing overwrites the note, so it is the cast that loses it. -/
theorem counted_note_miscast :
    ¬ FactSet.Says (((normal (.zero 0) noteTaint 0 1).run counting).run {}).1.facts noteTaint ∧
    counting.casts.checkPath noteTaint.path (.cls "java.lang.Integer") = false := by
  have hlost : ¬ Says (((normal (.zero 0) noteTaint 0 1).run counting).run {}).1.facts
      noteTaint := by
    unfold Says
    decide +kernel
  have hact : (counting.stmt 0).action = .assign (.var countLocal)
      (.cast (.cls "java.lang.Integer") (.var noteLocal)) := rfl
  have hstart : ¬ noteTaint.path.startsWith (.var countLocal) := by decide
  obtain ⟨t, l, hcast, -, hcheck⟩ :=
    ((lost_only_if_overwritten_or_miscast rfl hact rfl rfl rfl).1 hlost).resolve_left hstart
  cases hcast
  exact ⟨hlost, hcheck⟩

end Forward
end LeakTrace
