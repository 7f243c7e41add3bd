import LeakTrace.Proofs.Calls.Passing

/-!
# Tainted static fields at calls

A tainted static field goes past a call that cannot write it, and it enters the callees that read
it. The two questions are not opposites: **a callee that writes the field on some way and never
reads it gets nothing, and nothing goes past it.**
-/

namespace LeakTrace
open Track

variable {e : Env} {I : World → Prop} {M : Message → Prop} {d1 f : Fact} {s : Stmt} {k : Nat}
  {field : Field} {w : World} {n : StmtId} {m : MethodId} {c : Call}

theorem Env.isZero_of_path (hz : e.zero = .zero k) (hpath : f.path.isEmpty = false) :
    e.isZero f = false := by
  refine Bool.eq_false_iff.mpr fun hzero => ?_
  rw [Env.path_of_isZero hz hzero] at hpath
  cases hpath

theorem Path.isEmpty_of_isStaticField {p : Path} (h : p.isStaticField) : p.isEmpty = false := by
  simp only [isStaticField, Bool.and_eq_true] at h
  simp only [isEmpty, h.1, Bool.true_and]
  simpa using h.2

/-- Calls stay open as long as all results are welcome. -/
theorem Upkeep.opened (hlimit : e.resultLimit = none) :
    Upkeep.Always e fun w => w.rules.sinksClosed = false where
  rest hw h := h.sinksClosed.trans hw
  close _ _ h := absurd h (by simp [hlimit])

/-! ## Calls without a limit on results -/

namespace Forward
variable {Q : FactSet → Prop}

theorem callToReturn_of_past (hstop : e.config.stopAfter = 0)
    (hpast : Keeps e I (pastCall d1 f (e.stmt n)) Q) :
    Keeps e I (callToReturn d1 f n) fun o => Q o.facts := by
  refine .read ((limitReached_plain hstop).bind ?_)
  rintro _ rfl
  exact hpast.bind fun set hset => .pure hset

theorem call_of_into (hstop : e.config.stopAfter = 0) (hzero : e.isZero f = false)
    (hbody : (e.method m).isConcrete) (hentered : e.isExcluded m = false)
    (hinto : Keeps e I (intoCallee d1 f (e.stmt n) m) Q) :
    Keeps e I (call d1 f n m) fun o => Q o.facts := by
  have hhas : (e.method m).hasBody := (Bool.and_eq_true_iff.mp hbody).1
  refine .read ((limitReached_plain hstop).bind ?_)
  rintro _ rfl
  refine .dite (fun h => nomatch h) fun _ => ?_
  rw [if_neg (by simp [hzero, hentered, hhas])]
  exact hinto.bind fun set hset => .pure hset

end Forward

/-! ## Past the call -/

namespace Track

/-- No callee writes the field, directly or through what it calls. -/
def Untouched (e : Env) (n : StmtId) (field : Field) : Prop :=
  ∀ m ∈ e.graph.calleesOf n, e.graph.writesStatic m field = false

theorem passesCall_static (hpath : f.path.isStaticField) (hfield : f.path.firstField? = some field) :
    Keeps e I (passesCall f f s false) fun b =>
      b ↔ Untouched e s.id field ∨ f.inConditional := by
  have hempty := Path.isEmpty_of_isStaticField hpath
  refine .read (.dite (fun _ => Keeps.bind (Q := (· = false)) (.pure rfl) ?_) fun hno =>
    absurd hpath (by simpa using hno))
  rintro _ rfl
  refine .pure ?_
  simp [hpath, hfield, hempty, Untouched]

theorem addNative_static (hpath : f.path.isStaticField) {set : FactSet} :
    Keeps e I (addNative d1 s c f set) (· = set) := by
  have hbase := Path.base_of_isStaticField hpath
  refine .read ?_
  rw [if_pos (by simp [hbase])]
  exact .pure rfl

end Track

/-! ## Into the callees -/

theorem Oracle.sink?_of_base {o : Oracle} {p : Program} {path : Path} (hbase : path.base = none) :
    o.sink? p s (some path) = none := by
  unfold sink?
  dsimp only
  split
  · simp [hbase]
  · split <;> simp [hbase]

theorem Track.pathsInCallee_static (hlazy : e.config.aliasing.isLazy = false)
    (hpath : f.path.isStaticField) {callee : Method} {reflective : Bool} :
    Keeps e I (pathsInCallee callee c f reflective) (· = []) := by
  have hbase : f.accessPath.base = none := Path.base_of_isStaticField hpath
  refine .read (.guard rfl ?_)
  rw [if_pos (by simp [hbase]), if_neg (by simp [hlazy])]
  exact .pure rfl

/-- The call is entered with the static field: the callee reads it, and nothing is in the way. -/
structure Forward.Enters (e : Env) (w : World) (d1 f : Fact) (n : StmtId) (m : MethodId)
    (field : Field) : Prop where
  reads : e.graph.readsStatic m field = true
  source : ¬ (e.config.inspectSources = false ∧ e.isSource n = true)
  implicit : ¬ (e.config.implicitFlows.tracksControlFlow = true ∧
    (w.rules.conditionalCalls.contains (n, d1.toTaint) = true ∨ f.inConditional = true))
  inert : Rule.isInert (e.method m) = false

theorem Forward.enters_iff :
    Forward.Enters e w d1 f n m field ↔ e.graph.readsStatic m field ∧
      ¬ ((e.config.inspectSources = false ∧ e.isSource n) ∨
        (e.config.implicitFlows.tracksControlFlow ∧
          (w.rules.conditionalCalls.contains (n, d1.toTaint) ∨ f.inConditional)) ∨
        Rule.isInert (e.method m)) := by
  rw [not_or, not_or, Bool.not_eq_true]
  exact ⟨fun h => ⟨h.reads, h.source, h.implicit, h.inert⟩,
    fun ⟨hr, hs, hi, ht⟩ => ⟨hr, hs, hi, ht⟩⟩

/-! ## The two flow functions -/

section
variable (hmodels : e.models = none) (hstop : e.config.stopAfter = 0)
  (hlazy : e.config.aliasing.isLazy = false) (htracked : e.config.staticFields = .sensitive)
  (hzero : e.isZero f = false) (hpath : f.path.isStaticField)
  (hfield : f.path.firstField? = some field) (hopen : w.rules.sinksClosed = false)
include hmodels hstop hlazy htracked hzero hpath hfield hopen

theorem Forward.callToReturn_static_tells (hlimit : e.resultLimit = none) (hactive : f.isActive)
    (hn : (e.stmt n).id = n) :
    FactSet.Says (((Forward.callToReturn d1 f n).run e).run w).1.facts f ↔
      Rule.allInert e n ∨ Untouched e n field ∨ f.inConditional := by
  have hempty := Path.isEmpty_of_isStaticField hpath
  have hbase := Path.base_of_isStaticField hpath
  have hpast : Keeps e (fun w => w.rules.sinksClosed = false)
      (pastCall d1 f (e.stmt n)) (Passes e f (e.stmt n)
        (Untouched e (e.stmt n).id field ∨ f.inConditional) True) := by
    refine pastCall_tells hmodels hstop hlazy (Upkeep.opened hlimit) (fun _ h => h)
      hzero hactive hempty (.inl (by simp [htracked]))
      (fun l _ => by simp [hbase]) (passesCall_static hpath hfield) .inr fun c _ set => ?_
    refine (addNative_static hpath).mono fun out hout => ?_
    subst out
    exact ⟨List.Subset.refl set, fun _ => rfl⟩
  have hset := (callToReturn_of_past hstop hpast w hopen).1
  have hiff := Iff.intro (hset.only trivial) hset.told
  rwa [hn] at hiff

theorem Track.intoCallee_static :
    Keeps e (fun w' => w'.rules = w.rules) (intoCallee d1 f s m) fun set =>
      (∃ g ∈ set, g.path = f.path) ↔ Forward.Enters e w d1 f s.id m field := by
  have hempty := Path.isEmpty_of_isStaticField hpath
  have hbase := Path.base_of_isStaticField hpath
  have hreads : Rule.readsStaticPath e f m ↔ e.graph.readsStatic m field := by
    simp [Rule.readsStaticPath, hpath, hfield, hlazy]
  have htold : Rule.Told e (fun w' => w'.rules = w.rules) (fun r => r.call d1 f s m) (Rule.chain e)
      none _ _ :=
    Rule.applyCall_told hmodels hstop hzero hempty (fun w' hw' => by rw [hw']; exact hopen)
      (fun _ _ hw' => hw') fun _ w' hw' => by rw [hw']
  refine .read ((htold {} rfl).bind fun p hp => ?_)
  simp only [Rule.bars, Rule.losesStatic, Rule.HandsStatic, Oracle.sink?_of_base hbase, htracked,
    Option.isSome_none, Bool.false_eq_true, and_false, or_false, false_or, reduceCtorEq, false_and,
    ne_eq, not_false_eq_true, true_implies, hreads] at hp
  rw [Forward.enters_iff, ← hp.1]
  refine .dite (fun hall => .pure ?_) fun hall => ?_
  · simp [hall]
  · -- A static field starts at no local, so the rules alone decide what enters.
    have hset : (∃ g ∈ p.1.getD [], g.path = f.path) ↔ e.graph.readsStatic m field ∧ ¬ p.2.all := by
      obtain ⟨hcarried, hnone⟩ := hp.2.2 (by simpa using hall)
      by_cases hr : e.graph.readsStatic m field
      · obtain ⟨g, hg, hgpath⟩ := hcarried hr
        simp [hg, hgpath, hr, hall]
      · simp [hnone hr, hr]
    dsimp only
    split
    · exact .pure hset
    · refine (pathsInCallee_static hlazy hpath).bind ?_
      rintro _ rfl
      exact .pure hset

theorem Forward.call_static_enters (hn : (e.stmt n).id = n) (hbody : (e.method m).isConcrete)
    (hentered : e.isExcluded m = false) :
    (∃ g ∈ (((Forward.call d1 f n m).run e).run w).1.facts, g.path = f.path) ↔
      Forward.Enters e w d1 f n m field := by
  have hinto : Keeps e (fun w' => w'.rules = w.rules) (intoCallee d1 f (e.stmt n) m)
      fun set => (∃ g ∈ set, g.path = f.path) ↔ Forward.Enters e w d1 f (e.stmt n).id m field :=
    intoCallee_static hmodels hstop hlazy htracked hzero hpath hfield hopen
  rw [hn] at hinto
  exact (call_of_into hstop hzero hbody hentered hinto w rfl).1

end

/-! ## Both together -/

/-- **A tainted static field stays in sight of a call, or it does not.** The fact goes past the call
or enters every callee that can be entered and writes the field, exactly if it is inside a
conditional, if the callees are methods of the runtime that never move taints, or if each of those
callees reads the field as well and nothing keeps the fact from entering it. -/
theorem static_taint_passes_or_enters_iff (hz : e.zero = .zero k) (hmodels : e.models = none)
    (hstop : e.config.stopAfter = 0) (hlimit : e.resultLimit = none)
    (hlazy : e.config.aliasing.isLazy = false) (htracked : e.config.staticFields = .sensitive)
    {field : Field} {n : StmtId} {w : World} (hn : (e.stmt n).id = n)
    (hopen : w.rules.sinksClosed = false) (hactive : f.isActive = true)
    (hpath : f.path.isStaticField = true) (hfield : f.path.firstField? = some field) :
    (FactSet.Says (((Forward.callToReturn d1 f n).run e).run w).1.facts f ∨
      ∀ m ∈ e.graph.calleesOf n, (e.method m).isConcrete = true → e.isExcluded m = false →
        e.graph.writesStatic m field = true →
          ∃ g ∈ (((Forward.call d1 f n m).run e).run w).1.facts, g.path = f.path) ↔
    f.inConditional = true ∨ Rule.allInert e n = true ∨
      ∀ m ∈ e.graph.calleesOf n, (e.method m).isConcrete = true → e.isExcluded m = false →
        e.graph.writesStatic m field = true → Forward.Enters e w d1 f n m field := by
  have hzero := Env.isZero_of_path hz (Path.isEmpty_of_isStaticField hpath)
  rw [Forward.callToReturn_static_tells hmodels hstop hlazy htracked hzero hpath hfield hopen hlimit
    hactive hn]
  have henters : ∀ m, (e.method m).isConcrete → e.isExcluded m = false →
      ((∃ g ∈ (((Forward.call d1 f n m).run e).run w).1.facts, g.path = f.path) ↔
        Forward.Enters e w d1 f n m field) := fun m hbody hentered =>
    Forward.call_static_enters hmodels hstop hlazy htracked hzero hpath hfield hopen hn hbody hentered
  constructor
  · rintro ((hinert | huntouched | hcond) | hall)
    · exact .inr (.inl hinert)
    · -- A field that no callee writes leaves nothing to show.
      refine .inr (.inr fun m hm _ _ hwrites => ?_)
      rw [huntouched m hm] at hwrites
      cases hwrites
    · exact .inl hcond
    · exact .inr (.inr fun m hm hbody hentered hwrites =>
        (henters m hbody hentered).mp (hall m hm hbody hentered hwrites))
  · rintro (hcond | hinert | hall)
    · exact .inl (.inr (.inr hcond))
    · exact .inl (.inl hinert)
    · exact .inr fun m hm hbody hentered hwrites =>
        (henters m hbody hentered).mpr (hall m hm hbody hentered hwrites)

/-! ## Two programs -/

def sharedField : Field := ⟨"App", "shared", .cls "java.lang.String", true⟩

/-- `main` calls `touch`, which has the given body. -/
def callingTouch (body : List Action) : Program :=
  let touch : MethodRef := ⟨"App", "touch", [], .void⟩
  let p := (Program.empty.openBody ⟨"App", "main", [], .void⟩ true []).closeBody
    [.call ⟨.static, touch, none, []⟩, .retVoid] []
  let p := (p.openBody touch true [("k", .int), ("t", .cls "java.lang.String")]).closeBody body []
  p.addEntry 0

/-- `touch` clears the field on one of two ways. -/
def clearing : Env where
  graph := .ofProgram (callingTouch
    [.branch (.var ⟨0, "k", .int⟩) 2, .assign (.global sharedField) .null, .retVoid]) []

/-- `touch` reads the field and writes it back. -/
def rewriting : Env where
  graph := .ofProgram (callingTouch
    [.assign (.var ⟨1, "t", .cls "java.lang.String"⟩) (.global sharedField),
      .assign (.global sharedField) (.var ⟨1, "t", .cls "java.lang.String"⟩), .retVoid]) []

def sharedTaint : Fact where
  id := 1
  path := { steps := [.of sharedField] }

theorem rewriting_static_taint_enters :
    rewriting.graph.calleesOf 0 = [1] ∧ rewriting.graph.writesStatic 1 sharedField = true ∧
    (FactSet.Says (((Forward.callToReturn (.zero 0) sharedTaint 0).run rewriting).run {}).1.facts
        sharedTaint ∨
      ∀ m ∈ rewriting.graph.calleesOf 0, (rewriting.method m).isConcrete = true →
        rewriting.isExcluded m = false → rewriting.graph.writesStatic m sharedField = true →
          ∃ g ∈ (((Forward.call (.zero 0) sharedTaint 0 m).run rewriting).run {}).1.facts,
            g.path = sharedTaint.path) := by
  have hcallees : rewriting.graph.calleesOf 0 = [1] := by decide +kernel
  refine ⟨hcallees, by decide +kernel, ?_⟩
  refine (static_taint_passes_or_enters_iff (k := 0) rfl rfl rfl rfl rfl rfl rfl rfl rfl rfl
    rfl).mpr (.inr (.inr fun m hm _ _ _ => ?_))
  rw [hcallees, List.mem_singleton] at hm
  subst hm
  exact ⟨by decide +kernel, by decide +kernel, by decide +kernel, by decide +kernel⟩

/-- The taint survives on the way that does not clear the field, and yet it is lost: it neither goes
past the call nor enters the callee. -/
theorem clearing_static_taint_lost :
    clearing.graph.calleesOf 0 = [1] ∧ (clearing.method 1).isConcrete = true ∧
    clearing.isExcluded 1 = false ∧ clearing.graph.writesStatic 1 sharedField = true ∧
    (((Forward.callToReturn (.zero 0) sharedTaint 0).run clearing).run {}).1.facts.length = 0 ∧
    (((Forward.call (.zero 0) sharedTaint 0 1).run clearing).run {}).1.facts.length = 0 := by
  decide +kernel

end LeakTrace
