import LeakTrace.Proofs.Keeps.Zero
import LeakTrace.Proofs.Scope.Roots
import LeakTrace.Proofs.Vocabulary.Tracking

/-!
# Facts that fit in a part of a program

A fact fits in a scope if it is rooted in a local of the scope or in none, unless it is a thrown
exception, which has left its local behind. A region is a part of a program that control does not
leave but by calls and returns, with the locals that are in scope there.

**More may be said of facts than where they are rooted.** A property of facts is `Heritable` if a
fact hands it down to what is derived from it. `Fact.Fits` carries any such property along; what a
statement creates and asks for has its own conditions, which `Stmt.Suits` collects, and so has what
it records.

**Tracking keeps what does not care for the rest of the world.** `Upkeep` says what an invariant of
worlds has to put up with: messages and results of some kind, and sinks that are closed where
results are limited.
-/

namespace LeakTrace
variable {P Q : Local → Prop} {H : Fact → Prop} {e : Env} {I : World → Prop} {v : Value} {f : Fact}
  {M : Message → Prop} {c : Call}

/-! ## Facts -/

theorem Path.Rooted.mono {p : Path} (h : p.Rooted P) (hpq : ∀ l, P l → Q l) : p.Rooted Q :=
  fun l hl => hpq l (h l hl)

/-- What the fact says is thrown or rooted in the scope. -/
structure Taint.Fits (P : Local → Prop) (t : Taint) : Prop where
  root : t.thrown = true ∨ t.path.Rooted P

abbrev anyFact (_ : Fact) : Prop := True

namespace Fact
variable {g : Fact} {n : Nat} {a : AccessPath} {p : Option AccessPath} {stmt : Option StmtId}
  {implicit : Bool}

/-- The fact is as `H` says, and it is thrown or rooted in the scope. -/
structure Fits (P : Local → Prop) (H : Fact → Prop) (f : Fact) : Prop extends f.toTaint.Fits P where
  kind : H f

/-- Where facts that are derived from the fact may be rooted: a thrown one may be rooted
anywhere. -/
def scope (f : Fact) (P : Local → Prop) (l : Local) : Prop := f.thrown = true ∨ P l

theorem Fits.imp {H' : Fact → Prop} (h : f.Fits P H) (hf : H f → H' f) : f.Fits P H' :=
  ⟨h.toFits, hf h.kind⟩

theorem Fits.rooted (h : f.Fits P H) : f.path.Rooted (f.scope P) := by
  intro l hl
  exact h.root.imp_right fun hp => hp l hl

theorem fits_of_base_none (hf : H f) (hb : f.path.base = none) : f.Fits P H :=
  ⟨⟨.inr (Path.rooted_of_base_none hb)⟩, hf⟩

theorem fits_of_scope (hg : H g) (ht : g.thrown = f.thrown) (hp : g.path.Rooted (f.scope P)) :
    g.Fits P H := by
  refine ⟨⟨?_⟩, hg⟩
  cases hf : f.thrown with
  | true => exact .inl (ht.trans hf)
  | false =>
    refine .inr fun l hl => (hp l hl).resolve_left ?_
    rw [hf]
    exact Bool.false_ne_true

theorem within_scope (h : v.Within P) : v.Within (f.scope P) := fun l hl => .inr (h l hl)

/-! ### What derivations hand down -/

/-- The facts have one origin, shortened alike, or none. -/
abbrev SharesOrigin (f g : Fact) : Prop := g.origin = f.origin ∧ g.originCut = f.originCut

/-- `g` is derived from `f`, or it is `f` with another name: it waits for what `f` waits for, and
if it has an origin, that is the one of `f`. -/
structure Continues (f g : Fact) : Prop where
  waitsFor : g.waitsFor = f.waitsFor
  history : g.pred = some f ∧ (g.origin = none ∨ f.SharesOrigin g) ∨
    g.pred = f.pred ∧ f.SharesOrigin g

/-- Derivations hand the property down. -/
def Heritable (H : Fact → Prop) : Prop := ∀ ⦃f g : Fact⦄, H f → f.Continues g → H g

theorem heritable_waitsFor (W : Option StmtId → Prop) : Heritable fun f => W f.waitsFor := by
  intro f g hf hfg
  rwa [hfg.waitsFor]

/-- What becomes of a fact by derivations, and by waiting for statements. -/
inductive Makes (f : Fact) : Fact → Prop where
  | self : Makes f f
  | derived {g h : Fact} : Makes f g → g.Continues h → Makes f h
  | waiting {g : Fact} (n : Nat) (unit : StmtId) (deferred : Bool) : Makes f g →
    Makes f (g.deactivate n unit deferred)

theorem heritable_makes : Heritable f.Makes := fun _ _ hf hfg => hf.derived hfg

theorem Continues.of_pred (hw : g.waitsFor = f.waitsFor) (hp : g.pred = some f)
    (ho : g.origin = none) : f.Continues g :=
  ⟨hw, .inl ⟨hp, .inl ho⟩⟩

theorem continues_move : f.Continues (f.move n a stmt) := by
  unfold move
  split
  · exact ⟨rfl, .inl ⟨rfl, .inr ⟨rfl, rfl⟩⟩⟩
  · exact .of_pred rfl rfl rfl

theorem continues_derive? : ∀ g ∈ f.derive? n p stmt implicit, f.Continues g := by
  intro g hg
  obtain ⟨a, -, rfl⟩ := Option.map_eq_some_iff.mp hg
  have hmove : f.Continues (f.move n a stmt) := continues_move
  exact ⟨hmove.waitsFor, hmove.history⟩

/-- What is recorded of the fact at a statement. -/
def observedAt (f : Fact) (stmt : StmtId) : Taint := (f.move 0 f.accessPath (some stmt)).toTaint

theorem toTaint_derive? {stmt : StmtId} : ∀ g ∈ f.derive? n
    (some f.accessPath) (some stmt) f.implicit, g.toTaint = f.observedAt stmt := by
  rintro g ⟨⟩
  unfold observedAt move
  dsimp only
  split <;> rfl

@[simp]
theorem thrown_move : (f.move n a stmt).thrown = f.thrown := by
  unfold move
  split <;> rfl

section Heritable
variable (hH : Heritable H) {call : StmtId}
include hH

theorem fits_derive? (hf : H f) (hp : Paths.RootedOpt (f.scope P) p) :
    ∀ g ∈ f.derive? n p stmt implicit, g.Fits P H := by
  intro g hg
  have hkind : H g := hH hf (continues_derive? g hg)
  obtain ⟨a, ha, rfl⟩ := Option.map_eq_some_iff.mp hg
  refine fits_of_scope (f := f) hkind (thrown_move (f := f)) ?_
  change Path.Rooted _ (f.move n a stmt).path
  rw [path_move]
  exact hp a ha

theorem fits_deriveAs? (hf : H f) (hp : Paths.RootedOpt (f.scope P) p) :
    ∀ g ∈ f.deriveAs? n p stmt implicit, g.Fits P H := by
  intro g hg
  unfold deriveAs? at hg
  split at hg
  · next a =>
    split at hg
    · next hsame =>
      cases hg
      simp only [Bool.and_eq_true, beq_iff_eq] at hsame
      refine fits_of_scope hf rfl ?_
      rw [hsame.1.1]
      exact hp a rfl
    · exact fits_derive? hH hf hp g hg
  · cases hg

theorem Fits.turnAt (h : f.Fits P H) {stmt : StmtId} : (f.turnAt n stmt).Fits P H := by
  unfold Fact.turnAt
  split
  · exact h
  · exact ⟨⟨h.root⟩, hH h.kind (.of_pred rfl rfl rfl)⟩

theorem Fits.withCall (h : f.Fits P H) : (f.withCall n call).Fits P H :=
  ⟨⟨h.root⟩, hH h.kind ⟨rfl, .inr ⟨rfl, rfl, rfl⟩⟩⟩

theorem fits_throwAt (hf : H f) {stmt : StmtId} : (f.throwAt n stmt).Fits P H :=
  ⟨⟨.inl rfl⟩, hH hf (.of_pred rfl rfl rfl)⟩

theorem fits_catchInto? (hf : H f) (hp : Paths.RootedOpt P p) :
    ∀ g ∈ f.catchInto? n p, g.Fits P H := by
  intro g hg
  obtain ⟨a, ha, rfl⟩ := Option.map_eq_some_iff.mp hg
  have hmove : f.Continues (f.move n a none) := continues_move
  refine ⟨⟨.inr ?_⟩, hH hf ⟨hmove.waitsFor, hmove.history⟩⟩
  change Path.Rooted _ (f.move n a none).path
  rw [path_move]
  exact hp a ha

theorem fits_conditional (hf : H f) {joins : List Join} :
    Fits P H { f.move n AccessPath.empty stmt with implicit := true, joins } := by
  have hmove : f.Continues (f.move n AccessPath.empty stmt) := continues_move
  refine fits_of_base_none (hH hf ⟨hmove.waitsFor, hmove.history⟩) ?_
  change (f.move n AccessPath.empty stmt).path.base = none
  rw [path_move]
  rfl

theorem Fits.enterConditional (h : f.Fits P H) {join : Join} {stmt : StmtId} :
    (f.enterConditional n join stmt).Fits P H := by
  unfold Fact.enterConditional
  split
  · exact h
  · exact fits_conditional hH h.kind

end Heritable

theorem Fits.deactivate (h : f.Fits P H) {stmt : StmtId} {deferred : Bool}
    (hg : H (f.deactivate n stmt deferred)) : (f.deactivate n stmt deferred).Fits P H := by
  refine ⟨⟨?_⟩, hg⟩
  unfold Fact.deactivate
  split
  · exact h.root
  · refine h.root.imp (fun ht => ?_) fun hp => ?_
    · exact (thrown_move (f := f)).trans ht
    · change Path.Rooted _ (f.move n f.accessPath none).path
      rw [path_move]
      exact hp

@[simp]
theorem waitsFor_activate : (f.activate n).waitsFor = none := by
  unfold Fact.activate
  split
  · next hactive => exact Option.isNone_iff_eq_none.mp hactive
  · rfl

theorem Fits.activate (h : f.Fits P anyFact) (hg : H (f.activate n)) : (f.activate n).Fits P H := by
  refine ⟨⟨?_⟩, hg⟩
  unfold Fact.activate
  split
  · exact h.root
  · exact h.root

def FitsOpt (P : Local → Prop) (H : Fact → Prop) (f : Option Fact) : Prop :=
  ∀ g ∈ f, g.Fits P H

end Fact

/-! ## Regions -/

/-- Some statements of a program, and the locals that facts there may be rooted in. -/
structure Region where
  stmts : StmtId → Prop
  locals : Local → Prop

namespace Region

def HasStmt (r : Region) (e : Env) (s : Stmt) : Prop := ∃ n, r.stmts n ∧ e.stmt n = s

/-- Statements of the region mention only its locals, and control does not leave it. A taint that is
decided lazily keeps its name in callees, and a conditional search starts in the callee; where these
are in use a region has to be everything. -/
structure Closed (r : Region) (e : Env) : Prop where
  id : ∀ n, r.stmts n → r.stmts (e.stmt n).id
  values : ∀ n, r.stmts n → ∀ v ∈ (e.stmt n).values, v.Within r.locals
  body : ∀ n, r.stmts n → ∀ k ∈ (e.method (e.stmt n).method).body, r.stmts k
  succs : ∀ n, r.stmts n → ∀ t ∈ e.graph.forward.succs n, r.stmts t
  preds : ∀ n, r.stmts n → ∀ t ∈ e.graph.forward.preds n, r.stmts t
  isLazy : e.config.aliasing.isLazy = true → ∀ l, r.locals l
  implicit : e.config.implicitFlows.tracksControlFlow = true → ∀ n, r.stmts n

structure Contains (r : Region) (e : Env) (m : MethodId) : Prop where
  body : ∀ n ∈ (e.method m).body, r.stmts n
  params : ∀ l ∈ (e.method m).params, r.locals l
  self : ∀ l ∈ (e.method m).self, r.locals l

def whole : Region := ⟨fun _ => True, fun _ => True⟩

theorem whole_closed : whole.Closed e :=
  ⟨fun _ _ => trivial, fun _ _ _ _ _ _ => trivial, fun _ _ _ _ => trivial,
    fun _ _ _ _ => trivial, fun _ _ _ _ => trivial, fun _ _ => trivial, fun _ _ => trivial⟩

theorem whole_contains {m : MethodId} : whole.Contains e m :=
  ⟨fun _ _ => trivial, fun _ _ => trivial, fun _ _ => trivial⟩

namespace Closed
variable {r : Region} {s : Stmt}

section
variable (hr : r.Closed e) (hs : r.HasStmt e s)
include hr hs

theorem stmt_id : r.stmts s.id := by
  obtain ⟨n, hn, rfl⟩ := hs
  exact hr.id n hn

theorem within (hv : v ∈ s.values) : v.Within r.locals := by
  obtain ⟨n, hn, rfl⟩ := hs
  exact hr.values n hn v hv

theorem within_lhs (hv : v ∈ s.lhs?) : v.Within r.locals :=
  hr.within hs (Stmt.mem_values_of_lhs hv)

theorem within_assign {lhs rhs : Value} (h : s.action = .assign lhs rhs) :
    lhs.Within r.locals ∧ rhs.Within r.locals :=
  ⟨hr.within hs (by simp [Stmt.values, h]), hr.within hs (by simp [Stmt.values, h])⟩

theorem within_call (hc : s.call? = some c) :
    (∀ l ∈ c.base, r.locals l) ∧ ∀ v ∈ c.args, v.Within r.locals :=
  Value.within_call.mp (hr.within hs (Stmt.mem_values_of_call hc))

end
end Closed

/-- From a statement, the taint analysis may ask for edges about facts that are as `H` says: the
alias search about those of the region, which wait for the statement from then on; where points-to
sets are used, itself about what becomes of them; and both about static fields, wherever they are
read. With control dependencies aliases wait for other statements too. -/
structure Sends (r : Region) (e : Env) (H : Fact → Prop) (stmt : StmtId) (M : Message → Prop) :
    Prop where
  search {d1 g : Fact} {n unit : StmtId} {i : Nat} : e.config.aliasing = .flowSensitive →
    unit = stmt ∨ e.config.implicitFlows.tracksControlFlow = true → r.stmts n →
    g.Fits r.locals H → M (.edge .backward d1 n (g.deactivate i unit e.config.defersActivation))
  pointsTo {d1 f g : Fact} {n : StmtId} : e.config.aliasing = .ptsBased → H f → r.stmts n →
    g.Fits r.locals f.Makes → M (.edge .forward d1 n g)
  global {side : Side} {d1 g : Fact} {n : StmtId} : e.config.staticFields = .insensitive →
    g.Fits (fun _ => False) H → M (.edge side d1 n g)

/-- The alias search may hand facts of the region to the taint analysis, and static fields to both
wherever they are read. -/
structure Hands (r : Region) (e : Env) (H : Fact → Prop) (M : Message → Prop) : Prop where
  here {d1 g : Fact} {n : StmtId} : r.stmts n → g.Fits r.locals H → M (.edge .forward d1 n g)
  global {side : Side} {d1 g : Fact} {n : StmtId} : e.config.staticFields = .insensitive →
    g.Fits (fun _ => False) H → M (.edge side d1 n g)

theorem sends_all {r : Region} {stmt : StmtId} : r.Sends e H stmt fun _ => True :=
  ⟨fun _ _ _ _ => trivial, fun _ _ _ _ => trivial, fun _ _ => trivial⟩

end Region

theorem Fact.fits_whole (h : H f) : f.Fits Region.whole.locals H :=
  ⟨⟨.inr fun _ _ => trivial⟩, h⟩

/-! ## Worlds -/

/-- The worlds agree on messages, on results, on who met whom, on static fields that hold
everywhere, on the registry of activations and on what decides about paths and calls. -/
structure World.Agrees (w w' : World) : Prop where
  outbox : w'.outbox = w.outbox
  results : w'.results = w.results
  neighbors : w'.neighbors = w.neighbors
  globals : w'.globals = w.globals
  activations : w'.activations = w.activations
  pathRules : w'.paths.rules = w.paths.rules
  sinksClosed : w'.rules.sinksClosed = w.rules.sinksClosed
  conditionalCalls : w'.rules.conditionalCalls = w.rules.conditionalCalls

/-- Where it does not matter which static fields hold everywhere, only the edges do that are asked
for. -/
theorem Track.addGlobal_of_send (hset : ∀ w g, I w → I { w with globals := g })
    (hsend : ∀ w m, I w → M m → I { w with outbox := m :: w.outbox })
    (hM : ∀ side n, M (.edge side e.zero n f)) : Keeps e I (addGlobal f) := by
  have hedge : ∀ side n, Keeps e I (sendEdge side e.zero n f) := by
    intro side n
    refine .read ?_
    dsimp only
    exact .ite (.modify trivial fun w hw => hsend w _ hw (hM side n)) <|
      .pure trivial
  refine .read (.get fun w _ => .guard trivial ?_)
  refine Keeps.bind (.modify (Q := fun _ => True) trivial fun w hw => hset w _ hw) fun _ _ => ?_
  split
  · exact .pure trivial
  · next field _ =>
    have hloop : Keeps e I (forIn (readers e field) PUnit.unit fun n _ => do
        sendEdge .forward e.zero n f
        sendEdge .backward e.zero n f
        pure (ForInStep.yield PUnit.unit)) := by
      refine .forIn (fun n hn _ _ => ?_) trivial
      exact (hedge .forward n).bind fun _ _ => (hedge .backward n).bind fun _ _ => .pure trivial
    exact hloop.bind fun _ _ => .pure trivial

/-- What an invariant of worlds has to put up with, where messages are as `M` says and results as
`R` says. What it does not mention need not be shown. -/
structure Upkeep (e : Env) (M : Message → Prop) (R : SinkHit → Prop) (I : World → Prop) : Prop where
  rest {w w' : World} : I w → w.Agrees w' → I w'
  send {w : World} {m : Message} : I w → M m → I { w with outbox := m :: w.outbox } := by
    exact fun hw _ => hw
  abort : M .abort := by trivial
  hit {w : World} {h : SinkHit} : I w → R h → w.results.find? h.same = none →
    I { w with results := w.results ++ [h] } := by exact fun hw _ _ => hw
  again {w : World} {old h : SinkHit} : I w → old ∈ w.results → R h →
    I (w.addNeighbor old.fact h.fact false).2 := by
      intro w old h hw _ _
      obtain ⟨n, hn⟩ := w.addNeighbor_eq old.fact h.fact false
      rw [hn]
      exact hw
  close {w : World} {h : SinkHit} : I w → R h → e.resultLimit.isSome = true →
    I { w with rules := { w.rules with sinksClosed := true } } := by exact fun hw _ _ => hw
  global {f : Fact} : (∀ side n, M (.edge side e.zero n f)) → Track.Keeps e I (Track.addGlobal f) :=
    by exact Track.addGlobal_of_send (M := fun _ => True) (fun _ _ hw => hw) fun _ _ hw _ => hw

/-- Whatever is sent and reported. -/
abbrev Upkeep.Always (e : Env) (I : World → Prop) : Prop := Upkeep e (fun _ => True) (fun _ => True) I

/-- Making identities and paths does not matter to the invariant. -/
def World.Unmoved (I : World → Prop) : Prop :=
  ∀ {w : World} {n : Nat} {s : PathStore}, I w → s.rules = w.paths.rules →
    I { w with nextId := n, paths := s }

theorem Upkeep.unmoved {R : SinkHit → Prop} (hI : Upkeep e M R I) : World.Unmoved I :=
  fun hw hs => hI.rest hw ⟨rfl, rfl, rfl, rfl, rfl, hs, rfl, rfl⟩

theorem World.conditionalCalls_addNeighbor (w : World) (f other : Fact) (merge : Bool) :
    (w.addNeighbor f other merge).2.rules.conditionalCalls = w.rules.conditionalCalls := by
  obtain ⟨n, hn⟩ := w.addNeighbor_eq f other merge
  rw [hn]

/-- An invariant about nothing but the messages and the rules for paths. -/
theorem Upkeep.of_outbox {J : List Message → PathRules → Prop} (habort : M .abort)
    (hsend : ∀ {m l rules}, M m → J l rules → J (m :: l) rules) :
    Upkeep e M (fun _ => True) fun w => J w.outbox w.paths.rules where
  rest hw h := by
    rw [h.outbox, h.pathRules]
    exact hw
  send hw hm := hsend hm hw
  global := Track.addGlobal_of_send (fun _ _ hw => hw) fun _ _ hw hm => hsend hm hw

/-- An invariant about nothing but how paths are made and which calls are covered. -/
theorem Upkeep.of_kept
    (hI : ∀ {w w' : World}, I w → w'.paths.rules = w.paths.rules →
      w'.rules.conditionalCalls = w.rules.conditionalCalls → I w') :
    Upkeep.Always e I where
  rest hw h := hI hw h.pathRules h.conditionalCalls
  send hw _ := hI hw rfl rfl
  hit hw _ _ := hI hw rfl rfl
  again hw _ _ := World.addNeighbor_of fun _ => hI hw rfl rfl
  close hw _ _ := hI hw rfl rfl
  global := Track.addGlobal_of_send (M := fun _ => True) (fun _ _ hw => hI hw rfl rfl)
    fun _ _ hw _ => hI hw rfl rfl

theorem Upkeep.ruled {r : PathRules} :
    Upkeep.Always e fun w => w.paths.rules = r :=
  .of_kept fun hw hrules _ => hrules.trans hw

/-- The statement was found to be a source, and in some world with `I` the oracle answers so. -/
def Env.Answers (e : Env) (I : World → Prop) (n : StmtId) (info : SourceInfo) : Prop :=
  e.isSource n = true ∧
    ∃ w, I w ∧ ((e.oracle.source? e.program (e.stmt n)).run w.paths).1 = some info

/-- The call is registered to hand aliases with the activation statement back. -/
def World.Activating (w : World) (call unit : StmtId) : Prop :=
  ∃ a, w.activations[unit]? = some a ∧ call ∈ a.calls

/-- Passing the statement makes the fact active: it waits for the statement, or for one that the
call is registered for. -/
def Fact.WakesAt (f : Fact) (I : World → Prop) (n : StmtId) : Prop :=
  f.waitsFor = some n ∨ ∃ w u, I w ∧ f.waitsFor = some u ∧ w.Activating n u

/-- The world after the call was registered for aliases that wait for a statement. -/
def World.register (w : World) (e : Env) (unit call : StmtId) : World :=
  let old := w.activations[unit]?.getD {}
  { w with activations :=
      w.activations.insert unit ⟨old.calls ++ [call], old.methods ++ [e.graph.methodOf call]⟩ }

/-- The call may be registered for aliases that leave the callee: those that wait for one of its
statements, or for something that it calls. -/
def World.Registers (e : Env) (I : World → Prop) (call : StmtId) (callee : MethodId) : Prop :=
  ∀ w unit, I w →
    e.graph.methodOf unit = callee ∨ callee ∈ (w.activations[unit]?.getD {}).methods →
    I (w.register e unit call)

/-- The call is entered with a conditional fact. -/
def World.coverCall (w : World) (k : StmtId × Taint) : World :=
  { w with rules := { w.rules with conditionalCalls := w.rules.conditionalCalls.insert k } }

/-- The fact may enter the call in the context as a conditional one, if it is one. -/
def World.Covers (e : Env) (I : World → Prop) (call : StmtId) (d1 f : Fact) : Prop :=
  e.isConditional f = true → ∀ w, I w → I (w.coverCall (call, d1.toTaint))

/-- Facts that are as `H` says may be recorded at the statement. -/
def Stmt.Records (e : Env) (R : SinkHit → Prop) (H : Fact → Prop) (s : Stmt) : Prop :=
  ∀ ⦃g d path⦄, e.isSink s.id = true → e.oracle.sink? e.program s path = some d → H g →
    g.waitsFor = none → R ⟨d, g, s.id⟩

/-- What a statement may do with facts that are as `H` says: the facts it creates are so too, and
what is asked for there may be asked for. -/
structure Stmt.Suits (e : Env) (M : Message → Prop) (I : World → Prop) (r : Region)
    (H : Fact → Prop) (s : Stmt) : Prop where
  creates {f : Fact} {info : SourceInfo} {a : AccessPath} {i : Nat} : e.isZero f = true → H f →
    e.Answers I s.id info → a ∈ info.paths →
    H (.ofSource i ⟨info.definition, a.toPath, s.id, none⟩ a.cut false false)
  sends : r.Sends e H s.id M

namespace Track
variable {R : SinkHit → Prop} {r : Region} {d1 g : Fact} {a : AccessPath} {p : Option AccessPath}
  {s : Stmt} {stmt : Option StmtId}

section
variable (hI : World.Unmoved I)
include hI

theorem fresh_fits : Keeps e I fresh :=
  fun _ hw => ⟨trivial, hI hw rfl⟩

theorem paths_fits {α : Type} {act : Paths α} {Q : α → Prop} (h : act.Gives Q) :
    Keeps e I (paths act) Q := by
  intro w hw
  obtain ⟨hq, hs⟩ := h _ w.paths rfl
  exact ⟨hq, hI hw hs⟩

variable (hH : Fact.Heritable H)
include hH

theorem derive_fits (hf : H f) (hp : Paths.RootedOpt (f.scope P) p) :
    Keeps e I (derive f p stmt) (Fact.FitsOpt P H) :=
  (fresh_fits hI).bind fun _ _ => .pure (Fact.fits_deriveAs? hH hf hp)

theorem make_derive_fits {act : Paths (Option AccessPath)}
    (hact : act.Gives (Paths.RootedOpt (f.scope P))) (hf : H f) :
    Keeps e I (do derive f (← paths act) stmt) (Fact.FitsOpt P H) :=
  (paths_fits hI hact).bind fun _ hp => derive_fits hI hH hf hp

theorem deriveAt_fits (hf : f.Fits P H) {stmt : StmtId} :
    Keeps e I (deriveAt f stmt) (Fact.FitsOpt P H) :=
  derive_fits hI hH hf.kind (.some hf.rooted)

end

/-! ## Messages -/

theorem sendEdge_fits (hI : Upkeep e M R I) {side : Side} {n : StmtId}
    (hm : M (.edge side d1 n f)) : Keeps e I (sendEdge side d1 n f) := by
  refine .read ?_
  dsimp only
  exact .ite (.modify trivial fun _ hw => hI.send hw hm) <| .pure trivial

/-! ## Sources and results -/

end Track

namespace Oracle
variable {r : Region} {s : Stmt} {o : Oracle}

/-- Everything that a source taints is rooted in the scope. -/
abbrev Tainting (P : Local → Prop) (i : Option SourceInfo) : Prop :=
  ∀ x ∈ i, ∀ a ∈ x.paths, Path.Rooted P a.toPath

theorem source?_gives (hr : r.Closed e) (hs : r.HasStmt e s) :
    (o.source? e.program s).Gives (Tainting r.locals) := by
  intro rules
  refine source?_keeps (fun _ hv => Paths.ofValue_gives hv rules)
    (fun _ _ hact => (hr.within_assign hs hact).1) (fun c hc => ?_)
    (fun _ _ _ hact => hr.within hs (by simp [Stmt.values, hact])) (fun _ _ _ h => h) fun _ h => h
  obtain ⟨hbase, hargs⟩ := hr.within_call hs hc
  exact ⟨fun l hl => Value.within_var.mpr (hbase l hl), hargs⟩

end Oracle

namespace Track
variable {R : SinkHit → Prop} {r : Region} {d1 g : Fact} {a : AccessPath} {p : Option AccessPath}
  {s : Stmt} {set : FactSet} {n call : StmtId}

theorem sourceInfo_fits (hI : World.Unmoved I) (hr : r.Closed e) (hn : r.stmts n) : Keeps e I
    (sourceInfo n) fun i => Oracle.Tainting r.locals i ∧ ∀ info ∈ i, e.Answers I n info := by
  refine .read (.dite (fun hsource w hw => ?_) fun _ =>
    .pure ⟨all_none, all_none⟩)
  obtain ⟨htaints, hrules⟩ := Oracle.source?_gives (o := e.oracle) hr ⟨n, hn, rfl⟩ _ w.paths rfl
  exact ⟨⟨htaints, fun _ hinfo => ⟨hsource, w, hw, hinfo⟩⟩, hI hw hrules⟩

theorem sinkInfo_fits {path : Option Path} :
    Keeps e I (sinkInfo s path) fun o => ∀ d ∈ o, e.oracle.sink? e.program s path = some d :=
  .read (.pure fun _ hd => hd)

/-- What is made of the fact is recorded; after that no more is wanted only where results are
limited. -/
theorem addResult_fits (hI : Upkeep e M R I)
    {d : Definition} (hR : ∀ g, f.Continues g → g.toTaint = f.observedAt n → R ⟨d, g, n⟩) :
    Keeps e I (addResult d f n) fun more => more = false → e.resultLimit.isSome ∧ ∃ h, R h := by
  have hhit : ∀ id, R (SinkHit.recorded ⟨d, f, n⟩ id) := by
    intro id
    have hg : f.derive? id (some f.accessPath) (some n) f.implicit = some
        { f.move id f.accessPath (some n) with implicit := f.implicit } := rfl
    obtain ⟨hwait, hhistory⟩ := Fact.continues_derive? _ hg
    have htaint := Fact.toTaint_derive? _ hg
    exact hR _ ⟨hwait, hhistory⟩ htaint
  refine (addResult_of (c := ⟨d, f, n⟩) (fun hw => ?_) (fun hw => hI.hit hw (hhit _))
    (fun hw hold => hI.again hw hold (hhit _)) fun hw => hI.send hw hI.abort).mono
    fun _ hmore hfalse => ⟨hmore hfalse, _, hhit 0⟩
  exact hI.rest hw ⟨rfl, rfl, rfl, rfl, rfl, rfl, rfl, rfl⟩

/-! ## Activation of aliases -/

theorem isActivating_fits {unit : Option StmtId} : Keeps e I
    (isActivating call unit) fun b => b → ∃ w u, I w ∧ unit = some u ∧ w.Activating call u := by
  refine .read ?_
  split
  · next u =>
    refine .ite (.get fun w hw => .pure fun hcalls => ⟨w, u, hw, rfl, ?_⟩) <|
      .pure nofun
    cases ha : w.activations[u]? with
    | none => simp [ha] at hcalls
    | some a => exact ⟨a, ha, by simpa [ha] using hcalls⟩
  · exact .pure nofun

theorem registerActivation_fits {callee : MethodId} (hreg : World.Registers e I call callee) :
    Keeps e I (registerActivation call callee f) := by
  refine .read ?_
  split
  · next u _ =>
    refine .guard trivial ?_
    -- What is registered was looked up in the same world.
    intro w hw
    refine ⟨trivial, ?_⟩
    change I (StateT.run (ReaderT.run (ite _ _ _ : Track Bool) e) w).2
    split
    · exact hw
    · split
      · exact hw
      · next hleaves =>
        refine hreg w u hw ?_
        by_cases hown : e.graph.methodOf u = callee
        · exact .inl hown
        · exact .inr (by simpa [hown] using hleaves)
  · exact .pure trivial

theorem activateAt_fits (hI : World.Unmoved I) (hf : f.Fits P H)
    (hnow : f.WakesAt I n → ∀ i, H (f.activate i)) :
    Keeps e I (activateAt f n) (Fact.Fits P H) := by
  have hactive : f.WakesAt I n → Keeps e I (do return f.activate (← fresh)) (Fact.Fits P H) :=
    fun hwakes => (fresh_fits hI).bind fun i _ =>
      .pure ((hf.imp fun _ => trivial).activate (hnow hwakes i))
  refine .guard hf <| .dite (fun hunit => ?_) fun _ => ?_
  · exact hactive (.inl (by simpa using hunit))
  · refine isActivating_fits.bind fun b hb => .dite (fun htrue => ?_) fun _ => .pure hf
    exact hactive (.inr (hb htrue))

theorem stampCall_fits (hI : World.Unmoved I) (hH : Fact.Heritable H)
    (hset : set.All (Fact.Fits P H)) :
    Keeps e I (stampCall f call set) (FactSet.All (Fact.Fits P H)) := by
  refine .mapM fun g hg => .guard (hset g hg) ?_
  exact (fresh_fits hI).bind fun _ _ => .pure ((hset g hg).withCall hH)

/-! ## Questions about aliases -/

theorem ofValue_fits (hI : World.Unmoved I) {deep : Bool} :
    Keeps e I (paths (Paths.ofValue v deep)) :=
  (paths_fits hI (Paths.ofValue_gives (P := fun _ => True) fun _ _ => trivial)).mono
    fun _ _ => trivial

section
variable (hI : World.Unmoved I) {x : Value}
include hI

theorem mayAliasValues_fits {y : Value} : Keeps e I (mayAliasValues x y) :=
  mayAliasValues_keeps (fun _ => ofValue_fits hI) fun _ => ofValue_fits hI

theorem anyMayAlias_fits {vs : List Value} : Keeps e I (anyMayAlias vs x) :=
  anyMayAlias_keeps fun _ _ => mayAliasValues_fits hI

theorem holdsTaint_fits : Keeps e I (holdsTaint v f) :=
  holdsTaint_keeps fun _ _ => mayAliasValues_fits hI

theorem asks_fits : c.Asks e I f :=
  ⟨fun _ _ => holdsTaint_fits hI, fun _ _ => holdsTaint_fits hI⟩

theorem mayAlias_fits (ha : a.toPath.Rooted P) : Keeps e I (mayAlias a v) (Paths.RootedOpt P) :=
  mayAlias_keeps (Q := fun b => b.toPath.Rooted P) ha
    (fun _ _ _ _ _ _ => paths_fits hI (Paths.make_gives (Paths.within_root ha))) fun _ => ofValue_fits hI

end
end Track
end LeakTrace
