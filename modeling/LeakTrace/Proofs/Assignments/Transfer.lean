import LeakTrace.Proofs.Assignments.Rules
import LeakTrace.Proofs.Path.Moving

/-!
# Copies, loads and stores

What an assignment makes of a taint that it reads, where it does nothing but move a value.
**Between different locals the transfer is exact**: the taint stays, and beside it there is nothing
but the taint of the left side, on the path that the factory makes of it.

Where a local is overwritten by one of its own fields there is no such transfer. **A walk down a
list loses the taint** that it should carry along: `x = x.g` overwrites the root of every path
behind `x`, and nobody looks at what the right side reads.
-/

namespace LeakTrace
open Track

variable {e : Env} {w : World} {d1 f : Fact} {s : Stmt} {a : AccessPath} {l : Local}

/-! ## Worlds with the same paths -/

abbrev World.SamePaths (w w' : World) : Prop := w'.paths = w.paths

section SamePaths
variable {v : Value}

theorem Track.fresh_samePaths : Keeps e w.SamePaths fresh :=
  fun _ hw => ⟨trivial, hw⟩

theorem Track.addResult_samePaths {d : Definition} {n : StmtId} :
    Keeps e w.SamePaths (addResult d f n) :=
  (addResult_of (c := ⟨d, f, n⟩) id (fun hw _ => hw) (fun hw _ => World.addNeighbor_of fun _ => hw)
    id).mono fun _ _ => trivial

theorem Rule.record_samePaths : Keeps e w.SamePaths (Rule.record f s) := by
  have hinfo : Keeps e w.SamePaths (sinkInfo s (some f.path)) :=
    .read (.pure trivial)
  refine hinfo.bind fun o _ => ?_
  split
  · exact addResult_samePaths.bind fun _ _ =>
      .ite (.modify trivial fun _ hw => hw) <| .pure trivial
  · exact .pure trivial

theorem Rule.recordIfRead_samePaths (hlazy : e.config.aliasing.isLazy = false) :
    Keeps e w.SamePaths (Rule.recordIfRead f s v) := by
  refine .read (.ite ?_ <| .pure trivial)
  split
  · exact (anyMayAlias_var hlazy).bind fun _ _ =>
      .ite Rule.record_samePaths <| .pure trivial
  · exact .pure trivial

theorem Rule.enter_samePaths (hlazy : e.config.aliasing.isLazy = false) {base : Local}
    {vs : List Value} : Keeps e w.SamePaths (Rule.enter f s base vs) := by
  induction vs with
  | nil => exact .pure trivial
  | cons v rest ih =>
    refine .read ((mayAliasValues_plain hlazy).bind fun _ _ =>
      .ite ?_ ih)
    exact .ite ih <| fresh_samePaths.bind fun _ _ => .pure trivial

end SamePaths

/-! ## Copies, loads and stores -/

/-- The taint is about the field of the base, or about everything behind the base. -/
def Path.reaches (p : Path) (g : Field) : Bool :=
  match p.firstField? with
  | some h => h == g
  | none => p.deep

/-- An assignment that only moves a value: `x = y`, `o.g = y` or `x = o.g`. -/
inductive PlainAssign where
  | copy (x y : Local)
  | store (o : Local) (g : Field) (y : Local)
  | load (x o : Local) (g : Field)

namespace PlainAssign
variable {m : PlainAssign}

def lhs : PlainAssign → Value
  | copy x _ | load x _ _ => .var x
  | store o g _ => .field o g

def rhs : PlainAssign → Value
  | copy _ y | store _ _ y => .var y
  | load _ o g => .field o g

def source : PlainAssign → Local
  | copy _ y | store _ _ y => y
  | load _ o _ => o

def target : PlainAssign → Local
  | copy x _ | load x _ _ => x
  | store o _ _ => o

/-- No field of the null reference is read. -/
def ReadsObject : PlainAssign → Prop
  | load _ o _ => o.ty ≠ .null
  | _ => True

/-- The field that is read is not hidden in the path: no stretch that was folded away begins with
it. -/
def Unfolded (store : PathStore) (p : Path) : PlainAssign → Prop
  | load _ _ g => p.reaches g = true ∨
      ∀ t ∈ p.ty, ∀ stretch ∈ store.patternsFor t, stretch.head?.map (·.field) ≠ some g
  | _ => True

/-- Moves the path of a taint to the left side. A copy and a store keep what is behind the source; a
load takes its field off, or finds a part of an object that is tainted as a whole. -/
def moved (m : PlainAssign) (a : AccessPath) : Paths (Option AccessPath) :=
  match m with
  | copy x _ => Paths.rebase a (.var x) a.ty false true a.part
  | store o g _ => Paths.rebase a (.field o g) a.ty false true a.part
  | load x _ g =>
    if a.reaches g then Paths.rebase a (.var x) none (a.firstField? == some g) true a.part
    else pure none

/-- The assignment makes nothing of a taint that it does not read, and otherwise keeps it, beside
the taint of the left side if there is a path for that. -/
def Makes (m : PlainAssign) (store : PathStore) (f : Fact) (n : StmtId) (set : FactSet) : Prop :=
  (m.moved f.accessPath = pure none ∧ set = []) ∨ ∃ i,
    set = FactSet.insert (f.deriveAs? i ((m.moved f.accessPath).run store).1 (some n)
      f.implicit).toList f

def reading? (m : PlainAssign) (a : AccessPath) : Option Reading :=
  match m with
  | copy _ _ | store _ _ _ => some { path := a, ty := a.ty }
  | load _ _ g =>
    if a.reaches g then some { path := a, cutFirst := a.firstField? == some g } else none

theorem moved_of_reading? {r : Reading} (h : m.reading? a = some r) :
    r.path = a ∧ m.moved a = Paths.rebase a m.lhs r.ty r.cutFirst true a.part := by
  cases m with
  | load x o g =>
    obtain ⟨hreaches, ⟨⟩⟩ := Option.ite_none_right_eq_some.mp h
    exact ⟨rfl, if_pos hreaches⟩
  | _ =>
    cases h
    exact ⟨rfl, rfl⟩

theorem moved_of_reading?_eq_none (h : m.reading? a = none) : m.moved a = pure none := by
  cases m with
  | load x o g => exact if_neg fun hreaches => by simp [reading?, hreaches] at h
  | _ => cases h

end PlainAssign

namespace Track
variable {m : PlainAssign} {I : World → Prop} {g : Field}

theorem firstReading?_single {v : Value} {o : Option Reading}
    (hnull : ∀ b g, v = .field b g → b.ty ≠ .null) (h : Keeps e I (reading? f v) (· = o)) :
    Keeps e I (firstReading? f [v]) (· = o) := by
  unfold firstReading?
  refine .dite (fun honNull => ?_) fun _ => h.bind ?_
  · split at honNull
    · next b g => exact absurd (beq_iff_eq.mp honNull) (hnull b g rfl)
    · cases honNull
  · intro r hr
    subst hr
    cases r <;> exact .pure rfl

theorem coverFields_unfolded {a : AccessPath} {g : Field} (hroot : a.isStaticField = false)
    (hunfolded : ∀ w, I w → a.reaches g ∨ ∀ t ∈ a.ty, ∀ stretch ∈ w.paths.patternsFor t,
      stretch.head?.map (·.field) ≠ some g) :
    Keeps e I (coverFields a (some g)) (· = if a.reaches g then some a else none) := by
  unfold coverFields
  dsimp only
  cases hsteps : a.steps.head? with
  | none =>
    have hreaches : a.reaches g = a.deep := by simp [Path.reaches, Path.firstField?, hsteps]
    rw [hreaches]
    exact .pure rfl
  | some st =>
    have hreaches : a.reaches g = (st.field == g) := by
      simp [Path.reaches, Path.firstField?, hsteps]
    rw [hreaches] at hunfolded ⊢
    refine .dite (fun hg => .pure (if_pos hg).symm) fun hg => ?_
    rw [if_neg hg, if_neg (by simp [hroot])]
    refine .get fun w hw => ?_
    have hnone : ((a.ty.map w.paths.patternsFor).getD []).find?
        (fun p => (p.head?.map (·.field)) == some g) = none := by
      refine List.find?_eq_none.mpr fun stretch hstretch => ?_
      cases hty : a.ty with
      | none => simp [hty] at hstretch
      | some t =>
        have hno := (hunfolded w hw).resolve_left hg t hty stretch (by simpa [hty] using hstretch)
        simpa using hno
    rw [hnone]
    exact .pure rfl

variable {r : Reading}

theorem written_plain (hpath : f.path.isEmpty = false) (hr : m.reading? f.accessPath = some r) :
    w.Ends e (written s m.lhs m.rhs f r) fun o _ => ∃ i,
      o = f.deriveAs? i ((m.moved f.accessPath).run w.paths).1 (some s.id) f.implicit := by
  rw [(PlainAssign.moved_of_reading? hr).2]
  refine .read ?_
  dsimp only
  rw [if_neg (by simpa [Fact.accessPath] using hpath)]
  cases m <;> exact ⟨w.nextId, rfl⟩

theorem taintLeft_plain (hpath : f.path.isEmpty = false) (hcond : e.isConditional d1 = false)
    (hr : m.reading? f.accessPath = some r) :
    w.Ends e (taintLeft d1 s m.lhs m.rhs f r) fun set _ => ∃ i,
      set = (f.deriveAs? i ((m.moved f.accessPath).run w.paths).1 (some s.id)
        f.implicit).toList := by
  have hlocal : m.lhs.isGlobal = false := by cases m <;> rfl
  have hworld : Upkeep.Always e fun _ => True :=
    ⟨fun _ _ => trivial, fun _ _ => trivial, trivial, fun _ _ _ => trivial, fun _ _ _ => trivial,
      fun _ _ _ => trivial, fun _ _ _ => ⟨trivial, trivial⟩⟩
  refine .read ?_
  rw [if_neg (by simp [hlocal])]
  refine (written_plain hpath hr).bind ?_
  rintro o w' ⟨i, ho⟩
  cases o with
  | none => exact ⟨i, by rw [← ho]; rfl⟩
  | some g =>
    have hset : Keeps e (fun _ => True) (if s.canCreateAliases m.lhs g.path then
        computeAliases d1 s.id m.lhs [g] s.method g else return [g]) (· = [g]) :=
      .ite (computeAliases_same hworld (by simp [hcond])) <| .pure rfl
    dsimp only
    rw [hlocal, Bool.false_and, if_neg Bool.false_ne_true]
    exact (hset.ends trivial).mono fun set _ hset => ⟨i, by rw [← ho, hset.1]; rfl⟩

section
variable (hlazy : e.config.aliasing.isLazy = false)
include hlazy

theorem holdsTaint_base (hl : f.path.base = some l) : Keeps e I (holdsTaint (.var l) f) (·) := by
  unfold holdsTaint
  rw [hl]
  refine (mayAliasValues_plain hlazy).mono ?_
  rintro _ rfl
  simp [Value.holds, Value.var_beq]

theorem reading?_var {y : Local} (hbase : f.path.base = some y) :
    Keeps e I (reading? f (.var y)) (· = some { path := f.accessPath, ty := f.accessPath.ty }) := by
  refine .read ((holdsTaint_base hlazy hbase).bind ?_)
  rintro _ rfl
  exact .pure rfl

theorem reading?_field {o : Local} {g : Field} (hbase : f.path.base = some o)
    (hunfolded : ∀ w, I w → f.path.reaches g ∨ ∀ t ∈ f.path.ty,
      ∀ stretch ∈ w.paths.patternsFor t, stretch.head?.map (·.field) ≠ some g) :
    Keeps e I (reading? f (.field o g)) (· = if f.path.reaches g then
      some { path := f.accessPath, cutFirst := f.path.firstField? == some g } else none) := by
  have hroot : f.path.isStaticField = false := by simp [Path.isStaticField, hbase]
  have hcover : Keeps e I (mayAlias f.accessPath (.field o g))
      (· = if f.path.reaches g then some f.accessPath else none) := by
    have hplain : e.config.aliasing.isInteractive = false := hlazy
    refine .read ?_
    dsimp only
    rw [if_neg (by simp [Value.holds]), if_neg (by simp [hplain])]
    rw [if_neg (by simp [Fact.accessPath, hbase]), if_neg (by simp [Value.isGlobal])]
    exact coverFields_unfolded hroot hunfolded
  refine .read (hcover.bind ?_)
  rintro _ rfl
  by_cases hreaches : f.path.reaches g
  · rw [if_pos hreaches, if_pos hreaches]
    exact .pure rfl
  · rw [if_neg hreaches, if_neg hreaches]
    refine (holdsTaint_base hlazy hbase).bind ?_
    rintro _ rfl
    -- Neither has the path the field, nor is it tainted as a whole.
    have hno : f.path.steps.isEmpty = false ∨ f.path.deep = false := by
      unfold Path.reaches Path.firstField? at hreaches
      cases hsteps : f.path.steps with
      | nil => simpa [hsteps] using hreaches
      | cons => exact .inl rfl
    rw [if_pos (by simpa [Fact.accessPath] using hno)]
    exact .pure rfl

variable (hactive : f.isActive) (hbase : f.path.base = some m.source) (hobject : m.ReadsObject)
include hactive hbase hobject

theorem rightReading?_plain (hunfolded : ∀ w, I w → m.Unfolded w.paths f.path) :
    Keeps e I (rightReading? f m.rhs) (· = m.reading? f.accessPath) := by
  have hpath : f.accessPath.isEmpty = false := by simp [Fact.accessPath, Path.isEmpty, hbase]
  unfold rightReading?
  dsimp only
  rw [if_neg (by simp [hpath]), if_neg (by simp [hactive])]
  cases m with
  | copy x y => exact firstReading?_single (fun _ _ h => by cases h) (reading?_var hlazy hbase)
  | store o g y => exact firstReading?_single (fun _ _ h => by cases h) (reading?_var hlazy hbase)
  | load x o g =>
    refine firstReading?_single ?_ (reading?_field hlazy hbase hunfolded)
    rintro _ _ ⟨⟩
    exact hobject

theorem assign_plain (hunfolded : m.Unfolded w.paths f.path) (hcond : e.isConditional d1 = false) :
    w.Ends e (assign d1 s m.lhs m.rhs f) fun set _ => m.Makes w.paths f s.id set := by
  have hpath : f.path.isEmpty = false := by simp [Path.isEmpty, hbase]
  have hread : Keeps e w.SamePaths (rightReading? f m.rhs) (· = m.reading? f.accessPath) := by
    refine rightReading?_plain hlazy hactive hbase hobject fun w' hw' => ?_
    rwa [hw']
  refine .read ?_
  rw [if_neg (by cases m <;> exact Bool.false_ne_true), if_neg (by simp [hcond])]
  refine (hread.ends rfl).bind ?_
  rintro _ w' ⟨rfl, hw'⟩
  cases hr : m.reading? f.accessPath with
  | none => exact .inl ⟨PlainAssign.moved_of_reading?_eq_none hr, rfl⟩
  | some r =>
    unfold assignRead
    dsimp only
    rw [if_neg (by simp [hactive]), (PlainAssign.moved_of_reading? hr).1,
      if_pos (by simp [AccessPath.same]), pure_bind]
    refine (taintLeft_plain hpath hcond hr).bind ?_
    rintro _ _ ⟨i, rfl⟩
    rw [hw']
    exact .inr ⟨i, rfl⟩

end
end Track

namespace PlainAssign
variable {m : PlainAssign} {b : AccessPath} {store : PathStore}

theorem not_startsWith_lhs (m : PlainAssign) {p : Path} (hbase : p.base = some m.source)
    (hdistinct : m.target ≠ m.source) : p.startsWith m.lhs = false := by
  have hne : (p.base == some m.target) = false := by simpa [hbase] using hdistinct.symm
  cases m with
  | store o g y => exact Bool.and_eq_false_iff.mpr (.inl hne)
  | _ => exact hne

theorem base_of_moved (h : ((m.moved a).run store).1 = some b) (hl : b.base = some l) :
    l = m.target := by
  have hwithin : m.lhs.Within (· = m.target) := by
    cases m <;> simp [lhs, target]
  cases hr : m.reading? a with
  | none =>
    rw [moved_of_reading?_eq_none hr] at h
    cases h
  | some r =>
    rw [(moved_of_reading? hr).2] at h
    exact (Paths.rebase_gives hwithin _ store rfl).1 b h l hl

end PlainAssign

theorem Fact.deriveAs?_of_path_ne {n : Option StmtId} (h : a.toPath ≠ f.path) (i : Nat) :
    f.deriveAs? i (some a) n f.implicit = some (f.move i a n) := by
  have hpath : (f.path == a.toPath) = false := by simpa using h.symm
  have himplicit : { f.move i a n with implicit := f.implicit } = f.move i a n := by
    unfold move
    split <;> rfl
  simp only [deriveAs?, hpath, Bool.false_and, Bool.false_eq_true, if_false, derive?,
    Option.map_some, himplicit]

theorem Fact.exists_deriveAs? (f : Fact) (i : Nat) (a : AccessPath) (n : Option StmtId) :
    ∃ g, f.deriveAs? i (some a) n f.implicit = some g ∧ g.path = a.toPath := by
  unfold deriveAs?
  dsimp only
  split
  · next hsame =>
    simp only [Bool.and_eq_true, beq_iff_eq] at hsame
    exact ⟨f, rfl, hsame.1.1⟩
  · exact ⟨_, rfl, path_move⟩

theorem FactSet.insertAll_insert_of_path_ne {g : Fact} (h : g.path ≠ f.path) :
    FactSet.insertAll [f] (FactSet.insert [g] f) = [f, g] := by
  have hne : g.toTaint ≠ f.toTaint := fun heq => h (congrArg Taint.path heq)
  simp [insertAll, insert, contains, Fact.same, hne, hne.symm]

namespace Forward
variable {m : PlainAssign} {n succ : StmtId}

theorem normal_plain (hlazy : e.config.aliasing.isLazy = false) (hstop : e.config.stopAfter = 0)
    (hact : (e.stmt n).action = .assign m.lhs m.rhs) (hobject : m.ReadsObject)
    (hcond : e.isConditional d1 = false) (hzero : e.isZero f = false) (hactive : f.isActive)
    (hbase : f.path.base = some m.source) (hunfolded : m.Unfolded w.paths f.path)
    (hlocal : f.path.isLocal → f.path.startsWith m.lhs = false)
    (hkept : ¬ Rule.overwrites f (e.stmt n) m.lhs) :
    w.Ends e (normal d1 f n succ) fun flow _ => ∃ out set,
      (e.config.implicitFlows.tracksControlFlow = false → out = none) ∧
        m.Makes w.paths f (e.stmt n).id set ∧
        flow.facts = FactSet.insertAll (FactSet.insert (out.getD []) f) set := by
  have hpath : f.path.isEmpty = false := by simp [Path.isEmpty, hbase]
  have hreads : m.rhs.readsArray = false := by cases m <;> rfl
  have hkills : ¬ (Rule.overwrites f (e.stmt n) m.lhs ∨ Rule.miscasts e f.path m.rhs) := by
    rintro (hover | ⟨t, l, hcast, -, -⟩)
    · exact hkept hover
    · cases m <;> cases hcast
  have hrules : Rule.Told e w.SamePaths (fun r => r.normal d1 f (e.stmt n) (e.stmt succ))
      (Rule.chain e) none _ _ :=
    Rule.applyNormal_told hact hlocal hstop hzero hpath (Rule.recordIfRead_samePaths hlazy)
      (fun _ => Rule.enter_samePaths hlazy) (.inl hreads)
  have hassign (w' : World) (hw' : w.SamePaths w') :
      w'.Ends e (assign d1 (e.stmt n) m.lhs m.rhs f) fun set _ =>
        m.Makes w.paths f (e.stmt n).id set := by
    rw [← hw'] at hunfolded ⊢
    exact assign_plain hlazy hactive hbase hobject hunfolded hcond
  refine (normal_assign (I := w.SamePaths) hact hactive hzero rfl hrules hassign).mono ?_
  rintro flow _ ⟨-, hflow⟩
  obtain ⟨out, set, hout, hset, hfacts⟩ := hflow hkills
  exact ⟨out, set, fun hflows => hout hflows hreads, hset, hfacts⟩

/-- **Between different locals a taint is moved exactly.** The taint itself stays, and nothing comes
to it but the taint of the left side, if there is a path for it. -/
theorem plain_assign_exact (hplain : e.config.aliasing.isInteractive = false)
    (hflows : e.config.implicitFlows.tracksControlFlow = false) (hstop : e.config.stopAfter = 0)
    (hact : (e.stmt n).action = .assign m.lhs m.rhs) (hdistinct : m.target ≠ m.source)
    (hobject : m.ReadsObject) (hcond : e.isConditional d1 = false) (hzero : e.isZero f = false)
    (hactive : f.isActive = true) (hbase : f.path.base = some m.source)
    (hunfolded : m.Unfolded w.paths f.path) :
    ∃ i, (((normal d1 f n succ).run e).run w).1.facts =
      f :: (((m.moved f.accessPath).run w.paths).1.map
        fun a => f.move i a (some (e.stmt n).id)).toList := by
  have hstart : f.path.startsWith m.lhs = false := m.not_startsWith_lhs hbase hdistinct
  have hkept : ¬ Rule.overwrites f (e.stmt n) m.lhs := fun h => absurd h.1 (by simp [hstart])
  have hflow : w.Ends e (normal d1 f n succ) _ :=
    normal_plain hplain hstop hact hobject hcond hzero hactive hbase hunfolded (fun _ => hstart)
      hkept
  obtain ⟨out, set, hout, hset, hfacts⟩ := hflow
  rw [hfacts, hout hflows]
  change ∃ i, FactSet.insertAll [f] set = _
  rcases hset with ⟨hmoved, rfl⟩ | ⟨i, rfl⟩
  · exact ⟨0, by rw [hmoved]; rfl⟩
  · refine ⟨i, ?_⟩
    cases hmoved : ((m.moved f.accessPath).run w.paths).1 with
    | none => simp [Fact.deriveAs?, FactSet.insertAll, FactSet.insert, FactSet.contains, Fact.same]
    | some a =>
      have hne : a.toPath ≠ f.path := by
        intro heq
        have hroot : a.base = some m.source := (congrArg Path.base heq).trans hbase
        exact hdistinct (m.base_of_moved hmoved hroot).symm
      rw [Fact.deriveAs?_of_path_ne hne]
      exact FactSet.insertAll_insert_of_path_ne (by rwa [Fact.path_move])

/-! ## A letter taken out of a drawer -/

def deskLocal : Local := ⟨0, "a", .cls "Desk"⟩

def drawerLocal : Local := ⟨1, "x", .cls "Drawer"⟩

def unpacking : Env where
  graph := .ofProgram (((Program.empty.openBody ⟨"App", "main", [], .void⟩ true
    [("a", .cls "Desk"), ("x", .cls "Drawer")]).closeBody
    [.assign (.var drawerLocal) (.field deskLocal Paths.drawerField), .retVoid] []).addEntry 0) []

def letterTaint : Fact where
  id := 1
  path := Paths.letterInDrawer.toPath

/-- The letter is in the drawer of the desk, and also in the drawer that was taken out. -/
theorem unpacked_letter_tainted :
    ∃ i a, a.toPath = Paths.letterInDrawer.rerooted (.var drawerLocal) [.of Paths.letterField] 5
        .both ∧
      (((normal (.zero 0) letterTaint 0 1).run unpacking).run
        { paths := { rules := Paths.deskRules } }).1.facts =
        [letterTaint, letterTaint.move i a (some 0)] := by
  have hact : (unpacking.stmt 0).action =
      .assign (.var drawerLocal) (.field deskLocal Paths.drawerField) := rfl
  have hobject : deskLocal.ty ≠ .null := by decide
  have hmove : ∃ i, (((normal (.zero 0) letterTaint 0 1).run unpacking).run
      { paths := { rules := Paths.deskRules } }).1.facts = _ :=
    plain_assign_exact (m := .load drawerLocal deskLocal Paths.drawerField) rfl rfl rfl hact
      (by decide) hobject rfl rfl rfl rfl (.inl rfl)
  obtain ⟨i, hfacts⟩ := hmove
  have hmoved := Paths.run_rebase_cut letterTaint.accessPath (.var drawerLocal) none true .both
    { rules := Paths.deskRules }
  have hcanon : (Paths.deskRules.canon { value := some (.var drawerLocal)
                                         steps := letterTaint.path.steps
                                         cutFirst := true }).path.map (·.toPath) =
      some (Paths.letterInDrawer.rerooted (.var drawerLocal) [.of Paths.letterField] 5 .both) := by
    decide +kernel
  obtain ⟨a, ha, hpath⟩ := Option.map_eq_some_iff.mp (hmoved.trans hcanon)
  refine ⟨i, a, hpath, hfacts.trans ?_⟩
  change letterTaint :: (((Paths.rebase letterTaint.accessPath (.var drawerLocal) none true true
    .both).run { rules := Paths.deskRules }).1.map
      fun a => letterTaint.move i a (some 0)).toList = _
  rw [ha]
  rfl

/-! ## Down a list -/

/-- **A local that is overwritten by its own field loses what the field holds**, whatever the
factory would make of it, unless the taint was made active by this very statement. -/
theorem self_load_keeps_only_just_activated {x : Local} {g : Field} (hstop : e.config.stopAfter = 0)
    (hact : (e.stmt n).action = .assign (.var x) (.field x g)) (hzero : e.isZero f = false)
    (hactive : f.isActive = true) (hbase : f.path.base = some x)
    (hfirst : f.path.firstField? = some g) :
    (Rule.justActivated f (e.stmt n).id = false →
      (((normal d1 f n succ).run e).run w).1.facts = []) ∧
    (Rule.justActivated f (e.stmt n).id = true → e.config.aliasing.isInteractive = false →
      x.ty ≠ .null → e.isConditional d1 = false → ∀ a,
        ((Paths.rebase f.accessPath (.var x) none true true f.path.part).run w.paths).1 = some a →
          ∃ h ∈ (((normal d1 f n succ).run e).run w).1.facts, h.path = a.toPath) := by
  have hlocal : f.path.isLocal → f.path.startsWith (.var x) = false := by
    cases hsteps : f.path.steps with
    | nil => simp [Path.firstField?, hsteps] at hfirst
    | cons => simp [Path.isLocal, hsteps]
  constructor
  · intro hjust
    have hkills : Rule.overwrites f (e.stmt n) (.var x) :=
      ⟨by simp [Path.startsWith, hbase], by simp [hactive], hjust⟩
    have hpath : f.path.isEmpty = false := by simp [Path.isEmpty, hbase]
    exact (normal_tells hstop hact hactive hzero hpath hlocal).1 (.inl hkills)
  · intro hjust hplain hobject hcond a ha
    have hkept : ¬ Rule.overwrites f (e.stmt n) (.var x) := fun h => absurd h.2.2 (by simp [hjust])
    have hreaches : f.accessPath.reaches g := by
      simp [Path.reaches, Fact.accessPath, hfirst]
    have hcut : (f.accessPath.firstField? == some g) := by simp [Fact.accessPath, hfirst]
    have hmoved : (PlainAssign.load x x g).moved f.accessPath =
        Paths.rebase f.accessPath (.var x) none true true f.path.part := by
      rw [PlainAssign.moved, if_pos hreaches, hcut]
      rfl
    have hflow : w.Ends e (normal d1 f n succ) _ :=
      normal_plain (m := .load x x g) hplain hstop hact hobject hcond hzero hactive hbase
        (.inl hreaches) hlocal hkept
    obtain ⟨out, set, -, hset, hfacts⟩ := hflow
    rw [hfacts]
    rcases hset with ⟨hnone, -⟩ | ⟨i, rfl⟩
    · rw [← hmoved, hnone] at ha
      cases ha
    · rw [hmoved, ha]
      obtain ⟨h, hderived, hpath⟩ := f.exists_deriveAs? i a (some (e.stmt n).id)
      rw [hderived]
      have hsays : FactSet.Says (FactSet.insert [h] f) h :=
        (FactSet.says_insert _ h f).mpr (.inl List.mem_cons_self)
      obtain ⟨k, hk, heq⟩ := List.mem_map.mp ((FactSet.says_insertAll _ _).mpr (.inr hsays))
      exact ⟨k, hk, (congrArg Taint.path heq).trans hpath⟩

def nodeLocal : Local := ⟨0, "n", .cls "Node"⟩

def nextField : Field := ⟨"Node", "next", .cls "Tail", false⟩

def valueField : Field := ⟨"Node", "value", .cls "java.lang.String", false⟩

/-- `n = n.next`, where the next node is of a class of its own. -/
def walking : Env where
  graph := .ofProgram (((((Program.empty.addClass "Node" {}).addClass "Tail"
    { superclass := some "Node" }).openBody ⟨"App", "main", [], .void⟩ true
    [("n", .cls "Node")]).closeBody
    [.assign (.var nodeLocal) (.field nodeLocal nextField), .retVoid] []).addEntry 0) []

def nextTaint : Fact where
  id := 1
  path := { base := some nodeLocal, ty := some (.cls "Node")
            steps := [.of nextField, .of valueField] }

/-- The same taint, which was an alias until the assignment made it active. -/
def wokenTaint : Fact :=
  { nextTaint with id := 2, pred := some { nextTaint with waitsFor := some 0 } }

def valuePath : Path :=
  { base := some nodeLocal, ty := some (.cls "Node"), steps := [.of valueField] }

theorem walking_moves_value :
    ∃ a, ((Paths.rebase nextTaint.accessPath (.var nodeLocal) none true true .both).run
      { rules := walking.pathRules }).1 = some a ∧ a.toPath = valuePath := by
  refine Option.map_eq_some_iff.mp ?_
  rw [Paths.run_rebase_cut]
  decide +kernel

theorem walking_keeps_woken :
    ∃ h ∈ (((normal (.zero 0) wokenTaint 0 1).run walking).run
      { paths := { rules := walking.pathRules } }).1.facts, h.path = valuePath := by
  obtain ⟨a, ha, hpath⟩ := walking_moves_value
  have hact : (walking.stmt 0).action = .assign (.var nodeLocal) (.field nodeLocal nextField) := rfl
  rw [← hpath]
  exact (self_load_keeps_only_just_activated (f := wokenTaint) rfl hact rfl rfl rfl rfl).2
    (by decide +kernel) rfl (by decide) rfl a ha

/-- There is a path for the taint on the other side of `n = n.next`, and yet nothing comes out. -/
theorem walking_loses_value :
    nextTaint.isActive = true ∧ walking.isZero nextTaint = false ∧
    (∃ a, ((Paths.rebase nextTaint.accessPath (.var nodeLocal) none true true .both).run
      { rules := walking.pathRules }).1 = some a ∧ a.toPath = valuePath) ∧
    (((normal (.zero 0) nextTaint 0 1).run walking).run
      { paths := { rules := walking.pathRules } }).1.facts.length = 0 :=
  ⟨by decide, by decide +kernel, walking_moves_value, by decide +kernel⟩

end Forward
end LeakTrace
