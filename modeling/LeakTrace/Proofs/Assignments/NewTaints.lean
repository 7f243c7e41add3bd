import LeakTrace.Proofs.Alias.Covering
import LeakTrace.Proofs.Path.Targets

/-!
# Where the taints of an assignment come from and go to

Every taint that an assignment adds has two ends. **It comes from the right side**: one of the
values used there is the root of the taint that was read. **It goes to the left side**, be it
through the array rule or through the transfer, with one exception: a static field that is
overwritten by a field loses its own name to the field that was read.
-/

namespace LeakTrace
open List Track
open FactSet (All AllOpt)

variable {e : Env} {w : World} {d1 f g : Fact} {s : Stmt} {lhs rhs v : Value} {a b : AccessPath}
  {p : Path}

/-! ## How a value reads a taint -/

/-- The value, or one that is used in it, is the root of the path. -/
def Value.UsesRoot (v : Value) (p : Path) : Prop := ∃ u ∈ v :: v.uses, p.startsWith u = true

/-- What is known about the way in which a value reads the taint of a path. The first field is cut
off exactly if the value is a field and the path goes on behind its root; without room for fields
there may be nothing to cut. -/
structure Reading.Through (r : Reading) (v : Value) (p : Path) (limit : Nat) : Prop where
  uses : v.UsesRoot p
  nonempty : r.path.isEmpty = false
  cut : r.cutFirst = true →
    ∃ read, v.readField? = some read ∧ r.path.firstField? = some read ∧ p.steps.isEmpty = false
  whole : r.cutFirst = false → 0 < limit → v.readField?.isSome = true → p.steps.isEmpty = true

namespace Track
variable {r : Reading} {rules : PathRules} {I : World → Prop} {ty : Option Ty} {part : ArrayPart}
  {n : Option StmtId}

/-- Whatever happens to the world, paths are made by the same rules. -/
abbrev ByRules (rules : PathRules) (w : World) : Prop := w.paths.rules = rules

theorem byRules_unmoved : World.Unmoved (ByRules rules) := fun hw hs => hs.trans hw

/-- The answer of the alias query is the path itself, where it covers the read, or goes on behind
the field that is read. -/
theorem mayAlias_through (hplain : e.config.aliasing.isInteractive = false) :
    Keeps e (ByRules rules) (mayAlias a v) fun o => ∀ q ∈ o,
    (a.CoversRead v ∧ q = a) ∨ ∃ base g, v = .field base g ∧ a.base = some base ∧ a.steps.isEmpty =
    false ∧ q.isEmpty = false ∧ (0 < rules.settings.length → q.firstField? = some g) := by
  intro w hw
  have hworld : ByRules rules (((mayAlias a v).run e).run w).2 :=
    (mayAlias_fits (P := fun _ => True) byRules_unmoved (fun _ _ => trivial) w hw).2
  refine ⟨fun q hq => ?_, hworld⟩
  obtain ⟨hself, hother⟩ := mayAlias_answers (w := w) (a := a) (v := v) hplain
  by_cases hcovers : a.CoversRead v
  · exact .inl ⟨hcovers, Option.some.inj (hq.symm.trans (hself hcovers))⟩
  · obtain ⟨base, g, rfl, hbase, hsteps, hunfolded⟩ := hother hcovers q hq
    obtain ⟨t, stretch, -, hstretch, hpath⟩ := PathStore.unfolded?_eq_some hunfolded
    have hroot : q.base = some base :=
      PathRules.base_canon_var (by simp [AccessPath.expansion, hbase]) q hpath
    refine .inr ⟨base, g, rfl, hbase, by simpa using hsteps, by simp [Path.isEmpty, hroot], ?_⟩
    intro hpos
    rw [← hw] at hpos
    have hfirst := (PathStore.stretch?_eq_some hstretch).2
    exact (PathRules.firstField?_expansion hbase hfirst hpos hpath).2

theorem usesRoot_base {base : Local} {g : Field} (hbase : f.path.base = some base) :
    (Value.field base g).UsesRoot f.path :=
  ⟨.var base, by simp [Value.uses], by simp [Path.startsWith, hbase]⟩

section
variable (hplain : e.config.aliasing.isInteractive = false) (hpath : f.path.isEmpty = false)
include hplain hpath

theorem reading?_through : Keeps e
    (ByRules rules) (reading? f v) fun o => ∀ r ∈ o, r.Through v f.path rules.settings.length := by
  refine .read ?_
  dsimp only
  split
  · next g =>
    refine (mayAlias_through hplain).bind fun o ho =>
      .guard all_none <| .pure fun r hr => ?_
    obtain ⟨q, hq, rfl⟩ := Option.map_eq_some_iff.mp hr
    rcases ho q hq with ⟨⟨hstatic, hfirst⟩, rfl⟩ | ⟨_, _, hv, -⟩
    · have hsteps : f.path.steps.isEmpty = false := by
        simpa [Fact.accessPath] using (Bool.and_eq_true_iff.mp hstatic).2
      refine ⟨⟨.global g, mem_cons_self, ?_⟩, hpath, fun _ => ⟨g, rfl, hfirst, hsteps⟩, ?_⟩
      · exact Path.startsWith_iff.mpr (.inr (.inr ⟨g, rfl, hstatic, hfirst⟩))
      · intro h
        cases h
    · cases hv
  · next base g =>
    refine (mayAlias_through hplain).bind fun o ho => ?_
    split
    · next q =>
      refine .pure ?_
      rintro r ⟨⟩
      rcases ho q rfl with ⟨⟨hbase, hcovers⟩, rfl⟩ | ⟨_, _, ⟨⟩, hbase, hsteps, hempty, hfirst⟩
      · refine ⟨usesRoot_base hbase, hpath, fun h => ?_, fun h _ _ => ?_⟩
        · have hg : f.path.firstField? = some g := beq_iff_eq.mp h
          refine ⟨g, rfl, hg, ?_⟩
          cases hsteps : f.path.steps with
          | nil => simp [Path.firstField?, hsteps] at hg
          | cons => rfl
        · exact List.isEmpty_iff.mpr (hcovers.resolve_left (by simpa using h)).1
      · refine ⟨usesRoot_base hbase, hempty, fun h => ?_, fun h hpos => ?_⟩
        · exact ⟨g, rfl, beq_iff_eq.mp h, hsteps⟩
        · rw [hfirst hpos] at h
          simp at h
    · -- The base is tainted as a whole, so there is no field to cut off.
      refine (holdsTaint_plain hplain).bind fun held hheld =>
        .dite (fun _ => .pure all_none) fun hopen => ?_
      simp only [Bool.or_eq_true, Bool.not_eq_true', not_or, Bool.not_eq_false] at hopen
      obtain ⟨l, hl, ⟨⟩⟩ := hheld.mp hopen.1.1
      refine (paths_fits byRules_unmoved (Q := fun o => ∀ q ∈ o, q.base = some base) ?_).bind
        fun o ho => .pure ?_
      · exact Paths.make_holds (Q := fun q => q.base = some base) fun _ =>
          PathRules.base_canon_var rfl
      · rintro r ⟨⟩
        refine ⟨usesRoot_base hl, ?_, (fun h => by cases h), fun _ _ _ => hopen.1.2⟩
        cases o with
        | none => exact hpath
        | some q => simp [Path.isEmpty, ho q rfl]
  · refine (holdsTaint_plain hplain).bind fun held hheld =>
      .dite (fun h => .pure ?_) fun _ => .pure all_none
    rintro r ⟨⟩
    obtain ⟨l, hl, rfl⟩ := hheld.mp h
    refine ⟨⟨.var l, mem_cons_self, ?_⟩, hpath, (fun h => by cases h),
      fun _ _ h => by cases h⟩
    exact Path.startsWith_iff.mpr (.inl ⟨l, rfl, hl⟩)

/-- The first value that reads the taint is one of those that were asked. -/
theorem rightReading?_through : Keeps e (ByRules rules) (rightReading? f rhs) fun o =>
    ∀ r ∈ o, ∃ v ∈ rhs.roots true, r.Through v f.path rules.settings.length :=
  rightReading?_of (fun hempty => absurd hempty (by simp [hpath])) fun v hv =>
    (reading?_through hplain hpath).mono fun _ ho r hr => ⟨v, hv, ho r hr⟩

end

/-! ## What is written -/

theorem rebase_lands (hr : r.Through v f.path rules.settings.length)
    (hfirst : a.firstField? = r.path.firstField?) :
    Keeps e (ByRules rules) (paths (Paths.rebase a lhs ty r.cutFirst true part)) fun o =>
      ∀ b ∈ o, b.RootedAt (lhs.landing v f.path) := by
  intro w hw
  have hrules : ((Paths.rebase a lhs ty r.cutFirst true part).run w.paths).2.rules =
      w.paths.rules := (Paths.Gives.of_settled (fun _ => Paths.rebase_settled) _ w.paths rfl).2
  refine ⟨fun b hb => ?_, hrules.trans hw⟩
  rcases Paths.rebase_cases hb with ⟨l, rfl, rfl, hl⟩ | ⟨c, hc, hbc⟩
  · exact ⟨l, rfl, hl⟩
  · rw [hbc]
    cases hglobal : lhs.isGlobal with
    | false =>
      rw [Value.landing_of_not_global hglobal]
      exact PathRules.rootedAt_canon rfl (by simp [hglobal]) hc
    | true =>
      obtain ⟨h, rfl⟩ : ∃ h, lhs = .global h := by
        cases lhs <;> first | exact ⟨_, rfl⟩ | cases hglobal
      obtain ⟨hpos, hbase, hroot⟩ := PathRules.root_of_global rfl hc
      dsimp only at hroot
      unfold Value.landing
      cases hcut : r.cutFirst with
      | true =>
        obtain ⟨read, hread, hread', hsteps⟩ := hr.cut hcut
        rw [hread, hsteps]
        refine ⟨hbase, ?_⟩
        rw [hroot, if_pos hcut, ← hread', ← hfirst]
        rfl
      | false =>
        rw [if_neg (by simp [hcut])] at hroot
        cases hread : v.readField? with
        | none => exact ⟨hbase, hroot⟩
        | some read =>
          rw [hw] at hpos
          rw [hr.whole hcut hpos (by simp [hread])]
          exact ⟨hbase, hroot⟩

section
variable (hI : World.Unmoved I)
include hI

theorem ofTyped_rooted {deep : Bool} :
    Keeps e I (paths (Paths.ofTyped lhs ty deep part)) fun o => ∀ b ∈ o, b.RootedAt lhs :=
  paths_fits hI (Paths.make_holds (Q := (Path.RootedAt · lhs)) fun _ _ hb =>
    PathRules.rootedAt_canon rfl (fun _ => rfl) hb)

theorem rebase_rooted {reduce : Bool} : Keeps e I
    (paths (Paths.rebase a lhs ty false reduce part)) fun o => ∀ b ∈ o, b.RootedAt lhs := by
  refine paths_fits hI fun rules store hrules => ⟨fun b hb => ?_,
    (Paths.Gives.of_settled (fun _ => Paths.rebase_settled) rules store hrules).2⟩
  rcases Paths.rebase_cases hb with ⟨l, rfl, rfl, hl⟩ | ⟨c, hc, hbc⟩
  · exact ⟨l, rfl, hl⟩
  · rw [hbc]
    exact PathRules.rootedAt_canon rfl (fun _ => rfl) hc

theorem derive_made :
    Keeps e I (derive f (some b) n) fun o => ∃ g, o = some g ∧ g.path = b.toPath :=
  (fresh_fits hI).bind fun i _ => .pure (f.exists_deriveAs? i b n)

theorem derive_rooted {target : Value} {o : Option AccessPath} (ho : ∀ b ∈ o, b.RootedAt target) :
    Keeps e I (derive f o n) fun h => ∀ g ∈ h, g.path.RootedAt target := by
  cases o with
  | none => exact (fresh_fits hI).bind fun _ _ => .pure all_none
  | some b =>
    refine (derive_made hI).mono ?_
    rintro _ ⟨g, rfl, hg⟩ _ ⟨⟩
    rw [hg]
    exact ho b rfl

end

theorem written_lands (hv : v ∈ rhs.roots true) (hr : r.Through v f.path rules.settings.length)
    (hg : g.path = r.path.toPath) : Keeps e (ByRules rules)
    (written s lhs rhs g r) fun o => ∀ h ∈ o, h.path.RootedAt (lhs.landing v f.path) := by
  refine written_of (fresh_fits byRules_unmoved) (fun hempty => ?_) (fun u t hrhs => ?_) fun _ => ?_
  · rw [hg, hr.nonempty] at hempty
    cases hempty
  · have hlanding : lhs.landing v f.path = lhs := by
      subst hrhs
      obtain rfl := mem_singleton.mp hv
      exact Value.landing_of_readField?_eq_none rfl
    rw [hlanding]
    exact (ofTyped_rooted byRules_unmoved).bind fun o ho => derive_rooted byRules_unmoved ho
  · refine (rebase_lands hr ?_).bind fun o ho => derive_rooted byRules_unmoved ho
    rw [Fact.accessPath, hg]

/-- Some value of the right side uses the root of the first path, and the second is where the
assignment puts what that value reads. -/
def Lands (lhs rhs : Value) (p q : Path) : Prop :=
  ∃ v ∈ rhs.roots true, v.UsesRoot p ∧ q.RootedAt (lhs.landing v p)

theorem taintLeft_lands (hcond : e.isConditional d1 = false) (hv : v ∈ rhs.roots true)
    (hr : r.Through v f.path rules.settings.length) (hg : g.path = r.path.toPath) : Keeps e
    (ByRules rules) (taintLeft d1 s lhs rhs g r) (All fun h => Lands lhs rhs f.path h.path) := by
  refine taintLeft_of (G := fun _ => True) ((written_lands hv hr hg).mono fun _ ho h hh =>
    ⟨⟨v, hv, hr.uses, ho h hh⟩, fun _ => trivial⟩)
    (fun _ _ _ => Upkeep.ruled.global fun _ _ => trivial) fun h hh => ?_
  refine (computeAliases_same Upkeep.ruled (by simp [hcond])).mono ?_
  rintro _ rfl
  exact .singleton hh

theorem assign_lands (hplain : e.config.aliasing.isInteractive = false)
    (hcond : e.isConditional d1 = false) (hpath : f.path.isEmpty = false) : Keeps e
    (ByRules rules) (assign d1 s lhs rhs f) (All fun g => g = f ∨ Lands lhs rhs f.path g.path) := by
  refine assign_of (Y := fun r g => g.path = r.path.toPath) (.inl rfl)
    (rightReading?_through hplain hpath) (fun _ _ hsame => hsame.symm) (fun _ _ => ?_)
    fun r g hr hg => ?_
  · refine (derive_made byRules_unmoved).mono ?_
    rintro _ ⟨g, rfl, hg⟩ _ ⟨⟩
    exact hg
  · obtain ⟨v, hv, hr⟩ := hr
    exact (taintLeft_lands hcond hv hr hg).mono fun _ hset h hh => .inr (hset h hh)

end Track

/-! ## What the rules add -/

theorem Path.isOn_iff : p.isOn v ↔ ∃ l, v = .var l ∧ p.base = some l := by
  unfold Path.isOn
  cases v <;> simp [Value.local?, @eq_comm _ (some _)]

namespace Rule
variable {rules : PathRules} {dest : Stmt}

section
variable (hplain : e.config.aliasing.isInteractive = false)
include hplain

theorem readsTaint_var {I : World → Prop} :
    Keeps e I (readsTaint f v) fun reads => reads → ∃ l, v = .var l ∧ f.path.base = some l := by
  unfold readsTaint
  cases hbase : f.path.base with
  | none => exact .pure (by simp)
  | some l =>
    refine (mayAliasValues_plain hplain).mono ?_
    rintro _ rfl h
    have hvar : (Value.var l == v) := (Bool.and_eq_true_iff.mp h).2
    cases v with
    | var k => exact ⟨k, rfl, by simpa [Value.var_beq] using hvar⟩
    | _ => cases hvar

/-- Arrays are read by their elements and lengths, or by the size of a new one; none of these is a
field. -/
theorem throughArray_lands : Keeps e
    (ByRules rules) (throughArray f s lhs rhs) fun o => ∀ g ∈ o, Lands lhs rhs f.path g.path := by
  -- Whichever value is read, the left side is where its taint goes.
  have hderive {o : Option AccessPath} (ho : ∀ b ∈ o, b.RootedAt lhs)
      (hread : ∃ v ∈ rhs.roots true, v.UsesRoot f.path ∧ v.readField? = none) :
      Keeps e (ByRules rules) (derive f o (some s.id)) fun o =>
        ∀ g ∈ o, Lands lhs rhs f.path g.path := by
    obtain ⟨v, hv, huses, hfield⟩ := hread
    refine (derive_rooted byRules_unmoved ho).mono fun o ho g hg => ⟨v, hv, huses, ?_⟩
    rw [Value.landing_of_readField?_eq_none hfield]
    exact ho g hg
  refine .read ?_
  dsimp only
  split
  · next op =>
    refine (readsTaint_var hplain).bind fun reads hreads =>
      .dite (fun _ => .pure all_none) fun hopen => ?_
    obtain ⟨l, rfl, hl⟩ := hreads (by simp_all)
    refine (ofTyped_rooted byRules_unmoved).bind fun o ho => hderive ho ?_
    refine ⟨.var l, mem_singleton_self _, ⟨.var l, mem_cons_self, ?_⟩, rfl⟩
    simp [Path.startsWith, hl]
  · next base index =>
    refine .guard all_none <| .dite (fun hbase => ?_) fun _ =>
      .dite (fun hindex => ?_) fun _ => .pure all_none
    · refine (rebase_rooted byRules_unmoved).bind fun o ho => hderive ho ?_
      refine ⟨.element base index, mem_singleton_self _, ⟨.var base, ?_, hbase⟩, rfl⟩
      simp [Value.uses]
    · refine (rebase_rooted byRules_unmoved).bind fun o ho => hderive ho ?_
      obtain ⟨l, rfl, hl⟩ := Path.isOn_iff.mp (Bool.and_eq_true_iff.mp hindex).1
      refine ⟨.element base (.var l), mem_singleton_self _, ⟨.var l, ?_, ?_⟩, rfl⟩
      · simp [Value.uses]
      · exact beq_iff_eq.mpr hl
  · next ty size =>
    refine .guard all_none <| (readsTaint_var hplain).bind
      fun reads hreads => .dite (fun _ => .pure all_none) fun hopen => ?_
    obtain ⟨l, rfl, hl⟩ := hreads (by simp_all)
    refine (rebase_rooted byRules_unmoved).bind fun o ho => hderive ho ?_
    refine ⟨.allocArray ty (.var l), mem_singleton_self _, ⟨.var l, ?_, ?_⟩, rfl⟩
    · simp [Value.uses]
    · simp [Path.startsWith, hl]
  · exact .pure all_none

theorem array_normal_lands (hcond : e.isConditional d1 = false) (hact : s.action = .assign lhs rhs) :
    RuleM.Keeps e (ByRules rules) (array.normal d1 f s dest)
      (AllOpt fun g => g = f ∨ Lands lhs rhs f.path g.path) := by
  unfold array
  dsimp only
  rw [hact]
  refine .guard .none <|
    .lift_bind (throughArray_lands hplain) fun o ho => ?_
  split
  · exact .pure .none
  · next g =>
    have hlands : AllOpt (fun g => g = f ∨ Lands lhs rhs f.path g.path) (some [g]) :=
      .some (.singleton (.inr (ho g rfl)))
    refine .ite ?_ <| .pure hlands
    refine .lift_bind (computeAliases_same Upkeep.ruled (by simp [hcond])) ?_
    rintro _ rfl
    exact .pure hlands

theorem applyNormal_lands
    (hflows : e.config.implicitFlows.tracksControlFlow = false) (hcond : e.isConditional d1 = false)
    (hzero : e.isZero f = false) (hact : s.action = .assign lhs rhs) : RuleM.Keeps e (ByRules rules)
    (applyNormal (chain e) d1 f s dest) (All fun g => g = f ∨ Lands lhs rhs f.path g.path) := by
  have hruled : Upkeep.Always e (ByRules rules) := .ruled
  refine applyNormal_assign_keeps hact hzero (.inl rfl)
    (recordIfRead_keeps (fun _ _ => anyMayAlias_fits hruled.unmoved) fun _ _ =>
      record_fits hruled fun _ _ _ _ _ _ => trivial) (array_normal_lands hplain hcond hact) ?_
  intro htracks
  exact absurd htracks (by simp [hflows])

end
end Rule

/-! ## Across an assignment -/

theorem Value.UsesRoot.of_roots (hv : v ∈ rhs.roots true) (h : v.UsesRoot p) : rhs.UsesRoot p := by
  obtain ⟨u, hu, hstart⟩ := h
  have hin : u.StandsIn rhs := ((mem_cons_uses_iff v).mp hu).trans (StandsIn.of_mem_roots hv)
  exact ⟨u, (mem_cons_uses_iff rhs).mpr hin, hstart⟩

namespace Forward
variable {n succ : StmtId} {rules : PathRules}

theorem passStmt_lands (hplain : e.config.aliasing.isInteractive = false)
    (hflows : e.config.implicitFlows.tracksControlFlow = false) (hcond : e.isConditional d1 = false)
    (hzero : e.isZero f = false) (hpath : f.path.isEmpty = false)
    (hact : (e.stmt n).action = .assign lhs rhs) :
    Keeps e (ByRules rules) (passStmt d1 f n succ) fun flow =>
      All (fun g => g = f ∨ Lands lhs rhs f.path g.path) flow.facts := by
  refine .read ((Rule.applyNormal_lands hplain hflows hcond hzero hact {}).bind fun p hp => ?_)
  refine .guard .nil ?_
  rw [hact]
  dsimp only
  rw [if_neg (by simp [hzero])]
  exact (assign_lands hplain hcond hpath).bind fun more hmore => .pure (hp.insertAll hmore)

/-- **New taints come from the right side and go to the left side**, or to the field that was read
where the left side is a static field. -/
theorem new_taints_rooted {k : Nat} (hplain : e.config.aliasing.isInteractive = false)
    (hflows : e.config.implicitFlows.tracksControlFlow = false) (hz : e.zero = .zero k)
    (hcond : e.isConditional d1 = false) (hpath : f.path.isEmpty = false)
    (hact : (e.stmt n).action = .assign lhs rhs) :
    ∀ g ∈ (((normal d1 f n succ).run e).run w).1.facts,
      g = f ∨ (f.waitsFor = some n ∧ ∃ i, g = f.activate i) ∨
        (∃ u ∈ rhs :: rhs.uses, f.path.startsWith u = true) ∧
          ∃ v ∈ rhs.roots true, g.path.RootedAt (lhs.landing v f.path) := by
  have hpass {f' : Fact} (hf' : f'.path = f.path) : Keeps e (ByRules w.paths.rules)
      (passStmt d1 f' n succ) fun flow =>
        All (fun g => g = f' ∨ Lands lhs rhs f'.path g.path) flow.facts := by
    rw [← hf'] at hpath
    exact passStmt_lands hplain hflows hcond (Env.isZero_of_path hz hpath) hpath hact
  have hlands {g : Fact} (h : Lands lhs rhs f.path g.path) : rhs.UsesRoot f.path ∧
      ∃ v ∈ rhs.roots true, g.path.RootedAt (lhs.landing v f.path) := by
    obtain ⟨v, hv, huses, hroot⟩ := h
    exact ⟨huses.of_roots hv, v, hv, hroot⟩
  intro g hg
  unfold normal at hg
  by_cases hwaits : f.waitsFor = some n
  · rw [if_pos (beq_iff_eq.mpr hwaits)] at hg
    have hactive : (f.activate w.nextId).path = f.path := by
      unfold Fact.activate
      split <;> rfl
    rcases (hpass hactive { w with nextId := w.nextId + 1 } rfl).1 g hg with rfl | h
    · exact .inr (.inl ⟨hwaits, w.nextId, rfl⟩)
    · rw [hactive] at h
      exact .inr (.inr (hlands h))
  · rw [if_neg (by simpa using hwaits)] at hg
    rcases (hpass rfl w rfl).1 g hg with rfl | h
    · exact .inl rfl
    · exact .inr (.inr (hlands h))

/-- `x = a.drawer` taints one thing more, behind `x`. -/
theorem unpacked_letter_behind_drawer :
    (((normal (.zero 0) letterTaint 0 1).run unpacking).run
      { paths := { rules := Paths.deskRules } }).1.facts.length = 2 ∧
    ∀ g ∈ (((normal (.zero 0) letterTaint 0 1).run unpacking).run
      { paths := { rules := Paths.deskRules } }).1.facts,
      g = letterTaint ∨ g.path.base = some drawerLocal := by
  refine ⟨by decide +kernel, fun g hg => ?_⟩
  have hact : (unpacking.stmt 0).action =
      .assign (.var drawerLocal) (.field deskLocal Paths.drawerField) := rfl
  rcases new_taints_rooted rfl rfl rfl (by decide +kernel) rfl hact g hg with
    h | ⟨hwaits, -⟩ | ⟨-, v, -, l, ⟨⟩, hroot⟩
  · exact .inl h
  · cases hwaits
  · exact .inr hroot

/-! ## A shared value -/

def boxLocal : Local := ⟨0, "box", .cls "Box"⟩

def boxedField : Field := ⟨"Box", "value", .cls "java.lang.String", false⟩

def sharing : Env where
  graph := .ofProgram (((Program.empty.openBody ⟨"App", "main", [], .void⟩ true
    [("box", .cls "Box")]).closeBody
    [.assign (.global sharedField) (.field boxLocal boxedField), .retVoid] []).addEntry 0) []
  config := { aliasing := .none }

def boxedTaint : Fact where
  id := 1
  path := { base := some boxLocal, ty := some (.cls "Box"), steps := [.of boxedField] }

/-- **The static field is not tainted.** What comes out beside the taint of the box is a taint of a
static field that has the name of the field in the box. -/
theorem shared_value_misplaced :
    (sharing.stmt 0).action = .assign (.global sharedField) (.field boxLocal boxedField) ∧
      ∃ g ∈ (((normal (.zero 0) boxedTaint 0 1).run sharing).run
          { paths := { rules := sharing.pathRules } }).1.facts,
        g.path ≠ boxedTaint.path ∧ ¬g.path.RootedAt (.global sharedField) ∧
          g.path.RootedAt (.global boxedField) := by
  have hpaths : (((normal (.zero 0) boxedTaint 0 1).run sharing).run
      { paths := { rules := sharing.pathRules } }).1.facts.map (·.path) =
      [boxedTaint.path, { steps := [.of boxedField] }] := by
    decide +kernel
  have hmem : ({ steps := [.of boxedField] } : Path) ∈
      (((normal (.zero 0) boxedTaint 0 1).run sharing).run
        { paths := { rules := sharing.pathRules } }).1.facts.map (·.path) := by
    rw [hpaths]
    exact mem_cons_of_mem _ (mem_singleton_self _)
  obtain ⟨g, hg, hpath⟩ := List.mem_map.mp hmem
  refine ⟨rfl, g, hg, ?_⟩
  rw [hpath]
  refine ⟨by decide, ?_, rfl, rfl⟩
  rintro ⟨-, hfirst⟩
  exact absurd hfirst (by decide)

end Forward
end LeakTrace
