import LeakTrace.Proofs.Assignments.Rules

/-!
# Right sides that hand nothing over

Only locals, fields and elements carry a taint, and base selection looks for one of them in the right
side: through casts, lengths and negations, and into both operands of a binary expression. It does not
look into an instance test. **So a test of a tainted object taints nothing**, whatever the option
for such tests says. The option is honoured where the taint is written, and control never comes
there.
-/

namespace LeakTrace
open FactSet (All AllOpt)

variable {e : Env} {w : World} {d1 f : Fact} {s dest : Stmt} {lhs rhs v : Value} {vs : List Value}

/-- None of the values that the expression is made of carries a taint. -/
def Value.handsNothingOver (rhs : Value) : Prop := ∀ v ∈ rhs.roots true, v.holds = false

theorem Value.isInstance_handsNothingOver (op : Value) (t : Ty) :
    (Value.isInstance op t).handsNothingOver := by
  intro v hv
  obtain rfl := List.mem_singleton.mp hv
  rfl

/-- The fact itself, or a conditional one, which names no place. -/
def Fact.OrConditional (f g : Fact) : Prop := g = f ∨ g.path.isEmpty = true

namespace Track

theorem holdsTaint_none (hv : v.holds = false) :
    Keeps e (fun _ => True) (holdsTaint v f) (· = false) := by
  unfold holdsTaint
  split
  · refine .read ?_
    rw [hv, Bool.not_false, Bool.true_or, if_pos rfl]
    exact .pure rfl
  · exact .pure rfl

theorem reading?_none (hv : v.holds = false) :
    Keeps e (fun _ => True) (reading? f v) (· = none) := by
  refine .read ?_
  dsimp only
  split
  · cases hv
  · cases hv
  · refine (holdsTaint_none hv).bind ?_
    rintro _ rfl
    exact .pure rfl

theorem firstReading?_none (hvs : ∀ v ∈ vs, v.holds = false) :
    Keeps e (fun _ => True) (firstReading? f vs) (· = none) := by
  induction vs with
  | nil => exact .pure rfl
  | cons v rest ih =>
    unfold firstReading?
    refine .guard rfl <| (reading?_none (hvs v List.mem_cons_self)).bind ?_
    rintro _ rfl
    exact ih fun u hu => hvs u (List.mem_cons_of_mem _ hu)

/-- The transfer has nothing to read, so it ends before anything is written. -/
theorem assign_of_handsNothingOver (hpath : f.path.isEmpty = false) (hrhs : rhs.handsNothingOver) :
    Keeps e (fun _ => True) (assign d1 s lhs rhs f) (All (· = f)) := by
  have hself : All (· = f) [f] := .singleton rfl
  have hreading : Keeps e (fun _ => True) (rightReading? f rhs) (· = none) := by
    unfold rightReading?
    dsimp only
    rw [if_neg (by simpa [Fact.accessPath] using hpath)]
    exact .guard rfl <| firstReading?_none hrhs
  refine .read (.guard hself <| .guard hself ?_)
  refine hreading.bind ?_
  rintro _ rfl
  exact .pure .nil

end Track

namespace Rule

theorem enter_orConditional {base : Local} :
    Track.Keeps e (fun _ => True) (enter f s base vs) (AllOpt f.OrConditional) := by
  induction vs with
  | nil => exact .pure .none
  | cons v rest ih =>
    refine .read ((Track.Keeps.any _).bind fun _ _ => .ite ?_ ih)
    refine .ite ih <| (Track.Keeps.any _).bind fun n _ =>
      .pure (.some (.singleton ?_))
    unfold Fact.enterConditional
    split
    · exact .inl rfl
    · refine .inr ?_
      change (f.move n AccessPath.empty (some s.id)).path.isEmpty
      rw [Fact.path_move]
      rfl

theorem implicit_normal_orConditional :
    RuleM.Keeps e (fun _ => True) (implicit.normal d1 f s dest) (AllOpt f.OrConditional) := by
  refine .read (.guard .none <| leavesBranch_keeps.bind fun _ _ =>
    .guard .none <| .guard .none ?_)
  split
  · exact .pure .none
  · exact .lift enter_orConditional

theorem array_normal_none (hact : s.action = .assign lhs rhs) (hreads : rhs.readsArray = false) :
    RuleM.Keeps e (fun _ => True) (array.normal d1 f s dest) (AllOpt f.OrConditional) := by
  unfold array
  dsimp only
  rw [hact]
  refine .guard .none <|
    .lift_bind (throughArray_none hreads) ?_
  rintro _ rfl
  exact .pure .none

end Rule

namespace Forward
variable {n succ : StmtId}

theorem passStmt_orConditional (hzero : e.isZero f = false)
    (hpath : f.path.isEmpty = false) (hact : (e.stmt n).action = .assign lhs rhs)
    (hreads : rhs.readsArray = false) (hrhs : rhs.handsNothingOver) : Track.Keeps e
    (fun _ => True) (passStmt d1 f n succ) fun flow => All f.OrConditional flow.facts := by
  have hrules : RuleM.Keeps e (fun _ => True)
      (Rule.applyNormal (Rule.chain e) d1 f (e.stmt n) (e.stmt succ))
      (All f.OrConditional) :=
    Rule.applyNormal_assign_keeps hact hzero (.inl rfl) (.any _)
      (Rule.array_normal_none hact hreads) fun _ => Rule.implicit_normal_orConditional
  refine .read ((hrules {}).bind fun p hp => .guard .nil ?_)
  rw [hact]
  dsimp only
  rw [if_neg (by simp [hzero])]
  exact (Track.assign_of_handsNothingOver hpath hrhs).bind fun more hmore =>
    .pure (hp.insertAll fun g hg => .inl (hmore g hg))

/-- **Testing a tainted object taints nothing.** Whatever is configured, behind `b = x instanceof T`
there is the taint of `x` and no taint of `b`. -/
theorem instance_test_taints_nothing {k : Nat} {b x : Local} {op : Value} {t : Ty}
    (hz : e.zero = .zero k) (hact : (e.stmt n).action = .assign (.var b) (.isInstance op t))
    (hactive : f.isActive = true) (hbase : f.path.base = some x) (hne : b ≠ x) :
    (∀ g ∈ (((normal d1 f n succ).run e).run w).1.facts,
      g.path.base ≠ some b ∧ (g = f ∨ g.path.isEmpty = true)) ∧
    (e.config.stopAfter = 0 → FactSet.Says (((normal d1 f n succ).run e).run w).1.facts f) := by
  have hpath : f.path.isEmpty = false := by simp [Path.isEmpty, hbase]
  have hzero : e.isZero f = false := Env.isZero_of_path hz hpath
  constructor
  · intro g hg
    have hwaits : f.waitsFor = none := Option.isNone_iff_eq_none.mp hactive
    unfold normal at hg
    rw [hwaits, if_neg (by simp)] at hg
    have hor := (passStmt_orConditional hzero hpath hact rfl
      (Value.isInstance_handsNothingOver op t) w trivial).1 g hg
    refine ⟨?_, hor⟩
    rcases hor with rfl | hempty
    · rw [hbase]
      simpa using hne.symm
    · intro hb
      simp [Path.isEmpty, hb] at hempty
  · intro hstop
    have hstart : f.path.startsWith (.var b) = false := by
      simpa [Path.startsWith, hbase] using hne.symm
    refine (normal_tells hstop hact hactive hzero hpath fun _ => hstart).2 ?_
    rintro (hover | ⟨_, _, hcast, -⟩)
    · exact absurd hover.1 (by simp [hstart])
    · cases hcast

/-! ## A parcel is tested for text -/

def parcelLocal : Local := ⟨0, "parcel", .cls "java.lang.Object"⟩

def isTextLocal : Local := ⟨1, "isText", .boolean⟩

/-- `isText = parcel instanceof String`, where tests are asked to be tainted. -/
def testing : Env where
  graph := .ofProgram (((Program.empty.openBody ⟨"App", "main", [], .void⟩ true
    [("parcel", .cls "java.lang.Object"), ("isText", .boolean)]).closeBody
    [.assign (.var isTextLocal) (.isInstance (.var parcelLocal) (.cls "java.lang.String")),
      .retVoid] []).addEntry 0) []
  config := { instanceOf := true }

def parcelTaint : Fact where
  id := 1
  path := { base := some parcelLocal, ty := some (.cls "java.lang.Object") }

theorem tested_parcel_stays :
    (∀ g ∈ (((normal (.zero 0) parcelTaint 0 1).run testing).run {}).1.facts,
      g.path.base ≠ some isTextLocal ∧ (g = parcelTaint ∨ g.path.isEmpty = true)) ∧
    FactSet.Says (((normal (.zero 0) parcelTaint 0 1).run testing).run {}).1.facts parcelTaint := by
  have hact : (testing.stmt 0).action =
      .assign (.var isTextLocal) (.isInstance (.var parcelLocal) (.cls "java.lang.String")) := rfl
  have hne : isTextLocal ≠ parcelLocal := by decide
  exact (instance_test_taints_nothing rfl hact rfl rfl hne).imp_right fun h => h rfl

/-- The option is on, the parcel is tainted, and the answer of the test is not. -/
theorem tested_parcel_unanswered :
    testing.config.instanceOf = true ∧ parcelTaint.isActive = true ∧
      parcelTaint.path.base = some parcelLocal ∧ parcelTaint.path.steps = [] ∧
      ¬ ∃ g ∈ (((normal (.zero 0) parcelTaint 0 1).run testing).run {}).1.facts,
        g.path.base = some isTextLocal := by
  refine ⟨rfl, rfl, rfl, rfl, ?_⟩
  decide +kernel

end Forward
end LeakTrace
