import LeakTrace.Proofs.Assignments.Rules

/-!
# Casts that objects survive

A cast is taken for feasible if one of the two types can hold the other; the points-to oracle by type
and the typing rule both ask this. An object of a class can be held by all supertypes of the class,
so **the answers are right exactly if the supertypes of every class stand in line**: of any two, one
is a supertype of the other. One class with two unrelated interfaces is enough to get a wrong answer
from all three.
-/

namespace LeakTrace
namespace Hierarchy
variable {h : Hierarchy} {s t : Ty} {n m : String}

/-- Some class has objects that both types can hold. -/
def ShareObjects (h : Hierarchy) (s t : Ty) : Prop :=
  ∃ d, h.canStore (.cls d) s = true ∧ h.canStore (.cls d) t = true

/-- Some class has objects that the type can hold, that the base of the path can be, and that have the
first field of the path. -/
def CastFeasible (h : Hierarchy) (p : Path) (t : Ty) : Prop :=
  ∃ d, h.canStore (.cls d) t = true ∧ (∀ s ∈ p.ty, h.canStore (.cls d) s = true) ∧
    ∀ step ∈ p.steps.head?, h.canStore (.cls d) step.field.ownerTy = true

/-- Of two supertypes of one class, one is a supertype of the other. -/
def InLine (h : Hierarchy) : Prop :=
  ∀ d n m, h.isSubtype d n = true → h.isSubtype d m = true →
    h.isSubtype n m = true ∨ h.isSubtype m n = true

def properParents (h : Hierarchy) (c : String) : List String :=
  (h.parents c).filter (· != Ty.objectName)

/-- No class has two direct supertypes besides the root class, and the root class has none. -/
def SingleInheritance (h : Hierarchy) : Prop :=
  (∀ p ∈ h.parents Ty.objectName, p = Ty.objectName) ∧
    ∀ c, ∀ p ∈ h.properParents c, ∀ q ∈ h.properParents c, p = q

theorem castable_cls_iff : h.castable (.cls n) (.cls m) ↔ h.isSubtype n m ∨ h.isSubtype m n := by
  have hself : n = m → h.isSubtype n m := by
    rintro rfl
    simp [isSubtype]
  simp only [castable, canStore_cls_cls, Ty.isPrimitive, Bool.or_eq_true, beq_iff_eq]
  grind

theorem ShareObjects.symm (hst : h.ShareObjects s t) : h.ShareObjects t s := by
  obtain ⟨d, hs, ht⟩ := hst
  exact ⟨d, ht, hs⟩

theorem shareObjects_cls {d : String} (hn : h.isSubtype d n) (hm : h.isSubtype d m) :
    h.ShareObjects (.cls n) (.cls m) :=
  ⟨d, by rwa [canStore_cls_cls], by rwa [canStore_cls_cls]⟩

theorem castable_of_inLine (hline : h.InLine) (hst : h.ShareObjects s t) : h.castable t s := by
  obtain ⟨d, hs, ht⟩ := hst
  obtain ⟨n, rfl, hn⟩ := canStore_cls_iff.mp hs
  obtain ⟨m, rfl, hm⟩ := canStore_cls_iff.mp ht
  exact castable_cls_iff.mpr (hline d m n hm hn)

theorem leads_properParents (hroot : ∀ p ∈ h.parents Ty.objectName, p = Ty.objectName)
    (hm : m ≠ Ty.objectName) (hnm : Leads h.parents n m) : Leads h.properParents n m := by
  induction hnm with
  | refl => exact .refl
  | @tail a b _ hab ih =>
    have ha : a ≠ Ty.objectName := by
      rintro rfl
      exact hm (hroot b hab)
    exact (ih ha).tail (by simpa [properParents, hm] using hab)

theorem SingleInheritance.inLine (hsingle : h.SingleInheritance) : h.InLine := by
  have hunique : Relator.RightUnique fun a b => b ∈ h.properParents a :=
    fun c p q hp hq => hsingle.2 c p hp q hq
  have hparents {n m : String} (hnm : Leads h.properParents n m) : h.isSubtype n m :=
    isSubtype_iff_leads.mpr (.inr (hnm.lift id fun _ _ hab => (List.mem_filter.mp hab).1))
  intro d n m hn hm
  by_cases hnroot : n = Ty.objectName
  · exact .inr (isSubtype_iff_leads.mpr (.inl hnroot))
  by_cases hmroot : m = Ty.objectName
  · exact .inl (isSubtype_iff_leads.mpr (.inl hmroot))
  have hdn := leads_properParents hsingle.1 hnroot ((isSubtype_iff hnroot).mp hn)
  have hdm := leads_properParents hsingle.1 hmroot ((isSubtype_iff hmroot).mp hm)
  exact (Relation.ReflTransGen.total_of_right_unique hunique hdn hdm).imp hparents hparents

end Hierarchy

/-! ## Who asks -/

open Hierarchy

variable {h : Hierarchy} {e : Env} {d1 f : Fact} {s dest : Stmt} {t : Ty} {l : Local}

theorem PointsTo.mayAlias_of_shareObjects {x y : Local} (hxy : h.ShareObjects x.ty y.ty) :
    PointsTo.byType.mayAlias h (.local x) (.local y) = h.castable x.ty y.ty := by
  obtain ⟨d, hx, hy⟩ := hxy
  have hxref : x.ty.isReference := isReference_of_canStore hx
  have hyref : y.ty.isReference := isReference_of_canStore hy
  by_cases heq : x = y
  · simp [mayAlias, localsOverlap, heq, hyref, castable]
  · simp [mayAlias, localsOverlap, heq, hxref, hyref]

/-- At a feasible cast the check of a path comes down to casts of its base and of the owner of its
first field. -/
theorem Casts.checkPath_of_feasible {c : Casts} {p : Path} (hon : c.enabled)
    (hbase : p.base = some l) (hp : c.hierarchy.CastFeasible p t) :
    c.checkPath p t ↔ (∀ u ∈ p.ty, c.hierarchy.castable t u) ∧
      ∀ step ∈ p.steps.head?, c.hierarchy.castable t step.field.ownerTy := by
  obtain ⟨d, ht, -⟩ := hp
  obtain ⟨n, rfl, -⟩ := canStore_cls_iff.mp ht
  have hstatic : p.isStaticField = false := by simp [Path.isStaticField, hbase]
  have harray : (Ty.cls n).isPrimitiveArray = false := rfl
  simp only [checkPath, check, hon, hstatic, harray, Path.rootTy?]
  cases p.ty <;> cases p.steps <;> simp

/-- The typing rule has no opinion unless the cast of the base cannot succeed. -/
theorem Rule.typing_silent_iff {rhs : Value} (hrhs : s.rhs? = some rhs) :
    RuleM.Silent e (fun _ => True) (typing.normal d1 f s dest) ↔ ¬ miscasts e f.path rhs := by
  have htells : RuleM.Tells e (fun _ => True) (typing.normal d1 f s dest)
      (miscasts e f.path rhs) (· = none) := typing_normal_tells hrhs
  constructor
  · intro hsilent hmiscast
    have hkept := (hsilent {} {} trivial).1.1
    rw [(htells {} {} trivial).1.1] at hkept
    simp [hmiscast] at hkept
  · exact fun hno => htells.of_iff (iff_of_false hno id)

/-! ## Right answers -/

theorem castable_iff_inLine (h : Hierarchy) :
    (∀ s t, h.ShareObjects s t → h.castable t s) ↔ h.InLine := by
  constructor
  · intro hcast d n m hn hm
    exact castable_cls_iff.mp (hcast (.cls m) (.cls n) (shareObjects_cls hm hn))
  · exact fun hline _ _ => castable_of_inLine hline

theorem mayAlias_iff_inLine (h : Hierarchy) :
    (∀ x y : Local, h.ShareObjects x.ty y.ty →
      PointsTo.byType.mayAlias h (.local x) (.local y)) ↔ h.InLine := by
  constructor
  · intro halias d n m hn hm
    have hshare := shareObjects_cls hn hm
    have hxy := halias ⟨0, "x", .cls n⟩ ⟨1, "y", .cls m⟩ hshare
    rw [PointsTo.mayAlias_of_shareObjects hshare] at hxy
    exact castable_cls_iff.mp hxy
  · intro hline x y hxy
    rw [PointsTo.mayAlias_of_shareObjects hxy]
    exact castable_of_inLine hline hxy.symm

/-- `y = (m) x` for a local `x` of class `n`. -/
def castingStmt (n m : String) : Stmt :=
  ⟨0, 0, .assign (.var ⟨1, "y", .cls m⟩) (.cast (.cls m) (.var ⟨0, "x", .cls n⟩))⟩

def castFact (n : String) : Fact where
  id := 1
  path := { base := some ⟨0, "x", .cls n⟩, ty := some (.cls n) }

theorem typing_silent_iff_inLine (hon : e.config.typeChecking) :
    (∀ d1 f s dest t l, s.rhs? = some (.cast t (.var l)) → f.path.base = some l →
      e.hierarchy.CastFeasible f.path t →
      RuleM.Silent e (fun _ => True) (Rule.typing.normal d1 f s dest)) ↔ e.hierarchy.InLine := by
  constructor
  · intro hsilent d n m hn hm
    have hfeasible : e.hierarchy.CastFeasible (castFact n).path (.cls m) := by
      refine ⟨d, by rwa [canStore_cls_cls], ?_, all_none⟩
      rintro _ ⟨⟩
      rwa [canStore_cls_cls]
    have hno := (Rule.typing_silent_iff rfl).mp
      (hsilent (castFact n) (castFact n) (castingStmt n m) (castingStmt n m) _ _ rfl rfl hfeasible)
    have hcheck : e.casts.checkPath (castFact n).path (.cls m) := by
      by_contra hcheck
      exact hno ⟨_, _, rfl, rfl, Bool.eq_false_iff.mpr hcheck⟩
    have hcast := ((Casts.checkPath_of_feasible hon rfl hfeasible).mp hcheck).1 _ rfl
    exact (castable_cls_iff.mp hcast).symm
  · intro hline d1 f s dest t l hrhs hbase hfeasible
    rw [Rule.typing_silent_iff hrhs]
    rintro ⟨t', l', hcast, -, hcheck⟩
    cases hcast
    have hpasses := (Casts.checkPath_of_feasible (c := e.casts) hon hbase hfeasible).mpr
    obtain ⟨d, ht, hbases, howners⟩ := hfeasible
    simp [hpasses ⟨fun u hu => castable_of_inLine hline ⟨d, hbases u hu, ht⟩,
      fun step hstep => castable_of_inLine hline ⟨d, howners step hstep, ht⟩⟩] at hcheck

/-- **Feasible casts are told exactly if the supertypes of every class stand in line**: no cast that
some object survives is refused, no two locals that can hold one object are said to be apart, and no
taint ends at such a cast. Single inheritance is enough. -/
theorem casts_sound_iff_inLine (h : Hierarchy) :
    ((∀ s t, h.ShareObjects s t → h.castable t s = true) ↔ h.InLine) ∧
    ((∀ x y : Local, h.ShareObjects x.ty y.ty →
      PointsTo.byType.mayAlias h (.local x) (.local y) = true) ↔ h.InLine) ∧
    (∀ e : Env, e.hierarchy = h → e.config.typeChecking = true →
      ((∀ d1 f s dest t l, s.rhs? = some (.cast t (.var l)) → f.path.base = some l →
        h.CastFeasible f.path t →
        RuleM.Silent e (fun _ => True) (Rule.typing.normal d1 f s dest)) ↔ h.InLine)) ∧
    (h.SingleInheritance → h.InLine) := by
  refine ⟨castable_iff_inLine h, mayAlias_iff_inLine h, ?_, SingleInheritance.inLine⟩
  rintro e rfl hon
  exact typing_silent_iff_inLine hon

def classesOnly (h : Hierarchy) : Env where
  graph := { (default : Graph) with program := { hierarchy := h } }

theorem kennel_casts_sound :
    kennel.SingleInheritance ∧ (∀ s t, kennel.ShareObjects s t → kennel.castable t s = true) ∧
      RuleM.Silent (classesOnly kennel) (fun _ => True) (Rule.typing.normal
        (castFact "app.Animal") (castFact "app.Animal") (castingStmt "app.Animal" "app.Dog")
        (castingStmt "app.Animal" "app.Dog")) := by
  have hsingle : kennel.SingleInheritance := by
    refine ⟨by decide +kernel, fun c => ?_⟩
    simp only [properParents, parents, info?, kennel, List.foldl_cons, List.foldl_nil]
    split_ifs <;> simp
  obtain ⟨hcast, -, hrule, hline⟩ := casts_sound_iff_inLine kennel
  refine ⟨hsingle, hcast.mpr (hline hsingle), ?_⟩
  refine (hrule (classesOnly kennel) rfl rfl).mpr (hline hsingle) _ _ _ _ _ _ rfl rfl ?_
  exact ⟨"app.Dog", by decide +kernel, by decide +kernel, by decide +kernel⟩

def pond : Hierarchy :=
  ⟨[⟨"app.Swims", { isInterface := true }⟩, ⟨"app.Walks", { isInterface := true }⟩,
    ⟨"app.Frog", { interfaces := ["app.Swims", "app.Walks"] }⟩]⟩

/-- A frog that swims may well walk, but no local that can hold the one may hold the other, and the
taint of what swims ends where it is made to walk. -/
theorem frog_lost_in_cast :
    pond.canStore (.cls "app.Frog") (.cls "app.Swims") = true ∧
      pond.canStore (.cls "app.Frog") (.cls "app.Walks") = true ∧
      pond.castable (.cls "app.Walks") (.cls "app.Swims") = false ∧
      PointsTo.byType.mayAlias pond (.local ⟨0, "x", .cls "app.Swims"⟩)
        (.local ⟨1, "y", .cls "app.Walks"⟩) = false ∧
      (((Rule.typing.normal (castFact "app.Swims") (castFact "app.Swims")
        (castingStmt "app.Swims" "app.Walks") (castingStmt "app.Swims" "app.Walks")).run
          {}).run (classesOnly pond) |>.run {}).1.2.all = true := by
  decide +kernel

end LeakTrace
