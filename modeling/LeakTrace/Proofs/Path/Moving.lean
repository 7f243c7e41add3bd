import LeakTrace.Proofs.Scope.Roots

/-!
# Paths that are moved through a field

Reading a field takes it off the path: what was below `b.f` is below `v` after `v = b.f`. The path
is moved by a request for `v` with the chain of the old path behind it, whose first step is to be
dropped.

**The first step of the whole chain is dropped.** That is the field that was read where `v` is a
local. A field makes a step of its own, which stands in front: it is dropped in place of the one
that was read, and `p.g = b.f` moves `b.f.h` to `p.f.h`.
-/

namespace LeakTrace

/-- The steps that lead from the root of a value to the value itself. -/
def Value.ownSteps : Value → List Step
  | .field _ f | .global f => [.of f]
  | _ => []

/-- The path from the root of the value along a chain that is cut to the limit. For the rest it is
like `p`. -/
def Path.rerooted (p : Path) (v : Value) (steps : List Step) (limit : Nat) (part : ArrayPart) :
    Path where
  base := v.base?
  ty := v.base?.map (·.ty)
  steps := steps.take limit
  deep := p.deep || limit < steps.length
  part := part
  immutable := p.immutable

theorem Path.rerooted_cons_inj {p : Path} {v : Value} {x y : Step} {steps : List Step} {n : Nat}
    {part : ArrayPart} (hn : 0 < n) :
    p.rerooted v (x :: steps) n part = p.rerooted v (y :: steps) n part ↔ x = y := by
  constructor
  · intro h
    have hsteps : (x :: steps).take n = (y :: steps).take n := congrArg Path.steps h
    obtain ⟨m, rfl⟩ := Nat.exists_eq_add_one_of_ne_zero hn.ne'
    rw [List.take_succ_cons, List.take_succ_cons] at hsteps
    exact (List.cons.inj hsteps).1
  · rintro rfl
    rfl

variable {r : PathRules} {q : PathRequest} {v : Value} {a c : AccessPath} {ty : Option Ty}
  {part : ArrayPart} {reduce : Bool}

theorem PathRequest.place?_of_isTracked (hvalue : q.value = some v) (hv : v.isTracked) :
    q.place? none = some ⟨v.base?, v.base?.map (·.ty), v.ownSteps ++ q.steps⟩ := by
  unfold place?
  rw [hvalue]
  cases v with
  | var | field | global => rfl
  | _ => cases hv

namespace PathRules

/-- Chains are shortened to their length and by nothing else, and types do not matter. -/
structure Unreduced (r : PathRules) : Prop where
  positive : 0 < r.settings.length
  foldRecursive : r.settings.foldRecursive = false
  foldOuterThis : r.settings.foldOuterThis = false
  collapseRepeats : r.settings.collapseRepeats = false
  casts : r.casts.enabled = false

theorem Unreduced.prepare (hr : r.Unreduced) (steps : List Step) :
    r.prepare q steps = if q.cutFirst then steps.drop 1 else steps := by
  have hlength : (r.settings.length == 0) = false := beq_eq_false_iff_ne.mpr hr.positive.ne'
  unfold PathRules.prepare
  rw [hr.collapseRepeats, hlength]
  rfl

theorem Unreduced.shorten (hr : r.Unreduced) (p : Place) : (r.shorten q p).steps = p.steps := by
  unfold PathRules.shorten
  rw [hr.foldRecursive, hr.foldOuterThis]
  rfl

/-- Without reductions a path is what the request says, cut to the limit. -/
theorem Unreduced.toPath_canon (hr : r.Unreduced) (hvalue : q.value = some v)
    (hv : v.isTracked) (hc : (r.canon q).path = some c) :
    let chain := v.ownSteps ++ q.steps
    c.toPath = Path.rerooted { deep := q.deep, immutable := q.immutable } v
      (if q.cutFirst then chain.drop 1 else chain) r.settings.length q.part := by
  obtain ⟨p0, p1, hp0, hp1, -, -, rfl⟩ := path_canon_eq_some_iff.mp hc
  rw [hr.casts, if_neg Bool.false_ne_true, PathRequest.place?_of_isTracked hvalue hv] at hp0
  obtain rfl := Option.some.inj hp0
  rw [narrow_of_disabled hr.casts, hr.prepare] at hp1
  obtain rfl := Option.some.inj hp1
  rw [hr.shorten]
  rfl

end PathRules

/-- The path is at the value already, with this type and part. -/
def AccessPath.isAt (a : AccessPath) (v : Value) (ty : Option Ty) (cutFirst : Bool)
    (part : ArrayPart) : Bool :=
  match a.base, v with
  | some b, .var l => b == l && a.ty == ty && a.part == part && !cutFirst
  | _, _ => false

namespace Paths

theorem run_remake (unchanged : Bool) (q : PathRequest) (s : PathStore) :
    ((if unchanged then pure (some a) else do
      match ← make q with
      | some b => return some (if b.same a then a else b)
      | none => return none : Paths (Option AccessPath)).run s).1 =
      if unchanged then some a
      else (s.rules.canon q).path.map fun b => if b.same a then a else b := by
  cases unchanged with
  | true => rfl
  | false =>
    rw [if_neg Bool.false_ne_true, if_neg Bool.false_ne_true, ← run_make, StateT.run_bind]
    change ((match ((make q).run s).1 with
      | some b => pure (some (if b.same a then a else b))
      | none => pure none : Paths (Option AccessPath)).run ((make q).run s).2).1 = _
    cases ((make q).run s).1 <;> rfl

theorem run_rebase (a : AccessPath) (v : Value) (ty : Option Ty) (cutFirst reduce : Bool)
    (part : ArrayPart) (s : PathStore) :
    ((rebase a v ty cutFirst reduce part).run s).1 =
      if a.isAt v ty cutFirst part then some a
      else (s.rules.canon { value := some v, ty, steps := a.steps, deep := a.deep, cutFirst, reduce
                            part, immutable := a.immutable }).path.map
        fun b => if b.same a then a else b :=
  run_remake _ _ s

theorem run_rebase_cut (a : AccessPath) (v : Value) (ty : Option Ty) (reduce : Bool)
    (part : ArrayPart) (s : PathStore) :
    (((rebase a v ty true reduce part).run s).1).map (·.toPath) =
      (s.rules.canon { value := some v, ty, steps := a.steps, deep := a.deep, cutFirst := true
                       reduce, part, immutable := a.immutable }).path.map (·.toPath) := by
  have hanew : a.isAt v ty true part = false := by
    unfold AccessPath.isAt
    split
    · rw [Bool.not_true, Bool.and_false]
    · rfl
  rw [run_rebase, hanew, if_neg Bool.false_ne_true, Option.map_map]
  exact congrFun (congrArg Option.map (funext (toPath_ite_same a))) _

/-- **A path that is moved through a field keeps its target exactly if the target is a local**, or
makes the very step that was read. Any other field or static field loses its own step to the one
that was read. -/
theorem rebase_past_field_iff {s : PathStore} {first : Step} {rest : List Step}
    (hr : s.rules.Unreduced) (hv : v.isTracked = true) (hsteps : a.steps = first :: rest)
    (hc : ((rebase a v ty true reduce part).run s).1 = some c) :
    c.toPath = a.rerooted v (if v.isFieldRef then a.steps else rest) s.rules.settings.length part ∧
      (c.toPath = a.rerooted v (v.ownSteps ++ rest) s.rules.settings.length part ↔
        v.isFieldRef = false ∨ v.ownSteps = [first]) := by
  have hmade := run_rebase_cut a v ty reduce part s
  rw [hc, Option.map_some] at hmade
  obtain ⟨b, hb, hbc⟩ := Option.map_eq_some_iff.mp hmade.symm
  have hpath : c.toPath =
      a.rerooted v ((v.ownSteps ++ a.steps).drop 1) s.rules.settings.length part :=
    hbc.symm.trans (hr.toPath_canon rfl hv hb)
  rw [hpath, hsteps]
  cases v with
  | var l => exact ⟨rfl, iff_of_true rfl (.inl rfl)⟩
  | field b g =>
    refine ⟨rfl, (Path.rerooted_cons_inj hr.positive).trans ?_⟩
    simp [Value.ownSteps, Value.isFieldRef, eq_comm]
  | global g =>
    refine ⟨rfl, (Path.rerooted_cons_inj hr.positive).trans ?_⟩
    simp [Value.ownSteps, Value.isFieldRef, eq_comm]
  | _ => cases hv

/-! ## A letter in a drawer -/

def deskRules : PathRules where
  settings := { foldRecursive := false, foldOuterThis := false, collapseRepeats := false }
  casts := ⟨⟨[]⟩, false⟩

theorem deskRules_unreduced : deskRules.Unreduced := ⟨by decide, rfl, rfl, rfl, rfl⟩

def drawerField : Field := ⟨"Desk", "drawer", .cls "Drawer", false⟩

def trayField : Field := ⟨"Desk", "tray", .cls "Drawer", false⟩

def letterField : Field := ⟨"Drawer", "letter", .cls "java.lang.String", false⟩

def letterInDrawer : AccessPath where
  base := some ⟨0, "a", .cls "Desk"⟩
  ty := some (.cls "Desk")
  steps := [.of drawerField, .of letterField]

/-- `x = a.drawer` moves the letter to `x.letter`. -/
theorem letter_onto_local :
    let x : Local := ⟨1, "x", .cls "Drawer"⟩
    deskRules.Unreduced ∧
      ∃ c, ((rebase letterInDrawer (.var x) none true true .both).run { rules := deskRules }).1 =
        some c ∧ c.toPath = letterInDrawer.rerooted (.var x) [.of letterField] 5 .both := by
  intro x
  have hmoved := run_rebase_cut letterInDrawer (.var x) none true .both { rules := deskRules }
  obtain ⟨c, hc⟩ : ∃ c, ((rebase letterInDrawer (.var x) none true true .both).run
      { rules := deskRules }).1 = some c := by
    rw [← Option.isSome_iff_exists, ← Option.isSome_map, hmoved]
    decide +kernel
  exact ⟨deskRules_unreduced, c, hc,
    (rebase_past_field_iff deskRules_unreduced rfl rfl hc).2.mpr (.inl rfl)⟩

/-- **The step of the target is dropped in place of the one that was read.** `b.tray = a.drawer`
moves the letter to `b.drawer.letter`. -/
theorem letter_onto_tray_keeps_drawer :
    let tray : Value := .field ⟨1, "b", .cls "Desk"⟩ trayField
    ∃ c, ((rebase letterInDrawer tray none true true .both).run { rules := deskRules }).1 = some c ∧
      c.toPath = letterInDrawer.rerooted tray [.of drawerField, .of letterField] 5 .both ∧
      c.toPath ≠ letterInDrawer.rerooted tray [.of trayField, .of letterField] 5 .both := by
  intro tray
  have hmoved := run_rebase_cut letterInDrawer tray none true .both { rules := deskRules }
  have hcanon : (deskRules.canon { value := some tray, steps := letterInDrawer.steps
                                   cutFirst := true }).path.map (·.toPath) =
      some (letterInDrawer.rerooted tray [.of drawerField, .of letterField] 5 .both) := by
    decide +kernel
  obtain ⟨c, hc, hpath⟩ := Option.map_eq_some_iff.mp (hmoved.trans hcanon)
  refine ⟨c, hc, hpath, ?_⟩
  rw [hpath]
  decide +kernel

end Paths
end LeakTrace
