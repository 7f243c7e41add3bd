import LeakTrace.Proofs.Path.Folding
import Mathlib.Data.List.Infix
import Mathlib.Data.List.TakeWhile

/-!
# Chains that a pass leaves alone

Each pass that shortens a chain leaves exactly those chains alone in which there is nothing to
shorten, and this file says for each of them what that is, without the pass: a group that repeats
at once, a detour to an enclosing instance, a stretch that leads back to its type.

**No pass makes a chain longer.** So a pass that changes a chain makes it shorter, and a chain that
comes out of all of them with its length was changed by none.
-/

namespace LeakTrace
open List

namespace Step
variable {steps done after ys : List Step} {base before : Option Ty} {t : Ty} {x y s : Step}
  {f : Field}

/-! ## Groups that repeat at once -/

/-- The chain starts with a group of fields and goes on with the same group. The group ends where
its first field comes again. -/
def RepeatsFirst (steps : List Step) : Prop :=
  ∃ x group rest, steps = x :: group ++ rest ∧ x.field ∉ group.map (·.field) ∧
    (x :: group).map (·.field) <+: rest.map (·.field)

/-- Somewhere in the chain a group of fields repeats at once. -/
def Repeats (steps : List Step) : Prop := ∃ tail, tail <:+ steps ∧ RepeatsFirst tail

theorem repeats_cons {xs : List Step} :
    Repeats (x :: xs) ↔ RepeatsFirst (x :: xs) ∨ Repeats xs := by
  constructor
  · rintro ⟨tail, htail, hrep⟩
    rcases suffix_cons_iff.mp htail with rfl | htail
    · exact .inl hrep
    · exact .inr ⟨tail, htail, hrep⟩
  · rintro (hrep | ⟨tail, htail, hrep⟩)
    · exact ⟨_, suffix_refl _, hrep⟩
    · exact ⟨tail, htail.trans (suffix_cons x xs), hrep⟩

theorem not_repeats_nil : ¬Repeats [] := by
  rintro ⟨tail, htail, x, group, rest, rfl, -, -⟩
  simp at htail

theorem eq_of_splitAtField {before : List Step} (h : splitAtField f steps = some (before, y, after)) :
    steps = before ++ y :: after ∧ y.field = f ∧ f ∉ before.map (·.field) := by
  induction steps generalizing before with
  | nil => simp [splitAtField] at h
  | cons s rest ih =>
    simp only [splitAtField] at h
    by_cases hs : s.field = f
    · rw [if_pos (by simp [hs])] at h
      obtain ⟨rfl, rfl, rfl⟩ := by simpa using h
      simp [hs]
    · rw [if_neg (by simp [hs])] at h
      obtain ⟨⟨b, y', a⟩, hsplit, heq⟩ := Option.map_eq_some_iff.mp h
      obtain ⟨rfl, rfl, rfl⟩ := by simpa using heq
      obtain ⟨rfl, hy, hb⟩ := ih hsplit
      simp only [map_cons, mem_cons, not_or]
      exact ⟨rfl, hy, Ne.symm hs, hb⟩

theorem splitAtField_append {before : List Step} (hy : y.field = f) (hb : f ∉ before.map (·.field)) :
    splitAtField f (before ++ y :: after) = some (before, y, after) := by
  induction before with
  | nil => simp [splitAtField, hy]
  | cons s rest ih =>
    simp only [map_cons, mem_cons, not_or] at hb
    have hs : ¬(s.field == f) := by simpa using Ne.symm hb.1
    simp only [cons_append, splitAtField]
    rw [if_neg hs, ih hb.2]
    rfl

theorem pushCollapsed_eq (h : ¬RepeatsFirst (x :: ys)) : pushCollapsed x ys = x :: ys := by
  unfold pushCollapsed
  split
  case h_2 => rfl
  case h_1 before y after hsplit =>
    obtain ⟨rfl, -, hb⟩ := eq_of_splitAtField hsplit
    rw [if_neg]
    intro hstart
    exact h ⟨x, before, y :: after, rfl, hb, isPrefixOf_iff_prefix.mp hstart⟩

/-- Of a group that repeats, its first field and what follows the repetition stay. -/
theorem pushCollapsed_of_repeatsFirst (h : RepeatsFirst (x :: ys)) :
    ∃ group y after, ys = group ++ y :: after ∧ y.field = x.field ∧ (x :: group).map
    (·.field) <+: (y :: after).map (·.field) ∧ pushCollapsed x ys = x :: after := by
  obtain ⟨z, group, rest, heq, hg, hstart⟩ := h
  obtain ⟨rfl, rfl⟩ : x = z ∧ ys = group ++ rest := by simpa using heq
  obtain ⟨y, after, rfl, hy⟩ : ∃ y after, rest = y :: after ∧ y.field = x.field := by
    cases rest with
    | nil => simp at hstart
    | cons y after => exact ⟨y, after, rfl, (cons_prefix_cons.mp hstart).1.symm⟩
  refine ⟨group, y, after, rfl, hy, hstart, ?_⟩
  unfold pushCollapsed
  rw [splitAtField_append hy hg]
  dsimp only
  rw [if_pos <| isPrefixOf_iff_prefix.mpr hstart]

theorem pushCollapsed_sublist (x : Step) (ys : List Step) :
    (pushCollapsed x ys).Sublist (x :: ys) := by
  unfold pushCollapsed
  split
  case h_2 => exact .refl _
  case h_1 before y after hsplit =>
    obtain ⟨rfl, -, -⟩ := eq_of_splitAtField hsplit
    split
    · exact ((sublist_cons_self y after).trans (sublist_append_right before _)).cons_cons x
    · exact .refl _

theorem collapse_sublist (steps : List Step) : (collapse steps).Sublist steps := by
  induction steps with
  | nil => exact .refl _
  | cons x xs ih => exact (pushCollapsed_sublist x (collapse xs)).trans (ih.cons_cons x)

theorem collapse_of_not_repeats (h : ¬Repeats steps) : collapse steps = steps := by
  induction steps with
  | nil => rfl
  | cons x xs ih =>
    obtain ⟨hfirst, hrest⟩ := not_or.mp (mt repeats_cons.mpr h)
    rw [collapse, ih hrest, pushCollapsed_eq hfirst]

/-! ### What repeats afterwards -/

theorem repeatsFirst_iff : RepeatsFirst steps ↔
    ∃ f group, f ∉ group ∧ f :: group ++ f :: group <+: steps.map (·.field) := by
  constructor
  · rintro ⟨x, group, rest, rfl, hx, hpre⟩
    refine ⟨x.field, group.map (·.field), hx, ?_⟩
    rw [map_append]
    exact (prefix_append_right_inj _).mpr hpre
  · rintro ⟨f, group, hf, after, heq⟩
    rw [append_assoc] at heq
    obtain ⟨front, rest, rfl, hfront, hrest⟩ := map_eq_append_iff.mp heq.symm
    obtain ⟨x, group, rfl, rfl, rfl⟩ := map_eq_cons_iff.mp hfront
    exact ⟨x, group, rest, rfl, hf, after, hrest.symm⟩

theorem repeats_iff : Repeats steps ↔
    ∃ f group, f ∉ group ∧ f :: group ++ f :: group <:+: steps.map (·.field) := by
  simp only [Repeats, repeatsFirst_iff, infix_iff_prefix_suffix]
  constructor
  · rintro ⟨tail, htail, f, group, hf, hpre⟩
    exact ⟨f, group, hf, _, hpre, htail.map _⟩
  · rintro ⟨f, group, hf, fields, hpre, hsuf⟩
    obtain ⟨tail, htail, rfl⟩ := suffix_map_iff.mp hsuf
    exact ⟨tail, htail, f, group, hf, hpre⟩

theorem repeats_cons_congr (h : x.field = y.field) : Repeats (x :: ys) ↔ Repeats (y :: ys) := by
  rw [repeats_iff, repeats_iff, map_cons, map_cons, h]

/-- What stays of a group reads like the end of the chain from the repetition on, and nothing
repeats there. -/
theorem not_repeats_pushCollapsed (h : ¬Repeats ys) : ¬Repeats (pushCollapsed x ys) := by
  by_cases hfirst : RepeatsFirst (x :: ys)
  · obtain ⟨group, y, after, rfl, hy, -, hpush⟩ := pushCollapsed_of_repeatsFirst hfirst
    rw [hpush, repeats_cons_congr hy.symm]
    rintro ⟨tail, htail, hrep⟩
    exact h ⟨tail, htail.trans (suffix_append group _), hrep⟩
  · rw [pushCollapsed_eq hfirst, repeats_cons]
    exact not_or.mpr ⟨hfirst, h⟩

theorem not_repeats_collapse (steps : List Step) : ¬Repeats (collapse steps) := by
  induction steps with
  | nil => exact not_repeats_nil
  | cons x xs ih => exact not_repeats_pushCollapsed ih

theorem not_repeats_of_length (h : (collapse steps).length = steps.length) : ¬Repeats steps := by
  rw [← (collapse_sublist steps).eq_of_length h]
  exact not_repeats_collapse steps

/-- **What collapsing can leave.** Two equal groups in a row stay exactly if the field they start
with comes again inside them: the group that is compared ends there. -/
theorem exists_collapse_eq_iff (left : List Step) : (∃ steps, collapse steps = left) ↔
    ∀ f group, f :: group ++ f :: group <:+: left.map (·.field) → f ∈ group := by
  have hleft : ¬Repeats left ↔
      ∀ f group, f :: group ++ f :: group <:+: left.map (·.field) → f ∈ group := by
    rw [repeats_iff]
    grind
  rw [← hleft]
  constructor
  · rintro ⟨steps, rfl⟩
    exact not_repeats_collapse steps
  · exact fun h => ⟨left, collapse_of_not_repeats h⟩

/-- The chain `f.g.f.h.f.g.f.h` is `f.g.f.h` twice, and stays so. -/
theorem collapse_leaves_group_twice :
    let group := ["f", "g", "f", "h"].map fun name => Step.of ⟨"app.A", name, .cls "app.A", false⟩
    group ≠ [] ∧
      group.map (·.field) ++ group.map (·.field) <:+: (collapse (group ++ group)).map (·.field) := by
  decide

@[simp]
theorem head?_pushCollapsed (x : Step) (ys : List Step) : (pushCollapsed x ys).head? = some x := by
  unfold pushCollapsed
  split
  · split <;> rfl
  · rfl

@[simp]
theorem head?_collapse (steps : List Step) : (collapse steps).head? = steps.head? := by
  cases steps with
  | nil => rfl
  | cons x xs => simp [collapse]

theorem mem_fields_pushCollapsed :
    f ∈ (pushCollapsed x ys).map (·.field) ↔ f ∈ (x :: ys).map (·.field) := by
  refine ⟨fun hf => ((pushCollapsed_sublist x ys).map _).subset hf, fun hf => ?_⟩
  by_cases hfirst : RepeatsFirst (x :: ys)
  · obtain ⟨group, y, after, rfl, hy, hstart, hpush⟩ := pushCollapsed_of_repeatsFirst hfirst
    rw [← cons_append, map_append, mem_append] at hf
    rw [hpush, map_cons, ← hy]
    exact hf.elim (hstart.subset ·) id
  · rwa [pushCollapsed_eq hfirst]

theorem mem_fields_collapse : f ∈ (collapse steps).map (·.field) ↔ f ∈ steps.map (·.field) := by
  induction steps with
  | nil => rfl
  | cons x xs ih => rw [collapse, mem_fields_pushCollapsed, map_cons, mem_cons, ih, map_cons, mem_cons]

/-- **Collapsing once is enough.** What stays is a part of the chain in its order, with the first
step and all fields of the chain. -/
theorem collapse_once (steps : List Step) : collapse (collapse steps) = collapse steps ∧
    (collapse steps).Sublist steps ∧ (collapse steps).head? = steps.head? ∧ ∀ f, f ∈
    (collapse steps).map (·.field) ↔ f ∈ steps.map (·.field) := by
  exact ⟨collapse_of_not_repeats (not_repeats_collapse steps), collapse_sublist steps,
    head?_collapse steps, fun _ => mem_fields_collapse⟩

/-! ## Enclosing instances -/

/-- No step leads back to an enclosing instance that was passed before, be it the base or a step. -/
structure OuterFree (base : Option Ty) (steps : List Step) : Prop where
  base_ne : ∀ s ∈ steps, s.isOuterThis = true → base ≠ some s.field.ty
  passed_ne : steps.Pairwise fun x s => s.isOuterThis = true → x.ty ≠ s.field.ty

theorem upToLast_eq_none_iff : upToLast t steps = none ↔ ∀ x ∈ steps, x.ty ≠ t := by
  unfold upToLast
  constructor
  · intro h x hx
    split at h
    case h_2 => simp at h
    case h_1 hdrop => simpa using dropWhile_eq_nil_iff.mp hdrop x (mem_reverse.mpr hx)
  · intro h
    have hdrop : steps.reverse.dropWhile (·.ty != t) = [] := by
      refine dropWhile_eq_nil_iff.mpr fun x hx => ?_
      simpa using h x (mem_reverse.mp hx)
    rw [hdrop]

theorem upToLast_eq_some {front : List Step} (h : upToLast t steps = some front) :
    front ≠ [] ∧ front <+: steps := by
  unfold upToLast at h
  split at h
  · cases h
  · next rest hne =>
    obtain rfl := Option.some.inj h
    refine ⟨by simpa using hne, reverse_suffix.mp ?_⟩
    simpa using dropWhile_suffix (l := steps.reverse) (·.ty != t)

/-- The step does not go back to an instance that was passed. -/
def GoesOn (base : Option Ty) (done : List Step) (s : Step) : Prop :=
  s.isOuterThis = true → base ≠ some s.field.ty ∧ ∀ x ∈ done, x.ty ≠ s.field.ty

theorem pushOuter_eq (h : GoesOn base done s) : pushOuter base done s = done ++ [s] := by
  unfold pushOuter
  by_cases hs : s.isOuterThis
  · obtain ⟨hbase, hdone⟩ := h hs
    rw [if_pos hs, if_neg (by simpa using hbase), upToLast_eq_none_iff.mpr hdone]
    rfl
  · rw [if_neg hs]

/-- A step that goes back leaves a front part of the chain. -/
theorem prefix_pushOuter (h : ¬GoesOn base done s) : pushOuter base done s <+: done := by
  obtain ⟨hs, hback⟩ := Classical.not_imp.mp h
  unfold pushOuter
  rw [if_pos hs]
  by_cases hbase : base = some s.field.ty
  · rw [if_pos (by simp [hbase])]
    exact nil_prefix
  · rw [if_neg (by simpa using hbase)]
    cases hfront : upToLast s.field.ty done with
    | none => exact absurd ⟨hbase, upToLast_eq_none_iff.mp hfront⟩ hback
    | some front => exact (upToLast_eq_some hfront).2

theorem pushOuter_sublist (base : Option Ty) (done : List Step) (s : Step) :
    (pushOuter base done s).Sublist (done ++ [s]) := by
  by_cases hs : GoesOn base done s
  · rw [pushOuter_eq hs]
  · exact (prefix_pushOuter hs).sublist.trans (sublist_append_left done [s])

theorem foldl_pushOuter_sublist (base : Option Ty) (done steps : List Step) :
    (steps.foldl (pushOuter base) done).Sublist (done ++ steps) := by
  induction steps generalizing done with
  | nil => simp
  | cons s rest ih =>
    rw [foldl_cons, append_cons]
    exact (ih _).trans ((pushOuter_sublist base done s).append_right rest)

theorem skipOuter_sublist (base : Option Ty) (steps : List Step) :
    (skipOuter base steps).Sublist steps :=
  foldl_pushOuter_sublist base [] steps

theorem foldl_pushOuter_of_free (hgo : ∀ s ∈ steps, GoesOn base done s)
    (hpair : steps.Pairwise fun x s => s.isOuterThis → x.ty ≠ s.field.ty) :
    steps.foldl (pushOuter base) done = done ++ steps := by
  induction steps generalizing done with
  | nil => simp
  | cons s rest ih =>
    obtain ⟨hhead, hpair⟩ := pairwise_cons.mp hpair
    rw [foldl_cons, pushOuter_eq (hgo s mem_cons_self), append_cons done s rest]
    refine ih (fun x hx hox => ?_) hpair
    obtain ⟨hbase, hdone⟩ := hgo x (mem_cons_of_mem s hx) hox
    refine ⟨hbase, fun y hy => ?_⟩
    rcases mem_append.mp hy with hy | hy
    · exact hdone y hy
    · rw [mem_singleton.mp hy]
      exact hhead x hx hox

theorem skipOuter_of_free (h : OuterFree base steps) : skipOuter base steps = steps :=
  foldl_pushOuter_of_free (fun s hs hos => ⟨h.base_ne s hs hos, by simp⟩) h.passed_ne

/-! ### No detour afterwards -/

theorem OuterFree.sublist (h : OuterFree base steps) (hsub : done.Sublist steps) :
    OuterFree base done :=
  ⟨fun s hs => h.base_ne s (hsub.subset hs), h.passed_ne.sublist hsub⟩

theorem OuterFree.append (h : OuterFree base done) (hs : GoesOn base done s) :
    OuterFree base (done ++ [s]) where
  base_ne x hx hox := by
    rcases mem_append.mp hx with hx | hx
    · exact h.base_ne x hx hox
    · obtain rfl := mem_singleton.mp hx
      exact (hs hox).1
  passed_ne := by
    refine pairwise_append.mpr ⟨h.passed_ne, pairwise_singleton _ s, fun x hx y hy hoy => ?_⟩
    obtain rfl := mem_singleton.mp hy
    exact (hs hoy).2 x hx

theorem OuterFree.pushOuter (h : OuterFree base done) : OuterFree base (pushOuter base done s) := by
  by_cases hs : GoesOn base done s
  · rw [pushOuter_eq hs]
    exact h.append hs
  · exact h.sublist (prefix_pushOuter hs).sublist

theorem outerFree_skipOuter (base : Option Ty) (steps : List Step) :
    OuterFree base (skipOuter base steps) :=
  foldlRecOn steps (Step.pushOuter base) ⟨by simp, .nil⟩ fun _ h _ _ => h.pushOuter

theorem outerFree_of_length (h : (skipOuter base steps).length = steps.length) :
    OuterFree base steps := by
  rw [← (skipOuter_sublist base steps).eq_of_length h]
  exact outerFree_skipOuter base steps

/-- One round of a scan in place. The chain is reduced in front of the index, which moves back to
where a detour was cut out. -/
def scanOuter (base : Option Ty) : List Step × Nat → List Step × Nat
  | (steps, i) =>
    match steps[i]? with
    | some s =>
      let done := pushOuter base (steps.take i) s
      (done ++ steps.drop (i + 1), done.length)
    | none => (steps, i)

theorem scanOuter_append (base : Option Ty) (done after : List Step) (s : Step) :
    scanOuter base (done ++ s :: after, done.length) =
      (pushOuter base done s ++ after, (pushOuter base done s).length) := by
  simp [scanOuter]

/-- Each round takes one step of the chain, however far back the index moves. -/
theorem iterate_scanOuter (base : Option Ty) (done after : List Step) :
    (scanOuter base)^[after.length] (done ++ after, done.length) =
      (after.foldl (pushOuter base) done, (after.foldl (pushOuter base) done).length) := by
  induction after generalizing done with
  | nil => simp
  | cons s rest ih => rw [length_cons, Function.iterate_succ_apply, scanOuter_append, ih, foldl_cons]

/-- **Detours are gone after one pass.** The scan ends, and it leaves a part of the chain that has
no detour and that a second pass leaves alone. -/
theorem skipOuter_normal_form (base : Option Ty) (steps : List Step) :
    (scanOuter base)^[steps.length] (steps, 0) =
      (skipOuter base steps, (skipOuter base steps).length) ∧
    (skipOuter base steps).Sublist steps ∧ OuterFree base (skipOuter base steps) ∧
    skipOuter base (skipOuter base steps) = skipOuter base steps :=
  ⟨iterate_scanOuter base [] steps, skipOuter_sublist base steps, outerFree_skipOuter base steps,
    skipOuter_of_free (outerFree_skipOuter base steps)⟩

end Step

namespace PathRules
variable {r : PathRules} {q : PathRequest}

/-! ## All passes -/

/-- The chain after dropping the first field and collapsing repetitions, whatever the limit. -/
def trim (r : PathRules) (q : PathRequest) (steps : List Step) : List Step :=
  let steps := if q.cutFirst then steps.drop 1 else steps
  if r.settings.collapseRepeats then Step.collapse steps else steps

def unfolded (r : PathRules) (q : PathRequest) (p : Place) : List Step :=
  if r.settings.foldOuterThis && q.reduce then Step.skipOuter p.ty p.steps else p.steps

theorem prepare_eq_nil (hzero : r.settings.length = 0) (steps : List Step) :
    r.prepare q steps = [] := by
  simp [prepare, hzero, Step.collapse]

theorem prepare_eq_trim (hpos : 0 < r.settings.length) (steps : List Step) :
    r.prepare q steps = r.trim q steps := by
  simp [prepare, trim, hpos.ne']

theorem prepare_sublist (r : PathRules) (q : PathRequest) (steps : List Step) :
    (r.prepare q steps).Sublist steps := by
  rcases Nat.eq_zero_or_pos r.settings.length with hzero | hpos
  · rw [prepare_eq_nil hzero]
    exact nil_sublist steps
  · have hcut : (if q.cutFirst then steps.drop 1 else steps).Sublist steps := by
      split
      · exact drop_sublist 1 steps
      · exact .refl _
    rw [prepare_eq_trim hpos, trim]
    split
    · exact (Step.collapse_sublist _).trans hcut
    · exact hcut

theorem unfolded_sublist (r : PathRules) (q : PathRequest) (p : Place) :
    (r.unfolded q p).Sublist p.steps := by
  unfold unfolded
  split
  · exact Step.skipOuter_sublist p.ty p.steps
  · exact .refl _

theorem unfolded_of_free {p : Place}
    (h : (r.settings.foldOuterThis && q.reduce) → Step.OuterFree p.ty p.steps) :
    r.unfolded q p = p.steps := by
  unfold unfolded
  split
  case isTrue hskip => exact Step.skipOuter_of_free (h hskip)
  case isFalse => rfl

theorem shorten_eq (r : PathRules) (q : PathRequest) (p : Place) :
    r.shorten q p = if r.settings.foldRecursive && q.reduce then
      Step.foldFrom (if p.base.isNone then 1 else 0) p.ty (r.unfolded q p)
    else ⟨r.unfolded q p, []⟩ := by
  unfold shorten
  dsimp only
  rw [← unfolded]
  split
  · cases p.base with
    | none => cases r.unfolded q p <;> rfl
    | some l => rfl
  · rfl

/-- Folding, where it is done, leaves an account of what it cut out. -/
theorem shorten_kept_or_accounts (p : Place) : r.shorten q p = ⟨r.unfolded q p, []⟩ ∨
    ∃ n cuts, Step.Accounts n p.ty (r.unfolded q p) (r.shorten q p) cuts := by
  rw [shorten_eq]
  split
  · exact .inr ⟨_, Step.accounts_foldFrom _ p.ty (r.unfolded q p)⟩
  · exact .inl rfl

theorem length_shorten_le (p : Place) : (r.shorten q p).steps.length ≤ (r.unfolded q p).length := by
  rcases shorten_kept_or_accounts p with heq | ⟨n, cuts, h⟩
  · rw [heq]
  · exact h.length_le

/-- The stages of a request that has a canonical form: the place it names, the place with narrowed
types, and the path. -/
theorem path_canon_eq_some_iff {p : AccessPath} :
    (r.canon q).path = some p ↔ ∃ p0 p1,
      q.place? (if r.casts.enabled then q.ty else none) = some p0 ∧
        r.narrow { p0 with steps := r.prepare q p0.steps } = some p1 ∧ arrayAllows p1 ∧
        feasible ⟨p.base, p.ty, p.steps⟩ ∧
        r.limit q { p1 with steps := (r.shorten q p1).steps }
          (!(r.shorten q p1).cuts.isEmpty) = p := by
  have hplace : ∀ p1, (do
      let p ← q.place? (if r.casts.enabled then q.ty else none)
      let p ← r.narrow { p with steps := r.prepare q p.steps }
      if arrayAllows p then some p else none) = some p1 ↔ ∃ p0,
        q.place? (if r.casts.enabled then q.ty else none) = some p0 ∧
          r.narrow { p0 with steps := r.prepare q p0.steps } = some p1 ∧
          arrayAllows p1 := by
    intro p1
    simp only [Option.bind_eq_bind, Option.bind_eq_some_iff, Option.ite_none_right_eq_some,
      Option.some.injEq]
    refine exists_congr fun p0 => and_congr_right fun _ => ?_
    constructor
    · rintro ⟨p2, hp2, ha, rfl⟩
      exact ⟨hp2, ha⟩
    · rintro ⟨hp1, ha⟩
      exact ⟨p1, hp1, ha, rfl⟩
  unfold canon
  dsimp only
  split
  case h_1 hnone =>
    refine iff_of_false (by simp) ?_
    rintro ⟨p0, p1, hp0, hp1, ha, -, -⟩
    rw [(hplace p1).mpr ⟨p0, hp0, hp1, ha⟩] at hnone
    simp at hnone
  case h_2 p1 hsome =>
    obtain ⟨p0, hp0, hp1, ha⟩ := (hplace p1).mp hsome
    rw [Option.ite_none_right_eq_some]
    constructor
    · rintro ⟨hf, heq⟩
      obtain rfl := Option.some.inj heq
      exact ⟨p0, p1, hp0, hp1, ha, hf, rfl⟩
    · rintro ⟨p0', p1', hp0', hp1', ha', hf, rfl⟩
      obtain rfl : p1 = p1' :=
        Option.some.inj (hsome.symm.trans ((hplace p1').mpr ⟨p0', hp0', hp1', ha'⟩))
      exact ⟨hf, rfl⟩

end PathRules
end LeakTrace
