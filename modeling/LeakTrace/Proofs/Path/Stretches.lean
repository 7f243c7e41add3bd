import LeakTrace.Proofs.Scope.Roots

/-!
# Stretches in front of a path

What the passes do to the first field of a chain. Collapsing, narrowing and the limit keep it, so
that a stretch put in front of a path without reducing it still stands in front afterwards
(`firstField?_of_unreduced`). **Folding may cut the first field out, but then it registers a stretch
that begins with it** (`firstField?_or_cut`), and the store never forgets one (`patterns_after`).

Whether a stretch can be put back in is another matter: the chains were not made for each other.
`PathRules.Joins` says what is asked of them, and `expansion_isSome_iff` that nothing else is.
-/

namespace LeakTrace
variable {steps : List Step} {f : Field}

namespace Step

/-! ## The first step through the passes -/

theorem fold_front (before : Option Ty) (steps : List Step) :
    (fold before steps).steps.head? = steps.head? ∨ ∃ t stretch, before = some t ∧
    (t, stretch) ∈ (fold before steps).cuts ∧ stretch.head? = steps.head? := by
  obtain ⟨cuts, h⟩ := accounts_fold before steps
  rcases h.front with hkeep | ⟨c, hc, hpos, hhead⟩
  · exact .inl hkeep
  · have hty : before = some c.ty := by
      have hty := h.ty c hc
      rwa [hpos] at hty
    exact .inr ⟨c.ty, c.stretch, hty, h.patterns ▸ List.mem_map_of_mem hc, hhead⟩

theorem outerFree_of_none {base : Option Ty} (h : ∀ s ∈ steps, s.isOuterThis = false) :
    OuterFree base steps where
  base_ne s hs houter := by simp [h s hs] at houter
  passed_ne := by
    refine List.pairwise_of_forall_mem_list fun x _ s hs houter => ?_
    simp [h s hs] at houter

end Step

namespace PathRules
variable {r : PathRules} {q : PathRequest} {p : AccessPath} {p0 p1 : Place} {l : Local}

theorem head?_field_narrow (h : r.narrow p0 = some p1) :
    p1.steps.head?.map (·.field) = p0.steps.head?.map (·.field) := by
  simpa [List.head?_map] using congrArg List.head? (fields_narrow h)

theorem isOuterThis_narrow (h : r.narrow p0 = some p1)
    (hno : ∀ s ∈ p0.steps, s.isOuterThis = false) : ∀ s ∈ p1.steps, s.isOuterThis = false := by
  intro s hs
  have hfield : s.field ∈ p0.steps.map (·.field) := by
    rw [← fields_narrow h]
    exact List.mem_map_of_mem hs
  obtain ⟨s0, hs0, heq⟩ := List.mem_map.mp hfield
  have hs0 := hno s0 hs0
  unfold Step.isOuterThis at hs0 ⊢
  rwa [← heq]

theorem head?_prepare (hpos : 0 < r.settings.length) (steps : List Step) :
    (r.prepare q steps).head? = (if q.cutFirst then steps.drop 1 else steps).head? := by
  rw [prepare_eq_trim hpos, trim]
  split
  · exact Step.head?_collapse _
  · rfl

theorem shorten_of_unreduced (hreduce : q.reduce = false) (p1 : Place) :
    r.shorten q p1 = ⟨p1.steps, []⟩ := by
  simp [shorten, hreduce]

theorem head?_limit {folded : Bool} (hpos : 0 < r.settings.length) (p1 : Place) :
    (r.limit q p1 folded).steps.head? = p1.steps.head? := by
  obtain ⟨n, hn⟩ := Nat.exists_eq_succ_of_ne_zero hpos.ne'
  simp only [limit, hn]
  cases p1.steps <;> rfl

theorem cuts_canon (hp0 : q.place? (if r.casts.enabled then q.ty else none) = some p0)
    (hp1 : r.narrow { p0 with steps := r.prepare q p0.steps } = some p1)
    (ha : arrayAllows p1) : (r.canon q).cuts = (r.shorten q p1).cuts := by
  unfold canon
  simp only [hp0, hp1, ha, Option.bind_eq_bind, Option.bind_some, if_true]

theorem firstField?_of_unreduced (hvalue : q.value = some (.var l)) (hcut : q.cutFirst = false)
    (hreduce : q.reduce = false) (hpos : 0 < r.settings.length) (hp : (r.canon q).path = some p) :
    p.base = some l ∧ p.firstField? = q.steps.head?.map (·.field) := by
  obtain ⟨p0, p1, hp0, hp1, -, -, rfl⟩ := path_canon_eq_some_iff.mp hp
  obtain rfl : _ = p0 := Option.some.inj (by simpa [PathRequest.place?, hvalue] using hp0)
  refine ⟨base_narrow hp1, ?_⟩
  unfold Path.firstField?
  rw [head?_limit hpos, shorten_of_unreduced hreduce, head?_field_narrow hp1, head?_prepare hpos,
    hcut]
  rfl

/-- **The first field stays, or a stretch that begins with it is reported** under the type of the
base. -/
theorem firstField?_or_cut (hvalue : q.value = some (.var l))
    (hfirst : q.steps.head?.map (·.field) = some f) (houter : ∀ s ∈ q.steps, s.isOuterThis = false)
    (hcut : q.cutFirst = false) (hpos : 0 < r.settings.length) (hp : (r.canon q).path = some p) :
    p.firstField? = some f ∨ ∃ t stretch, p.ty = some t ∧ (t, stretch) ∈ (r.canon q).cuts ∧
      stretch.head?.map (·.field) = some f := by
  obtain ⟨p0, p1, hp0, hp1, ha, -, rfl⟩ := path_canon_eq_some_iff.mp hp
  rw [cuts_canon hp0 hp1 ha]
  obtain rfl : _ = p0 := Option.some.inj (by simpa [PathRequest.place?, hvalue] using hp0)
  have hbase : p1.base = some l := base_narrow hp1
  have hhead : p1.steps.head?.map (·.field) = some f := by
    rw [head?_field_narrow hp1, head?_prepare hpos, hcut]
    exact hfirst
  have hno : ∀ s ∈ p1.steps, s.isOuterThis = false :=
    isOuterThis_narrow hp1 fun s hs => houter s ((prepare_sublist r q _).mem hs)
  unfold Path.firstField?
  rw [head?_limit hpos]
  unfold shorten
  dsimp only
  rw [← unfolded, unfolded_of_free fun _ => Step.outerFree_of_none hno, hbase]
  split
  · rcases Step.fold_front p1.ty p1.steps with hkeep | ⟨t, stretch, ht, hmem, hstretch⟩
    · exact .inl (by rw [hkeep]; exact hhead)
    · exact .inr ⟨t, stretch, ht, hmem, by rw [hstretch]; exact hhead⟩
  · exact .inl hhead

end PathRules

/-! ## What the store knows -/

namespace PathStore
variable {s : PathStore} {stretch : List Step} {t : Ty}

theorem patterns_make (s : PathStore) (q : PathRequest) :
    s.patterns ⊆ ((Paths.make q).run s).2.patterns ∧
      (s.rules.canon q).cuts ⊆ ((Paths.make q).run s).2.patterns := by
  rw [patterns_make_eq]
  exact patterns_foldl_register s _

def after (s : PathStore) (requests : List PathRequest) : PathStore :=
  requests.foldl (fun s q => ((Paths.make q).run s).2) s

theorem rules_after (s : PathStore) (requests : List PathRequest) :
    (s.after requests).rules = s.rules := by
  induction requests generalizing s with
  | nil => rfl
  | cons q rest ih => exact (ih _).trans (rules_make s q)

theorem patterns_after (s : PathStore) (requests : List PathRequest) :
    s.patterns ⊆ (s.after requests).patterns := by
  induction requests generalizing s with
  | nil => exact fun _ => id
  | cons q rest ih => exact List.Subset.trans (patterns_make s q).1 (ih _)

/-- The first stretch registered for a type that begins with a field. -/
def stretch? (s : PathStore) (t : Ty) (f : Field) : Option (List Step) :=
  (s.patternsFor t).find? fun stretch => stretch.head?.map (·.field) == some f

theorem stretch?_eq_some (h : s.stretch? t f = some stretch) :
    stretch ∈ s.patternsFor t ∧ stretch.head?.map (·.field) = some f := by
  unfold stretch? at h
  exact ⟨List.mem_of_find?_eq_some h, by simpa using List.find?_some h⟩

theorem stretch?_isSome (hmem : (t, stretch) ∈ s.patterns)
    (hf : stretch.head?.map (·.field) = some f) : (s.stretch? t f).isSome :=
  List.find?_isSome.mpr ⟨stretch, mem_patternsFor.mpr hmem, by simpa using hf⟩

end PathStore

/-! ## A stretch is put back in -/

/-- The request for a path with a stretch in front of its steps. -/
def AccessPath.expansion (a : AccessPath) (stretch : List Step) : PathRequest where
  value := a.base.map .var
  ty := a.ty
  steps := stretch ++ a.steps
  deep := a.deep
  reduce := false
  part := a.part
  immutable := a.immutable

theorem Paths.expand_front (a : AccessPath) (stretch : List Step) :
    Paths.expand a 0 stretch = Paths.make (a.expansion stretch) := rfl

namespace PathRules
variable {r : PathRules} {q : PathRequest} {p : AccessPath} {p0 p1 : Place} {l : Local}

theorem firstField?_expansion {a : AccessPath} {stretch : List Step} (hl : p.base = some l)
    (hfirst : stretch.head?.map (·.field) = some f) (hpos : 0 < r.settings.length)
    (ha : (r.canon (p.expansion stretch)).path = some a) :
    a.base = some l ∧ a.firstField? = some f := by
  have hvalue : (p.expansion stretch).value = some (.var l) := by
    simp [AccessPath.expansion, hl]
  obtain ⟨hbase, hfield⟩ := firstField?_of_unreduced hvalue rfl rfl hpos ha
  refine ⟨hbase, ?_⟩
  rw [hfield]
  cases stretch with
  | nil => cases hfirst
  | cons s rest => exact hfirst

/-- A stretch and the chain behind it, without repetitions where the rules remove them. -/
def joined (r : PathRules) (stretch steps : List Step) : List Step :=
  if r.settings.collapseRepeats then Step.collapse (stretch ++ steps) else stretch ++ steps

/-- The stretch fits in front of the chain: the types of its fields can be narrowed to what comes
behind them, and what comes behind a field within the limit is no field of a primitive value. -/
structure Joins (r : PathRules) (stretch steps : List Step) : Prop where
  narrows : r.casts.enabled = true →
    (narrowSteps r.casts.hierarchy (r.joined stretch steps)).isSome = true
  objects : ∀ s ∈ ((r.joined stretch steps).take r.settings.length).dropLast,
    s.field.ty.isPrimitive = false

theorem narrow_declared_eq_some_iff :
    r.narrow ⟨some l, some l.ty, steps⟩ = some p1 ↔
      p1.base = some l ∧ p1.ty = some l.ty ∧
        if r.casts.enabled then narrowSteps r.casts.hierarchy steps = some p1.steps
        else p1.steps = steps := by
  cases he : r.casts.enabled with
  | true => simp [narrow_eq_some_iff he, narrowBase, eq_comm]
  | false =>
    rw [narrow_of_disabled he]
    constructor
    · rintro ⟨⟩
      simp
    · obtain ⟨base, ty, steps'⟩ := p1
      simp_all

theorem declared_of_canon (hvalue : q.value = some (.var l)) (hty : ∀ t ∈ q.ty, t = l.ty)
    (hdeep : q.deep) (hp : (r.canon q).path = some p) :
    p.base = some l ∧ p.ty = some l.ty ∧ p.deep := by
  obtain ⟨p0, p1, hp0, hp1, -, -, rfl⟩ := path_canon_eq_some_iff.mp hp
  have hasked : (if r.casts.enabled then q.ty else none).getD l.ty = l.ty := by
    split
    · cases hq : q.ty with
      | none => rfl
      | some t => exact hty t hq
    · rfl
  have hplace : q.place? (if r.casts.enabled then q.ty else none) =
      some ⟨some l, some l.ty, q.steps⟩ := by
    simp [PathRequest.place?, hvalue, hasked]
  obtain rfl := Option.some.inj (hplace.symm.trans hp0)
  obtain ⟨hbase, htype, -⟩ := narrow_declared_eq_some_iff.mp hp1
  exact ⟨hbase, htype, by simp [limit, hdeep]⟩

theorem all_field_narrow {P : Field → Bool} {n : Nat} (h : r.narrow p0 = some p1) :
    (p1.steps.take n).dropLast.all (fun s => P s.field) =
      (p0.steps.take n).dropLast.all (fun s => P s.field) := by
  have hfields : ∀ steps : List Step, (steps.take n).dropLast.all (fun s => P s.field) =
      ((steps.map (·.field)).take n).dropLast.all P := by
    intro steps
    rw [← List.map_take, ← List.map_dropLast, List.all_map]
    rfl
  rw [hfields, hfields, fields_narrow h]

theorem Made.arrayAllows_of_base (hmade : Made r p) (hl : p.base = some l) (hsteps : p.steps ≠ [])
    (hbase : p1.base = some l) : arrayAllows p1 := by
  have h := hmade.allowed
  unfold arrayAllows at h ⊢
  rw [hbase]
  rw [hl] at h
  dsimp only at h ⊢
  split
  · next e he =>
    rw [he] at h
    simp only [List.isEmpty_iff, hsteps, Bool.or_eq_true, or_false] at h
    simp [h]
  · rfl

theorem Made.feasible_behind (hmade : Made r p) (hl : p.base = some l) (ht : p.ty = some l.ty)
    (hsteps : p.steps ≠ []) (steps : List Step) : PathRules.feasible ⟨some l, some l.ty, steps⟩ =
    steps.dropLast.all (fun s => !s.field.ty.isPrimitive) := by
  have hobject : l.ty.isPrimitive = false := by
    have h := hmade.feasible
    rw [hl, ht] at h
    simp only [PathRules.feasible, Bool.and_eq_true] at h
    simpa [hsteps] using h.1.1
  simp [PathRules.feasible, hobject]

/-- **The path with the stretch in front exists exactly if the two fit together**, for a path behind
a local with its declared type. -/
theorem expansion_isSome_iff (stretch : List Step) (hmade : Made r p) (hl : p.base = some l)
    (ht : p.ty = some l.ty) (hsteps : p.steps ≠ []) :
    (r.canon (p.expansion stretch)).path.isSome ↔ r.Joins stretch p.steps := by
  have hpos : 0 < r.settings.length :=
    (List.length_pos_iff.mpr hsteps).trans_le hmade.length_le
  have hplace : (p.expansion stretch).place?
      (if r.casts.enabled then (p.expansion stretch).ty else none) =
      some ⟨some l, some l.ty, stretch ++ p.steps⟩ := by
    simp only [PathRequest.place?, AccessPath.expansion, hl, ht, Option.map_some]
    split <;> rfl
  have hprepare : r.prepare (p.expansion stretch) (stretch ++ p.steps) =
      r.joined stretch p.steps := prepare_eq_trim hpos _
  -- What is left of the two chains after narrowing and the limit has the fields they have.
  have hkept : ∀ p1, r.narrow ⟨some l, some l.ty, r.joined stretch p.steps⟩ = some p1 →
      ∀ a, r.limit (p.expansion stretch)
          { p1 with steps := (r.shorten (p.expansion stretch) p1).steps }
          (!(r.shorten (p.expansion stretch) p1).cuts.isEmpty) = a →
        (PathRules.feasible ⟨a.base, a.ty, a.steps⟩ ↔
          ∀ s ∈ ((r.joined stretch p.steps).take r.settings.length).dropLast,
            s.field.ty.isPrimitive = false) := by
    rintro p1 hp1 _ rfl
    obtain ⟨hbase, hty, -⟩ := narrow_declared_eq_some_iff.mp hp1
    rw [shorten_of_unreduced rfl]
    dsimp only [limit]
    rw [hbase, hty, hmade.feasible_behind hl ht hsteps,
      all_field_narrow (P := fun f => !f.ty.isPrimitive) hp1]
    simp
  rw [Option.isSome_iff_exists]
  constructor
  · rintro ⟨a, ha⟩
    obtain ⟨p0, p1, hp0, hp1, -, hf, heq⟩ := path_canon_eq_some_iff.mp ha
    obtain rfl := Option.some.inj (hplace.symm.trans hp0)
    rw [hprepare] at hp1
    refine ⟨fun he => ?_, (hkept p1 hp1 a heq).mp hf⟩
    have hnarrow := (narrow_declared_eq_some_iff.mp hp1).2.2
    rw [if_pos he] at hnarrow
    rw [hnarrow]
    rfl
  · intro hjoins
    obtain ⟨p1, hp1⟩ : ∃ p1, r.narrow ⟨some l, some l.ty, r.joined stretch p.steps⟩ = some p1 := by
      cases he : r.casts.enabled with
      | false => exact ⟨_, narrow_of_disabled he⟩
      | true =>
        obtain ⟨steps, hnarrow⟩ := Option.isSome_iff_exists.mp (hjoins.narrows he)
        exact ⟨⟨some l, some l.ty, steps⟩,
          narrow_declared_eq_some_iff.mpr ⟨rfl, rfl, by rw [if_pos he]; exact hnarrow⟩⟩
    have hallowed := hmade.arrayAllows_of_base hl hsteps (base_narrow hp1)
    refine ⟨_, path_canon_eq_some_iff.mpr ⟨_, p1, hplace, ?_, hallowed,
      (hkept p1 hp1 _ rfl).mpr hjoins.objects, rfl⟩⟩
    rw [hprepare]
    exact hp1

end PathRules
end LeakTrace
