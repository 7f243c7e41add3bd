import LeakTrace.Proofs.Path.Passes

/-!
# When a canonical path is canonical again

A path that was made and is requested once more, by its own parts, may come out as another one: the
passes run once and in one order, and what a late pass leaves behind can be food for an early one.
Folding `f.next.extra` to `f.extra` puts `extra` behind `f`, and the next request narrows the type
of `f` to the class that declares `extra`.

**A path comes out as it is exactly if it is settled**: its chain gives no pass anything to do, and
its types are as exact as the fields behind them ask for.
-/

namespace LeakTrace
open List Option

def Path.again (p : Path) (reduce : Bool) : PathRequest where
  value := p.base.map .var
  ty := p.ty
  steps := p.steps
  deep := p.deep
  reduce := reduce
  part := p.part
  immutable := p.immutable

namespace PathRules
variable {r : PathRules} {q : PathRequest} {p : AccessPath} {l : Local} {p0 p1 : Place}
  {h : Hierarchy} {steps out : List Step} {t : Ty} {ty : Option Ty}

/-! ## Narrowing -/

/-- The type of the base is the declared one, or comes out of both comparisons unchanged: with the
declaration and with the owner of the first field. -/
def BaseNarrowed (h : Hierarchy) (l : Local) (t : Ty) (first : Option Step) : Prop :=
  t = l.ty ∨ ∃ u, h.morePrecise? t l.ty = some u ∧
    match first with
    | some s => if u.isArray then u = t else h.morePrecise? u s.field.ownerTy = some t
    | none => u = t

/-- The type of a step is an array or at least as exact as the owner of the next field. -/
def StepNarrowed (h : Hierarchy) (s next : Step) : Prop :=
  s.ty.isArray = true ∨ h.morePrecise? s.ty next.field.ownerTy = some s.ty

theorem narrowSteps_cons_cons {s next : Step} {rest : List Step} :
    narrowSteps h (s :: next :: rest) = some out ↔ ∃ ty tail,
      (if s.ty.isArray then some s.ty else h.morePrecise? s.ty next.field.ownerTy) = some ty ∧
        narrowSteps h (next :: rest) = some tail ∧ { s with ty } :: tail = out := by
  rw [narrowSteps]
  split <;> simp [bind_eq_some_iff]

theorem fields_narrowSteps (hout : narrowSteps h steps = some out) :
    out.map (·.field) = steps.map (·.field) := by
  induction steps generalizing out with
  | nil => simpa [narrowSteps] using hout
  | cons s rest ih =>
    cases rest with
    | nil => simp_all [narrowSteps]
    | cons next rest =>
      obtain ⟨ty, tail, -, htail, rfl⟩ := narrowSteps_cons_cons.mp hout
      simp [ih htail]

theorem narrowSteps_eq_self_iff :
    narrowSteps h steps = some steps ↔ steps.IsChain (StepNarrowed h) := by
  induction steps with
  | nil => simp [narrowSteps]
  | cons s rest ih =>
    cases rest with
    | nil => simp [narrowSteps]
    | cons next rest =>
      rw [isChain_cons_cons, ← ih, narrowSteps_cons_cons]
      unfold StepNarrowed
      constructor
      · rintro ⟨ty, tail, hty, htail, heq⟩
        obtain ⟨hs, rfl⟩ := List.cons.inj heq
        obtain rfl : ty = s.ty := congrArg Step.ty hs
        refine ⟨?_, htail⟩
        by_cases ha : s.ty.isArray
        · exact .inl ha
        · rw [if_neg ha] at hty
          exact .inr hty
      · rintro ⟨hs, htail⟩
        refine ⟨s.ty, next :: rest, ?_, htail, rfl⟩
        rcases hs with ha | hs
        · rw [if_pos ha]
        · rw [hs, ite_self]

theorem narrowBase_eq_self_iff :
    narrowBase h ⟨some l, some t, steps⟩ = some (some t) ↔ BaseNarrowed h l t steps.head? := by
  unfold narrowBase BaseNarrowed
  by_cases ht : t = l.ty
  · simp [ht]
  · simp only [ht, false_or]
    rw [if_neg (by simpa using ht)]
    cases steps with
    | nil => simp [bind_eq_some_iff]
    | cons s rest =>
      simp only [bind_eq_bind, bind_eq_some_iff, head?_cons]
      refine exists_congr fun u => and_congr_right fun _ => ?_
      by_cases hu : u.isArray = true <;> simp [hu, bind_eq_some_iff]

/-! ## What is known of a path that was made -/

/-- A path as `canon` leaves it. -/
structure Made (r : PathRules) (p : AccessPath) : Prop where
  length_le : p.steps.length ≤ r.settings.length
  allowed : arrayAllows ⟨p.base, p.ty, p.steps⟩ = true
  feasible : feasible ⟨p.base, p.ty, p.steps⟩ = true
  ty_of_base : ∀ l, p.base = some l → ∃ t, p.ty = some t ∧ (r.casts.enabled = false → t = l.ty)

theorem ty_of_place? (h : q.place? ty = some p0) (hl : p0.base = some l) :
    ∃ t, p0.ty = some t ∧ (ty = none → t = l.ty) := by
  unfold PathRequest.place? at h
  split at h
  case h_1 b f _ =>
    obtain rfl := Option.some.inj h
    obtain rfl := Option.some.inj hl
    exact ⟨b.ty, rfl, fun _ => rfl⟩
  case h_2 =>
    obtain rfl := Option.some.inj h
    simp at hl
  case h_3 b _ _ | h_4 b _ =>
    obtain rfl := Option.some.inj h
    obtain rfl := Option.some.inj hl
    exact ⟨ty.getD b.ty, rfl, fun hty => by rw [hty]; rfl⟩
  case h_5 => simp at h
  case h_6 =>
    split at h
    · simp at h
    · obtain rfl := Option.some.inj h
      simp at hl

theorem ty_of_narrowBase (hty : narrowBase h p0 = some ty) (ht : p0.ty = some t) :
    ∃ u, ty = some u := by
  unfold narrowBase at hty
  split at hty
  case h_1 => exact ⟨t, by rw [← ht]; exact (Option.some.inj hty).symm⟩
  case h_2 l _ =>
    split at hty
    · exact ⟨t, by rw [← ht]; exact (Option.some.inj hty).symm⟩
    · rw [ht] at hty
      obtain ⟨u, -, hu⟩ := bind_eq_some_iff.mp hty
      split at hu
      · dsimp only at hu
        split at hu
        · exact ⟨u, (Option.some.inj hu).symm⟩
        · obtain ⟨v, -, hv⟩ := bind_eq_some_iff.mp hu
          exact ⟨v, (Option.some.inj hv).symm⟩
      · exact ⟨u, (Option.some.inj hu).symm⟩

theorem narrow_eq_some_iff (he : r.casts.enabled) :
    r.narrow p0 = some p1 ↔ p1.base = p0.base ∧ narrowBase r.casts.hierarchy p0 =
    some p1.ty ∧ narrowSteps r.casts.hierarchy p0.steps = some p1.steps := by
  unfold narrow
  rw [if_pos he]
  constructor
  · intro h
    obtain ⟨ty, hty, h⟩ := bind_eq_some_iff.mp h
    obtain ⟨steps, hsteps, h⟩ := bind_eq_some_iff.mp h
    obtain rfl := Option.some.inj h
    exact ⟨rfl, hty, hsteps⟩
  · rintro ⟨hbase, hty, hsteps⟩
    rw [hty, hsteps]
    cases p1
    simp_all

theorem narrow_of_disabled (he : r.casts.enabled = false) : r.narrow p0 = some p0 := by
  simp [narrow, he]

theorem base_narrow (h : r.narrow p0 = some p1) : p1.base = p0.base := by
  cases he : r.casts.enabled with
  | true => exact ((narrow_eq_some_iff he).mp h).1
  | false => rw [Option.some.inj ((narrow_of_disabled he).symm.trans h)]

theorem fields_narrow (h : r.narrow p0 = some p1) :
    p1.steps.map (·.field) = p0.steps.map (·.field) := by
  cases he : r.casts.enabled with
  | true => exact fields_narrowSteps ((narrow_eq_some_iff he).mp h).2.2
  | false => rw [Option.some.inj ((narrow_of_disabled he).symm.trans h)]

theorem length_narrow (h : r.narrow p0 = some p1) : p1.steps.length = p0.steps.length := by
  simpa using congrArg List.length (fields_narrow h)

theorem made_of_canon (h : (r.canon q).path = some p) : Made r p := by
  obtain ⟨p0, p1, hp0, hp1, ha, hf, rfl⟩ := path_canon_eq_some_iff.mp h
  refine ⟨length_take_le _ _, ?_, hf, fun l hl => ?_⟩
  · -- A shorter chain is allowed where a longer one is.
    unfold arrayAllows at ha ⊢
    dsimp only [limit]
    split at ha
    case h_2 => rfl
    case h_1 e he =>
      rcases (Bool.or_eq_true _ _).mp ha with href | hempty
      · simp [href]
      · have hle := (length_shorten_le p1).trans (unfolded_sublist r q p1).length_le
        rw [List.isEmpty_iff.mp hempty] at hle
        simp [length_eq_zero_iff.mp (Nat.le_zero.mp hle)]
  · obtain ⟨t, ht, htl⟩ := ty_of_place? hp0 ((base_narrow hp1).symm.trans hl)
    cases he : r.casts.enabled with
    | true =>
      obtain ⟨-, hty, -⟩ := (narrow_eq_some_iff he).mp hp1
      obtain ⟨u, hu⟩ := ty_of_narrowBase hty ht
      exact ⟨u, hu, by simp⟩
    | false =>
      obtain rfl := Option.some.inj ((narrow_of_disabled he).symm.trans hp1)
      exact ⟨t, ht, fun _ => htl (by simp [he])⟩

/-! ## Requested once more -/

/-- There is nothing to do for a pass that the rules switch on. -/
structure Settled (r : PathRules) (reduce : Bool) (l : Local) (p : AccessPath) : Prop where
  noRepeat : r.settings.collapseRepeats = true → ¬Step.Repeats p.steps
  baseTy : r.casts.enabled = true → ∀ t ∈ p.ty, BaseNarrowed r.casts.hierarchy l t p.steps.head?
  stepTys : r.casts.enabled = true → p.steps.IsChain (StepNarrowed r.casts.hierarchy)
  noDetour : (r.settings.foldOuterThis && reduce) = true → Step.OuterFree p.ty p.steps
  noReturn : (r.settings.foldRecursive && reduce) = true → Step.FoldFree p.ty p.steps

variable {reduce : Bool}

theorem Made.place?_again (h : Made r p) (hl : p.base = some l) :
    (p.again reduce).place? (if r.casts.enabled then (p.again reduce).ty else none) =
      some ⟨p.base, p.ty, p.steps⟩ := by
  obtain ⟨t, ht, htl⟩ := h.ty_of_base l hl
  simp only [Path.again, hl, ht, map_some, PathRequest.place?]
  cases he : r.casts.enabled with
  | true => rfl
  | false => rw [htl he]; rfl

theorem Made.prepare_again (h : Made r p) : r.prepare (p.again reduce) p.steps =
    if r.settings.collapseRepeats then Step.collapse p.steps else p.steps := by
  rcases Nat.eq_zero_or_pos r.settings.length with hzero | hpos
  · have hnil : p.steps = [] := length_eq_zero_iff.mp (Nat.le_zero.mp (hzero ▸ h.length_le))
    rw [prepare_eq_nil hzero, hnil, Step.collapse, ite_self]
  · exact prepare_eq_trim hpos p.steps

theorem steps_shorten_of_base (hl : p1.base = some l) :
    (r.shorten q p1).steps = if r.settings.foldRecursive && q.reduce then
      (Step.fold p1.ty (r.unfolded q p1)).steps else r.unfolded q p1 := by
  rw [shorten_eq, hl]
  split <;> rfl

theorem steps_shorten_of_free (hl : p1.base = some l)
    (houter : (r.settings.foldOuterThis && q.reduce) → Step.OuterFree p1.ty p1.steps)
    (hfold : (r.settings.foldRecursive && q.reduce) → Step.FoldFree p1.ty p1.steps) :
    (r.shorten q p1).steps = p1.steps := by
  rw [steps_shorten_of_base hl, unfolded_of_free houter]
  split
  case isTrue h => rw [Step.fold_of_free (hfold h)]
  case isFalse => rfl

theorem free_of_length_shorten (hl : p1.base = some l)
    (hlen : (r.shorten q p1).steps.length = p1.steps.length) :
    ((r.settings.foldOuterThis && q.reduce) → Step.OuterFree p1.ty p1.steps) ∧
      ((r.settings.foldRecursive && q.reduce) → Step.FoldFree p1.ty p1.steps) := by
  have houter : (r.settings.foldOuterThis && q.reduce) → Step.OuterFree p1.ty p1.steps := by
    intro h
    have hkept := le_antisymm (unfolded_sublist r q p1).length_le
      (hlen.symm.le.trans (length_shorten_le p1))
    rw [unfolded, if_pos h] at hkept
    exact Step.outerFree_of_length hkept
  refine ⟨houter, fun h => Step.foldFree_of_length ?_⟩
  rwa [steps_shorten_of_base hl, if_pos h, unfolded_of_free houter] at hlen

theorem Settled.path_again (hmade : Made r p) (hl : p.base = some l) (h : Settled r reduce l p) :
    ∃ p', (r.canon (p.again reduce)).path = some p' ∧ p'.toPath = p.toPath := by
  have hprep : r.prepare (p.again reduce) p.steps = p.steps := by
    rw [hmade.prepare_again]
    split
    case isTrue hc => exact Step.collapse_of_not_repeats (h.noRepeat hc)
    case isFalse => rfl
  have hnarrow : r.narrow ⟨p.base, p.ty, p.steps⟩ = some ⟨p.base, p.ty, p.steps⟩ := by
    cases he : r.casts.enabled with
    | false => exact narrow_of_disabled he
    | true =>
      obtain ⟨t, ht, -⟩ := hmade.ty_of_base l hl
      refine (narrow_eq_some_iff he).mpr ⟨rfl, ?_, narrowSteps_eq_self_iff.mpr (h.stepTys he)⟩
      rw [hl, ht]
      exact narrowBase_eq_self_iff.mpr (h.baseTy he t ht)
  have hshort : (r.shorten (p.again reduce) ⟨p.base, p.ty, p.steps⟩).steps = p.steps :=
    steps_shorten_of_free hl h.noDetour h.noReturn
  have htake : p.steps.take r.settings.length = p.steps := take_of_length_le hmade.length_le
  have hlong : ¬p.steps.length > r.settings.length := Nat.not_lt.mpr hmade.length_le
  refine ⟨_, path_canon_eq_some_iff.mpr ⟨_, _, hmade.place?_again hl, ?_, hmade.allowed, ?_, rfl⟩, ?_⟩
  · rw [hprep]
    exact hnarrow
  · simp only [limit, hshort, htake]
    exact hmade.feasible
  · simp only [limit, hshort, htake, hlong, decide_false, Bool.or_false]
    rfl

theorem settled_of_path_again (hmade : Made r p) (hl : p.base = some l) {p' : AccessPath}
    (h : (r.canon (p.again reduce)).path = some p') (heq : p'.toPath = p.toPath) :
    Settled r reduce l p := by
  obtain ⟨p0, p1, hp0, hp1, -, -, hp'⟩ := path_canon_eq_some_iff.mp h
  obtain rfl := Option.some.inj ((hmade.place?_again hl).symm.trans hp0)
  dsimp only at hp1
  have hsteps : (r.shorten (p.again reduce) p1).steps.take r.settings.length = p.steps := by
    rw [← congrArg Path.steps heq, ← hp']
    rfl
  have hty : p1.ty = p.ty := by
    rw [← congrArg Path.ty heq, ← hp']
    rfl
  have hbase : p1.base = some l := (base_narrow hp1).trans hl
  -- No pass makes the chain longer, so each of them kept its length.
  have htake := length_take_le' r.settings.length (r.shorten (p.again reduce) p1).steps
  have hshorten := (length_shorten_le p1).trans (unfolded_sublist r (p.again reduce) p1).length_le
  have hnarrow := length_narrow hp1
  have hprepare := (prepare_sublist r (p.again reduce) p.steps).length_le
  rw [hsteps] at htake
  dsimp only at hnarrow
  have hcollapse : r.settings.collapseRepeats → ¬Step.Repeats p.steps := by
    intro hc
    refine Step.not_repeats_of_length ?_
    rw [hmade.prepare_again, if_pos hc] at hnarrow hprepare
    omega
  have hprep : r.prepare (p.again reduce) p.steps = p.steps := by
    rw [hmade.prepare_again]
    split
    case isTrue hc => exact Step.collapse_of_not_repeats (hcollapse hc)
    case isFalse => rfl
  rw [hprep] at hp1 hnarrow
  have hkept : (r.shorten (p.again reduce) p1).steps.length = p1.steps.length := by omega
  obtain ⟨houter, hfold⟩ := free_of_length_shorten hbase hkept
  have hp1steps : p1.steps = p.steps := by
    rw [steps_shorten_of_free hbase houter hfold, take_of_length_le] at hsteps
    · exact hsteps
    · exact hnarrow.le.trans hmade.length_le
  rw [hty, hp1steps] at houter hfold
  refine ⟨hcollapse, fun he t ht => ?_, fun he => ?_, houter, hfold⟩
  · obtain ⟨-, hnb, -⟩ := (narrow_eq_some_iff he).mp hp1
    rw [hty] at hnb
    rw [hl, mem_def.mp ht] at hnb
    exact narrowBase_eq_self_iff.mp hnb
  · obtain ⟨-, -, hns⟩ := (narrow_eq_some_iff he).mp hp1
    rw [hp1steps] at hns
    exact narrowSteps_eq_self_iff.mp hns

/-- A path with a local base that was made under some rules comes out of a request by its own parts
as it is, exactly if it is settled. -/
theorem path_again_eq_iff_settled (r : PathRules) (q : PathRequest) (p : AccessPath) (l : Local)
    (reduce : Bool) (hp : (r.canon q).path = some p) (hl : p.base = some l) :
    (∃ p', (r.canon (p.again reduce)).path = some p' ∧ p'.toPath = p.toPath) ↔
      Settled r reduce l p := by
  have hmade := made_of_canon hp
  constructor
  · rintro ⟨p', hp', heq⟩
    exact settled_of_path_again hmade hl hp' heq
  · intro h
    exact h.path_again hmade hl

/-! ## A list whose nodes may hold more -/

/-- `SubNode` declares a field that `Node`, its superclass, does not have. -/
def nodeRules : PathRules where
  casts := ⟨⟨[⟨"Main", {}⟩, ⟨"Node", {}⟩, ⟨"SubNode", { superclass := some "Node" }⟩]⟩, true⟩

def listOwner : Local := ⟨0, "o", .cls "Main"⟩

def firstNode : Field := ⟨"Main", "f", .cls "Node", false⟩

def nextNode : Field := ⟨"Node", "next", .cls "Node", false⟩

def extraField : Field := ⟨"SubNode", "extra", .cls "java.lang.String", false⟩

/-- The path `o.f.extra` where the analysis knows the given type for `f`. -/
def extraThrough (node : Ty) : Path where
  base := some listOwner
  ty := some listOwner.ty
  steps := [⟨firstNode, node⟩, .of extraField]

def extraThroughNext : PathRequest where
  value := some (.var listOwner)
  steps := [.of firstNode, .of nextNode, .of extraField]

theorem canon_extraThrough (node : Ty) (h : node = .cls "Node" ∨ node = .cls "SubNode") :
    (nodeRules.canon ((extraThrough node).again true)).path.map (·.toPath) =
      some (extraThrough (.cls "SubNode")) := by
  rcases h with rfl | rfl <;> decide +kernel

/-- `o.f.extra` with the exact type for `f` is settled. -/
theorem extraThrough_settled :
    ∃ p, (nodeRules.canon ((extraThrough (.cls "Node")).again true)).path = some p ∧
      p.base = some listOwner ∧ Settled nodeRules true listOwner p := by
  obtain ⟨p, hp, hpath⟩ := map_eq_some_iff.mp (canon_extraThrough _ (.inl rfl))
  obtain ⟨p', hp', hpath'⟩ := map_eq_some_iff.mp (canon_extraThrough _ (.inr rfl))
  have hbase : p.base = some listOwner := by rw [hpath]; rfl
  refine ⟨p, hp, hbase, (path_again_eq_iff_settled _ _ p _ true hp hbase).mp ⟨p', ?_, ?_⟩⟩
  · rw [hpath]
    exact hp'
  · rw [hpath, hpath']

/-- Folding makes `o.f.extra` of `o.f.next.extra`, with the declared type for `f`; the request for
that path narrows the type. -/
theorem path_again_narrows_folded :
    ∃ p p', (nodeRules.canon extraThroughNext).path = some p ∧ p.base = some listOwner ∧
    (nodeRules.canon (p.again true)).path = some p' ∧ p'.toPath ≠ p.toPath := by
  have hfolded : (nodeRules.canon extraThroughNext).path.map (·.toPath) =
      some (extraThrough (.cls "Node")) := by
    decide +kernel
  obtain ⟨p, hp, hpath⟩ := map_eq_some_iff.mp hfolded
  obtain ⟨p', hp', hpath'⟩ := map_eq_some_iff.mp (canon_extraThrough _ (.inl rfl))
  refine ⟨p, p', hp, by rw [hpath]; rfl, by rw [hpath]; exact hp', ?_⟩
  rw [hpath, hpath']
  decide

end PathRules
end LeakTrace
