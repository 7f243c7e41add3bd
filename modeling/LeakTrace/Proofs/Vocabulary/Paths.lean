import LeakTrace.Proofs.Keeps.Paths
import LeakTrace.Proofs.Parts
import LeakTrace.Proofs.Path.Settled
import LeakTrace.Proofs.Types.Storage

/-!
# Paths are made of what is there

A path is made from a value of the program, a type and steps. Shortening only drops steps, narrowing
only picks one of two types, and the chain is cut at the end: so a path over a vocabulary comes out,
however long the request was. What folding cut out stays over the vocabulary too.
-/

namespace LeakTrace
open List Option

variable {V : Vocabulary} {s : PathStore} {n : Nat}

/-! ## Values -/

/-- What a value mentions. -/
inductive Atom where
  | local (l : Local)
  | field (f : Field)
  | ty (t : Ty)

def Atom.Over (V : Vocabulary) : Atom → Prop
  | .local l => l ∈ V.locals
  | .field f => f ∈ V.fields
  | .ty t => t.Over V

namespace Value
variable {op : Value} {b : Local} {f : Field} {t : Ty}

mutual

def atoms : Value → List Atom
  | .var l => [.local l]
  | .field b f => [.local b, .field f]
  | .global f => [.field f]
  | .element b i => .local b :: i.atoms
  | .const c => [.ty c.ty]
  | .cast t op => .ty t :: op.atoms
  | .isInstance op _ | .length op | .negate op => op.atoms
  | .alloc t | .self t | .param _ t | .caught t => [.ty t]
  | .allocArray e size => .ty (.array e) :: size.atoms
  | .binary _ l r => l.atoms ++ r.atoms
  | .call _ m base args => .ty m.ret :: (base.map Atom.local).toList ++ atomsOfList args

def atomsOfList : List Value → List Atom
  | [] => []
  | v :: rest => v.atoms ++ atomsOfList rest

end

-- The equations of both are long to make; they are made here, once for all lemmas that unfold them.
attribute [simp] atoms atomsOfList

def Over (V : Vocabulary) (v : Value) : Prop := ∀ a ∈ v.atoms, a.Over V

variable {v : Value}

@[simp]
theorem over_var {l : Local} : Over V (.var l) ↔ l ∈ V.locals := by
  simp [Over, atoms, Atom.Over]

@[simp]
theorem over_field : Over V (.field b f) ↔ b ∈ V.locals ∧ f ∈ V.fields := by
  simp [Over, atoms, Atom.Over]

@[simp]
theorem over_global : Over V (.global f) ↔ f ∈ V.fields := by
  simp [Over, atoms, Atom.Over]

@[simp]
theorem over_element {i : Value} : Over V (.element b i) ↔ b ∈ V.locals ∧ i.Over V := by
  simp [Over, atoms, Atom.Over]

@[simp]
theorem over_cast : Over V (.cast t op) ↔ t.Over V ∧ op.Over V := by
  simp [Over, atoms, Atom.Over]

@[simp]
theorem over_length : Over V (.length op) ↔ op.Over V := Iff.rfl

@[simp]
theorem over_negate : Over V (.negate op) ↔ op.Over V := Iff.rfl

@[simp]
theorem over_allocArray {size : Value} :
    Over V (.allocArray t size) ↔ Ty.Over V (.array t) ∧ size.Over V := by
  simp [Over, atoms, Atom.Over]

@[simp]
theorem over_binary {op : BinOp} {l r : Value} : Over V (.binary op l r) ↔ l.Over V ∧ r.Over V := by
  simp only [Over, atoms, forall_mem_append]

theorem atomsOfList_eq_flatMap (vs : List Value) : atomsOfList vs = vs.flatMap atoms := by
  induction vs with
  | nil => rfl
  | cons v rest ih => simp [ih]

@[simp]
theorem over_call {kind : CallKind} {m : MethodRef} {base : Option Local} {args : List Value} :
    Over V (.call kind m base args) ↔
      m.ret.Over V ∧ (∀ l ∈ base, l ∈ V.locals) ∧ ∀ v ∈ args, v.Over V := by
  rw [Over, atoms, atomsOfList_eq_flatMap, forall_mem_append, forall_mem_flatMap]
  cases base <;> simp [Over, Atom.Over, and_assoc]

/-! What is taken out of a value mentions no more than the value does. -/

theorem atoms_of_mem_parts {u : Value} (hu : u ∈ v.parts) : u.atoms ⊆ v.atoms := by
  cases v with
  | call kind m base args =>
    rcases mem_append.mp hu with hu | hu
    · cases base <;> simp_all [owner?]
    · rw [atoms, atomsOfList_eq_flatMap]
      exact subset_append_of_subset_right _ fun a ha => mem_flatMap_of_mem hu ha
  | _ => grind [parts, owner?, operands, atoms]

theorem StandsIn.atoms {u : Value} (h : u.StandsIn v) : u.atoms ⊆ v.atoms := by
  induction h with
  | refl => exact List.Subset.refl _
  | tail _ hpart ih => exact List.Subset.trans ih (atoms_of_mem_parts hpart)

theorem Over.standsIn {u : Value} (h : v.Over V) (hu : u.StandsIn v) : u.Over V :=
  fun a ha => h a (hu.atoms ha)

theorem Over.root (h : v.Over V) (keep : Bool) : (v.root keep).Over V :=
  h.standsIn (root_standsIn v keep)

theorem Over.roots (h : v.Over V) (keep : Bool) : ∀ u ∈ v.roots keep, u.Over V :=
  fun _ hu => h.standsIn (.of_mem_roots hu)

end Value

/-! ## Closed vocabularies -/

/-- The types of what is in the vocabulary are over it, and so are the few types that the analysis
brings in itself. -/
structure Vocabulary.Closed (V : Vocabulary) : Prop where
  local_ty : ∀ l ∈ V.locals, l.ty.Over V
  field_ty : ∀ f ∈ V.fields, f.ty.Over V
  owner_ty : ∀ f ∈ V.fields, f.ownerTy.Over V
  int_ty : Ty.Over V .int
  boolean_ty : Ty.Over V .boolean
  object_ty : Ty.object.Over V
  dims : Ty.maxDimensions ≤ V.dims
  no_data : none ∈ V.data

namespace Vocabulary.Closed
variable {v : Value}

variable (hV : V.Closed)
include hV

theorem over_step {f : Field} (hf : f ∈ V.fields) : (Step.of f).Over V :=
  ⟨hf, hV.field_ty f hf⟩

theorem over_ty (h : v.Over V) : v.ty.Over V := by
  fun_induction Value.ty v with
  | case1 l => exact hV.local_ty l (Value.over_var.mp h)
  | case2 b f => exact hV.field_ty f (Value.over_field.mp h).2
  | case3 f => exact hV.field_ty f (Value.over_global.mp h)
  | case4 b i =>
    have hb := hV.local_ty b (Value.over_element.mp h).1
    cases helem : b.ty.element? with
    | none => exact hV.object_ty
    | some t => exact hb.element helem
  | case5 c => exact h (.ty c.ty) mem_cons_self
  | case6 t op => exact (Value.over_cast.mp h).1
  | case7 => exact hV.boolean_ty
  | case8 => exact hV.int_ty
  | case9 t => exact h (.ty t) mem_cons_self
  | case10 t size => exact (Value.over_allocArray.mp h).1
  | case11 => exact hV.int_ty
  | case12 => exact hV.boolean_ty
  | case13 op l r _ _ ih => exact ih (Value.over_binary.mp h).1
  | case14 v ih => exact ih (Value.over_negate.mp h)
  | case15 => exact (Value.over_call.mp h).1
  | case16 t => exact h (.ty t) mem_cons_self
  | case17 _ t => exact h (.ty t) mem_cons_self
  | case18 t => exact h (.ty t) mem_cons_self

theorem over_arrayOf (h : v.Over V) (hel : v.isElement) : Ty.Over V (.array v.ty) := by
  cases v with
  | element b i =>
    have hb := hV.local_ty b (Value.over_element.mp h).1
    change Ty.Over V (.array (b.ty.element?.getD .object))
    cases hty : b.ty with
    | array t =>
      rw [hty] at hb
      exact hb
    | _ =>
      have hone : 1 ≤ Ty.maxDimensions := by decide
      exact Ty.over_array.mpr ⟨hV.object_ty.1, hone.trans hV.dims⟩
  | _ => cases hel

end Vocabulary.Closed

/-! ## Chains -/

namespace Step
variable {steps : List Step}

structure Folded.Over (V : Vocabulary) (f : Folded) : Prop where
  steps : ∀ s ∈ f.steps, Step.Over V s
  cuts : ∀ c ∈ f.cuts, c.1.Over V ∧ ∀ s ∈ c.2, Step.Over V s

theorem Accounts.over {before : Option Ty} {f : Folded} {cuts : List Cut}
    (h : Accounts n before steps f cuts) (hb : ∀ t ∈ before, Ty.Over V t)
    (hsteps : ∀ s ∈ steps, Step.Over V s) : f.Over V := by
  have hkept : ∀ s ∈ f.steps, Step.Over V s := fun s hs =>
    hsteps s (h.restores ▸ Cut.mem_foldr_restore.mpr (.inl hs))
  refine ⟨hkept, ?_⟩
  rw [← h.patterns]
  refine List.forall_mem_map.mpr fun c hc => ⟨?_, fun s hs => ?_⟩
  · have hty := h.ty c hc
    cases hpos : c.position with
    | zero => exact hb c.ty (by rwa [hpos] at hty)
    | succ i =>
      rw [hpos] at hty
      obtain ⟨s, hs, hst⟩ := map_eq_some_iff.mp hty
      change c.ty.Over V
      exact hst ▸ (hkept s (mem_of_getElem? hs)).ty
  · exact hsteps s (h.restores ▸ Cut.mem_foldr_restore.mpr (.inr ⟨c, hc, hs⟩))

end Step

/-! ## Requests -/

structure PathRequest.Over (V : Vocabulary) (q : PathRequest) : Prop where
  value : ∀ v ∈ q.value, Value.Over V v
  ty : ∀ t ∈ q.ty, Ty.Over V t
  steps : ∀ s ∈ q.steps, Step.Over V s

structure Place.Over (V : Vocabulary) (p : Place) : Prop where
  base : ∀ l ∈ p.base, l ∈ V.locals
  ty : ∀ t ∈ p.ty, Ty.Over V t
  steps : ∀ s ∈ p.steps, Step.Over V s

namespace PathRules
variable {r : PathRules} {q : PathRequest} {p : Place} {ty : Option Ty} {steps : List Step}
  {h : Hierarchy}

section
variable (hV : V.Closed)
include hV

theorem over_place? (hq : q.Over V) (hty : ∀ t ∈ ty, Ty.Over V t) (hp : q.place? ty = some p) :
    p.Over V := by
  have hfirst : ∀ f, f ∈ V.fields → ∀ s ∈ Step.of f :: q.steps, Step.Over V s := by
    intro f hf s hs
    rcases mem_cons.mp hs with rfl | hs
    · exact hV.over_step hf
    · exact hq.steps s hs
  have hroot : ∀ b, b ∈ V.locals → Place.Over V ⟨some b, some (ty.getD b.ty), q.steps⟩ := by
    intro b hb
    refine ⟨?_, ?_, hq.steps⟩
    · rintro _ ⟨⟩
      exact hb
    · rintro _ ⟨⟩
      cases ty with
      | none => exact hV.local_ty b hb
      | some t => exact hty t rfl
  unfold PathRequest.place? at hp
  split at hp
  · next b f hv =>
    cases hp
    obtain ⟨hb, hf⟩ := Value.over_field.mp (hq.value _ hv)
    refine ⟨?_, ?_, hfirst f hf⟩
    · rintro _ ⟨⟩
      exact hb
    · rintro _ ⟨⟩
      exact hV.local_ty b hb
  · next f hv =>
    cases hp
    exact ⟨all_none, all_none, hfirst f (Value.over_global.mp (hq.value _ hv))⟩
  · next b i hv =>
    cases hp
    exact hroot b (Value.over_element.mp (hq.value _ hv)).1
  · next b hv =>
    cases hp
    exact hroot b (Value.over_var.mp (hq.value _ hv))
  · cases hp
  · split at hp
    · cases hp
    · cases hp
      exact ⟨all_none, hty, hq.steps⟩

theorem over_narrowToOwner {t : Ty} (hty : (match steps with
      | s :: _ =>
        if t.isArray then pure (some t) else do pure (some (← h.morePrecise? t s.field.ownerTy))
      | [] => pure (some t)) = some ty) (hsteps : ∀ s ∈ steps, Step.Over V s) (ht : t.Over V) :
    ∀ t ∈ ty, Ty.Over V t := by
  cases steps with
  | nil =>
    cases hty
    rintro _ ⟨⟩
    exact ht
  | cons s rest =>
    dsimp only at hty
    split at hty
    · cases hty
      rintro _ ⟨⟩
      exact ht
    · obtain ⟨u, hu, hend⟩ := bind_eq_some_iff.mp hty
      cases hend
      rintro _ ⟨⟩
      rcases Hierarchy.morePrecise?_eq hu with rfl | rfl
      · exact ht
      · exact hV.owner_ty _ (hsteps s mem_cons_self).field

theorem over_narrowBase (hp : p.Over V) (hty : narrowBase h p = some ty) :
    ∀ t ∈ ty, Ty.Over V t := by
  unfold narrowBase at hty
  split at hty
  · cases hty
    exact hp.ty
  · next l hl =>
    have hlty := hV.local_ty l (hp.base l hl)
    split at hty
    · cases hty
      exact hp.ty
    · dsimp only at hty
      split at hty
      · next t ht =>
        obtain ⟨u, hu, hrest⟩ := bind_eq_some_iff.mp hty
        rcases Hierarchy.morePrecise?_eq hu with rfl | rfl
        · exact over_narrowToOwner hV hrest hp.steps (hp.ty _ ht)
        · exact over_narrowToOwner hV hrest hp.steps hlty
      · exact over_narrowToOwner hV hty hp.steps hlty

theorem over_narrowSteps {out : List Step} (hsteps : ∀ s ∈ steps, Step.Over V s)
    (hout : narrowSteps h steps = some out) : ∀ s ∈ out, Step.Over V s := by
  induction steps generalizing out with
  | nil =>
    cases hout
    exact forall_mem_nil _
  | cons s rest ih =>
    cases rest with
    | nil =>
      cases hout
      exact hsteps
    | cons next rest =>
      obtain ⟨ty, tail, hty, htail, rfl⟩ := narrowSteps_cons_cons.mp hout
      have hs := hsteps s mem_cons_self
      have hnext := hsteps next (mem_cons_of_mem s mem_cons_self)
      intro x hx
      rcases mem_cons.mp hx with rfl | hx
      · refine ⟨hs.field, ?_⟩
        split at hty
        · cases hty
          exact hs.ty
        · rcases Hierarchy.morePrecise?_eq hty with rfl | rfl
          · exact hs.ty
          · exact hV.owner_ty _ hnext.field
      · exact ih (fun y hy => hsteps y (mem_cons_of_mem s hy)) htail x hx

theorem over_narrow {p' : Place} (hp : p.Over V) (hn : r.narrow p = some p') : p'.Over V := by
  cases he : r.casts.enabled with
  | true =>
    obtain ⟨hbase, hty, hsteps⟩ := (narrow_eq_some_iff he).mp hn
    exact ⟨hbase ▸ hp.base, over_narrowBase hV hp hty, over_narrowSteps hV hp.steps hsteps⟩
  | false =>
    cases (narrow_of_disabled he).symm.trans hn
    exact hp

end

theorem over_shorten (hp : p.Over V) : (r.shorten q p).Over V := by
  have hsteps : ∀ s ∈ r.unfolded q p, Step.Over V s :=
    fun s hs => hp.steps s ((unfolded_sublist r q p).mem hs)
  rcases shorten_kept_or_accounts p with heq | ⟨n, cuts, h⟩
  · rw [heq]
    exact ⟨hsteps, forall_mem_nil _⟩
  · exact h.over hp.ty hsteps

/-- **Canonical paths stay in the vocabulary**, and so does what folding cuts out. -/
theorem over_canon (hV : V.Closed) (hlen : r.settings.length ≤ V.length) (hq : q.Over V) :
    (∀ a ∈ (r.canon q).path, Path.Over V a.toPath) ∧
      ∀ c ∈ (r.canon q).cuts, c.1.Over V ∧ ∀ s ∈ c.2, Step.Over V s := by
  unfold canon
  dsimp only
  split
  · exact ⟨all_none, forall_mem_nil _⟩
  · next p1 hplace =>
    obtain ⟨p0, hp0, hrest⟩ := bind_eq_some_iff.mp hplace
    obtain ⟨p2, hp2, harray⟩ := bind_eq_some_iff.mp hrest
    rw [ite_none_right_eq_some] at harray
    obtain ⟨-, ⟨⟩⟩ := harray
    have hty : ∀ t ∈ (if r.casts.enabled then q.ty else none), Ty.Over V t := by
      split
      · exact hq.ty
      · exact all_none
    have hover0 := over_place? hV hq hty hp0
    have hover : Place.Over V { p0 with steps := r.prepare q p0.steps } :=
      ⟨hover0.base, hover0.ty, fun s hs => hover0.steps s ((prepare_sublist r q _).mem hs)⟩
    have hover1 : p1.Over V := over_narrow hV hover hp2
    have hshort := over_shorten (r := r) (q := q) hover1
    refine ⟨fun a ha => ?_, hshort.cuts⟩
    rw [mem_def, ite_none_right_eq_some] at ha
    obtain ⟨-, ⟨⟩⟩ := ha
    refine ⟨hover1.base, hover1.ty, fun s hs => hshort.steps s (mem_of_mem_take hs), ?_⟩
    exact (length_take_le _ _).trans hlen

end PathRules

/-! ## Stores -/

structure PathStore.Over (V : Vocabulary) (s : PathStore) : Prop where
  length : s.rules.settings.length ≤ V.length
  patterns : ∀ p ∈ s.patterns, p.1.Over V ∧ ∀ x ∈ p.2, Step.Over V x

theorem PathStore.Over.register (h : s.Over V) {p : Ty × List Step} (hty : p.1.Over V)
    (hsteps : ∀ x ∈ p.2, Step.Over V x) : (s.register p).Over V := by
  unfold PathStore.register
  split
  · exact h
  · refine ⟨h.length, fun p' hp' => ?_⟩
    rcases mem_append.mp hp' with hp' | hp'
    · exact h.patterns p' hp'
    · rw [mem_singleton.mp hp']
      exact ⟨hty, hsteps⟩

theorem PathStore.Over.registerAll (h : s.Over V) {cuts : List (Ty × List Step)}
    (hcuts : ∀ c ∈ cuts, c.1.Over V ∧ ∀ x ∈ c.2, Step.Over V x) :
    (cuts.foldl PathStore.register s).Over V := by
  induction cuts generalizing s with
  | nil => exact h
  | cons c rest ih =>
    obtain ⟨hty, hsteps⟩ := hcuts c mem_cons_self
    exact ih (h.register hty hsteps) fun c' hc' => hcuts c' (mem_cons_of_mem c hc')

namespace Paths
variable {q : PathRequest} {deep cutFirst : Bool} {steps : List Step}

def Yields (V : Vocabulary) (a : Option AccessPath) : Prop := ∀ p ∈ a, Path.Over V p.toPath

theorem Yields.some {a : AccessPath} (h : a.toPath.Over V) : Yields V (some a) := by
  rintro _ ⟨⟩
  exact h

variable {a b : AccessPath} {v : Value} {ty : Option Ty} {part : ArrayPart}

section
variable (hV : V.Closed)
include hV

theorem make_keeps (hq : q.Over V) : Keeps (PathStore.Over V) (make q) (Yields V) := by
  intro s hs
  obtain ⟨hpath, hcuts⟩ := PathRules.over_canon hV hs.length hq
  refine ⟨?_, ?_, ?_⟩
  · rw [run_make]
    exact hpath
  · rw [s.rules_make]
    exact hs.length
  · rw [s.patterns_make_eq]
    exact (hs.registerAll hcuts).patterns

theorem ofValue_keeps (hv : v.Over V) : Keeps (PathStore.Over V) (ofValue v deep) (Yields V) := by
  refine make_keeps hV ⟨?_, all_none, forall_mem_nil _⟩
  rintro _ ⟨⟩
  exact hv

theorem ofTyped_keeps (hv : v.Over V) (hty : ∀ t ∈ ty, Ty.Over V t) :
    Keeps (PathStore.Over V) (ofTyped v ty deep part) (Yields V) := by
  refine make_keeps hV ⟨?_, hty, forall_mem_nil _⟩
  rintro _ ⟨⟩
  exact hv

variable (ha : a.toPath.Over V) (hv : v.Over V)
include ha hv

theorem rebase_keeps (hty : ∀ t ∈ ty, Ty.Over V t) {reduce : Bool} :
    Keeps (PathStore.Over V) (rebase a v ty cutFirst reduce part) (Yields V) := by
  refine remake_keeps (make_keeps hV ⟨?_, hty, ha.steps⟩) _ fun _ => ha
  rintro _ ⟨⟩
  exact hv

theorem onto_keeps : Keeps (PathStore.Over V) (onto a v) (Yields V) :=
  rebase_keeps hV ha hv ha.ty

theorem ontoTyped_keeps (hty : ∀ t ∈ ty, Ty.Over V t) :
    Keeps (PathStore.Over V) (ontoTyped a v ty cutFirst) (Yields V) :=
  rebase_keeps hV ha hv hty

end

theorem over_withSteps (ha : a.toPath.Over V) (hsteps : ∀ s ∈ steps, Step.Over V s)
    (hvalue : q.value = a.base.map .var) (hty : q.ty = a.ty) (hq : q.steps = steps) : q.Over V := by
  refine ⟨fun v hv => ?_, fun t ht => ha.ty t (hty ▸ ht), fun s hs => hsteps s (hq ▸ hs)⟩
  rw [hvalue] at hv
  obtain ⟨l, hl, rfl⟩ := map_eq_some_iff.mp hv
  exact Value.over_var.mpr (ha.base l hl)

section
variable (hV : V.Closed) (ha : a.toPath.Over V)
include hV ha

theorem append_keeps (hsteps : ∀ s ∈ steps, Step.Over V s) :
    Keeps (PathStore.Over V) (append a steps deep) (Yields V) := by
  have hall : ∀ s ∈ a.steps ++ steps, Step.Over V s := by
    intro s hs
    rcases mem_append.mp hs with hs | hs
    · exact ha.steps s hs
    · exact hsteps s hs
  unfold append
  split
  · exact Keeps.pure (Yields.some ha)
  · exact make_keeps hV (over_withSteps ha hall rfl rfl rfl)

theorem dropLast_keeps : Keeps (PathStore.Over V) (dropLast a) (Yields V) := by
  unfold dropLast
  split
  · exact Keeps.pure (Yields.some ha)
  · have hsteps : ∀ s ∈ a.steps.dropLast, Step.Over V s :=
      fun s hs => ha.steps s (mem_of_mem_dropLast hs)
    exact make_keeps hV (over_withSteps ha hsteps rfl rfl rfl)

theorem expand_keeps {pattern : List Step} (hpattern : ∀ s ∈ pattern, Step.Over V s) :
    Keeps (PathStore.Over V) (expand a n pattern) (Yields V) := by
  have hsteps : ∀ s ∈ a.steps.take n ++ pattern ++ a.steps.drop n, Step.Over V s := by
    intro s hs
    simp only [mem_append] at hs
    rcases hs with (hs | hs) | hs
    · exact ha.steps s (mem_of_mem_take hs)
    · exact hpattern s hs
    · exact ha.steps s (mem_of_mem_drop hs)
  exact make_keeps hV (over_withSteps ha hsteps rfl rfl rfl)

end
end Paths
end LeakTrace
