import LeakTrace.Proofs.Path.Stretches

/-!
# What the length limit does to paths

The limit comes last. It keeps the front of what the other passes left of a chain, and a path that
lost steps to it means all that is below its end and tells that it was cut.

**A limit of zero comes first as well**: the chain is gone before any pass has seen it, and the path
tells nothing. So the law of the limit holds for the positive ones, and for zero exactly where there
was nothing to cut or to fold (`truncates_iff`).
-/

namespace LeakTrace
namespace PathRules
variable {r : PathRules} {q : PathRequest} {p : AccessPath} {p₁ : Place} {n m : Nat}

/-! ## The chain before the limit -/

theorem cuts_shorten_eq_nil_iff (p₁ : Place) :
    (r.shorten q p₁).cuts = [] ↔ (r.shorten q p₁).steps.length = (r.unfolded q p₁).length := by
  rcases shorten_kept_or_accounts (r := r) (q := q) p₁ with heq | ⟨n, cuts, h⟩
  · simp [heq]
  · exact h.cuts_eq_nil_iff

/-- A chain before it is cut to the limit: what folding starts from, and what it leaves. -/
structure Chain where
  unfolded : List Step
  folded : List Step
  length_le : folded.length ≤ unfolded.length

def chain? (r : PathRules) (q : PathRequest) : Option Chain := do
  let p ← q.place? (if r.casts.enabled then q.ty else none)
  let p ← r.narrow { p with steps := r.trim q p.steps }
  return ⟨r.unfolded q p, (r.shorten q p).steps, length_shorten_le p⟩

def withLength (r : PathRules) (n : Nat) : PathRules :=
  { r with settings := { r.settings with length := n } }

/-! ## The law of the limit -/

/-- The path holds what the limit admits of a chain, and tells what was lost of it. -/
structure Truncates (limit : Nat) (deep : Bool) (c : Chain) (p : AccessPath) : Prop where
  length : p.steps.length = min c.folded.length limit
  tooLong : limit < c.folded.length → p.deep = true ∧ p.cut = true
  whole : c.folded.length ≤ limit →
    p.deep = deep ∧ (p.cut = true ↔ c.folded.length < c.unfolded.length)

theorem truncates_of_positive (hpos : 0 < r.settings.length) (hp : (r.canon q).path = some p) :
    ∃ c, r.chain? q = some c ∧ Truncates r.settings.length q.deep c p := by
  obtain ⟨p₀, p₁, hp₀, hp₁, -, -, rfl⟩ := path_canon_eq_some_iff.mp hp
  rw [prepare_eq_trim hpos] at hp₁
  refine ⟨⟨r.unfolded q p₁, (r.shorten q p₁).steps, length_shorten_le p₁⟩, ?_, ?_, fun h => ?_,
    fun h => ?_⟩
  · simp [chain?, hp₀, hp₁]
  · simp [limit, Nat.min_comm]
  · simp [limit, h]
  · have hfolded : (!(r.shorten q p₁).cuts.isEmpty) ↔
        (r.shorten q p₁).steps.length < (r.unfolded q p₁).length := by
      rw [Bool.not_eq_true', List.isEmpty_eq_false_iff, Ne, cuts_shorten_eq_nil_iff,
        (length_shorten_le p₁).lt_iff_ne]
    simp only [limit, h.not_gt, decide_false, Bool.or_false, Bool.false_or, true_and]
    exact hfolded

theorem bare_of_zero (hzero : r.settings.length = 0) (hp : (r.canon q).path = some p) :
    p.steps = [] ∧ p.deep = q.deep ∧ p.cut = false := by
  obtain ⟨p₀, p₁, hp₀, hp₁, -, -, rfl⟩ := path_canon_eq_some_iff.mp hp
  have hsteps : p₁.steps = [] :=
    List.length_eq_zero_iff.mp (by simpa [prepare_eq_nil hzero] using length_narrow hp₁)
  have hunfolded : r.unfolded q p₁ = [] := by simp [unfolded, hsteps, Step.skipOuter]
  have hfolded : (r.shorten q p₁).steps = [] := by
    simpa [hunfolded] using length_shorten_le (r := r) (q := q) p₁
  have hcuts : (r.shorten q p₁).cuts = [] :=
    (cuts_shorten_eq_nil_iff p₁).mpr (by rw [hfolded, hunfolded])
  simp [limit, hfolded, hcuts]

/-- Something is lost of the chain that a request asks for: to the limit, or to folding. -/
def Shortens (r : PathRules) (q : PathRequest) : Prop :=
  0 < r.settings.length ∧ ∃ c, r.chain? q = some c ∧
    (r.settings.length < c.folded.length ∨ c.folded.length < c.unfolded.length)

theorem cut_canon_iff (hp : (r.canon q).path = some p) : p.cut ↔ r.Shortens q := by
  unfold Shortens
  rcases Nat.eq_zero_or_pos r.settings.length with hzero | hpos
  · simp [(bare_of_zero hzero hp).2.2, hzero]
  · obtain ⟨c, hc, h⟩ := truncates_of_positive hpos hp
    simp only [hc, hpos, true_and, Option.some.injEq, exists_eq_left']
    by_cases hlong : r.settings.length < c.folded.length
    · simp [hlong, (h.tooLong hlong).2]
    · rw [(h.whole (Nat.not_lt.mp hlong)).2]
      simp [hlong]

/-- **The law of the limit holds exactly for positive limits**, and under a limit of zero where there
is nothing to cut or to fold. -/
theorem truncates_iff (hp : (r.canon q).path = some p) :
    (0 < r.settings.length → (r.chain? q).isSome = true) ∧
      (r.settings.length = 0 → p.steps = [] ∧ p.deep = q.deep ∧ p.cut = false) ∧
      ∀ c, r.chain? q = some c →
        (Truncates r.settings.length q.deep c p ↔ 0 < r.settings.length ∨ c.unfolded = []) := by
  refine ⟨fun hpos => ?_, fun hzero => bare_of_zero hzero hp, fun c hc => ?_⟩
  · obtain ⟨c, hc, -⟩ := truncates_of_positive hpos hp
    rw [hc]
    rfl
  · rcases Nat.eq_zero_or_pos r.settings.length with hzero | hpos
    · obtain ⟨hsteps, hdeep, hcut⟩ := bare_of_zero hzero hp
      constructor
      · intro h
        have hfolded : c.folded.length = 0 := by
          by_contra hne
          have := (h.tooLong (by omega)).2
          simp [hcut] at this
        have hkept := (h.whole (by omega)).2
        simp only [hcut, Bool.false_eq_true, false_iff] at hkept
        exact .inr (List.length_eq_zero_iff.mp (by omega))
      · rintro (hpos | hnil)
        · omega
        · have hle := c.length_le
          rw [hnil] at hle
          have hfolded : c.folded.length = 0 := Nat.le_zero.mp hle
          exact ⟨by simp [hsteps, hfolded], fun h => by omega, fun _ => ⟨hdeep, by simp [hcut, hnil]⟩⟩
    · obtain ⟨c', hc', h⟩ := truncates_of_positive hpos hp
      obtain rfl := Option.some.inj (hc.symm.trans hc')
      exact iff_of_true h (.inl hpos)

/-- Of `o.f.next.extra` folding leaves two fields, and a limit of one keeps the first of them. -/
theorem extra_truncated : ∃ p c, ((nodeRules.withLength 1).canon extraThroughNext).path = some p ∧
    (nodeRules.withLength 1).chain? extraThroughNext = some c ∧ Truncates 1 true c p := by
  obtain ⟨p, hp⟩ := Option.isSome_iff_exists.mp
    (by decide +kernel : ((nodeRules.withLength 1).canon extraThroughNext).path.isSome)
  obtain ⟨hsome, -, hlaw⟩ := truncates_iff hp
  obtain ⟨c, hc⟩ := Option.isSome_iff_exists.mp (hsome Nat.one_pos)
  exact ⟨p, c, hp, hc, (hlaw c hc).mpr (.inl Nat.one_pos)⟩

/-- **A limit of zero cuts without a word**: the request for `o.f` alone, nothing below it, gives
`o` alone. -/
theorem zero_limit_tells_nothing :
    let q : PathRequest := { value := some (.field listOwner firstNode), deep := false }
    ∃ p c, ((nodeRules.withLength 0).canon q).path = some p ∧
      (nodeRules.withLength 0).chain? q = some c ∧ ¬Truncates 0 false c p := by
  intro q
  obtain ⟨p, hp⟩ := Option.isSome_iff_exists.mp
    (by decide +kernel : ((nodeRules.withLength 0).canon q).path.isSome)
  obtain ⟨c, hc, hlength⟩ := Option.map_eq_some_iff.mp
    (by decide +kernel : ((nodeRules.withLength 0).chain? q).map (·.folded.length) = some 1)
  refine ⟨p, c, hp, hc, fun h => ?_⟩
  have htells := (h.tooLong (by omega)).2
  simp [(bare_of_zero rfl hp).2.2] at htells

/-! ## Smaller limits -/

theorem feasible_iff {p : Place} : feasible p ↔ (∀ t ∈ p.ty, t.isPrimitive → p.steps = []) ∧
    (∀ s ∈ p.steps.dropLast, s.field.ty.isPrimitive = false) ∧ (p.base = none → p.steps ≠ []) := by
  obtain ⟨base, ty, steps⟩ := p
  cases ty with
  | none => cases base <;> simp [feasible]
  | some t => cases ht : t.isPrimitive <;> cases base <;> simp [feasible, ht, and_assoc]

theorem isEmpty_eq_false {p : Path} (h : feasible ⟨p.base, p.ty, p.steps⟩) : p.isEmpty = false := by
  obtain ⟨-, -, hroot⟩ := feasible_iff.mp h
  unfold Path.isEmpty
  cases hbase : p.base with
  | none => simpa using hroot hbase
  | some l => rfl

theorem feasible_take {base : Option Local} {ty : Option Ty} {steps : List Step} (hn : 0 < n)
    (hle : n ≤ m) (h : feasible ⟨base, ty, steps.take m⟩) : feasible ⟨base, ty, steps.take n⟩ := by
  have hempty : ∀ k, 0 < k → (steps.take k = [] ↔ steps = []) := fun k hk => by simp [hk.ne']
  have hfront : (steps.take n).dropLast <+: (steps.take m).dropLast := by
    rw [List.dropLast_take_eq_take_dropLast, List.dropLast_take_eq_take_dropLast]
    exact List.take_prefix_take_left (Nat.sub_le_sub_right hle 1)
  simp only [feasible_iff, Ne, hempty n hn, hempty m (hn.trans_le hle)] at h ⊢
  exact ⟨h.1, fun s hs => h.2.1 s (hfront.mem hs), h.2.2⟩

/-- Under a smaller limit a chain ends no later, and where it ends earlier all below is meant. -/
theorem limit_entails {folded : Bool} (hle : n ≤ m)
    (hn : feasible ⟨p₁.base, p₁.ty, p₁.steps.take n⟩)
    (hm : feasible ⟨p₁.base, p₁.ty, p₁.steps.take m⟩) : let p := (r.withLength n).limit q p₁ folded
    let p' := (r.withLength m).limit q p₁ folded
    p.toPath = p'.toPath ∨ p.entails p'.toPath := by
  intro p p'
  by_cases hlong : n < p₁.steps.length
  · have hfields : p.fields.isPrefixOf p'.fields :=
      List.isPrefixOf_iff_prefix.mpr ((List.take_prefix_take_left hle).map _)
    have hdeep : p.deep := by simp [p, limit, withLength, hlong]
    right
    simp only [Path.entails, isEmpty_eq_false (p := p.toPath) hn,
      isEmpty_eq_false (p := p'.toPath) hm, hdeep, hfields]
    simp [p, p', limit]
  · left
    have htake : ∀ k, n ≤ k → p₁.steps.take k = p₁.steps ∧ ¬k < p₁.steps.length := fun k hk =>
      ⟨List.take_of_length_le (by omega), by omega⟩
    simp [p, p', limit, withLength, htake n le_rfl, htake m hle]

/-- **A smaller limit asks for no less**: what is made under a limit is made under a smaller one as
well, as the same path or as one that entails it. -/
theorem smaller_limit_entails {q : PathRequest} {n m : Nat} {s s' : PathStore}
    {p' : AccessPath} (hs : s.rules = r.withLength n) (hs' : s'.rules = r.withLength m)
    (hn : 1 ≤ n) (hle : n ≤ m) (hp' : ((Paths.make q).run s').1 = some p') : ∃ p,
    ((Paths.make q).run s).1 = some p ∧ (p.toPath = p'.toPath ∨ p.entails p'.toPath = true) := by
  rw [Paths.run_make, hs'] at hp'
  rw [Paths.run_make, hs]
  obtain ⟨p₀, p₁, hp₀, hp₁, ha, hf, rfl⟩ := path_canon_eq_some_iff.mp hp'
  have hprepare : (r.withLength n).prepare q p₀.steps = (r.withLength m).prepare q p₀.steps :=
    (prepare_eq_trim (r := r.withLength n) hn _).trans
      (prepare_eq_trim (r := r.withLength m) (hn.trans hle) _).symm
  have hf' := feasible_take (Nat.lt_of_succ_le hn) hle hf
  refine ⟨_, path_canon_eq_some_iff.mpr ⟨p₀, p₁, hp₀, ?_, ha, hf', rfl⟩, limit_entails hle hf' hf⟩
  rw [hprepare]
  exact hp₁

/-- `o.f` with all below it, which a limit of one leaves of `o.f.next.extra`, entails `o.f.extra`. -/
theorem extra_entailed :
    ∃ p p', ((Paths.make extraThroughNext).run { rules := nodeRules.withLength 1 }).1 = some p ∧
      ((Paths.make extraThroughNext).run { rules := nodeRules.withLength 5 }).1 = some p' ∧
      (p.toPath = p'.toPath ∨ p.entails p'.toPath = true) := by
  obtain ⟨p', hp'⟩ := Option.isSome_iff_exists.mp
    (by decide +kernel : ((nodeRules.withLength 5).canon extraThroughNext).path.isSome)
  rw [← Paths.run_make extraThroughNext { rules := nodeRules.withLength 5 }] at hp'
  obtain ⟨p, hp, h⟩ := smaller_limit_entails (s := { rules := nodeRules.withLength 1 }) rfl rfl
    (le_refl 1) (by decide) hp'
  exact ⟨p, p', hp, hp', h⟩

end PathRules
end LeakTrace
