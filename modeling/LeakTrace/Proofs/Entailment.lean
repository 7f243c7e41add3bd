import LeakTrace.Proofs.Path.Locations
import LeakTrace.Sources

/-!
# What pruning observations at sinks loses

`Path.entails` is a preorder on paths that name a place, and it is *not* antisymmetric: it looks at
the place and at what is meant below it, while equality of paths also looks at types and at the mark
for immutable values. Two observations that differ in nothing else entail each other; they are
called **twins** here.

`SinkHit.pruned` drops an observation as soon as another one with a different path entails it, all
at once and against the list it was given. So twins drop each other, and nothing is left of either
unless something wider stays. `SinkHit.losesNothing_iff_twins_widened` says that this is the only
way to lose anything.
-/

namespace LeakTrace

/-! ## Entailment between paths -/

namespace Path
variable {p q : Path}

theorem fields_prefix_of_entails (h : p.entails q) : p.fields <+: q.fields := by
  obtain ⟨_, _, _, _, _, hf⟩ := entails_iff.mp h
  split at hf
  · exact hf
  · exact hf ▸ List.prefix_refl _

/-- A number that grows from a path to what it entails, and stays only where both mean the same. -/
def depth (p : Path) : Nat :=
  4 * p.fields.length + (if p.deep then 0 else 2) + (if p.part == .both then 0 else 1)

theorem depth_lt_of_entails (h : p.entails q) (hn : q.entails p = false) : p.depth < q.depth := by
  have hpre := fields_prefix_of_entails h
  have hlen := hpre.length_le
  obtain ⟨hp, hq, hb, hd, ha, _⟩ := entails_iff.mp h
  by_cases hl : p.fields.length = q.fields.length
  · -- Equal chains: were neither flag wider above, the entailed path would entail back.
    rcases Nat.lt_or_ge p.depth q.depth with hlt | hge
    · exact hlt
    · unfold depth at hge
      have hf : p.fields = q.fields := hpre.eq_of_length hl
      have hdeep : p.deep = q.deep := by
        cases hpd : p.deep <;> cases hqd : q.deep <;> grind
      have hpart : q.part = p.part := by
        rcases ha with ha | ha
        · cases hqp : q.part <;> grind
        · exact ha.symm
      have hback : q.entails p := by
        rw [entails_iff]
        refine ⟨hq, hp, hb.symm, fun h => hdeep ▸ h, Or.inr hpart, ?_⟩
        rw [hf]
        split
        · exact List.prefix_refl _
        · rfl
      rw [hn] at hback
      exact absurd hback (by simp)
  · unfold depth
    have h4 : p.fields.length + 1 ≤ q.fields.length := by omega
    split <;> split <;> split <;> split <;> omega

end Path

/-! ## Observations at one sink -/

theorem Taint.sameState_iff {a b : Taint} :
    a.sameState b ↔ a.origin = b.origin ∧ a.waitsFor = b.waitsFor ∧ a.turn = b.turn ∧ a.thrown =
    b.thrown ∧ a.implicit = b.implicit ∧ a.joins = b.joins ∧ a.cutDependent = b.cutDependent := by
  cases a
  cases b
  simp [sameState]

namespace SinkHit
variable {a b h c : SinkHit} {hits : List SinkHit}

/-- One sink sees both facts, in the same state. -/
def meets (a b : SinkHit) : Bool :=
  a.stmt == b.stmt && a.definition == b.definition && a.fact.sameState b.fact.toTaint

/-- What the second observes is observed by the first as well. -/
def standsFor (a b : SinkHit) : Bool := a.meets b && a.fact.path.entails b.fact.path

/-- The first observes more than the second. -/
def widens (a b : SinkHit) : Bool := a.standsFor b && !b.standsFor a

/-- The same place, with the same meaning below it, under different types or marks. -/
def twins (a b : SinkHit) : Bool :=
  a.meets b && !a.fact.path.isEmpty && a.fact.path.samePlace b.fact.path &&
    a.fact.path.deep == b.fact.path.deep && a.fact.path.part == b.fact.path.part &&
    a.fact.path != b.fact.path

theorem meets_iff : a.meets b ↔
    a.stmt = b.stmt ∧ a.definition = b.definition ∧ a.fact.sameState b.fact.toTaint := by
  simp [meets, and_assoc]

theorem meets_symm (h : a.meets b) : b.meets a := by
  rw [meets_iff, Taint.sameState_iff] at h ⊢
  obtain ⟨h1, h2, h3, h₄, h5, h6, h7, h8, h9⟩ := h
  exact ⟨h1.symm, h2.symm, h3.symm, h₄.symm, h5.symm, h6.symm, h7.symm, h8.symm, h9.symm⟩

theorem meets_trans (h : a.meets b) (h' : b.meets c) : a.meets c := by
  rw [meets_iff, Taint.sameState_iff] at h h' ⊢
  obtain ⟨h1, h2, h3, h₄, h5, h6, h7, h8, h9⟩ := h
  obtain ⟨k1, k2, k3, k4, k5, k6, k7, k8, k9⟩ := h'
  exact ⟨h1.trans k1, h2.trans k2, h3.trans k3, h₄.trans k4, h5.trans k5, h6.trans k6,
    h7.trans k7, h8.trans k8, h9.trans k9⟩

theorem standsFor_iff : a.standsFor b ↔ a.meets b ∧ a.fact.path.entails b.fact.path := by
  simp [standsFor]

theorem standsFor_trans (h : a.standsFor b) (h' : b.standsFor c) : a.standsFor c := by
  rw [standsFor_iff] at h h' ⊢
  exact ⟨meets_trans h.1 h'.1, Path.entails_trans h.2 h'.2⟩

theorem widens_iff : a.widens b ↔ a.standsFor b ∧ b.standsFor a = false := by
  simp [widens]

/-- What is widened lies deeper; this is what the search for a widest observation goes down on. -/
theorem depth_lt_of_widens (h : a.widens b) : a.fact.path.depth < b.fact.path.depth := by
  obtain ⟨hab, hba⟩ := widens_iff.mp h
  obtain ⟨hm, he⟩ := standsFor_iff.mp hab
  refine Path.depth_lt_of_entails he ?_
  cases hback : b.fact.path.entails a.fact.path with
  | false => rfl
  | true => exact absurd (standsFor_iff.mpr ⟨meets_symm hm, hback⟩) (by simp [hba])

/-- Twins are exactly what stands for each other under different paths. -/
theorem twins_iff : a.twins b ↔ a.standsFor b ∧ b.standsFor a ∧ a.fact.path ≠ b.fact.path := by
  constructor
  · intro h
    simp only [twins, Path.samePlace, Bool.and_eq_true, Bool.not_eq_true', beq_iff_eq, bne_iff_ne,
      ne_eq] at h
    obtain ⟨⟨⟨⟨⟨hm, hne⟩, hb, hf⟩, hd⟩, ha⟩, hp⟩ := h
    have hempty : b.fact.path.isEmpty = false := by
      simp only [Path.isEmpty, Path.fields] at hne hf ⊢
      rw [← hb]
      cases hs : b.fact.path.steps with
      | nil => rw [hs] at hf; rw [List.map_eq_nil_iff.mp hf] at hne; exact hne
      | cons _ _ => simp
    have hself := Path.entails_iff.mp (Path.entails_refl hne)
    have hself' := Path.entails_iff.mp (Path.entails_refl hempty)
    refine ⟨standsFor_iff.mpr ⟨hm, Path.entails_iff.mpr ⟨hne, hempty, hb, ?_, Or.inr ha, ?_⟩⟩,
      standsFor_iff.mpr ⟨meets_symm hm, Path.entails_iff.mpr ⟨hempty, hne, hb.symm, ?_,
        Or.inr ha.symm, ?_⟩⟩, hp⟩
    · rw [hd]; exact id
    · rw [← hf]; exact hself.2.2.2.2.2
    · rw [hd]; exact id
    · rw [hf]; exact hself'.2.2.2.2.2
  · rintro ⟨h, h', hp⟩
    obtain ⟨hm, he⟩ := standsFor_iff.mp h
    obtain ⟨_, he'⟩ := standsFor_iff.mp h'
    have hf : a.fact.path.fields = b.fact.path.fields :=
      (Path.fields_prefix_of_entails he).eq_of_length_le (Path.fields_prefix_of_entails he').length_le
    obtain ⟨hne, _, hb, hd, ha, _⟩ := Path.entails_iff.mp he
    obtain ⟨_, _, _, hd', ha', _⟩ := Path.entails_iff.mp he'
    have hdeep : a.fact.path.deep = b.fact.path.deep := Bool.eq_iff_iff.mpr ⟨hd', hd⟩
    have hpart : a.fact.path.part = b.fact.path.part := by
      rcases ha with ha | ha
      · rcases ha' with ha' | ha'
        · rw [ha, ha']
        · exact ha'.symm
      · exact ha
    simp [twins, Path.samePlace, hm, hne, hb, hf, hdeep, hpart, hp]

/-! ## Pruning -/

theorem covers_iff : a.covers b ↔ a.standsFor b ∧ a.fact.path ≠ b.fact.path := by
  simp only [covers, standsFor, meets, Bool.and_eq_true, bne_iff_ne, ne_eq]
  constructor
  · rintro ⟨⟨h, hp⟩, he⟩
    exact ⟨⟨h, he⟩, hp⟩
  · rintro ⟨⟨h, he⟩, hp⟩
    exact ⟨⟨h, hp⟩, he⟩

theorem mem_pruned : h ∈ pruned hits ↔ h ∈ hits ∧ ∀ k ∈ hits, k.covers h = false := by
  simp [pruned]

theorem not_mem_pruned (hh : h ∈ hits) : h ∉ pruned hits ↔ ∃ k ∈ hits, k.covers h := by
  simp [pruned, hh]

/-- What covers an observation is wider than it or its twin. -/
theorem widens_or_twins_of_covers (h : a.covers b) : a.widens b ∨ a.twins b := by
  obtain ⟨hab, hp⟩ := covers_iff.mp h
  cases hba : b.standsFor a with
  | false => exact Or.inl (widens_iff.mpr ⟨hab, hba⟩)
  | true => exact Or.inr (twins_iff.mpr ⟨hab, hba, hp⟩)

/-- Everything that is dropped is covered by something that is kept: at the same sink, in the same
state, with a path that entails the dropped one. -/
def LosesNothing (hits : List SinkHit) : Prop :=
  ∀ h ∈ hits, h ∉ pruned hits → ∃ k ∈ pruned hits, k.standsFor h = true

/-- Every observation that has a twin is widened by something. -/
def TwinsWidened (hits : List SinkHit) : Prop :=
  ∀ h ∈ hits, (∃ t ∈ hits, t.twins h = true) → ∃ k ∈ hits, k.widens h = true

/-- Where twins are widened, every observation stays or something that stands for it does. -/
theorem kept_or_covered (htw : TwinsWidened hits) (n : Nat) :
    ∀ h ∈ hits, h.fact.path.depth = n → h ∈ pruned hits ∨ ∃ k ∈ pruned hits, k.standsFor h := by
  -- Strong induction on the depth: something wider exists for whatever is dropped.
  induction n using Nat.strongRecOn with
  | ind n ih =>
    intro h hh hn
    by_cases hkept : h ∈ pruned hits
    · exact Or.inl hkept
    · have hwide : ∃ k ∈ hits, k.widens h := by
        obtain ⟨k, hk, hc⟩ := (not_mem_pruned hh).mp hkept
        rcases widens_or_twins_of_covers hc with hw | ht
        · exact ⟨k, hk, hw⟩
        · exact htw h hh ⟨k, hk, ht⟩
      obtain ⟨k, hk, hw⟩ := hwide
      have hkh : k.standsFor h := (widens_iff.mp hw).1
      rcases ih k.fact.path.depth (hn ▸ depth_lt_of_widens hw) k hk rfl with hk' | ⟨k', hk', hs⟩
      · exact Or.inr ⟨k, hk', hkh⟩
      · exact Or.inr ⟨k', hk', standsFor_trans hs hkh⟩

/-- Nothing that stands for an observation with a twin is kept, unless it is wider. -/
theorem widens_of_kept {t k : SinkHit} (hh : h ∈ hits) (ht : t ∈ hits) (hth : t.twins h)
    (hk : k ∈ pruned hits) (hkh : k.standsFor h) : k.widens h := by
  obtain ⟨htk, hht, hp⟩ := twins_iff.mp hth
  obtain ⟨_, hnone⟩ := mem_pruned.mp hk
  cases hhk : h.standsFor k with
  | false => exact widens_iff.mpr ⟨hkh, hhk⟩
  | true =>
    -- The path of `k` differs from that of `h` or from that of `t`, and both stand for `k`.
    by_cases hpk : h.fact.path = k.fact.path
    · have hc : t.covers k :=
        covers_iff.mpr ⟨standsFor_trans htk hhk, fun hq => hp (hq.trans hpk.symm)⟩
      exact absurd hc (by simp [hnone t ht])
    · exact absurd (covers_iff.mpr ⟨hhk, hpk⟩) (by simp [hnone h hh])

/-- **Pruning loses something exactly where twins are not widened.** Where it loses nothing it
never empties a list. -/
theorem losesNothing_iff_twins_widened (hits : List SinkHit) :
    (LosesNothing hits ↔ TwinsWidened hits) ∧
      (LosesNothing hits → hits ≠ [] → pruned hits ≠ []) := by
  refine ⟨⟨?_, ?_⟩, ?_⟩
  · rintro hln h hh ⟨t, ht, hth⟩
    obtain ⟨htk, _, hp⟩ := twins_iff.mp hth
    have hdropped : h ∉ pruned hits :=
      (not_mem_pruned hh).mpr ⟨t, ht, covers_iff.mpr ⟨htk, hp⟩⟩
    obtain ⟨k, hk, hs⟩ := hln h hh hdropped
    exact ⟨k, (mem_pruned.mp hk).1, widens_of_kept hh ht hth hk hs⟩
  · intro htw h hh hdropped
    rcases kept_or_covered htw _ h hh rfl with hk | hk
    · exact absurd hk hdropped
    · exact hk
  · intro hln hne hnil
    obtain ⟨h, hh⟩ := List.exists_mem_of_ne_nil hits hne
    obtain ⟨k, hk, _⟩ := hln h hh (by simp [hnil])
    simp [hnil] at hk

/-- A local of class `app.A`, seen at a sink under a path with the given class as its type. -/
def seenAs (cls : String) : SinkHit :=
  ⟨⟨.sink, "sink", none⟩,
    { path := { base := some ⟨0, "o", .cls "app.A"⟩, ty := some (.cls cls) }, id := 0 }, 2⟩

/-- The same local seen under two classes: both observations are dropped and nothing is left. -/
theorem pruned_seenAs_two_classes : pruned
    [seenAs "app.A", seenAs "app.B"] = [] ∧ ¬ LosesNothing [seenAs "app.A", seenAs "app.B"] := by
  have hnil : pruned [seenAs "app.A", seenAs "app.B"] = [] := by decide +kernel
  refine ⟨hnil, fun h => ?_⟩
  obtain ⟨k, hk, _⟩ := h (seenAs "app.A") (by simp) (by simp [hnil])
  simp [hnil] at hk

end SinkHit
end LeakTrace
