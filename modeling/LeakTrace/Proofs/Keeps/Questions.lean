import LeakTrace.Proofs.Keeps.Logic
import LeakTrace.Proofs.Vocabulary.Basic

/-!
# What questions about aliases keep

Whether two values may be the same object is found out by making paths for them. **Nothing else
happens to the world**, so an invariant that outlasts making these paths outlasts every question
that is put together from such comparisons, and the path by which a taint covers a value is the
path of the taint, or comes of putting a folded stretch back in.
-/

namespace LeakTrace
variable {e : Env} {I : World → Prop}

namespace Track
variable {f : Fact} {v x y : Value} {vs : List Value} {a : AccessPath} {call : StmtId}
  {unit : Option StmtId}

theorem limitReached_keeps : Keeps e I limitReached :=
  .read (.get fun _ _ => .pure trivial)

theorem isActivating_keeps : Keeps e I (isActivating call unit) := by
  refine .read ?_
  split
  · exact .ite (.get fun _ _ => .pure trivial) <| .pure trivial
  · exact .pure trivial

/-- Making a path for the value changes nothing that matters. -/
abbrev Names (e : Env) (I : World → Prop) (v : Value) : Prop :=
  ∀ deep, Keeps e I (paths (Paths.ofValue v deep))

theorem lazyMayAlias_keeps {p q : Path} : Keeps e I (lazyMayAlias p q) :=
  .guard trivial <| .read (.pure trivial)

theorem mayAliasValues_keeps (hx : Names e I x) (hy : Names e I y) :
    Keeps e I (mayAliasValues x y) := by
  refine .read (.guard trivial <| .guard trivial <|
    .guard trivial ?_)
  refine (hx false).bind fun p _ => (hy false).bind fun q _ => ?_
  split
  · exact lazyMayAlias_keeps
  · exact .pure trivial

theorem anyMayAlias_keeps (h : ∀ v ∈ vs, Keeps e I (mayAliasValues v x)) :
    Keeps e I (anyMayAlias vs x) := by
  refine Keeps.bind (.forIn (R := fun _ => True) (fun v hv _ _ => ?_) trivial) fun r _ => ?_
  · exact (h v hv).bind fun _ _ => .guard trivial <| .pure trivial
  · dsimp only
    split <;> exact .pure trivial

theorem holdsTaint_keeps (h : ∀ l ∈ f.path.base, Keeps e I (mayAliasValues v (.var l))) :
    Keeps e I (holdsTaint v f) := by
  unfold holdsTaint
  split
  · next l hl => exact h l hl
  · exact .pure trivial

theorem anyHoldsTaint_keeps
    (h : ∀ l ∈ f.path.base, ∀ v ∈ vs, Keeps e I (mayAliasValues v (.var l))) :
    Keeps e I (anyHoldsTaint vs f) := by
  unfold anyHoldsTaint
  split
  · next l hl => exact anyMayAlias_keeps (h l hl)
  · exact .pure trivial

theorem readsTaint_keeps (h : ∀ l ∈ f.path.base, Keeps e I (mayAliasValues (.var l) v)) :
    Keeps e I (readsTaint f v) := by
  unfold readsTaint
  split
  · next l hl => exact h l hl
  · exact .pure trivial

section
variable {Q : AccessPath → Prop} (ha : Q a)
  (hexpand : ∀ w, I w → ∀ t ∈ a.ty, ∀ p ∈ w.paths.patternsFor t,
    Keeps e I (paths (Paths.expand a 0 p)) fun o => ∀ b ∈ o, Q b)
include ha hexpand

/-- A path covers what it is a stretch of, or what is put back in. -/
theorem coverFields_keeps {field : Option Field} :
    Keeps e I (coverFields a field) fun o => ∀ b ∈ o, Q b := by
  have hself : ∀ b ∈ some a, Q b := by
    rintro _ ⟨⟩
    exact ha
  unfold coverFields
  split
  · exact .pure hself
  · split
    · refine .pure ?_
      split
      · exact hself
      · exact all_none
    · refine .guard hself <| .guard all_none ?_
      refine .get fun w hw => ?_
      dsimp only
      split
      · next p hp =>
        have hmem := List.mem_of_find?_eq_some hp
        cases hty : a.ty with
        | none =>
          rw [hty] at hmem
          cases hmem
        | some t =>
          rw [hty] at hmem
          exact hexpand w hw t hty p hmem
      · exact .pure all_none

theorem mayAlias_keeps (hv : Names e I v) : Keeps e I (mayAlias a v) fun o => ∀ b ∈ o, Q b := by
  refine .read (.guard all_none <| .ite ?_ ?_)
  · refine (hv true).bind fun p _ => ?_
    split
    · exact .pure all_none
    · refine lazyMayAlias_keeps.bind fun _ _ => .guard all_none ?_
      exact .guard all_none <| coverFields_keeps ha hexpand
  · refine .guard all_none ?_
    exact .guard all_none <| coverFields_keeps ha hexpand

end
end Track
end LeakTrace
