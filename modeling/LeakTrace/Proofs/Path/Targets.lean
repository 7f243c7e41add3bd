import LeakTrace.Proofs.Path.Moving
import LeakTrace.Proofs.Path.Stretches

/-!
# Where a path is that was made for a value

A path that is asked for at a value is rooted at its local, or at the static field. **Cutting the
first field off takes the static field away**, since it is a field like the others by then: what is
left is rooted at the field behind it. `Value.landing` says where a taint ends up if it is moved
from a value that is read to the left side of an assignment.
-/

namespace LeakTrace
variable {lhs v : Value} {a b : AccessPath} {p : Path}

/-- Where no base is known, a detour leads back to a step at best, and never before the first. -/
theorem Step.head?_pushOuter {done : List Step} (hdone : done ≠ []) (s : Step) :
    (pushOuter none done s).head? = done.head? := by
  have happend : (done ++ [s]).head? = done.head? := by
    cases done with
    | nil => exact absurd rfl hdone
    | cons x xs => rfl
  unfold pushOuter
  split
  · rw [if_neg (by simp)]
    cases hfront : upToLast s.field.ty done with
    | none => exact happend
    | some front =>
      obtain ⟨hne, rest, rfl⟩ := upToLast_eq_some hfront
      cases front with
      | nil => exact absurd rfl hne
      | cons x xs => rfl
  · exact happend

theorem Step.head?_skipOuter (steps : List Step) : (skipOuter none steps).head? = steps.head? := by
  have hrest : ∀ (steps done : List Step), done ≠ [] →
      (steps.foldl (pushOuter none) done).head? = done.head? := by
    intro steps
    induction steps with
    | nil => intro done _; rfl
    | cons s rest ih =>
      intro done hdone
      have hhead := head?_pushOuter hdone s
      have hne : pushOuter none done s ≠ [] := by
        intro hnil
        rw [hnil] at hhead
        exact hdone (List.head?_eq_none_iff.mp hhead.symm)
      exact (ih _ hne).trans hhead
  cases steps with
  | nil => rfl
  | cons s rest =>
    have hfirst : pushOuter none [] s = [s] := by
      unfold pushOuter
      split <;> rfl
    unfold skipOuter
    rw [List.foldl_cons, hfirst]
    exact hrest rest [s] (List.cons_ne_nil s [])

namespace PathRules
variable {r : PathRules} {q : PathRequest} {p : AccessPath}

theorem head?_shorten {p1 : Place} (hbase : p1.base = none) (hty : p1.ty = none) :
    (r.shorten q p1).steps.head? = p1.steps.head? := by
  have hskip : (r.unfolded q p1).head? = p1.steps.head? := by
    unfold unfolded
    split
    · rw [hty]
      exact Step.head?_skipOuter p1.steps
    · rfl
  unfold shorten
  dsimp only
  rw [← unfolded, ← hskip, hbase]
  split
  · split
    · next h => rw [h]; rfl
    · next h => rw [h]
    · next h => cases h
  · rfl

/-- **A path that is asked for at a static field is rooted there**, unless its first field is cut
off: then it is rooted at the first of the other fields. -/
theorem root_of_global {h : Field}
    (hvalue : q.value = some (.global h)) (hp : (r.canon q).path = some p) : 0 < r.settings.length ∧
    p.base = none ∧ p.firstField? = if q.cutFirst then q.steps.head?.map (·.field) else some h := by
  obtain ⟨p0, p1, hp0, hp1, -, hf, rfl⟩ := path_canon_eq_some_iff.mp hp
  obtain rfl : _ = p0 := Option.some.inj (by simpa [PathRequest.place?, hvalue] using hp0)
  have hbase : p1.base = none := base_narrow hp1
  have hpos : 0 < r.settings.length := by
    rw [Nat.pos_iff_ne_zero]
    intro hzero
    simp [PathRules.feasible, limit, hbase, hzero] at hf
  have hty : p1.ty = none := by
    cases he : r.casts.enabled with
    | true => simpa [narrowBase] using ((narrow_eq_some_iff he).mp hp1).2.1.symm
    | false => rw [← Option.some.inj ((narrow_of_disabled he).symm.trans hp1)]
  refine ⟨hpos, hbase, ?_⟩
  unfold Path.firstField?
  rw [head?_limit hpos, head?_shorten hbase hty, head?_field_narrow hp1, head?_prepare hpos]
  split <;> simp [Step.of]

end PathRules

/-- The path starts where the value is: at its local, or at the static field. -/
def Path.RootedAt (p : Path) : Value → Prop
  | .global h => p.base = none ∧ p.firstField? = some h
  | v => ∃ l, v.base? = some l ∧ p.base = some l

def Value.readField? : Value → Option Field
  | .field _ g | .global g => some g
  | _ => none

/-- Where the taint of a path comes to be when a value is read into the left side: at the left side,
but for a static field that takes over a field. There the field that was read is taken for the
static field. -/
def Value.landing (lhs v : Value) (p : Path) : Value :=
  match lhs, v.readField? with
  | .global h, some read => if p.steps.isEmpty then .global h else .global read
  | lhs, _ => lhs

theorem Value.landing_of_not_global (h : lhs.isGlobal = false) : lhs.landing v p = lhs := by
  cases lhs <;> first | rfl | cases h

theorem Value.landing_of_readField?_eq_none (h : v.readField? = none) : lhs.landing v p = lhs := by
  unfold landing
  rw [h]
  cases lhs <;> rfl

theorem PathRules.rootedAt_canon {r : PathRules} {q : PathRequest} {p : AccessPath}
    (hvalue : q.value = some v) (hcut : v.isGlobal → q.cutFirst = false)
    (hp : (r.canon q).path = some p) : p.RootedAt v := by
  cases v with
  | global h =>
    obtain ⟨-, hbase, hfirst⟩ := root_of_global hvalue hp
    rw [hcut rfl, if_neg Bool.false_ne_true] at hfirst
    exact ⟨hbase, hfirst⟩
  | var l | field l g | element l i =>
    obtain ⟨ty, p0, hp0, hbase⟩ := base_canon hp
    simp only [PathRequest.place?, hvalue, Option.some.injEq] at hp0
    exact ⟨l, rfl, by rw [hbase, ← hp0]⟩
  | _ =>
    obtain ⟨ty, p0, hp0, -⟩ := base_canon hp
    simp [PathRequest.place?, hvalue] at hp0

namespace Paths
variable {ty : Option Ty} {cutFirst reduce : Bool} {part : ArrayPart} {store : PathStore}

theorem rebase_cases (h : ((rebase a v ty cutFirst reduce part).run store).1 = some b) :
    (∃ l, v = .var l ∧ b = a ∧ a.base = some l) ∨
      ∃ c, (store.rules.canon { value := some v, ty, steps := a.steps, deep := a.deep, cutFirst
                                reduce, part, immutable := a.immutable }).path = some c ∧
        b.toPath = c.toPath := by
  rw [run_rebase] at h
  split at h
  · next hat =>
    unfold AccessPath.isAt at hat
    split at hat
    · next l k hl =>
      simp only [Bool.and_eq_true, beq_iff_eq] at hat
      exact .inl ⟨k, rfl, (Option.some.inj h).symm, by rw [hl, hat.1.1.1]⟩
    · cases hat
  · obtain ⟨c, hc, rfl⟩ := Option.map_eq_some_iff.mp h
    exact .inr ⟨c, hc, toPath_ite_same a c⟩

end Paths
end LeakTrace
