import LeakTrace.Alias.Select
import Mathlib.Logic.Relation

/-!
# What a value is made of

A field or an element is taken from a local, and a computed value has operands. **The values that
`Value.uses` lists are those that stand in a value at some depth**, and so are the roots whose taint
it takes over.
-/

namespace LeakTrace
open List

namespace Value
variable {u v w : Value}

/-- The values that a value is directly made of, the local it is taken from apart. -/
def operands : Value → List Value
  | .element _ index => [index]
  | .cast _ op | .isInstance op _ | .length op | .negate op | .allocArray _ op => [op]
  | .binary _ l r => [l, r]
  | .call _ _ _ args => args
  | _ => []

/-- The local that a field, an element or a call is taken from. -/
def owner? : Value → Option Local
  | .field base _ | .element base _ => some base
  | .call _ _ base _ => base
  | _ => none

def parts (v : Value) : List Value := (v.owner?.map Value.var).toList ++ v.operands

/-- The first value is the second or stands in it at some depth. -/
def StandsIn : Value → Value → Prop := Relation.ReflTransGen fun u v => u ∈ v.parts

theorem standsIn_iff : u.StandsIn v ↔ u = v ∨ ∃ w ∈ v.parts, u.StandsIn w := by
  rw [StandsIn, Relation.ReflTransGen.cases_tail_iff, eq_comm]
  simp only [and_comm]

@[simp]
theorem standsIn_var {l : Local} : u.StandsIn (.var l) ↔ u = .var l := by
  rw [standsIn_iff]
  simp [parts, owner?, operands]

theorem sizeOf_lt_of_mem_operands (h : w ∈ v.operands) : sizeOf w < sizeOf v := by
  cases v with
  | call kind m base args =>
    have hlt : sizeOf w < sizeOf args := sizeOf_lt_of_mem h
    simp
    omega
  | _ => grind [operands]

theorem usesList_eq_flatMap (vs : List Value) : usesList vs = vs.flatMap fun v => v :: v.uses := by
  induction vs with
  | nil => rfl
  | cons v rest ih => simp [usesList, ih]

theorem uses_eq_flatMap (v : Value) : v.uses = v.parts.flatMap fun w => w :: w.uses := by
  cases v with
  | call kind m base args =>
    cases base <;> simp [uses, parts, owner?, operands, usesList_eq_flatMap]
  | _ => simp [uses, parts, owner?, operands]

theorem mem_uses_iff (v : Value) : u ∈ v.uses ↔ ∃ w ∈ v.parts, u.StandsIn w := by
  rw [uses_eq_flatMap, mem_flatMap]
  refine exists_congr fun w => and_congr_right fun hw => ?_
  rcases mem_append.mp hw with hw | hw
  · obtain ⟨l, -, rfl⟩ : ∃ l, v.owner? = some l ∧ .var l = w := by simpa using hw
    simp [uses]
  · rw [mem_cons, mem_uses_iff w, ← standsIn_iff]
termination_by sizeOf v
decreasing_by exact sizeOf_lt_of_mem_operands hw

theorem mem_cons_uses_iff (v : Value) : u ∈ v :: v.uses ↔ u.StandsIn v := by
  rw [mem_cons, mem_uses_iff, ← standsIn_iff]

theorem StandsIn.of_mem_uses (hu : u ∈ v.uses) : u.StandsIn v :=
  (mem_cons_uses_iff v).mp (mem_cons_of_mem v hu)

theorem root_standsIn (v : Value) (keep : Bool) : (v.root keep).StandsIn v := by
  fun_induction root keep v with
  | case1 | case6 => exact .refl
  | case2 b i => exact .single (by simp [parts, owner?])
  | case3 t op ih | case4 op ih | case5 op ih => exact ih.tail (by simp [parts, operands])

theorem StandsIn.of_mem_roots {keep : Bool} (hu : u ∈ v.roots keep) : u.StandsIn v := by
  unfold roots at hu
  split at hu
  · next op l r =>
    simp only [mem_cons, not_mem_nil, or_false] at hu
    rcases hu with rfl | rfl
    · exact (root_standsIn l keep).tail (by simp [parts, operands])
    · exact (root_standsIn r keep).tail (by simp [parts, operands])
  · rw [mem_singleton.mp hu]
    exact root_standsIn v keep

end Value

end LeakTrace
