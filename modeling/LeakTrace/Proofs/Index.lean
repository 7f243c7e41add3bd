import LeakTrace.Index

/-!
# What tables know

**A table holds for each key what was put there last**, whatever the numbers of the keys are.
-/

namespace LeakTrace.Index
variable {κ α : Type} [DecidableEq κ] {t : Index κ α} {k k' : κ} {v : α}

theorem search_put {c c' : Nat} : (t.put c k v).search c' k' =
    if c = c' ∧ k = k' then some v else t.search c' k' := by
  -- Both take the same turn at every node, so the tree need not be in order.
  induction t with
  | empty => grind [put, search]
  | node code key value low high ihlow ihhigh => grind [put, search]

def keys : Index κ α → List κ
  | empty => []
  | node _ k _ low high => k :: (low.keys ++ high.keys)

theorem mem_keys_of_search {c : Nat} (h : (t.search c k).isSome) : k ∈ t.keys := by
  induction t with
  | empty => cases h
  | node code key value low high ihlow ihhigh => grind [search, keys]

variable [Coded κ]

@[simp]
theorem getElem?_empty : (∅ : Index κ α)[k]? = none := rfl

theorem getElem?_insert : (t.insert k v)[k']? = if k = k' then some v else t[k']? := by
  refine search_put.trans ?_
  by_cases h : k = k'
  · simp [h]
  · rw [if_neg (fun hboth => h hboth.2), if_neg h]
    rfl

@[simp]
theorem not_mem_empty : k ∉ (∅ : Index κ α) := Bool.false_ne_true

theorem mem_iff_isSome : k ∈ t ↔ t[k]?.isSome := Iff.rfl

@[simp]
theorem getElem?_eq_none : t[k]? = none ↔ k ∉ t := by
  simp [mem_iff_isSome]

theorem mem_keys (h : k ∈ t) : k ∈ t.keys := mem_keys_of_search h

theorem not_mem_of_keys (h : t.keys = []) : k ∉ t := by
  intro hk
  simpa [h] using mem_keys hk

@[simp]
theorem mem_insert : k' ∈ t.insert k v ↔ k = k' ∨ k' ∈ t := by
  rw [mem_iff_isSome, getElem?_insert, mem_iff_isSome]
  by_cases h : k = k' <;> simp [h]

end LeakTrace.Index
