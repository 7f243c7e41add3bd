import LeakTrace.Fact.Basic

/-!
# Tables

A table is a search tree over the numbers of its keys. Numbers spread the keys out and need not tell
them apart, so **nothing depends on them but the time that a search takes**.
-/

namespace LeakTrace

/-- Keys with numbers to search by. -/
class Coded (κ : Type) where
  code : κ → Nat

/-- Numbers that follow each other end up far apart. -/
def scatter (n : Nat) : Nat := n * 2654435761 % 4294967296

def Step.code (s : Step) : Nat := s.field.name.toList.foldl (fun n c => 31 * n + c.toNat) 0

def Taint.code (t : Taint) : Nat :=
  let root := (t.path.base.map (·.id + 1)).getD 0 + 7 * (t.waitsFor.getD 0 + 3 * t.turn.getD 0)
  scatter (t.path.steps.foldl (fun n s => scatter (n + s.code)) root)

instance : Coded Nat := ⟨scatter⟩

instance : Coded (Nat × Taint) := ⟨fun k => scatter (k.1 + k.2.code)⟩

instance : Coded (Taint × Nat × Taint) := ⟨fun k => scatter (k.1.code + Coded.code k.2)⟩

inductive Index (κ α : Type) where
  | empty
  | node (code : Nat) (key : κ) (value : α) (low high : Index κ α)

namespace Index
variable {κ α : Type} [DecidableEq κ]

def search (code : Nat) (k : κ) : Index κ α → Option α
  | empty => none
  | node code' k' v low high =>
    if code = code' ∧ k = k' then some v
    else if code < code' then low.search code k else high.search code k

def put (code : Nat) (k : κ) (v : α) : Index κ α → Index κ α
  | empty => node code k v empty empty
  | node code' k' v' low high =>
    if code = code' ∧ k = k' then node code k v low high
    else if code < code' then node code' k' v' (low.put code k v) high
    else node code' k' v' low (high.put code k v)

def values : Index κ α → List α
  | empty => []
  | node _ _ v low high => v :: (low.values ++ high.values)

instance : EmptyCollection (Index κ α) := ⟨empty⟩

instance : Inhabited (Index κ α) := ⟨empty⟩

variable [Coded κ] (t : Index κ α) (k : κ)

def insert (v : α) : Index κ α := t.put (Coded.code k) k v

instance : Membership κ (Index κ α) := ⟨fun t k => (t.search (Coded.code k) k).isSome⟩

instance : Decidable (k ∈ t) := inferInstanceAs (Decidable (_ = true))

instance : GetElem? (Index κ α) κ α fun t k => k ∈ t where
  getElem t k h := (t.search (Coded.code k) k).get h
  getElem? t k := t.search (Coded.code k) k

end Index
end LeakTrace
