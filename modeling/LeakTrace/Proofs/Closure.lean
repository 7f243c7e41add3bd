import LeakTrace.Closure
import Mathlib.Data.List.Nodup
import Mathlib.Data.List.Perm.Subperm
import Mathlib.Data.List.TakeWhile
import Mathlib.Logic.Relation

/-!
# The walk lists what is reachable

Every reachability question of the library is one `closure`. Its loop keeps `Walking`: what is
listed is listed once, leads on to what is listed or waits, and was reached. **The bound of the
walk counts items**, so where all reachable items come from a stock that is no larger than the bound,
nothing waits at the end, and the list is exactly what the start reaches.
-/

namespace LeakTrace
open List

variable {α : Type} {next : α → List α} {start queue seen stock : List α} {x y : α} {n : Nat}

/-- The second item is reached from the first by following `next`. -/
abbrev Leads (next : α → List α) : α → α → Prop := Relation.ReflTransGen fun a b => b ∈ next a

/-- The stock holds the start, and `next` does not lead out of it. -/
structure Stocks (next : α → List α) (start stock : List α) : Prop where
  holds : ∀ x ∈ start, x ∈ stock
  closed : ∀ x ∈ stock, ∀ y ∈ next x, y ∈ stock

theorem Stocks.leads (h : Stocks next start stock) (hx : x ∈ stock) (hxy : Leads next x y) :
    y ∈ stock := by
  induction hxy with
  | refl => exact hx
  | tail _ hstep ih => exact h.closed _ ih _ hstep

/-- The state of a walk: `seen` is listed, `queue` waits. -/
structure Walking (next : α → List α) (start queue seen : List α) : Prop where
  nodup : seen.Nodup
  begun : ∀ x ∈ start, x ∈ seen ∨ x ∈ queue
  followed : ∀ x ∈ seen, ∀ y ∈ next x, y ∈ seen ∨ y ∈ queue
  reached : ∀ y, y ∈ seen ∨ y ∈ queue → ∃ x ∈ start, Leads next x y

namespace Walking

theorem init (next : α → List α) (start : List α) : Walking next start start [] where
  nodup := nodup_nil
  begun _ hx := .inr hx
  followed := nofun
  reached y hy := ⟨y, by simpa using hy, .refl⟩

theorem list (h : Walking next start (x :: queue) seen) (hx : x ∉ seen) :
    Walking next start (queue ++ next x) (seen ++ [x]) where
  nodup := by
    rw [nodup_append]
    simp only [nodup_singleton, mem_singleton]
    exact ⟨h.nodup, trivial, by grind⟩
  begun y hy := by
    have := h.begun y hy
    grind
  followed y hy z hz := by
    by_cases hyx : y = x
    · subst hyx
      simp [hz]
    · have := h.followed y (by simpa [hyx] using hy) z hz
      grind
  reached y hy := by
    by_cases hyx : y ∈ next x
    · -- Only what `x` leads to is new in the queue.
      obtain ⟨a, ha, hax⟩ := h.reached x (by simp)
      exact ⟨a, ha, hax.tail hyx⟩
    · exact h.reached y (by grind)

theorem skip [BEq α] [LawfulBEq α] (h : Walking next start queue seen) :
    Walking next start (queue.dropWhile fun y => seen.contains y) seen := by
  have hmem : ∀ y, y ∈ seen ∨ y ∈ queue ↔
      y ∈ seen ∨ y ∈ queue.dropWhile fun y => seen.contains y := by
    intro y
    have hsplit : y ∈ queue ↔ y ∈ queue.takeWhile (fun y => seen.contains y) ∨
        y ∈ queue.dropWhile (fun y => seen.contains y) := by
      rw [← mem_append, takeWhile_append_dropWhile]
    constructor
    · intro hy
      rcases hy with hy | hy
      · exact .inl hy
      · rcases hsplit.mp hy with hy | hy
        · exact .inl (by simpa using mem_takeWhile_imp hy)
        · exact .inr hy
    · intro hy
      exact hy.imp_right fun hy => hsplit.mpr (.inr hy)
  exact ⟨h.nodup, fun y hy => (hmem y).mp (h.begun y hy),
    fun y hy z hz => (hmem z).mp (h.followed y hy z hz), fun y hy => h.reached y ((hmem y).mpr hy)⟩

/-- The walk ends when nothing new waits, or after as many items as the bound allows. -/
theorem run [BEq α] [LawfulBEq α] (h : Walking next start queue seen) (n : Nat) :
    ∃ rest, Walking next start rest (closureFrom next n queue seen) ∧
      (rest = [] ∨ (closureFrom next n queue seen).length = seen.length + n) := by
  induction n generalizing queue seen with
  | zero => exact ⟨queue, h, .inr rfl⟩
  | succ n ih =>
    have hskip := h.skip
    rw [closureFrom]
    cases hrest : queue.dropWhile fun y => seen.contains y with
    | nil =>
      rw [hrest] at hskip
      exact ⟨[], hskip, .inl rfl⟩
    | cons x rest =>
      rw [hrest] at hskip
      have hx : x ∉ seen := by
        have hhead := head_dropWhile_not (l := queue) (fun y => seen.contains y)
          (hrest ▸ cons_ne_nil _ _)
        simp only [hrest, head_cons] at hhead
        simpa using hhead
      obtain ⟨rest', hwalk, hend⟩ := ih (hskip.list hx)
      refine ⟨rest', hwalk, hend.imp_right fun hlen => ?_⟩
      rw [hlen]
      simp only [length_append, length_singleton]
      omega

end Walking

variable [BEq α] [LawfulBEq α]

theorem nodup_closure (next : α → List α) (n : Nat) (start : List α) :
    (closure next n start).Nodup := by
  obtain ⟨_, hwalk, _⟩ := (Walking.init next start).run n
  exact hwalk.nodup

/-- Within a stock that the bound covers, the walk lists exactly what can be reached. -/
theorem mem_closure_iff (hstock : Stocks next start stock) (hn : stock.length ≤ n) :
    y ∈ closure next n start ↔ ∃ x ∈ start, Leads next x y := by
  obtain ⟨rest, hwalk, hend⟩ := (Walking.init next start).run n
  have hin : ∀ y, y ∈ closure next n start ∨ y ∈ rest → y ∈ stock := by
    intro y hy
    obtain ⟨x, hx, hxy⟩ := hwalk.reached y hy
    exact hstock.leads (hstock.holds x hx) hxy
  -- A walk that was stopped by the bound has listed the whole stock.
  have hdone : ∀ y, y ∈ closure next n start ∨ y ∈ rest → y ∈ closure next n start := by
    intro y hy
    rcases hend with rfl | hlen
    · simpa using hy
    · have hperm : (closure next n start).Perm stock := by
        apply (subperm_of_subset hwalk.nodup fun z hz => hin z (.inl hz)).perm_of_length_le
        rwa [hlen, length_nil, Nat.zero_add]
      exact hperm.mem_iff.mpr (hin y hy)
  constructor
  · intro hy
    exact hwalk.reached y (.inl hy)
  · rintro ⟨x, hx, hxy⟩
    induction hxy with
    | refl => exact hdone x (hwalk.begun x hx)
    | tail _ hstep ih => exact hdone _ (hwalk.followed _ ih _ hstep)

end LeakTrace
