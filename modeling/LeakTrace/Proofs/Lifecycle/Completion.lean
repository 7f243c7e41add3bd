import LeakTrace.Lifecycle.Executor
import Mathlib.Data.List.Perm.Basic

/-!
# What the end of a run means

Threads share an executor: they offer tasks, also out of tasks that run, work on them, interrupt,
and wait for the end. A task that is offered is counted, then queued; a worker takes it out of the
queue and looks at the flag, its body ends or fails, and at last it is counted off. A failure is
listed first and interrupts afterwards. All these are steps of their own, so that steps of others
come between any two of them.

**The count never misses a task**, and so whoever waits is let go only when nothing is left to do:
`Executor.Shared.completed_of_released` says so for every order of the steps.
-/

namespace LeakTrace
open List

namespace Executor

structure Shared (τ : Type) where
  executor : Executor τ := {}
  /-- Tasks of callers who found no interruption. -/
  offered : List τ := []
  /-- Tasks that were counted and come into the queue next. -/
  counted : List τ := []
  /-- Tasks that failed, listed as faults, before they interrupt. -/
  failing : List τ := []
  /-- Tasks that are over or skipped, before they are counted off. -/
  leaving : List τ := []
  /-- How many threads look at the counter next. -/
  looking : Nat := 0
  /-- How many threads sleep until they are woken. -/
  sleeping : Nat := 0
  released : Nat := 0
  /-- All tasks that were counted so far. -/
  accepted : List τ := []
  /-- All tasks with a body that was started. -/
  begun : List τ := []
  /-- All tasks that were found interrupted. -/
  skipped : List τ := []

inductive Act (τ : Type) where
  | offer (t : τ)
  | count (i : Nat)
  | enqueue (i : Nat)
  | start (i : Nat)
  | finish (i : Nat)
  | fail (i : Nat) (message : String)
  | raise (i : Nat)
  | leave (i : Nat)
  | interrupt
  | await
  /-- A thread that waits has the counter to itself. -/
  | look

namespace Shared
variable {τ : Type} {c : Shared τ} {i : Nat}

/-- Goes on with the `i`-th task of a list and the others, if there is one. -/
def pick (l : List τ) (i : Nat) (c : Shared τ) (go : τ → List τ → Shared τ) : Shared τ :=
  match l[i]? with
  | none => c
  | some t => go t (l.eraseIdx i)

def act (c : Shared τ) : Act τ → Shared τ
  | .offer t => if c.executor.interrupted then c else { c with offered := t :: c.offered }
  | .count i => pick c.offered i c fun t rest =>
    { c with offered := rest, counted := t :: c.counted, accepted := t :: c.accepted
             executor := { c.executor with inFlight := c.executor.inFlight + 1 } }
  | .enqueue i => pick c.counted i c fun t rest =>
    { c with counted := rest, executor := { c.executor with queued := t :: c.executor.queued } }
  | .start i => pick c.executor.queued i c fun t rest =>
    if c.executor.interrupted then
      { c with executor := { c.executor with queued := rest }
               leaving := t :: c.leaving, skipped := t :: c.skipped }
    else
      { c with executor := { c.executor with queued := rest, running := t :: c.executor.running }
               begun := t :: c.begun }
  | .finish i => pick c.executor.running i c fun t rest =>
    { c with executor := { c.executor with running := rest }, leaving := t :: c.leaving }
  | .fail i message => pick c.executor.running i c fun t rest =>
    { c with executor := { c.executor with running := rest, faults := c.executor.faults ++ [message] }
             failing := t :: c.failing }
  | .raise i => pick c.failing i c fun t rest =>
    { c with failing := rest, leaving := t :: c.leaving, executor := c.executor.interrupt }
  | .leave i => pick c.leaving i c fun _ rest =>
    let c := { c with
      leaving := rest, executor := { c.executor with inFlight := c.executor.inFlight - 1 } }
    -- the last one wakes all who sleep
    if c.executor.inFlight = 0 then { c with looking := c.looking + c.sleeping, sleeping := 0 } else c
  | .interrupt => { c with executor := c.executor.interrupt }
  | .await => { c with looking := c.looking + 1 }
  | .look =>
    if c.looking = 0 then c
    else if c.executor.inFlight = 0 then
      { c with looking := c.looking - 1, released := c.released + 1 }
    else { c with looking := c.looking - 1, sleeping := c.sleeping + 1 }

def run (c : Shared τ) (acts : List (Act τ)) : Shared τ := acts.foldl act c

/-- Tasks that were counted and not counted off: they are on their way into the queue, queued, or
running, up to the last step of a worker. -/
def unfinished (c : Shared τ) : List τ :=
  c.counted ++ c.executor.queued ++ c.executor.running ++ c.failing ++ c.leaving

/-! ## Alone with the executor

Steps that nobody comes between are the operations of the executor. -/

theorem run_execute (c : Shared τ) (t : τ) :
    (c.run (if c.executor.interrupted then [.offer t]
      else [.offer t, .count 0, .enqueue 0])).executor =
      c.executor.execute t := by
  cases h : c.executor.interrupted <;> simp [run, act, pick, execute, h]

theorem run_start (hi : i < c.executor.queued.length) :
    (c.run (if c.executor.interrupted then [.start i, .leave 0] else [.start i])).executor =
      (c.executor.start i).2 := by
  cases h : c.executor.interrupted <;>
    simp only [run, act, pick, start, getElem?_eq_getElem hi, h, if_true, Bool.false_eq_true, if_false,
      foldl_cons, foldl_nil, getElem?_cons_zero]
  split <;> rfl

theorem run_finish (hi : i < c.executor.running.length) :
    (c.run [.finish i, .leave 0]).executor = c.executor.finish i := by
  simp only [run, act, pick, finish, getElem?_eq_getElem hi, foldl_cons, foldl_nil, if_pos hi,
    getElem?_cons_zero]
  split <;> rfl

theorem run_fail (hi : i < c.executor.running.length) (message : String) :
    (c.run [.fail i message, .raise 0, .leave 0]).executor = c.executor.fail i message := by
  simp only [run, act, pick, fail, getElem?_eq_getElem hi, foldl_cons, foldl_nil, if_pos hi,
    getElem?_cons_zero]
  split <;> rfl

/-! ## Among others -/

theorem pick_of {P : Shared τ → Prop} {l : List τ} {go : τ → List τ → Shared τ} (hc : P c)
    (hgo : ∀ t rest, l.Perm (t :: rest) → l.length = rest.length + 1 → P (go t rest)) :
    P (pick l i c go) := by
  unfold pick
  split
  · exact hc
  · next t ht =>
    obtain ⟨hi, rfl⟩ := List.getElem?_eq_some_iff.mp ht
    have hperm := (getElem_cons_eraseIdx_perm hi).symm
    exact hgo _ _ hperm hperm.length_eq

/-- The counter and the histories. -/
structure Tallies (c : Shared τ) : Prop where
  counter : c.executor.inFlight = c.unfinished.length
  /-- A task waits for a worker, or its body was started, or it was skipped. -/
  fate : c.accepted.Perm (c.counted ++ c.executor.queued ++ c.begun ++ c.skipped)
  skipped : c.executor.interrupted = false → c.skipped = []
  /-- Nobody sleeps when there is nothing to wait for. -/
  awake : c.executor.inFlight = 0 → c.sleeping = 0

theorem tallies_new (threads : Nat) : Tallies (τ := τ) { executor := .ofThreads threads } := by
  constructor <;> simp [unfinished, ofThreads]

/-- **One step** of whichever thread. -/
theorem Tallies.act (h : c.Tallies) (a : Act τ) : (c.act a).Tallies := by
  classical
  obtain ⟨hcounter, hfate, hskipped, hawake⟩ := id h
  cases a with
  | offer t =>
    rw [Shared.act]
    split <;> exact { h with }
  | interrupt => exact { h with skipped := by simp [Shared.act, Executor.interrupt] }
  | await => exact { h with }
  | look =>
    rw [Shared.act]
    split
    · exact h
    · split
      · exact { h with }
      · next hbusy => exact { h with awake := fun hzero => absurd hzero hbusy }
  | count i =>
    rw [Shared.act]
    refine pick_of h fun t rest _ _ => ?_
    exact ⟨by grind [unfinished], hfate.cons t, hskipped, by simp⟩
  | enqueue i =>
    rw [Shared.act]
    refine pick_of h fun t rest hrest hlen => ?_
    exact ⟨by grind [unfinished], by grind, hskipped, hawake⟩
  | start i =>
    rw [Shared.act]
    refine pick_of h fun t rest hrest hlen => ?_
    split
    · exact ⟨by grind [unfinished], by grind, by grind, hawake⟩
    · exact ⟨by grind [unfinished], by grind, hskipped, hawake⟩
  | finish i | fail i message =>
    rw [Shared.act]
    refine pick_of h fun t rest hrest hlen => ?_
    exact ⟨by grind [unfinished], hfate, hskipped, hawake⟩
  | raise i =>
    rw [Shared.act]
    refine pick_of h fun t rest hrest hlen => ?_
    exact ⟨by grind [unfinished, Executor.interrupt], hfate, by simp [Executor.interrupt], hawake⟩
  | leave i =>
    rw [Shared.act]
    refine pick_of h fun t rest hrest hlen => ?_
    dsimp only
    split
    · exact ⟨by grind [unfinished], hfate, hskipped, by simp⟩
    · next hbusy => exact ⟨by grind [unfinished], hfate, hskipped, fun hzero => absurd hzero hbusy⟩

theorem Tallies.run (h : c.Tallies) (acts : List (Act τ)) : (c.run acts).Tallies := by
  induction acts generalizing c with
  | nil => exact h
  | cons a acts ih => exact ih (h.act a)

/-- After an interruption no body is started, and the flag stays up. -/
theorem begun_act (h : c.executor.interrupted = true) (a : Act τ) :
    (c.act a).executor.interrupted = true ∧ (c.act a).begun = c.begun := by
  cases a with
  | offer | look => grind [act]
  | interrupt | await => exact ⟨by simp [act, h, Executor.interrupt], rfl⟩
  | _ =>
    rw [act]
    refine pick_of (P := fun c' => c'.executor.interrupted = true ∧ c'.begun = c.begun) ⟨h, rfl⟩
      fun t rest _ _ => ?_
    grind [Executor.interrupt]

theorem begun_run (h : c.executor.interrupted = true) (acts : List (Act τ)) :
    (c.run acts).begun = c.begun := by
  induction acts generalizing c with
  | nil => rfl
  | cons a acts ih => exact (ih (begun_act h a).1).trans (begun_act h a).2

/-- **Completion means that all is done.** Threads do their steps in any order. The counter is the
number of tasks that are unfinished, so that every task that leaves takes one off it. Whoever waits is
let go only when none is unfinished; unless somebody interrupted or failed, each task that was
accepted has then been started exactly once. After an interruption, or after a failure was recorded,
no body is started. -/
theorem completed_of_released (threads : Nat) (acts : List (Act τ)) :
    let c := run { executor := .ofThreads threads } acts
    c.executor.inFlight = c.unfinished.length ∧
    (∀ i < c.leaving.length, (c.act (.leave i)).executor.inFlight + 1 = c.executor.inFlight) ∧
    ((c.act .look).released ≠ c.released →
      c.unfinished = [] ∧ (c.executor.interrupted = false → c.accepted.Perm c.begun)) ∧
    ∀ a, a = .interrupt ∨ (∃ i < c.failing.length, a = .raise i) →
      ∀ later, ((c.act a).run later).begun = c.begun := by
  intro c
  have h : c.Tallies := (tallies_new threads).run acts
  refine ⟨h.counter, fun i hi => ?_, fun hlook => ?_, ?_⟩
  · have hpos : 0 < c.unfinished.length := by
      simp only [unfinished, length_append]
      omega
    simp only [act, pick, getElem?_eq_getElem hi]
    have hcounter := h.counter
    split <;> dsimp only <;> omega
  · have hzero : c.executor.inFlight = 0 := by
      rw [act] at hlook
      grind
    have hnil : c.unfinished = [] := length_eq_zero_iff.mp (h.counter.symm.trans hzero)
    refine ⟨hnil, fun hlive => ?_⟩
    simp only [unfinished, append_eq_nil_iff] at hnil
    simpa [hnil, h.skipped hlive] using h.fate
  · rintro _ (rfl | ⟨i, hi, rfl⟩) later
    · exact begun_run rfl later
    · simp only [act, pick, getElem?_eq_getElem hi]
      exact begun_run rfl later

/-- A task offers another one while it runs, and is over before that one is in the queue. -/
def nesting : List (Act Nat) :=
  [.offer 1, .count 0, .await, .look, .enqueue 0, .start 0, .offer 2, .count 0, .finish 0, .leave 0,
    .enqueue 0, .start 0, .finish 0, .leave 0]

theorem completed_nesting :
    let c := run { executor := .ofThreads 2 } nesting
    c.unfinished = [] ∧ c.accepted.Perm c.begun ∧ c.accepted = [2, 1] ∧ c.released = 0 ∧
      (c.act .look).released = 1 := by
  obtain ⟨hdone, hall⟩ := (completed_of_released 2 nesting).2.2.1 (by decide)
  exact ⟨hdone, hall rfl, by decide, by decide, by decide⟩

end Shared
end Executor
end LeakTrace
