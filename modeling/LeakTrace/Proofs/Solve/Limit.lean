import LeakTrace.Proofs.Solve.Fixpoint

/-!
# Order under a limit on histories

A limit on the length of histories drops facts by something that they do not say. Of facts that say
the same, the first to arrive is worked on, and its history decides how far its successors get.
**So the order of tasks can decide which edges are found**: at the end, two statements create the
same taint with histories of different lengths.

The order does not matter where the limit decides by what facts say (`Setup.Even`). Then the edges
are the least set of the problem without the facts that are dropped.
-/

namespace LeakTrace

/-- The flow functions, without what the test takes out. -/
def Transfer.within (F : Transfer) (short : Taint → Bool) : Transfer where
  normal d1 d2 n t := (F.normal d1 d2 n t).filter short
  call d1 d2 n callee := (F.call d1 d2 n callee).filter short
  ret call callee exit site d2 d3 := (F.ret call callee exit site d2 d3).filter short
  callToReturn d1 d2 n site := (F.callToReturn d1 d2 n site).filter short

/-- From facts as `P` says, flow functions only lead to such facts. -/
structure Problem.Closed (p : Problem) (env : Env) (P : Fact → Prop) : Prop where
  normal : ∀ d1 f n t w, P d1 → P f → ∀ g ∈ (((p.normal d1 f n t).run env).run w).1.facts, P g
  call : ∀ d1 f n m w, P d1 → P f → ∀ g ∈ (((p.call d1 f n m).run env).run w).1.facts, P g
  ret : ∀ call m exit site f d3 contexts w, P f → P d3 →
    ∀ g ∈ (((p.ret call m exit site f d3 contexts).run env).run w).1.facts, P g
  callToReturn : ∀ d1 f n t w, P d1 → P f →
    ∀ g ∈ (((p.callToReturn d1 f n t).run env).run w).1.facts, P g

/-- Nothing is limited but histories, and of the facts that come up, as `P` says, the limit drops
those that say what `short` rejects. -/
structure Setup.Even (s : Setup) (F : Side → Transfer) (P : Fact → Prop) (short : Taint → Bool) :
    Prop where
  watch : s.watch = {}
  maxCallees : s.env.config.solver.maxCallees = none
  follows : ∀ side, (s.problem side).Follows s.env (F side)
  call_ne_zero : ∀ side d1 d2 n callee, s.env.zero.toTaint ∉ (F side).call d1 d2 n callee
  closed : ∀ side, (s.problem side).Closed s.env P
  zero : P s.env.zero ∧ short s.env.zero.toTaint
  faithful : ∀ f, P f → s.env.Faithful f
  admits_iff : ∀ f, P f → (s.Admits f ↔ short f.toTaint)

namespace Setup.Even
variable {s : Setup} {F : Side → Transfer} {P : Fact → Prop} {short : Taint → Bool}
  (hs : s.Even F P short)
include hs

theorem hands {act : Track Flow} {w : World} {taints : List Taint} {f : Fact} (hf : P f)
    (hy : act.Yields s.env w taints) (hc : ∀ g ∈ ((act.run s.env).run w).1.facts, P g) :
    s.Hands P f act w (taints.filter short) := by
  refine ⟨⟨fun t => ?_, fun g hg => Fact.stored_of (hc g hg) hf⟩, hy.contexts, hy.outbox⟩
  rw [List.mem_filter, ← hy.mem_iff, List.mem_map]
  constructor
  · rintro ⟨g, hg, hshort, rfl⟩
    rw [hs.admits_iff _ (Fact.stored_of (hc g hg) hf), Fact.toTaint_stored] at hshort
    exact ⟨⟨g, hg, rfl⟩, hshort⟩
  · rintro ⟨⟨g, hg, rfl⟩, hshort⟩
    refine ⟨g, hg, ?_, rfl⟩
    rw [hs.admits_iff _ (Fact.stored_of (hc g hg) hf), Fact.toTaint_stored]
    exact hshort

/-- The problem without the facts that are dropped. -/
theorem limited : s.Limited P fun side => (F side).within short where
  watch := hs.watch
  maxCallees := hs.maxCallees
  faithful := hs.faithful
  zero := ⟨hs.zero.1, (hs.admits_iff _ hs.zero.1).mpr hs.zero.2⟩
  agree f g hf hg heq :=
    (hs.admits_iff g hg).mpr (heq ▸ (hs.admits_iff f hf.fits).mp hf.short)
  normal side _ _ _ _ _ h1 h2 := hs.hands h2.fits
    ((hs.follows side).normal _ _ _ _ _ (hs.faithful _ h1.fits) (hs.faithful _ h2.fits))
    ((hs.closed side).normal _ _ _ _ _ h1.fits h2.fits)
  call side _ _ _ _ _ h1 h2 := hs.hands h2.fits
    ((hs.follows side).call _ _ _ _ _ (hs.faithful _ h1.fits) (hs.faithful _ h2.fits))
    ((hs.closed side).call _ _ _ _ _ h1.fits h2.fits)
  ret side _ _ _ _ _ _ _ _ h2 h3 := hs.hands h2.fits
    ((hs.follows side).ret _ _ _ _ _ _ _ _ (hs.faithful _ h2.fits) (hs.faithful _ h3.fits))
    ((hs.closed side).ret _ _ _ _ _ _ _ _ h2.fits h3.fits)
  callToReturn side _ _ _ _ _ h1 h2 := hs.hands h2.fits
    ((hs.follows side).callToReturn _ _ _ _ _ (hs.faithful _ h1.fits) (hs.faithful _ h2.fits))
    ((hs.closed side).callToReturn _ _ _ _ _ h1.fits h2.fits)
  call_ne_zero side _ _ _ _ hz := hs.call_ne_zero side _ _ _ _ (List.mem_filter.mp hz).1

end Setup.Even

namespace Machine
variable {s : Setup} {F : Side → Transfer} {P : Fact → Prop} {short : Taint → Bool}

/-- **Where the limit decides by what facts say, the order does not matter.** Two runs from fresh
machines that bring in the same and leave nothing to work on know the same edges, in whichever
orders tasks were worked on and things came in. -/
theorem same_edges_in_every_order (hs : s.Even F P short) {w w' : World} (hw : w.outbox = [])
    (hw' : w'.outbox = []) {moves moves' : List Move} (hfits : ∀ a ∈ moves, Fits s P a)
    (hfits' : ∀ a ∈ moves', Fits s P a)
    (hsame : ∀ side i, (∃ a ∈ moves, a.Gives s.env side i) ↔ ∃ a ∈ moves', a.Gives s.env side i)
    (hdrained : (({ world := w } : Machine).follow s moves).executor.queued = [])
    (hdrained' : (({ world := w' } : Machine).follow s moves').executor.queued = []) (side : Side)
    (d1 : Taint) (n : StmtId) (d2 : Taint) :
    (d1, n, d2) ∈ ((({ world := w } : Machine).follow s moves).table side).index ↔
      (d1, n, d2) ∈ ((({ world := w' } : Machine).follow s moves').table side).index := by
  have hgiven : (fun i => ∃ a ∈ moves, a.Gives s.env side i) =
      fun i => ∃ a ∈ moves', a.Gives s.env side i := funext fun i => propext (hsame side i)
  have hrun : (d1, n, d2) ∈ ((({ world := w } : Machine).follow s moves).table side).index ↔ _ :=
    has_iff_derives hs.limited hw hfits hdrained
  rw [hgiven, ← has_iff_derives hs.limited hw' hfits' hdrained'] at hrun
  exact hrun

/-! ## Two histories of one taint -/

def copied : Fact := { path := { base := some ⟨1, "y", .int⟩ }, id := 2 }

/-- Statements 0 and 1 create a taint with histories of the given lengths, and 2 copies it. -/
def mergingFlow (a b : Nat) (f : Fact) (n : StmtId) : Fact :=
  if n ≤ 1 then { passed with length := if n = 0 then a else b }
  else { copied with length := f.length + 1 }

def merging (a b : Nat) : Problem :=
  { passing with
    view := { passing.view with
      succs := fun n => if n ≤ 1 then [2] else if n = 2 then [3] else [], isExit := fun _ => false }
    normal := fun _ f n _ => pure { facts := [mergingFlow a b f n] } }

def mergingTransfer : Transfer :=
  { passingTransfer with
    normal := fun _ _ n _ => [if n ≤ 1 then passed.toTaint else copied.toTaint] }

def mergingSetup (a b limit : Nat) : Setup where
  env := { passingSetup.env with
    config := { solver := { maxJoin := none, maxCallees := none, maxPathLength := some limit } } }
  problem _ := merging a b

/-- Both statements are seeds; the tasks are picked as given. -/
def mergingRun (a b limit : Nat) (picks : List Nat) : Machine :=
  ({} : Machine).follow (mergingSetup a b limit) (.seed [0, 1] :: picks.map .work)

section
variable {a b limit : Nat} {n : StmtId} {f : Fact} {picks : List Nat}

theorem toTaint_mergingFlow :
    (mergingFlow a b f n).toTaint = if n ≤ 1 then passed.toTaint else copied.toTaint := by
  unfold mergingFlow
  split <;> rfl

theorem mergingFlow_faithful : (mergingSetup a b limit).env.Faithful (mergingFlow a b f n) := by
  unfold mergingFlow
  split <;> exact fun h => absurd h Bool.false_ne_true

theorem merging_follows : (merging a b).Follows (mergingSetup a b limit).env mergingTransfer :=
  { passing_follows (mergingSetup a b limit).env with
    normal := fun d1 f n t w _ _ => by
      refine ⟨fun _ => ?_, fun g hg => ?_, rfl, rfl⟩
      · exact iff_of_eq (congrArg (_ ∈ [·]) toTaint_mergingFlow)
      · rw [List.mem_singleton.mp hg]
        exact mergingFlow_faithful }

theorem fits_merging (P : Fact → Prop) :
    ∀ m ∈ Move.seed [0, 1] :: picks.map Move.work, Fits (mergingSetup a b limit) P m := by
  intro m hm
  rcases List.mem_cons.mp hm with rfl | hm
  · trivial
  · obtain ⟨i, -, rfl⟩ := List.mem_map.mp hm
    trivial

end

/-- With equal histories the copy is dropped in any case. -/
theorem merging_even : (mergingSetup 0 0 0).Even (fun _ => mergingTransfer)
    (fun f => (mergingSetup 0 0 0).env.Faithful f ∧ (f.length = 0 ↔ f.toTaint ≠ copied.toTaint))
    (· ≠ copied.toTaint) where
  watch := rfl
  maxCallees := rfl
  follows _ := merging_follows
  call_ne_zero _ _ _ _ _ := List.not_mem_nil
  closed _ :=
    { normal := fun _ f n _ _ _ _ g hg => by
        rw [List.mem_singleton.mp hg]
        refine ⟨mergingFlow_faithful, ?_⟩
        rw [toTaint_mergingFlow]
        unfold mergingFlow
        split
        · exact iff_of_true (ite_self 0) (by decide)
        · exact iff_of_false (Nat.succ_ne_zero _) (fun hne => hne rfl)
      call := fun _ _ _ _ _ _ _ _ hg => absurd hg List.not_mem_nil
      ret := fun _ _ _ _ _ _ _ _ hf _ _ hg => List.mem_singleton.mp hg ▸ hf
      callToReturn := fun _ _ _ _ _ _ hf _ hg => List.mem_singleton.mp hg ▸ hf }
  zero := ⟨⟨Env.identified_zero.faithful, by decide⟩, by decide⟩
  faithful _ hf := hf.1
  admits_iff f hf := by simp [Setup.Admits, mergingSetup, hf.2]

theorem merging_in_two_orders :
    (mergingRun 0 0 0 [1, 1, 0]).executor.queued = [] ∧
      (mergingRun 0 0 0 [0, 1, 0]).executor.queued = [] ∧
      ∀ side d1 n d2, (d1, n, d2) ∈ ((mergingRun 0 0 0 [1, 1, 0]).table side).index ↔
        (d1, n, d2) ∈ ((mergingRun 0 0 0 [0, 1, 0]).table side).index := by
  have hdrained : (mergingRun 0 0 0 [1, 1, 0]).executor.queued = [] := by
    decide +kernel
  have hdrained' : (mergingRun 0 0 0 [0, 1, 0]).executor.queued = [] := by
    decide +kernel
  refine ⟨hdrained, hdrained', same_edges_in_every_order merging_even rfl rfl (fits_merging _)
    (fits_merging _) (fun side i => ?_) hdrained hdrained'⟩
  simp [Move.Gives]

/-- **The order decides.** If the taint with the short history arrives first, its copy is found;
otherwise the copy is dropped. -/
theorem merging_order_decides :
    (∀ side, ((mergingSetup 0 1 1).problem side).Follows (mergingSetup 0 1 1).env mergingTransfer) ∧
      (mergingRun 0 1 1 [1, 1, 0, 0]).executor.queued = [] ∧
      (mergingRun 0 1 1 [0, 1, 0]).executor.queued = [] ∧
      (mergingRun 0 1 1 [1, 1, 0, 0]).Has .forward
        (passingSetup.env.zero.toTaint, 3, copied.toTaint) ∧
      ¬ (mergingRun 0 1 1 [0, 1, 0]).Has .forward
        (passingSetup.env.zero.toTaint, 3, copied.toTaint) := by
  exact ⟨fun _ => merging_follows, by decide +kernel⟩

end Machine
end LeakTrace
