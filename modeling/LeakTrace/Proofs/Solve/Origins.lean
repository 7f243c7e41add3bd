import LeakTrace.Proofs.Solve.Fixpoint
import LeakTrace.Proofs.Solve.Lineage
import LeakTrace.Proofs.Sources
import Mathlib.Logic.Relation

/-!
# Merging facts loses no source

Over a whole run, `Linked` is kept by every move, and what work on an edge handed on stays linked to
the fact of that edge. A search from where a chain of such steps ends then meets the origin from
which it started.
-/

namespace LeakTrace
open List

/-- Nothing but zero facts comes in from outside. -/
def Move.Seeding (env : Env) : Move → Prop
  | .work _ | .seed _ => True
  | .edge _ e => e.d1 = env.zero ∧ e.d2 = env.zero
  | .context .. => False

namespace Machine
variable {s : Setup} {m m' : Machine} {H : Set Fact} {f : Fact} {moves : List Move} {a : Place}

/-! ## Moves -/

namespace Linked
variable {side : Side}

theorem started (h : m.Linked s H) (i : Nat) (t : Task) : (m.started i t).Linked s H :=
  h.grow ⟨id, fun _ _ => id⟩ subset_rfl h.populated rfl rfl .inl
    (fun ht => .inl (mem_of_mem_eraseIdx ht)) .inl .inl

/-- The task is worked on, and what it hands on leads back to its fact. -/
theorem step (hs : s.Inherits) (h : m.Linked s H) (i : Nat) : m.Extends
    (m.step s i) ∧ (∃ H', H ⊆ H' ∧ (m.step s i).Linked s H') ∧ ∀ t, m.executor.queued[i]? =
    some t → LogBack s t.edge.d2 ((m.started i t).handed s t.side t.edge) (m.step s i) := by
  cases htask : m.executor.queued[i]? with
  | none =>
    rw [step_of_none htask]
    exact ⟨.refl m, ⟨H, subset_rfl, h⟩, by simp⟩
  | some t =>
    obtain ⟨hk, hd1, hroot⟩ := h.tasks (mem_of_getElem? htask)
    have hwork : AtWork s H (m.started i t) t.side t.edge := ⟨hk, hd1, hroot⟩
    obtain ⟨a, hrun, hx, ⟨H', hH, ha⟩, hlog⟩ := ((h.started i t).process hs hwork).process
    rw [step_of_live htask h.live, hrun]
    have hlike : a.Like { a with executor := a.executor.finish 0 } :=
      .beside (by simp) (by simp) rfl
    obtain ⟨hend, hx'⟩ := ha.of_like hlike subset_rfl ha.populated fun _ _ => id
    have hstart : m.Extends (m.started i t) := ⟨id, fun _ _ => id⟩
    refine ⟨(hstart.trans hx).trans hx', ⟨H', hH, hend⟩, ?_⟩
    rintro t' ⟨⟩
    exact hlog.mono hx'

theorem propagate_zero {n : StmtId} (hs : s.Inherits) (h : m.Linked s H) :
    m.Ends s (Work.propagate side ⟨s.env.zero, n, s.env.zero⟩ none) fun _ m' =>
      m'.Linked s H ∧ m.Extends m' := by
  have hfit : Fit s H m side ⟨s.env.zero, n, s.env.zero⟩ :=
    ⟨h.zero_mem, h.zero_mem, Env.identified_zero, fun hd => absurd rfl hd⟩
  exact (h.propagate hs hfit).mono fun _ m' ⟨hm', hx, _⟩ => ⟨hm', hx⟩

theorem start_running (h : m.Linked s H) (side : Side) :
    (m.modifyTable side fun t => { t with running := true }).Linked s H ∧
      m.Extends (m.modifyTable side fun t => { t with running := true }) := by
  have hlike := (Like.refl m).modifyTable side (f := fun t => { t with running := true })
    (fun _ => ⟨rfl, rfl, rfl⟩)
  exact h.of_like hlike subset_rfl (by simpa using h.populated) (by simp)

section
variable (hs : s.Inherits) (h : m.Linked s H)
include hs h

theorem seed (seeds : List StmtId) :
    m.Ends s (Work.seed seeds) fun _ m' => m'.Linked s H ∧ m.Extends m' := by
  unfold Work.seed
  simp only [ends_bind, ends_read, ends_modify]
  obtain ⟨ha, hx⟩ := h.start_running .forward
  refine ends_forM (R := Extends) (S := fun _ _ => True) Extends.refl Extends.trans
    (fun _ _ => trivial) ha (fun n _ b hb => ?_) fun b hb hab _ => ⟨hb, hx.trans hab⟩
  refine (hb.propagate_zero hs).mono ?_
  rintro _ c ⟨hc, hbc⟩
  exact ⟨hc, hbc, trivial⟩

theorem addEdge {e : Edge} (h1 : e.d1 = s.env.zero) (h2 : e.d2 = s.env.zero) :
    m.Ends s (Work.addEdge side e) fun _ m' => m'.Linked s H ∧ m.Extends m' := by
  obtain ⟨d1, n, d2⟩ := e
  subst h1 h2
  unfold Work.addEdge
  simp only [ends_bind, ends_modify]
  obtain ⟨ha, hx⟩ := h.start_running side
  refine (ha.propagate_zero hs).mono ?_
  rintro _ b ⟨hb, hab⟩
  exact ⟨hb, hx.trans hab⟩

theorem move {a : Move} (ha : a.Seeding s.env) :
    m.Extends (a.apply s m) ∧ ∃ H', H ⊆ H' ∧ (a.apply s m).Linked s H' := by
  cases a with
  | work i => exact ⟨(h.step hs i).1, (h.step hs i).2.1⟩
  | seed seeds =>
    obtain ⟨_, _, hm', hx⟩ := (h.seed hs seeds).run
    exact ⟨hx, H, subset_rfl, hm'⟩
  | edge side e =>
    obtain ⟨_, _, hm', hx⟩ := (h.addEdge hs ha.1 ha.2).run
    exact ⟨hx, H, subset_rfl, hm'⟩
  | context side callee d3 call d1 => exact ha.elim

/-! ## Runs -/

theorem follow (hmoves : ∀ a ∈ moves, a.Seeding s.env) :
    m.Extends (m.follow s moves) ∧ ∃ H', H ⊆ H' ∧ (m.follow s moves).Linked s H' := by
  induction moves generalizing m H with
  | nil => exact ⟨.refl m, H, subset_rfl, h⟩
  | cons a rest ih =>
    obtain ⟨hx, H', hH, ha⟩ := h.move hs (hmoves a mem_cons_self)
    obtain ⟨hx', H'', hH', hend⟩ := ih ha fun b hb => hmoves b (mem_cons_of_mem a hb)
    exact ⟨hx.trans hx', H'', hH.trans hH', hend⟩

end

theorem fresh {w : World} (hw : w.Populated H) (hz : s.env.zero ∈ H) (hq : w.outbox = []) :
    ({ world := w } : Machine).Linked s H := by
  have hstored : ∀ side k f, ({ world := w } : Machine).stored? side k ≠ some f := by
    intro side k f
    cases side <;> simp [stored?, Machine.table]
  refine ⟨hq, rfl, hw, hz, fun hk => absurd hk (hstored _ _ _), fun ht => by simp at ht,
    fun hk => absurd hk (hstored _ _ _), fun {side} _ _ _ _ he => ?_, fun {side} _ _ _ _ hl => ?_⟩
  · cases side <;> simp [Table.EnteredBy, Machine.table] at he
  · cases side <;> simp [Table.LeftBy, Machine.table] at hl

end Linked

theorem follow_append (before after : List Move) :
    m.follow s (before ++ after) = (m.follow s before).follow s after := by
  induction before generalizing m with
  | nil => rfl
  | cons a rest ih => exact ih

abbrev Place := Side × Edge.Key

/-- Somewhere in the run the first edge is worked on, and that propagates a fact to the second. -/
def Feeds (s : Setup) (m : Machine) (moves : List Move) (a b : Place) : Prop :=
  ∃ before i after t x, moves = before ++ .work i :: after ∧
    (m.follow s before).executor.queued[i]? = some t ∧ (t.side, t.edge.key) = a ∧
    x ∈ ((m.follow s before).started i t).handed s t.side t.edge ∧ (x.1, x.2.key) = b

section
variable {a : Place} {moves : List Move} (hs : s.Inherits) (h : m.Linked s H)
  (hmoves : ∀ a ∈ moves, a.Seeding s.env)
include hs h hmoves

/-- The fact stored where something is propagated to leads back to the fact it came from. -/
theorem Linked.storedBack_of_feeds {b : Place} (hab : Feeds s m moves a b)
    (hf : (m.follow s moves).stored? a.1 a.2 = some f) (hz : f.is s.env.zero = false) :
    (m.follow s moves).StoredBack b.1 b.2 f := by
  obtain ⟨before, i, after, t, x, rfl, ht, rfl, hx, rfl⟩ := hab
  rw [follow_append] at hf ⊢
  have hbefore : ∀ c ∈ before, c.Seeding s.env := fun c hc => hmoves c (mem_append_left _ hc)
  have hafter : ∀ c ∈ after, c.Seeding s.env := fun c hc =>
    hmoves c (mem_append_right _ (mem_cons_of_mem _ hc))
  obtain ⟨_, H1, _, h₁⟩ := h.follow hs hbefore
  obtain ⟨hx1, ⟨H2, _, h₂⟩, hlog⟩ := h₁.step hs i
  obtain ⟨hx2, _⟩ := h₂.follow hs hafter
  -- The task carries the fact that is stored for its edge, and that never changes.
  obtain ⟨hstored, _⟩ := h₁.tasks (mem_of_getElem? ht)
  have heq : t.edge.d2 = f := by
    have hend := (hx1.trans hx2).stored hstored
    exact Option.some.inj (hend.symm.trans hf)
  subst heq
  have hne : t.edge.d2 ≠ s.env.zero := by
    intro hzero
    rw [hzero] at hz
    simp [Fact.is] at hz
  exact hx2.storedBack (hlog t ht hne x hx)

/-- Where a chain of steps ends, the stored fact leads back to the fact it started from. -/
theorem Linked.storedBack_of_chain {c : Place} (hf : (m.follow s moves).stored? a.1 a.2 = some f)
    (hchain : Relation.ReflTransGen (fun a b => Feeds s m moves a b ∧
      ∃ f, (m.follow s moves).stored? a.1 a.2 = some f ∧ f.is s.env.zero = false) a c) :
    (m.follow s moves).StoredBack c.1 c.2 f := by
  induction hchain with
  | refl => exact ⟨f, hf, .refl f⟩
  | tail _ hstep ih =>
    obtain ⟨hfeeds, g, hg, hz⟩ := hstep
    obtain ⟨g', hg', hback⟩ := ih
    cases hg.symm.trans hg'
    obtain ⟨k, hk, hkg⟩ := h.storedBack_of_feeds hs hmoves hfeeds hg hz
    exact ⟨k, hk, hkg.trans hback⟩

end

def meetingOrigin (n : StmtId) : Origin :=
  { definition := { kind := .source, id := "source" }, path := { base := some ⟨0, "x", .int⟩ }
    stmt := n }

def meetingSource (n : StmtId) (id : Nat) : Fact :=
  { path := { base := some ⟨0, "x", .int⟩ }, origin := some (meetingOrigin n), id }

/-- What it becomes one statement later, without its origin. -/
def meetingCopy (f : Fact) (id : Nat) : Fact :=
  { path := { base := some ⟨0, "y", .int⟩ }, pred := some f, id }

/-- Statement 0 leads to sources at 1 and at 2, and both of these lead to 3. -/
def meeting : Problem where
  view :=
    { succs := fun n => if n = 0 then [1, 2] else if n < 3 then [3] else [], preds := fun _ => []
      starts := fun _ => [], ends := fun _ => [], isStart := fun _ => false
      isExit := fun _ => false, isReturnSite := fun _ => false, isRaise := fun _ _ => false }
  normal _ f _ t := do
    let env ← read
    let id ← Track.fresh
    return { facts := [if f.is env.zero then meetingSource t id else meetingCopy f id] }
  call _ _ _ _ := pure { facts := [] }
  ret _ _ _ _ f _ _ := pure { facts := [f] }
  callToReturn _ f _ _ := pure { facts := [f] }

def meetingSetup : Setup where
  env :=
    { config := { solver := { maxJoin := none, maxCallees := none, maxPathLength := none
                              mergeNeighbors := false } }
      graph := default }
  problem _ := meeting

theorem inherits_pure {env : Env} {inputs : List Fact} {facts : FactSet} (hf : f ∈ inputs)
    (hfacts : ∀ g ∈ facts, g = f) : Track.Inherits (pure { facts }) env inputs f := by
  intro w H hw _ hin
  refine ⟨⟨H, subset_rfl, hw, fun g hg => ?_⟩, fun _ _ => id, fun _ g hg => ?_, rfl, rfl⟩
  · rw [hfacts g hg]
    exact hin f hf
  · rw [hfacts g hg]
    exact .refl f

theorem inherits_meeting_normal (d1 f : Fact) (n t : StmtId) :
    (meeting.normal d1 f n t).Inherits meetingSetup.env [d1, f] f := by
  intro w H hw _ hin
  have hfH : f ∈ H := hin f (by simp)
  have hrun : ((meeting.normal d1 f n t).run meetingSetup.env).run w =
      (({ facts := [if f.is meetingSetup.env.zero then meetingSource t w.nextId
        else meetingCopy f w.nextId] } : Flow), { w with nextId := w.nextId + 1 }) := rfl
  generalize hg : (if f.is meetingSetup.env.zero then meetingSource t w.nextId
    else meetingCopy f w.nextId) = g at hrun
  have hid : g.id = w.nextId := by
    subst hg
    split <;> rfl
  have hpred : ∀ p, g.pred = some p → p = f := by
    subst hg
    split
    · rintro p ⟨⟩
    · rintro p ⟨⟩
      rfl
  have hstems : f.is meetingSetup.env.zero = false → g.StemsFrom f := by
    intro hz
    subst hg
    rw [if_neg (by simp [hz])]
    exact .step rfl (.refl f)
  constructor
  case populated =>
    rw [hrun]
    refine ⟨insert g H, Set.subset_insert g H, ⟨?_, ?_, ?_, ?_⟩, by simp⟩
    · rintro a (rfl | ha) b (rfl | hb) hab
      · rfl
      · have hlt := hw.known b hb
        omega
      · have hlt := hw.known a ha
        omega
      · exact hw.unique a ha b hb hab
    · rintro a (rfl | ha)
      · simp [hid]
      · exact Nat.lt_succ_of_lt (hw.known a ha)
    · rintro a (rfl | ha) p hp
      · rw [hpred p hp]
        exact .inr hfH
      · exact .inr (hw.pred a ha p hp)
    · intro a k hk
      exact .inr (hw.neighbors a k hk)
  case neighbors =>
    intro a k hk
    rw [hrun]
    exact hk
  case stems =>
    intro hz g' hg'
    rw [hrun, mem_singleton] at hg'
    rw [hg']
    exact hstems hz
  case contexts => rw [hrun]
  case outbox => rw [hrun]

theorem meetingSetup_inherits : meetingSetup.Inherits where
  watch := rfl
  maxJoin := rfl
  maxPathLength := rfl
  mergeNeighbors := rfl
  zero_pred := rfl
  problem _ :=
    { normal := inherits_meeting_normal
      call := fun _ _ _ _ => inherits_pure (by simp) (by simp)
      ret := fun _ _ _ _ _ _ _ => inherits_pure (by simp) (by simp)
      callToReturn := fun _ _ _ _ => inherits_pure (by simp) (by simp)
      call_ne_zero := fun _ _ _ _ _ _ hg => by cases hg }
  within _ := by
    have hzero : ∀ n, meetingSetup.env.graph.methodOf n = 0 := fun _ => rfl
    exact ⟨fun n t _ => by rw [hzero, hzero], fun m n hn => by cases hn⟩

abbrev meetingZero : Fact := meetingSetup.env.zero

def meetingKey (n : StmtId) (f : Fact) : Edge.Key := (meetingZero.toTaint, n, f.toTaint)

def meetingMoves : List Move := [.seed [0], .work 0, .work 0, .work 1]

def meetingX : Fact := meetingSource 1 1

def meetingY : Fact := meetingSource 2 2

theorem feeds_of {a b : Place} (before : List Move) (i : Nat) (after : List Move)
    (h : (m.follow s before).executor.queued[i]?.any fun t => (t.side, t.edge.key) == a &&
      (((m.follow s before).started i t).handed s t.side t.edge).any fun e =>
        (e.1, e.2.key) == b) : Feeds s m (before ++ .work i :: after) a b := by
  obtain ⟨t, ht, hcheck⟩ := (Option.any_eq_true _ _).mp h
  obtain ⟨hta, hhanded⟩ := Bool.and_eq_true_iff.mp hcheck
  obtain ⟨e, he, heb⟩ := any_eq_true.mp hhanded
  exact ⟨before, i, after, t, e, rfl, ht, beq_iff_eq.mp hta, he, beq_iff_eq.mp heb⟩

theorem feeds_meetingY : Feeds meetingSetup {} meetingMoves
    (.forward, meetingKey 2 meetingY) (.forward, meetingKey 3 (meetingCopy meetingY 3)) :=
  feeds_of [.seed [0], .work 0] 0 [.work 1] (by decide +kernel)

theorem feeds_meetingX : Feeds meetingSetup {} meetingMoves
    (.forward, meetingKey 1 meetingX) (.forward, meetingKey 3 (meetingCopy meetingX 4)) :=
  feeds_of [.seed [0], .work 0, .work 0] 1 [] (by decide +kernel)

theorem stored_meeting : ∀ n ∈ [1, 2], ∃ f, (({} : Machine).follow meetingSetup meetingMoves).stored?
    .forward (meetingKey n (meetingSource n n)) = some f ∧ f.origin = some (meetingOrigin n) ∧
      f.is meetingZero = false := by
  have hfound : ∀ n ∈ [1, 2], ((({} : Machine).follow meetingSetup meetingMoves).stored? .forward
      (meetingKey n (meetingSource n n))).any fun f =>
        f.origin == some (meetingOrigin n) && !f.is meetingZero := by
    decide +kernel
  intro n hn
  obtain ⟨f, hf, hcheck⟩ := (Option.any_eq_true _ _).mp (hfound n hn)
  exact ⟨f, hf, by simpa using hcheck⟩

theorem populated_zero : ({} : World).Populated {meetingZero} where
  unique := by
    rintro a rfl b rfl _
    rfl
  known := by
    rintro a rfl
    decide
  pred := by
    rintro a rfl p hp
    cases hp
  neighbors a n hn := by simp [World.neighborsOf] at hn

theorem seeding_meetingMoves : ∀ a ∈ meetingMoves, a.Seeding meetingSetup.env := by
  simp [meetingMoves, Move.Seeding]

end Machine
end LeakTrace
