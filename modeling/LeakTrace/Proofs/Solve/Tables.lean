import LeakTrace.Proofs.Index
import LeakTrace.Proofs.Solve.Derivation
import LeakTrace.Proofs.Solve.Runs

/-!
# What machines know and how they grow

Of a machine, the meaning of its tables only needs four predicates: which edges it `Has`, which of
them still wait (`Waits`), from where contexts were entered (`EnteredBy`) and how they were left
(`LeftBy`). Two relations between machines compare them: `Like` for machines that know the same, and
`Grows` for machines of which the second knows more, where what is new also waits.
-/

namespace LeakTrace
variable {f : Fact} {k : Edge.Key}

/-- The history of the fact is not too long. -/
def Setup.Admits (s : Setup) (f : Fact) : Prop :=
  s.env.config.solver.maxPathLength.all (f.length ≤ ·) = true

theorem Setup.admits_iff (s : Setup) :
    s.Admits f ↔ ¬ s.env.config.solver.maxPathLength.any (f.length > ·) := by
  unfold Admits
  cases s.env.config.solver.maxPathLength with
  | none => simp
  | some n => simp

namespace Fact

@[simp]
theorem same_iff {a b : Fact} : a.same b ↔ a.toTaint = b.toTaint := by
  simp [same]

@[simp]
theorem toTaint_stored (f input : Fact) : (f.stored input).toTaint = f.toTaint := by
  unfold stored
  split
  · next h =>
    simp only [repeats, Bool.and_eq_true, same_iff] at h
    exact h.1.2.symm
  · rfl

theorem stored_of {P : Fact → Prop} {g : Fact} (hf : P f) (hg : P g) : P (f.stored g) := by
  unfold stored
  split
  · exact hg
  · exact hf

end Fact

namespace Env
variable {e : Env} {g : Fact}

theorem Identified.faithful (h : e.Identified f) : e.Faithful f := h.mp

theorem identified_zero : e.Identified e.zero := by
  simp [Identified, Fact.is]

theorem Faithful.stored (hf : e.Faithful f) (hg : e.Faithful g) : e.Faithful (f.stored g) :=
  Fact.stored_of hf hg

end Env

@[simp]
theorem World.outbox_addNeighbor (w : World) (f other : Fact) (merge : Bool) :
    (w.addNeighbor f other merge).2.outbox = w.outbox := by
  dsimp only [World.addNeighbor]
  split <;> rfl

namespace Executor
variable {τ : Type}

@[simp]
theorem queued_finish (e : Executor τ) (i : Nat) : (e.finish i).queued = e.queued := by
  unfold finish
  split <;> rfl

@[simp]
theorem interrupted_finish (e : Executor τ) (i : Nat) :
    (e.finish i).interrupted = e.interrupted := by
  unfold finish
  split <;> rfl

end Executor

/-! ## One table -/

namespace Table
variable {t : Table} {m m' : MethodId} {d1 d3 d2 : Fact} {call exit : StmtId} {e : Edge} {d : Taint}

/-- The calls a context was entered from. -/
def EnteredBy (t : Table) (m : MethodId) (d3 : Taint) (call : StmtId) (f : Fact) : Prop :=
  ∃ c ∈ t.incoming[(m, d3)]?.getD [], c.1 = call ∧ f ∈ c.2

/-- The exits a context was left by. -/
def LeftBy (t : Table) (m : MethodId) (d3 : Taint) (exit : StmtId) (f : Fact) : Prop :=
  (exit, f) ∈ t.summaries[(m, d3)]?.getD []

theorem find?_eq_none : t.find? e = none ↔ e.key ∉ t.index := by
  simp [find?]

theorem mem_index_of_find? (h : t.find? e = some f) : e.key ∈ t.index := by
  refine Decidable.byContradiction fun hno => ?_
  rw [find?_eq_none.mpr hno] at h
  cases h

theorem mem_index_record : k ∈ (t.record e).index ↔ e.key = k ∨ k ∈ t.index := by
  simp [record]

theorem isEntered_iff :
    t.isEntered m d3 call d1 ↔ ∃ f, t.EnteredBy m d3.toTaint call f ∧ f.toTaint = d1.toTaint := by
  simp only [isEntered, callersOf, EnteredBy, List.any_eq_true, Bool.and_eq_true, beq_iff_eq,
    Fact.same_iff]
  constructor
  · rintro ⟨c, hc, hcall, f, hf, h⟩
    exact ⟨f, ⟨c, hc, hcall, hf⟩, h.symm⟩
  · rintro ⟨f, ⟨c, hc, hcall, hf⟩, h⟩
    exact ⟨c, hc, hcall, f, hf, h.symm⟩

theorem enteredBy_addIncoming {c : StmtId} : (t.addIncoming m d3 call d1).EnteredBy m' d c f ↔
    t.EnteredBy m' d c f ∨ (m' = m ∧ d = d3.toTaint ∧ c = call ∧ f = d1) := by
  unfold EnteredBy addIncoming callersOf
  rw [Index.getElem?_insert]
  by_cases hk : (m, d3.toTaint) = (m', d)
  · obtain ⟨rfl, rfl⟩ := Prod.mk.inj hk
    simp only [if_true, Option.getD_some, true_and]
    generalize t.incoming[(m, d3.toTaint)]?.getD [] = old
    by_cases hany : old.any (·.1 == call)
    · -- The call is listed: its entry is extended, the others stay.
      rw [if_pos hany]
      obtain ⟨o, ho, hoc⟩ := List.any_eq_true.mp hany
      constructor
      · rintro ⟨c', hc', rfl, hf⟩
        obtain ⟨x, hx, rfl⟩ := List.mem_map.mp hc'
        grind
      · rintro (⟨x, hx, rfl, hf⟩ | ⟨rfl, rfl⟩)
        · refine ⟨_, List.mem_map.mpr ⟨x, hx, rfl⟩, ?_⟩
          grind
        · exact ⟨_, List.mem_map.mpr ⟨o, ho, rfl⟩, by simp [hoc]⟩
    · rw [if_neg hany]
      constructor
      · rintro ⟨x, hx, rfl, hf⟩
        rcases List.mem_append.mp hx with hx | hx
        · exact Or.inl ⟨x, hx, rfl, hf⟩
        · rw [List.mem_singleton.mp hx] at hf ⊢
          exact Or.inr ⟨rfl, List.mem_singleton.mp hf⟩
      · rintro (⟨x, hx, rfl, hf⟩ | ⟨rfl, rfl⟩)
        · exact ⟨x, List.mem_append_left _ hx, rfl, hf⟩
        · exact ⟨(c, [f]), by simp, rfl, by simp⟩
  · rw [if_neg hk]
    constructor
    · exact Or.inl
    · rintro (h | ⟨rfl, rfl, _⟩)
      · exact h
      · exact absurd rfl hk

theorem mem_callersOf_addIncoming {d : Fact} {p : StmtId × List Fact}
    (hp : p ∈ (t.addIncoming m d3 call d1).callersOf m' d) :
    (∃ p' ∈ t.callersOf m' d, p'.1 = p.1) ∨ (m' = m ∧ p.1 = call) := by
  unfold addIncoming at hp
  unfold callersOf at hp ⊢
  rw [Index.getElem?_insert] at hp
  by_cases hk : (m, d3.toTaint) = (m', d.toTaint)
  · obtain ⟨rfl, hd⟩ := Prod.mk.inj hk
    rw [if_pos hk, Option.getD_some, hd] at hp
    by_cases hany : (t.incoming[(m, d.toTaint)]?.getD []).any (·.1 == call)
    · rw [if_pos hany] at hp
      obtain ⟨x, hx, rfl⟩ := List.mem_map.mp hp
      refine .inl ⟨x, hx, ?_⟩
      split
      · next hc => exact beq_iff_eq.mp hc
      · rfl
    · rw [if_neg hany] at hp
      rcases List.mem_append.mp hp with hp | hp
      · exact .inl ⟨p, hp, rfl⟩
      · rw [List.mem_singleton.mp hp]
        exact .inr ⟨rfl, rfl⟩
  · rw [if_neg hk] at hp
    exact .inl ⟨p, hp, rfl⟩

theorem leftBy_addSummary {x : StmtId} : (t.addSummary m d1 exit d2).LeftBy m' d x f ↔
    t.LeftBy m' d x f ∨ (m' = m ∧ d = d1.toTaint ∧ x = exit ∧ f = d2) := by
  unfold LeftBy addSummary summariesOf
  rw [Index.getElem?_insert]
  by_cases hk : (m, d1.toTaint) = (m', d)
  · obtain ⟨rfl, rfl⟩ := Prod.mk.inj hk
    simp
  · rw [if_neg hk]
    constructor
    · exact Or.inl
    · rintro (h | ⟨rfl, rfl, _⟩)
      · exact h
      · exact absurd rfl hk

/-! Contexts, exits and edges are recorded apart from each other. -/

section Frame

theorem index_addIncoming (t : Table) : (t.addIncoming m d3 call d1).index = t.index := rfl

theorem summaries_addIncoming (t : Table) :
    (t.addIncoming m d3 call d1).summaries = t.summaries := rfl

theorem index_addSummary (t : Table) : (t.addSummary m d1 exit d2).index = t.index := rfl

theorem incoming_addSummary (t : Table) : (t.addSummary m d1 exit d2).incoming = t.incoming := rfl

end Frame

theorem leftBy_of_summary? (h : t.summary? m d1 exit d2 = some f) :
    t.LeftBy m d1.toTaint exit f ∧ f.toTaint = d2.toTaint := by
  obtain ⟨p, hp, rfl⟩ := Option.map_eq_some_iff.mp h
  have hmem := List.mem_of_find?_eq_some hp
  have hsame := List.find?_some hp
  simp only [Bool.and_eq_true, beq_iff_eq, Fact.same_iff] at hsame
  obtain ⟨rfl, ht⟩ := hsame
  exact ⟨hmem, ht⟩

/-- The change only counts and leaves marks. -/
def Marks (f : Table → Table) : Prop :=
  ∀ t, (f t).index = t.index ∧ (f t).incoming = t.incoming ∧ (f t).summaries = t.summaries

end Table

/-! ## Two tables and the work that waits -/

namespace Machine
variable {m m' m'' : Machine} {s : Setup} {side : Side} {kind : FlowKind} {act : Track Flow}
  {e : Edge} {call : Option StmtId} {exit : StmtId}

@[simp]
theorem table_modifyTable (m : Machine) (side side' : Side) (f : Table → Table) :
    (m.modifyTable side f).table side' = if side' = side then f (m.table side) else m.table side' := by
  cases side <;> cases side' <;> rfl

@[simp]
theorem executor_modifyTable (m : Machine) (side : Side) (f : Table → Table) :
    (m.modifyTable side f).executor = m.executor := by
  cases side <;> rfl

@[simp]
theorem world_modifyTable (m : Machine) (side : Side) (f : Table → Table) :
    (m.modifyTable side f).world = m.world := by
  cases side <;> rfl

def Has (m : Machine) (side : Side) (k : Edge.Key) : Prop := k ∈ (m.table side).index

instance {side : Side} {k : Edge.Key} : Decidable (m.Has side k) :=
  inferInstanceAs (Decidable (k ∈ (m.table side).index))

def Waits (m : Machine) (side : Side) (k : Edge.Key) : Prop :=
  ∃ t ∈ m.executor.queued, t.side = side ∧ t.edge.key = k

section ModifyTable
variable {side' : Side} {f : Table → Table} {callee : MethodId} {d3 : Taint} {g : Fact}

theorem of_table_modifyTable {α : Type} (part : Table → α) (hf : ∀ t, part (f t) = part t) :
    part ((m.modifyTable side f).table side') = part (m.table side') := by
  cases side <;> cases side' <;> first | rfl | exact hf _

theorem has_modifyTable (hf : ∀ t, (f t).index = t.index) :
    (m.modifyTable side f).Has side' k ↔ m.Has side' k := by
  unfold Has
  rw [of_table_modifyTable Table.index hf]

theorem enteredBy_modifyTable (hf : ∀ t, (f t).incoming = t.incoming) {call : StmtId} :
    ((m.modifyTable side f).table side').EnteredBy callee d3 call g ↔
      (m.table side').EnteredBy callee d3 call g := by
  unfold Table.EnteredBy
  rw [of_table_modifyTable Table.incoming hf]

theorem leftBy_modifyTable (hf : ∀ t, (f t).summaries = t.summaries) :
    ((m.modifyTable side f).table side').LeftBy callee d3 exit g ↔
      (m.table side').LeftBy callee d3 exit g := by
  unfold Table.LeftBy
  rw [of_table_modifyTable Table.summaries hf]

end ModifyTable

/-- The machines know the same contexts and exits. -/
structure SameCalls (m m' : Machine) : Prop where
  incoming : ∀ side, (m'.table side).incoming = (m.table side).incoming
  summaries : ∀ side, (m'.table side).summaries = (m.table side).summaries

namespace SameCalls
variable {callee : MethodId} {d3 : Taint}

theorem refl (m : Machine) : m.SameCalls m := ⟨fun _ => rfl, fun _ => rfl⟩

theorem trans (h : m.SameCalls m') (h' : m'.SameCalls m'') : m.SameCalls m'' :=
  ⟨fun side => (h'.incoming side).trans (h.incoming side),
    fun side => (h'.summaries side).trans (h.summaries side)⟩

theorem enteredBy_iff (h : m.SameCalls m') {call : StmtId} :
    (m'.table side).EnteredBy callee d3 call f ↔ (m.table side).EnteredBy callee d3 call f := by
  unfold Table.EnteredBy
  rw [h.incoming]

theorem leftBy_iff (h : m.SameCalls m') :
    (m'.table side).LeftBy callee d3 exit f ↔ (m.table side).LeftBy callee d3 exit f := by
  unfold Table.LeftBy
  rw [h.summaries]

end SameCalls

structure SameTables (m m' : Machine) : Prop extends SameCalls m m' where
  index : ∀ side, (m'.table side).index = (m.table side).index

theorem SameTables.modifyTable (h : m.SameTables m') (side : Side) {f : Table → Table}
    (hf : Table.Marks f) : m.SameTables (m'.modifyTable side f) where
  index _ := (of_table_modifyTable Table.index fun t => (hf t).1).trans (h.index _)
  incoming _ := (of_table_modifyTable Table.incoming fun t => (hf t).2.1).trans (h.incoming _)
  summaries _ := (of_table_modifyTable Table.summaries fun t => (hf t).2.2).trans (h.summaries _)

/-- The machines differ in nothing that the tables mean. -/
structure Like (m m' : Machine) : Prop extends SameTables m m' where
  queued : m'.executor.queued = m.executor.queued
  interrupted : m'.executor.interrupted = m.executor.interrupted
  outbox : m'.world.outbox = m.world.outbox

namespace Like

theorem beside {w : World} {x : Executor Task} {seen : Std.HashSet (FlowKind × StmtId × Taint)}
    (hqueued : x.queued = m.executor.queued) (hlive : x.interrupted = m.executor.interrupted)
    (houtbox : w.outbox = m.world.outbox) : m.Like { m with world := w, executor := x, seen } :=
  ⟨⟨⟨fun _ => rfl, fun _ => rfl⟩, fun _ => rfl⟩, hqueued, hlive, houtbox⟩

theorem refl (m : Machine) : m.Like m := beside rfl rfl rfl

theorem modifyTable (h : m.Like m') (side : Side) {f : Table → Table} (hf : Table.Marks f) :
    m.Like (m'.modifyTable side f) where
  toSameTables := h.toSameTables.modifyTable side hf
  queued := by simpa using h.queued
  interrupted := by simpa using h.interrupted
  outbox := by simpa using h.outbox

end Like

/-- The second machine knows at least as much, and what is new also waits. -/
structure Grows (m m' : Machine) : Prop where
  has : ∀ {side k}, m.Has side k → m'.Has side k
  fresh : ∀ {side k}, m'.Has side k → m.Has side k ∨ m'.Waits side k
  waits : ∀ {side k}, m.Waits side k → m'.Waits side k
  enteredBy : ∀ {side callee d3 call f},
    (m.table side).EnteredBy callee d3 call f → (m'.table side).EnteredBy callee d3 call f
  leftBy : ∀ {side callee d3 exit f},
    (m.table side).LeftBy callee d3 exit f → (m'.table side).LeftBy callee d3 exit f

theorem Grows.refl (m : Machine) : m.Grows m := ⟨id, Or.inl, id, id, id⟩

theorem Grows.trans (h : m.Grows m') (h' : m'.Grows m'') : m.Grows m'' where
  has hk := h'.has (h.has hk)
  fresh hk := by
    rcases h'.fresh hk with hk' | hw
    · exact (h.fresh hk').imp_right h'.waits
    · exact Or.inr hw
  waits hw := h'.waits (h.waits hw)
  enteredBy he := h'.enteredBy (h.enteredBy he)
  leftBy hl := h'.leftBy (h.leftBy hl)

structure Spreads (m m' : Machine) : Prop extends Grows m m', SameCalls m m'

theorem Spreads.refl (m : Machine) : m.Spreads m := ⟨.refl m, .refl m⟩

theorem Spreads.trans (h : m.Spreads m') (h' : m'.Spreads m'') : m.Spreads m'' :=
  ⟨h.toGrows.trans h'.toGrows, h.toSameCalls.trans h'.toSameCalls⟩

theorem Like.spreads (h : m.Like m') : m.Spreads m' where
  has hk := by unfold Has at *; rwa [h.index]
  fresh hk := by unfold Has at *; rw [h.index] at hk; exact Or.inl hk
  waits hw := by unfold Waits at *; rwa [h.queued]
  enteredBy := h.enteredBy_iff.mpr
  leftBy := h.leftBy_iff.mpr
  toSameCalls := h.toSameCalls

/-- The second machine knows one more edge, which waits. -/
structure Gains (side : Side) (e : Edge) (m m' : Machine) : Prop extends SameCalls m m' where
  has_iff : ∀ {side' k}, m'.Has side' k ↔ (side' = side ∧ e.key = k) ∨ m.Has side' k
  queued : m'.executor.queued = ⟨side, e⟩ :: m.executor.queued
  interrupted : m'.executor.interrupted = m.executor.interrupted
  outbox : m'.world.outbox = m.world.outbox

theorem Gains.spreads (h : Gains side e m m') : m.Spreads m' where
  has hk := h.has_iff.mpr (Or.inr hk)
  fresh hk := by
    rcases h.has_iff.mp hk with ⟨rfl, rfl⟩ | hk
    · exact Or.inr ⟨⟨_, e⟩, by simp [h.queued], rfl, rfl⟩
    · exact Or.inl hk
  waits := by
    rintro side' k ⟨t, ht, hside, hkey⟩
    exact ⟨t, by simp [h.queued, ht], hside, hkey⟩
  enteredBy := h.enteredBy_iff.mpr
  leftBy := h.leftBy_iff.mpr
  toSameCalls := h.toSameCalls

/-! ## What the engine does to the tables -/

theorem gains_record_schedule (hlive : m.executor.interrupted = false) :
    (m.modifyTable side fun t => t.record e).Ends s (Work.schedule side e) fun _ m' =>
      Gains side e m m' := by
  unfold Work.schedule
  rw [ends_modify, executor_modifyTable, if_neg (by simp [hlive])]
  refine ⟨⟨fun side' => ?_, fun side' => ?_⟩, fun {side' k} => ?_, ?_, ?_, ?_⟩
  · cases side <;> cases side' <;> rfl
  · cases side <;> cases side' <;> rfl
  · change k ∈ (((m.modifyTable side _).modifyTable side _).table side').index ↔ _
    simp only [table_modifyTable]
    by_cases hside : side' = side
    · subst hside
      simp [Table.mem_index_record, Has]
    · simp [hside, Has]
  · simp [Executor.execute, hlive]
  · simp [Executor.execute, hlive]
  · simp

theorem like_join {stored other : Fact} :
    m.Ends s (Work.join side stored other call) fun _ m' => m.Like m' := by
  unfold Work.join
  simp only [ends_bind, ends_read, ends_modify]
  split
  · exact Like.refl m
  · have hlike : m.Like { m with world := _ } := .beside rfl rfl
      (World.outbox_addNeighbor m.world stored other s.env.config.solver.mergeNeighbors)
    split
    · exact hlike.modifyTable side fun _ => ⟨rfl, rfl, rfl⟩
    · exact hlike

theorem has_propagate (hshort : s.Admits e.d2) (hlive : m.executor.interrupted = false) :
    m.Ends s (Work.propagate side e call) fun _ m' =>
      m'.Has side e.key ∧ (m.Has side e.key ∧ m.Like m' ∨ Gains side e m m') := by
  unfold Work.propagate
  rw [ends_bind, ends_read, if_neg (s.admits_iff.mp hshort), ends_bind, ends_get]
  cases hfind : (m.table side).find? e with
  | some stored =>
    have hk : m.Has side e.key := Table.mem_index_of_find? hfind
    exact like_join.mono fun _ m' hlike => ⟨hlike.spreads.has hk, Or.inl ⟨hk, hlike⟩⟩
  | none =>
    simp only [ends_bind, ends_modify]
    refine (gains_record_schedule hlive).mono fun _ m' hg => ⟨?_, Or.inr hg⟩
    exact hg.has_iff.mpr (Or.inl ⟨rfl, rfl⟩)

theorem ends_propagate (hshort : s.Admits e.d2) :
    m.Ends s (Work.propagate side e call) fun _ m' => m'.Has side e.key := by
  unfold Work.propagate
  rw [ends_bind, ends_read, if_neg (s.admits_iff.mp hshort), ends_bind, ends_get]
  cases hfind : (m.table side).find? e with
  | some stored =>
    exact like_join.mono fun _ m' hlike => hlike.spreads.has (Table.mem_index_of_find? hfind)
  | none =>
    have hrecord : (m.modifyTable side fun t => t.record e).Has side e.key := by
      unfold Has
      rw [table_modifyTable, if_pos rfl]
      exact Table.mem_index_record.mpr (.inl rfl)
    simp only [ends_bind, ends_modify, Work.schedule]
    split
    · exact hrecord
    · exact (has_modifyTable (f := fun t => { t with scheduled := t.scheduled + 1 })
        fun _ => rfl).mpr hrecord

theorem ends_deliverAll (hquiet : m.world.outbox = []) :
    m.Ends s Work.deliverAll fun _ m' => m' = m := by
  unfold Work.deliverAll
  simp only [ends_bind, ends_get, ends_modify, hquiet, List.reverse_nil]
  change Ends _ s (pure ()) _
  rw [ends_pure]
  rw [← hquiet]

/-- Unless somebody watches, a flow function changes the world, and then what it asked for is
done. -/
theorem ends_evaluate_deliver {Q : Flow → Machine → Prop} (hwatch : s.watch = {})
    (hdeliver : ∀ seen, Ends { m with world := ((act.run s.env).run m.world).2, seen } s
      Work.deliverAll fun _ m' => Q ((act.run s.env).run m.world).1 m') :
    m.Ends s (Work.evaluate kind f act) Q := by
  unfold Work.evaluate
  simp only [ends_bind, ends_read, ends_get]
  generalize (act.run s.env).run m.world = r at *
  obtain ⟨flow, w⟩ := r
  dsimp only at *
  have hkill : flow.leftAt.any s.watch.killAt.contains = false := by
    rw [hwatch]
    cases flow.leftAt <;> rfl
  -- Observers see the fact first, if there is something to see; the rest does not depend on them.
  cases flow.seenAt with
  | none =>
    simp only [ends_bind, ends_modify, ends_pure, hkill]
    exact hdeliver m.seen
  | some n =>
    have hobserve : m.Ends s (Work.observe kind f n) fun _ m' =>
        m' = { m with seen := m.seen.insert (kind, n, f.toTaint) } := by
      simp [Work.observe, hwatch]
    simp only [ends_bind, ends_modify, ends_pure, hkill]
    refine hobserve.mono fun _ m1 h1 => ?_
    subst h1
    exact hdeliver _

/-- A flow function that asks for nothing changes the world as it does by itself. -/
theorem ends_evaluate_quiet (hwatch : s.watch = {})
    (hquiet : ((act.run s.env).run m.world).2.outbox = []) :
    m.Ends s (Work.evaluate kind f act) fun flow m' =>
      flow = ((act.run s.env).run m.world).1 ∧
        ∃ seen, m' = { m with world := ((act.run s.env).run m.world).2, seen } := by
  refine ends_evaluate_deliver hwatch fun seen => (ends_deliverAll hquiet).mono fun _ m' h => ?_
  exact ⟨rfl, seen, h⟩

end Machine
end LeakTrace
