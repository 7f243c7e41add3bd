import LeakTrace.Proofs.Solve.Walk
import LeakTrace.Proofs.Vocabulary.Flows

/-!
# Solvers stay in the vocabulary

`m.Within V c r` says that everything the two solvers know, and every task that waits, is over the
vocabulary, and it counts: `c` edges were recorded that wait no longer, and `r` tasks run.

**A new edge is recorded before it is scheduled.** Recording makes room for one task more
(`Within.record`) and scheduling takes the room (`Within.schedule`), so whatever work does, the
count is kept; a task that leaves the queue makes it go up for good.
-/

namespace LeakTrace
open List

variable {e : Edge}

/-! ## Edges and tables -/

variable {V : Vocabulary}

structure Edge.Over (V : Vocabulary) (e : Edge) : Prop where
  d1 : e.d1.Over V
  stmt : e.stmt ∈ V.stmts
  d2 : e.d2.Over V

def Vocabulary.HasKey (V : Vocabulary) (k : Edge.Key) : Prop :=
  k.1.Over V ∧ k.2.1 ∈ V.stmts ∧ k.2.2.Over V

theorem Edge.Over.hasKey (h : e.Over V) : V.HasKey e.key := ⟨h.d1, h.stmt, h.d2⟩

theorem Vocabulary.finite_hasKey (V : Vocabulary) : {k | V.HasKey k}.Finite :=
  (Taint.finite_over V).prod (V.stmts.finite_toSet.prod (Taint.finite_over V))

noncomputable def Vocabulary.keys (V : Vocabulary) : Finset Edge.Key := V.finite_hasKey.toFinset

theorem Vocabulary.mem_keys {k : Edge.Key} : k ∈ V.keys ↔ V.HasKey k :=
  Set.Finite.mem_toFinset V.finite_hasKey

theorem Fact.Over.stored {f input : Fact} (h : f.Over V) : (f.stored input).Over V := by
  unfold Fact.Over
  rw [Fact.toTaint_stored]
  exact h

/-- How many edges of the vocabulary the table knows. -/
noncomputable def Table.count (V : Vocabulary) (t : Table) : Nat :=
  (V.keys.filter (· ∈ t.index)).card

theorem Table.count_record {t : Table} (he : e.Over V) (hnew : e.key ∉ t.index) :
    (t.record e).count V = t.count V + 1 := by
  have hinsert : V.keys.filter (· ∈ (t.record e).index) =
      insert e.key (V.keys.filter (· ∈ t.index)) := by
    ext k
    simp only [Finset.mem_filter, Finset.mem_insert, mem_index_record]
    grind [Vocabulary.mem_keys.mpr he.hasKey]
  rw [count, hinsert, Finset.card_insert_of_notMem (by simp [hnew]), count]

structure Table.Over (V : Vocabulary) (t : Table) : Prop where
  index : ∀ k ∈ t.index, V.HasKey k
  incoming : ∀ m d, ∀ c ∈ t.callersOf m d, c.1 ∈ V.stmts ∧ ∀ f ∈ c.2, Fact.Over V f
  summaries : ∀ m d, ∀ p ∈ t.summariesOf m d, p.1 ∈ V.stmts ∧ Fact.Over V p.2

namespace Table
variable {t : Table} {m : MethodId} {d1 : Fact}

theorem over_empty : ({} : Table).Over V := by
  refine ⟨fun k hk => ?_, fun m d c hc => ?_, fun m d p hp => ?_⟩
  · simp at hk
  · simp [callersOf] at hc
  · simp [summariesOf] at hp

variable (h : t.Over V)
include h

theorem Over.of_eq {t' : Table} (hindex : t'.index = t.index) (hincoming : t'.incoming = t.incoming)
    (hsummaries : t'.summaries = t.summaries) : t'.Over V := by
  refine ⟨?_, ?_, ?_⟩
  · rw [hindex]
    exact h.index
  · unfold callersOf
    rw [hincoming]
    exact h.incoming
  · unfold summariesOf
    rw [hsummaries]
    exact h.summaries

theorem Over.record (he : e.Over V) : (t.record e).Over V where
  index k hk := by
    rcases mem_index_record.mp hk with rfl | hk
    · exact he.hasKey
    · exact h.index k hk
  incoming := h.incoming
  summaries := h.summaries

theorem Over.addIncoming {d3 : Fact} {call : StmtId} (hcall : call ∈ V.stmts) (h1 : d1.Over V) :
    (t.addIncoming m d3 call d1).Over V where
  index := h.index
  incoming m' d c hc := by
    unfold callersOf Table.addIncoming at hc
    dsimp only at hc
    rw [Index.getElem?_insert] at hc
    split at hc
    · have hold := h.incoming m d3
      rw [Option.getD_some] at hc
      split at hc
      · obtain ⟨x, hx, rfl⟩ := List.mem_map.mp hc
        obtain ⟨hx1, hx2⟩ := hold x hx
        split
        · refine ⟨hcall, fun f hf => ?_⟩
          rcases mem_append.mp hf with hf | hf
          · exact hx2 f hf
          · rw [mem_singleton.mp hf]
            exact h1
        · exact ⟨hx1, hx2⟩
      · rcases mem_append.mp hc with hc | hc
        · exact hold c hc
        · rw [mem_singleton.mp hc]
          refine ⟨hcall, fun f hf => ?_⟩
          rw [mem_singleton.mp hf]
          exact h1
    · exact h.incoming m' d c hc
  summaries := h.summaries

theorem Over.addSummary {d2 : Fact} {exit : StmtId} (hexit : exit ∈ V.stmts) (h2 : d2.Over V) :
    (t.addSummary m d1 exit d2).Over V where
  index := h.index
  incoming := h.incoming
  summaries m' d p hp := by
    unfold summariesOf Table.addSummary at hp
    dsimp only at hp
    rw [Index.getElem?_insert] at hp
    split at hp
    · rw [Option.getD_some] at hp
      rcases mem_append.mp hp with hp | hp
      · exact h.summaries m d1 p hp
      · rw [mem_singleton.mp hp]
        exact ⟨hexit, h2⟩
    · exact h.summaries m' d p hp

end Table

/-! ## Machines -/

namespace Machine
variable {m m' : Machine} {c r : Nat} {side : Side}

noncomputable def known (V : Vocabulary) (m : Machine) : Nat :=
  (m.table .forward).count V + (m.table .backward).count V

/-- The machines differ only in marks and counters, and in their worlds. -/
structure Marked (m m' : Machine) : Prop extends SameTables m m' where
  queued : m'.executor.queued = m.executor.queued
  running : m'.executor.running = m.executor.running
  inFlight : m'.executor.inFlight = m.executor.inFlight

namespace Marked

theorem beside (m : Machine) (world : World) (cancelled : Bool)
    (seen : Std.HashSet (FlowKind × StmtId × Taint)) : m.Marked { m with world, cancelled, seen } :=
  ⟨⟨⟨fun _ => rfl, fun _ => rfl⟩, fun _ => rfl⟩, rfl, rfl, rfl⟩

theorem refl (m : Machine) : m.Marked m := beside m _ _ _

theorem modifyTable (h : m.Marked m') (side : Side) {f : Table → Table} (hf : Table.Marks f) :
    m.Marked (m'.modifyTable side f) where
  toSameTables := h.toSameTables.modifyTable side hf
  queued := by rw [executor_modifyTable, h.queued]
  running := by rw [executor_modifyTable, h.running]
  inFlight := by rw [executor_modifyTable, h.inFlight]

theorem known_eq (h : m.Marked m') : m'.known V = m.known V := by
  unfold known Table.count
  rw [h.index, h.index]

theorem stop (m : Machine) (sides : List Side) (reason : StopReason) :
    m.Marked (m.stop sides reason) := by
  have hall : m.Marked (sides.foldl (fun m side => m.modifyTable side (·.stop reason)) m) :=
    List.foldlRecOn (motive := m.Marked) sides _ (.refl m) fun _ hm side _ =>
      hm.modifyTable side fun _ => ⟨rfl, rfl, rfl⟩
  unfold Machine.stop
  dsimp only
  split
  · exact hall
  · exact { hall with }

theorem cancel (m : Machine) (sides : List Side) : m.Marked (m.cancel sides) := by
  unfold Machine.cancel
  split
  · exact .refl m
  · exact { stop m sides .cancelled with }

end Marked

/-- The solvers know only what is over the vocabulary; `c` of the edges do not wait, and `r` tasks
run. -/
structure Within (V : Vocabulary) (c r : Nat) (m : Machine) : Prop where
  world : m.world.Over V
  tables : ∀ side, (m.table side).Over V
  queued : ∀ t ∈ m.executor.queued, Edge.Over V t.edge
  tally : m.executor.queued.length + c ≤ m.known V
  running : m.executor.running.length = r
  inFlight : m.executor.inFlight = m.executor.queued.length + r

namespace Within
variable {f : Table → Table}

section
variable (h : m.Within V c r)
include h

theorem of_marked (hm : m.Marked m') (hw : m'.world.Over V) : m'.Within V c r where
  world := hw
  tables side := (h.tables side).of_eq (hm.index side) (hm.incoming side) (hm.summaries side)
  queued := by
    rw [hm.queued]
    exact h.queued
  tally := by
    rw [hm.queued, hm.known_eq]
    exact h.tally
  running := by
    rw [hm.running]
    exact h.running
  inFlight := by
    rw [hm.inFlight, hm.queued]
    exact h.inFlight

theorem mark (side : Side) (hf : Table.Marks f) : (m.modifyTable side f).Within V c r := by
  refine h.of_marked ((Marked.refl m).modifyTable side hf) ?_
  rw [world_modifyTable]
  exact h.world

theorem stop (sides : List Side) (reason : StopReason) : (m.stop sides reason).Within V c r := by
  refine h.of_marked (.stop m sides reason) ?_
  rw [world_stop]
  exact h.world

theorem cancel (sides : List Side) : (m.cancel sides).Within V c r := by
  refine h.of_marked (.cancel m sides) ?_
  rw [world_cancel]
  exact h.world

theorem note (side : Side) (hindex : ∀ t, (f t).index = t.index)
    (hover : ∀ t, Table.Over V t → (f t).Over V) : (m.modifyTable side f).Within V c r where
  world := by simpa using h.world
  tables side' := by
    rw [table_modifyTable]
    split
    · exact hover _ (h.tables side)
    · exact h.tables side'
  queued := by simpa using h.queued
  tally := by
    have hknown : (m.modifyTable side f).known V = m.known V := by
      cases side <;> simp [known, Table.count, hindex]
    rw [executor_modifyTable, hknown]
    exact h.tally
  running := by simpa using h.running
  inFlight := by simpa using h.inFlight

end

theorem fewer (h : m.Within V (c + 1) r) : m.Within V c r :=
  { h with tally := by have := h.tally; omega }

theorem record (h : m.Within V c r) (he : e.Over V) (hnew : (m.table side).find? e = none) :
    (m.modifyTable side fun t => t.record e).Within V (c + 1) r where
  world := by simpa using h.world
  tables side' := by
    rw [table_modifyTable]
    split
    · exact (h.tables side).record he
    · exact h.tables side'
  queued := by simpa using h.queued
  tally := by
    have hcount := Table.count_record he (Table.find?_eq_none.mp hnew)
    have hknown : (m.modifyTable side fun t => t.record e).known V = m.known V + 1 := by
      cases side with
      | forward =>
        simp [known, hcount]
        omega
      | backward =>
        simp [known, hcount]
        omega
    rw [executor_modifyTable, hknown]
    have := h.tally
    omega
  running := by simpa using h.running
  inFlight := by simpa using h.inFlight

theorem schedule (h : m.Within V (c + 1) r) {s : Setup} (he : e.Over V) :
    m.Ends s (Work.schedule side e) fun _ m' => m'.Within V c r := by
  unfold Work.schedule
  rw [ends_modify]
  split
  · exact h.fewer
  · next hlive =>
    have hmark := h.mark side (f := fun t => { t with scheduled := t.scheduled + 1 })
      fun _ => ⟨rfl, rfl, rfl⟩
    refine ⟨hmark.world, hmark.tables, ?_, ?_, ?_, ?_⟩
    · intro t ht
      simp only [Executor.execute, if_neg hlive, mem_cons] at ht
      rcases ht with rfl | ht
      · exact he
      · exact h.queued t ht
    · have htally := hmark.tally
      simp only [Executor.execute, if_neg hlive, length_cons]
      rw [executor_modifyTable] at htally
      change m.executor.queued.length + 1 + c ≤ (m.modifyTable side _).known V
      omega
    · simp only [Executor.execute, if_neg hlive]
      exact h.running
    · simp only [Executor.execute, if_neg hlive, length_cons]
      have := h.inFlight
      omega

end Within
end Machine

/-! ## Work -/

/-- The setup speaks of a covered program, and its problems stay in the vocabulary. -/
structure Setup.Stays (V : Vocabulary) (s : Setup) : Prop where
  covers : V.Covers s.env
  problem : ∀ side, (s.problem side).Stays V s.env

theorem Setup.stays_ofEnv {e : Env} (hV : V.Covers e) (watch : Watch) :
    (Setup.ofEnv e watch).Stays V :=
  ⟨hV, Problem.ofSide_stays hV⟩

namespace Machine.Within
variable {s : Setup} {c r : Nat} {side : Side} {m : Machine} {f : Fact}

theorem of_world (h : m.Within V c r) {w : World} (hw : w.Over V) :
    Machine.Within V c r { m with world := w } :=
  h.of_marked (.beside ..) hw

theorem neighbor (h : m.Within V c r) {g : Fact} {merge : Bool} :
    Machine.Within V c r { m with world := (m.world.addNeighbor f g merge).2 } :=
  h.of_world (World.addNeighbor_of fun _ => h.world.of_eq rfl rfl)

theorem propagate_keeps (he : e.Over V) {call : Option StmtId} :
    Work.Keeps s (Within V c r) (Work.propagate side e call) := by
  refine .read (.guard trivial <| .get_bind_eq fun m hm => ?_)
  cases hfind : (m.table side).find? e with
  | some stored =>
    exact .at_machine (Work.join_keeps (fun _ _ hm' => hm'.neighbor) fun _ hm' => hm'.mark side
      fun _ => ⟨rfl, rfl, rfl⟩) hm
  | none =>
    refine .of_ends ?_
    rintro _ rfl
    simp only [ends_bind, ends_modify]
    exact ((hm.record he hfind).schedule he).mono fun _ _ hm' => ⟨hm', trivial⟩

theorem deliverAll_keeps : Work.Keeps s (Within V c r) Work.deliverAll := by
  refine Work.deliverAll_keeps (fun _ hm => hm.stop _ _) (fun m hm => hm.of_world
    ⟨hm.world.paths, forall_mem_nil _⟩) fun m hm side d1 n d2 hmem => ?_
  refine .modify_bind (fun _ hm' => hm'.mark side fun _ => ⟨rfl, rfl, rfl⟩) (propagate_keeps ?_)
  have hover := hm.world.outbox _ hmem
  exact ⟨hover.1, hover.2.1, hover.2.2⟩

theorem evaluate_keeps {kind : FlowKind} {act : Track Flow}
    (hact : Track.Keeps s.env (World.Over V) act (Flow.Over V)) :
    Work.Keeps s (Within V c r) (Work.evaluate kind f act) (Flow.Over V) :=
  Work.evaluate_keeps (fun _ _ hm => hm.of_marked (.beside ..) hm.world) (fun _ _ _ hm => hm.cancel _)
    (fun m hm => ⟨(hact m.world hm.world).1, hm.of_world (hact m.world hm.world).2⟩)
    (fun _ _ ho => ⟨.nil, ho.contexts⟩) deliverAll_keeps

end Machine.Within

def Terms.over (V : Vocabulary) : Terms where
  edge _ e := e.Over V
  entered _ _ d3 call contexts := d3.Over V ∧ call ∈ V.stmts ∧ ∀ d ∈ contexts, Fact.Over V d
  left _ _ d3 exit f := d3.Over V ∧ exit ∈ V.stmts ∧ f.Over V

namespace Setup.Stays
open Machine.Within

variable {s : Setup} {c r : Nat} {side : Side} (hs : s.Stays V)
include hs

theorem carries : s.Carries (.over V) (Machine.Within V c r) where
  propagate he := propagate_keeps he
  register h hm := hm.note _ (fun _ => rfl) fun _ ht => ht.addIncoming h.2.1 (h.2.2 _ (by simp))
  callers hm hleft p hp := ⟨hleft.1, (hm.tables _).incoming _ _ p hp⟩
  summaries hm h p hp := ⟨h.1, (hm.tables _).summaries _ _ p hp⟩
  ret {side _ _ _ call _ _ _} hleft h hsite :=
    (evaluate_keeps ((hs.problem side).ret (by simpa using h.2.1) hleft.2.1 hleft.2.2 hleft.1
      h.2.2)).mono fun _ ho g hg d hd =>
        ⟨h.2.2 d hd, (hs.problem side).succs call h.2.1 _ hsite, (ho.facts g hg).stored⟩

theorem carriesAt (he : e.Over V) : s.CarriesAt (.over V) (Machine.Within V c r) side e where
  toCarries := hs.carries
  counts hm := hm.mark side fun _ => ⟨rfl, rfl, rfl⟩
  normal {t} _ ht := by
    have ht := (hs.problem side).succs e.stmt he.stmt t ht
    exact (evaluate_keeps ((hs.problem side).normal he.d1 he.d2 he.stmt ht)).mono
      fun _ ho g hg => ⟨he.d1, ht, (ho.facts g hg).stored⟩
  call {callee} _ := by
    refine (evaluate_keeps ((hs.problem side).call he.d1 he.d2 he.stmt)).mono
      fun o ho => ⟨fun g hg => ?_, fun x hx => ?_⟩
    · have h3 : (g.stored e.d2).Over V := (ho.facts g hg).stored
      exact ⟨⟨h3, he.stmt, by simpa using he.d1⟩, fun n hn =>
        ⟨h3, (hs.problem side).starts callee n hn, h3⟩⟩
    · have hx := ho.contexts x hx
      exact ⟨hx.entry, hx.call, by simpa using hx.d1⟩
  pass {site} hsite := by
    have hsite := (hs.problem side).succs e.stmt he.stmt site hsite
    exact (evaluate_keeps ((hs.problem side).callToReturn he.d1 he.d2 he.stmt)).mono
      fun _ ho g hg => ⟨he.d1, hsite, (ho.facts g hg).stored⟩
  left _ := ⟨he.d1, he.stmt, he.d2⟩
  neighbor _ hm _ := hm.neighbor
  summarise _ hm := hm.note side (fun _ => rfl) fun _ ht => ht.addSummary he.stmt he.d2
  unbalanced {call} hcall := ⟨he.d1, hs.covers.callers _ call hcall, by simpa using hs.covers.zero⟩
  leave _ := (evaluate_keeps ((hs.problem side).ret all_none he.stmt he.d2 he.d1
    (forall_mem_nil _))).mono fun _ _ => trivial

theorem seed {seeds : List StmtId} (hseeds : ∀ n ∈ seeds, n ∈ V.stmts) :
    Work.Keeps s (Machine.Within V c r) (Work.seed seeds) :=
  .read (.modify_bind (fun _ hm => hm.mark _ fun _ => ⟨rfl, rfl, rfl⟩)
    (.forM fun n hn => propagate_keeps ⟨hs.covers.zero, hseeds n hn, hs.covers.zero⟩))

end Setup.Stays
end LeakTrace
