import LeakTrace.Proofs.Solve.Drain

/-!
# Properties that outlast every move

All that work does to a machine is made of few moves: edges are added to a table, marks are put in
one, a fact becomes the neighbour of another, the executor takes or drops tasks, and flow functions
are evaluated. A property of machines that outlasts each of these outlasts whole runs, whichever
task is picked. Unlike `Machine.Bears`, it may speak of both solvers at once and of what stopped
them, and it says nothing about the facts that flow functions are given.
-/

namespace LeakTrace
variable {side : Side} {e : Edge} {kind : FlowKind} {act : Track Flow}

/-- Flow functions that are evaluated while a task works on the edge: those along an edge of the
graph only where there is one. -/
inductive Setup.FlowsAt (s : Setup) (side : Side) (e : Edge) : Track Flow → Prop where
  | normal {t : StmtId} : s.env.graph.isCall e.stmt = false →
    t ∈ (s.problem side).view.succs e.stmt →
    s.FlowsAt side e ((s.problem side).normal e.d1 e.d2 e.stmt t)
  | call (m : MethodId) : s.FlowsAt side e ((s.problem side).call e.d1 e.d2 e.stmt m)
  | ret (other : Side) (call : Option StmtId) (m : MethodId) (exit : StmtId) (site : Option StmtId)
    (f d1 : Fact) (contexts : List Fact) :
    s.FlowsAt side e ((s.problem other).ret call m exit site f d1 contexts)
  | callToReturn (t : StmtId) : s.FlowsAt side e ((s.problem side).callToReturn e.d1 e.d2 e.stmt t)

/-- Flow functions of either solver. -/
def Setup.Flows (s : Setup) (act : Track Flow) : Prop := ∃ side e, s.FlowsAt side e act

/-- The property outlasts the moves by which edges get known: it depends on the world, on what
stopped the solvers, on where methods were entered from, and on edges that are known. -/
structure Machine.Monotone (I : Machine → Prop) : Prop where
  grows {m m' : Machine} : I m → (∀ side k, m.Has side k → m'.Has side k) →
    (∀ side, (m'.table side).stopped = (m.table side).stopped) →
    (∀ side, (m'.table side).incoming = (m.table side).incoming) → m'.world = m.world → I m'
  neighbor {m : Machine} {f g : Fact} {merge : Bool} : I m →
    I { m with world := (m.world.addNeighbor f g merge).2 }

/-- The property outlasts every move of the solvers that evaluates such flow functions. -/
structure Setup.PreservesOn (s : Setup) (A : Track Flow → Prop) (I : Machine → Prop) : Prop
    extends Machine.Monotone I where
  enters {m : Machine} {side : Side} {callee : MethodId} {d3 d1 : Fact} {call : StmtId} : I m →
    I (m.modifyTable side fun t => t.addIncoming callee d3 call d1)
  evaluate {kind : FlowKind} {f : Fact} {act : Track Flow} : A act →
    Work.Keeps s I (Work.evaluate kind f act)

abbrev Setup.PreservesAt (s : Setup) (side : Side) (e : Edge) := s.PreservesOn (s.FlowsAt side e)

abbrev Setup.Preserves (s : Setup) := s.PreservesOn s.Flows

variable {s : Setup} {I : Machine → Prop} {m : Machine}

/-! ## Stopping -/

namespace Machine
variable {k : Edge.Key}

@[simp]
theorem has_stop (m : Machine) (sides : List Side) (r : StopReason) :
    (m.stop sides r).Has side k ↔ m.Has side k := by
  rw [Has, (Marked.stop m sides r).index, Has]

@[simp]
theorem incoming_stop (m : Machine) (sides : List Side) (r : StopReason) (side : Side) :
    ((m.stop sides r).table side).incoming = (m.table side).incoming :=
  (Marked.stop m sides r).incoming side

@[simp]
theorem has_cancel (m : Machine) (sides : List Side) :
    (m.cancel sides).Has side k ↔ m.Has side k := by
  rw [Has, (Marked.cancel m sides).index, Has]

end Machine

@[simp]
theorem Analysis.world_applyBudgets (a : Analysis) (sides : List Side) (m : Machine) :
    (a.applyBudgets sides m).world = m.world := by
  unfold applyBudgets
  dsimp only
  split <;> split <;> split <;> simp

/-! ## Edges -/

namespace Machine.Monotone
variable {G : Table → Table}

variable (hI : Monotone I)
include hI

theorem table (hindex : ∀ t k, k ∈ t.index → k ∈ (G t).index)
    (hstopped : ∀ t, (G t).stopped = t.stopped) (hincoming : ∀ t, (G t).incoming = t.incoming)
    (hm : I m) : I (m.modifyTable side G) := by
  refine hI.grows hm (fun side' k hk => ?_) (fun side' => ?_) (fun side' => ?_)
    (world_modifyTable m side G)
  · cases side <;> cases side' <;> first | exact hk | exact hindex _ k hk
  · cases side <;> cases side' <;> first | rfl | exact hstopped _
  · cases side <;> cases side' <;> first | rfl | exact hincoming _

theorem mark (hm : I m) (hindex : ∀ t, (G t).index = t.index := by exact fun _ => rfl)
    (hstopped : ∀ t, (G t).stopped = t.stopped := by exact fun _ => rfl)
    (hincoming : ∀ t, (G t).incoming = t.incoming := by exact fun _ => rfl) :
    I (m.modifyTable side G) :=
  hI.table (fun t _ hk => (hindex t).symm ▸ hk) hstopped hincoming hm

theorem executor {x : Executor Task} (hm : I m) : I { m with executor := x } :=
  hI.grows hm (fun _ _ hk => hk) (fun _ => rfl) (fun _ => rfl) rfl

end Machine.Monotone

namespace Work
variable {d1 f : Fact} {call : Option StmtId}

section
variable (hI : Machine.Monotone I)
include hI

theorem propagate_preserves : Keeps s I (propagate side e call) := by
  refine .read (.guard trivial <| .get fun _ _ => ?_)
  split
  · exact join_keeps (fun _ _ hm => hI.neighbor hm) fun _ hm =>
      hI.mark hm
  · refine .modify_bind (fun m hm => hI.table (fun t k hk => ?_) (fun _ => rfl) (fun _ => rfl) hm)
      (.modify fun m hm => ?_)
    · exact Table.mem_index_record.mpr (.inr hk)
    · split
      · exact hm
      · exact hI.executor (hI.mark hm)

theorem propagateAll_preserves {n : StmtId} {input : Fact} {facts : FactSet} :
    Keeps s I (propagateAll side d1 n input call facts) :=
  .forM fun _ _ => propagate_preserves hI

theorem addEdge_preserves : Keeps s I (addEdge side e) :=
  .modify_bind (fun _ hm => hI.mark hm)
    (propagate_preserves hI)

/-! ## Flow functions -/

theorem deliverAll_preserves (habort : ∀ m, I m → I (m.stop s.sides .abortRequested))
    (hempty : ∀ m, I m → I { m with world := { m.world with outbox := [] } }) :
    Keeps s I deliverAll :=
  deliverAll_keeps habort hempty fun _ _ _ _ _ _ _ => addEdge_preserves hI

/-- Evaluating a flow function: what it leaves behind is as `J` says until its messages are
delivered. -/
theorem evaluate_preserves
    (hcancel : ∀ n, s.watch.cancelAt = some n → ∀ m, I m → I (m.cancel s.sides))
    {J : Machine → Prop} (hact : ∀ m, I m → J { m with world := ((act.run s.env).run m.world).2 })
    (hdeliver : Leads s J deliverAll I) : Keeps s I (evaluate kind f act) :=
  evaluate_keeps (fun _ _ hm => hI.grows hm (fun _ _ hk => hk) (fun _ => rfl) (fun _ => rfl) rfl)
    hcancel (fun m hm => ⟨trivial, hact m hm⟩) (fun _ _ _ => trivial) hdeliver

end

theorem seed_preserves (hs : s.Preserves I) {seeds : List StmtId} : Keeps s I (seed seeds) :=
  .read (.modify_bind (fun _ hm => hs.toMonotone.mark hm)
    (.forM fun _ _ => propagate_preserves hs.toMonotone))

end Work

theorem Setup.PreservesAt.carriesAt (hs : s.PreservesAt side e I) : s.CarriesAt {} I side e where
  propagate _ := Work.propagate_preserves hs.toMonotone
  register _ hm := hs.enters hm
  callers _ _ _ _ := trivial
  summaries _ _ _ _ := trivial
  ret _ _ _ := (hs.evaluate (.ret ..)).mono fun _ _ _ _ _ _ => trivial
  counts hm := hs.toMonotone.mark hm
  normal hcall ht := (hs.evaluate (.normal hcall ht)).mono fun _ _ _ _ => trivial
  call _ := (hs.evaluate (.call _)).mono fun _ _ =>
    ⟨fun _ _ => ⟨trivial, fun _ _ => trivial⟩, fun _ _ => trivial⟩
  pass _ := (hs.evaluate (.callToReturn _)).mono fun _ _ _ _ => trivial
  left _ := trivial
  neighbor _ hm _ := hs.neighbor hm
  summarise _ hm := hs.toMonotone.mark hm Table.index_addSummary
  unbalanced _ := trivial
  leave _ := hs.evaluate (.ret ..)

/-! ## Properties of the world -/

section
variable {J : World → Prop} (hneighbor : ∀ w f g merge, J w → J (w.addNeighbor f g merge).2)
  (hempty : ∀ w, J w → J { w with outbox := [] })

include hneighbor in
theorem Machine.monotone_world : Machine.Monotone fun m => J m.world :=
  ⟨fun hm _ _ _ hworld => hworld ▸ hm, fun hm => hneighbor _ _ _ _ hm⟩

include hneighbor hempty

theorem Work.deliverAll_world : Keeps s (fun m => J m.world) deliverAll := by
  refine deliverAll_preserves (Machine.monotone_world hneighbor) (fun m hm => ?_)
    fun m hm => hempty _ hm
  rw [Machine.world_stop]
  exact hm

theorem Work.evaluate_world {f : Fact} (hact : Track.Keeps s.env J act) :
    Keeps s (fun m => J m.world) (evaluate kind f act) := by
  refine evaluate_preserves (J := fun m => J m.world) (Machine.monotone_world hneighbor)
    (fun n _ m hm => ?_) (fun m hm => (hact m.world hm).2) (deliverAll_world hneighbor hempty)
  rw [Machine.world_cancel]
  exact hm

/-- What flow functions keep about the world, moves that evaluate no others keep. -/
theorem Setup.preservesOn_world {A : Track Flow → Prop}
    (hflows : ∀ act, A act → Track.Keeps s.env J act) : s.PreservesOn A fun m => J m.world := by
  refine ⟨Machine.monotone_world hneighbor, fun hm => ?_, fun hact =>
    Work.evaluate_world hneighbor hempty (hflows _ hact)⟩
  rw [Machine.world_modifyTable]
  exact hm

end

/-! ## Runs -/

/-- **One task**, whether it is worked on, skipped or failed. -/
theorem Setup.PreservesAt.step {i : Nat}
    (hs : ∀ t, m.executor.queued[i]? = some t → s.PreservesAt t.side t.edge I) (hm : I m) :
    I (m.step s i) := by
  cases ht : m.executor.queued[i]? with
  | none =>
    rw [Machine.step_of_none ht]
    exact hm
  | some t =>
    have hI := (hs t ht).toMonotone
    exact Machine.step_of_keeps (fun _ => hm) (fun _ _ => hI.executor hm) (fun t ht =>
      ⟨hI.executor hm, (hs t ht).carriesAt.process⟩) (fun _ hm' => hI.executor hm')
        fun _ _ hm' => hI.executor hm'

theorem Setup.Preserves.step (hs : s.Preserves I) (hm : I m) (i : Nat) : I (m.step s i) :=
  Setup.PreservesAt.step (fun t _ =>
    { hs with evaluate := fun hact => hs.evaluate ⟨t.side, t.edge, hact⟩ }) hm

theorem Setup.Preserves.after (hs : s.Preserves I) (hm : I m) (pick : Nat → Machine → Nat) (n : Nat) :
    I (m.after s pick n) := by
  induction n with
  | zero => exact hm
  | succ n ih => exact hs.step ih _

end LeakTrace
