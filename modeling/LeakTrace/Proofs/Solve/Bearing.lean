import LeakTrace.Proofs.Solve.Drain

/-!
# What solvers keep about their edges

An edge is fit if its fact may stand at its statement. Where flow functions make fit facts of fit
ones, and ask for fit edges only, both solvers hold fit edges only, in whatever order tasks are
picked. `Machine.Bears` is the invariant, `Setup.Bears` what flow functions owe.

**What is stored counts, not what came out.** A fact that only repeats the one that went in is
stored as that one, so a flow function owes something about `g.stored f`. What is fit may depend on
all of a fact, its history included.

**Nothing is forgotten, and nothing fails by itself.** The invariant also carries a set of edges
that are known, for any such set; and only an observer makes work fail.
-/

namespace LeakTrace
open List

variable {d1 f : Fact} {n : StmtId} {call : Option StmtId} {callee : MethodId} {Q : FactSet → Prop}

/-! ## The invariant -/

/-- What may stand in the tables of the solvers. -/
structure Fitness where
  /-- The fact may be at the statement. -/
  fact : Side → StmtId → Fact → Prop
  entry : Edge.Key → Fact → Prop := fun _ _ => True
  exit : Side → StmtId → Prop := fun _ _ => True
  context : StmtId → MethodId → Prop := fun _ _ => True

/-- Of a fact only what it says counts. -/
def Fitness.ofTaints (T : Side → StmtId → Taint → Prop) : Fitness where
  fact side n f := T side n f.toTaint
  entry k f := f.toTaint = k.2.2

variable {s : Setup} {I : World → Prop} {F : Fitness} {K : Side → Edge.Key → Prop}

def Graph.Calls (g : Graph) (call : StmtId) (m : MethodId) : Prop :=
  m ∈ g.calleesOf call ∨ call ∈ g.callersOf m

/-- Only what is in the tables of the graph is a call. -/
theorem Graph.Calls.of_tables {g : Graph} {P : StmtId → MethodId → Prop} {call : StmtId}
    {m : MethodId} (hcallees : ∀ n < g.callees.size, ∀ m ∈ g.calleesOf n, P n m)
    (hcallers : ∀ m < g.callers.size, ∀ n ∈ g.callersOf m, P n m) (h : g.Calls call m) :
    P call m := by
  rcases h with hm | hn
  · by_cases hcall : call < g.callees.size
    · exact hcallees call hcall m hm
    · rw [Graph.calleesOf, Array.getElem?_eq_none (Nat.le_of_not_lt hcall)] at hm
      cases hm
  · by_cases hm : m < g.callers.size
    · exact hcallers m hm call hn
    · rw [Graph.callersOf, Array.getElem?_eq_none (Nat.le_of_not_lt hm)] at hn
      cases hn

/-- The world is as `I` says, all edges are fit, those that wait have no history that is too long,
the exits of a method are its own, and the edges of `K` are known. -/
structure Machine.Bears (s : Setup) (I : World → Prop) (F : Fitness)
    (K : Side → Edge.Key → Prop) (m : Machine) : Prop where
  world : I m.world
  stored : ∀ side (k : Edge.Key) f, (m.table side).index[k]? = some f →
    F.entry k f ∧ F.fact side k.2.1 f
  queued : ∀ t ∈ m.executor.queued, F.fact t.side t.edge.stmt t.edge.d2 ∧ s.Admits t.edge.d2
  summaries : ∀ side callee d, ∀ p ∈ (m.table side).summariesOf callee d,
    s.env.graph.methodOf p.1 = callee ∧ F.exit side p.1 ∧ F.fact side p.1 p.2
  contexts : ∀ side callee d, ∀ p ∈ (m.table side).callersOf callee d, F.context p.1 callee
  known : ∀ side k, K side k → m.Has side k

/-- Flow functions make fit facts of fit ones, and what the solvers do to a world beside them does
not matter. -/
structure Setup.Bears (s : Setup) (I : World → Prop) (F : Fitness) : Prop where
  zero : ∀ side n, F.fact side n s.env.zero
  entry : ∀ e : Edge, F.entry e.key e.d2
  exit : ∀ side n, (s.problem side).view.isExit n = true → F.exit side n
  context : ∀ n m, s.env.graph.Calls n m → F.context n m
  neighbor {side : Side} {n : StmtId} {w : World} {f g : Fact} {merge : Bool} : F.fact side n f →
    F.fact side n g → I w → I (w.addNeighbor f g merge).2
  emptied : ∀ w, I w → I { w with outbox := [] }
  message : ∀ w, I w → ∀ side d1 n d2, Message.edge side d1 n d2 ∈ w.outbox → F.fact side n d2
  normal {side : Side} {d1 f : Fact} {n t : StmtId} : F.fact side n f →
    t ∈ (s.problem side).view.succs n →
    Track.Keeps s.env I ((s.problem side).normal d1 f n t) fun o =>
      ∀ g ∈ o.facts, F.fact side t (g.stored f)
  call {side : Side} {d1 f : Fact} {n : StmtId} {m : MethodId} : F.fact side n f →
    F.context n m →
    Track.Keeps s.env I ((s.problem side).call d1 f n m) fun o =>
      ∀ g ∈ o.facts, ∀ t ∈ (s.problem side).view.starts m, F.fact side t (g.stored f)
  /-- Contexts are announced for the call that is entered. -/
  contexts : ∀ side d1 f n m w,
    ∀ c ∈ ((((s.problem side).call d1 f n m).run s.env).run w).1.contexts, c.callee = m ∧ c.call = n
  ret {side : Side} {call exit : StmtId} {site : Option StmtId} {f d1 : Fact}
    {contexts : List Fact} : F.fact side exit f → F.exit side exit →
    F.context call (s.env.graph.methodOf exit) →
    Track.Keeps s.env I ((s.problem side).ret (some call) (s.env.graph.methodOf exit) exit site f d1
      contexts) fun o =>
        ∀ g ∈ o.facts, ∀ t ∈ (s.problem side).view.succs call, F.fact side t (g.stored f)
  leave {side : Side} {exit : StmtId} {f d1 : Fact} : F.fact side exit f →
    Track.Keeps s.env I ((s.problem side).ret none (s.env.graph.methodOf exit) exit none f d1 [])
  callToReturn {side : Side} {d1 f : Fact} {n t : StmtId} : F.fact side n f →
    t ∈ (s.problem side).view.succs n →
    Track.Keeps s.env I ((s.problem side).callToReturn d1 f n t) fun o =>
      ∀ g ∈ o.facts, F.fact side t (g.stored f)

theorem Setup.Bears.forgetEntries (hs : s.Bears I F) :
    s.Bears I { F with entry := fun _ _ => True } :=
  { hs with entry := fun _ => trivial }

theorem Problem.contexts_call {e : Env} {side : Side} {m : MethodId} (w : World) :
    ∀ c ∈ ((((ofSide e.graph side).call d1 f n m).run e).run w).1.contexts,
      c.callee = m ∧ c.call = n := by
  have hmap : ∀ (b : Bool) (side : Side) (set : FactSet), ∀ c ∈ (if b then
      set.map fun g => (⟨side, m, g, n, d1⟩ : Context) else []), c.callee = m ∧ c.call = n := by
    intro b side set c hc
    cases b with
    | false => cases hc
    | true =>
      obtain ⟨g, -, rfl⟩ := List.mem_map.mp hc
      exact ⟨rfl, rfl⟩
  have hany : ∀ {α : Type} (act : Track α), Track.Keeps e (fun _ => True) act :=
    fun _ _ _ => ⟨trivial, trivial⟩
  have hcall : Track.Keeps e (fun _ => True) ((ofSide e.graph side).call d1 f n m) fun o =>
      ∀ c ∈ o.contexts, c.callee = m ∧ c.call = n := by
    cases side with
    | forward =>
      refine .read ((hany _).bind fun _ _ =>
        .guard (forall_mem_nil _) <| .guard (forall_mem_nil _) ?_)
      exact (hany _).bind fun set _ => .pure (hmap _ .backward set)
    | backward =>
      refine .read (.guard (forall_mem_nil _) <|
        (hany _).bind fun _ _ => .guard (forall_mem_nil _) ?_)
      exact (hany _).bind fun _ _ => (hany _).bind fun set _ => .pure (hmap _ .forward set)
  exact (hcall w trivial).1

namespace Machine
variable {m m' : Machine} {side : Side}

namespace Bears
variable {J : World → Prop} {e : Edge}

theorem edges {T : Side → StmtId → Taint → Prop} (h : m.Bears s I (.ofTaints T) K) (side : Side)
    (k : Edge.Key) (hk : m.Has side k) : T side k.2.1 k.2.2 := by
  obtain ⟨f, hf⟩ : ∃ f, (m.table side).index[k]? = some f :=
    Option.isSome_iff_exists.mp hk
  obtain ⟨htaint, hfit⟩ := h.stored side k f hf
  rw [← htaint]
  exact hfit

section
variable (h : m.Bears s I F K) {f : Table → Table}
include h

theorem of_marked (hm : m.Marked m') (hw : J m'.world) : m'.Bears s J F K where
  world := hw
  stored side k f hk := by
    rw [hm.index] at hk
    exact h.stored side k f hk
  queued := by
    rw [hm.queued]
    exact h.queued
  summaries side callee d := by
    unfold Table.summariesOf
    rw [hm.summaries]
    exact h.summaries side callee d
  contexts side callee d := by
    unfold Table.callersOf
    rw [hm.incoming]
    exact h.contexts side callee d
  known side k hk := by
    rw [Has, hm.index]
    exact h.known side k hk

theorem mark (side : Side) (hf : Table.Marks f) : (m.modifyTable side f).Bears s I F K := by
  refine h.of_marked ((Marked.refl m).modifyTable side hf) ?_
  rw [world_modifyTable]
  exact h.world

theorem stop (sides : List Side) (reason : StopReason) : (m.stop sides reason).Bears s I F K := by
  refine h.of_marked (.stop m sides reason) ?_
  rw [world_stop]
  exact h.world

theorem cancel (sides : List Side) : (m.cancel sides).Bears s I F K := by
  refine h.of_marked (.cancel m sides) ?_
  rw [world_cancel]
  exact h.world

theorem note (side : Side) {f : Table → Table} (hindex : ∀ t, (f t).index = t.index)
    (hsummaries : ∀ callee d, ∀ p ∈ (f (m.table side)).summariesOf callee d,
      s.env.graph.methodOf p.1 = callee ∧ F.exit side p.1 ∧ F.fact side p.1 p.2)
    (hcontexts : ∀ callee d, ∀ p ∈ (f (m.table side)).callersOf callee d, F.context p.1 callee) :
    (m.modifyTable side f).Bears s I F K where
  world := by simpa using h.world
  stored side' k g hk := by
    rw [table_modifyTable] at hk
    split at hk
    · next hside =>
      subst hside
      rw [hindex] at hk
      exact h.stored side' k g hk
    · exact h.stored side' k g hk
  queued := by simpa using h.queued
  summaries side' := by
    have hold := h.summaries side'
    cases side <;> cases side' <;> first | exact hsummaries | exact hold
  contexts side' := by
    have hold := h.contexts side'
    cases side <;> cases side' <;> first | exact hcontexts | exact hold
  known side' k hk := (has_modifyTable hindex).mpr (h.known side' k hk)

theorem addIncoming (side : Side) {d3 : Fact} {call : StmtId} (hcall : F.context call callee) :
    (m.modifyTable side fun t => t.addIncoming callee d3 call d1).Bears s I F K := by
  refine h.note side Table.index_addIncoming (fun callee' d p hp => ?_) fun callee' d p hp => ?_
  · unfold Table.summariesOf at hp
    rw [Table.summaries_addIncoming] at hp
    exact h.summaries side callee' d p hp
  · rcases Table.mem_callersOf_addIncoming hp with ⟨p', hp', heq⟩ | ⟨rfl, heq⟩
    · rw [← heq]
      exact h.contexts side callee' d p' hp'
    · rw [heq]
      exact hcall

theorem addSummary (he : F.fact side e.stmt e.d2) (hexit : F.exit side e.stmt) :
    (m.modifyTable side fun t =>
      t.addSummary (s.env.graph.methodOf e.stmt) e.d1 e.stmt e.d2).Bears s I F K := by
  refine h.note side Table.index_addSummary (fun callee d p hp => ?_) fun callee d p hp => ?_
  · rcases Table.leftBy_addSummary.mp hp with hp | ⟨hcallee, -, hstmt, hfact⟩
    · exact h.summaries side callee d p hp
    · rw [hstmt, hfact]
      exact ⟨hcallee.symm, hexit, he⟩
  · unfold Table.callersOf at hp
    rw [Table.incoming_addSummary] at hp
    exact h.contexts side callee d p hp

theorem schedule (he : F.fact side e.stmt e.d2) (hlength : s.Admits e.d2) :
    m.Ends s (Work.schedule side e) fun _ m' => m'.Bears s I F K := by
  unfold Work.schedule
  rw [ends_modify]
  split
  · exact h
  · next hlive =>
    have hmark := h.mark side (f := fun t => { t with scheduled := t.scheduled + 1 })
      fun _ => ⟨rfl, rfl, rfl⟩
    refine { hmark with queued := fun t ht => ?_ }
    simp only [Executor.execute, if_neg hlive, mem_cons] at ht
    rcases ht with rfl | ht
    · exact ⟨he, hlength⟩
    · exact h.queued t ht

theorem of_world {w : World} (hw : J w) : Bears s J F K { m with world := w } :=
  h.of_marked (.beside ..) hw

end

theorem record (hs : s.Bears I F) (h : m.Bears s I F K) (he : F.fact side e.stmt e.d2) :
    (m.modifyTable side fun t => t.record e).Bears s I F K where
  world := by simpa using h.world
  stored side' k g hk := by
    rw [table_modifyTable] at hk
    split at hk
    · next hside =>
      subst hside
      unfold Table.record at hk
      rw [Index.getElem?_insert] at hk
      split at hk
      · next hkey =>
        cases hk
        rw [← hkey]
        exact ⟨hs.entry e, he⟩
      · exact h.stored side' k g hk
    · exact h.stored side' k g hk
  queued := by simpa using h.queued
  summaries side' := by
    have hold := h.summaries side'
    cases side <;> cases side' <;> exact hold
  contexts side' := by
    have hold := h.contexts side'
    cases side <;> cases side' <;> exact hold
  known side' k hk := by
    have hold := h.known side' k hk
    cases side <;> cases side' <;> first | exact hold | exact Table.mem_index_record.mpr (.inr hold)

theorem join (hs : s.Bears I F) {stored other : Fact} (hstored : F.fact side n stored)
    (hother : F.fact side n other) :
    Work.Keeps s (Bears s I F K) (Work.join side stored other call) :=
  Work.join_keeps (fun _ _ h => h.of_world (hs.neighbor hstored hother h.world)) fun _ h =>
    h.mark side fun _ => ⟨rfl, rfl, rfl⟩

end Bears
end Machine

/-! ## Work -/

namespace Work
variable {side : Side} {e : Edge} {d3 : Fact} {kind : FlowKind}

variable (hs : s.Bears I F)
include hs

theorem propagate_bears (he : F.fact side e.stmt e.d2) :
    Keeps s (Machine.Bears s I F K) (propagate side e call) := by
  refine .read (.dite (fun _ => .pure trivial) fun hlong => .get fun m hm => ?_)
  split
  · next stored hfind => exact Machine.Bears.join hs (hm.stored side e.key stored hfind).2 he
  · exact .modify_bind (fun _ h => h.record hs he) (.of_ends fun _ h =>
      (h.schedule he (s.admits_iff.mpr hlong)).mono fun _ _ h' => ⟨h', trivial⟩)

theorem deliverAll_bears : Keeps s (Machine.Bears s I F K) deliverAll :=
  deliverAll_keeps (fun _ hm => hm.stop _ _) (fun _ hm => hm.of_world (hs.emptied _ hm.world))
    fun _ hm side _ _ _ hmem => .modify_bind (fun _ hm => hm.mark side fun _ => ⟨rfl, rfl, rfl⟩)
      (propagate_bears hs (hs.message _ hm.world _ _ _ _ hmem))

theorem evaluate_bears {act : Track Flow} {Q : Flow → Prop} (hact : Track.Keeps s.env I act Q)
    (hdropped : s.watch.killAt ≠ [] → ∀ o, Q o → Q { o with facts := [] }) :
    Keeps s (Machine.Bears s I F K) (evaluate kind f act) Q :=
  evaluate_keeps (fun _ _ hm => hm.of_marked (.beside ..) hm.world) (fun _ _ _ hm => hm.cancel _)
    (fun m hm => ⟨(hact m.world hm.world).1, hm.of_world (hact m.world hm.world).2⟩) hdropped
    (deliverAll_bears hs)

theorem call_bears {call : StmtId} (hcall : F.context call callee)
    (hact : Track.Keeps s.env I ((s.problem side).call d1 f call callee) fun o => Q o.facts)
    (hdropped : s.watch.killAt ≠ [] → Q []) :
    Keeps s (Machine.Bears s I F K) (evaluate .call f ((s.problem side).call d1 f call callee))
      fun o => Q o.facts ∧ ∀ c ∈ o.contexts, F.context c.call c.callee := by
  refine .mono (evaluate_bears hs (Q := fun o => Q o.facts ∧ ∀ c ∈ o.contexts, c.callee = callee ∧
    c.call = call) (fun w hw => ⟨⟨(hact w hw).1, hs.contexts side d1 f call callee w⟩, (hact w hw).2⟩)
      fun h _ ho => ⟨hdropped h, ho.2⟩) ?_
  rintro o ⟨hfacts, hown⟩
  refine ⟨hfacts, fun c hc => ?_⟩
  rw [(hown c hc).1, (hown c hc).2]
  exact hcall

end Work

/-- What is propagated, entered and left is fit. -/
def Fitness.terms (F : Fitness) (g : Graph) : Terms where
  edge side e := F.fact side e.stmt e.d2
  entered _ callee _ call _ := F.context call callee
  left side callee _ exit f := g.methodOf exit = callee ∧ F.exit side exit ∧ F.fact side exit f

namespace Setup.Bears
open Work

variable {side : Side} {e : Edge} (hs : s.Bears I F)
include hs

theorem carries : s.Carries (F.terms s.env.graph) (Machine.Bears s I F K) where
  propagate he := propagate_bears hs he
  register h hm := hm.addIncoming _ h
  callers hm _ p hp := hm.contexts _ _ _ p hp
  summaries hm _ p hp := hm.summaries _ _ _ p hp
  ret hleft h hsite := by
    obtain ⟨rfl, hexit, hf⟩ := hleft
    exact (evaluate_bears hs (hs.ret hf hexit h) fun _ _ _ => forall_mem_nil _).mono
      fun _ ho g hg _ _ => ho g hg _ hsite

theorem callFlow {call : StmtId} (hcall : F.context call callee)
    (hact : Track.Keeps s.env I ((s.problem side).call d1 f call callee) fun o => Q o.facts)
    (hdropped : s.watch.killAt ≠ [] → Q []) :
    Keeps s (Machine.Bears s I F K) (Work.callFlow side d1 f call callee) Q :=
  hs.carries.callFlow (call_bears hs hcall hact hdropped)

theorem carriesAt (he : F.fact side e.stmt e.d2) :
    s.CarriesAt (F.terms s.env.graph) (Machine.Bears s I F K) side e where
  toCarries := hs.carries
  counts hm := hm.mark side fun _ => ⟨rfl, rfl, rfl⟩
  normal _ ht := evaluate_bears hs (hs.normal he ht) fun _ _ _ => forall_mem_nil _
  call hcallee :=
    have hcall := hs.context _ _ (.inl hcallee)
    call_bears hs hcall ((hs.call he hcall).mono fun _ ho g hg => ⟨hcall, ho g hg⟩) fun _ =>
      forall_mem_nil _
  pass hsite := evaluate_bears hs (hs.callToReturn he hsite) fun _ _ _ => forall_mem_nil _
  left hexit := ⟨rfl, hs.exit side _ hexit, he⟩
  neighbor _ hm hstored := hm.of_world (hs.neighbor (hm.summaries side _ e.d1 (e.stmt, _)
    (Table.leftBy_of_summary? hstored).1).2.2 he hm.world)
  summarise hexit hm := hm.addSummary he (hs.exit side _ hexit)
  unbalanced hcall := hs.context _ _ (.inr hcall)
  leave _ := evaluate_bears hs (hs.leave he) fun _ _ _ => trivial

theorem seed {seeds : List StmtId} : Keeps s (Machine.Bears s I F K) (Work.seed seeds) :=
  .read (.modify_bind (fun _ hm => hm.mark _ fun _ => ⟨rfl, rfl, rfl⟩)
    (.forM fun n _ => propagate_bears hs (hs.zero .forward n)))

end Setup.Bears

/-! ## What work achieves -/

namespace Machine
variable {m : Machine} {side : Side} {i : Nat} (h : m.Bears s I F K)
include h

theorem Bears.weaken {K' : Side → Edge.Key → Prop}
    (hk : ∀ side k, K' side k → m.Has side k) : m.Bears s I F K' :=
  { h with known := hk }

omit h in
theorem Bears.trans {a b : Machine} (hb : b.Bears s I F a.Has) (ha : a.Bears s I F m.Has) :
    b.Bears s I F m.Has :=
  hb.weaken fun side k hk => hb.known side k (ha.known side k hk)

theorem Bears.ends {α : Type} {act : Work α} {Q : α → Prop}
    (hact : Work.Keeps s (Machine.Bears s I F m.Has) act Q) (hwatch : s.watch.failAt = none) :
    m.Ends s act fun a m' => m'.Bears s I F m.Has ∧ Q a :=
  hact.ends hwatch (h.weaken fun _ _ hk => hk)

theorem Bears.has_propagate (hs : s.Bears I F) {e : Edge} (he : F.fact side e.stmt e.d2)
    (hlength : s.Admits e.d2) :
    m.Ends s (Work.propagate side e call) fun _ m' => m'.Bears s I F m.Has ∧ m'.Has side e.key :=
  ((ends_propagate hlength).and_keeps (Work.propagate_bears hs he)
    (h.weaken fun _ _ hk => hk)).mono fun _ _ hm' => ⟨hm'.2, hm'.1⟩

/-- A loop achieves what each of its rounds achieves, if that is not lost when more gets known. -/
theorem Bears.ends_forM {β : Type} {l : List β} {act : β → Work PUnit} {Q : β → Machine → Prop}
    (hstable : ∀ {x a b}, Q x a → (∀ side k, a.Has side k → b.Has side k) → Q x b)
    (hround : ∀ x ∈ l, ∀ a : Machine, a.Bears s I F (fun _ _ => False) →
      a.Ends s (act x) fun _ b => b.Bears s I F a.Has ∧ Q x b) :
    m.Ends s (l.forM act) fun _ m' => m'.Bears s I F m.Has ∧ ∀ x ∈ l, Q x m' := by
  refine Machine.ends_forM (P := Machine.Bears s I F fun _ _ => False)
    (R := fun a b => ∀ side k, a.Has side k → b.Has side k) (S := Q) (fun _ _ _ hk => hk)
    (fun hab hbc side k hk => hbc side k (hab side k hk)) hstable
    (h.weaken fun _ _ hk => hk.elim) (fun x hx a ha => ?_)
      fun m' hm' hknown hall => ⟨hm'.weaken hknown, hall⟩
  refine (hround x hx a ha).mono fun _ b hb => ?_
  exact ⟨hb.1.weaken fun _ _ hk => hk.elim, hb.1.known, hb.2⟩

/-! ## Runs -/

theorem Bears.skip (n : Nat) :
    Bears s I F K { m with executor := { m.executor with
      queued := m.executor.queued.eraseIdx i, inFlight := n } } :=
  { h with queued := fun u hu => h.queued u (mem_of_mem_eraseIdx hu) }

theorem Bears.started (i : Nat) (t : Task) : (m.started i t).Bears s I F K :=
  { h with queued := fun u hu => h.queued u (mem_of_mem_eraseIdx hu) }

theorem Bears.of_queued {x : Executor Task} (hx : x.queued = m.executor.queued) :
    Bears s I F K { m with executor := x } := by
  refine { h with queued := ?_ }
  change ∀ t ∈ x.queued, F.fact t.side t.edge.stmt t.edge.d2 ∧ s.Admits t.edge.d2
  rw [hx]
  exact h.queued

/-- **One task**, whichever is picked, and whether it is worked on, skipped or failed. -/
theorem Bears.step (hs : s.Bears I F) (i : Nat) : (m.step s i).Bears s I F K := by
  refine step_of_keeps (fun _ => h) (fun _ _ => h.skip _) (fun t ht => ⟨h.started i t,
    (hs.carriesAt (h.queued t (mem_of_getElem? ht)).1).process⟩)
      (fun _ hm => hm.of_queued (Executor.queued_finish _ _)) fun _ _ hm => hm.of_queued ?_
  unfold Executor.fail
  split <;> rfl

theorem Bears.after (hs : s.Bears I F) (pick : Nat → Machine → Nat) (n : Nat) :
    (m.after s pick n).Bears s I F K := by
  induction n with
  | zero => exact h
  | succ n ih => exact ih.step hs _

end Machine

theorem Analysis.bears_applyBudgets (a : Analysis) (sides : List Side) (m : Machine)
    (hw : I (nextMachine m).world) :
    (a.applyBudgets sides (nextMachine m)).Bears s I F fun _ _ => False := by
  have hfresh : (nextMachine m).Bears s I F fun _ _ => False := by
    refine ⟨hw, fun side k f hk => ?_, forall_mem_nil _, fun side callee d p hp => ?_,
      fun side callee d p hp => ?_, fun _ _ => False.elim⟩
    · cases side <;> simp [Machine.table, nextMachine] at hk
    · cases side <;> simp [Table.summariesOf, Machine.table, nextMachine] at hp
    · cases side <;> simp [Table.callersOf, Machine.table, nextMachine] at hp
  have hstop : ∀ (b : Bool) (reason : StopReason) (m' : Machine),
      (m'.Bears s I F fun _ _ => False) →
        Machine.Bears s I F (fun _ _ => False) (if b then m'.stop sides reason else m') := by
    intro b reason m' hm'
    cases b with
    | false => exact hm'
    | true => exact hm'.stop sides reason
  exact hstop _ _ _ (hstop _ _ _ (hstop _ _ _ hfresh))

/-- What every flow function bears, a pass bears all the way. -/
theorem Analysis.bears_after (a : Analysis) (sources sinks : List StmtId) (m : Machine)
    (hs : (a.passSetup sources sinks).Bears I F) (hw : I (nextMachine m).world)
    (pick : Nat → Machine → Nat) (n : Nat) :
    let s := a.passSetup sources sinks
    let start := ((a.applyBudgets s.sides (nextMachine m)).run s (Work.seed sources)).2
    (start.after s pick n).Bears s I F fun _ _ => False :=
  have hstart := (hs.seed _ (a.bears_applyBudgets _ m hw)).1
  hstart.after hs pick n

end LeakTrace
