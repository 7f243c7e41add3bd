import LeakTrace.Proofs.Solve.Invariant

/-!
# A drained machine holds the least set

Between moves a machine is `Consistent`: what it knows is derived, contexts and exits are matched,
and an edge that does not wait had all its consequences (`Settled`). Every move keeps that, whether
it works on a task or brings something in from outside. So a machine with nothing left to do knows
exactly what is derived, whatever the order of the moves was.
-/

namespace LeakTrace
open List

namespace Machine
variable {s : Setup} {P : Fact → Prop} {F : Side → Transfer} {given : Side → Item → Prop}
  {m m' : Machine} {side : Side} {i : Item} {a : Move} {moves : List Move} {w : World}
  {d1 d2 : Taint} {n : StmtId}

/-! ## Moves -/

/-- An edge that does not wait has had all its consequences. -/
def Settled (s : Setup) (F : Side → Transfer) (m : Machine) : Prop :=
  ∀ side d1 n d2, m.Has side (d1, n, d2) → m.Waits side (d1, n, d2) ∨ m.Done s F side d1 n d2

theorem Settled.of_grows (h : m.Settled s F) (hg : m.Grows m') : m'.Settled s F := by
  intro side d1 n d2 hk
  rcases hg.fresh hk with hk | hw
  · rcases h side d1 n d2 hk with hw | hd
    · exact Or.inl (hg.waits hw)
    · exact Or.inr (hd.mono hg)
  · exact Or.inl hw

structure Consistent (s : Setup) (P : Fact → Prop) (F : Side → Transfer)
    (given : Side → Item → Prop) (m : Machine) : Prop extends Good s P F given m where
  settled : Settled s F m

def Knows (m : Machine) (side : Side) : Item → Prop
  | .edge d1 n d2 => m.Has side (d1, n, d2)
  | .context callee d3 call d1 => m.Registered side callee d3 call d1

theorem Grows.knows (hg : m.Grows m') (hi : m.Knows side i) : m'.Knows side i := by
  cases i with
  | edge d1 n d2 => exact hg.has hi
  | context callee d3 call d1 => exact hg.registered hi

theorem waits_started {i : Nat} {t : Task} {k : Edge.Key} (ht : m.executor.queued[i]? = some t)
    (hw : m.Waits side k) : (m.started i t).Waits side k ∨ (t.side = side ∧ t.edge.key = k) := by
  obtain ⟨t', ht', hside, hkey⟩ := hw
  obtain ⟨j, hj⟩ := mem_iff_getElem?.mp ht'
  by_cases hji : j = i
  · subst hji
    rw [ht] at hj
    cases hj
    exact Or.inr ⟨hside, hkey⟩
  · exact Or.inl ⟨t', mem_eraseIdx_iff_getElem?.mpr ⟨j, hji, hj⟩, hside, hkey⟩

theorem Good.started (h : m.Good s P F given) (i : Nat) (t : Task) :
    (m.started i t).Good s P F given :=
  { h with tasks := fun ht => h.tasks (mem_of_mem_eraseIdx ht) }

/-- The task leaves the queue, and what is drawn from its edge makes up for that. -/
theorem Consistent.step (hs : s.Limited P F) (h : m.Consistent s P F given) (i : Nat) :
    (m.step s i).Consistent s P F given ∧
      ∀ side item, m.Knows side item → (m.step s i).Knows side item := by
  cases htask : m.executor.queued[i]? with
  | none =>
    rw [step_of_none htask]
    exact ⟨h, fun _ _ => id⟩
  | some t =>
    obtain ⟨hk, hroot, hfact⟩ := h.tasks (mem_of_getElem? htask)
    have hfit : Fit s P F given t.side t.edge := ⟨hroot, hfact, h.edges hk⟩
    obtain ⟨_, a, hrun, ha, hg, hdone⟩ := Good.process hs (h.toGood.started i t) hfit
    rw [step_of_live htask h.live, hrun]
    have hlike : a.Like { a with executor := a.executor.finish 0 } :=
      .beside (by simp) (by simp) rfl
    have hend : Settled s F a := by
      intro side d1 n d2 hk
      rcases hg.fresh hk with hk | hw
      · rcases h.settled side d1 n d2 hk with hw | hd
        · rcases waits_started htask hw with hw | ⟨rfl, hkey⟩
          · exact Or.inl (hg.waits hw)
          · cases hkey
            exact Or.inr hdone
        · have hd' : (m.started i t).Done s F side d1 n d2 := { hd with }
          exact Or.inr (hd'.mono hg)
      · exact Or.inl hw
    refine ⟨⟨ha.of_spreads (ha.toSound.of_like hlike) hlike.spreads,
      hend.of_grows hlike.spreads.toGrows⟩, fun side item hi => ?_⟩
    have hstarted : (m.started i t).Knows side item := by
      cases item with
      | edge d1 n d2 => exact hi
      | context callee d3 call d1 => exact hi
    exact hlike.spreads.knows (hg.knows hstarted)

/-- What arrives from outside is known afterwards, and nothing is forgotten. -/
theorem Consistent.arrive {act : Work Unit} {a : Move} (h : m.Consistent s P F given)
    (ha : a.apply s m = (m.run s act).2)
    (hact : m.Makes (matching s P F given) s act fun _ m' =>
      ∀ side i, a.Gives s.env side i → m'.Knows side i) :
    (a.apply s m).Consistent s P F given ∧
      (∀ side i, m.Knows side i → (a.apply s m).Knows side i) ∧
      ∀ side i, a.Gives s.env side i → (a.apply s m).Knows side i := by
  obtain ⟨_, _, hgood, hg, hitems⟩ := Ends.run hact
  rw [ha]
  exact ⟨⟨hgood, h.settled.of_grows hg⟩, fun _ _ hi => hg.knows hi, hitems⟩

theorem Good.addEdge {e : Edge} (h : m.Good s P F given) (he : Fit s P F given side e) :
    m.Makes (matching s P F given) s (Work.addEdge side e) fun _ m' => m'.Has side e.key := by
  unfold Work.addEdge
  refine h.makes ((h.toSound.modifyTable (f := fun t => { t with running := true })
    fun _ => ⟨rfl, rfl, rfl⟩).bind fun _ a ha _ _ => ?_)
  exact (Sound.propagate side e none ha fun _ => he).mono fun _ _ _ _ hk => hk he.fact.short

theorem Good.seed {seeds : List StmtId} (hs : s.Limited P F) (h : m.Good s P F given)
    (hd : ∀ n ∈ seeds, given .forward (.edge s.env.zero.toTaint n s.env.zero.toTaint)) :
    m.Makes (matching s P F given) s (Work.seed seeds) fun _ m' =>
      ∀ n ∈ seeds, m'.Has .forward (s.env.zero.toTaint, n, s.env.zero.toTaint) := by
  unfold Work.seed
  rw [makes_read]
  refine h.makes ((h.toSound.modifyTable (f := fun t => { t with running := true })
    fun _ => ⟨rfl, rfl, rfl⟩).bind fun _ a ha _ _ => ?_)
  refine makes_forM (fun hk hr => hr.has hk) ha fun n hn b hb => ?_
  exact (Sound.propagate .forward ⟨s.env.zero, n, s.env.zero⟩ none hb fun _ =>
    ⟨hs.root_zero, hs.zero, .given (hd n hn)⟩).mono fun _ _ _ _ hk => hk hs.zero.short

/-- What the move brings in is nothing but what may come up. -/
def Fits (s : Setup) (P : Fact → Prop) : Move → Prop
  | .work _ | .seed _ => True
  | .edge _ e => s.Root P e.d1 ∧ s.Live P e.d2
  | .context _ _ d3 _ d1 => s.Root P d1 ∧ P d3 ∧ d3.toTaint ≠ s.env.zero.toTaint

theorem fits_of_proper (hs : s.Ideal F) (ha : a.Proper s.env) : Fits s s.env.Faithful a := by
  have hroot : ∀ {f}, s.env.Identified f → s.Root s.env.Faithful f := fun hf =>
    ⟨⟨hf.faithful, hs.admits _⟩, hf⟩
  cases a with
  | work i => trivial
  | seed seeds => trivial
  | edge side e => exact ⟨hroot ha.1, ha.2, hs.admits _⟩
  | context side callee d3 call d1 => exact ⟨hroot ha.1, ha.2⟩

/-- **Every move** keeps a machine consistent, forgets nothing, and brings in what it gives. -/
theorem Consistent.move (hs : s.Limited P F) (h : m.Consistent s P F given)
    (a : Move) (hfits : Fits s P a) (hgiven : ∀ side i, a.Gives s.env side i → given side i) :
    (a.apply s m).Consistent s P F given ∧ (∀ side i, m.Knows side i → (a.apply s m).Knows side i) ∧
    ∀ side i, a.Gives s.env side i → (a.apply s m).Knows side i := by
  cases a with
  | work i =>
    obtain ⟨hc, hk⟩ := h.step hs i
    exact ⟨hc, hk, fun _ _ hg => hg.elim⟩
  | seed seeds =>
    refine h.arrive rfl ((h.toGood.seed hs fun n hn => hgiven .forward _ ⟨rfl, n, hn, rfl⟩).mono ?_)
    rintro _ m' - - hall side i ⟨rfl, n, hn, rfl⟩
    exact hall n hn
  | edge side e =>
    have hfit : Fit s P F given side e := ⟨hfits.1, hfits.2, .given (hgiven side _ ⟨rfl, rfl⟩)⟩
    refine h.arrive rfl ((h.toGood.addEdge hfit).mono ?_)
    rintro _ m' - - hk side i ⟨rfl, rfl⟩
    exact hk
  | context side callee d3 call d1 =>
    obtain ⟨h1, h3, hne⟩ := hfits
    refine h.arrive rfl ((Good.enter hs h1 h3 hne
      (fun _ => .given (hgiven side _ ⟨rfl, rfl⟩)) h.toGood).mono ?_)
    rintro _ m' - - hk side i ⟨rfl, rfl⟩
    exact hk

/-! ## Runs -/

/-- A run keeps a machine consistent, forgets nothing, and brings in what its moves give. -/
theorem Consistent.follow (hs : s.Limited P F) (h : m.Consistent s P F given)
    (hfits : ∀ a ∈ moves, Fits s P a)
    (hgiven : ∀ a ∈ moves, ∀ side i, a.Gives s.env side i → given side i) :
    (m.follow s moves).Consistent s P F given ∧
      (∀ side i, m.Knows side i → (m.follow s moves).Knows side i) ∧
      ∀ a ∈ moves, ∀ side i, a.Gives s.env side i → (m.follow s moves).Knows side i := by
  induction moves generalizing m with
  | nil => exact ⟨h, fun _ _ => id, by simp⟩
  | cons a rest ih =>
    obtain ⟨hc, hkeep, hbring⟩ :=
      h.move hs a (hfits a mem_cons_self) (hgiven a mem_cons_self)
    obtain ⟨hc', hkeep', hbring'⟩ := ih hc
      (fun b hb => hfits b (mem_cons_of_mem a hb))
      (fun b hb => hgiven b (mem_cons_of_mem a hb))
    refine ⟨hc', fun side i hi => hkeep' side i (hkeep side i hi), fun b hb side i hi => ?_⟩
    rcases mem_cons.mp hb with rfl | hb
    · exact hkeep' side i (hbring side i hi)
    · exact hbring' b hb side i hi

theorem consistent_fresh (hw : w.outbox = []) :
    ({ world := w } : Machine).Consistent s P F given := by
  have hhas : ∀ side k, ¬ ({ world := w } : Machine).Has side k := by
    intro side k
    cases side <;> simp [Has, Machine.table]
  have hent : ∀ side callee d3 call f,
      ¬ (({ world := w } : Machine).table side).EnteredBy callee d3 call f := by
    intro side callee d3 call f
    cases side <;> simp [Table.EnteredBy, Machine.table]
  have hleft : ∀ side callee d3 exit f,
      ¬ (({ world := w } : Machine).table side).LeftBy callee d3 exit f := by
    intro side callee d3 exit f
    cases side <;> simp [Table.LeftBy, Machine.table]
  refine ⟨⟨⟨hw, rfl, fun hk => absurd hk (hhas _ _), fun ht => by simp at ht, ?_,
    fun he => absurd he (hent _ _ _ _ _), fun hl => absurd hl (hleft _ _ _ _ _)⟩, ?_⟩, ?_⟩
  · intro side callee
    cases side <;> simp [Table.callersOf, Machine.table]
  · intro side callee d3 call f exit g site d5 he
    exact absurd he (hent _ _ _ _ _)
  · intro side d1 n d2 hk
    exact absurd hk (hhas _ _)

theorem consistent_follow (hs : s.Ideal F) (hw : w.outbox = [])
    (hproper : ∀ a ∈ moves, a.Proper s.env) :
    (({ world := w } : Machine).follow s moves).Consistent s s.env.Faithful F (fun side i =>
      ∃ a ∈ moves, a.Gives s.env side i) ∧
    ∀ a ∈ moves, ∀ side i, a.Gives s.env side i →
      (({ world := w } : Machine).follow s moves).Knows side i :=
  ((consistent_fresh hw).follow hs.limited (fun a ha => fits_of_proper hs (hproper a ha))
    fun a ha _ _ hi => ⟨a, ha, hi⟩).imp_right And.right

section
variable (h : m.Consistent s P F given) (hempty : m.executor.queued = [])
include h hempty

theorem Consistent.done (hk : m.Has side (d1, n, d2)) : m.Done s F side d1 n d2 := by
  rcases h.settled side d1 n d2 hk with ⟨t, ht, _⟩ | hdone
  · rw [hempty] at ht
    cases ht
  · exact hdone

/-- Where nothing waits, everything derived is known. -/
theorem Consistent.knows_of_derives (hgiven : ∀ side i, given side i → m.Knows side i)
    (hd : Derives s side (F side) (given side) i) : m.Knows side i := by
  have hdone : ∀ {d1 n d2}, m.Has side (d1, n, d2) → m.Done s F side d1 n d2 := h.done hempty
  induction hd with
  | given hi => exact hgiven side _ hi
  | normal _ hcall ht hd ih => exact (hdone ih).normal hcall _ ht _ hd
  | enter _ hcall hcallee hconc hd3 hsp ih =>
    exact ((hdone ih).enter hcall _ hcallee hconc _ hd3).1 _ hsp
  | register _ hcall hcallee hconc hd3 ih =>
    exact ((hdone ih).enter hcall _ hcallee hconc _ hd3).2
  | pass _ hcall hsite hd ih => exact (hdone ih).pass hcall _ hsite _ hd
  | @leave d2 d3 d4 d5 n call site _ hcall hexit _ hsite hd5 ih ih' =>
    obtain ⟨f, hent, rfl⟩ := ih'
    have hne : d3 ≠ s.env.zero.toTaint := by
      rintro rfl
      obtain ⟨c, hc, _⟩ := hent
      have hnone := h.unentered side (s.env.graph.methodOf n)
      unfold Table.callersOf at hnone
      rw [hnone] at hc
      cases hc
    obtain ⟨g, hleft, rfl⟩ := (hdone ih).leave hcall hexit hne
    exact h.matched _ _ _ _ _ _ _ _ _ hent hleft hsite hd5
  | unbalanced _ hcall hexit hfollow hmem hsite hd5 ih =>
    exact (hdone ih).unbalanced hcall hexit rfl hfollow _ hmem _ hsite _ hd5

end

theorem has_iff_derives (hs : s.Limited P F) (hw : w.outbox = []) (hfits : ∀ a ∈ moves, Fits s P a)
    (hdrained : (({ world := w } : Machine).follow s moves).executor.queued = []) :
    (({ world := w } : Machine).follow s moves).Has side (d1, n, d2) ↔
      Derives s side (F side) (fun i => ∃ a ∈ moves, a.Gives s.env side i) (.edge d1 n d2) := by
  have hfresh : ({ world := w } : Machine).Consistent s P F fun side i =>
      ∃ a ∈ moves, a.Gives s.env side i := consistent_fresh hw
  obtain ⟨hc, -, hbring⟩ := hfresh.follow hs hfits fun a ha _ _ hi => ⟨a, ha, hi⟩
  constructor
  · intro hk
    exact hc.edges hk
  · intro hd
    exact hc.knows_of_derives hdrained (fun side i ⟨a, ha, hi⟩ => hbring a ha side i hi) hd

/-- **A drained solver holds the least set, in any order.** Run from a fresh machine, any moves that
leave nothing to work on leave exactly the edges that are derived from what they brought in. -/
theorem mem_index_iff_derives_of_drained (hs : s.Ideal F) {w : World} (hw : w.outbox = [])
    {moves : List Move} (hproper : ∀ a ∈ moves, a.Proper s.env)
    (hdrained : (({ world := w } : Machine).follow s moves).executor.queued = [])
    (side : Side) (d1 : Taint) (n : StmtId) (d2 : Taint) :
    (d1, n, d2) ∈ ((({ world := w } : Machine).follow s moves).table side).index ↔
      Derives s side (F side) (fun i => ∃ a ∈ moves, a.Gives s.env side i) (.edge d1 n d2) :=
  has_iff_derives hs.limited hw (fun a ha => fits_of_proper hs (hproper a ha)) hdrained

/-! ## A call that waits for its callee -/

/-- Statement 2 calls the method of statement 1, goes on at 3, and the method is left at 1; facts
pass through unchanged. -/
def passing : Problem where
  view :=
    { succs := fun n => if n = 2 then [3] else [], preds := fun _ => [], starts := fun _ => []
      ends := fun _ => [], isStart := fun _ => false, isExit := fun n => n == 1
      isReturnSite := fun _ => false, isRaise := fun _ _ => false }
  normal _ f _ _ := pure { facts := [f] }
  call _ _ _ _ := pure { facts := [] }
  ret _ _ _ _ f _ _ := pure { facts := [f] }
  callToReturn _ f _ _ := pure { facts := [f] }

def passingTransfer : Transfer where
  normal _ d _ _ := [d]
  call _ _ _ _ := []
  ret _ _ _ _ d _ := [d]
  callToReturn _ d _ _ := [d]

def passingSetup : Setup where
  env :=
    { config := { solver := { maxJoin := none, maxCallees := none, maxPathLength := none } }
      graph := { (default : Graph) with callers := #[[2]] } }
  problem _ := passing

theorem passing_follows (env : Env) : passing.Follows env passingTransfer := by
  have hself : ∀ {f : Fact}, env.Faithful f → ∀ g ∈ [f], env.Faithful g := by
    intro f hf g hg
    rw [mem_singleton.mp hg]
    exact hf
  refine ⟨?_, ?_, ?_, ?_⟩
  · intro d1 f n t w _ hf
    exact ⟨fun _ => Iff.rfl, hself hf, rfl, rfl⟩
  · intro d1 f n callee w _ _
    exact ⟨fun _ => Iff.rfl, fun _ hg => (by cases hg), rfl, rfl⟩
  · intro call callee exit site f d3 contexts w hf _
    exact ⟨fun _ => Iff.rfl, hself hf, rfl, rfl⟩
  · intro d1 f n site w _ hf
    exact ⟨fun _ => Iff.rfl, hself hf, rfl, rfl⟩

theorem passingSetup_ideal : passingSetup.Ideal fun _ => passingTransfer where
  watch := rfl
  maxPathLength := rfl
  maxCallees := rfl
  follows _ := passing_follows _
  call_ne_zero _ _ _ _ _ := not_mem_nil

def passed : Fact := { path := { base := some ⟨0, "x", .int⟩ }, id := 1 }

/-- The context is registered first; the exit is reached in it later, and goes back. -/
def passingMoves : List Move :=
  [.context .forward 0 passed 2 passingSetup.env.zero, .edge .forward ⟨passed, 1, passed⟩, .work 0,
    .work 0]

theorem passingMoves_proper : ∀ a ∈ passingMoves, a.Proper passingSetup.env := by
  have hpassed : passingSetup.env.Identified passed := ⟨by decide, by decide⟩
  intro a ha
  simp only [passingMoves, mem_cons, not_mem_nil, or_false] at ha
  rcases ha with rfl | rfl | rfl | rfl
  · exact ⟨Env.identified_zero, hpassed.faithful, by decide⟩
  · exact ⟨hpassed, hpassed.faithful⟩
  · trivial
  · trivial

theorem queued_passing : (({} : Machine).follow passingSetup passingMoves).executor.queued = [] := by
  decide +kernel

/-- The returned edge is there, and it is derived. -/
theorem mem_index_passing : (({} : Machine).follow passingSetup passingMoves).executor.queued =
    [] ∧ (passingSetup.env.zero.toTaint, 3, passed.toTaint) ∈
    ((({} : Machine).follow passingSetup passingMoves).table .forward).index := by
  refine ⟨queued_passing, ?_⟩
  rw [mem_index_iff_derives_of_drained passingSetup_ideal rfl passingMoves_proper queued_passing]
  have hexit : Derives passingSetup .forward passingTransfer
      (fun i => ∃ a ∈ passingMoves, a.Gives passingSetup.env .forward i)
      (.edge passed.toTaint 1 passed.toTaint) :=
    .given ⟨.edge .forward ⟨passed, 1, passed⟩, by simp [passingMoves], rfl, rfl⟩
  have hcontext : Derives passingSetup .forward passingTransfer
      (fun i => ∃ a ∈ passingMoves, a.Gives passingSetup.env .forward i)
      (.context 0 passed.toTaint 2 passingSetup.env.zero.toTaint) :=
    .given ⟨.context .forward 0 passed 2 passingSetup.env.zero, mem_cons_self, rfl, rfl⟩
  exact .leave hexit (by decide) rfl hcontext (by decide) (by decide)

end Machine
end LeakTrace
