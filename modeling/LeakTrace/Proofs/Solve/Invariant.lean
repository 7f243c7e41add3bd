import LeakTrace.Proofs.Solve.Tables

/-!
# What working on an edge keeps and achieves

The two tables that join calls with exits are filled from both sides: a context may be registered
before, between or after the exits it is left by. What makes the result independent of that order is
one invariant, `Matched`: **whenever a context and an exit of it are both known, the edges that
return from the exit into the context are recorded.** Whoever comes second establishes it, `enter`
by going through the summaries, `processExit` by going through the contexts.

Beside it stands `Sound`: everything known is derived. Both together are `Good`; one lemma for each
function of the engine says that it keeps them, that it only adds, and what it adds. The last of
them, `Good.process`, says that working on an edge draws every consequence of it (`Done`).

**A limit on histories drops edges by something that facts do not say.** All this holds under a
limit too, as long as it treats facts that say the same alike (`Setup.Limited`). A call can be
registered for a context that was dropped; such a context is never left.
-/

namespace LeakTrace

/-- Nothing is limited or watched, the problems are functions of what facts say, and nothing enters
a callee as zero. -/
structure Setup.Ideal (s : Setup) (F : Side → Transfer) : Prop where
  watch : s.watch = {}
  maxPathLength : s.env.config.solver.maxPathLength = none
  maxCallees : s.env.config.solver.maxCallees = none
  follows : ∀ side, (s.problem side).Follows s.env (F side)
  call_ne_zero : ∀ side d1 d2 n callee, s.env.zero.toTaint ∉ (F side).call d1 d2 n callee

/-! ## Problems under a limit -/

namespace Setup
variable {s : Setup} {P : Fact → Prop} {F : Side → Transfer} {f d3 : Fact}

/-- A fact as `P` says that is not dropped. -/
structure Live (s : Setup) (P : Fact → Prop) (f : Fact) : Prop where
  fits : P f
  short : s.Admits f

/-- A fact that edges may start from. -/
structure Root (s : Setup) (P : Fact → Prop) (f : Fact) : Prop extends Live s P f where
  identified : s.env.Identified f

/-- The facts that come out of a flow function for `input` are as `P` says, and those that are not
dropped say what is listed. -/
structure Sends (s : Setup) (P : Fact → Prop) (input : Fact) (facts : FactSet)
    (taints : List Taint) : Prop where
  mem_iff : ∀ t, (∃ g ∈ facts, s.Admits (g.stored input) ∧ g.toTaint = t) ↔ t ∈ taints
  fits : ∀ g ∈ facts, P (g.stored input)

/-- Run in the world `w`, the flow function does nothing but send facts. -/
structure Hands (s : Setup) (P : Fact → Prop) (input : Fact) (act : Track Flow) (w : World)
    (taints : List Taint) : Prop where
  sends : s.Sends P input ((act.run s.env).run w).1.facts taints
  contexts : ((act.run s.env).run w).1.contexts = []
  outbox : ((act.run s.env).run w).2.outbox = w.outbox

/-- Nothing but histories is limited. All facts that come up are as `P` says; the limit does not
tell those apart that say the same, and those that it leaves follow `F`. -/
structure Limited (s : Setup) (P : Fact → Prop) (F : Side → Transfer) : Prop where
  watch : s.watch = {}
  maxCallees : s.env.config.solver.maxCallees = none
  faithful : ∀ f, P f → s.env.Faithful f
  zero : s.Live P s.env.zero
  agree : ∀ f g, s.Live P f → P g → f.toTaint = g.toTaint → s.Admits g
  normal : ∀ side d1 f n t w, s.Live P d1 → s.Live P f →
    s.Hands P f ((s.problem side).normal d1 f n t) w ((F side).normal d1.toTaint f.toTaint n t)
  call : ∀ side d1 f n callee w, s.Live P d1 → s.Live P f →
    s.Hands P f ((s.problem side).call d1 f n callee) w
      ((F side).call d1.toTaint f.toTaint n callee)
  ret : ∀ side call callee exit site f d3 contexts w, s.Live P f → s.Live P d3 →
    s.Hands P f ((s.problem side).ret call callee exit site f d3 contexts) w
      ((F side).ret call callee exit site f.toTaint d3.toTaint)
  callToReturn : ∀ side d1 f n site w, s.Live P d1 → s.Live P f →
    s.Hands P f ((s.problem side).callToReturn d1 f n site) w
      ((F side).callToReturn d1.toTaint f.toTaint n site)
  call_ne_zero : ∀ side d1 d2 n callee, s.env.zero.toTaint ∉ (F side).call d1 d2 n callee

theorem Ideal.admits (hs : s.Ideal F) (f : Fact) : s.Admits f := by
  simp [Admits, hs.maxPathLength]

theorem Ideal.hands (hs : s.Ideal F) {act : Track Flow} {w : World} {taints : List Taint}
    (hf : s.env.Faithful f) (hy : act.Yields s.env w taints) :
    s.Hands s.env.Faithful f act w taints := by
  refine ⟨⟨fun t => ?_, fun g hg => (hy.faithful g hg).stored hf⟩, hy.contexts, hy.outbox⟩
  rw [← hy.mem_iff, List.mem_map]
  simp [hs.admits]

theorem Ideal.limited (hs : s.Ideal F) : s.Limited s.env.Faithful F where
  watch := hs.watch
  maxCallees := hs.maxCallees
  faithful _ hf := hf
  zero := ⟨Env.identified_zero.faithful, hs.admits _⟩
  agree _ g _ _ _ := hs.admits g
  normal side _ _ _ _ _ h1 h2 := hs.hands h2.fits ((hs.follows side).normal _ _ _ _ _ h1.fits h2.fits)
  call side _ _ _ _ _ h1 h2 := hs.hands h2.fits ((hs.follows side).call _ _ _ _ _ h1.fits h2.fits)
  ret side _ _ _ _ _ _ _ _ h2 h3 :=
    hs.hands h2.fits ((hs.follows side).ret _ _ _ _ _ _ _ _ h2.fits h3.fits)
  callToReturn side _ _ _ _ _ h1 h2 :=
    hs.hands h2.fits ((hs.follows side).callToReturn _ _ _ _ _ h1.fits h2.fits)
  call_ne_zero := hs.call_ne_zero

theorem Limited.root_zero (hs : s.Limited P F) : s.Root P s.env.zero :=
  ⟨hs.zero, Env.identified_zero⟩

theorem Limited.root (hs : s.Limited P F) (h3 : s.Live P d3) (hne : d3.toTaint ≠ s.env.zero.toTaint) :
    s.Root P d3 :=
  ⟨h3, hs.faithful d3 h3.fits, fun hz => absurd hz hne⟩

end Setup

namespace Machine
variable {α β : Type} {s : Setup} {P : Fact → Prop} {F : Side → Transfer}
  {given : Side → Item → Prop} {m m' : Machine} {side side' : Side} {e : Edge} {f : Fact}
  {callee callee' : MethodId} {d3 d1 d2 d : Taint} {call exit : StmtId} {contexts : List Fact}

/-! ## What actions make of a machine -/

/-- What actions keep about a machine, and how they may change it. -/
structure Mode where
  keeps : Machine → Prop
  grows : Machine → Machine → Prop
  refl : ∀ m, grows m m
  trans : ∀ {a b c}, grows a b → grows b c → grows a c
  only : ∀ {a b}, grows a b → a.Grows b

/-- The action ends in a value as `Q` says, and keeps to the mode. -/
def Makes (M : Mode) (m : Machine) (s : Setup) (act : Work α) (Q : α → Machine → Prop) : Prop :=
  m.Ends s act fun a m' => M.keeps m' ∧ M.grows m m' ∧ Q a m'

section Makes
variable {M : Mode} {Q : α → Machine → Prop}

@[simp]
theorem makes_read {f : Setup → Work α} : m.Makes M s (read >>= f) Q ↔ m.Makes M s (f s) Q := by
  simp [Makes]

@[simp]
theorem makes_get {f : Machine → Work α} : m.Makes M s (get >>= f) Q ↔ m.Makes M s (f m) Q := by
  simp [Makes]

theorem makes_pure {a : α} (h : M.keeps m) (hq : Q a m) : m.Makes M s (pure a) Q :=
  ends_pure.mpr ⟨h, M.refl m, hq⟩

section
variable {x : Work α} (hx : m.Makes M s x Q)
include hx

theorem Makes.bind {f : α → Work β} {R : β → Machine → Prop}
    (hf : ∀ a m', M.keeps m' → m.Grows m' → Q a m' → m'.Makes M s (f a) R) :
    m.Makes M s (x >>= f) R := by
  refine ends_bind.mpr (Ends.mono hx fun a m' ⟨hm', hg, hq⟩ => ?_)
  exact Ends.mono (hf a m' hm' (M.only hg) hq) fun b m'' ⟨hm'', hg', hr⟩ =>
    ⟨hm'', M.trans hg hg', hr⟩

theorem Makes.mono {R : α → Machine → Prop} (hr : ∀ a m', M.keeps m' → m.Grows m' → Q a m' → R a m') :
    m.Makes M s x R :=
  Ends.mono hx fun a m' ⟨hm', hg, hq⟩ => ⟨hm', hg, hr a m' hm' (M.only hg) hq⟩

end

theorem makes_forM {l : List β} {f : β → Work PUnit} {S : β → Machine → Prop}
    (hstable : ∀ {x a b}, S x a → a.Grows b → S x b) (h : M.keeps m)
    (hround : ∀ x ∈ l, ∀ a, M.keeps a → a.Makes M s (f x) fun _ => S x) :
    m.Makes M s (l.forM f) fun _ m' => ∀ x ∈ l, S x m' :=
  ends_forM (S := S) M.refl M.trans (fun hx hg => hstable hx (M.only hg)) h hround
    fun _ hm' hg hall => ⟨hm', hg, hall⟩

end Makes

/-! ## Soundness -/

/-- Everything the machine knows is derived, and what it will work on is well-formed. -/
structure Sound (s : Setup) (P : Fact → Prop) (F : Side → Transfer) (given : Side → Item → Prop)
    (m : Machine) : Prop where
  quiet : m.world.outbox = []
  live : m.executor.interrupted = false
  edges : ∀ {side d1 n d2}, m.Has side (d1, n, d2) →
    Derives s side (F side) (given side) (.edge d1 n d2)
  tasks : ∀ {t}, t ∈ m.executor.queued →
    m.Has t.side t.edge.key ∧ s.Root P t.edge.d1 ∧ s.Live P t.edge.d2
  /-- Nothing was entered with zero. -/
  unentered : ∀ side callee, (m.table side).callersOf callee s.env.zero = []
  contexts : ∀ {side callee d3 call f}, (m.table side).EnteredBy callee d3 call f → s.Root P f ∧
    ((∃ g, s.Live P g ∧ g.toTaint = d3) →
      Derives s side (F side) (given side) (.context callee d3 call f.toTaint))
  summaries : ∀ {side callee d3 exit f}, (m.table side).LeftBy callee d3 exit f →
    s.Live P f ∧ (∃ g, s.Live P g ∧ g.toTaint = d3) ∧ d3 ≠ s.env.zero.toTaint ∧
      s.env.graph.methodOf exit = callee ∧ s.env.graph.isCall exit = false ∧
      (s.problem side).view.isExit exit = true ∧
      Derives s side (F side) (given side) (.edge d3 exit f.toTaint)

/-- What a task may assume of its edge. -/
structure Fit (s : Setup) (P : Fact → Prop) (F : Side → Transfer) (given : Side → Item → Prop)
    (side : Side) (e : Edge) : Prop where
  root : s.Root P e.d1
  fact : s.Live P e.d2
  derived : Derives s side (F side) (given side) (.edge e.d1.toTaint e.stmt e.d2.toTaint)

def sounding (s : Setup) (P : Fact → Prop) (F : Side → Transfer) (given : Side → Item → Prop) :
    Mode :=
  ⟨Sound s P F given, Spreads, Spreads.refl, Spreads.trans, Spreads.toGrows⟩

section
variable (h : m.Sound s P F given)
include h

theorem Sound.of_like (hl : m.Like m') : m'.Sound s P F given where
  quiet := hl.outbox.trans h.quiet
  live := hl.interrupted.trans h.live
  edges hk := by
    rw [Has, hl.index] at hk
    exact h.edges hk
  tasks ht := by
    rw [hl.queued] at ht
    exact (h.tasks ht).imp_left hl.spreads.has
  unentered side callee := by
    rw [Table.callersOf, hl.incoming]
    exact h.unentered side callee
  contexts he := h.contexts (hl.enteredBy_iff.mp he)
  summaries hf := h.summaries (hl.leftBy_iff.mp hf)

theorem Sound.of_gains (hg : Gains side e m m') (he : Fit s P F given side e) :
    m'.Sound s P F given where
  quiet := hg.outbox.trans h.quiet
  live := hg.interrupted.trans h.live
  edges hk := by
    rcases hg.has_iff.mp hk with ⟨rfl, hkey⟩ | hk
    · cases hkey
      exact he.derived
    · exact h.edges hk
  tasks ht := by
    rw [hg.queued] at ht
    rcases List.mem_cons.mp ht with rfl | ht
    · exact ⟨hg.has_iff.mpr (Or.inl ⟨rfl, rfl⟩), he.root, he.fact⟩
    · exact (h.tasks ht).imp_left hg.spreads.has
  unentered side callee := by
    rw [Table.callersOf, hg.incoming]
    exact h.unentered side callee
  contexts he := h.contexts (hg.enteredBy_iff.mp he)
  summaries hf := h.summaries (hg.leftBy_iff.mp hf)

theorem Sound.modifyTable {f : Table → Table} (hf : Table.Marks f) :
    m.Makes (sounding s P F given) s (modify fun m => m.modifyTable side f) fun _ _ => True :=
  have hlike := (Like.refl m).modifyTable side hf
  ends_modify.mpr ⟨h.of_like hlike, hlike.spreads, trivial⟩

end

/-! ## Edges -/

section Edges
variable {d1 d3 input : Fact} {n : StmtId} {act : Track Flow} {taints : List Taint}
  {call : Option StmtId} {kind : FlowKind}

/-- A derived edge can be propagated, and is known afterwards unless it is dropped. -/
theorem Sound.propagate (side : Side) (e : Edge) (call : Option StmtId) (h : m.Sound s P F given)
    (he : s.Admits e.d2 → Fit s P F given side e) : m.Makes (sounding s P F given) s
    (Work.propagate side e call) fun _ m' => s.Admits e.d2 → m'.Has side e.key := by
  by_cases hshort : s.Admits e.d2
  · refine (has_propagate hshort h.live).mono ?_
    rintro _ m' ⟨hk, ⟨-, hl⟩ | hg⟩
    · exact ⟨h.of_like hl, hl.spreads, fun _ => hk⟩
    · exact ⟨h.of_gains hg (he hshort), hg.spreads, fun _ => hk⟩
  · unfold Work.propagate
    rw [makes_read, if_pos (Decidable.not_not.mp (mt s.admits_iff.mpr hshort))]
    exact makes_pure h fun hc => absurd hc hshort

theorem Sound.propagateSent {facts : FactSet} (h : m.Sound s P F given) (h1 : s.Root P d1)
    (hsend : s.Sends P input facts taints)
    (hd : ∀ d ∈ taints, Derives s side (F side) (given side) (.edge d1.toTaint n d)) :
    m.Makes (sounding s P F given) s (Work.propagateAll side d1 n input call facts) fun _ m' =>
      ∀ d ∈ taints, m'.Has side (d1.toTaint, n, d) := by
  unfold Work.propagateAll
  refine (makes_forM (S := fun (f : Fact) m' => s.Admits (f.stored input) →
    m'.Has side (d1.toTaint, n, f.toTaint)) (fun hk hr hshort => hr.has (hk hshort)) h
      fun f hf a ha => ?_).mono fun _ m' _ _ hall d hd => ?_
  · have hfit : s.Admits (f.stored input) → Fit s P F given side ⟨d1, n, f.stored input⟩ :=
      fun hshort => ⟨h1, ⟨hsend.fits f hf, hshort⟩, by
        simpa using hd _ ((hsend.mem_iff _).mp ⟨f, hf, hshort, rfl⟩)⟩
    simpa [Edge.key] using ha.propagate side ⟨d1, n, f.stored input⟩ call hfit
  · obtain ⟨f, hf, hshort, rfl⟩ := (hsend.mem_iff d).mpr hd
    exact hall f hf hshort

variable (hs : s.Limited P F) (h : m.Sound s P F given)
include hs h

theorem Sound.evaluate (hy : s.Hands P input act m.world taints) :
    m.Makes (sounding s P F given) s (Work.evaluate kind f act) fun flow _ =>
      s.Sends P input flow.facts taints ∧ flow.contexts = [] := by
  refine (ends_evaluate_quiet hs.watch (hy.outbox.trans h.quiet)).mono ?_
  rintro flow m' ⟨rfl, seen, rfl⟩
  have hlike : m.Like { m with world := ((act.run s.env).run m.world).2, seen } :=
    .beside rfl rfl hy.outbox
  exact ⟨h.of_like hlike, hlike.spreads, hy.sends, hy.contexts⟩

theorem Sound.flowOn (h1 : s.Root P d1) (hy : s.Hands P input act m.world taints)
    (hd : ∀ d ∈ taints, Derives s side (F side) (given side) (.edge d1.toTaint n d)) :
    m.Makes (sounding s P F given) s (do
      let flow ← Work.evaluate kind input act
      Work.propagateAll side d1 n input call flow.facts) fun _ m' =>
        ∀ d ∈ taints, m'.Has side (d1.toTaint, n, d) :=
  (h.evaluate hs hy).bind fun _ _ ha _ hsend => Sound.propagateSent ha h1 hsend.1 hd

theorem Sound.returnFlow {site : Option StmtId} (hf : s.Live P f) (h3 : s.Live P d3) :
    m.Makes (sounding s P F given) s
      (Work.returnFlow side call callee exit site f d3 contexts) fun facts _ =>
        s.Sends P f facts ((F side).ret call callee exit site f.toTaint d3.toTaint) := by
  unfold Work.returnFlow
  rw [makes_read]
  exact (h.evaluate hs (hs.ret side call callee exit site f d3 contexts _ hf h3)).bind
    fun _ _ ha _ hsend => makes_pure ha hsend.1

end Edges

/-! ## Ways back -/

/-- What comes back from the exit to the call is known in the context of the caller. -/
def Returned (s : Setup) (F : Side → Transfer) (m : Machine) (side : Side) (callee : MethodId)
    (d3 : Taint) (call : StmtId) (d1 : Taint) (exit : StmtId) (d2 : Taint) : Prop :=
  ∀ site ∈ (s.problem side).view.succs call,
    ∀ d5 ∈ (F side).ret (some call) callee exit (some site) d2 d3, m.Has side (d1, site, d5)

theorem Grows.returned (h : m.Grows m')
    (hr : m.Returned s F side callee d3 call d1 exit d2) :
    m'.Returned s F side callee d3 call d1 exit d2 :=
  fun site hsite d5 hd5 => h.has (hr site hsite d5 hd5)

theorem Sound.returnTo {e : Edge} (call : StmtId) (contexts : List Fact) (hs : s.Limited P F)
    (h : m.Sound s P F given) (h1 : s.Live P e.d1) (h2 : s.Live P e.d2)
    (hd4 : ∀ d4 ∈ contexts, s.Root P d4)
    (hd : ∀ d4 ∈ contexts, ∀ site ∈ (s.problem side).view.succs call,
      ∀ d5 ∈ (F side).ret (some call) callee e.stmt (some site) e.d2.toTaint e.d1.toTaint,
        Derives s side (F side) (given side) (.edge d4.toTaint site d5)) :
    m.Makes (sounding s P F given) s (Work.returnTo side callee e call contexts) fun _ m' =>
      ∀ d4 ∈ contexts,
        m'.Returned s F side callee e.d1.toTaint call d4.toTaint e.stmt e.d2.toTaint := by
  unfold Work.returnTo
  rw [makes_read]
  refine (makes_forM (S := fun site m' => ∀ d4 ∈ contexts,
      ∀ d5 ∈ (F side).ret (some call) callee e.stmt (some site) e.d2.toTaint e.d1.toTaint,
        m'.Has side (d4.toTaint, site, d5))
    (fun hq hr d4 hd4 d5 hd5 => hr.has (hq d4 hd4 d5 hd5)) h (fun site hsite a ha => ?_)).mono
      fun _ m' _ _ hall d4 hd4 site hsite d5 hd5 => hall site hsite d4 hd4 d5 hd5
  refine (Sound.returnFlow hs ha h2 h1).bind fun facts b hb _ hsend => ?_
  exact makes_forM (fun hq hr d5 hd5 => hr.has (hq d5 hd5)) hb fun d4 hmem c hc =>
    Sound.propagateSent hc (hd4 d4 hmem) hsend (hd d4 hmem site hsite)

/-! ## Contexts and exits -/

/-- Whenever a context and an exit of it are known, the returns from the one into the other are. -/
def Matched (s : Setup) (F : Side → Transfer) (m : Machine) : Prop :=
  ∀ side callee d3 call f exit g site d5, (m.table side).EnteredBy callee d3 call f →
    (m.table side).LeftBy callee d3 exit g → site ∈ (s.problem side).view.succs call →
    d5 ∈ (F side).ret (some call) callee exit (some site) g.toTaint d3 →
    m.Has side (f.toTaint, site, d5)

/-- What holds of a machine between any two actions of a task. -/
structure Good (s : Setup) (P : Fact → Prop) (F : Side → Transfer) (given : Side → Item → Prop)
    (m : Machine) : Prop extends Sound s P F given m where
  matched : Matched s F m

theorem Good.of_spreads (h : m.Good s P F given) (hm' : m'.Sound s P F given) (hsp : m.Spreads m') :
    m'.Good s P F given := by
  refine ⟨hm', fun side callee d3 call f exit g site d5 he hl hsite hd5 => ?_⟩
  exact hsp.has (h.matched _ _ _ _ _ _ _ _ _ (hsp.enteredBy_iff.mp he) (hsp.leftBy_iff.mp hl) hsite
    hd5)

theorem Good.of_like (h : m.Good s P F given) (hl : m.Like m') : m'.Good s P F given :=
  h.of_spreads (h.toSound.of_like hl) hl.spreads

def matching (s : Setup) (P : Fact → Prop) (F : Side → Transfer) (given : Side → Item → Prop) :
    Mode :=
  ⟨Good s P F given, Grows, Grows.refl, Grows.trans, id⟩

theorem Good.makes {act : Work α} {Q : α → Machine → Prop} (h : m.Good s P F given)
    (hx : m.Makes (sounding s P F given) s act Q) : m.Makes (matching s P F given) s act Q :=
  Ends.mono hx fun _ _ ⟨hm', hsp, hq⟩ => ⟨h.of_spreads hm' hsp, hsp.toGrows, hq⟩

/-- The context is registered, in some fact that says what the caller's context says. -/
def Registered (m : Machine) (side : Side) (callee : MethodId) (d3 : Taint) (call : StmtId)
    (d1 : Taint) : Prop :=
  ∃ f, (m.table side).EnteredBy callee d3 call f ∧ f.toTaint = d1

/-- The exit is summarised, with some fact that says what left there. -/
def Summarised (m : Machine) (side : Side) (callee : MethodId) (d3 : Taint) (exit : StmtId)
    (d2 : Taint) : Prop :=
  ∃ f, (m.table side).LeftBy callee d3 exit f ∧ f.toTaint = d2

theorem Grows.registered (h : m.Grows m') (hr : m.Registered side callee d3 call d1) :
    m'.Registered side callee d3 call d1 :=
  hr.imp fun _ => And.imp_left h.enteredBy

theorem Grows.summarised (h : m.Grows m') (hr : m.Summarised side callee d3 exit d2) :
    m'.Summarised side callee d3 exit d2 :=
  hr.imp fun _ => And.imp_left h.leftBy

section Contexts
variable {d1 d3 : Fact}

theorem enteredBy_register {c : StmtId} :
    ((m.modifyTable side fun t => t.addIncoming callee d3 call d1).table side').EnteredBy callee' d c
        f ↔
      (m.table side').EnteredBy callee' d c f ∨
        (side' = side ∧ callee' = callee ∧ d = d3.toTaint ∧ c = call ∧ f = d1) := by
  rw [table_modifyTable]
  split <;> simp_all [Table.enteredBy_addIncoming]

theorem grows_register : m.Grows (m.modifyTable side fun t => t.addIncoming callee d3 call d1) where
  has hk := (has_modifyTable Table.index_addIncoming).mpr hk
  fresh hk := Or.inl ((has_modifyTable Table.index_addIncoming).mp hk)
  waits hw := by unfold Waits at *; rwa [executor_modifyTable]
  enteredBy he := enteredBy_register.mpr (Or.inl he)
  leftBy hl := (leftBy_modifyTable Table.summaries_addIncoming).mpr hl

section
variable (hs : s.Limited P F) (h1 : s.Root P d1) (h3 : P d3)
  (hne : d3.toTaint ≠ s.env.zero.toTaint)
  (hctx : s.Admits d3 →
    Derives s side (F side) (given side) (.context callee d3.toTaint call d1.toTaint))
include hs h1 h3 hne hctx

omit hne in
/-- A call that newly enters a context gets back everything that left the context before. Nothing
left a context that was dropped. -/
theorem Sound.applySummaries (h : m.Sound s P F given) :
    m.Makes (sounding s P F given) s (Work.applySummaries side d1 call callee d3) fun _ m' =>
      ∀ exit f, (m.table side).LeftBy callee d3.toTaint exit f →
        m'.Returned s F side callee d3.toTaint call d1.toTaint exit f.toTaint := by
  unfold Work.applySummaries
  rw [makes_read, makes_get]
  refine (makes_forM (S := fun (p : StmtId × Fact) m' =>
      m'.Returned s F side callee d3.toTaint call d1.toTaint p.1 p.2.toTaint)
    (fun hq hr => hr.returned hq) h (fun p hp a ha => ?_)).mono
      fun _ m' _ _ hall exit f hleft => hall (exit, f) hleft
  have hleft : (m.table side).LeftBy callee d3.toTaint p.1 p.2 := hp
  obtain ⟨hf, ⟨g, hg, hg3⟩, -, hmeth, hcall, hexit, hedge⟩ := h.summaries hleft
  have hshort := hs.agree g d3 hg h3 hg3
  refine makes_forM (fun hq hr d5 hd5 => hr.has (hq d5 hd5)) ha fun site hsite b hb => ?_
  refine (Sound.returnFlow hs hb hf ⟨h3, hshort⟩).bind fun facts c hc _ hsend => ?_
  refine Sound.propagateSent hc h1 hsend fun d5 hd5 => ?_
  subst hmeth
  exact .leave hedge hcall hexit (hctx hshort) hsite hd5

theorem Sound.register (h : m.Sound s P F given) :
    (m.modifyTable side fun t => t.addIncoming callee d3 call d1).Sound s P F given where
  quiet := by simpa using h.quiet
  live := by simpa using h.live
  edges hk := h.edges ((has_modifyTable Table.index_addIncoming).mp hk)
  tasks ht := by
    rw [executor_modifyTable] at ht
    exact (h.tasks ht).imp_left grows_register.has
  unentered side' callee' := by
    rw [table_modifyTable]
    split
    · next hside =>
      subst hside
      unfold Table.addIncoming Table.callersOf
      rw [Index.getElem?_insert, if_neg (by simp [hne])]
      exact h.unentered _ callee'
    · exact h.unentered side' callee'
  contexts he := by
    rcases enteredBy_register.mp he with he | ⟨rfl, rfl, rfl, rfl, rfl⟩
    · exact h.contexts he
    · exact ⟨h1, fun ⟨g, hg, hg3⟩ => hctx (hs.agree g d3 hg h3 hg3)⟩
  summaries hl := h.summaries ((leftBy_modifyTable Table.summaries_addIncoming).mp hl)

/-- Registering a context keeps contexts and exits matched, whichever came first. -/
theorem Good.enter (h : m.Good s P F given) :
    m.Makes (matching s P F given) s (Work.enter side callee d3 call d1) fun _ m' =>
      m'.Registered side callee d3.toTaint call d1.toTaint := by
  unfold Work.enter
  rw [makes_get]
  split
  · next hent => exact makes_pure h (Table.isEntered_iff.mp hent)
  · have hreg := h.toSound.register hs h1 h3 hne hctx
    refine ends_bind.mpr (ends_modify.mpr (Ends.mono (hreg.applySummaries hs h1 h3 hctx) ?_))
    rintro _ m' ⟨hm', hsp, hback⟩
    refine ⟨⟨hm', ?_⟩, grows_register.trans hsp.toGrows, d1, ?_, rfl⟩
    · intro side' callee' d c f exit g site d5 he hl hsite hd5
      rw [hsp.enteredBy_iff, enteredBy_register] at he
      rw [hsp.leftBy_iff] at hl
      rcases he with he | ⟨rfl, rfl, rfl, rfl, rfl⟩
      · rw [leftBy_modifyTable Table.summaries_addIncoming] at hl
        exact hsp.has (grows_register.has (h.matched _ _ _ _ _ _ _ _ _ he hl hsite hd5))
      · exact hback exit g hl site hsite d5 hd5
    · exact hsp.enteredBy (enteredBy_register.mpr (Or.inr ⟨rfl, rfl, rfl, rfl, rfl⟩))

end
end Contexts

/-! ## Calls -/

section Calls

/-- The fact is known at the starts of the callee, and the call is registered. -/
def Arrived (s : Setup) (m : Machine) (side : Side) (callee : MethodId) (d3 : Taint) (call : StmtId)
    (d1 : Taint) : Prop :=
  (∀ sp ∈ (s.problem side).view.starts callee, m.Has side (d3, sp, d3)) ∧
    m.Registered side callee d3 call d1

theorem Grows.arrived (h : m.Grows m') (he : m.Arrived s side callee d3 call d1) :
    m'.Arrived s side callee d3 call d1 :=
  ⟨fun sp hsp => h.has (he.1 sp hsp), h.registered he.2⟩

section
variable (hs : s.Limited P F) (h : m.Good s P F given) (he : Fit s P F given side e)
include hs h he

theorem Good.callFlow :
    m.Makes (matching s P F given) s (Work.callFlow side e.d1 e.d2 e.stmt callee) fun facts _ =>
      s.Sends P e.d2 facts ((F side).call e.d1.toTaint e.d2.toTaint e.stmt callee) := by
  unfold Work.callFlow
  rw [makes_read]
  have hy := hs.call side e.d1 e.d2 e.stmt callee m.world he.root.toLive he.fact
  refine (h.makes (h.toSound.evaluate hs hy)).bind fun flow a ha _ ⟨hsend, hc⟩ => ?_
  rw [hc]
  exact makes_pure ha hsend

variable (hcall : s.env.graph.isCall e.stmt)
include hcall

section
variable (hcallee : callee ∈ s.env.graph.calleesOf e.stmt)
include hcallee

/-- A fact that enters a callee holds at its starts, unless it is dropped, and the call is
registered. -/
theorem Good.enterWith {d3 : Fact} (hconc : (s.env.method callee).isConcrete) (h3 : P d3)
    (hd3 : s.Admits d3 → d3.toTaint ∈ (F side).call e.d1.toTaint e.d2.toTaint e.stmt callee) :
    m.Makes (matching s P F given) s (Work.enterWith s side callee e.stmt e.d1 d3) fun _ m' =>
      s.Admits d3 → m'.Arrived s side callee d3.toTaint e.stmt e.d1.toTaint := by
  have hne : d3.toTaint ≠ s.env.zero.toTaint := fun hz =>
    hs.call_ne_zero side _ _ _ _ (hz ▸ hd3 (hs.agree _ d3 hs.zero h3 hz.symm))
  refine (h.makes (makes_forM (S := fun sp m' => s.Admits d3 →
      m'.Has side (d3.toTaint, sp, d3.toTaint)) (fun hk hr hshort => hr.has (hk hshort)) h.toSound
      fun sp hsp a ha => ?_)).bind fun _ a ha _ hhas => ?_
  · exact Sound.propagate side ⟨d3, sp, d3⟩ (some e.stmt) ha fun hshort =>
      ⟨hs.root ⟨h3, hshort⟩ hne, ⟨h3, hshort⟩,
        .enter he.derived hcall hcallee hconc (hd3 hshort) hsp⟩
  · exact (Good.enter hs he.root h3 hne
      (fun hshort => .register he.derived hcall hcallee hconc (hd3 hshort)) ha).mono
        fun _ b _ hab hreg hshort => ⟨fun sp hsp => hab.has (hhas sp hsp hshort), hreg⟩

theorem Good.processCallee :
    m.Makes (matching s P F given) s (Work.processCallee side e callee) fun _ m' =>
      (s.env.method callee).isConcrete →
        ∀ d3 ∈ (F side).call e.d1.toTaint e.d2.toTaint e.stmt callee,
          m'.Arrived s side callee d3 e.stmt e.d1.toTaint := by
  unfold Work.processCallee
  rw [makes_read]
  by_cases hconc : (s.env.method callee).isConcrete
  · rw [if_neg (by simp [hconc])]
    refine (h.callFlow hs he).bind fun facts a ha _ hsend => ?_
    refine (makes_forM (S := fun (f : Fact) m' => s.Admits (f.stored e.d2) →
      m'.Arrived s side callee f.toTaint e.stmt e.d1.toTaint)
        (fun hq hr hshort => hr.arrived (hq hshort)) ha fun f hf b hb => ?_).mono
          fun _ b _ _ hall _ d3 hd3 => ?_
    · have hin := Good.enterWith hs hb he hcall hcallee hconc (hsend.fits f hf) fun hshort => by
        simpa using (hsend.mem_iff _).mp ⟨f, hf, hshort, rfl⟩
      rw [Fact.toTaint_stored] at hin
      exact hin
    · obtain ⟨f, hf, hshort, rfl⟩ := (hsend.mem_iff d3).mpr hd3
      exact hall f hf hshort
  · rw [if_pos (by simp [hconc])]
    exact makes_pure h fun hc => absurd hc hconc

end

theorem Good.processCall :
    m.Makes (matching s P F given) s (Work.processCall side e) fun _ m' =>
      (∀ callee ∈ s.env.graph.calleesOf e.stmt, (s.env.method callee).isConcrete →
        ∀ d3 ∈ (F side).call e.d1.toTaint e.d2.toTaint e.stmt callee,
          m'.Arrived s side callee d3 e.stmt e.d1.toTaint) ∧
      ∀ site ∈ (s.problem side).view.succs e.stmt,
        ∀ d ∈ (F side).callToReturn e.d1.toTaint e.d2.toTaint e.stmt site,
          m'.Has side (e.d1.toTaint, site, d) := by
  unfold Work.processCall
  rw [makes_read]
  simp only [hs.maxCallees, Option.all_none, if_true]
  -- Into the callees first.
  refine (makes_forM (fun hq hr hconc d3 hd3 => hr.arrived (hq hconc d3 hd3)) h
    fun callee hcallee a ha => Good.processCallee hs ha he hcall hcallee).bind
      fun _ a ha _ hin => ?_
  -- Then past the call; the loop only adds edges, so what the callees got stays.
  refine (Good.makes ha (makes_forM (fun hq hr d hd => hr.has (hq d hd)) ha.toSound
    fun site hsite b hb => ?_)).mono fun _ b _ hab hout =>
      ⟨fun callee hcallee hconc d3 hd3 => hab.arrived (hin callee hcallee hconc d3 hd3), hout⟩
  exact Sound.flowOn hs hb he.root
    (hs.callToReturn side e.d1 e.d2 e.stmt site b.world he.root.toLive he.fact) fun d hd =>
      .pass he.derived hcall hsite hd

end
end Calls

/-! ## Exits -/

section Exits

theorem leftBy_summarise {x : StmtId} :
    ((m.modifyTable side fun t => t.addSummary callee e.d1 e.stmt e.d2).table side').LeftBy callee' d
        x f ↔
      (m.table side').LeftBy callee' d x f ∨
        (side' = side ∧ callee' = callee ∧ d = e.d1.toTaint ∧ x = e.stmt ∧ f = e.d2) := by
  rw [table_modifyTable]
  split <;> simp_all [Table.leftBy_addSummary]

theorem grows_summarise :
    m.Grows (m.modifyTable side fun t => t.addSummary callee e.d1 e.stmt e.d2) where
  has hk := (has_modifyTable Table.index_addSummary).mpr hk
  fresh hk := Or.inl ((has_modifyTable Table.index_addSummary).mp hk)
  waits hw := by unfold Waits at *; rwa [executor_modifyTable]
  enteredBy he := (enteredBy_modifyTable Table.incoming_addSummary).mpr he
  leftBy hl := leftBy_summarise.mpr (Or.inl hl)

theorem addSummary_zero (hz : e.d1.is s.env.zero) :
    m.Ends s (Work.addSummary side callee e) fun new m' => new ∧ m' = m := by
  unfold Work.addSummary
  simp [hz]

theorem addSummary_context (hz : e.d1.is s.env.zero = false) :
    m.Ends s (Work.addSummary side callee e) fun new m' =>
      (new = false ∧ m.Like m' ∧ m.Summarised side callee e.d1.toTaint e.stmt e.d2.toTaint) ∨
        (new ∧ m' = m.modifyTable side fun t => t.addSummary callee e.d1 e.stmt e.d2) := by
  unfold Work.addSummary
  simp only [ends_bind, ends_read, hz, Bool.false_eq_true, if_false, ends_get]
  cases hsum : (m.table side).summary? callee e.d1 e.stmt e.d2 with
  | some stored =>
    have hleft := Table.leftBy_of_summary? hsum
    simp only
    split
    · simp only [ends_bind, ends_modify, ends_pure]
      exact Or.inl ⟨trivial, Like.beside rfl rfl (by simp), stored, hleft⟩
    · simp only [ends_pure]
      exact Or.inl ⟨trivial, Like.refl m, stored, hleft⟩
  | none =>
    simp only [ends_bind, ends_modify, ends_pure]
    exact Or.inr ⟨trivial, trivial⟩

section
variable (hs : s.Limited P F) (he : Fit s P F given side e)
  (hcall : s.env.graph.isCall e.stmt = false) (hexit : (s.problem side).view.isExit e.stmt)
include hs he hcall hexit

omit hs in
theorem Sound.summarise (h : m.Sound s P F given) (hne : e.d1.toTaint ≠ s.env.zero.toTaint) :
    (m.modifyTable side fun t =>
      t.addSummary (s.env.graph.methodOf e.stmt) e.d1 e.stmt e.d2).Sound s P F given where
  quiet := by simpa using h.quiet
  live := by simpa using h.live
  edges hk := h.edges ((has_modifyTable Table.index_addSummary).mp hk)
  tasks ht := by
    rw [executor_modifyTable] at ht
    exact (h.tasks ht).imp_left grows_summarise.has
  unentered side' callee' := by
    have hold := h.unentered side' callee'
    cases side <;> cases side' <;> exact hold
  contexts hent := h.contexts ((enteredBy_modifyTable Table.incoming_addSummary).mp hent)
  summaries hl := by
    rcases leftBy_summarise.mp hl with hl | ⟨rfl, rfl, rfl, rfl, rfl⟩
    · exact h.summaries hl
    · exact ⟨he.fact, ⟨e.d1, he.root.toLive, rfl⟩, hne, rfl, hcall, hexit, he.derived⟩

/-- An exit goes back to every call that is registered for its context. -/
theorem Sound.returnToCallers (h : m.Sound s P F given) :
    m.Makes (sounding s P F given) s
      (((m.table side).callersOf (s.env.graph.methodOf e.stmt) e.d1).forM fun c =>
        Work.returnTo side (s.env.graph.methodOf e.stmt) e c.1 c.2) fun _ m' =>
      ∀ call f, (m.table side).EnteredBy (s.env.graph.methodOf e.stmt) e.d1.toTaint call f →
        m'.Returned s F side (s.env.graph.methodOf e.stmt) e.d1.toTaint call f.toTaint e.stmt
          e.d2.toTaint := by
  refine (makes_forM (S := fun (c : StmtId × List Fact) m' => ∀ d4 ∈ c.2,
      m'.Returned s F side (s.env.graph.methodOf e.stmt) e.d1.toTaint c.1 d4.toTaint e.stmt
        e.d2.toTaint)
    (fun hq hr d4 hd4 => hr.returned (hq d4 hd4)) h (fun c hc a ha => ?_)).mono ?_
  · have hctx : ∀ d4 ∈ c.2, s.Root P d4 ∧ Derives s side (F side) (given side)
        (.context (s.env.graph.methodOf e.stmt) e.d1.toTaint c.1 d4.toTaint) := fun d4 hd4 =>
      (h.contexts ⟨c, hc, rfl, hd4⟩).imp_right fun hd => hd ⟨e.d1, he.root.toLive, rfl⟩
    refine Sound.returnTo c.1 c.2 hs ha he.root.toLive he.fact (fun d4 hd4 => (hctx d4 hd4).1) ?_
    intro d4 hd4 site hsite d5 hd5
    exact .leave he.derived hcall hexit (hctx d4 hd4).2 hsite hd5
  · rintro _ m' - - hall call f ⟨c, hc, rfl, hf⟩
    exact hall c hc f hf

variable (h : m.Good s P F given)
include h

/-- Leaving a context: the exit is summarised, and every registered call got it back. -/
theorem Good.processExit_context (hne : e.d1.toTaint ≠ s.env.zero.toTaint) :
    m.Makes (matching s P F given) s (Work.processExit side e) fun _ m' =>
      m'.Summarised side (s.env.graph.methodOf e.stmt) e.d1.toTaint e.stmt e.d2.toTaint := by
  have hz : e.d1.is s.env.zero = false :=
    Bool.eq_false_iff.mpr fun hb => hne (he.root.identified.mp hb)
  unfold Work.processExit
  rw [makes_read]
  refine ends_bind.mpr ((addSummary_context hz).mono fun new a hnew => ?_)
  rcases hnew with ⟨rfl, hlike, hsum⟩ | ⟨rfl, rfl⟩
  · simp only [Bool.not_false, if_true, ends_pure]
    exact ⟨h.of_like hlike, hlike.spreads.toGrows, hlike.spreads.summarised hsum⟩
  · simp only [Bool.not_true, Bool.false_eq_true, if_false, ends_bind, ends_get, hz, Bool.and_false,
      Bool.false_and]
    generalize ha : (m.modifyTable side fun t =>
      t.addSummary (s.env.graph.methodOf e.stmt) e.d1 e.stmt e.d2) = a
    have hsound : a.Sound s P F given := ha ▸ h.toSound.summarise he hcall hexit hne
    refine Ends.mono (hsound.returnToCallers hs he hcall hexit) ?_
    rintro _ b ⟨hb, hab, hback⟩
    have hma : m.Grows a := ha ▸ grows_summarise
    rw [ends_pure]
    refine ⟨⟨hb, ?_⟩, hma.trans hab.toGrows, e.d2, ?_, rfl⟩
    · -- Either the exit was summarised before, or it is this one and its callers were just served.
      intro side' callee d3 call f exit g site d5 hent hl hsite hd5
      rw [hab.enteredBy_iff] at hent
      rw [hab.leftBy_iff, ← ha, leftBy_summarise] at hl
      rcases hl with hl | ⟨rfl, rfl, rfl, rfl, rfl⟩
      · rw [← ha, enteredBy_modifyTable Table.incoming_addSummary] at hent
        exact hab.has (hma.has (h.matched _ _ _ _ _ _ _ _ _ hent hl hsite hd5))
      · exact hback call f hent site hsite d5 hd5
    · rw [hab.leftBy_iff, ← ha, leftBy_summarise]
      exact Or.inr ⟨rfl, rfl, rfl, rfl, rfl⟩

/-- Leaving with what is rooted in zero: all callers of the method got it, if returns past the
seeds are followed. -/
theorem Good.processExit_zero (hz : e.d1.toTaint = s.env.zero.toTaint) :
    m.Makes (matching s P F given) s (Work.processExit side e) fun _ m' =>
      s.env.config.solver.followReturnsPastSeeds →
        ∀ call ∈ s.env.graph.callersOf (s.env.graph.methodOf e.stmt),
          m'.Returned s F side (s.env.graph.methodOf e.stmt) e.d1.toTaint call e.d1.toTaint e.stmt
            e.d2.toTaint := by
  have hnone : (m.table side).callersOf (s.env.graph.methodOf e.stmt) e.d1 = [] := by
    have := h.unentered side (s.env.graph.methodOf e.stmt)
    unfold Table.callersOf at this ⊢
    rw [hz]
    exact this
  unfold Work.processExit
  rw [makes_read]
  refine ends_bind.mpr ((addSummary_zero (he.root.identified.mpr hz)).mono ?_)
  rintro new a ⟨hnew, ha⟩
  subst hnew ha
  simp only [Bool.not_true, Bool.false_eq_true, if_false, ends_bind, ends_get, hnone,
    he.root.identified.mpr hz, Bool.and_true, List.isEmpty_nil, ends_forM_nil]
  by_cases hfollow : s.env.config.solver.followReturnsPastSeeds
  · rw [if_pos hfollow]
    refine (h.makes (makes_forM (S := fun call m' => m'.Returned s F side
      (s.env.graph.methodOf e.stmt) e.d1.toTaint call e.d1.toTaint e.stmt e.d2.toTaint)
      (fun hq hr => hr.returned hq) h.toSound fun call hmem b hb => ?_)).bind
        fun _ b hb _ hall => ?_
    · refine (Sound.returnTo call [s.env.zero] hs hb he.root.toLive he.fact ?_ ?_).mono
        fun _ c _ _ hall => ?_
      · intro d4 hd4
        rw [List.mem_singleton.mp hd4]
        exact hs.root_zero
      · intro d4 hd4 site hsite d5 hd5
        rw [List.mem_singleton.mp hd4]
        rw [hz] at hd5
        exact .unbalanced (hz ▸ he.derived) hcall hexit hfollow hmem hsite hd5
      · rw [hz] at hall ⊢
        exact hall s.env.zero (by simp)
    · split
      · exact (Good.makes hb (Sound.returnFlow hs hb.toSound he.fact he.root.toLive)).bind
          fun _ c hc hbc _ => makes_pure hc fun _ call hmem => hbc.returned (hall call hmem)
      · exact makes_pure hb fun _ => hall
  · rw [if_neg hfollow]
    exact makes_pure h fun hf => absurd hf hfollow

theorem Good.processExit :
    m.Makes (matching s P F given) s (Work.processExit side e) fun _ m' =>
      (e.d1.toTaint ≠ s.env.zero.toTaint →
        m'.Summarised side (s.env.graph.methodOf e.stmt) e.d1.toTaint e.stmt e.d2.toTaint) ∧
      (e.d1.toTaint = s.env.zero.toTaint →
        s.env.config.solver.followReturnsPastSeeds →
        ∀ call ∈ s.env.graph.callersOf (s.env.graph.methodOf e.stmt),
          m'.Returned s F side (s.env.graph.methodOf e.stmt) e.d1.toTaint call e.d1.toTaint e.stmt
            e.d2.toTaint) := by
  by_cases hz : e.d1.toTaint = s.env.zero.toTaint
  · exact (h.processExit_zero hs he hcall hexit hz).mono fun _ _ _ _ hall =>
      ⟨fun hne => absurd hz hne, fun _ => hall⟩
  · exact (h.processExit_context hs he hcall hexit hz).mono fun _ _ _ _ hsum =>
      ⟨fun _ => hsum, fun hz' => absurd hz' hz⟩

end
end Exits

/-! ## Tasks -/

section Tasks

/-- Every consequence that the rules draw from an edge is known. -/
structure Done (s : Setup) (F : Side → Transfer) (m : Machine) (side : Side) (d1 : Taint)
    (n : StmtId) (d2 : Taint) : Prop where
  normal : s.env.graph.isCall n = false → ∀ t ∈ (s.problem side).view.succs n,
    ∀ d ∈ (F side).normal d1 d2 n t, m.Has side (d1, t, d)
  enter : s.env.graph.isCall n = true → ∀ callee ∈ s.env.graph.calleesOf n,
    (s.env.method callee).isConcrete = true → ∀ d3 ∈ (F side).call d1 d2 n callee,
      m.Arrived s side callee d3 n d1
  pass : s.env.graph.isCall n = true → ∀ site ∈ (s.problem side).view.succs n,
    ∀ d ∈ (F side).callToReturn d1 d2 n site, m.Has side (d1, site, d)
  leave : s.env.graph.isCall n = false → (s.problem side).view.isExit n = true →
    d1 ≠ s.env.zero.toTaint → m.Summarised side (s.env.graph.methodOf n) d1 n d2
  unbalanced : s.env.graph.isCall n = false → (s.problem side).view.isExit n = true →
    d1 = s.env.zero.toTaint → s.env.config.solver.followReturnsPastSeeds = true →
    ∀ call ∈ s.env.graph.callersOf (s.env.graph.methodOf n),
      m.Returned s F side (s.env.graph.methodOf n) d1 call d1 n d2

theorem Done.mono {n : StmtId} (h : m.Done s F side d1 n d2) (hg : m.Grows m') :
    m'.Done s F side d1 n d2 where
  normal hc t ht d hd := hg.has (h.normal hc t ht d hd)
  enter hc callee hcallee hconc d3 hd3 := hg.arrived (h.enter hc callee hcallee hconc d3 hd3)
  pass hc site hsite d hd := hg.has (h.pass hc site hsite d hd)
  leave hc hexit hne := hg.summarised (h.leave hc hexit hne)
  unbalanced hc hexit hz hf call hcall := hg.returned (h.unbalanced hc hexit hz hf call hcall)

section
variable (hs : s.Limited P F) (h : m.Good s P F given) (he : Fit s P F given side e)
include hs h he

theorem Good.processNormal (hcall : s.env.graph.isCall e.stmt = false) :
    m.Makes (matching s P F given) s (Work.processNormal side e) fun _ m' =>
      ∀ t ∈ (s.problem side).view.succs e.stmt,
        ∀ d ∈ (F side).normal e.d1.toTaint e.d2.toTaint e.stmt t,
          m'.Has side (e.d1.toTaint, t, d) := by
  unfold Work.processNormal
  rw [makes_read]
  refine h.makes (makes_forM (fun hq hr d hd => hr.has (hq d hd)) h.toSound fun t ht a ha => ?_)
  exact Sound.flowOn hs ha he.root
    (hs.normal side e.d1 e.d2 e.stmt t a.world he.root.toLive he.fact) fun d hd =>
      .normal he.derived hcall ht hd

/-- Working on an edge draws all its consequences. -/
theorem Good.process : m.Makes (matching s P F given) s
    (Work.process side e) fun _ m' => m'.Done s F side e.d1.toTaint e.stmt e.d2.toTaint := by
  unfold Work.process
  rw [makes_read]
  refine (h.makes (h.modifyTable (f := fun t => { t with processed := t.processed + 1 })
    fun _ => ⟨rfl, rfl, rfl⟩)).bind fun _ m1 hm1 _ _ => ?_
  by_cases hcall : s.env.graph.isCall e.stmt
  · rw [if_pos hcall]
    have hno {p : Prop} : s.env.graph.isCall e.stmt = false → p := by simp [hcall]
    exact (Good.processCall hs hm1 he hcall).mono fun _ a _ _ ⟨hin, hpast⟩ =>
      ⟨hno, fun _ => hin, fun _ => hpast, hno, hno⟩
  · have hcall' : s.env.graph.isCall e.stmt = false := by simpa using hcall
    have hno {p : Prop} (hc : s.env.graph.isCall e.stmt) : p := absurd hc hcall
    rw [if_neg hcall]
    by_cases hexit : (s.problem side).view.isExit e.stmt
    · rw [if_pos hexit]
      refine (Good.processExit hs he hcall' hexit hm1).bind fun _ a ha _ ⟨hsum, hall⟩ => ?_
      exact (Good.processNormal hs ha he hcall').mono fun _ b _ hgb hnorm =>
        ⟨fun _ => hnorm, hno, hno, fun _ _ hne => hgb.summarised (hsum hne),
          fun _ _ hz hf call hmem => hgb.returned (hall hz hf call hmem)⟩
    · rw [if_neg hexit]
      exact (Good.processNormal hs hm1 he hcall').mono fun _ a _ _ hnorm =>
        ⟨fun _ => hnorm, hno, hno, fun _ hx => absurd hx hexit, fun _ hx => absurd hx hexit⟩

end
end Tasks
end Machine
end LeakTrace
