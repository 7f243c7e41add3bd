import LeakTrace.Proofs.Evaluation
import LeakTrace.Proofs.Scope.Tasks

/-!
# Static fields that hold everywhere

Where static fields are tracked regardless of the control flow, an assignment to one hands its taint
over: the fact is remembered, and the solvers are asked to start from it wherever the field is read.
**Whatever was handed over is known at every reader**, at any time of a pass and whichever tasks
were run: requests are answered before the flow function that made them is done with, and even a
solver that was stopped takes note of an edge.

Only assignments hand taints over. What a source or a returned value puts into a static field goes
along the control flow, as it does for any other place.
-/

namespace LeakTrace
open List

variable {e : Env} {w : World} {f d1 : Fact} {K : StmtId → Taint → Prop}

/-! ## Handing over -/

theorem FactSet.mem_insert {set : FactSet} {g : Fact} (hg : g ∈ set.insert f) : g ∈ set ∨ g = f := by
  unfold insert at hg
  split at hg
  · exact .inl hg
  · simpa using hg

theorem FactSet.contains_insert_self (set : FactSet) (f : Fact) : (set.insert f).contains f := by
  unfold insert
  split
  · assumption
  · simp [contains, Fact.same]

/-- Wherever a static field is read whose taint was handed over, the taint is known, as `K` says, or
asked for. -/
def World.Spreads (e : Env) (K : StmtId → Taint → Prop) (w : World) : Prop :=
  ∀ g ∈ w.globals, ∀ field ∈ g.path.firstField?, ∀ n ∈ Track.readers e field,
    K n g.toTaint ∨ .edge .forward e.zero n g ∈ w.outbox

namespace Track
section
variable (hforward : e.hasForward)
include hforward

theorem run_sendEdge (side : Side) (n : StmtId) (w : World) :
    ∃ out, ((sendEdge side e.zero n f).run e).run w = ((), { w with outbox := out }) ∧
      (∀ msg ∈ w.outbox, msg ∈ out) ∧ (side = .forward → .edge .forward e.zero n f ∈ out) := by
  have hsent : (∀ msg ∈ w.outbox, msg ∈ .edge side e.zero n f :: w.outbox) :=
    fun _ h => mem_cons_of_mem _ h
  cases side with
  | forward =>
    refine ⟨_, ?_, hsent, fun _ => mem_cons_self⟩
    change ((if e.hasForward then send _ else pure () : Track Unit).run e).run w = _
    rw [if_pos hforward]
    rfl
  | backward =>
    cases hbackward : e.hasBackward with
    | true =>
      refine ⟨_, ?_, hsent, nofun⟩
      change ((if e.hasBackward then send _ else pure () : Track Unit).run e).run w = _
      rw [if_pos hbackward]
      rfl
    | false =>
      refine ⟨w.outbox, ?_, fun _ h => h, nofun⟩
      change ((if e.hasBackward then send _ else pure () : Track Unit).run e).run w = _
      rw [hbackward]
      rfl

theorem run_spread (l : List StmtId) (w : World) :
    let spread : Track PUnit := forIn l PUnit.unit fun n _ => do
      sendEdge .forward e.zero n f
      sendEdge .backward e.zero n f
      pure (ForInStep.yield PUnit.unit)
    ∃ out, ((spread.run e).run w).2 = { w with outbox := out } ∧
      (∀ msg ∈ w.outbox, msg ∈ out) ∧ ∀ n ∈ l, .edge .forward e.zero n f ∈ out := by
  induction l generalizing w with
  | nil => exact ⟨w.outbox, rfl, fun _ h => h, forall_mem_nil _⟩
  | cons n rest ih =>
    obtain ⟨out1, hrun1, hold1, hnew1⟩ := run_sendEdge (f := f) hforward .forward n w
    obtain ⟨out2, hrun2, hold2, -⟩ :=
      run_sendEdge (f := f) hforward .backward n { w with outbox := out1 }
    obtain ⟨out, hrun, hold, hnew⟩ := ih { w with outbox := out2 }
    have hkept : ∀ msg ∈ out1, msg ∈ out := fun msg h => hold msg (hold2 msg h)
    refine ⟨out, ?_, fun msg h => hkept msg (hold1 msg h), ?_⟩
    · rw [forIn_cons, ← hrun]
      change (((forIn rest PUnit.unit _ : Track PUnit).run e).run (((sendEdge .backward _ n f).run
        e).run (((sendEdge .forward _ n f).run e).run w).2).2).2 = _
      rw [hrun1, hrun2]
    · rintro i (_ | ⟨_, hi⟩)
      · exact hkept _ (hnew1 rfl)
      · exact hnew i hi

/-- A taint that is new is remembered, and asked for wherever its field is read. -/
theorem run_addGlobal (w : World) :
    let w' := (((addGlobal f).run e).run w).2
    (w.globals.contains f ∧ w' = w) ∨
      ∃ out, w' = { w with globals := w.globals.insert f, outbox := out } ∧
        (∀ msg ∈ w.outbox, msg ∈ out) ∧
        ∀ field ∈ f.path.firstField?, ∀ n ∈ readers e field, .edge .forward e.zero n f ∈ out := by
  intro w'
  by_cases hknown : w.globals.contains f
  · refine .inl ⟨hknown, ?_⟩
    change ((((if w.globals.contains f then pure false else _) : Track Bool).run e).run w).2 = w
    rw [if_pos hknown]
    rfl
  · right
    change ∃ out, ((((if w.globals.contains f then pure false else _) : Track Bool).run e).run
      w).2 = _ ∧ _
    rw [if_neg hknown]
    cases f.path.firstField? with
    | none => exact ⟨w.outbox, rfl, fun _ h => h, nofun⟩
    | some field =>
      obtain ⟨out, hrun, hold, hasked⟩ :=
        run_spread (f := f) hforward (readers e field) { w with globals := w.globals.insert f }
      refine ⟨out, hrun, hold, ?_⟩
      rintro _ ⟨⟩
      exact hasked

theorem addGlobal_spreads : Keeps e (World.Spreads e K) (addGlobal f) := by
  intro w hw
  refine ⟨trivial, ?_⟩
  rcases run_addGlobal (f := f) hforward w with ⟨-, hsame⟩ | ⟨out, hout, hold, hnew⟩
  · rw [hsame]
    exact hw
  · rw [hout]
    intro g hg field hfield n hn
    rcases FactSet.mem_insert hg with hg | rfl
    · exact (hw g hg field hfield n hn).imp_right (hold _)
    · exact .inr (hnew field hfield n hn)

theorem contains_addGlobal (w : World) : (((addGlobal f).run e).run w).2.globals.contains f := by
  rcases run_addGlobal (f := f) hforward w with ⟨hknown, hsame⟩ | ⟨out, hout, -, -⟩
  · rw [hsame]
    exact hknown
  · rw [hout]
    exact FactSet.contains_insert_self _ f

end
end Track

theorem Upkeep.spreads (hforward : e.hasForward) (K : StmtId → Taint → Prop) :
    Upkeep.Always e (World.Spreads e K) where
  rest hw h := by
    unfold World.Spreads
    rw [h.globals, h.outbox]
    exact hw
  send hw _ g hg field hfield n hn :=
    (hw g hg field hfield n hn).imp_right (mem_cons_of_mem _)
  global _ := Track.addGlobal_spreads hforward

/-! ## Delivery -/

variable {s : Setup} {m : Machine}

/-- Where a static field is read whose taint was handed over, the taint is known. -/
def Machine.Spread (s : Setup) (m : Machine) : Prop :=
  ∀ g ∈ m.world.globals, ∀ field ∈ g.path.firstField?, ∀ n ∈ Track.readers s.env field,
    m.Has .forward (s.env.zero.toTaint, n, g.toTaint)

/-- All edges stay known, and the same taints are handed over. -/
structure Machine.Since (m m' : Machine) : Prop where
  has {side : Side} {k : Edge.Key} : m.Has side k → m'.Has side k
  globals : m'.world.globals = m.world.globals

theorem Machine.Since.refl (m : Machine) : m.Since m := ⟨id, rfl⟩

theorem Machine.monotone_since (m : Machine) : Machine.Monotone m.Since where
  grows hm hhas _ _ hworld := ⟨fun hk => hhas _ _ (hm.has hk), by rw [hworld, hm.globals]⟩
  neighbor {m' _ _ _} hm := World.addNeighbor_of (I := fun w => m.Since { m' with world := w })
    fun _ => ⟨hm.has, hm.globals⟩

theorem Machine.monotone_spread (s : Setup) : Machine.Monotone (Machine.Spread s) where
  grows hm hhas _ _ hworld g hg field hfield n hn := by
    rw [hworld] at hg
    exact hhas _ _ (hm g hg field hfield n hn)
  neighbor {m' _ _ _} hm := World.addNeighbor_of (I := fun w => Spread s { m' with world := w })
    fun _ => hm

namespace Machine
variable (hlength : s.env.config.solver.maxPathLength = none)
include hlength

/-- What was asked for is known afterwards, and nothing else is forgotten. -/
theorem ends_deliver (msg : Message) : m.Ends s (Work.deliver msg) fun _ m' =>
    (∀ side d1 n f, msg = .edge side d1 n f → m'.Has side (d1.toTaint, n, f.toTaint)) ∧
      m.Since m' := by
  cases msg with
  | edge side d1 n f =>
    have hadd : m.Ends s (Work.addEdge side ⟨d1, n, f⟩) fun _ m' =>
        m'.Has side (d1.toTaint, n, f.toTaint) := by
      unfold Work.addEdge
      rw [ends_bind, ends_modify]
      exact ends_propagate (by simp [Setup.Admits, hlength])
    refine (hadd.and_keeps (Work.addEdge_preserves m.monotone_since) (.refl m)).mono ?_
    rintro _ m' ⟨hnew, hsince⟩
    refine ⟨?_, hsince⟩
    rintro _ _ _ _ ⟨⟩
    exact hnew
  | abort =>
    unfold Work.deliver
    simp only [ends_bind, ends_read, ends_modify]
    refine ⟨fun _ _ _ _ h => ?_, (has_stop m _ _).mpr, by rw [world_stop]⟩
    cases h

theorem deliverAll_spread
    (hm : m.world.Spreads s.env fun n t => m.Has .forward (s.env.zero.toTaint, n, t)) :
    m.Ends s Work.deliverAll fun _ m' => m'.Spread s ∧ True := by
  have hloop : ∀ (l : List Message) (m : Machine),
      (∀ g ∈ m.world.globals, ∀ field ∈ g.path.firstField?, ∀ n ∈ Track.readers s.env field,
        m.Has .forward (s.env.zero.toTaint, n, g.toTaint) ∨ .edge .forward s.env.zero n g ∈ l) →
      m.Ends s (l.forM Work.deliver) fun _ m' => m'.Spread s := by
    intro l
    induction l with
    | nil =>
      intro m hm
      rw [ends_forM_nil]
      exact fun g hg field hfield n hn =>
        (hm g hg field hfield n hn).resolve_right not_mem_nil
    | cons msg rest ih =>
      intro m hm
      rw [ends_forM_cons]
      refine (ends_deliver hlength msg).mono ?_
      rintro _ m' ⟨hnew, hsince⟩
      refine ih m' fun g hg field hfield n hn => ?_
      rw [hsince.globals] at hg
      rcases hm g hg field hfield n hn with hk | hmem
      · exact .inl (hsince.has hk)
      · rcases mem_cons.mp hmem with rfl | hmem
        · exact .inl (hnew _ _ _ _ rfl)
        · exact .inr hmem
  unfold Work.deliverAll
  simp only [ends_bind, ends_get, ends_modify, and_true]
  exact hloop _ _ fun g hg field hfield n hn =>
    (hm g hg field hfield n hn).imp_right mem_reverse.mpr

end Machine

/-! ## Passes -/

theorem Setup.preserves_spread {k : Nat} {watch : Watch} (hz : e.zero = .zero k)
    (hforward : e.hasForward) (hlength : e.config.solver.maxPathLength = none) :
    (Setup.ofEnv e watch).Preserves (Machine.Spread (Setup.ofEnv e watch)) where
  toMonotone := Machine.monotone_spread _
  enters {m side callee d3 d1 call} hm g hg field hfield n hn := by
    rw [Machine.world_modifyTable] at hg
    exact (Machine.has_modifyTable Table.index_addIncoming).mpr (hm g hg field hfield n hn)
  evaluate {kind f act} hact := by
    refine Work.evaluate_preserves (Machine.monotone_spread _) (fun n _ m hm => ?_)
      (J := fun m => m.world.Spreads e fun n t => m.Has .forward (e.zero.toTaint, n, t))
      (fun m hm => ?_) (.of_ends fun m hm => Machine.deliverAll_spread hlength hm)
    · intro g hg field hfield n hn
      rw [Machine.world_cancel] at hg
      exact (Machine.has_cancel m _).mpr (hm g hg field hfield n hn)
    · refine (hact.keeps hz (Upkeep.spreads hforward _) (fun _ _ hw => hw) (fun _ _ hw => hw) m.world
        ?_).2
      exact fun g hg field hfield n hn => .inl (hm g hg field hfield n hn)

/-! ## Assignments -/

namespace Track
variable {stmt : Stmt} {lhs rhs : Value} {r : Reading}

variable (hmode : e.config.staticFields = .insensitive)
include hmode

/-- Where static fields hold everywhere, their taint is handed over and not passed on. -/
theorem taintLeft_of_isGlobal (hlhs : lhs.isGlobal) :
    Keeps e (fun _ => True) (taintLeft d1 stmt lhs rhs f r) (· = []) := by
  refine .read (.guard rfl <| .any_bind fun o => ?_)
  split
  · exact .pure rfl
  · refine .dite (fun _ => .any_bind fun _ => .pure rfl) fun hno => absurd ?_ hno
    simp [hlhs, hmode]

theorem assign_of_isGlobal (hlhs : lhs.isGlobal) :
    Keeps e (fun _ => True) (assign d1 stmt lhs rhs f) fun set => ∀ g ∈ set, g = f := by
  have hself : ∀ g ∈ [f], g = f := fun g hg => mem_singleton.mp hg
  refine .read (.guard hself <| .guard hself <|
    .any_bind fun o => ?_)
  split
  · exact .pure (forall_mem_nil _)
  · refine .guard hself <|
      .ite (.any_bind fun o => ?_) <| .any_bind fun o => ?_
    all_goals
      cases o with
      | none => exact .pure (forall_mem_nil _)
      | some g =>
        refine (taintLeft_of_isGlobal hmode hlhs).bind ?_
        rintro _ rfl
        exact .pure hself

theorem contains_taintLeft (hforward : e.hasForward) (hlhs : lhs.isGlobal) (w : World) :
    ∀ g ∈ (((written stmt lhs rhs f r).run e).run w).1,
      (((taintLeft d1 stmt lhs rhs f r).run e).run w).2.globals.contains g := by
  intro g hg
  rcases hwritten : ((written stmt lhs rhs f r).run e).run w with ⟨o, w'⟩
  rw [hwritten] at hg
  obtain rfl : o = some g := hg
  have hkept : (lhs.isGlobal && e.config.staticFields == .ignored) = false := by simp [hmode]
  have hhanded : (lhs.isGlobal && e.config.staticFields == .insensitive) := by
    simp [hmode, hlhs]
  have hbind {β : Type} (k : Option Fact → Track β) :
      ((written stmt lhs rhs f r >>= k).run e).run w = ((k (some g)).run e).run w' := by
    change ((k (((written stmt lhs rhs f r).run e).run w).1).run e).run
      (((written stmt lhs rhs f r).run e).run w).2 = _
    rw [hwritten]
  have hrun : ((taintLeft d1 stmt lhs rhs f r).run e).run w =
      ([], (((addGlobal g).run e).run w').2) := by
    change (((if lhs.isGlobal && e.config.staticFields == .ignored then pure []
      else written stmt lhs rhs f r >>= _) : Track FactSet).run e).run w = _
    rw [hkept, if_neg Bool.false_ne_true, hbind]
    change (((if lhs.isGlobal && e.config.staticFields == .insensitive then addGlobal g >>= _
      else _) : Track FactSet).run e).run w' = _
    rw [if_pos hhanded]
    rfl
  rw [hrun]
  exact contains_addGlobal hforward w'

end Track

/-- **Whatever is handed over is known at every reader**, at any time of a pass and in whichever
order its tasks are run. Assignments hand over what they write to a static field, and of what they
return nothing is about the field. -/
theorem Analysis.handed_over_known_at_readers {a : Analysis} {k : Nat} (hz : a.env.zero = .zero k)
    (hmode : a.env.config.staticFields = .insensitive)
    (hlength : a.env.config.solver.maxPathLength = none) (sources sinks : List StmtId) :
    let s := a.passSetup sources sinks
    (∀ m pick n,
      let start := ((a.applyBudgets s.sides (nextMachine m)).run s (Work.seed sources)).2
      let last := start.after s pick n
      ∀ g ∈ last.world.globals, ∀ field ∈ g.path.firstField?, ∀ r ∈ Track.readers a.env field,
        last.Has .forward (a.env.zero.toTaint, r, g.toTaint)) ∧
    ∀ d1 stmt lhs rhs f w, lhs.isGlobal = true →
      (∀ g ∈ (((Track.assign d1 stmt lhs rhs f).run s.env).run w).1, g = f) ∧
      ∀ r, ∀ g ∈ (((Track.written stmt lhs rhs f r).run s.env).run w).1,
        (((Track.taintLeft d1 stmt lhs rhs f r).run s.env).run w).2.globals.contains g = true := by
  intro s
  refine ⟨fun m pick n => ?_, fun d1 stmt lhs rhs f w hlhs => ⟨?_, fun r => ?_⟩⟩
  · have hs : s.Preserves (Machine.Spread s) := Setup.preserves_spread hz rfl hlength
    have hstart : (a.applyBudgets s.sides (nextMachine m)).Spread s := by
      intro g hg
      rw [world_applyBudgets] at hg
      cases hg
    exact hs.after (Work.seed_preserves hs _ hstart).1 pick n
  · exact (Track.assign_of_isGlobal (e := s.env) hmode hlhs w trivial).1
  · exact Track.contains_taintLeft (e := s.env) hmode rfl hlhs w

/-! ## Before and after the store -/

namespace Analysis

def storedField : Field := ⟨"App", "f", .cls "java.lang.String", true⟩

/-- A static field is read, and only then something from a source is put into it. -/
def storing (actions : Local → List Action) : Program :=
  let text : Ty := .cls "java.lang.String"
  let x : Local := ⟨0, "x", text⟩
  let p := Program.empty.openBody ⟨"App", "main", [], .void⟩ true [("x", text), ("y", text)]
  (p.closeBody (.assign (.var ⟨1, "y", text⟩) (.global storedField) :: actions x ++ [.retVoid])
    []).addEntry 0

def globally (actions : Local → List Action) : Analysis where
  env :=
    { graph := .ofProgram (storing actions) []
      oracle := ({} : Oracle).addSource ⟨"App", "source", [], .cls "java.lang.String"⟩ [.result]
      config := { staticFields := .insensitive, aliasing := .none
                  solver := { maxPathLength := none, followReturnsPastSeeds := false } } }

def fromSource : Value := .call .static ⟨"App", "source", [], .cls "java.lang.String"⟩ none []

def assigned : Analysis :=
  globally fun x => [.assign (.var x) fromSource, .assign (.global storedField) (.var x)]

def returned : Analysis := globally fun _ => [.assign (.global storedField) fromSource]

def sourceFlow (a : Analysis) : Flow × World :=
  let e := (a.passSetup [1] []).env
  ((Forward.callToReturn e.zero e.zero 1).run e).run (nextMachine {}).world

/-- After two tasks the taint of the field is known where the field is read, although that is before
the store. -/
theorem assigned_known_before_store :
    let s := assigned.passSetup [1] []
    let start := ((assigned.applyBudgets s.sides (nextMachine {})).run s (Work.seed [1])).2
    0 ∈ Track.readers assigned.env storedField ∧
    ∃ g ∈ (start.after s (fun _ _ => 0) 2).world.globals, g.isActive = true ∧
      g.path.firstField? = some storedField ∧
      (start.after s (fun _ _ => 0) 2).Has .forward (assigned.env.zero.toTaint, 0, g.toTaint) := by
  intro s start
  have hfound : (start.after s (fun _ _ => 0) 2).world.globals.any fun g => g.isActive &&
      g.path.firstField? == some storedField := by
    decide +kernel +revert
  have hknown : ∀ n, ∀ g ∈ (start.after s (fun _ _ => 0) n).world.globals,
      ∀ field ∈ g.path.firstField?, ∀ r ∈ Track.readers assigned.env field,
        (start.after s (fun _ _ => 0) n).Has .forward (assigned.env.zero.toTaint, r, g.toTaint) :=
    (handed_over_known_at_readers (a := assigned) (k := 0) rfl rfl rfl [1] []).1 {} fun _ _ => 0
  have hreads : 0 ∈ Track.readers assigned.env storedField := by decide +kernel
  obtain ⟨g, hg, htold⟩ := List.any_eq_true.mp hfound
  obtain ⟨hactive, hfield⟩ := Bool.and_eq_true_iff.mp htold
  have hfield : g.path.firstField? = some storedField := by simpa using hfield
  exact ⟨hreads, g, hg, hactive, hfield, hknown 2 g hg storedField hfield 0 hreads⟩

/-- **What a call puts into a static field is not handed over.** The source returns the taint of the
field, and the statement that reads the field never gets to know it, although nothing is left to
do. -/
theorem returned_unknown_before_store :
    (∃ g ∈ (sourceFlow returned).1.facts, g.isActive = true ∧ g.path.isStaticField = true ∧
      g.path.firstField? = some storedField) ∧
    0 ∈ Track.readers returned.env storedField ∧
    let last := returned.passBy .inOrder [1] [] {}
    last.executor.queued = [] ∧ ∀ d1 d2, ¬ last.Has .forward (d1, 0, d2) := by
  have hmade : (sourceFlow returned).1.facts.any (fun g => g.isActive && (g.path.isStaticField &&
      g.path.firstField? == some storedField)) := by
    decide +kernel
  refine ⟨?_, by decide +kernel, ?_⟩
  · obtain ⟨g, hg, htold⟩ := List.any_eq_true.mp hmade
    exact ⟨g, hg, by simpa using htold⟩
  · intro last
    have hidle : (returned.passBy (.short (fun _ => 0) 2) [1] [] {}).executor.queued = [] := by
      decide +kernel
    have hfar : ∀ k ∈ (returned.passBy (.short (fun _ => 0) 2) [1] [] {}).forward.index.keys,
        k.2.1 ≠ 0 := by
      decide +kernel
    have hlast : last = returned.passBy (.short (fun _ => 0) 2) [1] [] {} :=
      passBy_fixed (by decide) hidle
    rw [hlast]
    exact ⟨hidle, fun d1 d2 hk => hfar _ (Index.mem_keys hk) rfl⟩

end Analysis
end LeakTrace
