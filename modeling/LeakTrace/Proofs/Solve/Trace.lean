import LeakTrace.Proofs.Solve.Runs

/-!
# Which edges work hands to which

A task hands facts on to other edges, and often nothing is left to see of it: the edge was known,
with this very fact. To speak about what one edge gave to another, the functions of the engine are
written down once more, with a list of the edges that were propagated.

**The list changes nothing.** `erases_process` says that without it these functions are those of the
engine, so whatever the list shows happened in the engine too.
-/

namespace LeakTrace

/-- Work that lists the edges it propagates, last first. -/
abbrev Traced := StateT (List (Side × Edge)) Work

namespace Traced

def propagate (side : Side) (e : Edge) (call : Option StmtId) : Traced Unit := do
  modify ((side, e) :: ·)
  liftM (Work.propagate side e call)

def propagateAll (side : Side) (d1 : Fact) (s : StmtId) (input : Fact) (call : Option StmtId)
    (facts : FactSet) : Traced Unit :=
  facts.forM fun f => propagate side ⟨d1, s, f.stored input⟩ call

def applySummaries (side : Side) (d1 : Fact) (call : StmtId) (callee : MethodId) (d3 : Fact) :
    Traced Unit := do
  let setup ← liftM (read : Work Setup)
  let m ← liftM (get : Work Machine)
  ((m.table side).summariesOf callee d3).forM fun (exit, f) =>
    ((setup.problem side).view.succs call).forM fun site => do
      let facts ← liftM (Work.returnFlow side (some call) callee exit (some site) f d3 [d1])
      propagateAll side d1 site f (some call) facts

def enter (side : Side) (callee : MethodId) (d3 : Fact) (call : StmtId) (d1 : Fact) :
    Traced Unit := do
  let m ← liftM (get : Work Machine)
  if (m.table side).isEntered callee d3 call d1 then return
  liftM (modify fun m => m.modifyTable side fun t => t.addIncoming callee d3 call d1 : Work Unit)
  applySummaries side d1 call callee d3

def callFlow (side : Side) (d1 f : Fact) (call : StmtId) (callee : MethodId) : Traced FactSet := do
  let setup ← liftM (read : Work Setup)
  let flow ← liftM (Work.evaluate .call f ((setup.problem side).call d1 f call callee))
  flow.contexts.forM fun c => enter c.side c.callee c.entry c.call c.d1
  return flow.facts

def processCallee (side : Side) (e : Edge) (callee : MethodId) : Traced Unit := do
  let setup ← liftM (read : Work Setup)
  if !(setup.env.method callee).isConcrete then return
  let facts ← callFlow side e.d1 e.d2 e.stmt callee
  facts.forM fun f => do
    ((setup.problem side).view.starts callee).forM fun s =>
      propagate side ⟨f.stored e.d2, s, f.stored e.d2⟩ (some e.stmt)
    enter side callee (f.stored e.d2) e.stmt e.d1

def processCall (side : Side) (e : Edge) : Traced Unit := do
  let setup ← liftM (read : Work Setup)
  let callees := setup.env.graph.calleesOf e.stmt
  if setup.env.config.solver.maxCallees.all fun n => callees.length ≤ n then
    callees.forM (processCallee side e)
  ((setup.problem side).view.succs e.stmt).forM fun site => do
    let flow ← liftM (Work.evaluate .callToReturn e.d2
      ((setup.problem side).callToReturn e.d1 e.d2 e.stmt site))
    propagateAll side e.d1 site e.d2 (some e.stmt) flow.facts

def returnTo (side : Side) (m : MethodId) (e : Edge) (call : StmtId) (contexts : List Fact) :
    Traced Unit := do
  let setup ← liftM (read : Work Setup)
  ((setup.problem side).view.succs call).forM fun site => do
    let facts ← liftM (Work.returnFlow side (some call) m e.stmt (some site) e.d2 e.d1 contexts)
    contexts.forM fun d4 => propagateAll side d4 site e.d2 (some call) facts

def processExit (side : Side) (e : Edge) : Traced Unit := do
  let setup ← liftM (read : Work Setup)
  let m := setup.env.graph.methodOf e.stmt
  let new ← liftM (Work.addSummary side m e)
  if !new then return
  let machine ← liftM (get : Work Machine)
  let callers := (machine.table side).callersOf m e.d1
  callers.forM fun (call, contexts) => returnTo side m e call contexts
  if setup.env.config.solver.followReturnsPastSeeds && e.d1.is setup.env.zero &&
      callers.isEmpty then
    let calls := setup.env.graph.callersOf m
    calls.forM fun call => returnTo side m e call [setup.env.zero]
    if calls.isEmpty then
      let _ ← liftM (Work.returnFlow side none m e.stmt none e.d2 e.d1 [])

def processNormal (side : Side) (e : Edge) : Traced Unit := do
  let setup ← liftM (read : Work Setup)
  ((setup.problem side).view.succs e.stmt).forM fun t => do
    let flow ← liftM (Work.evaluate .normal e.d2 ((setup.problem side).normal e.d1 e.d2 e.stmt t))
    propagateAll side e.d1 t e.d2 none flow.facts

def process (side : Side) (e : Edge) : Traced Unit := do
  let setup ← liftM (read : Work Setup)
  liftM (modify fun m => m.modifyTable side fun t => { t with processed := t.processed + 1 } :
    Work Unit)
  if setup.env.graph.isCall e.stmt then processCall side e
  else
    if (setup.problem side).view.isExit e.stmt then processExit side e
    processNormal side e

/-! ## Without the list -/

variable {α β : Type} {side : Side} {e : Edge} {d1 d3 f : Fact} {n call : StmtId} {callee : MethodId}

/-- Without its list, the first does what the second does. -/
def Erases (x : Traced α) (y : Work α) : Prop := ∀ log, Prod.fst <$> x.run log = y

theorem Erases.pure (a : α) : Erases (pure a) (pure a) := by
  intro log
  simp

theorem Erases.bind {x : Traced α} {y : Work α} {f : α → Traced β} {g : α → Work β}
    (h : Erases x y) (hf : ∀ a, Erases (f a) (g a)) : Erases (x >>= f) (y >>= g) := by
  intro log
  rw [← h log]
  simp only [StateT.run_bind, map_bind, bind_map_left]
  exact bind_congr fun p => hf p.1 p.2

theorem Erases.lift_bind {y : Work α} {f : α → Traced β} {g : α → Work β}
    (hf : ∀ a, Erases (f a) (g a)) : Erases (liftM y >>= f) (y >>= g) :=
  .bind (fun log => by simp [liftM, monadLift, MonadLift.monadLift]) hf

theorem Erases.ite {c : Prop} [Decidable c] {x x' : Traced α} {y y' : Work α} (h : Erases x y)
    (h' : Erases x' y') : Erases (if c then x else x') (if c then y else y') := by
  split
  · exact h
  · exact h'

theorem Erases.forM {l : List β} {f : β → Traced PUnit} {g : β → Work PUnit}
    (h : ∀ x, Erases (f x) (g x)) : Erases (l.forM f) (l.forM g) := by
  induction l with
  | nil => exact .pure _
  | cons x rest ih => exact (h x).bind fun _ => ih

theorem erases_propagate {call : Option StmtId} :
    Erases (propagate side e call) (Work.propagate side e call) := by
  intro log
  simp [propagate, liftM, monadLift, MonadLift.monadLift]

theorem erases_propagateAll {call : Option StmtId} {facts : FactSet} :
    Erases (propagateAll side d1 n f call facts) (Work.propagateAll side d1 n f call facts) :=
  .forM fun _ => erases_propagate

theorem erases_enter :
    Erases (enter side callee d3 call d1) (Work.enter side callee d3 call d1) := by
  refine .lift_bind fun _ => .ite (.pure _) <| .lift_bind fun _ => ?_
  -- What left the callee before comes back.
  exact .lift_bind fun _ => .lift_bind fun _ => .forM fun _ => .forM fun _ =>
    .lift_bind fun _ => erases_propagateAll

theorem erases_processCallee :
    Erases (processCallee side e callee) (Work.processCallee side e callee) := by
  have hflow : Erases (callFlow side e.d1 e.d2 e.stmt callee)
      (Work.callFlow side e.d1 e.d2 e.stmt callee) :=
    .lift_bind fun _ => .lift_bind fun _ => (Erases.forM fun _ => erases_enter).bind fun _ => .pure _
  refine .lift_bind fun _ => .ite (.pure _) <| hflow.bind fun _ => .forM fun _ => ?_
  exact (Erases.forM fun _ => erases_propagate).bind fun _ => erases_enter

theorem erases_processCall : Erases (processCall side e) (Work.processCall side e) := by
  refine .lift_bind fun _ => .ite ((Erases.forM fun _ => erases_processCallee).bind fun _ => ?_) ?_
  all_goals exact .forM fun _ => .lift_bind fun _ => erases_propagateAll

theorem erases_returnTo {contexts : List Fact} :
    Erases (returnTo side callee e call contexts) (Work.returnTo side callee e call contexts) :=
  .lift_bind fun _ => .forM fun _ => .lift_bind fun _ => .forM fun _ => erases_propagateAll

theorem erases_processExit : Erases (processExit side e) (Work.processExit side e) := by
  refine .lift_bind fun _ => .lift_bind fun _ => .ite (.pure _) <| .lift_bind fun _ => ?_
  refine (Erases.forM fun _ => erases_returnTo).bind fun _ => .ite ?_ (.pure _)
  refine (Erases.forM fun _ => erases_returnTo).bind fun _ => .ite ?_ (.pure _)
  exact .lift_bind fun _ => .pure _

theorem erases_process : Erases (process side e) (Work.process side e) := by
  have hnormal : Erases (processNormal side e) (Work.processNormal side e) :=
    .lift_bind fun _ => .forM fun _ => .lift_bind fun _ => erases_propagateAll
  refine .lift_bind fun _ => .lift_bind fun _ => .ite erases_processCall ?_
  exact .ite (erases_processExit.bind fun _ => hnormal) hnormal

end Traced

/-! ## What the list shows -/

namespace Machine
variable {α β : Type} {s : Setup} {m : Machine} {log : List (Side × Edge)} {side : Side} {e : Edge}

/-- The edges to which work on the given one propagates. -/
def handed (m : Machine) (s : Setup) (side : Side) (e : Edge) : List (Side × Edge) :=
  match m.run s ((Traced.process side e).run []) with
  | (.ok p, _) => p.2
  | (.error _, _) => []

/-- Run on the machine, the action ends without a fault, in a value, a list and a machine as `Q`
wants. -/
def Tells (m : Machine) (s : Setup) (x : Traced α) (log : List (Side × Edge))
    (Q : α → List (Side × Edge) → Machine → Prop) : Prop :=
  m.Ends s (x.run log) fun p m' => Q p.1 p.2 m'

variable {Q : α → List (Side × Edge) → Machine → Prop}

@[simp]
theorem tells_pure {a : α} : m.Tells s (pure a) log Q ↔ Q a log m := by
  unfold Tells
  rw [StateT.run_pure, ends_pure]

@[simp]
theorem tells_bind {x : Traced β} {f : β → Traced α} :
    m.Tells s (x >>= f) log Q ↔ m.Tells s x log fun b log' m' => m'.Tells s (f b) log' Q := by
  unfold Tells
  rw [StateT.run_bind, ends_bind]

@[simp]
theorem tells_lift {y : Work α} :
    m.Tells s (liftM y) log Q ↔ m.Ends s y fun a m' => Q a log m' := by
  have hrun : (liftM y : Traced α).run log = y >>= fun a => pure (a, log) := rfl
  unfold Tells
  rw [hrun, ends_bind]
  simp only [ends_pure]

@[simp]
theorem tells_propagate {call : Option StmtId} {Q : Unit → List (Side × Edge) → Machine → Prop} :
    m.Tells s (Traced.propagate side e call) log Q ↔
      m.Ends s (Work.propagate side e call) fun _ m' => Q () ((side, e) :: log) m' := by
  have hrun : (Traced.propagate side e call).run log =
      Work.propagate side e call >>= fun a => pure (a, (side, e) :: log) := rfl
  unfold Tells
  rw [hrun, ends_bind]
  simp only [ends_pure]

theorem Tells.mono {x : Traced α} {P : α → List (Side × Edge) → Machine → Prop}
    (h : m.Tells s x log P) (hpq : ∀ a log' m', P a log' m' → Q a log' m') : m.Tells s x log Q :=
  Ends.mono h fun p m' => hpq p.1 p.2 m'

/-- A loop over a list keeps what its rounds keep, and achieves for every item what a round achieves
for its own and later rounds do not undo. -/
theorem tells_forM {l : List β} {f : β → Traced PUnit} {P : List (Side × Edge) → Machine → Prop}
    {R : Machine → Machine → Prop} {Q : β → Machine → Prop} (hrefl : ∀ m, R m m)
    (htrans : ∀ {a b c}, R a b → R b c → R a c) (hstable : ∀ {x a b}, Q x a → R a b → Q x b)
    (hround : ∀ x ∈ l, ∀ log a, P log a → R m a →
      a.Tells s (f x) log fun _ log' b => P log' b ∧ R a b ∧ Q x b)
    (hp : P log m) :
    m.Tells s (l.forM f) log fun _ log' m' => P log' m' ∧ R m m' ∧ ∀ x ∈ l, Q x m' := by
  induction l generalizing m log with
  | nil => exact tells_pure.mpr ⟨hp, hrefl m, by simp⟩
  | cons x rest ih =>
    refine tells_bind.mpr ?_
    refine (hround x List.mem_cons_self log m hp (hrefl m)).mono
      fun _ log1 a ⟨hpa, hma, hxa⟩ => ?_
    refine (ih (fun y hy log2 b hb hab => ?_) hpa).mono fun _ log2 b ⟨hpb, hab, hrest⟩ => ?_
    · exact hround y (List.mem_cons_of_mem x hy) log2 b hb (htrans hma hab)
    · refine ⟨hpb, htrans hma hab, fun y hy => ?_⟩
      rcases List.mem_cons.mp hy with rfl | hy
      · exact hstable hxa hab
      · exact hrest y hy

theorem Tells.ends {x : Traced α} {y : Work α} {P : α → Machine → Prop} (hxy : x.Erases y)
    (h : m.Tells s x log fun a _ m' => P a m') : m.Ends s y P := by
  obtain ⟨p, m', hrun, hp⟩ := h
  refine ⟨p.1, m', ?_, hp⟩
  rw [← hxy log, map_eq_pure_bind, run_bind, hrun]
  rfl

theorem Tells.process {Q : Unit → List (Side × Edge) → Machine → Prop}
    (h : m.Tells s (Traced.process side e) [] Q) :
    ∃ m', m.run s (Work.process side e) = (.ok (), m') ∧ Q () (m.handed s side e) m' := by
  obtain ⟨p, m', hrun, hq⟩ := h
  have hlist : m.handed s side e = p.2 := by
    unfold handed
    rw [hrun]
  have hends : m.Ends s (Work.process side e) fun _ m' => Q () (m.handed s side e) m' :=
    Tells.ends Traced.erases_process ⟨p, m', hrun, hlist ▸ hq⟩
  obtain ⟨_, m', hrun, hq⟩ := hends
  exact ⟨m', hrun, hq⟩

end Machine
end LeakTrace
