import LeakTrace.Lifecycle.Executor
import LeakTrace.Solve.Table

/-!
# Two solvers that share their work

Every new path edge becomes a task. A task looks at one statement: at a call it enters the callees
and passes by, at an exit it goes back to every caller, anywhere else it goes on to the successors.
The two solvers feed each other, by messages from flow functions and by contexts at calls, and share
one executor; the run is over when nothing waits.

**The order of tasks is a parameter.** `Machine.step` takes the number of the waiting task to run.

Observers may watch: record what flow functions see, drop what comes out at a statement, fail a
task, or cancel the run.
-/

namespace LeakTrace

structure Task where
  side : Side
  edge : Edge

structure Watch where
  /-- Nothing comes out of flow functions at these statements. -/
  killAt : List StmtId := []
  /-- A task that sees this statement fails with the text. -/
  failAt : Option (StmtId × String) := none
  cancelAt : Option StmtId := none

structure Setup where
  env : Env
  problem : Side → Problem
  watch : Watch := {}

def Setup.ofEnv (env : Env) (watch : Watch) : Setup := ⟨env, Problem.ofSide env.graph, watch⟩

def Setup.sides (s : Setup) : List Side :=
  (if s.env.hasForward then [.forward] else []) ++ (if s.env.hasBackward then [.backward] else [])

structure Machine where
  world : World := {}
  forward : Table := {}
  backward : Table := {}
  executor : Executor Task := {}
  cancelled : Bool := false
  seen : Std.HashSet (FlowKind × StmtId × Taint) := ∅
deriving Inhabited

/-- Work on a machine. It can fail, and leaves behind what it did up to there. -/
abbrev Work := ReaderT Setup (ExceptT String (StateM Machine))

namespace Machine

def table (m : Machine) : Side → Table
  | .forward => m.forward
  | .backward => m.backward

def modifyTable (m : Machine) (side : Side) (f : Table → Table) : Machine :=
  match side with
  | .forward => { m with forward := f m.forward }
  | .backward => { m with backward := f m.backward }

def stop (m : Machine) (sides : List Side) (r : StopReason) : Machine :=
  let m := sides.foldl (fun m side => m.modifyTable side (·.stop r)) m
  if sides.isEmpty then m else { m with executor := m.executor.interrupt }

/-- Cancels the run; only the first time does something. -/
def cancel (m : Machine) (sides : List Side) : Machine :=
  if m.cancelled then m else { m.stop sides .cancelled with cancelled := true }

/-- Runs an action on the machine; a failure is handed back. -/
def run {α : Type} (m : Machine) (s : Setup) (act : Work α) : Except String α × Machine :=
  (ExceptT.run (ReaderT.run act s)).run m

end Machine

namespace Work
variable (side : Side)

/-! ## Edges -/

def schedule (e : Edge) : Work Unit :=
  modify fun m =>
    if m.executor.interrupted then m
    else
      { m.modifyTable side fun t => { t with scheduled := t.scheduled + 1 } with
        executor := m.executor.execute ⟨side, e⟩ }

/-- Adds the fact of an edge that is known to the neighbours of the stored fact. -/
def join (stored other : Fact) (call : Option StmtId) : Work Unit := do
  let solver := (← read).env.config.solver
  modify fun m =>
    let free := solver.maxJoin.all fun n => (m.world.neighborsOf stored).length < n
    if stored.is other || !(isEssentialJoin call || free) then m
    else
      let (added, world) := m.world.addNeighbor stored other solver.mergeNeighbors
      let m := { m with world }
      if added then m.modifyTable side fun t => { t with joined := t.joined + 1 } else m

/-- Adds an edge: a new one is recorded and worked on, one that is known only gets a neighbour. An
edge whose fact has too long a history is dropped. The edge comes from the call, if one is given. -/
def propagate (e : Edge) (call : Option StmtId) : Work Unit := do
  let solver := (← read).env.config.solver
  if solver.maxPathLength.any fun n => e.d2.length > n then return
  match ((← get).table side).find? e with
  | some stored => join side stored e.d2 call
  | none =>
    modify fun m => m.modifyTable side fun t => t.record e
    schedule side e

def addEdge (e : Edge) : Work Unit := do
  modify fun m => m.modifyTable side fun t => { t with running := true }
  propagate side e none

/-! ## Flow functions -/

def deliver (m : Message) : Work Unit := do
  match m with
  | .edge side d1 stmt d2 => addEdge side ⟨d1, stmt, d2⟩
  | .abort =>
    let sides := (← read).sides
    modify fun m => m.stop sides .abortRequested

def deliverAll : Work Unit := do
  let messages := (← get).world.outbox.reverse
  modify fun m => { m with world := { m.world with outbox := [] } }
  messages.forM deliver

/-- Runs an action on the world and does what it asks for. -/
def track {α : Type} (act : Track α) : Work α := do
  let env := (← read).env
  let a ← modifyGet fun m =>
    let (a, world) := (act.run env).run m.world
    (a, { m with world })
  deliverAll
  return a

def observe (kind : FlowKind) (f : Fact) (s : StmtId) : Work Unit := do
  let setup ← read
  modify fun m => { m with seen := m.seen.insert (kind, s, f.toTaint) }
  match setup.watch.failAt with
  | some (t, message) => if s == t then throw message
  | none => pure ()
  if setup.watch.cancelAt == some s then modify fun m => m.cancel setup.sides

/-- Evaluates a flow function. Observers see the fact before anything has happened, so a task that
they fail leaves the world as it was. -/
def evaluate (kind : FlowKind) (f : Fact) (act : Track Flow) : Work Flow := do
  let setup ← read
  let (flow, world) := (act.run setup.env).run (← get).world
  match flow.seenAt with
  | some s => observe kind f s
  | none => pure ()
  modify fun m => { m with world }
  deliverAll
  let killed := flow.leftAt.any setup.watch.killAt.contains
  return if killed then { flow with facts := [] } else flow

def propagateAll (d1 : Fact) (s : StmtId) (input : Fact) (call : Option StmtId)
    (facts : FactSet) : Work Unit :=
  facts.forM fun f => propagate side ⟨d1, s, f.stored input⟩ call

/-! ## Calls -/

/-- The flow out of a method through one exit to one return site. -/
def returnFlow (call : Option StmtId) (callee : MethodId) (exit : StmtId)
    (site : Option StmtId) (f calleeD1 : Fact) (contexts : List Fact) : Work FactSet := do
  let p := (← read).problem side
  return (← evaluate .ret f (p.ret call callee exit site f calleeD1 contexts)).facts

/-- A call enters a context that was left before: what left it comes back to the call. -/
def applySummaries (d1 : Fact) (call : StmtId) (callee : MethodId) (d3 : Fact) :
    Work Unit := do
  let view := ((← read).problem side).view
  let summaries := ((← get).table side).summariesOf callee d3
  summaries.forM fun (exit, f) =>
    (view.succs call).forM fun site => do
      let facts ← returnFlow side (some call) callee exit (some site) f d3 [d1]
      propagateAll side d1 site f (some call) facts

/-- Registers from where a context was entered; a new entry gets what is known about the context. -/
def enter (callee : MethodId) (d3 : Fact) (call : StmtId) (d1 : Fact) :
    Work Unit := do
  if ((← get).table side).isEntered callee d3 call d1 then return
  modify fun m => m.modifyTable side fun t => t.addIncoming callee d3 call d1
  applySummaries side d1 call callee d3

/-- Evaluates the flow into a method and tells the other solver about the contexts. -/
def callFlow (d1 f : Fact) (call : StmtId) (callee : MethodId) : Work FactSet := do
  let p := (← read).problem side
  let flow ← evaluate .call f (p.call d1 f call callee)
  flow.contexts.forM fun c => enter c.side c.callee c.entry c.call c.d1
  return flow.facts

def processCallee (e : Edge) (callee : MethodId) : Work Unit := do
  let setup ← read
  if !(setup.env.method callee).isConcrete then return
  let starts := (setup.problem side).view.starts callee
  let facts ← callFlow side e.d1 e.d2 e.stmt callee
  facts.forM fun f => do
    let d3 := f.stored e.d2
    starts.forM fun s => propagate side ⟨d3, s, d3⟩ (some e.stmt)
    enter side callee d3 e.stmt e.d1

/-- Works on a call: into the callees, unless there are too many, and past the call. -/
def processCall (e : Edge) : Work Unit := do
  let setup ← read
  let p := setup.problem side
  let callees := setup.env.graph.calleesOf e.stmt
  if setup.env.config.solver.maxCallees.all fun n => callees.length ≤ n then
    callees.forM (processCallee side e)
  (p.view.succs e.stmt).forM fun site => do
    let flow ← evaluate .callToReturn e.d2 (p.callToReturn e.d1 e.d2 e.stmt site)
    propagateAll side e.d1 site e.d2 (some e.stmt) flow.facts

/-! ## Exits -/

/-- Remembers that an exit is reached in a context; the answer is whether that is new. Facts rooted
in zero have no context. -/
def addSummary (side : Side) (m : MethodId) (e : Edge) : Work Bool := do
  let env := (← read).env
  if e.d1.is env.zero then return true
  match ((← get).table side).summary? m e.d1 e.stmt e.d2 with
  | some stored =>
    if !stored.is e.d2 then
      modify fun s =>
        { s with world := (s.world.addNeighbor stored e.d2 env.config.solver.mergeNeighbors).2 }
    return false
  | none =>
    modify fun s => s.modifyTable side fun t => t.addSummary m e.d1 e.stmt e.d2
    return true

/-- Returns to a call in all contexts of the caller. -/
def returnTo (m : MethodId) (e : Edge) (call : StmtId) (contexts : List Fact) :
    Work Unit := do
  let view := ((← read).problem side).view
  (view.succs call).forM fun site => do
    let facts ← returnFlow side (some call) m e.stmt (some site) e.d2 e.d1 contexts
    contexts.forM fun d4 => propagateAll side d4 site e.d2 (some call) facts

/-- Works on an exit: back to every known caller. A fact rooted in zero that nobody entered with
leaves to all callers, and where there are none it is still seen leaving. -/
def processExit (e : Edge) : Work Unit := do
  let env := (← read).env
  let m := env.graph.methodOf e.stmt
  if !(← addSummary side m e) then return
  let callers := ((← get).table side).callersOf m e.d1
  callers.forM fun (call, contexts) => returnTo side m e call contexts
  if env.config.solver.followReturnsPastSeeds && e.d1.is env.zero && callers.isEmpty then
    let calls := env.graph.callersOf m
    calls.forM fun call => returnTo side m e call [env.zero]
    if calls.isEmpty then
      let _ ← returnFlow side none m e.stmt none e.d2 e.d1 []

/-! ## Tasks -/

def processNormal (e : Edge) : Work Unit := do
  let p := (← read).problem side
  (p.view.succs e.stmt).forM fun t => do
    let flow ← evaluate .normal e.d2 (p.normal e.d1 e.d2 e.stmt t)
    propagateAll side e.d1 t e.d2 none flow.facts

def process (e : Edge) : Work Unit := do
  let setup ← read
  modify fun m => m.modifyTable side fun t => { t with processed := t.processed + 1 }
  if setup.env.graph.isCall e.stmt then processCall side e
  else
    if (setup.problem side).view.isExit e.stmt then processExit side e
    processNormal side e

def seed (seeds : List StmtId) : Work Unit := do
  let zero := (← read).env.zero
  modify fun m => m.modifyTable .forward fun t => { t with running := true }
  seeds.forM fun s => propagate .forward ⟨zero, s, zero⟩ none

end Work

namespace Machine

def step (s : Setup) (i : Nat) (m : Machine) : Machine :=
  let (task, executor) := m.executor.start i
  let m := { m with executor }
  match task with
  | none => m
  | some t =>
    match m.run s (Work.process t.side t.edge) with
    | (.ok (), m) => { m with executor := m.executor.finish 0 }
    | (.error message, m) => { m with executor := m.executor.fail 0 message }

/-- Runs tasks until none waits; `fuel` bounds their number. -/
def drain (s : Setup) : Nat → Machine → Machine
  | 0, m => m
  | n + 1, m => if m.executor.queued.isEmpty then m else drain s n (m.step s 0)

/-- More tasks than can be worked on in any reasonable time. -/
def fuel : Nat := Nat.pow 2 60

def solve (s : Setup) (seeds : List StmtId) (m : Machine) : Machine :=
  let m := (m.run s (Work.seed seeds)).2
  let m := m.drain s fuel
  m.modifyTable .forward fun t => { t with running := false }

end Machine
end LeakTrace
