import LeakTrace.Code.Packages
import LeakTrace.Fact.Derive
import LeakTrace.Graph.View
import LeakTrace.Index
import LeakTrace.Models
import LeakTrace.Oracle
import LeakTrace.PointsTo
import Std.Data.HashMap

/-!
# What tracking taints reads and writes

`Env` is everything a flow function may consult and never changes during a run. `World` is what a
run accumulates beside the tables of the solvers: identities, known paths, results, neighbours of
facts, and the small registries of the rules. `Track` is the monad of both.

**Flow functions do not touch a solver.** What they want to add to one they put into the outbox, and
whoever evaluates them delivers it; so the order of work stays with the engine.
-/

namespace LeakTrace

/-- The two solvers: taints along the control flow, aliases against it. -/
inductive Side where
  | forward
  | backward
deriving DecidableEq, Hashable, Repr, Inhabited

inductive Message where
  /-- Add an edge to a solver: the fact `d2` holds at a statement if `d1` held at the start of its
  method. -/
  | edge (side : Side) (d1 : Fact) (stmt : StmtId) (d2 : Fact)
  /-- Stop both solvers: no more results are wanted. -/
  | abort

/-- Everything that stays the same during a run. -/
structure Env where
  config : Config := {}
  graph : Graph
  oracle : Oracle := {}
  /-- Summaries of library methods, if any are used. -/
  models : Option Models := none
  /-- Signatures of calls whose result shares its contents with the receiver. -/
  sharing : List String := []
  /-- Copies of arrays by the runtime are understood. -/
  native : Bool := true
  pointsTo : PointsTo := .byType
  sources : List StmtId := []
  sinks : List StmtId := []
  zero : Fact := .zero 0
  hasForward : Bool := true
  hasBackward : Bool := true
  /-- How many results are welcome, if not all. -/
  resultLimit : Option Nat := none

namespace Env
variable (e : Env)

def program (e : Env) : Program := e.graph.program

def hierarchy (e : Env) : Hierarchy := e.program.hierarchy

def casts : Casts := ⟨e.hierarchy, e.config.typeChecking⟩

def pathRules : PathRules := ⟨e.config.path, e.casts⟩

def stmt (e : Env) (s : StmtId) : Stmt := e.program.stmt s

def method (e : Env) (m : MethodId) : Method := e.program.method m

def isSource (s : StmtId) : Bool := e.sources.contains s

def isSink (s : StmtId) : Bool := e.sinks.contains s

/-- Says nothing: the fact that holds everywhere. -/
def isZero (f : Fact) : Bool := f.same e.zero

/-- Only says that a conditional on tainted data was entered. -/
def isConditional (f : Fact) : Bool := f.path.isEmpty && !e.isZero f

/-- Methods that are not entered. -/
def isExcluded (m : MethodId) : Bool :=
  let m := e.method m
  (e.config.excludeLibrary && e.hierarchy.isLibrary m.owner) ||
    (e.config.ignoreSystemPackages && isSystemClass m.owner) || (!m.isNative && !m.hasBody)

end Env

structure SinkHit where
  definition : Definition
  fact : Fact
  stmt : StmtId

def SinkHit.same (a b : SinkHit) : Bool :=
  a.definition == b.definition && a.stmt == b.stmt && a.fact.same b.fact

def SinkHit.text (h : SinkHit) : String := h.fact.path.text ++ " at " ++ StmtId.text h.stmt

/-- Call sites through which aliases with one activation statement were passed, and the methods that
hold them. -/
structure Activations where
  calls : List StmtId := []
  methods : List MethodId := []
deriving Inhabited

structure RuleMemory where
  sinksClosed : Bool := false
  /-- Calls entered with a conditional fact, with the context. -/
  conditionalCalls : List (StmtId × Taint) := []
deriving Inhabited

/-- What a run accumulates beside the tables of the solvers. -/
structure World where
  nextId : Nat := 1
  paths : PathStore := {}
  results : List SinkHit := []
  /-- How many results were reported, repeated ones included. -/
  reported : Nat := 0
  /-- Facts that reached the place of a fact another way, by identity. -/
  neighbors : Index Nat (List Fact) := ∅
  /-- Tainted static fields that hold everywhere. -/
  globals : FactSet := []
  /-- Activation registry, by activation statement. -/
  activations : Std.HashMap StmtId Activations := ∅
  /-- Alias searches by points-to sets that were made: method, taint and context. -/
  searched : Std.HashSet (MethodId × Taint × Taint) := ∅
  aborted : Bool := false
  rules : RuleMemory := {}
  /-- Messages to the solvers, last first. -/
  outbox : List Message := []
deriving Inhabited

abbrev Track := ReaderT Env (StateM World)

def World.neighborsOf (w : World) (f : Fact) : List Fact := w.neighbors[f.id]?.getD []

/-- Adds a fact that reached the place of `f` another way. With `merge` one with the history of a
neighbour that is there already is refused. -/
def World.addNeighbor (w : World) (f other : Fact) (merge : Bool) : Bool × World :=
  let old := w.neighborsOf f
  let samePred (a b : Fact) : Bool := match a.pred, b.pred with
    | some p, some q => p.is q
    | none, none => true
    | _, _ => false
  let known := old.any fun n =>
    n.is other || (merge && samePred n other && n.stmt == other.stmt && n.call == other.call)
  if f.is other || known then (false, w)
  else (true, { w with neighbors := w.neighbors.insert f.id (old ++ [other]) })

namespace Track

/-! ## Identities and paths -/

def fresh : Track Nat := modifyGet fun w => (w.nextId, { w with nextId := w.nextId + 1 })

def paths {α : Type} (act : Paths α) : Track α := modifyGet fun w =>
  let (a, s) := act.run w.paths
  (a, { w with paths := s })

def derive (f : Fact) (a : Option AccessPath) (stmt : Option StmtId) : Track (Option Fact) := do
  return f.deriveAs? (← fresh) a stmt f.implicit

def deriveAt (f : Fact) (stmt : StmtId) : Track (Option Fact) :=
  derive f (some f.accessPath) (some stmt)

/-! ## Messages -/

def send (m : Message) : Track Unit := modify fun w => { w with outbox := m :: w.outbox }

/-- Adds an edge to a solver, if there is such a solver. -/
def sendEdge (side : Side) (d1 : Fact) (stmt : StmtId) (d2 : Fact) : Track Unit := do
  let e ← read
  let present := match side with
    | .forward => e.hasForward
    | .backward => e.hasBackward
  if present then send (.edge side d1 stmt d2)

def requestAbort : Track Unit := do
  if !(← get).aborted then
    modify fun w => { w with aborted := true }
    send .abort

/-! ## Sources and results -/

/-- What a statement taints, if it was found to be a source. -/
def sourceInfo (s : StmtId) : Track (Option SourceInfo) := do
  let e ← read
  if e.isSource s then paths (e.oracle.source? e.program (e.stmt s)) else return none

def sinkInfo (s : Stmt) (path : Option Path) : Track (Option Definition) := do
  let e ← read
  return e.oracle.sink? e.program s path

/-- Records a fact at a sink. A fact that says the same there becomes a neighbour of the stored one.
The answer is whether more results are welcome. -/
def addResult (definition : Definition) (f : Fact) (stmt : StmtId) : Track Bool := do
  let e ← read
  if e.config.ignoreSystemPackages && isSystemClass (e.program.methodOf stmt).owner then
    return true
  let some g := f.derive? (← fresh) (some f.accessPath) (some stmt) f.implicit | return true
  let hit : SinkHit := ⟨definition, { g with call := some stmt }, stmt⟩
  modify fun w =>
    match w.results.find? hit.same with
    | some old => (w.addNeighbor old.fact hit.fact false).2
    | none => { w with results := w.results ++ [hit] }
  modify fun w => { w with reported := w.reported + 1 }
  let reported := (← get).reported
  let more := match e.resultLimit with
    | some n => reported < n
    | none => true
  if !more then requestAbort
  return more

/-! ## Static fields that hold everywhere -/

/-- Statements of reachable methods that read a static field. -/
def readers (e : Env) (f : Field) : List StmtId :=
  e.graph.reachable.flatMap fun m =>
    if (e.method m).isConcrete then
      (e.method m).body.filter fun s => (e.stmt s).uses.any fun
        | .global g => g == f
        | _ => false
    else []

/-- A static field is tainted everywhere: the fact goes to every statement that reads it. -/
def addGlobal (f : Fact) : Track Bool := do
  let e ← read
  if (← get).globals.contains f then return false
  modify fun w => { w with globals := w.globals.insert f }
  match f.path.firstField? with
  | none => return true
  | some field =>
    for s in readers e field do
      sendEdge .forward e.zero s f
      sendEdge .backward e.zero s f
    return true

/-! ## Activation of aliases -/

/-- A call hands aliases with the given activation statement back to its caller. -/
def isActivating (call : StmtId) (unit : Option StmtId) : Track Bool := do
  let e ← read
  match unit with
  | some u =>
    if e.config.defersActivation then
      return (((← get).activations[u]?).map (·.calls.contains call)).getD false
    else return false
  | none => return false

def registerActivation (call : StmtId) (callee : MethodId) (f : Fact) : Track Bool := do
  let e ← read
  match f.waitsFor with
  | some u =>
    if !e.config.defersActivation then return false
    let old := ((← get).activations[u]?).getD {}
    if old.calls.contains call then return false
    if e.graph.methodOf u != callee && !old.methods.contains callee then return false
    let new : Activations :=
      ⟨old.calls ++ [call], old.methods ++ [e.graph.methodOf call]⟩
    modify fun w => { w with activations := w.activations.insert u new }
    return true
  | none => return false

end Track
end LeakTrace
