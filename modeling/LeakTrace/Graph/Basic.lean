import LeakTrace.Graph.Calls
import LeakTrace.Graph.Postdom

/-!
# The interprocedural control-flow graph

The graph of a whole program: statements with their successors and predecessors, calls with their
targets, and what each method reads and writes. `Graph.ofProgram` computes all of it once; the
queries afterwards only look things up, but for the two that follow the call graph
(`readsStatic`, `writesStatic`).
-/

namespace LeakTrace

/-- A place that ends the influence of a branch. -/
inductive Join where
  /-- The statement where all ways meet again. -/
  | stmt (s : StmtId)
  /-- The ways only meet when the method returns. -/
  | exit (m : MethodId)
  | nowhere
deriving DecidableEq, Hashable, Repr, Inhabited

namespace Join

def stmt? : Join → Option StmtId
  | .stmt s => some s
  | _ => none

def method? : Join → Option MethodId
  | .exit m => some m
  | _ => none

def text : Join → String
  | .stmt s => StmtId.text s
  | .exit m => "exit(m" ++ toString m ++ ")"
  | .nowhere => "<none>"

end Join

structure Touched where
  /-- The receiver, and the arguments that the body mentions. -/
  reads : List Local := []
  writes : List Local := []
  staticReads : List Field := []
  staticWrites : List Field := []
deriving Repr, Inhabited

/-- What a method touches directly; arguments and receiver count only where a body can be
analysed. -/
def Program.touched (p : Program) (m : Method) : Touched where
  reads :=
    if m.isConcrete then
      (m.body.flatMap fun s => (p.stmt s).uses.filterMap fun
        | .var l => if m.params.contains l then some l else none
        | _ => none) ++ m.self.toList
    else []
  writes := m.body.filterMap fun s =>
    match (p.stmt s).action with
    | .assign (.var l) _ => some l
    | _ => none
  staticReads := m.body.flatMap fun s => (p.stmt s).uses.filterMap fun
    | .global f => some f
    | _ => none
  staticWrites := m.body.filterMap fun s =>
    match (p.stmt s).action with
    | .assign (.global f) _ => some f
    | _ => none

structure Graph where
  program : Program
  exits : Array Exits
  preds : Array (List StmtId)
  postdoms : Array (Option StmtId)
  callees : Array (List MethodId)
  callers : Array (List StmtId)
  touched : Array Touched
  reachable : List MethodId
deriving Inhabited

namespace Graph
variable (g : Graph)

/-! ## Construction -/

def addCall (calls : Array (List MethodId) × Array (List StmtId)) (edge : StmtId × MethodId) :
    Array (List MethodId) × Array (List StmtId) :=
  let (s, m) := edge
  if (calls.1[s]?.getD []).contains m then calls
  else (calls.1.modify s (· ++ [m]), calls.2.modify m (· ++ [s]))

def callsIn (p : Program) (m : Method) : List StmtId := m.body.filter fun s => (p.stmt s).isCall

/-- Methods that control can reach from the entry points; without entry points every method with a
body counts. -/
def reachableFrom (p : Program) (callees : Array (List MethodId)) : List MethodId :=
  if p.entries.isEmpty then
    (p.methods.filter (·.isConcrete)).toList.map (·.id)
  else
    closure (fun m => (callsIn p (p.method m)).flatMap fun s => callees[s]?.getD [])
      (p.methods.size + p.entries.length) p.entries

/-- The graph of a program, with call edges that the hierarchy does not show in `extra`. -/
def ofProgram (p : Program) (extra : List (StmtId × MethodId)) : Graph :=
  let n := p.stmts.size
  let methods := p.methods.toList
  let exits := (methods.flatMap p.exits).foldl (fun a (s, e) => a.setIfInBounds s e)
    (Array.replicate n ⟨[], []⟩)
  let preds := (methods.flatMap p.exits).foldl
    (fun a (s, e) => e.all.foldl (fun a t => a.modify t (· ++ [s])) a) (Array.replicate n [])
  let postdoms := (methods.flatMap p.postdominators).foldl (fun a (s, d) => a.setIfInBounds s d)
    (Array.replicate n none)
  let edges := p.stmts.toList.flatMap fun s =>
    match s.call? with
    | some c => (p.targets c).map fun m => (s.id, m)
    | none => []
  let (callees, callers) := (edges ++ extra).foldl addCall
    (Array.replicate n [], Array.replicate p.methods.size [])
  { program := p, exits, preds, postdoms, callees, callers
    touched := p.methods.map p.touched
    reachable := reachableFrom p callees }

/-! ## Queries -/

def stmt (g : Graph) (s : StmtId) : Stmt := g.program.stmt s

def method (g : Graph) (m : MethodId) : Method := g.program.method m

def methodOf (s : StmtId) : MethodId := (g.stmt s).method

def isCall (g : Graph) (s : StmtId) : Bool := (g.stmt s).isCall

def isReflective (g : Graph) (s : StmtId) : Bool :=
  ((g.stmt s).call?.map (·.isReflective)).getD false

def calleesOf (s : StmtId) : List MethodId := g.callees[s]?.getD []

def callersOf (m : MethodId) : List StmtId := g.callers[m]?.getD []

def callsWithin (m : MethodId) : List StmtId := callsIn g.program (g.method m)

def exitsOf (s : StmtId) : Exits := g.exits[s]?.getD ⟨[], []⟩

def joinOf (s : StmtId) : Join :=
  match g.postdoms[s]?.getD none with
  | some d => .stmt d
  | none => .exit (g.methodOf s)

def touchedBy (m : MethodId) : Touched := g.touched[m]?.getD {}

/-- The local is an argument or receiver that the method reads. -/
def reads (g : Graph) (m : MethodId) (l : Local) : Bool := (g.touchedBy m).reads.contains l

def writes (g : Graph) (m : MethodId) (l : Local) : Bool := (g.touchedBy m).writes.contains l

/-- The method and everything it calls, directly or not; methods without an analysable body are
entered but not followed. -/
def calledFrom (m : MethodId) : List MethodId :=
  closure (fun m => if (g.method m).isConcrete then (g.callsWithin m).flatMap g.calleesOf else [])
    (g.program.methods.size + 1) [m]

def readsStatic (m : MethodId) (f : Field) : Bool :=
  (g.calledFrom m).any fun k => (g.method k).isConcrete && (g.touchedBy k).staticReads.contains f

def writesStatic (m : MethodId) (f : Field) : Bool :=
  (g.calledFrom m).any fun k => (g.method k).isConcrete && (g.touchedBy k).staticWrites.contains f

end Graph
end LeakTrace
