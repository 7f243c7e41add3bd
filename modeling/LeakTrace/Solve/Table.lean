import LeakTrace.Flow.Backward
import LeakTrace.Flow.Forward
import LeakTrace.Lifecycle.Stop

/-!
# Problems and the tables of a solver

A problem is a direction through the graph with a flow function for each kind of edge. A solver
collects path edges: the fact `d2` holds at a statement whenever `d1` holds at the start of its
method. Beside them it keeps how a method can be left in a context (its summaries) and from where a
context was entered.

**Tables are indexed by what facts say.** Of facts that say the same the first is stored; the others
become its neighbours.
-/

namespace LeakTrace

structure Problem where
  view : View
  /-- Context, fact, statement and successor. -/
  normal : Fact → Fact → StmtId → StmtId → Track Flow
  call : Fact → Fact → StmtId → MethodId → Track Flow
  /-- Call, callee, exit, return site, fact, context of the callee and contexts of the caller. -/
  ret : Option StmtId → MethodId → StmtId → Option StmtId → Fact → Fact → List Fact → Track Flow
  callToReturn : Fact → Fact → StmtId → StmtId → Track Flow

namespace Problem

def forward (g : Graph) : Problem where
  view := g.forward
  normal := Forward.normal
  call := Forward.call
  ret := Forward.ret
  callToReturn d1 f s _ := Forward.callToReturn d1 f s

def backward (g : Graph) : Problem where
  view := g.backward
  normal := Backward.normal
  call := Backward.call
  ret call callee exit _ f calleeD1 _ := Backward.ret call callee exit calleeD1 f
  callToReturn d1 f s _ := Backward.callToReturn d1 f s

def ofSide (g : Graph) : Side → Problem
  | .forward => forward g
  | .backward => backward g

end Problem

structure Edge where
  d1 : Fact
  stmt : StmtId
  d2 : Fact

namespace Edge

abbrev Key := Taint × StmtId × Taint

def key (e : Edge) : Key := (e.d1.toTaint, e.stmt, e.d2.toTaint)

def same (a b : Edge) : Bool := a.d1.same b.d1 && a.stmt == b.stmt && a.d2.same b.d2

def text (e : Edge) : String :=
  "<" ++ e.d1.text ++ "> -> <" ++ StmtId.text e.stmt ++ ", " ++ e.d2.text ++ ">"

end Edge

structure Table where
  /-- The fact that was stored first for each edge. -/
  index : Index Edge.Key Fact := ∅
  edges : Array Edge := #[]
  /-- For a method and a context, the exits reached with their facts. -/
  summaries : Index (MethodId × Taint) (List (StmtId × Fact)) := ∅
  /-- For a method and a context, the calls it was entered from, with the contexts of the caller. -/
  incoming : Index (MethodId × Taint) (List (StmtId × List Fact)) := ∅
  stopped : Option StopReason := none
  running : Bool := false
  scheduled : Nat := 0
  processed : Nat := 0
  /-- Facts that became neighbours of a stored fact. -/
  joined : Nat := 0
deriving Inhabited

namespace Table
variable (t : Table)

def find? (e : Edge) : Option Fact := t.index[e.key]?

def record (e : Edge) : Table :=
  { t with index := t.index.insert e.key e.d2, edges := t.edges.push e }

/-- The facts stored at a statement, one for each context. -/
def factsAt (s : StmtId) : List Fact :=
  (t.edges.toList.filter fun e => e.stmt == s).map (·.d2)

def size (t : Table) : Nat := t.edges.size

def summariesOf (m : MethodId) (d1 : Fact) : List (StmtId × Fact) :=
  t.summaries[(m, d1.toTaint)]?.getD []

/-- The fact that is stored for an exit of a method in a context. -/
def summary? (m : MethodId) (d1 : Fact) (exit : StmtId) (d2 : Fact) : Option Fact :=
  ((t.summariesOf m d1).find? fun s => s.1 == exit && s.2.same d2).map (·.2)

def addSummary (m : MethodId) (d1 : Fact) (exit : StmtId) (d2 : Fact) : Table :=
  { t with
    summaries := t.summaries.insert (m, d1.toTaint) (t.summariesOf m d1 ++ [(exit, d2)]) }

def summaryCount : Nat := t.summaries.values.flatten.length

def callersOf (m : MethodId) (d3 : Fact) : List (StmtId × List Fact) :=
  t.incoming[(m, d3.toTaint)]?.getD []

/-- The context was entered from the call in the given context of the caller. -/
def isEntered (m : MethodId) (d3 : Fact) (call : StmtId) (d1 : Fact) : Bool :=
  (t.callersOf m d3).any fun c => c.1 == call && c.2.any d1.same

def addIncoming (m : MethodId) (d3 : Fact) (call : StmtId) (d1 : Fact) : Table :=
  let callers := t.callersOf m d3
  let new := if callers.any (·.1 == call) then
      callers.map fun c => if c.1 == call then (call, c.2 ++ [d1]) else c
    else callers ++ [(call, [d1])]
  { t with incoming := t.incoming.insert (m, d3.toTaint) new }

def stop (r : StopReason) : Table :=
  { t with stopped := StopReason.keepFirst t.stopped r }

end Table

/-- The outgoing fact of a flow only repeats the incoming one. -/
def Fact.repeats (output input : Fact) : Bool :=
  !output.is input && output.same input && (output.stmt.isNone || output.stmt == input.stmt)

/-- The fact that is stored for an outgoing fact: the incoming one where it is repeated. -/
def Fact.stored (output input : Fact) : Fact := if output.repeats input then input else output

/-- A place reached through a call keeps all its neighbours, whatever the limit. -/
def isEssentialJoin (call : Option StmtId) : Bool := call.isSome

end LeakTrace
