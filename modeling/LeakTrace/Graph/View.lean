import LeakTrace.Graph.Basic

/-!
# A graph as one direction sees it

The two solvers walk the same graph in opposite directions. A `View` holds exactly the queries
whose answer depends on the direction; everything about calls and about what methods touch stays
with the graph. `View.reverse` swaps successors with predecessors and starts with ends.
-/

namespace LeakTrace

structure View where
  succs : StmtId → List StmtId
  preds : StmtId → List StmtId
  starts : MethodId → List StmtId
  ends : MethodId → List StmtId
  isStart : StmtId → Bool
  isExit : StmtId → Bool
  /-- Some call is followed by the statement. -/
  isReturnSite : StmtId → Bool
  /-- The first statement's exception is caught at the second. -/
  isRaise : StmtId → StmtId → Bool

def Graph.forward (g : Graph) : View where
  succs s := (g.exitsOf s).all
  preds s := g.preds[s]?.getD []
  starts m := (g.method m).body.head?.toList
  ends m := (g.method m).body.filter fun s => (g.exitsOf s).all.isEmpty
  isStart s := (g.program.methodOf s).body.head? == some s
  isExit s := (g.exitsOf s).all.isEmpty
  isReturnSite s := (g.preds[s]?.getD []).any g.isCall
  isRaise s t := (g.exitsOf s).handlers.contains t

/-- The same graph walked the other way; `isCall` says which statements are calls. -/
def View.reverse (isCall : StmtId → Bool) (v : View) : View where
  succs := v.preds
  preds := v.succs
  starts := v.ends
  ends := v.starts
  isStart := v.isExit
  isExit := v.isStart
  isReturnSite s := (v.succs s).any isCall
  isRaise s t := v.isRaise t s

def Graph.backward (g : Graph) : View := g.forward.reverse g.isCall

end LeakTrace
