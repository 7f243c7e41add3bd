import LeakTrace.Flow.Assign
import LeakTrace.Flow.Call
import LeakTrace.Flow.Return

/-!
# The flow functions of the taint analysis

One function for each kind of edge. The zero fact does not enter or leave methods by these
functions, and once the limit on results is reached only assignments are still looked at.
-/

namespace LeakTrace
namespace Forward

/-- From a statement to the next, for a fact that the statement has made active if it does so. -/
def passStmt (d1 f : Fact) (s succ : StmtId) : Track Flow := do
  let e ← read
  let stmt := e.stmt s
  let (set, kill) ← (Rule.applyNormal (Rule.chain e) d1 f stmt (e.stmt succ)).run {}
  if kill.all then return Flow.visible s []
  match stmt.action with
  | .assign lhs rhs =>
    if e.isZero f then return Flow.visible s set
    return Flow.visible s (set.insertAll (← Track.assign d1 stmt lhs rhs f))
  | _ => return Flow.visible s set

def normal (d1 f : Fact) (s succ : StmtId) : Track Flow := do
  if f.waitsFor == some s then passStmt d1 (f.activate (← Track.fresh)) s succ
  else passStmt d1 f s succ

def call (d1 f : Fact) (s : StmtId) (callee : MethodId) : Track Flow := do
  let e ← read
  if ← Track.limitReached then return Flow.silent
  if e.isZero f || e.isExcluded callee || !(e.method callee).hasBody then return Flow.silent
  let set ← Track.intoCallee d1 f (e.stmt s) callee
  let searched := e.config.aliasing == .flowSensitive && e.hasBackward
  return { Flow.visible s set with
    contexts := if searched then set.map fun g => ⟨.backward, callee, g, s, d1⟩ else [] }

def ret (call : Option StmtId) (callee : MethodId) (exit : StmtId) (site : Option StmtId)
    (f calleeD1 : Fact) (contexts : List Fact) : Track Flow := do
  let e ← read
  if ← Track.limitReached then return Flow.silent
  if e.isZero f then return Flow.silent
  return Flow.visible exit
    (← Track.outOfCallee (call.map e.stmt) callee (e.stmt exit) (site.map e.stmt) f calleeD1
      contexts)

def callToReturn (d1 f : Fact) (s : StmtId) : Track Flow := do
  let e ← read
  if ← Track.limitReached then return Flow.silent
  return Flow.visible s (← Track.pastCall d1 f (e.stmt s))

end Forward
end LeakTrace
