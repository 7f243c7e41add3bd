import LeakTrace.Rule.Chain

/-!
# The result of a flow function

Beside the facts that come out, a flow function says where observers see the incoming fact and at
which statement the outgoing facts may be filtered. Flows that are out of the question from the
start are silent: nobody sees them. A flow into a method also names the contexts that the other
solver has to know, so that what leaves the method there finds its way back.
-/

namespace LeakTrace

/-- A method was entered in context `entry` from a call in context `d1`. -/
structure Context where
  /-- The solver that has to know. -/
  side : Side
  callee : MethodId
  entry : Fact
  call : StmtId
  d1 : Fact

structure Flow where
  facts : FactSet := []
  /-- The statement at which observers see the incoming fact. -/
  seenAt : Option StmtId := none
  /-- The statement at which the outgoing facts may be filtered. -/
  leftAt : Option StmtId := none
  /-- Contexts for the other solver. -/
  contexts : List Context := []

def Flow.silent : Flow := {}

/-- The facts of a flow that is seen and filtered at one statement. -/
def Flow.visible (s : StmtId) (facts : FactSet) : Flow := { facts, seenAt := some s, leftAt := some s }

namespace Track

/-- The value may be the object that the fact is rooted in. -/
def holdsTaint (v : Value) (f : Fact) : Track Bool := do
  match f.path.base with
  | some l => mayAliasValues v (.var l)
  | none => return false

/-- Some of the values may be the object that the fact is rooted in. -/
def anyHoldsTaint (vs : List Value) (f : Fact) : Track Bool := do
  match f.path.base with
  | some l => anyMayAlias vs (.var l)
  | none => return false

def limitReached : Track Bool := do
  let k := (← read).config.stopAfter
  return k > 0 && (← get).results.length ≥ k

/-- An alias that waits for a statement becomes active when execution passes it, or passes a call
that is known to activate it. -/
def activateAt (f : Fact) (s : StmtId) : Track Fact := do
  if f.isActive then return f
  if f.waitsFor == some s then return f.activate (← fresh)
  if ← isActivating s f.waitsFor then return f.activate (← fresh)
  return f

/-- Records the call on all facts but the given one, which only passed by. -/
def stampCall (f : Fact) (call : StmtId) (set : FactSet) : Track FactSet :=
  set.mapM fun g => do if g.is f then return g else return g.withCall (← fresh) call

def computeAliasesIn (contexts : List Fact) (src : StmtId) (target : Value) (set : FactSet)
    (m : MethodId) (f : Fact) : Track FactSet :=
  contexts.foldlM (fun set d1 => computeAliases d1 src target set m f) set

end Track
end LeakTrace
