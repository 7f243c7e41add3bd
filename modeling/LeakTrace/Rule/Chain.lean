import LeakTrace.Rule.Array
import LeakTrace.Rule.Exception
import LeakTrace.Rule.Implicit
import LeakTrace.Rule.Scope
import LeakTrace.Rule.Sink
import LeakTrace.Rule.Source
import LeakTrace.Rule.StaticField
import LeakTrace.Rule.StrongUpdate
import LeakTrace.Rule.Wrapper

/-!
# All rules in order

The rules that a configuration enables, applied one after the other. What they add is united; as
soon as one asks that nothing comes out, the rest is not asked any more.
-/

namespace LeakTrace
namespace Rule
variable (rules : List Rule)

def chain (e : Env) : List Rule :=
  let c := e.config
  [source, sink, staticField] ++ (if c.arrays then [array] else []) ++
    (if c.exceptions then [exception] else []) ++ (if e.models.isSome then [wrapper] else []) ++
    (if c.implicitFlows.tracksControlFlow then [implicit] else []) ++ [strongUpdate] ++
    (if c.typeChecking then [typing] else []) ++ [skipSystemClass] ++
    (if c.stopAfter > 0 then [stopAfter c.stopAfter] else [])

/-- Asks one rule after the other until everything is killed. There is no result if everything was,
or if no rule had an opinion. -/
def ask (hook : Rule → RuleM (Option FactSet)) :
    List Rule → Option FactSet → RuleM (Option FactSet)
  | [], acc => return acc
  | r :: rest, acc => do
    let acc := match acc, ← hook r with
      | acc, none => acc
      | none, some out => some (FactSet.insertAll [] out)
      | some set, some out => some (set.insertAll out)
    if (← getThe Kill).all then return none
    ask hook rest acc

/-- All rules on an edge between statements; the incoming fact goes on unless a rule objects. -/
def applyNormal (d1 f : Fact) (s dest : Stmt) : RuleM FactSet := do
  let out ← ask (fun r => r.normal d1 f s dest) rules none
  let k ← getThe Kill
  if k.all then return []
  let set := out.getD []
  return if k.source then set else set.insert f

def applyCall (d1 f : Fact) (s : Stmt) (dest : MethodId) : RuleM (Option FactSet) :=
  ask (fun r => r.call d1 f s dest) rules none

/-- All rules past a call; the incoming fact goes on where `pass` says so, unless a rule objects. -/
def applyCallToReturn (d1 f : Fact) (s : Stmt) (pass : Bool) :
    RuleM FactSet := do
  let out ← ask (fun r => r.callToReturn d1 f s) rules none
  let k ← getThe Kill
  if k.all then return []
  let set := out.getD []
  return if pass && !k.source then set.insert f else set

def applyReturn (callers : List Fact) (calleeD1 f : Fact) (exit : Stmt)
    (ret call : Option Stmt) : RuleM (Option FactSet) :=
  ask (fun r => r.ret callers calleeD1 f exit ret call) rules none

end Rule
end LeakTrace
