import LeakTrace.Alias.Search
import LeakTrace.Library

/-!
# Rules of propagation

A rule sees every evaluation of a forward flow function. It may add facts, ask that the incoming
fact is not passed on (`Kill.source`), or ask that nothing comes out at all (`Kill.all`). A rule
that has no opinion about a kind of flow returns nothing.
-/

namespace LeakTrace

structure Kill where
  /-- The incoming fact is not passed on unchanged. -/
  source : Bool := false
  /-- Nothing comes out. -/
  all : Bool := false
deriving DecidableEq, Repr, Inhabited

abbrev RuleM := StateT Kill Track

inductive FlowKind where
  | normal
  | call
  | ret
  | callToReturn
deriving DecidableEq, Hashable, Repr, Inhabited

def FlowKind.name : FlowKind → String
  | .normal => "Normal"
  | .call => "Call"
  | .ret => "Return"
  | .callToReturn => "CallToReturn"

structure Rule where
  name : String
  /-- From a statement to the next: context, fact, statement, next statement. -/
  normal : Fact → Fact → Stmt → Stmt → RuleM (Option FactSet) := fun _ _ _ _ => pure none
  call : Fact → Fact → Stmt → MethodId → RuleM (Option FactSet) := fun _ _ _ _ => pure none
  callToReturn : Fact → Fact → Stmt → RuleM (Option FactSet) := fun _ _ _ => pure none
  /-- From the exit of a method back: contexts of the caller, context of the callee, fact, exit,
  return site, call site. -/
  ret : List Fact → Fact → Fact → Stmt → Option Stmt → Option Stmt → RuleM (Option FactSet) :=
    fun _ _ _ _ _ _ => pure none

def RuleM.killAll : RuleM Unit := modify fun k => { k with all := true }

def RuleM.killSource : RuleM Unit := modify fun k => { k with source := true }

def Fact.joinsAt (f : Fact) (s : StmtId) : Bool := f.joins.head? == some (.stmt s)

/-- The value from which a search for aliases of the fact starts. -/
def Fact.aliasTarget? (f : Fact) : Option Value :=
  match f.path.base with
  | some l => some (.var l)
  | none => f.path.firstField?.map .global

def Track.readsTaint (f : Fact) (v : Value) : Track Bool := do
  match f.path.base with
  | some l => mayAliasValues (.var l) v
  | none => return false

end LeakTrace
