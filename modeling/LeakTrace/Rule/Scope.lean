import LeakTrace.Rule.Basic

/-!
# Casts, runtime methods and the limit on results

Three small rules. A taint ends at a cast that cannot succeed. The constructors of the root class
and of threads are stepped over. When enough results were found nothing is propagated any longer.
-/

namespace LeakTrace
namespace Rule

def typing : Rule where
  name := "typing"
  normal _ f s _ := do
    let e ← read
    if f.path.isStaticField then return none
    match s.rhs? with
    | some (.cast t op) =>
      if f.path.isOn op && !e.casts.checkPath f.path t then RuleM.killAll
      return none
    | _ => return none

/-- Methods of the runtime that never move taints. -/
def isInert (m : Method) : Bool :=
  if m.owner == Ty.objectName then ["<init>", "<clinit>", "getClass"].contains m.name
  else m.owner == "java.lang.Thread" && m.isConstructor

def skipSystemClass : Rule where
  name := "skip_system_class"
  call _ _ _ dest := do
    let e ← read
    if isInert (e.method dest) then RuleM.killAll
    return none
  callToReturn _ f s := do
    let e ← read
    let callees := e.graph.calleesOf s.id
    if !callees.isEmpty && callees.all fun m => isInert (e.method m) then return some [f]
    return none

def stopAfter (k : Nat) : Rule :=
  let check : RuleM (Option FactSet) := do
    if (← getThe World).results.length ≥ k then RuleM.killAll
    return none
  { name := "stop_after_first_k_flows"
    normal := fun _ _ _ _ => check
    call := fun _ _ _ _ => check
    callToReturn := fun _ _ _ => check
    ret := fun _ _ _ _ _ _ => check }

end Rule
end LeakTrace
