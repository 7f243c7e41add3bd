import LeakTrace.Code.Program

/-!
# Who calls whom

Call targets by class hierarchy: a static or special call means the method that its declared class
has; a virtual or interface call may mean the method of any subtype of the receiver's class. When
no subtype has the method, the declared class decides.
-/

namespace LeakTrace

/-- Calls through reflection pass their arguments as one array. -/
def Call.isReflective (c : Call) : Bool :=
  c.method.owner == "java.lang.reflect.Method" && c.method.name == "invoke"

/-- The class whose subtypes can receive a dispatched call. -/
def Call.receiver (c : Call) : String :=
  (c.base.bind fun b => b.ty.className?).getD c.method.owner

def Program.targets (p : Program) (c : Call) : List MethodId :=
  let sub := c.method.subSignature
  let declared := ((p.inherited? c.method.owner sub).map (·.id)).toList
  match c.kind with
  | .static | .special => declared
  | .virtual | .interface =>
    match ((p.hierarchy.subtypes c.receiver).filterMap fun o =>
        (p.inherited? o sub).map (·.id)).eraseDups with
    | [] => declared
    | found => found

end LeakTrace
