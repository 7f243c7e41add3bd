import LeakTrace.Session.Basic

/-!
# Reading the members of a step

Readers for values, paths, facts and numbers that a step names by their role.
-/

namespace LeakTrace
namespace Input

def side (j : Json) : Decode Side := do
  match j with
  | .str "forward" => return .forward
  | .str "alias" => return .backward
  | j => throw (.unsupported "solver" j)

def stopReason (j : Json) : Decode StopReason := do
  match ← j.text with
  | "timeout" => return .timeout
  | "oom" => return .outOfMemory
  | "cancelled" => return .cancelled
  | "abort" => return .abortRequested
  | _ => throw (.unsupported "reason" j)

/-- A definition, with a name for one that has none. -/
def definition (kind : DefinitionKind) (fallback : String) (q : Json) : Decode Definition := do
  let id ← (q.get "def").optional Json.text
  return ⟨kind, id.getD fallback, ← (q.get "category").optional Json.text⟩

def arrayPart : Json → ArrayPart
  | .str "contents" => .contents
  | .str "length" => .length
  | _ => .both

end Input

structure Args where
  q : Json
  names : Names

namespace Args
variable (a : Args)

def get (a : Args) (k : String) : Json := a.q.get k

def val (k : String) : Interactive Value := Input.value a.names (a.get k)

def fact (a : Args) (k : String) : Interactive Fact := Interactive.fact (a.get k)

def path (a : Args) (k : String) : Interactive AccessPath := Interactive.path (a.get k)

def path? (k : String) : Interactive (Option AccessPath) :=
  Interactive.optional Interactive.path (a.get k)

def nat (a : Args) (k : String) : Interactive Nat := (a.get k).nat

def nat? (k : String) : Interactive (Option Nat) := (a.get k).optional Json.nat

def text (a : Args) (k : String) : Interactive String := (a.get k).text

def ty (a : Args) (k : String) : Interactive Ty := Input.ty (a.get k)

def ty? (k : String) : Interactive (Option Ty) := (a.get k).optional Input.ty

def flag (a : Args) (k : String) (default : Bool) : Bool := (a.get k).flag default

def list (k : String) : Interactive (List Json) := (a.get k).listOrEmpty

def stmt (a : Args) (k : String) : Interactive Stmt := do
  return (← Interactive.env).stmt (← a.nat k)

def stmt? (k : String) : Interactive (Option Stmt) := do
  return (← a.nat? k).map (← Interactive.env).stmt

def steps : Interactive (List Step) := do
  (← a.list "frags").mapM fun f => do
    match f with
    | .arr _ => return ⟨← a.names.field (f.item 0), ← Input.ty (f.item 1)⟩
    | f => return Step.of (← a.names.field f)

/-- A context, the zero fact unless one is given. -/
def context (k : String) : Interactive Fact := do
  match a.get k with
  | .null => return (← Interactive.env).zero
  | j => Interactive.fact j

def contexts : Interactive (List Fact) := do (← a.list "d1s").mapM Interactive.fact

def hit (item : Json) : Interactive SinkHit := do
  return ⟨← Input.definition .sink "sink" item, ← Interactive.fact (item.get "fact"),
    ← (item.get "stmt").nat⟩

def hits : Interactive (List SinkHit) := do (← a.list "items").mapM hit

def reasons (k : String) : Interactive (List StopReason) := do
  (← a.list k).mapM fun r => Input.stopReason r

end Args
end LeakTrace
