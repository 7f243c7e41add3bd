import LeakTrace.Input.Program
import LeakTrace.Output
import LeakTrace.Solve.Engine

/-!
# Working with named facts and paths

In a session paths and facts are made one by one and kept under names, and each part of the
analysis can be asked about them. The two solvers are there but do not run: what is handed to
them is only recorded. A later name hides an earlier one.
-/

namespace LeakTrace
open Output

structure Session where
  input : ProgramInput
  setup : Setup
  machine : Machine
  facts : List (String × Fact)
  paths : List (String × AccessPath) := []
  /-- What rules remember that are asked one at a time. -/
  memory : RuleMemory := {}
  /-- How many facts turned out to repeat another. -/
  reused : Nat := 0
  results : Results := {}

abbrev Interactive := StateT Session Decode

namespace Session

/-- A session in which only the zero fact has a name. -/
def start (input : ProgramInput) (env : Env) : Session where
  input
  setup := Setup.ofEnv env {}
  machine :=
    { world := { paths := { rules := env.pathRules } }, executor := { interrupted := true } }
  facts := [("zero", env.zero)]

/-- The rule that has a name, among all there are. -/
def rule? (e : Env) (name : String) : Option Rule :=
  [Rule.source, .sink, .staticField, .array, .exception, .wrapper, .implicit, .strongUpdate,
    .typing, .skipSystemClass, .stopAfter (max 1 e.config.stopAfter)].find? (·.name == name)

/-- Exchanges what the chain of rules remembers with what single rules remember. -/
def swapMemory (s : Session) : Session :=
  let w := s.machine.world
  { s with memory := w.rules, machine := { s.machine with world := { w with rules := s.memory } } }

end Session

namespace Interactive

/-! ## Names -/

private def latest {α : Type} (kind : String) (entries : List (String × α)) (name : String) :
    Decode α :=
  match entries.find? (·.1 == name) with
  | some e => pure e.2
  | none => throw (.unknown kind name)

def fact (j : Json) : Interactive Fact := do latest "fact" (← get).facts (← j.text)

/-- A named path, the empty path, or the path of a fact (`=name`). -/
def path (j : Json) : Interactive AccessPath := do
  let name ← j.text
  if name == "empty" then return .empty
  match name.toList with
  | '=' :: rest => return (← fact (.str (String.ofList rest))).accessPath
  | _ => latest "path" (← get).paths name

def optional {α : Type} (read : Json → Interactive α) : Json → Interactive (Option α)
  | .null => return none
  | j => some <$> read j

def nameOf? (f : Fact) : Interactive (Option String) := do
  return ((← get).facts.reverse.find? (·.2.is f)).map (·.1)

def nameOr (f : Fact) : Interactive Json := do return str ((← nameOf? f).getD "?")

def resultName? (q : Json) : Interactive (Option String) :=
  optional (fun j => liftM j.text) (q.get "as")

def storeFact (name : String) (f : Fact) : Interactive Unit :=
  modify fun s => { s with facts := (name, f) :: s.facts }

/-! ## Running parts of the analysis -/

/-- Runs work; nothing observes it, so it does not fail. -/
def work {α : Type} [Inhabited α] (act : Work α) : Interactive α := do
  let s ← get
  let (r, machine) := s.machine.run s.setup act
  set { s with machine }
  return match r with
    | .ok a => a
    | .error _ => default

def track {α : Type} [Inhabited α] (act : Track α) : Interactive α := work (Work.track act)

def world : Interactive World := do return (← get).machine.world

def env : Interactive Env := do return (← get).setup.env

/-! ## Answers -/

def pathText (a : AccessPath) : Json := str (a.describe a.cut)

def pathAnswer (q : Json) (a : Option AccessPath) : Interactive Json := do
  match a, ← resultName? q with
  | some a, some name => modify fun s => { s with paths := (name, a) :: s.paths }
  | _, _ => pure ()
  return opt pathText a

def factMembers (f : Fact) : Interactive (List (String × Json)) := do
  let pred ← match f.pred with
    | some p => nameOr p
    | none => pure .null
  return [("fact", str f.describe), ("same", opt str (← nameOf? f)), ("pred", pred),
    ("len", nat f.length), ("stmt", opt nat f.stmt), ("call", opt nat f.call),
    ("neighbors", nat ((← world).neighborsOf f).length)]

def factAnswer (q : Json) (f : Option Fact) : Interactive Json := do
  match f with
  | none => return .null
  | some f =>
    let answer ← factMembers f
    if let some name ← resultName? q then storeFact name f
    return .obj answer

/-- The facts of a set in the order of their texts; they are stored in that order, with numbers
after the name. -/
def setAnswer (q : Json) (set : FactSet) (store : Bool) : Interactive Json := do
  let sorted := set.mergeSort fun a b => decide (a.describe ≤ b.describe)
  if store then
    if let some name ← resultName? q then
      for (f, i) in sorted.zipIdx do
        storeFact (name ++ "." ++ toString i) f
  return strs (sorted.map Fact.describe)

/-- The facts that a step gives, together with the edges that it recorded in the solvers. -/
def edgeAnswer (q : Json) (act : Interactive (Option FactSet))
    (more : Interactive (List (String × Json))) : Interactive Json := do
  let before := (← get).machine
  let out ← act
  let after := (← get).machine
  let recorded (old new : Table) : Json :=
    strs (ordered ((new.edges.toList.drop old.size).map fun e =>
      StmtId.text e.stmt ++ " <- " ++ e.d2.describe))
  let out ← match out with
    | some set => setAnswer q set true
    | none => pure .null
  return .obj ([("out", out), ("forward", recorded before.forward after.forward),
    ("alias", recorded before.backward after.backward)] ++ (← more))

end Interactive
end LeakTrace
