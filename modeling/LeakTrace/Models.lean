import LeakTrace.Code.Value
import LeakTrace.Config.Document

/-!
# Summaries of library methods

A model says what a call does to a tainted receiver or argument: taint the result, taint the
receiver, or be cleaned. Models are keyed by method signature. Those read from a document replace
an earlier model of the same signature as a whole, while effects added one at a time accumulate.
-/

namespace LeakTrace

structure Model where
  signature : String := ""
  taintsResult : Bool := false
  taintsBase : Bool := false
  /-- The call cleans its receiver and arguments. -/
  kills : Bool := false
  exclusive : Bool := false
deriving DecidableEq, Repr, Inhabited

inductive Effect where
  | taintResult
  | taintBase
  | kill
  | exclusive
deriving DecidableEq, Repr

def Effect.ofName? : String → Option Effect
  | "return" => some .taintResult
  | "base" => some .taintBase
  | "kill" => some .kill
  | "exclusive" => some .exclusive
  | _ => none

def Effect.apply (m : Model) : Effect → Model
  | .taintResult => { m with taintsResult := true }
  | .taintBase => { m with taintsBase := true }
  | .kill => { m with kills := true }
  | .exclusive => { m with exclusive := true }

structure Models where
  list : List Model := []
deriving Repr, Inhabited

namespace Models

def find? (ms : Models) (signature : String) : Option Model :=
  ms.list.find? (·.signature == signature)

/-- Puts a model in, in place of one with the same signature. -/
def insert (ms : Models) (m : Model) : Models :=
  ⟨ms.list.filter (·.signature != m.signature) ++ [m]⟩

def addEffect (ms : Models) (method : MethodRef) (e : Effect) : Models :=
  let sig := method.signature
  ms.insert (e.apply ((ms.find? sig).getD { signature := sig }))

def size (ms : Models) : Nat := ms.list.length

def ofCall? (ms : Models) (c : Call) : Option Model := ms.find? c.method.signature

/-! ## Documents -/

private def readModel (root y : Yaml.Node) : Extract Model :=
  let f := Format.yaml root
  f.record
    [("signature", fun t r => return { r with signature := ← root.text t }),
      ("taint_return", fun t r => return { r with taintsResult := ← f.bool t }),
      ("taint_base", fun t r => return { r with taintsBase := ← f.bool t }),
      ("kill", fun t r => return { r with kills := ← f.bool t }),
      ("exclusive", fun t r => return { r with exclusive := ← f.bool t })]
    {} y

private def readModels (root : Yaml.Node) : Extract (List Model) :=
  (Format.yaml root).record
    [("methods", fun t _ => do (← root.items t).mapM (readModel root))] ([] : List Model) root

/-- Reads a document of the form `methods: [...]`. -/
def ofYaml (text : String) : Except ConfigError Models := do
  let doc := (Yaml.read? text).bind fun root => (readModels root).run' root.aliasBudget
  match doc with
  | none => throw .yaml
  | some models =>
    if models.any (·.signature.isEmpty) then
      throw (.invalid "taint wrapper model without signature")
    return models.foldl insert {}

end Models
end LeakTrace
