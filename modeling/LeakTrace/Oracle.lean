import LeakTrace.Fact.Basic
import LeakTrace.Path.Store

/-!
# What counts as source and sink

Sources are calls whose result, receiver or arguments become tainted, and arguments of a method on
entry. Sinks are arguments and receivers of calls, and values returned from a method. All of them
are given by method signature.
-/

namespace LeakTrace

inductive SourceTarget where
  | result
  | base
  | argument (index : Nat)
deriving DecidableEq, Repr, Inhabited

structure Oracle where
  callSources : List (String × List SourceTarget) := []
  /-- Methods with the arguments that are tainted on entry. -/
  paramSources : List (String × List Nat) := []
  /-- Sink calls with the arguments that count; without a list all do, and the receiver too. -/
  callSinks : List (String × Option (List Nat)) := []
  returnSinks : List String := []
deriving Repr, Inhabited

/-- A source statement: the rule that matched, and the places it taints. -/
structure SourceInfo where
  definition : Definition
  paths : List AccessPath
deriving Repr, Inhabited

namespace Oracle
variable (o : Oracle)

def lookup {α : Type} (entries : List (String × α)) (key : String) : Option α :=
  (entries.find? (·.1 == key)).map (·.2)

def extend {α : Type} [BEq α] (entries : List (String × List α)) (key : String)
    (new : List α) : List (String × List α) :=
  let merge (old : List α) : List α :=
    new.foldl (fun l a => if l.contains a then l else l ++ [a]) old
  if entries.any (·.1 == key) then entries.map fun e => if e.1 == key then (key, merge e.2) else e
  else entries ++ [(key, merge [])]

def addSource (m : MethodRef) (targets : List SourceTarget) : Oracle :=
  { o with callSources := extend o.callSources m.signature targets }

def addParamSource (m : MethodRef) (index : Nat) : Oracle :=
  { o with paramSources := extend o.paramSources m.signature [index] }

/-- Arguments of calls of the method are sinks; what was said about it before is replaced. -/
def addSink (m : MethodRef) (arguments : Option (List Nat)) : Oracle :=
  { o with callSinks := o.callSinks.filter (·.1 != m.signature) ++ [(m.signature, arguments)] }

def addReturnSink (m : MethodRef) : Oracle :=
  if o.returnSinks.contains m.signature then o
  else { o with returnSinks := o.returnSinks ++ [m.signature] }

def sourceCount : Nat := o.callSources.length + o.paramSources.length

def sinkCount : Nat := o.callSinks.length + o.returnSinks.length

/-! ## Sources -/

def targetValue? (s : Stmt) (c : Call) : SourceTarget → Option Value
  | .result =>
    match s.action with
    | .assign lhs _ => some lhs
    | _ => none
  | .base => c.base.map .var
  | .argument i => c.args[i]?.filter Value.holds

def callSource? (s : Stmt) : Paths (Option SourceInfo) := do
  let found := do
    let c ← s.call?
    let targets ← lookup o.callSources c.method.signature
    some (c, targets)
  match found with
  | none => return none
  | some (c, targets) =>
    let paths ← (targets.filterMap (targetValue? s c)).filterMapM fun v => Paths.ofValue v true
    return if paths.isEmpty then none else some ⟨⟨.source, c.method.signature, none⟩, paths⟩

def paramSource? (p : Program) (s : Stmt) : Paths (Option SourceInfo) := do
  match s.action with
  | .entry l (.param index _) =>
    let sig := (p.method s.method).signature
    match lookup o.paramSources sig with
    | none => return none
    | some indices =>
      if indices.contains index then
        return (← Paths.ofValue (.var l) true).map fun a => ⟨⟨.source, sig, none⟩, [a]⟩
      else return none
  | _ => return none

def source? (p : Program) (s : Stmt) : Paths (Option SourceInfo) := do
  match ← o.callSource? s with
  | some i => return some i
  | none => o.paramSource? p s

/-! ## Sinks -/

/-- The definition by which a statement is a sink, for a tainted path or in general. -/
def sink? (p : Program) (s : Stmt) (path : Option Path) : Option Definition :=
  let callSink := do
    let c ← s.call?
    let only ← lookup o.callSinks c.method.signature
    some (c, only)
  match callSink with
  | some (c, only) =>
    let hit := match path with
      | none => true
      | some a =>
        match a.base with
        | none => false
        | some b =>
          (c.args.zipIdx.any fun (arg, i) =>
            (match only with
              | some l => l.contains i
              | none => true) && arg.local? == some b) ||
            (only.isNone && c.base == some b)
    if hit then some ⟨.sink, c.method.signature, none⟩ else none
  | none =>
    match s.returned? with
    | none => none
    | some v =>
      let sig := (p.method s.method).signature
      let hit := match path with
        | none => true
        | some a => a.base.isSome && a.base == v.local?
      if o.returnSinks.contains sig && hit then some ⟨.sink, sig, none⟩ else none

end Oracle
end LeakTrace
