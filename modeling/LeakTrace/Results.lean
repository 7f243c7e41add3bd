import LeakTrace.Sources

/-!
# What a run reports

The flows that were found, grouped by sink, together with how the run ended. A run always has
results, also when it was stopped or a task failed.
-/

namespace LeakTrace

structure ResultSink where
  definition : Definition
  stmt : StmtId
  path : AccessPath
deriving Repr, Inhabited

namespace ResultSink

def ofHit (h : SinkHit) : ResultSink := ⟨h.definition, h.stmt, h.fact.accessPath⟩

/-- The same sink, reached with the same path. -/
def same (a b : ResultSink) : Bool :=
  a.definition == b.definition && a.stmt == b.stmt && a.path.same b.path

def text (s : ResultSink) : String :=
  s.path.text ++ " at " ++ StmtId.text s.stmt ++ " (" ++ s.definition.text ++ ")"

end ResultSink

def Found.same (a b : Found) : Bool := a.origin == b.origin

def Found.text (f : Found) : String :=
  f.origin.path.text ++ " at " ++ StmtId.text f.origin.stmt ++
    " (" ++ f.origin.definition.text ++ ")"

structure SinkGroup where
  sink : ResultSink
  sources : List Found
deriving Inhabited

structure Connection where
  source : Found
  sink : ResultSink
deriving Inhabited

structure Results where
  groups : List SinkGroup := []
  /-- The observations at sinks, with their history. -/
  hits : List SinkHit := []
  termination : Termination := {}
  /-- Messages of tasks that failed. -/
  faults : List String := []
  performance : Performance := {}
deriving Inhabited

namespace Results
variable (r : Results)

def addSource (sources : List Found) (f : Found) : List Found :=
  if sources.any f.same then sources else sources ++ [f]

def add (sink : ResultSink) (source : Found) : Results :=
  let groups := if r.groups.any (sink.same ·.sink) then
      r.groups.map fun g =>
        if sink.same g.sink then { g with sources := addSource g.sources source } else g
    else r.groups ++ [⟨sink, [source]⟩]
  { r with groups }

def merge (a b : Results) : Results :=
  let r := b.groups.foldl (fun r g => g.sources.foldl (fun r s => r.add g.sink s) r) a
  { r with
    hits := a.hits ++ b.hits
    termination := a.termination.union b.termination
    faults := a.faults ++ b.faults
    performance := a.performance.add b.performance }

def size : Nat := r.groups.length

def isEmpty (r : Results) : Bool := r.groups.isEmpty

def connectionCount : Nat := r.groups.foldl (fun n g => n + g.sources.length) 0

/-- The order of connections: statement of the sink, statement of the source, then the texts of
their paths. -/
def before (a b : Connection) : Bool :=
  let key (c : Connection) : Nat × Nat × String × String :=
    (c.sink.stmt, c.source.origin.stmt, c.sink.path.text, c.source.origin.path.text)
  let (s, t, p, q) := key a
  let (s', t', p', q') := key b
  if s != s' then s < s'
  else if t != t' then t < t'
  else if p != p' then p < p'
  else q ≤ q'

def connections : List Connection :=
  (r.groups.flatMap fun g => g.sources.map fun s => ⟨s, g.sink⟩).mergeSort before

def sourcesOf (s : StmtId) : List Found :=
  (r.groups.filter (·.sink.stmt == s)).flatMap (·.sources)

def containsSink (s : StmtId) : Bool := r.groups.any (·.sink.stmt == s)

def containsSinkMethod (id : String) : Bool :=
  r.groups.any (·.sink.definition.id == id)

def hasPath (sink source : StmtId) : Bool :=
  r.groups.any fun g => g.sink.stmt == sink && g.sources.any (·.origin.stmt == source)

def hasPathBetweenMethods (sink source : String) : Bool :=
  r.groups.any fun g =>
    g.sink.definition.id == sink && g.sources.any (·.origin.definition.id == source)

def isComplete : Bool := r.termination.isSuccess && r.faults.isEmpty

/-- The lines for connections, with a heading wherever the sink changes. -/
def reportLines : Option ResultSink → List Connection → List String
  | _, [] => []
  | current, c :: rest =>
    (if current.any c.sink.same then []
      else ["Found a flow to sink " ++ c.sink.text ++ ", from the following sources:"]) ++
      ("\t- " ++ c.source.text) :: reportLines (some c.sink) rest

def text (r : Results) : String :=
  let lines := (if r.isEmpty then ["No results found (" ++ r.termination.text ++ ")"] else []) ++
    reportLines none r.connections ++ r.faults.map ("Fault: " ++ ·)
  String.join (lines.map (· ++ "\n"))

end Results
end LeakTrace
