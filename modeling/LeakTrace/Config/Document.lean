import LeakTrace.Config.Basic
import LeakTrace.Text.Json
import LeakTrace.Text.Yaml.Value

/-!
# Settings as documents

Settings are read from YAML and JSON by the same table of named settings; a `Format` says how a
document of either kind yields its parts. Missing settings keep their defaults, unknown ones are
ignored, and a setting given twice is refused. In the other direction `Config.toJson` lists all
settings in the order of their declaration, and `Config.toYaml` prints that list.
-/

namespace LeakTrace

/-- How documents of one kind yield values. -/
structure Format (T : Type) where
  nat : T → Extract Nat
  float : T → Extract Float
  bool : T → Extract Bool
  word : T → Extract String
  /-- The value, unless it says that there is none. -/
  optional : T → Extract (Option T)
  /-- The parts of a record whose settings have the given names, each at most once. -/
  members : List String → T → Extract (List (String × T))

namespace Format

/-- Members with known names, unless one is repeated. -/
private def known {T : Type} (names : List String) (ms : List (String × T)) :
    Extract (List (String × T)) :=
  let ms := ms.filter fun (k, _) => names.contains k
  if (ms.map (·.1)).eraseDups.length == ms.length then return ms else failure

private def inOrder {T : Type} (names : List String) (items : List T) :
    Extract (List (String × T)) :=
  if items.length ≤ names.length then return names.zip items else failure

/-- A JSON record is an object, or an array with the settings in order. -/
def json : Format Json where
  nat j := liftM j.nat?
  float j := liftM j.float?
  bool
    | .bool b => return b
    | _ => failure
  word
    | .str s => return s
    | .obj [(s, .null)] => return s
    | _ => failure
  optional
    | .null => return none
    | j => return some j
  members names
    | .obj ms => known names ms
    | .arr items => inOrder names items
    | _ => failure

/-- JSON that is not read before it is asked for, so that settings with unknown names may have any
value that is written correctly. -/
def jsonText : Format (List Char) where
  nat cs := do json.nat (← liftM (Json.readChars? cs))
  float cs := do json.float (← liftM (Json.readChars? cs))
  bool cs := do json.bool (← liftM (Json.readChars? cs))
  word cs := do json.word (← liftM (Json.readChars? cs))
  optional cs := return if Json.skipBlanks cs == ['n', 'u', 'l', 'l'] then none else some cs
  members names cs :=
    match Json.items? cs with
    | some items => inOrder names items
    | none => do known names (← liftM (Json.members? cs))

/-- A YAML record is a mapping; nothing written is the empty mapping. -/
def yaml (root : Yaml.Node) : Format Yaml.Node where
  nat := root.nat
  float := root.float
  bool := root.bool
  word := root.word
  optional := root.optional
  members names y := do known names (← root.entries y)

variable {T : Type}

def natOrNull (f : Format T) (t : T) : Extract (Option Nat) := do
  match ← f.optional t with
  | some t => return some (← f.nat t)
  | none => return none

/-- Reads a record: each setting changes the record by its own rule. -/
def record {R : Type} (f : Format T) (settings : List (String × (T → R → Extract R))) (default : R)
    (t : T) : Extract R := do
  let ms ← f.members (settings.map (·.1)) t
  ms.foldlM (fun r (name, t) =>
    match settings.find? (·.1 == name) with
    | some (_, set) => set t r
    | none => return r) default

end Format

namespace Config
variable {T : Type}
variable (f : Format T)

private def named {α : Type} (f : Format T) (ofName? : String → Option α) (t : T) : Extract α := do
  liftM (ofName? (← f.word t))

private def pathTable : List (String × (T → PathSettings → Extract PathSettings)) :=
  [("access_path_length", fun t r => return { r with length := ← f.nat t }),
    ("use_recursive_access_paths",
      fun t r => return { r with foldRecursive := ← f.bool t }),
    ("use_this_chain_reduction", fun t r => return { r with foldOuterThis := ← f.bool t }),
    ("use_same_field_reduction",
      fun t r => return { r with collapseRepeats := ← f.bool t })]

private def solverTable : List (String × (T → SolverSettings → Extract SolverSettings)) :=
  [("max_join_point_abstractions",
      fun t r => return { r with maxJoin := ← f.natOrNull t }),
    ("max_callees_per_call_site",
      fun t r => return { r with maxCallees := ← f.natOrNull t }),
    ("max_abstraction_path_length",
      fun t r => return { r with maxPathLength := ← f.natOrNull t }),
    ("threads", fun t r => return { r with threads := ← f.natOrNull t }),
    ("merge_neighbors", fun t r => return { r with mergeNeighbors := ← f.bool t }),
    ("follow_returns_past_seeds",
      fun t r => return { r with followReturnsPastSeeds := ← f.bool t })]

private def searchTable : List (String × (T → SearchSettings → Extract SearchSettings)) :=
  [("path_reconstruction_timeout_secs",
      fun t r => return { r with timeoutSecs := ← f.natOrNull t }),
    ("max_visited_per_result", fun t r => return { r with maxVisited := ← f.natOrNull t }),
    ("memory_budget_bytes", fun t r => return { r with memoryBudget := ← f.natOrNull t })]

private def table : List (String × (T → Config → Extract Config)) :=
  [("access_path", fun t r => return { r with path := ← f.record (pathTable f) {} t }),
    ("solver", fun t r => return { r with solver := ← f.record (solverTable f) {} t }),
    ("path", fun t r => return { r with search := ← f.record (searchTable f) {} t }),
    ("aliasing_algorithm",
      fun t r => return { r with aliasing := ← named f AliasSearch.ofName? t }),
    ("flow_sensitive_aliasing",
      fun t r => return { r with flowSensitiveAliasing := ← f.bool t }),
    ("static_field_tracking_mode",
      fun t r => return { r with staticFields := ← named f StaticFields.ofName? t }),
    ("implicit_flow_mode",
      fun t r => return { r with implicitFlows := ← named f ImplicitFlows.ofName? t }),
    ("enable_exceptions", fun t r => return { r with exceptions := ← f.bool t }),
    ("enable_array_tracking", fun t r => return { r with arrays := ← f.bool t }),
    ("enable_array_size_tainting", fun t r => return { r with arraySizes := ← f.bool t }),
    ("enable_type_checking", fun t r => return { r with typeChecking := ← f.bool t }),
    ("enable_instance_of_tainting", fun t r => return { r with instanceOf := ← f.bool t }),
    ("exclude_library_classes", fun t r => return { r with excludeLibrary := ← f.bool t }),
    ("ignore_flows_in_system_packages",
      fun t r => return { r with ignoreSystemPackages := ← f.bool t }),
    ("inspect_sources", fun t r => return { r with inspectSources := ← f.bool t }),
    ("inspect_sinks", fun t r => return { r with inspectSinks := ← f.bool t }),
    ("stop_after_first_k_flows", fun t r => return { r with stopAfter := ← f.nat t }),
    ("one_source_at_a_time", fun t r => return { r with oneSourceAtATime := ← f.bool t }),
    ("data_flow_timeout_secs",
      fun t r => return { r with timeoutSecs := ← f.natOrNull t }),
    ("memory_threshold", fun t r => return { r with memoryThreshold := ← f.float t }),
    ("memory_budget_bytes", fun t r => return { r with memoryBudget := ← f.nat t }),
    ("watcher_interval_ms", fun t r => return { r with watcherIntervalMs := ← f.nat t })]

/-- The configuration a document describes; it need not be valid. At most `aliases` aliases are
followed. -/
def read? (aliases : Nat) (t : T) : Option Config :=
  (f.record (table f) {} t).run' aliases

def ofYaml (text : String) : Except ConfigError Config := do
  match (Yaml.read? text).bind fun y => read? (Format.yaml y) y.aliasBudget y with
  | some c =>
    c.check
    return c
  | none => throw .yaml

def ofJson (text : String) : Except ConfigError Config := do
  let document := (Json.splitValue text.toList).bind fun (cs, rest) =>
    if (Json.skipBlanks rest).isEmpty then read? Format.jsonText 0 cs else none
  match document with
  | some c =>
    c.check
    return c
  | none => throw .json

/-! ## Writing -/

private def countOrNull : Option Nat → Json
  | some n => .int n
  | none => .null

/-- A record with all settings in the order of their declaration. -/
def toJson (c : Config) : Json :=
  .obj
    [("access_path", .obj
        [("access_path_length", .int c.path.length),
          ("use_recursive_access_paths", .bool c.path.foldRecursive),
          ("use_this_chain_reduction", .bool c.path.foldOuterThis),
          ("use_same_field_reduction", .bool c.path.collapseRepeats)]),
      ("solver", .obj
        [("max_join_point_abstractions", countOrNull c.solver.maxJoin),
          ("max_callees_per_call_site", countOrNull c.solver.maxCallees),
          ("max_abstraction_path_length", countOrNull c.solver.maxPathLength),
          ("threads", countOrNull c.solver.threads),
          ("merge_neighbors", .bool c.solver.mergeNeighbors),
          ("follow_returns_past_seeds", .bool c.solver.followReturnsPastSeeds)]),
      ("path", .obj
        [("path_reconstruction_timeout_secs", countOrNull c.search.timeoutSecs),
          ("max_visited_per_result", countOrNull c.search.maxVisited),
          ("memory_budget_bytes", countOrNull c.search.memoryBudget)]),
      ("aliasing_algorithm", .str c.aliasing.name),
      ("flow_sensitive_aliasing", .bool c.flowSensitiveAliasing),
      ("static_field_tracking_mode", .str c.staticFields.name),
      ("implicit_flow_mode", .str c.implicitFlows.name),
      ("enable_exceptions", .bool c.exceptions),
      ("enable_array_tracking", .bool c.arrays),
      ("enable_array_size_tainting", .bool c.arraySizes),
      ("enable_type_checking", .bool c.typeChecking),
      ("enable_instance_of_tainting", .bool c.instanceOf),
      ("exclude_library_classes", .bool c.excludeLibrary),
      ("ignore_flows_in_system_packages", .bool c.ignoreSystemPackages),
      ("inspect_sources", .bool c.inspectSources),
      ("inspect_sinks", .bool c.inspectSinks),
      ("stop_after_first_k_flows", .int c.stopAfter),
      ("one_source_at_a_time", .bool c.oneSourceAtATime),
      ("data_flow_timeout_secs", countOrNull c.timeoutSecs),
      ("memory_threshold", .float c.memoryThreshold),
      ("memory_budget_bytes", .int c.memoryBudget),
      ("watcher_interval_ms", .int c.watcherIntervalMs)]

/-- A scalar as YAML writes it. The words that stand in settings need no quotation marks. -/
private def yamlScalar : Json → String
  | .float f => NumberStyle.yaml.write f
  | .str s => s
  | j => j.write

/-- One line per setting; records within the record are indented by two blanks. -/
def toYaml (c : Config) : String :=
  match c.toJson with
  | .obj ms => String.join (ms.map fun (name, v) =>
      match v with
      | .obj inner =>
        name ++ ":\n" ++
          String.join (inner.map fun (k, w) => "  " ++ k ++ ": " ++ yamlScalar w ++ "\n")
      | v => name ++ ": " ++ yamlScalar v ++ "\n")
  | _ => ""

mutual

/-- Lays one record over another: records are merged, anything else replaces. -/
def overlay (base : Json) : Json → Json
  | .obj upper =>
    match base with
    | .obj ms => .obj (overlayMembers ms upper)
    | _ => .obj upper
  | upper => upper

def overlayMembers (ms : List (String × Json)) : List (String × Json) → List (String × Json)
  | [] => ms
  | (k, v) :: rest =>
    let base := ((ms.find? (·.1 == k)).map (·.2)).getD .null
    let merged := overlay base v
    let ms :=
      if ms.any (·.1 == k) then ms.map fun m => if m.1 == k then (k, merged) else m
      else ms ++ [(k, merged)]
    overlayMembers ms rest

end
end Config
end LeakTrace
