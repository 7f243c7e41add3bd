import LeakTrace.Text.Decimal

/-!
# Settings of an analysis

Every choice the analysis leaves open, the three presets, and the combinations that make no sense.
`Config.check` reports the first problem in a fixed order; a configuration without one is *valid*.
-/

namespace LeakTrace

/-- How heap aliases of tainted values are found. -/
inductive AliasSearch where
  /-- On demand, by a solver that walks backwards. -/
  | flowSensitive
  /-- By intersecting points-to sets. -/
  | ptsBased
  | none
  /-- Taints go everywhere, and aliasing is checked where a value is read. -/
  | lazy
deriving DecidableEq, Repr, Inhabited

namespace AliasSearch

def all : List AliasSearch := [.flowSensitive, .ptsBased, .none, .lazy]

def name : AliasSearch → String
  | .flowSensitive => "flow_sensitive"
  | .ptsBased => "pts_based"
  | .none => "none"
  | .lazy => "lazy"

def ofName? (s : String) : Option AliasSearch := all.find? (·.name == s)

end AliasSearch

inductive StaticFields where
  /-- Tracked like any other access path. -/
  | sensitive
  /-- Kept in one state that holds everywhere. -/
  | insensitive
  | ignored
deriving DecidableEq, Repr, Inhabited

namespace StaticFields

def all : List StaticFields := [.sensitive, .insensitive, .ignored]

def name : StaticFields → String
  | .sensitive => "context_flow_sensitive"
  | .insensitive => "context_flow_insensitive"
  | .ignored => "none"

def ofName? (s : String) : Option StaticFields := all.find? (·.name == s)

end StaticFields

inductive ImplicitFlows where
  | none
  /-- A tainted index taints the element that is accessed. -/
  | arrayAccesses
  /-- A tainted condition also taints what depends on it. -/
  | all
deriving DecidableEq, Repr, Inhabited

namespace ImplicitFlows

def values : List ImplicitFlows := [.none, .arrayAccesses, .all]

def name : ImplicitFlows → String
  | .none => "no_implicit_flows"
  | .arrayAccesses => "array_accesses"
  | .all => "all_implicit_flows"

def ofName? (s : String) : Option ImplicitFlows := values.find? (·.name == s)

def tracksArrayAccesses (m : ImplicitFlows) : Bool := m != .none

def tracksControlFlow (m : ImplicitFlows) : Bool := m == .all

end ImplicitFlows

structure PathSettings where
  /-- Most fields in an access path. -/
  length : Nat := 5
  /-- Fold recursive field chains into registered patterns. -/
  foldRecursive : Bool := true
  /-- Fold chains through outer instances. -/
  foldOuterThis : Bool := true
  /-- Collapse field groups that repeat at once. -/
  collapseRepeats : Bool := true
deriving DecidableEq, Repr, Inhabited

structure SolverSettings where
  /-- Neighbours kept at a join point. -/
  maxJoin : Option Nat := some 10
  /-- Calls with more targets are only stepped over. -/
  maxCallees : Option Nat := some 75
  /-- Facts with a longer history are dropped. -/
  maxPathLength : Option Nat := some 100
  threads : Option Nat := none
  /-- Drop neighbours with equal predecessor, statement and call site. -/
  mergeNeighbors : Bool := false
  /-- Taints that leave a method without calling context flow into all callers. -/
  followReturnsPastSeeds : Bool := true
deriving DecidableEq, Repr, Inhabited

structure SearchSettings where
  timeoutSecs : Option Nat := some 180
  /-- Facts visited for one result at most. -/
  maxVisited : Option Nat := none
  memoryBudget : Option Nat := none
deriving DecidableEq, Repr, Inhabited

structure Config where
  path : PathSettings := {}
  solver : SolverSettings := {}
  search : SearchSettings := {}
  aliasing : AliasSearch := .flowSensitive
  /-- Aliases found backwards stay inactive until the statement that creates them. -/
  flowSensitiveAliasing : Bool := true
  staticFields : StaticFields := .sensitive
  implicitFlows : ImplicitFlows := .none
  exceptions : Bool := true
  arrays : Bool := true
  /-- A new array of tainted size has a tainted length. -/
  arraySizes : Bool := true
  /-- Drop taints on casts that cannot succeed. -/
  typeChecking : Bool := true
  instanceOf : Bool := false
  excludeLibrary : Bool := true
  /-- Do not enter methods of system packages. -/
  ignoreSystemPackages : Bool := true
  inspectSources : Bool := false
  inspectSinks : Bool := true
  /-- Stop at this many results; zero never stops. -/
  stopAfter : Nat := 0
  /-- Solve for each source statement on its own. -/
  oneSourceAtATime : Bool := false
  timeoutSecs : Option Nat := none
  /-- The part of the memory budget at which the solvers stop. -/
  memoryThreshold : Float := 0.9
  memoryBudget : Nat := 4294967296
  watcherIntervalMs : Nat := 50
deriving Repr, Inhabited

inductive Preset where
  | fast
  | balanced
  | precise
deriving DecidableEq, Repr, Inhabited

/-- Names of presets are read without regard to case. -/
def Preset.ofName? (s : String) : Option Preset :=
  match s.toLower with
  | "fast" => some .fast
  | "balanced" => some .balanced
  | "precise" => some .precise
  | _ => none

inductive ConfigError where
  | range (field value low high hint : String)
  | conflict (issue fix : String)
  | unknownPreset (name : String)
  | file
  | yaml
  | json
  | invalid (reason : String)
deriving DecidableEq, Repr, Inhabited

def ConfigError.message : ConfigError → String
  | .range field value low high hint =>
    "Invalid range for field '" ++ field ++ "': " ++ value ++ " not in " ++ low ++ "..=" ++ high ++
      ". " ++ hint
  | .conflict issue fix => "Configuration conflict: " ++ issue ++ ". Fix: " ++ fix
  | .unknownPreset name =>
    "Unknown preset '" ++ name ++ "'. Valid presets: fast, balanced, precise"
  | .file => "IO error"
  | .yaml => "YAML parsing error"
  | .json => "JSON parsing error"
  | .invalid reason => "Validation error: " ++ reason

namespace Config

def ofPreset : Preset → Config
  | .fast =>
    { path := { length := 3 }
      solver := { maxJoin := some 5, maxCallees := some 20 }
      staticFields := .insensitive
      exceptions := false }
  | .balanced => {}
  | .precise =>
    { path := { length := 7 }
      solver := { maxJoin := none, maxCallees := none }
      implicitFlows := .all }

private def maxCount : String := "18446744073709551615"

def check (c : Config) : Except ConfigError Unit := do
  if c.path.length > 100 then
    throw (.range "access_path.access_path_length" (toString c.path.length) "0" "100"
      "Long access paths rarely add precision; 5 is a good default")
  if c.staticFields != .ignored && c.path.length == 0 then
    throw (.conflict "static field tracking requires access paths of at least one field"
      "set static_field_tracking_mode to none or raise access_path_length")
  if !(c.memoryThreshold > 0.0 && c.memoryThreshold ≤ 1.0) then
    throw (.range "memory_threshold" (NumberStyle.message.write c.memoryThreshold)
      "0 (exclusive)" "1" "The threshold is a fraction of memory_budget_bytes")
  if c.solver.threads == some 0 then
    throw (.range "solver.threads" "0" "1" maxCount "Omit the option to use one thread per CPU")
  if c.solver.maxJoin == some 0 then
    throw (.range "solver.max_join_point_abstractions" "0" "1" maxCount
      "Omit the option to keep every join-point abstraction")
  if c.watcherIntervalMs == 0 then
    throw (.range "watcher_interval_ms" "0" "1" maxCount "Watchers need a positive poll interval")
  if c.implicitFlows.tracksControlFlow && c.aliasing == .lazy then
    throw (.conflict "implicit flows cannot be combined with lazy aliasing"
      "use the flow_sensitive or pts_based aliasing algorithm")

/-- Aliases wait for their activation only where the alias search knows the order of statements. -/
def defersActivation (c : Config) : Bool :=
  c.flowSensitiveAliasing && (c.aliasing == .flowSensitive || c.aliasing == .lazy)

end Config
end LeakTrace
