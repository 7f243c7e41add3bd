import LeakTrace.Config.Document
import LeakTrace.Input.Decode

/-!
# Settings inside a request

A request gives its settings either as a record laid over a preset, or as a list of single changes.
-/

namespace LeakTrace
namespace Config

/-- A record laid over a preset, `balanced` unless it names another. One thread is used unless the
record asks for more. The result is not checked. -/
def ofOverlay (j : Json) : Decode Config := do
  let preset := ((j.get "preset").str?.bind Preset.ofName?).getD .balanced
  let changes := .obj (j.members.filter (·.1 != "preset"))
  match read? Format.json 0 (overlay (ofPreset preset).toJson changes) with
  | some c =>
    let threads := c.solver.threads.getD 1
    return { c with solver := { c.solver with threads := some threads } }
  | none => throw (.unsupported "config" j)

private def word {α : Type} (ofName? : String → Option α) (j : Json) : Decode α := do
  match ofName? (← j.text) with
  | some a => pure a
  | none => throw (.unsupported "option" j)

def set (c : Config) (name : String) (v : Json) : Decode Config := do
  let count : Decode (Option Nat) := v.optional Json.nat
  match name with
  | "access_path_length" => return { c with path := { c.path with length := ← v.nat } }
  | "aliasing_algorithm" => return { c with aliasing := ← word AliasSearch.ofName? v }
  | "flow_sensitive_aliasing" => return { c with flowSensitiveAliasing := v.flag false }
  | "static_field_tracking" => return { c with staticFields := ← word StaticFields.ofName? v }
  | "implicit_flow_mode" => return { c with implicitFlows := ← word ImplicitFlows.ofName? v }
  | "exceptions" => return { c with exceptions := v.flag false }
  | "data_flow_timeout" => return { c with timeoutSecs := ← count }
  | "memory_threshold" =>
    return { c with memoryThreshold := v.float?.getD (0.0 / 0.0) }
  | "memory_budget" => return { c with memoryBudget := (← count).getD 0 }
  | "path_memory_budget" => return { c with search := { c.search with memoryBudget := ← count } }
  | "path_reconstruction_timeout" =>
    return { c with search := { c.search with timeoutSecs := ← count } }
  | "max_join_point_abstractions" =>
    return { c with solver := { c.solver with maxJoin := ← count } }
  | "max_callees_per_call_site" =>
    return { c with solver := { c.solver with maxCallees := ← count } }
  | "threads" => return { c with solver := { c.solver with threads := some (← v.nat) } }
  | "one_source_at_a_time" => return { c with oneSourceAtATime := v.flag false }
  | "stop_after_first_k_flows" => return { c with stopAfter := ← v.nat }
  | "inspect_sources" => return { c with inspectSources := v.flag false }
  | "inspect_sinks" => return { c with inspectSinks := v.flag false }
  | "exclude_library_classes" => return { c with excludeLibrary := v.flag false }
  | "type_checking" => return { c with typeChecking := v.flag false }
  | _ => throw (.unsupported "option" (.str name))

end Config
end LeakTrace
