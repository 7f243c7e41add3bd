import LeakTrace.Input.Config
import LeakTrace.Input.Program
import LeakTrace.Track

/-!
# Sources, sinks and models inside a request

What an analysis is told beside the program: which calls are sources and sinks, how library methods
treat taints, and how far the points-to oracle is trusted.
-/

namespace LeakTrace
namespace Input

private def sourceTarget (j : Json) : Decode SourceTarget := do
  match j with
  | .str "return" => return .result
  | .str "base" => return .base
  | j => return .argument (← j.nat)

/-- Sources and sinks. A source without targets taints its result. -/
def oracle (n : Names) (j : Json) : Decode Oracle := do
  let o ← (← (j.get "sources").listOrEmpty).foldlM (fun (o : Oracle) s => do
    match s with
    | .arr _ =>
      return o.addSource (← n.sig (s.item 0)) (← (← (s.item 1).listOrEmpty).mapM sourceTarget)
    | s => return o.addSource (← n.sig s) [.result]) {}
  let o ← (← (j.get "params").listOrEmpty).foldlM (fun (o : Oracle) s => do
    return o.addParamSource (← n.sig (s.item 0)) (← (s.item 1).nat)) o
  let o ← (← (j.get "sinks").listOrEmpty).foldlM (fun (o : Oracle) s => do
    match s with
    | .arr _ =>
      return o.addSink (← n.sig (s.item 0)) (some (← (← (s.item 1).listOrEmpty).mapM Json.nat))
    | s => return o.addSink (← n.sig s) none) o
  (← (j.get "return_sinks").listOrEmpty).foldlM (fun (o : Oracle) s => do
    return o.addReturnSink (← n.sig s)) o

private def effect (j : Json) : Decode Effect := do
  match Effect.ofName? (← j.text) with
  | some e => return e
  | none => throw (.unsupported "effect" j)

/-- Models of library methods, written out or as a document, and the calls that share contents. -/
def models (n : Names) (j : Json) :
    Decode (Except ConfigError (Option Models × List String)) := do
  match j with
  | .null => return .ok (none, [])
  | j =>
    let sharing ← (← (j.get "alias_sigs").listOrEmpty).mapM fun s => do
      return (← n.sig s).signature
    match j.get "yaml" with
    | .str text => return (Models.ofYaml text).map fun ms => (some ms, sharing)
    | _ =>
      let ms ← (← (j.get "models").listOrEmpty).foldlM (fun (ms : Models) m => do
        let sig ← n.sig (m.item 0)
        (← (m.item 1).listOrEmpty).foldlM (fun (ms : Models) e => do
          return ms.addEffect sig (← effect e)) ms) {}
      return .ok (some ms, sharing)

def pointsTo : Json → Decode PointsTo
  | .null => return .byType
  | .str "always" => return .always
  | .str "never" => return .never
  | j => throw (.unsupported "points_to" j)

/-- Everything an analysis is told; a document of models that cannot be read is handed back. -/
def env (j : Json) : Decode (ProgramInput × Except ConfigError Env) := do
  let input ← ProgramInput.ofJson (j.get "program")
  let config ← Config.ofOverlay (j.get "config")
  let oracle ← oracle input.names (j.get "oracle")
  let models ← models input.names (j.get "wrapper")
  let pointsTo ← pointsTo (j.get "points_to")
  let graph := input.graph
  return (input, models.map fun (models, sharing) =>
    { config, graph, oracle, models, sharing, native := (j.get "native").flag true, pointsTo })

end Input
end LeakTrace
