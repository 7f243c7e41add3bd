import LeakTrace.Rule.Basic

/-!
# Taints are created at sources

The zero fact never travels on: at a source it becomes the taints that the source creates, anywhere
else it ends. Calls of sources are only entered if the configuration asks for it, and the same holds
for sinks.
-/

namespace LeakTrace
namespace Rule

/-- The taints that a source statement creates, together with aliases of what they taint. -/
def sourceTaints (d1 : Fact) (s : Stmt) (info : SourceInfo) : Track FactSet :=
  info.paths.foldlM (fun set a => do
    let origin : Origin := ⟨info.definition, a.toPath, s.id, none⟩
    let f := Fact.ofSource (← Track.fresh) origin a.cut false false
    s.uses.foldlM (fun set v =>
      if a.startsWith v && !(v.ty.isString && !a.immutable) then
        Track.computeAliases d1 s.id v set s.method f
      else return set) (set.insert f)) []

def atSource (d1 f : Fact) (s : Stmt) (elsewhere : RuleM Unit) :
    RuleM (Option FactSet) := do
  let e ← read
  if !e.isZero f then return none
  RuleM.killSource
  match ← Track.sourceInfo s.id with
  | some info => return some (← sourceTaints d1 s info)
  | none =>
    elsewhere
    return none

def source : Rule where
  name := "source"
  normal d1 f s _ := atSource d1 f s RuleM.killAll
  callToReturn d1 f s := atSource d1 f s (pure ())
  call _ f s _ := do
    let e ← read
    if !e.config.inspectSources && e.isSource s.id then RuleM.killAll
    if !e.config.inspectSinks && e.isSink s.id then
      if (← Track.sinkInfo s (some f.path)).isSome then RuleM.killAll
    return none

end Rule
end LeakTrace
