import LeakTrace.Rule.Basic

/-!
# Contents, lengths and indices of arrays

Reading an element of a tainted array gives a tainted value with one dimension less; the length of
an array is tainted unless only its contents are; a new array of tainted size has a tainted length.
-/

namespace LeakTrace

/-- The fact about the left side of an assignment that reads an array. -/
def Rule.throughArray (f : Fact) (s : Stmt) (lhs rhs : Value) : Track (Option Fact) := do
  let e ← read
  let a := f.accessPath
  let at' (path : Option AccessPath) : Track (Option Fact) := Track.derive f path (some s.id)
  match rhs with
  | .length op =>
    if !(← Track.readsTaint f op) || a.part == .contents then return none
    at' (← Track.paths (Paths.ofTyped lhs (some .int) true .both))
  | .element base index =>
    if a.part == .length then return none
    if a.base == some base then
      at' (← Track.paths (Paths.rebase a lhs (a.ty.bind Ty.element?) false true a.part))
    else if a.toPath.isOn index && e.config.implicitFlows.tracksArrayAccesses then
      at' (← Track.paths (Paths.rebase a lhs none false true .both))
    else return none
  | .allocArray _ size =>
    if !e.config.arraySizes then return none
    if !(← Track.readsTaint f size) then return none
    at' (← Track.paths (Paths.rebase a lhs none false true .length))
  | _ => return none

def Rule.array : Rule where
  name := "array"
  normal d1 f s _ := do
    match s.action with
    | .assign lhs rhs =>
      if f.path.isEmpty then return none
      match ← throughArray f s lhs rhs with
      | none => return none
      | some g =>
        if s.canCreateAliases lhs g.path then
          return some (← Track.computeAliases d1 s.id lhs [g] s.method g)
        else return some [g]
    | _ => return none

end LeakTrace
