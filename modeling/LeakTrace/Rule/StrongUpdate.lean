import LeakTrace.Rule.Basic

/-!
# Overwritten places are clean

An assignment to a local, to a field of the tainted base or to a static field overwrites what was
tainted there. Writing one element of an array overwrites nothing. A fact that was made active by
this very statement is the one that the statement writes, and stays.
-/

namespace LeakTrace

def Rule.justActivated (f : Fact) (s : StmtId) : Bool :=
  f.pred.any fun p => p.waitsFor == some s && p.path == f.path

def Rule.strongUpdate : Rule where
  name := "strong_update"
  normal _ f s _ := do
    match s.action with
    | .assign lhs _ =>
      if lhs.isElement || (!f.isActive && f.stmt == some s.id) || justActivated f s.id then
        return none
      let p := f.path
      if p.isInstanceField then
        match lhs with
        | .field b field =>
          if p.base == some b && p.firstField? == some field then RuleM.killAll
        | .var l => if p.base == some l then RuleM.killAll
        | _ => pure ()
      else if p.isStaticField then
        match lhs with
        | .global field => if p.firstField? == some field then RuleM.killAll
        | _ => pure ()
      else
        match p.base, lhs with
        | some b, .var l =>
          if l == b then
            -- An assignment that reads what it overwrites hands the taint to its new value.
            let readsSelf := s.uses.any fun u => u.local? == some b
            set ({ source := true, all := !readsSelf } : Kill)
        | _, _ => pure ()
      return none
    | _ => return none
  callToReturn _ f s := do
    match s.action with
    | .assign (.var l) _ =>
      match f.path.base with
      | some b => if ← Track.mayAliasValues (.var l) (.var b) then RuleM.killSource
      | none => pure ()
      return none
    | _ => return none

end LeakTrace
