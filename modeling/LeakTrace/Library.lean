import LeakTrace.Alias.Query

/-!
# Calls that are not entered

What a call of a modelled library method does to a fact, which calls share their contents with the
receiver, and the two runtime methods that copy and make arrays.
-/

namespace LeakTrace
namespace Env

def modelOf? (e : Env) (s : Stmt) : Option Model := do
  let models ← e.models
  let c ← s.call?
  models.ofCall? c

/-- Nothing but the model handles taints at the call. -/
def isExclusive (e : Env) (s : Stmt) : Bool := ((e.modelOf? s).map (·.exclusive)).getD false

def isModelled (e : Env) (s : Stmt) : Bool := (e.modelOf? s).isSome

end Env

namespace Track

/-! ## Models -/

/-- The facts after a modelled call, `none` if the call is not modelled. -/
def modelTaints (s : Stmt) (f : Fact) : Track (Option FactSet) := do
  let e ← read
  match e.modelOf? s, s.call? with
  | some model, some c =>
    match f.path.base with
    | none => return some [f]
    | some base =>
      let onBase := c.base == some base
      let onArg := c.args.any fun a => a.local? == some base
      let lhs := s.lhs?.filter fun v => v.local?.isSome
      let overwritten := (lhs.bind Value.local?) == some base
      let killed := model.kills && (onBase || onArg)
      let kept : FactSet := if overwritten || killed then [] else [f]
      if killed then return some kept
      let add (set : FactSet) (v : Option Value) : Track FactSet := do
        match v with
        | none => return set
        | some v =>
          let path ← paths (Paths.ofValue v true)
          return set.insertAll (← derive f path (some s.id)).toList
      let set ← add kept (if model.taintsResult && (onBase || onArg) then lhs else none)
      let set ← add set (if model.taintsBase && onArg then c.base.map .var else none)
      return some set
  | _, _ => return none

/-- The facts with which a backward search goes on above a call whose result shares its contents
with the receiver, `none` for other calls. -/
def sharingAliases (s : Stmt) (f : Fact) : Track (Option FactSet) := do
  let e ← read
  match e.models, s.call? with
  | some _, some c =>
    if !e.sharing.contains c.method.signature then return none
    match c.base, s.lhs?, f.path.base with
    | some b, some lhs, some l =>
      if lhs == .var l then
        let path ← paths (Paths.onto f.accessPath (.var b))
        return some (FactSet.insertAll [f] (← derive f path (some s.id)).toList)
      else return some [f]
    | _, _, _ => return some [f]
  | _, _ => return none

/-! ## Runtime methods -/

def arrayCopySignature : String :=
  "<java.lang.System: void arraycopy(java.lang.Object,int,java.lang.Object,int,int)>"

def newArraySignature : String :=
  "<java.lang.reflect.Array: java.lang.Object newArray(java.lang.Class,int)>"

end Track

/-- A call of one of the runtime methods that are understood. -/
def Stmt.isNativeCall (s : Stmt) : Bool :=
  s.call?.any fun c =>
    c.method.signature == Track.arrayCopySignature || c.method.signature == Track.newArraySignature

/-- The facts that a runtime method adds, `none` if it adds nothing. -/
def Track.nativeTaints (s : Stmt) (f : Fact) (args : List Value) : Track (Option FactSet) := do
  let e ← read
  let a := f.accessPath
  let finish (path : Option AccessPath) : Track (Option FactSet) := do
    match ← derive f path (some s.id) with
    | some g => return some [g.withCall (← fresh) s.id]
    | none => return none
  match s.call?, f.path.base with
  | some c, some base =>
    if c.method.signature == arrayCopySignature then
      match args[0]?, args[2]? with
      | some src, some dest =>
        if f.isActive && src.local? == some base && e.casts.checkPath f.path dest.ty then
          finish (← paths (Paths.ontoTyped a dest a.ty false))
        else return none
      | _, _ => return none
    else if c.method.signature == newArraySignature then
      match args[1]?, s.lhs? with
      | some size, some lhs =>
        if size.local? == some base then
          finish (← paths (Paths.rebase a lhs none false true .length))
        else return none
      | _, _ => return none
    else return none
  | _, _ => return none

end LeakTrace
