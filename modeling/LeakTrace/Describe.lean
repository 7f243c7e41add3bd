import LeakTrace.Fact.Basic

/-!
# Unabridged texts

Where the short texts leave out what a reader can guess, these show everything a path or a fact
consists of: locals carry their number, a path its type, its fields and its flags, a fact its state.
That a path was shortened is no part of what it means, so showing it is a choice.
-/

namespace LeakTrace

def Local.describe (l : Local) : String := l.name ++ "#" ++ toString l.id

def Field.describe (f : Field) : String := (if f.isStatic then "static " else "") ++ f.text

/-- The field, with the type if it is not the declared one. -/
def Step.describe (s : Step) : String :=
  s.field.describe ++ if s.ty == s.field.ty then "" else " as " ++ s.ty.text

def Path.describe (p : Path) (cut : Bool) : String :=
  let flag (b : Bool) (s : String) : String := if b then s else ""
  let part := match p.part with
    | .contents => "C"
    | .length => "L"
    | .both => "B"
  String.intercalate "|"
    [(p.base.map Local.describe).getD "-", (p.ty.map Ty.text).getD "-",
     String.intercalate ", " (p.steps.map Step.describe),
     flag p.deep "s" ++ flag cut "c" ++ part ++ flag p.immutable "i"]

def Definition.describe (d : Definition) : String :=
  (match d.kind with
    | .source => "Source "
    | .sink => "Sink ") ++ d.text

def Origin.describe (o : Origin) (cut : Bool) : String :=
  o.definition.describe ++ " @ " ++ StmtId.text o.stmt ++ " : " ++ o.path.describe cut ++
    match o.data with
    | some d => " data=" ++ d
    | none => ""

/-- The path and what is not as usual about the fact. -/
def Taint.describe (t : Taint) (cut originCut : Bool) : String :=
  let part (present : Bool) (s : String) : List String := if present then [s] else []
  String.intercalate "; " (
    [t.path.describe cut] ++
    (t.waitsFor.map fun s => "inactive until " ++ StmtId.text s).toList ++
    (t.turn.map fun s => "turn " ++ StmtId.text s).toList ++
    part t.thrown "thrown" ++ part t.implicit "implicit" ++
    part t.inConditional ("pd " ++ String.intercalate " " (t.joins.map Join.text)) ++
    part t.cutDependent "cutdep" ++
    (t.origin.map fun o => "src " ++ o.describe originCut).toList)

def Fact.describe (f : Fact) : String := f.toTaint.describe f.cut f.originCut

end LeakTrace
