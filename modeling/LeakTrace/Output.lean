import LeakTrace.Describe
import LeakTrace.Results

/-!
# Results as JSON

Short constructors for JSON trees, and the form of connections and counters.
-/

namespace LeakTrace
namespace Output

def str (s : String) : Json := .str s

def nat (n : Nat) : Json := .int n

def strs (l : List String) : Json := .arr (l.map .str)

def nats (l : List Nat) : Json := .arr (l.map nat)

def opt {α : Type} (f : α → Json) : Option α → Json
  | some a => f a
  | none => .null

/-- Texts in the order of their code points; repeated ones stay. -/
def ordered (l : List String) : List String := l.mergeSort fun a b => decide (a ≤ b)

end Output

open Output

/-- A connection; `withCut` also shows which paths were shortened. -/
def Connection.toJson (withCut : Bool) (c : Connection) : Json :=
  let path (p : Path) (cut : Bool) : Json := str (p.describe (withCut && cut))
  let source := c.source.origin
  .obj
    [("sink", nat c.sink.stmt), ("sink_def", str c.sink.definition.describe),
     ("sink_ap", path c.sink.path.toPath c.sink.path.cut), ("source", nat source.stmt),
     ("source_def", str source.definition.describe), ("source_ap", path source.path c.source.cut),
     ("data", opt str source.data)]

def Performance.toJson (p : Performance) : Json := .obj
  [("forward", nat p.forward), ("alias", nat p.backward), ("edges", nat p.edges),
   ("seeds", nat p.seeds), ("sources", nat p.sources), ("sinks", nat p.sinks),
   ("memory", nat p.memory)]

/-- What a fact says; the zero fact is called by its name. -/
def Env.label (e : Env) (t : Taint) : String :=
  if t == e.zero.toTaint then "zero" else t.describe false false

end LeakTrace
