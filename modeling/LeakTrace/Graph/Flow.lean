import LeakTrace.Code.Program

/-!
# Control flow inside one method

Where control can go after a statement: to the next one, to a branch target, and — for statements
that can raise, which are throws and calls — to every handler whose range covers them. A place is
listed once, and it counts as a handler only if no ordinary edge leads there already.
-/

namespace LeakTrace

/-- Where control can go after one statement. -/
structure Exits where
  normal : List StmtId
  handlers : List StmtId
deriving DecidableEq, Repr, Inhabited

def Exits.all (e : Exits) : List StmtId := e.normal ++ e.handlers

/-- Ordinary successors, given the statement that follows in the layout. -/
def Action.successors (next : Option StmtId) : Action → List StmtId
  | .jump t => [t]
  | .branch _ t => next.toList ++ if some t == next then [] else [t]
  | .ret _ | .retVoid | .throw _ => []
  | _ => next.toList

/-- The handlers that a trap list adds to the ordinary successors of `s`. -/
def Method.handlersOf (m : Method) (s : StmtId) (normal : List StmtId) : List StmtId :=
  m.traps.foldl (fun found t =>
    let covers := m.body.contains t.first && m.body.contains t.last && t.first ≤ s && s ≤ t.last
    if covers && !(normal ++ found).contains t.handler then found ++ [t.handler] else found) []

def Method.exitsOf (m : Method) (s : Stmt) (next : Option StmtId) : Exits :=
  let normal := s.action.successors next
  ⟨normal, if s.isThrow || s.isCall then m.handlersOf s.id normal else []⟩

/-- The exits of every statement of a list, each with the statement that follows it. -/
def Program.exitsOfList (p : Program) (m : Method) : List StmtId → List (StmtId × Exits)
  | [] => []
  | s :: rest => (s, m.exitsOf (p.stmt s) rest.head?) :: p.exitsOfList m rest

def Program.exits (p : Program) (m : Method) : List (StmtId × Exits) := p.exitsOfList m m.body

end LeakTrace
