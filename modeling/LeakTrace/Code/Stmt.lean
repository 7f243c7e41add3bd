import LeakTrace.Code.Value

/-!
# Statements

A statement is an `Action` at a numbered place of one method. Definitions come in two kinds: an
*entry* binds a local to what the runtime hands over (receiver, argument, caught exception), an
*assignment* writes a value. Calls occur alone or as the right side of an assignment, and
`Stmt.call?` finds both.
-/

namespace LeakTrace

/-- Statements are numbered through the whole program. -/
abbrev StmtId := Nat

/-- Methods are numbered in the order of their declaration. -/
abbrev MethodId := Nat

def StmtId.text (s : StmtId) : String := "s" ++ toString s

inductive Action where
  /-- A local receives what the runtime hands over. -/
  | entry (l : Local) (rhs : Value)
  | assign (lhs rhs : Value)
  | call (c : Call)
  | ret (v : Value)
  | retVoid
  | branch (cond : Value) (target : StmtId)
  | jump (target : StmtId)
  | throw (v : Value)
  | skip
deriving Repr, Inhabited

/-- Moves the targets of branches by `n` statements. -/
def Action.shift (n : Nat) : Action → Action
  | .branch c t => .branch c (n + t)
  | .jump t => .jump (n + t)
  | a => a

structure Stmt where
  id : StmtId
  method : MethodId
  action : Action
deriving Repr, Inhabited

namespace Stmt
variable (s : Stmt)

def isAssign : Bool :=
  match s.action with
  | .assign _ _ => true
  | _ => false

def isEntry : Bool :=
  match s.action with
  | .entry _ _ => true
  | _ => false

/-- Entries and assignments define their left side. -/
def isDefinition : Bool := s.isEntry || s.isAssign

def lhs? : Option Value :=
  match s.action with
  | .entry l _ => some (.var l)
  | .assign lhs _ => some lhs
  | _ => none

def rhs? : Option Value :=
  match s.action with
  | .entry _ rhs | .assign _ rhs => some rhs
  | _ => none

def call? (s : Stmt) : Option Call :=
  match s.action with
  | .call c => some c
  | .assign _ rhs => rhs.call?
  | _ => none

def isCall : Bool := s.call?.isSome

def returned? : Option Value :=
  match s.action with
  | .ret v => some v
  | _ => none

def isReturn : Bool :=
  match s.action with
  | .ret _ | .retVoid => true
  | _ => false

def isThrow : Bool :=
  match s.action with
  | .throw _ => true
  | _ => false

def isCatch : Bool :=
  match s.action with
  | .entry _ (.caught _) => true
  | _ => false

/-- Every value read by the statement, nested ones included. -/
def uses (s : Stmt) : List Value :=
  match s.action with
  | .entry _ rhs => [rhs]
  | .assign lhs rhs => lhs.uses ++ rhs :: rhs.uses
  | .call c => c.toValue.uses ++ [c.toValue]
  | .ret v | .throw v | .branch v _ => v :: v.uses
  | .retVoid | .jump _ | .skip => []

def defined? : Option Local :=
  match s.action with
  | .entry l _ | .assign (.var l) _ => some l
  | _ => none

def text (s : Stmt) : String :=
  match s.action with
  | .entry l rhs => l.name ++ " := " ++ rhs.text
  | .assign lhs rhs => lhs.text ++ " = " ++ rhs.text
  | .call c => c.toValue.text
  | .ret v => "return " ++ v.text
  | .retVoid => "return"
  | .branch c t => "if " ++ c.text ++ " goto " ++ StmtId.text t
  | .jump t => "goto " ++ StmtId.text t
  | .throw v => "throw " ++ v.text
  | .skip => "nop"

end Stmt
end LeakTrace
