import LeakTrace.Lifecycle.Abort

/-!
# Estimates of memory, and counters of a run

Memory is estimated from the number of statements, of table entries and of facts visited by a source
search. Estimates and counters are 64 bits wide.
-/

namespace LeakTrace

def counter (n : Nat) : Nat := n % Nat.pow 2 64

def programBytes (stmts : Nat) : Nat := counter (stmts * 256)

def tableBytes (entries : Nat) : Nat := counter (entries * 192)

def visitedBytes (facts : Nat) : Nat := counter (facts * 48)

/-- The share of a budget that may be used: cut to a whole number, none if the share is negative. -/
def memoryLimit (budget : Nat) (threshold : Float) : Nat :=
  (budget.toUInt64.toFloat * threshold).toUInt64.toNat

def isExhausted (used budget : Nat) (threshold : Float) : Bool :=
  used > memoryLimit budget threshold

/-- What a watcher over memory does to the work it watches: it looks once when it starts, and later
if the estimate has changed and it is still watching. -/
def watchMemory (used : Nat) (later : Option Nat) (budget : Nat) (threshold : Float)
    (watched : List Nat) (rs : Reasons) : Reasons :=
  if isExhausted used budget threshold || later.any (isExhausted · budget threshold) then
    rs.stopAll watched .outOfMemory
  else rs

/-- What a watcher over time does, if it is given the time to fire. -/
def watchTime (millis : Nat) (awaited : Bool) (watched : List Nat) (rs : Reasons) : Reasons :=
  if millis == 0 || awaited then rs.stopAll watched .timeout else rs

structure Performance where
  forward : Nat := 0
  backward : Nat := 0
  seeds : Nat := 0
  sources : Nat := 0
  sinks : Nat := 0
  /-- The largest estimate of memory, in bytes. -/
  memory : Nat := 0
deriving DecidableEq, Repr, Inhabited

def Performance.edges (p : Performance) : Nat := counter (p.forward + p.backward)

def Performance.add (p q : Performance) : Performance where
  forward := counter (p.forward + q.forward)
  backward := counter (p.backward + q.backward)
  seeds := counter (p.seeds + q.seeds)
  sources := max p.sources q.sources
  sinks := max p.sinks q.sinks
  memory := max p.memory q.memory

end LeakTrace
