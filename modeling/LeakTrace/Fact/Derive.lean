import LeakTrace.Fact.Basic

/-!
# Deriving facts from facts

Every operation takes the identity that a new fact would get. Some return the fact they were given
instead, where the new one would not say anything else.

**A derivation that changes the path forgets the origin.** The origin is found again by following
the history, so that facts from different sources that say the same become one.
-/

namespace LeakTrace
namespace Fact

def zero (id : Nat) : Fact := { path := Path.empty, id }

def ofSource (id : Nat) (origin : Origin) (cut : Bool) (thrown implicit : Bool) : Fact :=
  { path := origin.path, origin := some origin, thrown, implicit, id, cut, originCut := cut
    stmt := some origin.stmt }

def next (id : Nat) (f : Fact) : Fact :=
  { f with id, pred := some f, stmt := none, call := none, length := f.length + 1 }

def move (id : Nat) (f : Fact) (a : AccessPath) (stmt : Option StmtId) : Fact :=
  if f.path == a.toPath && f.stmt == stmt then { f.next id with stmt }
  else
    { f.next id with
      stmt
      path := a.toPath
      cut := a.cut
      joins := if a.isEmpty then f.joins else []
      cutDependent := f.cutDependent || (!f.isActive && a.cut)
      origin := none
      turn := none }

/-- Always a new fact, for a path that may not exist. -/
def derive? (id : Nat) (f : Fact) (a : Option AccessPath) (stmt : Option StmtId) (implicit : Bool) :
    Option Fact :=
  a.map fun a => { f.move id a stmt with implicit }

/-- A fact with a new path, the given one where nothing changes. -/
def deriveAs? (id : Nat) (f : Fact) (a : Option AccessPath) (stmt : Option StmtId)
    (implicit : Bool) : Option Fact :=
  match a with
  | some a =>
    if f.path == a.toPath && f.stmt == stmt && f.implicit == implicit then some f
    else f.derive? id a stmt implicit
  | none => none

/-- The alias of an active fact that only counts from a statement on. -/
def deactivate (id : Nat) (f : Fact) (unit : StmtId) (deferred : Bool) : Fact :=
  if !deferred || !f.isActive then f
  else
    let g := f.move id f.accessPath none
    { g with joins := [], waitsFor := some unit, cutDependent := g.cutDependent || g.cut }

def activate (id : Nat) (f : Fact) : Fact :=
  if f.isActive then f else { f.next id with origin := none, waitsFor := none }

/-- The fact as the alias search hands it over at a statement. -/
def turnAt (id : Nat) (f : Fact) (unit : StmtId) : Fact :=
  if f.turn == some unit then f
  else { f.next id with origin := none, stmt := f.stmt, turn := some unit }

def throwAt (id : Nat) (f : Fact) (stmt : StmtId) : Fact :=
  { f.next id with stmt := some stmt, origin := none, thrown := true }

def catchInto? (id : Nat) (f : Fact) (a : Option AccessPath) : Option Fact :=
  a.map fun a => { f.move id a none with thrown := false }

/-- The fact that a branch on tainted data leaves behind: it names no place, and lasts until the
branch ends. -/
def enterConditional (id : Nat) (f : Fact) (join : Join) (stmt : StmtId) : Fact :=
  if f.joins.contains join then f
  else
    let g := f.move id AccessPath.empty (some stmt)
    { g with implicit := true, joins := join :: g.joins }

def callConditional (id : Nat) (f : Fact) (call : StmtId) : Fact :=
  { f.move id AccessPath.empty (some call) with implicit := true, joins := [] }

def leaveConditional (id : Nat) (f : Fact) : Fact :=
  if f.joins.isEmpty then f else { f.next id with origin := none, joins := f.joins.drop 1 }

/-- Attaches an origin that earlier derivations dropped. -/
def withOrigin (id : Nat) (f : Fact) (origin : Origin) (originCut : Bool) : Fact :=
  if f.origin == some origin then f
  else { f.next id with pred := none, origin := some origin, originCut, stmt := f.stmt }

/-- Records the call that a fact returned through; history and length stay. -/
def withCall (id : Nat) (f : Fact) (call : StmtId) : Fact := { f with id, call := some call }

end Fact
end LeakTrace
