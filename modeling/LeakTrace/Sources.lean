import LeakTrace.Lifecycle.Budget
import LeakTrace.Track

/-!
# From a sink back to the sources

The history of a fact is a graph: every fact points to the one it was derived from and to its
neighbours. A search walks all of it, depth first, and collects the origins it meets. It does not
match calls with returns, so it may find too many sources but none is missed within its limits.
-/

namespace LeakTrace

structure Found where
  origin : Origin
  cut : Bool
deriving Repr, Inhabited

structure Finder where
  expired : Bool := false
  /-- How many facts one search may visit. -/
  maxVisited : Option Nat := none
  /-- Memory that is in use when the search starts. -/
  baseline : Nat := 0
  stopped : Option StopReason := none
  visited : Nat := 0
deriving Inhabited

structure Search where
  hit : SinkHit
  found : List Found
  complete : Bool

namespace Finder

def stop (f : Finder) (r : StopReason) : Finder :=
  { f with stopped := StopReason.keepFirst f.stopped r }

def bytes (f : Finder) : Nat := counter (f.baseline + visitedBytes f.visited)

def collect (found : List Found) (f : Fact) : List Found :=
  match f.origin with
  | some o => if found.any (·.origin == o) then found else found ++ [⟨o, f.originCut⟩]
  | none => found

/-- Visits the facts on the stack. Every fact is visited once and puts its neighbours and its
predecessor on the stack, so `fuel` need not be more than the number of all these links. -/
def visit (w : World) : Nat → Finder → List Fact → Std.HashSet Nat → List Found →
    Finder × List Found × Bool
  | 0, finder, _, _, found => (finder, found, false)
  | _, finder, [], _, found =>
    (finder, found.mergeSort fun a b => a.origin.stmt ≤ b.origin.stmt, true)
  | n + 1, finder, f :: stack, seen, found =>
    if seen.contains f.id then visit w n finder stack seen found
    else
      let seen := seen.insert f.id
      let finder := { finder with visited := finder.visited + 1 }
      let finder := if finder.expired then finder.stop .timeout else finder
      if finder.stopped.isSome || finder.maxVisited.any (seen.size > ·) then (finder, found, false)
      else
        visit w n finder ((w.neighborsOf f).reverse ++ f.pred.toList ++ stack) seen
          (collect found f)

/-- The number of links between facts, and a little more. -/
def links (w : World) : Nat := w.neighbors.values.flatten.length + w.nextId + 2

def find (w : World) (finder : Finder) (f : Fact) : Finder × List Found × Bool :=
  visit w (links w) finder [f] ∅ []

/-- Searches the sources of all results, and orders the answers by the statement of the sink. -/
def findAll (w : World) (finder : Finder) (hits : List SinkHit) : Finder × List Search :=
  let (finder, searches) := hits.foldl (fun (finder, searches) hit =>
    let (finder, found, complete) := finder.find w hit.fact
    (finder, searches ++ [⟨hit, found, complete⟩])) (finder, [])
  (finder, searches.mergeSort fun a b => a.hit.stmt ≤ b.hit.stmt)

end Finder

/-- The second is covered by the first: the same sink sees a path that means more. -/
def SinkHit.covers (a b : SinkHit) : Bool :=
  a.stmt == b.stmt && a.definition == b.definition && a.fact.sameState b.fact.toTaint &&
    a.fact.path != b.fact.path && a.fact.path.entails b.fact.path

/-- Drops what is covered by another observation at the same sink. -/
def SinkHit.pruned (hits : List SinkHit) : List SinkHit := hits.filter fun h => !hits.any (·.covers h)

end LeakTrace
