import LeakTrace.Graph.Flow

/-!
# Immediate postdominators

A statement is postdominated by every statement that all paths from it to an exit pass. The sets
are the largest ones with

    pdom i = {i}                          if `i` has no successor
    pdom i = {i} ∪ ⋂ (s succ of i) pdom s  otherwise

found by shrinking full sets until nothing changes. Sets of positions are bit masks, so that an
intersection is one operation on numbers.

**The immediate postdominator** of `i` is the member of its set whose own set is smaller by one.
A statement without one is postdominated by the exit of its method only.
-/

namespace LeakTrace

/-- Sets of positions below some size, one bit each. -/
abbrev Mask := Nat

namespace Mask

def full (n : Nat) : Mask := Nat.pow 2 n - 1

def single (i : Nat) : Mask := Nat.pow 2 i

def count (n : Nat) (m : Mask) : Nat := ((List.range n).filter fun i => m.testBit i).length

end Mask

namespace Postdom

/-- The set that the successors' sets prescribe for position `i`. -/
def refine (succs : Array (List Nat)) (sets : Array Mask) (i : Nat) : Mask :=
  match succs[i]?.getD [] with
  | [] => Mask.single i
  | ss => ss.foldl (fun acc s => acc &&& (sets[s]?.getD 0)) (Mask.full succs.size) ||| Mask.single i

/-- One pass over all positions, last to first, each set computed from the current ones. -/
def sweep (succs : Array (List Nat)) (sets : Array Mask) : Array Mask :=
  (List.range succs.size).foldr (fun i sets => sets.setIfInBounds i (refine succs sets i)) sets

/-- Passes until nothing changes. Every pass but the last removes a position from some set. -/
def settle (succs : Array (List Nat)) : Nat → Array Mask → Array Mask
  | 0, sets => sets
  | n + 1, sets =>
    let sets' := sweep succs sets
    if sets' == sets then sets else settle succs n sets'

/-- Postdominator sets of a graph given by its successor lists. -/
def sets (succs : Array (List Nat)) : Array Mask :=
  settle succs (succs.size * succs.size + 1)
    (Array.ofFn fun i : Fin succs.size =>
      if (succs[i]).isEmpty then Mask.single i else Mask.full succs.size)

/-- The member of the set of `i`, other than `i`, whose own set is smaller by one. -/
def immediate? (n : Nat) (sets : Array Mask) (i : Nat) : Option Nat :=
  let own := sets[i]?.getD 0
  (List.range n).find? fun p =>
    p != i && own.testBit p && Mask.count n (sets[p]?.getD 0) + 1 == Mask.count n own

end Postdom

/-- The immediate postdominators of the statements of a method, by position in its body. -/
def Program.postdominators (p : Program) (m : Method) : List (StmtId × Option StmtId) :=
  let body := m.body.toArray
  let succs := ((p.exits m).map fun (_, e) => e.all.filterMap fun t => body.idxOf? t).toArray
  let sets := Postdom.sets succs
  m.body.zipIdx.map fun (s, i) =>
    (s, (Postdom.immediate? succs.size sets i).bind fun p => body[p]?)

end LeakTrace
