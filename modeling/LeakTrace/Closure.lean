/-!
# Everything reachable, in breadth-first order

One walk serves every reachability question of the library: supertypes and subtypes of a class,
methods reachable from the entry points, methods a call can end up in. `closure next n start`
lists what `start` reaches through `next`, each item once, in the order in which a queue would
first hand it out.

**The bound counts items, not steps.** Each round takes one item that was not listed before, so a
bound of at least the number of distinct reachable items never cuts the walk short; callers pass
the size of the finite stock their items come from.
-/

namespace LeakTrace
variable {α : Type} [BEq α]

/-- The walk itself: `queue` waits to be looked at, `seen` is the answer so far. -/
def closureFrom (next : α → List α) : Nat → List α → List α → List α
  | 0, _, seen => seen
  | n + 1, queue, seen =>
    match queue.dropWhile (fun x => seen.contains x) with
    | [] => seen
    | x :: rest => closureFrom next n (rest ++ next x) (seen ++ [x])

/-- Items reachable from `start`, `start` first; `n` bounds how many items there can be. -/
def closure (next : α → List α) (n : Nat) (start : List α) : List α :=
  closureFrom next n start []

end LeakTrace
