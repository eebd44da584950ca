import FlowGraph.Tree

/-!
The dominator tree of a rooted graph, by iteration. The table `idom` holds for each node that
has been reached the best candidate so far for its immediate dominator. A sweep goes through the
nodes in reverse post-order and gives each node the lowest common ancestor of its predecessors
that have been reached; the sweeps are repeated until one changes nothing.

Two bounds make the iteration total. In reverse post-order every candidate stands before its
node, so the two fingers of `common` take at most as many steps as there are nodes, and a
candidate can only move towards the root, which it does fewer times than there are nodes. A
table of predecessors that belongs to no graph can break this; exceeding a bound is the fault
`diverges`.
-/

namespace FlowGraph.Tree

/-- The lowest common ancestor of `a` and `b` in the table `idom`: the finger at the later node
moves up until the two meet. -/
def common (order : List Nat) (idom : Array (Option Nat)) : Nat → Nat → Nat → Except Fault Nat
  | 0, _, _ => .error .diverges
  | steps + 1, a, b =>
    if a = b then .ok a
    else if order.idxOf b < order.idxOf a then
      match idom[a]?.join with
      | some up => common order idom steps up b
      | none => .error (.brokenChain a)
    else
      match idom[b]?.join with
      | some up => common order idom steps a up
      | none => .error (.brokenChain b)

/-- The number of steps that suffices for `common` in a table of `size` nodes. -/
def fingerSteps (size : Nat) : Nat := 2 * size + 1

/-- Take the predecessor `p` into account: `best` is the common ancestor of those before it. -/
def joinPred (order : List Nat) (idom : Array (Option Nat)) (best : Option Nat) (p : Nat) :
    Except Fault (Option Nat) :=
  match idom[p]? with
  | none => .error .outOfBounds
  | some none => .ok best
  | some (some _) =>
    match best with
    | none => .ok (some p)
    | some a => some <$> common order idom (fingerSteps idom.size) p a

/-- Give `node` the common ancestor of its predecessors, if one of them has been reached. -/
def improve (order : List Nat) (preds : Array (List Nat)) (idom : Array (Option Nat))
    (node : Nat) : Except Fault (Array (Option Nat)) := do
  match ← (preds[node]?.getD []).foldlM (joinPred order idom) none with
  | some best => return idom.setIfInBounds node (some best)
  | none => return idom

/-- Improve every node but the root once. -/
def sweep (order : List Nat) (preds : Array (List Nat)) (idom : Array (Option Nat)) :
    Except Fault (Array (Option Nat)) :=
  order.tail.foldlM (improve order preds) idom

/-- Sweep until nothing changes, at most the given number of times. -/
def settle (order : List Nat) (preds : Array (List Nat)) :
    Nat → Array (Option Nat) → Except Fault (Array (Option Nat))
  | 0, _ => .error .diverges
  | sweeps + 1, idom => do
    let improved ← sweep order preds idom
    if improved = idom then return idom
    settle order preds sweeps improved

/-- The number of sweeps that suffices for `size` nodes. -/
def sweepCount (size : Nat) : Nat := size * size + 2

/-- The dominator tree of a graph, from its nodes in reverse post-order, the root first, and the
predecessors of each node. -/
def ofOrder (root : Nat) (order : List Nat) (preds : Array (List Nat)) : Except Fault Tree := do
  let start := (Array.replicate preds.size none).setIfInBounds root (some root)
  return ⟨← settle order preds (sweepCount preds.size) start, root⟩

end FlowGraph.Tree
