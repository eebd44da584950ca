import FlowGraph.Fault

/-!
Rooted trees over numbered nodes, given by the parent of each node. The entry of a node in the
tree is its parent, and the root is its own; a node without an entry is not in the tree.

The view of a tree is `ancestors`, the way from a node up to the root. A way cannot be longer
than the table of parents without passing a node twice, which bounds the climb.
-/

namespace FlowGraph

structure Tree where
  parents : Array (Option Nat)
  root : Nat
  deriving DecidableEq, Repr, Inhabited

namespace Tree

/-- The entry of a node: the parent, or the node itself for the root. -/
def link? (t : Tree) (n : Nat) : Option Nat := t.parents[n]?.join

def contains (t : Tree) (n : Nat) : Bool := (t.link? n).isSome

/-- The parent of a node; the root and nodes outside the tree have none. -/
def parent? (t : Tree) (n : Nat) : Option Nat := (t.link? n).filter (· ≠ n)

/-- The nodes passed in at most `steps` steps up from `n`. -/
def climb (t : Tree) : Nat → Nat → List Nat
  | 0, _ => []
  | steps + 1, n =>
    match t.parent? n with
    | some p => p :: t.climb steps p
    | none => []

/-- The nodes above `n`, the nearest first. -/
def ancestors (t : Tree) (n : Nat) : List Nat := t.climb t.parents.size n

/-- Whether `a` is `b` or above it. -/
def dominates (t : Tree) (a b : Nat) : Bool := a = b || a ∈ t.ancestors b

/-- The nodes right below `n`, in increasing order. -/
def children (t : Tree) (n : Nat) : List Nat :=
  (List.range t.parents.size).filter fun c => t.parent? c = some n

/-- The distance of `n` from the root. -/
def depth? (t : Tree) (n : Nat) : Option Nat :=
  if t.contains n then some (t.ancestors n).length else none

/-- The lowest node that is above or equal to both: the first at which the ways up from `a` and
`b` agree, the longer way having been cut to the length of the other. -/
def meet? (t : Tree) (a b : Nat) : Option Nat :=
  if t.contains a && t.contains b then
    let left := a :: t.ancestors a
    let right := b :: t.ancestors b
    let pairs := (left.drop (left.length - right.length)).zip
      (right.drop (right.length - left.length))
    (pairs.find? fun pair => pair.1 = pair.2).map Prod.fst
  else none

/-- The table of parents with room for node `n`. -/
def roomFor (t : Tree) (n : Nat) : Array (Option Nat) :=
  t.parents ++ Array.replicate (n + 1 - t.parents.size) none

/-- Hang the new leaf `n` under `parent`. -/
def insert (t : Tree) (n parent : Nat) : Except Fault Tree :=
  if t.contains n then .error (.alreadyInTree n)
  else .ok { t with parents := (t.roomFor n).setIfInBounds n (some parent) }

/-- Move `n`, and with it all below it, under `parent`. -/
def reparent (t : Tree) (n parent : Nat) : Except Fault Tree :=
  if !t.contains n then .error (.notInTree n)
  else if t.dominates n parent then .error (.underDescendant n parent)
  else .ok { t with parents := t.parents.setIfInBounds n (some parent) }

/-- Remove `n`; the nodes right below it move up to its parent. -/
def erase (t : Tree) (n : Nat) : Tree :=
  match t.parent? n with
  | none => { t with parents := t.parents.setIfInBounds n none }
  | some p =>
    let hoisted := (t.children n).foldl (fun ps c => ps.setIfInBounds c (some p)) t.parents
    { t with parents := hoisted.setIfInBounds n none }

end Tree

end FlowGraph
