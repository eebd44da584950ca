import FlowGraph.Body.Basic
import FlowGraph.Graph

namespace FlowGraph

/-- The graph with every list of neighbours cut down by `select`. -/
def Graph.refine {α : Type} (g : Graph α) (select : List α → List α) : Graph α where
  nodes := g.nodes
  next a := (g.next a).map select
  mem_nodes a neighbours h := by
    cases hnext : g.next a with
    | error fault => rw [hnext] at h; cases h
    | ok all => exact g.mem_nodes a all hnext

namespace Body

/-- The live blocks with their successors. -/
def flow (f : Body) : Graph BlockId where
  nodes := f.liveBlocks
  next := f.successors
  mem_nodes b neighbours h := by
    cases hb : f.block b with
    | error fault => simp [successors, hb, bind, Except.bind] at h
    | ok data => exact mem_liveBlocks.2 ⟨data, block_eq_ok.1 hb⟩

/-- The live blocks with the blocks that have an edge to them, once for each edge. -/
def backflow (f : Body) : Graph BlockId where
  nodes := f.liveBlocks
  next b := return (← f.predecessors b).map Edge.block
  mem_nodes b neighbours h := by
    cases hb : f.block b with
    | error fault => simp [predecessors, hb, bind, Except.bind] at h
    | ok data => exact mem_liveBlocks.2 ⟨data, block_eq_ok.1 hb⟩

/-- The blocks that can be reached from `start` without the blocks in `seen`, in post-order. -/
def postOrderFrom (f : Body) (start : BlockId) (seen : List BlockId) :
    Except Fault (List BlockId) :=
  f.flow.postOrder start seen

def reversePostOrderFrom (f : Body) (start : BlockId) (seen : List BlockId) :
    Except Fault (List BlockId) :=
  return (← f.postOrderFrom start seen).reverse

end Body

/-- An end of a list. -/
inductive ListEnd where
  | front
  | back
  deriving DecidableEq, Repr

/-- Take an item from each of the given ends in turn; there is none once the list is used up.
Returns what was taken and what is left. -/
def takeEnds {α : Type} : List ListEnd → List α → List (Option α) × List α
  | [], items => ([], items)
  | .front :: ends, items =>
    let (taken, left) := takeEnds ends items.tail
    (items.head? :: taken, left)
  | .back :: ends, items =>
    let (taken, left) := takeEnds ends items.dropLast
    (items.getLast? :: taken, left)

/-- The blocks that can be reached from the entry, in post-order. -/
structure BlockOrder where
  post : List BlockId
  deriving DecidableEq, Repr

/-- Number the blocks of a body. -/
def Body.blockOrder (f : Body) : Except Fault BlockOrder :=
  return ⟨← f.postOrderFrom (← f.entry) []⟩

namespace BlockOrder

/-- The blocks in reverse post-order; the entry is the first. -/
def reverse (o : BlockOrder) : List BlockId := o.post.reverse

/-- The position of `b` in post-order. -/
def number? (o : BlockOrder) (b : BlockId) : Option Nat := o.post.idxOf? b

/-- The position of `b` in reverse post-order. -/
def reverseNumber? (o : BlockOrder) (b : BlockId) : Option Nat :=
  (o.number? b).map fun n => o.post.length - 1 - n

end BlockOrder

end FlowGraph
