import FlowGraph.Dominators.Fixpoint
import FlowGraph.Flow

/-!
The dominators of a body. Block `a` dominates block `b` if every way from the entry to `b` passes
`a`. Points and values are compared by their blocks and, inside a block, by position.

The tree is a picture of the body at one time. It can be kept up to date when a block is put on
an edge or absorbed by its predecessor; after other edits it is stale. Questions about points
and values are answered for the body that the tree was made from, and no other.
-/

namespace FlowGraph

structure Dominators where
  owner : BodyId
  tree : Tree
  deriving DecidableEq, Repr, Inhabited

/-- A table with one entry for each slot of the block arena, filled for the blocks of the layout. -/
def Body.blockTable {α : Type} (f : Body) (start : α) (entry : BlockId → Except Fault α) :
    Except Fault (Array α) :=
  f.layout.foldlM (fun table b => return table.setIfInBounds b.index (← entry b))
    (Array.replicate f.blocks.size start)

/-- The dominator tree of a body. -/
def Body.dominators (f : Body) : Except Fault Dominators := do
  let entry ← f.entry
  let preds ← f.blockTable [] fun b => return (← f.predecessors b).map (·.block.index)
  let order ← f.reversePostOrderFrom entry []
  return ⟨f.id, ← Tree.ofOrder entry.index (order.map BlockId.index) preds⟩

namespace Dominators

def root (d : Dominators) : BlockId := ⟨d.tree.root⟩

/-- The immediate dominator; the entry and blocks that cannot be reached have none. -/
def idom? (d : Dominators) (b : BlockId) : Option BlockId :=
  (d.tree.parent? b.index).map BlockId.mk

/-- Whether `b` can be reached from the entry. -/
def isReachable (d : Dominators) (b : BlockId) : Bool := d.tree.contains b.index

/-- Whether `a` dominates `b`. A block that cannot be reached is dominated by itself only. -/
def dominates (d : Dominators) (a b : BlockId) : Bool := d.tree.dominates a.index b.index

def properlyDominates (d : Dominators) (a b : BlockId) : Bool := a ≠ b && d.dominates a b

/-- The blocks that `b` dominates immediately, by number. -/
def children (d : Dominators) (b : BlockId) : List BlockId :=
  (d.tree.children b.index).map BlockId.mk

/-- The number of proper dominators of a block that can be reached. -/
def depth? (d : Dominators) (b : BlockId) : Option Nat := d.tree.depth? b.index

/-- The nearest block that dominates both, if both can be reached. -/
def nearestCommon? (d : Dominators) (a b : BlockId) : Option BlockId :=
  (d.tree.meet? a.index b.index).map BlockId.mk

/-- Refuse a body that the tree was not made from. -/
def requireOwner (d : Dominators) (f : Body) : Except Fault Unit :=
  if d.owner = f.id then .ok () else .error (.foreignBody d.owner f.name f.id)

/-- Whether point `a` dominates point `b`: in one block by position, else by the blocks. -/
def pointDominates (d : Dominators) (f : Body) (a b : Point) : Except Fault Bool := do
  d.requireOwner f
  let (blockA, positionA) ← f.pointPosition a
  let (blockB, positionB) ← f.pointPosition b
  if blockA = blockB then return positionA ≤ positionB
  return d.properlyDominates blockA blockB

def pointProperlyDominates (d : Dominators) (f : Body) (a b : Point) : Except Fault Bool :=
  if a = b then .ok false else d.pointDominates f a b

/-- Whether `v` dominates a point: a result where its instruction does, an argument where its
block does. -/
def valueDominates (d : Dominators) (f : Body) (v : ValueId) (point : Point) :
    Except Fault Bool := do
  match (← f.value v).origin with
  | .result i => d.pointDominates f (.instr i) point
  | .argument b _ _ =>
    d.requireOwner f
    return d.dominates b (← f.pointPosition point).1

/-- As `valueDominates`, but a result does not dominate its own instruction. -/
def valueProperlyDominates (d : Dominators) (f : Body) (v : ValueId) (point : Point) :
    Except Fault Bool := do
  match (← f.value v).origin with
  | .result i => d.pointProperlyDominates f (.instr i) point
  | .argument _ _ _ => d.valueDominates f v point

/-- Record a new block under its immediate dominator. -/
def insert (d : Dominators) (b idom : BlockId) : Except Fault Dominators :=
  return { d with tree := ← d.tree.insert b.index idom.index }

/-- Give `b` another immediate dominator; what `b` dominates moves with it. -/
def reparent (d : Dominators) (b idom : BlockId) : Except Fault Dominators :=
  return { d with tree := ← d.tree.reparent b.index idom.index }

/-- Forget `b`; what it dominated immediately goes to its immediate dominator. -/
def erase (d : Dominators) (b : BlockId) : Dominators :=
  { d with tree := d.tree.erase b.index }

/-- The first block of the layout that the stored tree places otherwise than a fresh one. -/
def staleness? (d : Dominators) (f : Body) : Except Fault (Option Staleness) := do
  let fresh ← f.dominators
  return f.layout.findSome? fun b =>
    if d.idom? b ≠ fresh.idom? b || d.isReachable b ≠ fresh.isReachable b then
      some (.dominator b (d.idom? b) (fresh.idom? b))
    else none

def assertFresh (d : Dominators) (f : Body) : Except Fault Unit := do
  match ← d.staleness? f with
  | some cause => .error (.stale .dominators f.name cause)
  | none => return ()

end Dominators

end FlowGraph
