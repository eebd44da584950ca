import FlowGraph.Dominators.Fixpoint
import FlowGraph.Flow

/-!
The post-dominators of a body. Block `a` post-dominates block `b` if every way from `b` to a
block without successors passes `a`. A body can have several blocks without successors, so the
tree hangs off an additional node that stands behind all of them; it has the number after the
last slot of the block arena. Blocks from which none of them can be reached are not in the tree.
-/

namespace FlowGraph

structure PostDominators where
  owner : BodyId
  /-- The blocks without successors, in layout order. -/
  exits : List BlockId
  /-- The node behind all exits. -/
  sink : Nat
  tree : Tree
  deriving DecidableEq, Repr, Inhabited

/-- A graph over numbered nodes, given by the table of their neighbours. -/
def Graph.ofTable (table : Array (List Nat)) : Graph Nat where
  nodes := List.range table.size
  next n :=
    match table[n]? with
    | some neighbours => .ok neighbours
    | none => .error .outOfBounds
  mem_nodes n neighbours h := by
    rw [List.mem_range]
    rcases Nat.lt_or_ge n table.size with hn | hn
    · exact hn
    · rw [Array.getElem?_eq_none hn] at h
      cases h

/-- The graph of a body with its edges turned round and the sink in front of the exits. -/
structure ExitTable where
  exits : List BlockId
  /-- The blocks that lead to each node. -/
  sources : Array (List Nat)
  /-- The blocks that each node leads to; an exit leads to the sink. -/
  targets : Array (List Nat)

/-- Enter block `b` into the table. -/
def ExitTable.addBlock (f : Body) (table : ExitTable) (b : BlockId) : Except Fault ExitTable := do
  let sink := f.blocks.size
  let sources := table.sources.setIfInBounds b.index
    ((← f.predecessors b).map (·.block.index))
  let forward ← f.successors b
  if forward.isEmpty then
    return {
      exits := table.exits ++ [b]
      sources := sources.modify sink (· ++ [b.index])
      targets := table.targets.modify b.index (· ++ [sink]) }
  return { table with
    sources
    targets := table.targets.setIfInBounds b.index (forward.map BlockId.index) }

def Body.exitTable (f : Body) : Except Fault ExitTable :=
  let start := Array.replicate (f.blocks.size + 1) []
  f.layout.foldlM (ExitTable.addBlock f) ⟨[], start, start⟩

/-- The post-dominator tree of a body. -/
def Body.postDominators (f : Body) : Except Fault PostDominators := do
  let sink := f.blocks.size
  let table ← f.exitTable
  let order ← (Graph.ofTable table.sources).postOrder sink []
  let tree ← Tree.ofOrder sink order.reverse table.targets
  return { owner := f.id, exits := table.exits, sink, tree }

namespace PostDominators

/-- The node of a block; a block with a number beyond the arena has none. -/
def node? (d : PostDominators) (b : BlockId) : Option Nat :=
  if b.index < d.sink then some b.index else none

/-- The block of a node; the sink is none. -/
def block? (d : PostDominators) (n : Nat) : Option BlockId :=
  if n = d.sink then none else some ⟨n⟩

/-- The immediate post-dominator. A block has none if its parent is the sink, or if it cannot
reach an exit. -/
def ipdom? (d : PostDominators) (b : BlockId) : Option BlockId := do
  d.block? (← d.tree.parent? (← d.node? b))

/-- Whether every way from `b` to an exit passes `a`. -/
def postDominates (d : PostDominators) (a b : BlockId) : Bool :=
  match d.node? a, d.node? b with
  | some m, some n => d.tree.dominates m n
  | _, _ => a = b

def properlyPostDominates (d : PostDominators) (a b : BlockId) : Bool :=
  a ≠ b && d.postDominates a b

/-- Whether an exit can be reached from `b`. -/
def reachesExit (d : PostDominators) (b : BlockId) : Bool :=
  match d.node? b with
  | some n => d.tree.contains n
  | none => false

/-- The nearest block that post-dominates both; none if the two only meet in the sink. -/
def nearestCommon? (d : PostDominators) (a b : BlockId) : Option BlockId := do
  d.block? (← d.tree.meet? (← d.node? a) (← d.node? b))

/-- The first block of the layout that the stored tree places otherwise than a fresh one. -/
def staleness? (d : PostDominators) (f : Body) : Except Fault (Option Staleness) := do
  if d.owner ≠ f.id then .error .foreignPostDominators
  let fresh ← f.postDominators
  return f.layout.findSome? fun b =>
    if d.ipdom? b ≠ fresh.ipdom? b || d.reachesExit b ≠ fresh.reachesExit b then
      some (.postDominator b (d.ipdom? b) (fresh.ipdom? b))
    else none

def assertFresh (d : PostDominators) (f : Body) : Except Fault Unit := do
  match ← d.staleness? f with
  | some cause => .error (.stale .postDominators f.name cause)
  | none => return ()

end PostDominators

end FlowGraph
