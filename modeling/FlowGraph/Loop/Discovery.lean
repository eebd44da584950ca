import FlowGraph.Loop.Basic

namespace FlowGraph

namespace Body

/-- The blocks with an edge to `header` that `header` dominates. -/
def latchesOf (f : Body) (d : Dominators) (header : BlockId) : Except Fault (List BlockId) :=
  return (← f.predBlocks header).filter fun b => d.isReachable b && d.dominates header b

/-- The edges between blocks that can be reached, turned round. -/
def reachableBackflow (f : Body) (d : Dominators) : Graph BlockId :=
  f.backflow.refine fun sources => sources.eraseDups.filter d.isReachable

/-- The header and all blocks from which a latch can be reached without passing it. -/
def loopBlocks (f : Body) (d : Dominators) (header : BlockId) (latches : List BlockId) :
    Except Fault (List BlockId) :=
  (f.reachableBackflow d).flood latches.reverse [header]

end Body

/-- Blocks are listed by their numbers in reverse post-order; a block without one comes first. -/
def BlockOrder.le (order : BlockOrder) (a b : BlockId) : Bool :=
  match order.reverseNumber? a, order.reverseNumber? b with
  | none, _ => true
  | some _, none => false
  | some m, some n => m ≤ n

/-- The smallest of the loops that contain `b`, the first of them if there are several. -/
def smallestAround (loops : Array Loop) (b : BlockId) : Option LoopId :=
  let around := (List.range loops.size).filterMap fun index =>
    match loops[index]? with
    | some l => if l.contains b then some (l.blocks.length, LoopId.mk index) else none
    | none => none
  (around.foldl (fun (best : Option (Nat × LoopId)) candidate =>
    match best with
    | some smallest => if candidate.1 < smallest.1 then some candidate else some smallest
    | none => some candidate) none).map Prod.snd

/-- Add the loop of `header` to the loops found so far, if it heads one. -/
def addLoopOf (f : Body) (d : Dominators) (order : BlockOrder) (loops : Array Loop)
    (header : BlockId) : Except Fault (Array Loop) := do
  let latches ← f.latchesOf d header
  if latches.isEmpty then return loops
  let blocks ← f.loopBlocks d header latches
  return loops.push {
    header
    blocks := blocks.mergeSort order.le
    parent := smallestAround loops header }

namespace LoopForest

/-- Enter `id` at the loop around it and one level below that, or at the top level. -/
def link (forest : LoopForest) (id : LoopId) : Except Fault LoopForest := do
  match (← forest.loop id).parent with
  | some outer =>
    let depth := (← forest.loop outer).depth + 1
    let forest := forest.modifyLoop id fun l => { l with depth }
    return forest.modifyLoop outer fun l => { l with children := l.children ++ [id] }
  | none => return { forest with topLevel := forest.topLevel ++ [id] }

/-- Record `id`, a loop at the given depth, as the innermost loop of `b`, unless a loop at least
as deep is recorded. -/
def offerInnermost (id : LoopId) (depth : Nat) (forest : LoopForest) (b : BlockId) :
    Except Fault LoopForest := do
  match forest.innermost? b with
  | some other =>
    if (← forest.loop other).depth < depth then
      return { forest with innermost := putInnermost forest.innermost b id }
    else return forest
  | none => return { forest with innermost := putInnermost forest.innermost b id }

/-- Record `id` as the innermost loop of those of its blocks that lie in no deeper one. -/
def offer (forest : LoopForest) (id : LoopId) : Except Fault LoopForest := do
  let l ← forest.loop id
  l.blocks.foldlM (offerInnermost id l.depth) forest

/-- The forest of the given loops. Children and depths follow from the parents, and the innermost
loops from the depths. -/
def ofLoops (loops : Array Loop) : Except Fault LoopForest := do
  let forest : LoopForest := { loops }
  let forest ← forest.ids.foldlM link forest
  forest.ids.foldlM offer forest

end LoopForest

/-- The natural loops of a body; `d` must be its dominator tree. -/
def Body.loops (f : Body) (d : Dominators) : Except Fault LoopForest := do
  let order ← f.blockOrder
  LoopForest.ofLoops (← order.reverse.foldlM (addLoopOf f d order) #[])

namespace LoopForest

/-- The header of the loop around the loop that `header` heads. -/
def headerOutside? (forest : LoopForest) (header : BlockId) : Except Fault (Option BlockId) := do
  match forest.innermost? header with
  | some id => forest.headerOf? (← forest.loop id).parent
  | none => return none

/-- How the innermost loops of `b` in the stored and in the fresh forest differ. -/
def membershipStaleness? (forest fresh : LoopForest) (b : BlockId) :
    Except Fault (Option Staleness) := do
  let stored ← forest.headerAround? b
  let actual ← fresh.headerAround? b
  return if stored ≠ actual then some (.loopMembership b stored actual) else none

/-- How the loop around `l`, a loop of the fresh forest, differs from that in the stored one. -/
def parentStaleness? (forest fresh : LoopForest) (l : Loop) :
    Except Fault (Option Staleness) := do
  let actual ← fresh.headerOf? l.parent
  let stored ← forest.headerOutside? l.header
  return if stored ≠ actual then some (.loopParent l.header stored actual) else none

/-- The first difference between the stored forest and a fresh one: in the number of loops, in
the innermost loop of a block of the layout, or in the loop around a loop. -/
def staleness? (forest : LoopForest) (f : Body) (d : Dominators) :
    Except Fault (Option Staleness) := do
  let fresh ← f.loops d
  if fresh.loops.size ≠ forest.loops.size then
    return some (.loopCount forest.loops.size fresh.loops.size)
  match ← f.layout.findSomeM? (forest.membershipStaleness? fresh) with
  | some cause => return some cause
  | none => fresh.loops.toList.findSomeM? (forest.parentStaleness? fresh)

def assertFresh (forest : LoopForest) (f : Body) (d : Dominators) : Except Fault Unit := do
  match ← forest.staleness? f d with
  | some cause => .error (.stale .loops f.name cause)
  | none => return ()

end LoopForest

end FlowGraph
