import FlowGraph.Edit.Branch
import FlowGraph.Edit.Tracked

/-!
Putting a block on an edge. An edge is critical if its block has other edges and its target has
other incoming edges; code that belongs to such an edge has no place of its own until the edge
is split.
-/

namespace FlowGraph

/-- Put a new block on edge `e` of `b`, right after `b`. It passes on what the edge delivers. -/
def Body.splitEdge (f : Body) (b : BlockId) (e : Nat) : Except Fault (BlockId × Body) := do
  let dest ← (← f.terminator b).successor e
  let (mid, f) ← f.createBlockAfter b
  let (args, f) ← f.forwardedArgs b e mid
  let f ← f.redirect b e mid false
  let (_, f) ← f.setTerminator mid (.br dest args)
  return (mid, f)

/-- Whether an edge comes from a block with other edges and leads to a block with other incoming
edges. -/
def Body.isCriticalEdge (f : Body) (b : BlockId) (e : Nat) : Except Fault Bool := do
  let t ← f.terminator b
  if t.numEdges ≤ 1 then return false
  return (← f.predecessors (← t.successor e)).length > 1

/-- The critical edges of a body, in layout order and then by number. -/
def Body.criticalEdges (f : Body) : Except Fault (List Edge) := do
  let found ← f.layout.mapM fun b => do
    let edges := (← f.successors b).zipIdx.map Prod.snd
    return (← edges.filterM (f.isCriticalEdge b)).map (Edge.mk b)
  return found.flatten

/-- Enter the block `mid` on an edge from `b` to `dest`, if `b` can be reached. It is dominated
by `b`. It dominates `dest` if every other way into `dest` comes from a block that cannot be
reached or that `dest` dominates. -/
def Dominators.afterSplit (d : Dominators) (f : Body) (b mid dest : BlockId) :
    Except Fault Dominators := do
  if !d.isReachable b then return d
  let d ← d.insert mid b
  let incoming ← f.predecessors dest
  if incoming.all fun e => e.block = mid || !d.isReachable e.block || d.dominates dest e.block then
    d.reparent dest mid
  else return d

/-- The loop for a block on an edge from `b` to `dest`: the outer one of their innermost loops if
one lies in the other, else the loop around that of `dest`. A block on an edge that enters or
leaves all loops lies in none. -/
def LoopForest.loopOfEdge? (forest : LoopForest) (b dest : BlockId) :
    Except Fault (Option LoopId) := do
  match forest.innermost? b, forest.innermost? dest with
  | some source, some target =>
    if source = target then return some target
    else if ← forest.nested target source then return some target
    else if ← forest.nested source target then return some source
    else return (← forest.loop target).parent
  | _, _ => return none

/-- Enter the block `mid` on an edge from `b` to `dest`. -/
def LoopForest.afterSplit (forest : LoopForest) (b mid dest : BlockId) :
    Except Fault LoopForest := do
  match ← forest.loopOfEdge? b dest with
  | some id => forest.addBlock mid id
  | none => return forest

namespace Tracked

/-- Put a new block on edge `e` of `b`. -/
def splitEdge (t : Tracked) (b : BlockId) (e : Nat) : Except Fault (BlockId × Tracked) := do
  let dest ← (← t.body.terminator b).successor e
  let (mid, body) ← t.body.splitEdge b e
  let dominators ← t.dominators.mapM fun d => d.afterSplit body b mid dest
  let loops ← t.loops.mapM fun forest => forest.afterSplit b mid dest
  return (mid, { body, dominators, loops })

/-- Put a new block on edge `e` of `b` if the edge is critical. -/
def splitCriticalEdge (t : Tracked) (b : BlockId) (e : Nat) :
    Except Fault (Option BlockId × Tracked) := do
  if ← t.body.isCriticalEdge b e then
    let (mid, t) ← t.splitEdge b e
    return (some mid, t)
  return (none, t)

/-- Put a new block on the first critical edge from `source` to `dest`, if there is one. -/
def splitCriticalEdgeTo (t : Tracked) (source dest : BlockId) :
    Except Fault (Option BlockId × Tracked) := do
  let edges := Body.edgesTo dest (← t.body.successors source)
  match ← edges.findM? (t.body.isCriticalEdge source) with
  | some e =>
    let (mid, t) ← t.splitEdge source e
    return (some mid, t)
  | none => return (none, t)

/-- Put a new block on each of the given edges of `b`. -/
def splitEach (t : Tracked) (b : BlockId) : List Nat → Except Fault (List BlockId × Tracked)
  | [] => .ok ([], t)
  | e :: rest => do
    let (mid, t) ← t.splitEdge b e
    let (mids, t) ← t.splitEach b rest
    return (mid :: mids, t)

/-- Put a new block on every edge from `source` to `dest`. -/
def splitEdgesTo (t : Tracked) (source dest : BlockId) :
    Except Fault (List BlockId × Tracked) := do
  t.splitEach source (Body.edgesTo dest (← t.body.successors source))

/-- Put a new block on those of the given edges of `b` that are critical. -/
def splitCriticalEach (t : Tracked) (b : BlockId) : List Nat → Except Fault (Bool × Tracked)
  | [] => .ok (false, t)
  | e :: rest => do
    let (mid, t) ← t.splitCriticalEdge b e
    let (changed, t) ← t.splitCriticalEach b rest
    return (mid.isSome || changed, t)

/-- Put a new block on every critical edge of the given blocks. -/
def splitCriticalFrom (t : Tracked) : List BlockId → Except Fault (Bool × Tracked)
  | [] => .ok (false, t)
  | b :: rest => do
    let edges := List.range (← t.body.successors b).length
    let (here, t) ← t.splitCriticalEach b edges
    let (there, t) ← t.splitCriticalFrom rest
    return (here || there, t)

/-- Put a new block on every critical edge; tells whether there was one. -/
def splitAllCriticalEdges (t : Tracked) : Except Fault (Bool × Tracked) :=
  t.splitCriticalFrom t.body.layout

end Tracked

end FlowGraph
