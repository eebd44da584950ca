import FlowGraph.Dominators.Forward

/-!
Natural loops. An edge from a latch to a header that dominates it closes a loop; the loop of a
header consists of the header and of all blocks from which one of its latches can be reached
without passing the header. Loops with one header are one loop.

Loops nest. A loop records the smallest loop around it, which always has a smaller number. From
these links follow the children and the depths of the loops, and from the depths the innermost loop
of each block; all three are recorded when a forest is made.
-/

namespace FlowGraph

/-- A loop of a forest. -/
structure LoopId where
  index : Nat
  deriving DecidableEq, Repr, Inhabited

instance : ToString LoopId := ⟨fun l => "loop" ++ toString l.index⟩

/-- A natural loop. -/
structure Loop where
  header : BlockId
  /-- The blocks of the loop, those of inner loops included; the header is the first. -/
  blocks : List BlockId
  parent : Option LoopId
  /-- The loops directly inside this one. -/
  children : List LoopId := []
  /-- How many loops deep this one is; 1 for a loop that lies in no other. -/
  depth : Nat := 1
  deriving DecidableEq, Repr, Inhabited

def Loop.contains (l : Loop) (b : BlockId) : Bool := b ∈ l.blocks

structure LoopForest where
  loops : Array Loop
  /-- The loops that lie in no other. -/
  topLevel : List LoopId := []
  innermost : List (BlockId × LoopId) := []
  deriving DecidableEq, Repr, Inhabited

namespace LoopForest

/-- The loops of the forest, outer loops before those inside them. -/
def ids (forest : LoopForest) : List LoopId := (List.range forest.loops.size).map LoopId.mk

def loop? (forest : LoopForest) (id : LoopId) : Option Loop := forest.loops[id.index]?

def loop (forest : LoopForest) (id : LoopId) : Except Fault Loop :=
  match forest.loop? id with
  | some l => .ok l
  | none => .error .outOfBounds

def modifyLoop (forest : LoopForest) (id : LoopId) (g : Loop → Loop) : LoopForest :=
  { forest with loops := forest.loops.modify id.index g }

def parent? (forest : LoopForest) (id : LoopId) : Option LoopId :=
  (forest.loop? id).bind (·.parent)

/-- The loop `id` and those around it, in at most `steps` steps up. -/
def climb (forest : LoopForest) : Nat → LoopId → List LoopId
  | 0, _ => []
  | steps + 1, id =>
    id :: match forest.parent? id with
      | some outer => forest.climb steps outer
      | none => []

/-- The loop `id` and those around it, the innermost first. -/
def enclosing (forest : LoopForest) (id : LoopId) : List LoopId :=
  forest.climb (forest.loops.size + 1) id

/-- Whether `inner` is `outer` or lies inside it: the loops around `inner` are looked up until
`outer` is met. -/
def nested (forest : LoopForest) (outer inner : LoopId) : Except Fault Bool :=
  (forest.enclosing inner).anyM fun id => do
    if id = outer then return true
    let _ ← forest.loop id
    return false

/-- The loops on the stack, each followed by those inside it, in at most `steps` steps. -/
def preorderFrom (forest : LoopForest) : Nat → List LoopId → Except Fault (List LoopId)
  | _, [] => .ok []
  | 0, _ :: _ => .error .diverges
  | steps + 1, id :: stack => do
    let l ← forest.loop id
    return id :: (← forest.preorderFrom steps (l.children ++ stack))

/-- All loops, each followed by those inside it. -/
def preorder (forest : LoopForest) : Except Fault (List LoopId) :=
  forest.preorderFrom forest.loops.size forest.topLevel

/-- The innermost loop that `b` lies in. -/
def innermost? (forest : LoopForest) (b : BlockId) : Option LoopId := forest.innermost.lookup b

/-- How many loops deep `b` is; 0 outside of loops. -/
def blockDepth (forest : LoopForest) (b : BlockId) : Except Fault Nat := do
  match forest.innermost? b with
  | some id => return (← forest.loop id).depth
  | none => return 0

/-- The header of a loop, if one is given. -/
def headerOf? (forest : LoopForest) (id : Option LoopId) : Except Fault (Option BlockId) :=
  id.mapM fun id => return (← forest.loop id).header

/-- The header of the innermost loop that `b` lies in. -/
def headerAround? (forest : LoopForest) (b : BlockId) : Except Fault (Option BlockId) :=
  forest.headerOf? (forest.innermost? b)

def isHeader (forest : LoopForest) (b : BlockId) : Except Fault Bool :=
  return (← forest.headerAround? b) = some b

/-- The record of innermost loops with `id` for `b`. -/
def putInnermost (record : List (BlockId × LoopId)) (b : BlockId) (id : LoopId) :
    List (BlockId × LoopId) :=
  (b, id) :: record.filter (·.1 ≠ b)

/-- Put `b` into loop `id`, at the end of its list if it is new. -/
def enter (b : BlockId) (forest : LoopForest) (id : LoopId) : Except Fault LoopForest := do
  let l ← forest.loop id
  if l.contains b then return forest
  return forest.modifyLoop id fun l => { l with blocks := l.blocks ++ [b] }

def leave (b : BlockId) (forest : LoopForest) (id : LoopId) : Except Fault LoopForest := do
  let _ ← forest.loop id
  return forest.modifyLoop id fun l => { l with blocks := l.blocks.filter (· ≠ b) }

/-- Put `b` into `id` and the loops around it; `id` becomes its innermost loop. -/
def addBlock (forest : LoopForest) (b : BlockId) (id : LoopId) : Except Fault LoopForest := do
  let forest ← (forest.enclosing id).foldlM (enter b) forest
  return { forest with innermost := putInnermost forest.innermost b id }

/-- Take `b`, which must not be a header, out of its innermost loop and the loops around it. -/
def removeBlock (forest : LoopForest) (b : BlockId) : Except Fault LoopForest := do
  match forest.innermost? b with
  | none => return forest
  | some id =>
    if (← forest.loop id).header = b then .error (.headsLoop b)
    else
      let forest ← (forest.enclosing id).foldlM (leave b) forest
      return { forest with innermost := forest.innermost.filter (·.1 ≠ b) }

end LoopForest

end FlowGraph
