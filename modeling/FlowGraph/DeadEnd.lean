import FlowGraph.Flow

namespace FlowGraph

namespace Body

/-- Whether the terminator of `b` leaves the function. -/
def isExiting (f : Body) (b : BlockId) : Except Fault Bool :=
  return (← f.block b).terminator.any Terminator.isExiting

/-- The blocks from which some way leads out of the function. -/
def blocksReachingExit (f : Body) : Except Fault (List BlockId) := do
  let exiting ← f.layout.filterM f.isExiting
  f.backflow.flood exiting.reverse []

end Body

/-- The blocks that are not dead ends, once they have been asked for. -/
structure DeadEnds where
  reaching : Option (List BlockId) := none
  deriving DecidableEq, Repr, Inhabited

namespace DeadEnds

def isComputed (d : DeadEnds) : Bool := d.reaching.isSome

/-- The blocks that are not dead ends: the stored set, or else that of `f`. -/
def reachingOf (d : DeadEnds) (f : Body) : Except Fault (List BlockId) :=
  match d.reaching with
  | some reaching => .ok reaching
  | none => f.blocksReachingExit

/-- Compute the set now, unless it is stored. -/
def compute (d : DeadEnds) (f : Body) : Except Fault DeadEnds :=
  return ⟨some (← d.reachingOf f)⟩

def isDeadEnd (d : DeadEnds) (f : Body) (b : BlockId) : Except Fault Bool :=
  return b ∉ (← d.reachingOf f)

/-- The dead ends in layout order. -/
def deadEnds (d : DeadEnds) (f : Body) : Except Fault (List BlockId) := do
  let reaching ← d.reachingOf f
  return f.layout.filter (· ∉ reaching)

end DeadEnds

end FlowGraph
