import FlowGraph.Body.Edges
import FlowGraph.Body.Build

namespace FlowGraph.Body

/-- Lead edge `e` of `b` to `dest`, with its operands or without. -/
def redirect (f : Body) (b : BlockId) (e : Nat) (dest : BlockId) (keepArgs : Bool) :
    Except Fault Body := do
  if keepArgs then f.setSuccessor b e dest
  else
    let (_, f) ← f.setEdgeArgs b e []
    f.setSuccessor b e dest

/-- Lead the given edges of `b` to `dest`. -/
def redirectEach (f : Body) (b dest : BlockId) (keepArgs : Bool) : List Nat → Except Fault Body
  | [] => .ok f
  | e :: rest => do (← f.redirect b e dest keepArgs).redirectEach b dest keepArgs rest

/-- The numbers of the edges in a successor list that lead to `dest`. -/
def edgesTo (dest : BlockId) (successors : List BlockId) : List Nat :=
  (successors.zipIdx.filter (·.1 = dest)).map Prod.snd

/-- Lead every edge of `b` that goes to `old` to `new`. -/
def redirectAll (f : Body) (b old new : BlockId) (keepArgs : Bool) : Except Fault Body := do
  f.redirectEach b new keepArgs (edgesTo old (← f.successors b))

/-- Give `b` a new phi for each of the given values, with its type and ownership. -/
def copyAsPhis (f : Body) (b : BlockId) : List ValueId → Except Fault (List ValueId × Body)
  | [] => .ok ([], f)
  | v :: rest => do
    let data ← f.value v
    let (phi, f) ← f.addPhi b data.type data.ownership
    let (phis, f) ← f.copyAsPhis b rest
    return (phi :: phis, f)

/-- The values that a block `via`, put on edge `e` of `b`, has to pass on to the target of the
edge. Explicit operands are those values. An implicit payload exists only once the edge is
taken, so `via` gets a phi to receive it for each argument of the target. -/
def forwardedArgs (f : Body) (b : BlockId) (e : Nat) (via : BlockId) :
    Except Fault (List ValueId × Body) := do
  match ← f.edgeArgs b e with
  | .explicit args => return (args, f)
  | .implicit _ =>
    let dest ← (← f.terminator b).successor e
    f.copyAsPhis via (← f.block dest).args

end FlowGraph.Body
