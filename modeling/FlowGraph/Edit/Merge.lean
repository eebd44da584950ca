import FlowGraph.Edit.Tracked

namespace FlowGraph

/-- Let `b` absorb its successor, if it can; tells whether it could. -/
def Tracked.mergeWithSuccessor (t : Tracked) (b : BlockId) : Except Fault (Bool × Tracked) := do
  match ← t.body.mergeWithSuccessor b with
  | .error _ => return (false, t)
  | .ok (succ, body) =>
    let dominators := t.dominators.map fun d => d.erase succ
    let loops ← t.loops.mapM fun forest => forest.removeBlock succ
    return (true, { body, dominators, loops })

namespace Body

/-- Let `b` absorb its successor as long as it can; tells whether it could at all. Each time
there is one live block less. -/
def absorbChain (f : Body) (b : BlockId) : Except Fault (Bool × Body) :=
  match _hmerge : f.mergeWithSuccessor b with
  | .error fault => .error fault
  | .ok (.error _) => .ok (false, f)
  | .ok (.ok (_, g)) =>
    match g.absorbChain b with
    | .error fault => .error fault
    | .ok (_, last) => .ok (true, last)
termination_by f.liveBlocks.length
decreasing_by exact length_liveBlocks_lt_of_merge ‹_›

/-- One round of `absorbChain`, without the proof that it ends. -/
theorem absorbChain_eq (f : Body) (b : BlockId) : f.absorbChain b = (do
    match ← f.mergeWithSuccessor b with
    | .error _ => return (false, f)
    | .ok (_, g) => return (true, (← g.absorbChain b).2)) := by
  rw [absorbChain]
  split
  · rename_i hmerge
    rw [hmerge]
    rfl
  · rename_i hmerge
    rw [hmerge]
    rfl
  · rename_i g hmerge
    rw [hmerge]
    change _ = (g.absorbChain b >>= fun chain => pure (true, chain.2))
    rcases g.absorbChain b with fault | ⟨merged, last⟩ <;> rfl

/-- Let each of the given blocks absorb what it can. Blocks that are gone by then, or have no
terminator, are passed over. -/
def mergeEach (f : Body) : List BlockId → Except Fault (Bool × Body)
  | [] => .ok (false, f)
  | b :: rest => do
    let (here, f) ← if ((f.block? b).bind (·.terminator)).isSome then f.absorbChain b
      else pure (false, f)
    let (there, f) ← f.mergeEach rest
    return (here || there, f)

/-- Let every block absorb its successors as far as it can; tells whether anything changed. -/
def mergeBlocks (f : Body) : Except Fault (Bool × Body) := f.mergeEach f.layout

end Body

end FlowGraph
