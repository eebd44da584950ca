import FlowGraph.Body.Basic

namespace FlowGraph.Body

/-- Remove every edge that starts at `b` from the list of each block in `targets`. -/
def unlistEdges (f : Body) (b : BlockId) (targets : List BlockId) : Body :=
  targets.foldl
    (fun f s => f.modifyBlock s fun data => { data with preds := data.preds.filter (·.block ≠ b) }) f

/-- Append edge `e` of `b` to the list of the block that it leads to, for the edges from number
`e` on. -/
def listEdges (f : Body) (b : BlockId) : Nat → List BlockId → Body
  | _, [] => f
  | e, s :: rest =>
    (f.modifyBlock s fun data => { data with preds := data.preds ++ [⟨b, e⟩] }).listEdges b (e + 1)
      rest

/-- Detach the terminator of `b`, if it has one. -/
def takeTerminator (f : Body) (b : BlockId) : Except Fault (Option Terminator × Body) := do
  match (← f.block b).terminator with
  | none => return (none, f)
  | some t =>
    let f := f.modifyBlock b fun data => { data with terminator := none }
    let f := { f with useIndex := f.useIndex.unlink (.terminator b) t.operands }
    return (some t, f.unlistEdges b t.successors)

/-- Give `b` the terminator `t`, and return the one it had. -/
def setTerminator (f : Body) (b : BlockId) (t : Terminator) :
    Except Fault (Option Terminator × Body) := do
  let (old, f) ← f.takeTerminator b
  t.successors.forM fun s => do let _ ← f.block s
  let f := f.listEdges b 0 t.successors
  let f := { f with useIndex := f.useIndex.link (.terminator b) t.operands }
  return (old, f.modifyBlock b fun data => { data with terminator := some t })

/-- Lead edge `e` of `b` to `dest`; the values on the edge are left as they are. -/
def setSuccessor (f : Body) (b : BlockId) (e : Nat) (dest : BlockId) : Except Fault Body := do
  let t ← f.terminator b
  let old ← t.successor e
  if old = dest then return f
  let _ ← f.block old
  let f := f.modifyBlock old fun data => { data with preds := data.preds.filter (· ≠ ⟨b, e⟩) }
  let _ ← f.block dest
  let f := f.modifyBlock dest fun data => { data with preds := data.preds ++ [⟨b, e⟩] }
  let t ← t.setSuccessor e dest
  return f.modifyBlock b fun data => { data with terminator := some t }

/-- Give edge `e` of `b` the operands `args`, and return those it had. An implicit or missing
edge is left alone. -/
def setEdgeArgs (f : Body) (b : BlockId) (e : Nat) (args : List ValueId) :
    Except Fault (Option (List ValueId) × Body) := do
  match (← f.block b).terminator with
  | none => return (none, f)
  | some t =>
    match t.explicitArgs? e with
    | none => return (none, f)
    | some old =>
      let f := f.modifyBlock b fun data => { data with terminator := some (t.withEdgeArgs e args) }
      let useIndex := (f.useIndex.unlink (.terminator b) old).link (.terminator b) args
      return (some old, { f with useIndex })

end FlowGraph.Body
