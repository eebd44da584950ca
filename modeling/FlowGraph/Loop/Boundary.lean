import FlowGraph.Loop.Basic

namespace FlowGraph

namespace Loop

/-- The blocks of the loop with an edge to its header. -/
def latches (l : Loop) (f : Body) : Except Fault (List BlockId) :=
  return (← f.predBlocks l.header).filter l.contains

/-- The blocks of the loop with an edge that leaves it. -/
def exitingBlocks (l : Loop) (f : Body) : Except Fault (List BlockId) :=
  l.blocks.filterM fun b => return (← f.successors b).any fun s => !l.contains s

/-- The blocks outside the loop to which an edge of the loop leads, in the order of discovery. -/
def exitBlocks (l : Loop) (f : Body) : Except Fault (List BlockId) := do
  let targets ← l.blocks.mapM f.successors
  return (targets.flatten.filter fun s => !l.contains s).eraseDups

/-- The only block outside the loop with an edge to the header, if it leads nowhere else. -/
def preheader? (l : Loop) (f : Body) : Except Fault (Option BlockId) := do
  match (← f.predBlocks l.header).filter fun b => !l.contains b with
  | [outside] =>
    if (← f.singleSuccessor? outside) = some l.header then return some outside
    return none
  | _ => return none

/-- Whether the block that defines `v` lies in the loop. -/
def defines (l : Loop) (f : Body) (v : ValueId) : Except Fault Bool :=
  return l.contains (← f.definingBlock v)

/-- Whether a reader of a scoped value lies in the loop, or is an instruction that the scope
does not concern. -/
def confinesReader (l : Loop) (f : Body) (concerns : Operation → Bool) :
    Point → Except Fault Bool
  | .instr i => do
    let data ← f.instr i
    return !concerns data.op || l.contains data.block
  | .terminator b => return l.contains b

/-- Whether all readers of a result that the scope concerns lie in the loop. -/
def confines (l : Loop) (f : Body) (concerns : Operation → Bool) (result : Option ValueId) :
    Except Fault Bool :=
  match result with
  | some v => (f.useIndex.usersOf v).allM (l.confinesReader f concerns)
  | none => .ok true

/-- Whether an instruction can be copied with the loop. -/
def canDuplicateInstr (l : Loop) (f : Body) (i : InstrId) : Except Fault Bool := do
  let data ← f.instr i
  if data.op.isStackAlloc then l.confines f Operation.isStackDealloc data.result
  else if data.op.isStackDealloc || data.op.isCoroutineEnd then
    data.op.operands.allM (l.defines f)
  else
    match data.op with
    | .beginAccess _ => l.confines f Operation.isAccessEnd data.result
    | .endAccess access => l.defines f access
    | .beginApply _ _ => l.confines f (fun _ => true) data.result
    | .openExistential _ _ => l.confines f (fun _ => true) data.result
    | .foreignMethod _ _ _ => l.confines f (fun _ => true) data.result
    | _ => return true

/-- Whether a terminator can be copied: one that throws, unwinds or looks up a foreign method
cannot. -/
def canDuplicateTerminator : Terminator → Bool
  | .throwing _ => false
  | .unwind => false
  | .dynamicMethodBr _ _ _ _ => false
  | _ => true

/-- Whether what stands at a point can be copied with the loop. -/
def canDuplicate (l : Loop) (f : Body) : Point → Except Fault Bool
  | .instr i => l.canDuplicateInstr f i
  | .terminator b => return canDuplicateTerminator (← f.terminator b)

end Loop

end FlowGraph
