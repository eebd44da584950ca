import FlowGraph.Body.Edges
import FlowGraph.Body.Uses

namespace FlowGraph.Body

/-- Record `b` as the block of the given instructions. -/
def moveInstrs (f : Body) (b : BlockId) : List InstrId → Except Fault Body
  | [] => .ok f
  | i :: rest => do
    let _ ← f.instr i
    (f.modifyInstr i fun data => { data with block := b }).moveInstrs b rest

/-- Hand the terminator of `source` over to `target`, if it has one. -/
def moveTerminator (f : Body) (source target : BlockId) : Except Fault Body := do
  match ← f.takeTerminator source with
  | (some t, f) => return (← f.setTerminator target t).2
  | (none, f) => return f

/-- Cut `b` before its instruction number `position`. A new block right after `b` takes the rest
of the instructions and the terminator, and `b` branches to it. -/
def splitBlock (f : Body) (b : BlockId) (position : Nat) : Except Fault (BlockId × Body) := do
  let instrs := (← f.block b).instrs
  if instrs.length < position then .error (.splitPastEnd b position instrs.length)
  let (tail, f) ← f.createBlockAfter b
  let f := f.modifyBlock b fun data => { data with instrs := data.instrs.take position }
  let moved := instrs.drop position
  let f ← f.moveInstrs tail moved
  let f := f.modifyBlock tail fun data => { data with instrs := moved }
  let f ← f.moveTerminator b tail
  let (_, f) ← f.setTerminator b (.br tail [])
  return (tail, f)

/-- The branch operands of `b` and the block that `b` can absorb. It has to end in a branch to
another block that is not the entry, has no other incoming edge, and is passed none of its own
arguments. -/
def mergeTarget (f : Body) (b : BlockId) :
    Except Fault (Except MergeRefusal (BlockId × List ValueId)) := do
  match ← f.terminator b with
  | .br succ args =>
    if succ = b then return .error (.selfLoop b)
    if succ = (← f.entry) then return .error (.entryBlock succ)
    let data ← f.block succ
    if data.preds.length ≠ 1 then
      return .error (.multiplePredecessors succ data.preds.length)
    if args.any fun v => v ∈ data.args then return .error (.argumentCycle b succ)
    return .ok (succ, args)
  | _ => return .error (.notUnconditionalBranch b)

/-- Let the operands stand for the arguments, and erase the arguments. -/
def bindArgs (f : Body) : List ValueId → List ValueId → Except Fault Body
  | arg :: args, operand :: operands => do
    let f ← (f.replaceAllUses arg operand).eraseValue arg
    f.bindArgs args operands
  | _, _ => .ok f

/-- Let `b` absorb `succ`, to which it branches with `operands`. -/
def absorb (f : Body) (b succ : BlockId) (operands : List ValueId) : Except Fault Body := do
  let (_, f) ← f.takeTerminator b
  let data ← f.block succ
  if data.args.length ≠ operands.length then .error (.mergeArity b succ)
  let f := f.modifyBlock succ fun data => { data with args := [] }
  let f ← f.bindArgs data.args operands
  let f := f.modifyBlock succ fun data => { data with instrs := [] }
  let f ← f.moveInstrs b data.instrs
  let f := f.modifyBlock b fun blk => { blk with instrs := blk.instrs ++ data.instrs }
  let f ← f.moveTerminator succ b
  return f.dropBlock succ

/-- Let `b` absorb its successor, if it can. Returns the successor, which is erased. -/
def mergeWithSuccessor (f : Body) (b : BlockId) :
    Except Fault (Except MergeRefusal (BlockId × Body)) := do
  match ← f.mergeTarget b with
  | .ok (succ, operands) => return .ok (succ, ← f.absorb b succ operands)
  | .error refusal => return .error refusal

/-- Erase the given instructions with their results, whoever reads them. -/
def eraseInstrs (f : Body) : List InstrId → Except Fault Body
  | [] => .ok f
  | i :: rest => do
    let data ← f.instr i
    let f := { f with useIndex := f.useIndex.unlink (.instr i) data.op.operands }
    let f ← match data.result with
      | some v => f.eraseValue v
      | none => pure f
    { f with instrs := f.instrs.erase i.index : Body }.eraseInstrs rest

/-- Erase `b` with its arguments and instructions. No other block may lead to it; edges from `b`
to itself go with it. -/
def eraseBlock (f : Body) (b : BlockId) : Except Fault Body := do
  let incoming := (← f.block b).preds.filter (·.block ≠ b)
  if !incoming.isEmpty then .error (.stillTargeted b incoming)
  let (_, f) ← f.takeTerminator b
  let data ← f.block b
  let f := f.modifyBlock b fun data => { data with args := [], instrs := [] }
  let f ← data.args.foldlM eraseValue f
  let f ← f.eraseInstrs data.instrs
  return f.dropBlock b

end FlowGraph.Body
