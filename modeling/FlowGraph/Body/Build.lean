import FlowGraph.Body.Basic

namespace FlowGraph.Body

/-- A new empty block, not yet in the layout. -/
def allocBlock (f : Body) : Except Fault (BlockId × Body) := do
  let index ← IdSpace.block.checked f.blocks.size
  return (⟨index⟩, { f with blocks := f.blocks.alloc {} })

/-- Where `b` stands in the layout. -/
def layoutPosition (f : Body) (b : BlockId) : Except Fault Nat :=
  match f.layout.idxOf? b with
  | some position => .ok position
  | none => .error (.notInLayout b f.name)

/-- A new empty block at the end of the layout. -/
def createBlock (f : Body) : Except Fault (BlockId × Body) := do
  let (b, f) ← f.allocBlock
  return (b, { f with layout := f.layout ++ [b] })

/-- A new empty block right after `sibling`. -/
def createBlockAfter (f : Body) (sibling : BlockId) : Except Fault (BlockId × Body) := do
  let position ← f.layoutPosition sibling
  let (b, f) ← f.allocBlock
  return (b, { f with layout := f.layout.insertIdx (position + 1) b })

/-- A new empty block right before `sibling`. -/
def createBlockBefore (f : Body) (sibling : BlockId) : Except Fault (BlockId × Body) := do
  let position ← f.layoutPosition sibling
  let (b, f) ← f.allocBlock
  return (b, { f with layout := f.layout.insertIdx position b })

/-- Take `b` out of the layout and empty its slot. -/
def dropBlock (f : Body) (b : BlockId) : Body :=
  { f with layout := f.layout.filter (· ≠ b), blocks := f.blocks.erase b.index }

/-- A new value that nothing reads. -/
def allocValue (f : Body) (value : Value) : Except Fault (ValueId × Body) := do
  let index ← IdSpace.value.checked f.values.size
  return (⟨index⟩, { f with values := f.values.alloc value, useIndex := f.useIndex.addValue })

def eraseValue (f : Body) (v : ValueId) : Except Fault Body :=
  if v.index < f.values.size then .ok { f with values := f.values.erase v.index }
  else .error .outOfBounds

def setOwnership (f : Body) (v : ValueId) (ownership : Ownership) : Except Fault Body := do
  let _ ← f.value v
  return f.modifyValue v fun data => { data with ownership }

/-- A new last argument of `b`. -/
def addArg (f : Body) (b : BlockId) (type : TypeId) (ownership : Ownership) (kind : ArgKind) :
    Except Fault (ValueId × Body) := do
  let index := (← f.block b).args.length
  if slotLimit ≤ index then .error (.tooManyArgs b)
  let (v, f) ← f.allocValue { type, ownership, origin := .argument b index kind }
  return (v, f.modifyBlock b fun data => { data with args := data.args ++ [v] })

def addPhi (f : Body) (b : BlockId) (type : TypeId) (ownership : Ownership) :
    Except Fault (ValueId × Body) :=
  f.addArg b type ownership .phi

def addFunctionArg (f : Body) (b : BlockId) (type : TypeId) (convention : Convention) :
    Except Fault (ValueId × Body) :=
  f.addArg b type convention.ownership (.function convention)

/-- Whether some operand slot reads `v`. -/
def hasUses (f : Body) (v : ValueId) : Bool := !(f.useIndex.usersOf v).isEmpty

/-- Record the positions of the given arguments of `b`, of which the first is number `start`. -/
def renumberArgs (f : Body) (b : BlockId) : Nat → List ValueId → Except Fault Body
  | _, [] => .ok f
  | start, v :: rest => do
    let _ ← f.value v
    let f := f.modifyValue v fun data => { data with origin := data.origin.placeAt b start }
    f.renumberArgs b (start + 1) rest

/-- Remove argument number `index` of `b`, which nothing may read any more. The edges to `b`
still deliver a value for it. -/
def eraseArg (f : Body) (b : BlockId) (index : Nat) : Except Fault Body := do
  let v ← f.arg b index
  if f.hasUses v then .error (.argInUse b index v)
  let f := f.modifyBlock b fun data => { data with args := data.args.eraseIdx index }
  let f ← f.eraseValue v
  f.renumberArgs b index ((← f.block b).args.drop index)

/-- Put a new instruction at `position` of `b`; its result may be one of its own operands. -/
def insertInstr (f : Body) (b : BlockId) (position : Nat) (op : Operation) :
    Except Fault (InstrId × Body) := do
  let i : InstrId := ⟨← IdSpace.instr.checked f.instrs.size⟩
  let (result, f) ← match op.resultType? with
    | some (type, ownership) => do
      let (v, f) ← f.allocValue { type, ownership, origin := .result i }
      pure (some v, f)
    | none => pure (none, f)
  if (← f.block b).instrs.length < position then .error .outOfBounds
  let f := { f with
    instrs := f.instrs.alloc { op, block := b, result }
    useIndex := f.useIndex.link (.instr i) op.operands }
  return (i, f.modifyBlock b fun data => { data with instrs := data.instrs.insertIdx position i })

/-- Put a new instruction at the end of `b`, before its terminator. -/
def appendInstr (f : Body) (b : BlockId) (op : Operation) : Except Fault (InstrId × Body) := do
  f.insertInstr b (← f.block b).instrs.length op

/-- Remove an instruction together with its result, which nothing else may read any more. -/
def eraseInstr (f : Body) (i : InstrId) : Except Fault Body := do
  let data ← f.instr i
  let f := { f with useIndex := f.useIndex.unlink (.instr i) data.op.operands }
  let f ← match data.result with
    | some v => if f.hasUses v then .error (.resultInUse i v) else f.eraseValue v
    | none => pure f
  let _ ← f.block data.block
  let f := f.modifyBlock data.block fun blk => { blk with instrs := blk.instrs.filter (· ≠ i) }
  return { f with instrs := f.instrs.erase i.index }

end FlowGraph.Body
