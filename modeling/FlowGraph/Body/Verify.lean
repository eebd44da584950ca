import FlowGraph.Body.Uses

/-!
Verification of the structural invariants that every edit has to keep:

* every block of the layout has a terminator, all of whose successors are live;
* every edge delivers as many values as its target has arguments;
* arguments and instructions record the block that lists them;
* every operand is a live value;
* the entry has no incoming edge;
* the edges listed by each block, and the readers listed for each value, are those that the
  terminators and operands give.

`verify` reports the first violation. It is a fault if the layout names a block, or a block an
instruction, that is not live.
-/

namespace FlowGraph.Body

/-- A check that can find a malformation. -/
abbrev Check := ExceptT Malformation (Except Fault)

/-- Whether edge `e` of block `b`, which leads to `succ`, delivers what `succ` takes. -/
def verifyEdge (f : Body) (b : BlockId) (t : Terminator) (succ : BlockId) (e : Nat) :
    Check Unit := do
  match f.block? succ with
  | none => throw (.deadSuccessor ⟨b, e⟩ succ)
  | some target =>
    let declared := target.args.length
    let args ← t.edgeArgs e
    if !args.fits declared then
      match args with
      | .explicit values => throw (.edgeArgCount ⟨b, e⟩ succ declared values.length)
      | .implicit _ => throw (.implicitArgCount ⟨b, e⟩ succ t declared)

/-- Whether argument number `index` of `b` is a live value that says so. -/
def argRecorded (f : Body) (b : BlockId) (index : Nat) (v : ValueId) : Bool :=
  match f.value? v with
  | some ⟨_, _, .argument b' index' _⟩ => b' = b && index' = index
  | _ => false

def verifyOperands (f : Body) (b : BlockId) (operands : List ValueId) : Check Unit :=
  operands.forM fun v => if f.isLiveValue v then pure () else throw (.deadOperand b v)

def verifyInstr (f : Body) (b : BlockId) (i : InstrId) : Check Unit := do
  let data ← f.instr i
  if data.block ≠ b then throw (.instrBlockMismatch i b data.block)
  f.verifyOperands b data.op.operands

/-- The checks that concern one block of the layout. -/
def verifyBlock (f : Body) (b : BlockId) : Check Unit := do
  let data ← f.block b
  match data.terminator with
  | none => throw (.missingTerminator b)
  | some t =>
    t.successors.zipIdx.forM fun (succ, e) => f.verifyEdge b t succ e
    data.args.zipIdx.forM fun (v, index) =>
      if f.argRecorded b index v then pure () else throw (.argOriginMismatch b index v)
    data.instrs.forM (f.verifyInstr b)
    f.verifyOperands b t.operands

/-- The edges of block `b`, each with the block that it leads to. -/
def edgesFrom (f : Body) (b : BlockId) : List (BlockId × Edge) :=
  match f.block? b with
  | some data => data.successors.zipIdx.map fun (succ, e) => (succ, ⟨b, e⟩)
  | none => []

/-- The edges of all blocks of the layout, each with the block that it leads to. -/
def edgeTargets (f : Body) : List (BlockId × Edge) := f.layout.flatMap f.edgesFrom

/-- The operands of a point, each with the point. -/
def readsAt (f : Body) (point : Point) : List (ValueId × Point) :=
  (f.operandsAt? point).map fun v => (v, point)

/-- The instructions and the terminator of block `b`. -/
def pointsIn (f : Body) (b : BlockId) : List Point :=
  match f.block? b with
  | some data => data.instrs.map Point.instr ++ [.terminator b]
  | none => []

/-- The operands of all blocks of the layout, each with its reader. -/
def operandReads (f : Body) : List (ValueId × Point) :=
  f.layout.flatMap fun b => (f.pointsIn b).flatMap f.readsAt

/-- The partners of `key` in a list of pairs. -/
def partners {κ α : Type} [DecidableEq κ] (key : κ) (pairs : List (κ × α)) : List α :=
  (pairs.filter (·.1 = key)).map Prod.snd

/-- Compare the list of incoming edges of each block with the edges of the terminators. A block
that occurs again has no edges left. -/
def verifyPreds (f : Body) : List (BlockId × Edge) → List BlockId → Check Unit
  | _, [] => pure ()
  | targets, b :: rest => do
    let expected := (partners b targets).mergeSort Edge.le
    let found := (← f.predecessors b).mergeSort Edge.le
    if expected ≠ found then throw (.predecessorMismatch b expected found)
    f.verifyPreds (targets.filter (·.1 ≠ b)) rest

/-- Compare the use list of each value with the operands. A value that occurs again has no
readers left. -/
def verifyUses (f : Body) : List (ValueId × Point) → List ValueId → Check Unit
  | _, [] => pure ()
  | reads, v :: rest => do
    let expected := sortPoints (partners v reads)
    let found := sortPoints (f.usersOf v)
    if expected ≠ found then throw (.useIndexMismatch v expected found)
    f.verifyUses (reads.filter (·.1 ≠ v)) rest

/-- The arguments of block `b` and then the results of its instructions. -/
def definedIn (f : Body) (b : BlockId) : List ValueId :=
  match f.block? b with
  | some data => data.args ++ data.instrs.filterMap fun i => (f.instr? i).bind (·.result)
  | none => []

/-- Check all structural invariants. -/
def verify (f : Body) : Check Unit := do
  if f.layout.isEmpty then throw .empty
  f.layout.forM f.verifyBlock
  let entry ← f.entry
  let incoming ← f.predecessors entry
  if !incoming.isEmpty then throw (.entryHasPredecessors entry incoming)
  f.verifyPreds f.edgeTargets f.layout
  f.verifyUses f.operandReads (f.layout.flatMap f.definedIn)

def assertValid (f : Body) : Except Fault Unit := do
  match ← f.verify.run with
  | .ok () => return ()
  | .error cause => .error (.malformed f.name cause)

end FlowGraph.Body
