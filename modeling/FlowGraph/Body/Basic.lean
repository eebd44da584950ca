import FlowGraph.Arena
import FlowGraph.Fault
import FlowGraph.Operation
import FlowGraph.UseIndex

/-!
Function bodies. A body owns three arenas, of blocks, instructions and values, and a layout: the
order of its blocks, the entry first. Two indexes repeat what the terminators and operands say:
each block lists the edges that lead to it, and the use index lists the readers of each value.

A name of an erased part, or of a part of another body, is a fault.
-/

namespace FlowGraph

/-- A basic block. It has no terminator only while it is being built. -/
structure Block where
  args : List ValueId := []
  instrs : List InstrId := []
  terminator : Option Terminator := none
  /-- The edges that lead here; the order is that in which they were made. -/
  preds : List Edge := []
  deriving DecidableEq, Repr, Inhabited

/-- The blocks that the terminator leads to; none without a terminator. -/
def Block.successors (block : Block) : List BlockId :=
  match block.terminator with
  | some t => t.successors
  | none => []

structure Body where
  id : BodyId
  name : String
  blocks : Arena Block := {}
  layout : List BlockId := []
  instrs : Arena Instr := {}
  values : Arena Value := {}
  useIndex : UseIndex := {}
  deriving DecidableEq, Repr, Inhabited

namespace Body

/-- A body without blocks. -/
def empty (id : BodyId) (name : String) : Body := { id, name }

def block? (f : Body) (b : BlockId) : Option Block := f.blocks.get? b.index

def isLiveBlock (f : Body) (b : BlockId) : Bool := (f.block? b).isSome

def block (f : Body) (b : BlockId) : Except Fault Block :=
  match f.block? b with
  | some data => .ok data
  | none => .error (.deadBlock b f.name)

def modifyBlock (f : Body) (b : BlockId) (g : Block → Block) : Body :=
  { f with blocks := f.blocks.modify b.index g }

/-- The live blocks by number. -/
def liveBlocks (f : Body) : List BlockId := f.blocks.live.map BlockId.mk

/-- The first block of the layout. -/
def entry (f : Body) : Except Fault BlockId :=
  match f.layout with
  | b :: _ => .ok b
  | [] => .error (.noBlocks f.name)

def value? (f : Body) (v : ValueId) : Option Value := f.values.get? v.index

def isLiveValue (f : Body) (v : ValueId) : Bool := (f.value? v).isSome

def value (f : Body) (v : ValueId) : Except Fault Value :=
  match f.value? v with
  | some data => .ok data
  | none => .error (.deadValue v f.name)

def modifyValue (f : Body) (v : ValueId) (g : Value → Value) : Body :=
  { f with values := f.values.modify v.index g }

/-- Argument number `index` of block `b`. -/
def arg (f : Body) (b : BlockId) (index : Nat) : Except Fault ValueId := do
  let data ← f.block b
  match data.args[index]? with
  | some v => .ok v
  | none => .error .outOfBounds

def instr? (f : Body) (i : InstrId) : Option Instr := f.instrs.get? i.index

def isLiveInstr (f : Body) (i : InstrId) : Bool := (f.instr? i).isSome

def instr (f : Body) (i : InstrId) : Except Fault Instr :=
  match f.instr? i with
  | some data => .ok data
  | none => .error (.deadInstr i f.name)

def modifyInstr (f : Body) (i : InstrId) (g : Instr → Instr) : Body :=
  { f with instrs := f.instrs.modify i.index g }

/-- The block that defines `v`. -/
def definingBlock (f : Body) (v : ValueId) : Except Fault BlockId := do
  match (← f.value v).origin with
  | .result i => return (← f.instr i).block
  | .argument b _ _ => return b

/-- The block that a point lies in. -/
def pointBlock (f : Body) : Point → Except Fault BlockId
  | .instr i => return (← f.instr i).block
  | .terminator b => return b

/-- The block of a point and its position there; the terminator comes after every instruction. -/
def pointPosition (f : Body) : Point → Except Fault (BlockId × Nat)
  | .instr i => do
    let b := (← f.instr i).block
    match (← f.block b).instrs.idxOf? i with
    | some position => return (b, position)
    | none => .error (.notListed i b)
  | .terminator b => return (b, (← f.block b).instrs.length)

def terminator (f : Body) (b : BlockId) : Except Fault Terminator := do
  match (← f.block b).terminator with
  | some t => return t
  | none => .error (.noTerminator b)

/-- What edge `e` of block `b` delivers. -/
def edgeArgs (f : Body) (b : BlockId) (e : Nat) : Except Fault EdgeArgs := do
  (← f.terminator b).edgeArgs e

/-- The successors of `b` in edge order; none if it has no terminator yet. -/
def successors (f : Body) (b : BlockId) : Except Fault (List BlockId) :=
  return (← f.block b).successors

def predecessors (f : Body) (b : BlockId) : Except Fault (List Edge) :=
  return (← f.block b).preds

/-- The blocks with an edge to `b`, each once, in the order of their first edges. -/
def predBlocks (f : Body) (b : BlockId) : Except Fault (List BlockId) :=
  return ((← f.block b).preds.map Edge.block).eraseDups

/-- The block with the only edge to `b`. -/
def singlePredecessor? (f : Body) (b : BlockId) : Except Fault (Option BlockId) := do
  match (← f.block b).preds with
  | [only] => return some only.block
  | _ => return none

/-- The block that the only edge of `b` leads to. -/
def singleSuccessor? (f : Body) (b : BlockId) : Except Fault (Option BlockId) := do
  match (← f.block b).successors with
  | [only] => return some only
  | _ => return none

theorem block_eq_ok {f : Body} {b : BlockId} {data : Block} :
    f.block b = .ok data ↔ f.block? b = some data := by
  unfold block
  cases f.block? b <;> simp

theorem mem_liveBlocks {f : Body} {b : BlockId} :
    b ∈ f.liveBlocks ↔ ∃ data, f.block? b = some data := by
  simp only [liveBlocks, List.mem_map, Arena.mem_live, block?]
  constructor
  · rintro ⟨i, h, rfl⟩
    exact h
  · intro h
    exact ⟨b.index, h, rfl⟩

theorem block?_modifyBlock (f : Body) (b c : BlockId) (g : Block → Block) :
    (f.modifyBlock b g).block? c = if c = b then (f.block? c).map g else f.block? c := by
  have hidx : c.index = b.index ↔ c = b := by
    cases b; cases c; simp
  simp [modifyBlock, block?, Arena.get?_modify, hidx]

theorem value?_modifyValue (f : Body) (v w : ValueId) (g : Value → Value) :
    (f.modifyValue v g).value? w = if w = v then (f.value? w).map g else f.value? w := by
  have hidx : w.index = v.index ↔ w = v := by
    cases v; cases w; simp
  simp [modifyValue, value?, Arena.get?_modify, hidx]

theorem instr?_modifyInstr (f : Body) (i j : InstrId) (g : Instr → Instr) :
    (f.modifyInstr i g).instr? j = if j = i then (f.instr? j).map g else f.instr? j := by
  have hidx : j.index = i.index ↔ j = i := by
    cases i; cases j; simp
  simp [modifyInstr, instr?, Arena.get?_modify, hidx]

end Body

end FlowGraph
