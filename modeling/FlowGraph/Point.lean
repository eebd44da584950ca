import FlowGraph.Id

namespace FlowGraph

/-- Edge number `index` of the terminator of `block`. -/
structure Edge where
  block : BlockId
  index : Nat
  deriving DecidableEq, Repr, Inhabited

/-- Edges are ordered by block and then by number. -/
def Edge.le (a b : Edge) : Bool :=
  a.block.index < b.block.index || (a.block.index == b.block.index && a.index ≤ b.index)

/-- An instruction, or the terminator of a block. -/
inductive Point where
  | instr (id : InstrId)
  | terminator (block : BlockId)
  deriving DecidableEq, Repr, Inhabited

/-- Instructions come before terminators, each by number. -/
def Point.le : Point → Point → Bool
  | .instr a, .instr b => a.index ≤ b.index
  | .instr _, .terminator _ => true
  | .terminator _, .instr _ => false
  | .terminator a, .terminator b => a.index ≤ b.index

/-- Operand slot number `operand` of a point. -/
structure Use where
  point : Point
  operand : Nat
  deriving DecidableEq, Repr, Inhabited

end FlowGraph
