import FlowGraph.Body.Build
import FlowGraph.Body.Edges

namespace FlowGraph

/-- How a block without successors ends. -/
inductive Ending where
  | ret
  | throwing
  | unwind
  | unreachable
  /-- The block is left without a terminator. -/
  | none
  deriving DecidableEq, Repr, Inhabited

/-- A control-flow graph: the successors and the number of phis of each block, and how the blocks
without successors end. -/
structure Shape where
  successors : List (List BlockId)
  arity : List Nat := []
  ending : BlockId → Ending := fun _ => .ret

namespace Body

/-- Append a literal to `b` and return its value. -/
def appendLiteral (f : Body) (b : BlockId) (type : TypeId) (literal : Literal) :
    Except Fault (ValueId × Body) := do
  let v : ValueId := ⟨f.values.size⟩
  let (_, f) ← f.appendInstr b (.literal type literal)
  return (v, f)

/-- Append the integers from `start` to `b`, `count` of them. -/
def appendCounting (f : Body) (b : BlockId) (start : Nat) : Nat → Except Fault (List ValueId × Body)
  | 0 => .ok ([], f)
  | count + 1 => do
    let (v, f) ← f.appendLiteral b .int (.int start)
    let (vs, f) ← f.appendCounting b (start + 1) count
    return (v :: vs, f)

/-- Append a literal to `b` for each phi of `target`. -/
def appendPhiInputs (f : Body) (b target : BlockId) : Except Fault (List ValueId × Body) := do
  f.appendCounting b 0 (← f.block target).args.length

/-- End a block that has no successors. -/
def endBlock (f : Body) (b : BlockId) : Ending → Except Fault Body
  | .ret => do
    let (v, f) ← f.appendLiteral b .int (.int 0)
    return (← f.setTerminator b (.ret v)).2
  | .throwing => do
    let (v, f) ← f.appendLiteral b .int (.int 0)
    return (← f.setTerminator b (.throwing v)).2
  | .unwind => return (← f.setTerminator b .unwind).2
  | .unreachable => return (← f.setTerminator b .unreachable).2
  | .none => return f

/-- Give `b` a terminator for its successors. -/
def endWith (f : Body) (b : BlockId) (ending : Ending) : List BlockId → Except Fault Body
  | [] => f.endBlock b ending
  | [dest] => do
    let (args, f) ← f.appendPhiInputs b dest
    return (← f.setTerminator b (.br dest args)).2
  | [trueDest, falseDest] => do
    let (cond, f) ← f.appendLiteral b .bool (.bool true)
    let (trueArgs, f) ← f.appendPhiInputs b trueDest
    let (falseArgs, f) ← f.appendPhiInputs b falseDest
    return (← f.setTerminator b (.condBr cond trueDest trueArgs falseDest falseArgs)).2
  | dests => do
    let (operand, f) ← f.appendLiteral b .int (.int 0)
    let cases := dests.dropLast.zipIdx.map fun (dest, n) => ((n : Int), dest)
    return (← f.setTerminator b (.switchValue operand cases dests.getLast?)).2

def createBlocks (f : Body) : Nat → Except Fault Body
  | 0 => .ok f
  | count + 1 => do (← f.createBlock).2.createBlocks count

def addPhis (f : Body) (b : BlockId) : Nat → Except Fault Body
  | 0 => .ok f
  | count + 1 => do (← f.addPhi b .int .none).2.addPhis b count

/-- The body with the given control-flow graph. -/
def ofShape (id : BodyId) (name : String) (shape : Shape) : Except Fault Body := do
  let count := shape.successors.length
  let f ← (Body.empty id name).createBlocks count
  let f ← (List.range count).foldlM
    (fun f n => f.addPhis ⟨n⟩ (shape.arity[n]?.getD 0)) f
  shape.successors.zipIdx.foldlM
    (fun f (dests, n) => f.endWith ⟨n⟩ (shape.ending ⟨n⟩) dests) f

end Body

end FlowGraph
