import FlowGraph.Value

/-!
Terminators and their edges. Edge `e` of a terminator leads to entry `e` of its successor list.
An edge delivers values to the arguments of the block it leads to. An explicit edge carries them
as operands of the terminator; on an implicit edge the terminator itself produces the payload
when the edge is taken, so there is no operand to name.
-/

namespace FlowGraph

/-- How many values an implicit edge delivers. -/
inductive Payload where
  /-- Nothing is delivered. -/
  | none
  /-- Exactly one value is delivered. -/
  | one
  /-- One value is delivered if the target has an argument for it. -/
  | atMostOne
  deriving DecidableEq, Repr, Inhabited

/-- Whether a block with `count` arguments can be the target. -/
def Payload.accepts : Payload → Nat → Bool
  | .none, count => count == 0
  | .one, count => count == 1
  | .atMostOne, count => count ≤ 1

/-- What an edge delivers. -/
inductive EdgeArgs where
  | explicit (args : List ValueId)
  | implicit (payload : Payload)
  deriving DecidableEq, Repr, Inhabited

/-- Whether a block with `count` arguments can be the target of an edge. -/
def EdgeArgs.fits : EdgeArgs → Nat → Bool
  | .explicit args, count => args.length == count
  | .implicit payload, count => payload.accepts count

def EdgeArgs.isImplicit : EdgeArgs → Bool
  | .explicit _ => false
  | .implicit _ => true

inductive Terminator where
  /-- An unconditional branch. -/
  | br (dest : BlockId) (args : List ValueId)
  /-- A two-way branch; edge 0 is taken when the condition holds. -/
  | condBr (cond : ValueId) (trueDest : BlockId) (trueArgs : List ValueId)
      (falseDest : BlockId) (falseArgs : List ValueId)
  /-- A branch on an integer: one edge per case, then the default. -/
  | switchValue (operand : ValueId) (cases : List (Int × BlockId)) (default : Option BlockId)
  /-- A branch on the tag of an enum: one edge per case, then the default. A case edge delivers
  the payload of the case to a target that has an argument for it. -/
  | switchEnum (operand : ValueId) (cases : List (Nat × BlockId)) (default : Option BlockId)
  /-- A dynamic cast; edge 0 delivers the cast value. -/
  | checkedCast (operand : ValueId) (target : TypeId) (success failure : BlockId)
  /-- A call that may throw; edge 0 delivers the result and edge 1 the error. -/
  | tryApply (callee : String) (args : List ValueId) (normal error : BlockId)
  /-- A foreign method lookup; edge 0 delivers the method. -/
  | dynamicMethodBr (operand : ValueId) (member : String) (hasMethod noMethod : BlockId)
  /-- A coroutine yield; neither edge delivers anything. -/
  | yieldTo (values : List ValueId) (resume cancel : BlockId)
  | ret (value : ValueId)
  | throwing (value : ValueId)
  /-- The end of a coroutine that is being unwound. -/
  | unwind
  | unreachable
  deriving DecidableEq, Repr, Inhabited

namespace Terminator

def kindName : Terminator → String
  | br _ _ => "br"
  | condBr _ _ _ _ _ => "cond_br"
  | switchValue _ _ _ => "switch_value"
  | switchEnum _ _ _ => "switch_enum"
  | checkedCast _ _ _ _ => "checked_cast_br"
  | tryApply _ _ _ _ => "try_apply"
  | dynamicMethodBr _ _ _ _ => "dynamic_method_br"
  | yieldTo _ _ _ => "yield"
  | ret _ => "return"
  | throwing _ => "throw"
  | unwind => "unwind"
  | unreachable => "unreachable"

/-- The blocks that the edges lead to, in edge order; a block can occur several times. -/
def successors : Terminator → List BlockId
  | br dest _ => [dest]
  | condBr _ trueDest _ falseDest _ => [trueDest, falseDest]
  | switchValue _ cases default => cases.map Prod.snd ++ default.toList
  | switchEnum _ cases default => cases.map Prod.snd ++ default.toList
  | checkedCast _ _ success failure => [success, failure]
  | tryApply _ _ normal error => [normal, error]
  | dynamicMethodBr _ _ hasMethod noMethod => [hasMethod, noMethod]
  | yieldTo _ resume cancel => [resume, cancel]
  | ret _ => []
  | throwing _ => []
  | unwind => []
  | unreachable => []

def numEdges : Terminator → Nat
  | br _ _ => 1
  | condBr _ _ _ _ _ => 2
  | switchValue _ cases default => cases.length + if default.isSome then 1 else 0
  | switchEnum _ cases default => cases.length + if default.isSome then 1 else 0
  | checkedCast _ _ _ _ => 2
  | tryApply _ _ _ _ => 2
  | dynamicMethodBr _ _ _ _ => 2
  | yieldTo _ _ _ => 2
  | ret _ => 0
  | throwing _ => 0
  | unwind => 0
  | unreachable => 0

/-- Whether the terminator leaves the function. -/
def isExiting : Terminator → Bool
  | ret _ => true
  | throwing _ => true
  | unwind => true
  | _ => false

/-- What edge `e` delivers, if there is such an edge. -/
def edgeArgs? : Terminator → Nat → Option EdgeArgs
  | br _ args, 0 => some (.explicit args)
  | condBr _ _ trueArgs _ _, 0 => some (.explicit trueArgs)
  | condBr _ _ _ _ falseArgs, 1 => some (.explicit falseArgs)
  | switchValue _ cases default, e =>
    if e < cases.length || (e == cases.length && default.isSome) then some (.implicit .none)
    else none
  | switchEnum _ cases default, e =>
    if e < cases.length then some (.implicit .atMostOne)
    else if e == cases.length && default.isSome then some (.implicit .none)
    else none
  | checkedCast _ _ _ _, 0 => some (.implicit .one)
  | checkedCast _ _ _ _, 1 => some (.implicit .none)
  | tryApply _ _ _ _, 0 => some (.implicit .one)
  | tryApply _ _ _ _, 1 => some (.implicit .one)
  | dynamicMethodBr _ _ _ _, 0 => some (.implicit .one)
  | dynamicMethodBr _ _ _ _, 1 => some (.implicit .none)
  | yieldTo _ _ _, 0 => some (.implicit .none)
  | yieldTo _ _ _, 1 => some (.implicit .none)
  | _, _ => none

/-- The operand list that edge `e` carries, if it is explicit. -/
def explicitArgs? : Terminator → Nat → Option (List ValueId)
  | br _ args, 0 => some args
  | condBr _ _ trueArgs _ _, 0 => some trueArgs
  | condBr _ _ _ _ falseArgs, 1 => some falseArgs
  | _, _ => none

/-- Give edge `e` the operand list `args`, if it is explicit. -/
def withEdgeArgs : Terminator → Nat → List ValueId → Terminator
  | br dest _, 0, args => br dest args
  | condBr cond trueDest _ falseDest falseArgs, 0, args =>
    condBr cond trueDest args falseDest falseArgs
  | condBr cond trueDest trueArgs falseDest _, 1, args =>
    condBr cond trueDest trueArgs falseDest args
  | t, _, _ => t

/-- The values that the terminator reads itself, apart from what its edges deliver. -/
def ownOperands : Terminator → List ValueId
  | br _ _ => []
  | condBr cond _ _ _ _ => [cond]
  | switchValue operand _ _ => [operand]
  | switchEnum operand _ _ => [operand]
  | checkedCast operand _ _ _ => [operand]
  | tryApply _ args _ _ => args
  | dynamicMethodBr operand _ _ _ => [operand]
  | yieldTo values _ _ => values
  | ret value => [value]
  | throwing value => [value]
  | unwind => []
  | unreachable => []

/-- All values read, those that edges deliver included. -/
def operands : Terminator → List ValueId
  | br _ args => args
  | condBr cond _ trueArgs _ falseArgs => cond :: trueArgs ++ falseArgs
  | switchValue operand _ _ => [operand]
  | switchEnum operand _ _ => [operand]
  | checkedCast operand _ _ _ => [operand]
  | tryApply _ args _ _ => args
  | dynamicMethodBr operand _ _ _ => [operand]
  | yieldTo values _ _ => values
  | ret value => [value]
  | throwing value => [value]
  | unwind => []
  | unreachable => []

/-- Replace the value in every operand slot by its image under `g`. -/
def mapOperands (g : ValueId → ValueId) : Terminator → Terminator
  | br dest args => br dest (args.map g)
  | condBr cond trueDest trueArgs falseDest falseArgs =>
    condBr (g cond) trueDest (trueArgs.map g) falseDest (falseArgs.map g)
  | switchValue operand cases default => switchValue (g operand) cases default
  | switchEnum operand cases default => switchEnum (g operand) cases default
  | checkedCast operand target success failure => checkedCast (g operand) target success failure
  | tryApply callee args normal error => tryApply callee (args.map g) normal error
  | dynamicMethodBr operand member hasMethod noMethod =>
    dynamicMethodBr (g operand) member hasMethod noMethod
  | yieldTo values resume cancel => yieldTo (values.map g) resume cancel
  | ret value => ret (g value)
  | throwing value => throwing (g value)
  | unwind => unwind
  | unreachable => unreachable

theorem length_successors (t : Terminator) : t.successors.length = t.numEdges := by
  cases t <;> simp [successors, numEdges]
  all_goals
    rename_i default
    cases default <;> simp

@[simp] theorem operands_mapOperands (g : ValueId → ValueId) (t : Terminator) :
    (t.mapOperands g).operands = t.operands.map g := by
  cases t <;> simp [mapOperands, operands]

@[simp] theorem successors_mapOperands (g : ValueId → ValueId) (t : Terminator) :
    (t.mapOperands g).successors = t.successors := by
  cases t <;> rfl

end Terminator

end FlowGraph
