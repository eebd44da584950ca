import FlowGraph.Value

/-!
Instructions other than terminators. What an instruction computes is outside this library; an
operation records what it reads, what it produces, whether it has an effect beyond its result,
and which scope it opens or closes.

The scopes come in pairs: a stack slot and its release, an access and its end, a coroutine call
and its end or abort.
-/

namespace FlowGraph

inductive Literal where
  | int (value : Int)
  | bool (value : Bool)
  | str (value : String)
  deriving DecidableEq, Repr, Inhabited

inductive Operation where
  | literal (type : TypeId) (value : Literal)
  /-- Any computation that is not described further. -/
  | builtin (name : String) (args : List ValueId) (result : Option (TypeId × Ownership))
      (sideEffects : Bool)
  /-- A direct call; the caller owns the result. -/
  | apply (callee : String) (args : List ValueId) (type : TypeId)
  | copy (operand : ValueId) (type : TypeId)
  | destroy (operand : ValueId)
  | beginBorrow (operand : ValueId) (type : TypeId)
  | endBorrow (operand : ValueId)
  /-- A stack slot, released by `deallocStack`. -/
  | allocStack (type : TypeId)
  | deallocStack (operand : ValueId)
  /-- Exclusive access to an address, closed by `endAccess`. -/
  | beginAccess (address : ValueId)
  | endAccess (access : ValueId)
  /-- A coroutine call, closed by `endApply` or `abortApply`. -/
  | beginApply (callee : String) (args : List ValueId)
  | endApply (token : ValueId)
  | abortApply (token : ValueId)
  /-- Opens a box; the type of the result has a meaning only where this instruction has run. -/
  | openExistential (operand : ValueId) (type : TypeId)
  /-- A method found through a foreign dispatch table. -/
  | foreignMethod (operand : ValueId) (member : String) (type : TypeId)
  deriving DecidableEq, Repr, Inhabited

namespace Operation

/-- Type and ownership of the result, for an operation that has one. -/
def resultType? : Operation → Option (TypeId × Ownership)
  | literal type _ => some (type, .none)
  | builtin _ _ result _ => result
  | apply _ _ type => some (type, .owned)
  | copy _ type => some (type, .owned)
  | foreignMethod _ _ type => some (type, .owned)
  | beginBorrow _ type => some (type, .guaranteed)
  | openExistential _ type => some (type, .guaranteed)
  | allocStack _ => some (.address, .none)
  | beginAccess _ => some (.address, .none)
  | beginApply _ _ => some (.token, .none)
  | destroy _ => none
  | endBorrow _ => none
  | deallocStack _ => none
  | endAccess _ => none
  | endApply _ => none
  | abortApply _ => none

/-- The values read, in operand order. -/
def operands : Operation → List ValueId
  | literal _ _ => []
  | allocStack _ => []
  | builtin _ args _ _ => args
  | apply _ args _ => args
  | beginApply _ args => args
  | copy operand _ => [operand]
  | destroy operand => [operand]
  | beginBorrow operand _ => [operand]
  | endBorrow operand => [operand]
  | deallocStack operand => [operand]
  | openExistential operand _ => [operand]
  | foreignMethod operand _ _ => [operand]
  | beginAccess address => [address]
  | endAccess access => [access]
  | endApply token => [token]
  | abortApply token => [token]

/-- Replace the value in every operand slot by its image under `g`. -/
def mapOperands (g : ValueId → ValueId) : Operation → Operation
  | literal type value => literal type value
  | allocStack type => allocStack type
  | builtin name args result sideEffects => builtin name (args.map g) result sideEffects
  | apply callee args type => apply callee (args.map g) type
  | beginApply callee args => beginApply callee (args.map g)
  | copy operand type => copy (g operand) type
  | destroy operand => destroy (g operand)
  | beginBorrow operand type => beginBorrow (g operand) type
  | endBorrow operand => endBorrow (g operand)
  | deallocStack operand => deallocStack (g operand)
  | openExistential operand type => openExistential (g operand) type
  | foreignMethod operand member type => foreignMethod (g operand) member type
  | beginAccess address => beginAccess (g address)
  | endAccess access => endAccess (g access)
  | endApply token => endApply (g token)
  | abortApply token => abortApply (g token)

/-- Whether the operation does something beyond producing its result. One that does not can be
dropped once nothing reads the result. -/
def hasSideEffects : Operation → Bool
  | literal _ _ => false
  | copy _ _ => false
  | beginBorrow _ _ => false
  | openExistential _ _ => false
  | foreignMethod _ _ _ => false
  | builtin _ _ _ sideEffects => sideEffects
  | apply _ _ _ => true
  | destroy _ => true
  | endBorrow _ => true
  | allocStack _ => true
  | deallocStack _ => true
  | beginAccess _ => true
  | endAccess _ => true
  | beginApply _ _ => true
  | endApply _ => true
  | abortApply _ => true

def isStackAlloc : Operation → Bool
  | allocStack _ => true
  | _ => false

def isStackDealloc : Operation → Bool
  | deallocStack _ => true
  | _ => false

def isAccessEnd : Operation → Bool
  | endAccess _ => true
  | _ => false

/-- Whether the operation closes the scope that `beginApply` opens. -/
def isCoroutineEnd : Operation → Bool
  | endApply _ => true
  | abortApply _ => true
  | _ => false

@[simp] theorem operands_mapOperands (g : ValueId → ValueId) (op : Operation) :
    (op.mapOperands g).operands = op.operands.map g := by
  cases op <;> rfl

@[simp] theorem resultType?_mapOperands (g : ValueId → ValueId) (op : Operation) :
    (op.mapOperands g).resultType? = op.resultType? := by
  cases op <;> rfl

@[simp] theorem hasSideEffects_mapOperands (g : ValueId → ValueId) (op : Operation) :
    (op.mapOperands g).hasSideEffects = op.hasSideEffects := by
  cases op <;> rfl

end Operation

/-- An instruction: what it does, the block that holds it, and the value that it produces. -/
structure Instr where
  op : Operation
  block : BlockId
  result : Option ValueId
  deriving DecidableEq, Repr, Inhabited

end FlowGraph
