namespace FlowGraph

/-- The number of slots an arena can hold. -/
def slotLimit : Nat := 1 <<< 32

/-- A basic block of a body. -/
structure BlockId where
  index : Nat
  deriving DecidableEq, Repr, Hashable, Inhabited

/-- A value of a body: the result of an instruction or an argument of a block. -/
structure ValueId where
  index : Nat
  deriving DecidableEq, Repr, Hashable, Inhabited

/-- An instruction of a body. Terminators are not numbered; they belong to their block. -/
structure InstrId where
  index : Nat
  deriving DecidableEq, Repr, Hashable, Inhabited

/-- A type. Its meaning lies outside this library, which only copies types between values. -/
structure TypeId where
  index : Nat
  deriving DecidableEq, Repr, Hashable, Inhabited

/-- The identity of one body. Bodies with equal contents are told apart by it. The serial numbers
have no bound: what is said of them holds of a counter of 64 bits for the first 2 ^ 64 bodies, after
which it starts again. -/
structure BodyId where
  serial : Nat
  deriving DecidableEq, Repr, Hashable, Inhabited

instance : ToString BlockId := ⟨fun b => "bb" ++ toString b.index⟩
instance : ToString ValueId := ⟨fun v => "%" ++ toString v.index⟩
instance : ToString InstrId := ⟨fun i => "i" ++ toString i.index⟩
instance : ToString BodyId := ⟨fun f => "fn#" ++ toString f.serial⟩

/-- The three kinds of numbered parts of a body. -/
inductive IdSpace where
  | block
  | value
  | instr
  deriving DecidableEq, Repr

namespace TypeId

def bool : TypeId := ⟨1⟩
def int : TypeId := ⟨2⟩
/-- The address of a memory location. -/
def address : TypeId := ⟨4⟩
/-- A token for a scope that has to be closed. -/
def token : TypeId := ⟨5⟩
def error : TypeId := ⟨6⟩

end TypeId

end FlowGraph
