import FlowGraph.Id

namespace FlowGraph

/-- How the uses of a value may treat it. A trivial value (`none`) has no constraint, an owned
value is consumed exactly once, a guaranteed value is kept alive by an enclosing scope and only
read, and an unowned value is a reference without a lifetime promise. -/
inductive Ownership where
  | none
  | owned
  | guaranteed
  | unowned
  deriving DecidableEq, Repr, Inhabited

namespace Ownership

/-- A trivial value goes with every kind, other kinds only with themselves. -/
def compatible (a b : Ownership) : Bool := a = b || a = .none || b = .none

/-- The kind of an argument that receives values of kinds `a` and `b`, if there is one. -/
def join? (a b : Ownership) : Option Ownership :=
  if a = .none then some b
  else if b = .none then some a
  else if a = b then some a
  else Option.none

end Ownership

/-- How an argument of the function itself is passed. -/
inductive Convention where
  | owned
  | guaranteed
  | indirect
  | inoutAliasable
  deriving DecidableEq, Repr, Inhabited

/-- The ownership that an argument starts with: what is passed by address is trivial. -/
def Convention.ownership : Convention → Ownership
  | .owned => .owned
  | .guaranteed => .guaranteed
  | .indirect => .none
  | .inoutAliasable => .none

/-- What a block argument stands for: a phi takes a value from each incoming edge, a function
argument takes its value when the body is entered. -/
inductive ArgKind where
  | phi
  | function (convention : Convention)
  deriving DecidableEq, Repr, Inhabited

/-- Where a value comes from. -/
inductive Origin where
  | result (instr : InstrId)
  | argument (block : BlockId) (index : Nat) (kind : ArgKind)
  deriving DecidableEq, Repr, Inhabited

namespace Origin

/-- The block that a block argument belongs to. -/
def argBlock? : Origin → Option BlockId
  | .result _ => none
  | .argument block _ _ => some block

def isPhi : Origin → Bool
  | .argument _ _ .phi => true
  | _ => false

/-- Place an argument at position `index` of `block`; results are left alone. -/
def placeAt (block : BlockId) (index : Nat) : Origin → Origin
  | .argument _ _ kind => .argument block index kind
  | .result instr => .result instr

end Origin

structure Value where
  type : TypeId
  ownership : Ownership
  origin : Origin
  deriving DecidableEq, Repr, Inhabited

end FlowGraph
