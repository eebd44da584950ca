import FlowGraph.Body.Basic

/-!
Equality of bodies. Two bodies are similar if they agree in everything but their identity, with
the use lists compared as multisets: the order inside a use list is a trace of the edits made.
-/

namespace FlowGraph

/-- Whether two use indexes hold the same lists up to order. -/
def UseIndex.similar (u w : UseIndex) : Bool := u.sorted = w.sorted

namespace Body

def sortUses (f : Body) : Body := { f with useIndex := f.useIndex.sorted }

/-- Whether two bodies agree in everything but their identity and the order of use lists. -/
def similar (f g : Body) : Bool :=
  f.name = g.name && f.blocks = g.blocks && f.layout = g.layout && f.instrs = g.instrs &&
    f.values = g.values && f.useIndex.similar g.useIndex

/-- What of a body goes into its hash: everything but the identity, and of a use list only its
length. -/
structure Fingerprint where
  name : String
  blocks : Arena Block
  layout : List BlockId
  instrs : Arena Instr
  values : Arena Value
  useCounts : Array Nat
  deriving DecidableEq, Repr

def fingerprint (f : Body) : Fingerprint where
  name := f.name
  blocks := f.blocks
  layout := f.layout
  instrs := f.instrs
  values := f.values
  useCounts := f.useIndex.users.map List.length

end Body

end FlowGraph
