import FlowGraph.Point
import FlowGraph.Terminator

/-!
What can go wrong, and how it is reported.

* `MergeRefusal`: why a block cannot absorb its successor.
* `Malformation`: the first broken invariant that verification meets.
* `Staleness`: where a stored analysis differs from a fresh one.
* `Fault`: a call whose precondition does not hold. Nothing can be done with the body after one.

Each is a type of causes, and its wording is the function `message`.
-/

namespace FlowGraph

/-- Why a block cannot absorb its successor. -/
inductive MergeRefusal where
  | notUnconditionalBranch (block : BlockId)
  | selfLoop (block : BlockId)
  | entryBlock (succ : BlockId)
  | multiplePredecessors (succ : BlockId) (count : Nat)
  | argumentCycle (block succ : BlockId)
  deriving DecidableEq, Repr

/-- A broken structural invariant. -/
inductive Malformation where
  | empty
  | missingTerminator (block : BlockId)
  | entryHasPredecessors (entry : BlockId) (preds : List Edge)
  | deadSuccessor (edge : Edge) (succ : BlockId)
  | edgeArgCount (edge : Edge) (succ : BlockId) (expected found : Nat)
  | implicitArgCount (edge : Edge) (succ : BlockId) (terminator : Terminator) (found : Nat)
  | predecessorMismatch (block : BlockId) (expected found : List Edge)
  | instrBlockMismatch (instr : InstrId) (listed recorded : BlockId)
  | argOriginMismatch (block : BlockId) (index : Nat) (value : ValueId)
  | deadOperand (block : BlockId) (value : ValueId)
  | useIndexMismatch (value : ValueId) (expected found : List Point)
  deriving DecidableEq, Repr

/-- A difference between a stored analysis and a fresh one. -/
inductive Staleness where
  | dominator (block : BlockId) (stored fresh : Option BlockId)
  | postDominator (block : BlockId) (stored fresh : Option BlockId)
  | loopCount (stored fresh : Nat)
  | loopMembership (block : BlockId) (stored fresh : Option BlockId)
  | loopParent (header : BlockId) (stored fresh : Option BlockId)
  deriving DecidableEq, Repr

/-- The analyses that can be out of date. -/
inductive Analysis where
  | dominators
  | postDominators
  | loops
  deriving DecidableEq, Repr

/-- A call that is not allowed. -/
inductive Fault where
  /-- A position outside a list. -/
  | outOfBounds
  | idOverflow (space : IdSpace)
  | tooManyArgs (block : BlockId)
  | noBlocks (body : String)
  | deadBlock (block : BlockId) (body : String)
  | deadValue (value : ValueId) (body : String)
  | deadInstr (instr : InstrId) (body : String)
  | notInLayout (block : BlockId) (body : String)
  | notListed (instr : InstrId) (block : BlockId)
  | noTerminator (block : BlockId)
  | noSuccessor (terminator : Terminator) (edge : Nat)
  | noEdge (terminator : Terminator) (edge : Nat)
  | noCase (edge cases : Nat)
  | argInUse (block : BlockId) (index : Nat) (value : ValueId)
  | resultInUse (instr : InstrId) (result : ValueId)
  | splitPastEnd (block : BlockId) (position length : Nat)
  | mergeArity (block succ : BlockId)
  | stillTargeted (block : BlockId) (preds : List Edge)
  | malformed (body : String) (cause : Malformation)
  | alreadyInTree (node : Nat)
  | notInTree (node : Nat)
  | underDescendant (node parent : Nat)
  | brokenChain (node : Nat)
  | foreignBody (owner : BodyId) (body : String) (id : BodyId)
  | foreignPostDominators
  | stale (analysis : Analysis) (body : String) (cause : Staleness)
  | headsLoop (block : BlockId)
  | notPhi (block : BlockId) (index : Nat) (value : ValueId)
  | implicitPhi (block : BlockId) (index : Nat)
  /-- An iteration that would not come to an end. -/
  | diverges
  deriving DecidableEq, Repr

def BlockId.detail (b : BlockId) : String := s!"BlockId({b.index})"

def Edge.detail (e : Edge) : String :=
  s!"PredEdge \x7b block: {e.block.detail}, edge: {e.index} \x7d"

def Point.detail : Point → String
  | .instr i => s!"Inst(InstId({i.index}))"
  | .terminator b => s!"Terminator({b.detail})"

def listDetail (items : List String) : String := "[" ++ ", ".intercalate items ++ "]"

def blockDetail : Option BlockId → String
  | none => "None"
  | some b => s!"Some({b.detail})"

def MergeRefusal.message : MergeRefusal → String
  | .notUnconditionalBranch block => s!"{block} does not end in an unconditional branch"
  | .selfLoop block => s!"{block} branches to itself"
  | .entryBlock succ => s!"{succ} is the function entry"
  | .multiplePredecessors succ count =>
    s!"{succ} has {count} predecessor edges, expected exactly one"
  | .argumentCycle block succ =>
    s!"branch from {block} passes an argument of {succ} back into it"

def Malformation.message : Malformation → String
  | .empty => "function has no blocks"
  | .missingTerminator block => s!"{block} has no terminator"
  | .entryHasPredecessors entry preds =>
    s!"entry {entry} has predecessors {listDetail (preds.map Edge.detail)}"
  | .deadSuccessor edge succ => s!"edge {edge.index} of {edge.block} targets erased block {succ}"
  | .edgeArgCount edge succ expected found =>
    s!"edge {edge.index} of {edge.block} passes {found} arguments but {succ} declares {expected}"
  | .implicitArgCount edge succ terminator found =>
    s!"{terminator.kindName} edge {edge.index} of {edge.block} cannot feed {succ} with {found} arguments"
  | .predecessorMismatch block expected found =>
    s!"predecessor index of {block} is {listDetail (found.map Edge.detail)}, terminators imply {listDetail (expected.map Edge.detail)}"
  | .instrBlockMismatch instr listed recorded =>
    s!"{instr} is listed in {listed} but records {recorded}"
  | .argOriginMismatch block index value =>
    s!"argument {index} of {block} is {value}, whose definition disagrees"
  | .deadOperand block value => s!"{value} used in {block} is not defined"
  | .useIndexMismatch value expected found =>
    s!"use index of {value} is {listDetail (found.map Point.detail)}, operands imply {listDetail (expected.map Point.detail)}"

def Staleness.message : Staleness → String
  | .dominator block stored fresh =>
    s!"immediate dominator of {block} is {blockDetail stored} in the cached tree but {blockDetail fresh} when recomputed"
  | .postDominator block stored fresh =>
    s!"immediate post-dominator of {block} is {blockDetail stored} in the cached tree but {blockDetail fresh} when recomputed"
  | .loopCount stored fresh =>
    s!"cached loop forest has {stored} loops, recomputed forest has {fresh}"
  | .loopMembership block stored fresh =>
    s!"innermost loop of {block} has header {blockDetail stored} in the cached forest but {blockDetail fresh} when recomputed"
  | .loopParent header stored fresh =>
    s!"loop headed by {header} has parent {blockDetail stored} in the cached forest but {blockDetail fresh} when recomputed"

def IdSpace.name : IdSpace → String
  | .block => "BlockId"
  | .value => "ValueId"
  | .instr => "InstId"

def Analysis.name : Analysis → String
  | .dominators => "dominator tree"
  | .postDominators => "post-dominator tree"
  | .loops => "loop info"

def Fault.message : Fault → String
  | .outOfBounds => "index out of bounds"
  | .idOverflow space => s!"{space.name} overflow"
  | .tooManyArgs block => s!"argument count of {block} exceeds u32::MAX"
  | .noBlocks body => s!"function `{body}` has no blocks"
  | .deadBlock block body => s!"{block} is not a live block of `{body}`"
  | .deadValue value body => s!"{value} is not a live value of `{body}`"
  | .deadInstr instr body => s!"{instr} is not a live instruction of `{body}`"
  | .notInLayout block body => s!"{block} is not in the layout of `{body}`"
  | .notListed instr block => s!"{instr} is not listed in {block}"
  | .noTerminator block => s!"{block} has no terminator"
  | .noSuccessor terminator edge =>
    s!"edge {edge} out of range for {terminator.kindName} with {terminator.successors.length} successors"
  | .noEdge terminator edge => s!"edge {edge} out of range for {terminator.kindName}"
  | .noCase edge cases => s!"edge {edge} out of range for switch with {cases} cases"
  | .argInUse block index value =>
    s!"erasing argument {index} of {block} ({value}) which still has uses"
  | .resultInUse instr result => s!"erasing {instr} whose result {result} still has uses"
  | .splitPastEnd block position length =>
    s!"cannot split {block} at {position}: it has {length} instructions before its terminator"
  | .mergeArity block succ =>
    s!"branch from {block} passes the wrong number of arguments to {succ}"
  | .stillTargeted block preds =>
    s!"erasing {block} which is still targeted by {listDetail (preds.map Edge.detail)}"
  | .malformed body cause => s!"IR verification failed for `{body}`: {cause.message}"
  | .alreadyInTree node => s!"node {node} is already in the tree"
  | .notInTree node => s!"re-parenting node {node} outside the tree"
  | .underDescendant node parent => s!"re-parenting {node} under its own descendant {parent}"
  | .brokenChain node => s!"intersect: broken idom chain at {node}"
  | .foreignBody owner body id =>
    s!"dominator tree of {owner} queried with function `{body}` ({id})"
  | .foreignPostDominators => "post-dominator tree of another function"
  | .stale analysis body cause => s!"{analysis.name} of `{body}` is stale: {cause.message}"
  | .headsLoop block => s!"cannot remove {block}: it heads a loop"
  | .notPhi block index value => s!"argument {index} of {block} ({value}) is not a phi"
  | .implicitPhi block index =>
    s!"cannot erase argument {index} of {block}: an incoming edge delivers it implicitly"
  | .diverges => "the computation does not come to an end"

/-- The number of a new slot, which has to be below the limit. -/
def IdSpace.checked (space : IdSpace) (index : Nat) : Except Fault Nat :=
  if index < slotLimit then .ok index else .error (.idOverflow space)

namespace Terminator

/-- The block that edge `e` leads to. -/
def successor (t : Terminator) (e : Nat) : Except Fault BlockId :=
  match t.successors[e]? with
  | some dest => .ok dest
  | none => .error (.noSuccessor t e)

def edgeArgs (t : Terminator) (e : Nat) : Except Fault EdgeArgs :=
  match t.edgeArgs? e with
  | some args => .ok args
  | none => .error (.noEdge t e)

/-- The cases and the default of a switch with edge `e` led to `dest`. -/
def setCase {κ : Type} (cases : List (κ × BlockId)) (default : Option BlockId) (e : Nat)
    (dest : BlockId) : Except Fault (List (κ × BlockId) × Option BlockId) :=
  if e < cases.length then .ok (cases.modify e fun c => (c.1, dest), default)
  else
    match default with
    | some _ => if e = cases.length then .ok (cases, some dest) else .error (.noCase e cases.length)
    | none => .error (.noCase e cases.length)

/-- Lead edge `e` to `dest`; what the edge delivers is left alone. -/
def setSuccessor : Terminator → Nat → BlockId → Except Fault Terminator
  | br _ args, 0, dest => .ok (br dest args)
  | condBr cond _ trueArgs falseDest falseArgs, 0, dest =>
    .ok (condBr cond dest trueArgs falseDest falseArgs)
  | condBr cond trueDest trueArgs _ falseArgs, 1, dest =>
    .ok (condBr cond trueDest trueArgs dest falseArgs)
  | switchValue operand cases default, e, dest => do
    let (cases, default) ← setCase cases default e dest
    return switchValue operand cases default
  | switchEnum operand cases default, e, dest => do
    let (cases, default) ← setCase cases default e dest
    return switchEnum operand cases default
  | checkedCast operand target _ failure, 0, dest => .ok (checkedCast operand target dest failure)
  | checkedCast operand target success _, 1, dest => .ok (checkedCast operand target success dest)
  | tryApply callee args _ error, 0, dest => .ok (tryApply callee args dest error)
  | tryApply callee args normal _, 1, dest => .ok (tryApply callee args normal dest)
  | dynamicMethodBr operand member _ noMethod, 0, dest =>
    .ok (dynamicMethodBr operand member dest noMethod)
  | dynamicMethodBr operand member hasMethod _, 1, dest =>
    .ok (dynamicMethodBr operand member hasMethod dest)
  | yieldTo values _ cancel, 0, dest => .ok (yieldTo values dest cancel)
  | yieldTo values resume _, 1, dest => .ok (yieldTo values resume dest)
  | t, e, _ => .error (.noEdge t e)

end Terminator

end FlowGraph
