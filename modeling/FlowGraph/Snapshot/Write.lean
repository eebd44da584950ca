import FlowGraph.Body.Basic
import FlowGraph.Snapshot.Datum

namespace FlowGraph

open Datum

def BlockId.toDatum (b : BlockId) : Datum := .nat b.index

def ValueId.toDatum (v : ValueId) : Datum := .nat v.index

def InstrId.toDatum (i : InstrId) : Datum := .nat i.index

def TypeId.toDatum (t : TypeId) : Datum := .nat t.index

def Ownership.toDatum : Ownership → Datum
  | .none => .text "None"
  | .owned => .text "Owned"
  | .guaranteed => .text "Guaranteed"
  | .unowned => .text "Unowned"

def Convention.toDatum : Convention → Datum
  | .owned => .text "Owned"
  | .guaranteed => .text "Guaranteed"
  | .indirect => .text "Indirect"
  | .inoutAliasable => .text "InoutAliasable"

def ArgKind.toDatum : ArgKind → Datum
  | .phi => .text "Phi"
  | .function convention => .variant "Function" convention.toDatum

def Origin.toDatum : Origin → Datum
  | .result instr => .variant "Inst" instr.toDatum
  | .argument block index kind => .variant "BlockArg" (.record
      [("block", block.toDatum), ("index", .nat index), ("kind", kind.toDatum)])

def Value.toDatum (v : Value) : Datum := .record
  [("ty", v.type.toDatum), ("ownership", v.ownership.toDatum), ("def", v.origin.toDatum)]

def Literal.toDatum : Literal → Datum
  | .int value => .variant "Int" (.int value)
  | .bool value => .variant "Bool" (.bool value)
  | .str value => .variant "Str" (.text value)

def resultToDatum (result : TypeId × Ownership) : Datum :=
  .list [result.1.toDatum, result.2.toDatum]

def Operation.toDatum : Operation → Datum
  | .literal type value => .variant "Literal" (.record
      [("ty", type.toDatum), ("value", value.toDatum)])
  | .builtin name args result sideEffects => .variant "Builtin" (.record
      [("name", .text name), ("args", .listOf ValueId.toDatum args),
        ("result", .optionOf resultToDatum result), ("side_effects", .bool sideEffects)])
  | .apply callee args type => .variant "Apply" (.record
      [("callee", .text callee), ("args", .listOf ValueId.toDatum args), ("ty", type.toDatum)])
  | .copy operand type => .variant "Copy" (.record
      [("operand", operand.toDatum), ("ty", type.toDatum)])
  | .destroy operand => .variant "Destroy" (.record [("operand", operand.toDatum)])
  | .beginBorrow operand type => .variant "BeginBorrow" (.record
      [("operand", operand.toDatum), ("ty", type.toDatum)])
  | .endBorrow operand => .variant "EndBorrow" (.record [("operand", operand.toDatum)])
  | .allocStack type => .variant "AllocStack" (.record [("ty", type.toDatum)])
  | .deallocStack operand => .variant "DeallocStack" (.record [("operand", operand.toDatum)])
  | .beginAccess address => .variant "BeginAccess" (.record [("address", address.toDatum)])
  | .endAccess access => .variant "EndAccess" (.record [("access", access.toDatum)])
  | .beginApply callee args => .variant "BeginApply" (.record
      [("callee", .text callee), ("args", .listOf ValueId.toDatum args)])
  | .endApply token => .variant "EndApply" (.record [("token", token.toDatum)])
  | .abortApply token => .variant "AbortApply" (.record [("token", token.toDatum)])
  | .openExistential operand type => .variant "OpenExistential" (.record
      [("operand", operand.toDatum), ("ty", type.toDatum)])
  | .foreignMethod operand member type => .variant "ForeignMethod" (.record
      [("operand", operand.toDatum), ("member", .text member), ("ty", type.toDatum)])

def Instr.toDatum (i : Instr) : Datum := .record
  [("kind", i.op.toDatum), ("block", i.block.toDatum),
    ("result", .optionOf ValueId.toDatum i.result)]

def intCaseToDatum (c : Int × BlockId) : Datum := .list [.int c.1, c.2.toDatum]

def tagCaseToDatum (c : Nat × BlockId) : Datum := .list [.nat c.1, c.2.toDatum]

def Terminator.toDatum : Terminator → Datum
  | .br dest args => .variant "Br" (.record
      [("dest", dest.toDatum), ("args", .listOf ValueId.toDatum args)])
  | .condBr cond trueDest trueArgs falseDest falseArgs => .variant "CondBr" (.record
      [("cond", cond.toDatum), ("true_dest", trueDest.toDatum),
        ("true_args", .listOf ValueId.toDatum trueArgs), ("false_dest", falseDest.toDatum),
        ("false_args", .listOf ValueId.toDatum falseArgs)])
  | .switchValue operand cases default => .variant "SwitchValue" (.record
      [("operand", operand.toDatum), ("cases", .listOf intCaseToDatum cases),
        ("default", .optionOf BlockId.toDatum default)])
  | .switchEnum operand cases default => .variant "SwitchEnum" (.record
      [("operand", operand.toDatum), ("cases", .listOf tagCaseToDatum cases),
        ("default", .optionOf BlockId.toDatum default)])
  | .checkedCast operand target success failure => .variant "CheckedCast" (.record
      [("operand", operand.toDatum), ("target", target.toDatum), ("success", success.toDatum),
        ("failure", failure.toDatum)])
  | .tryApply callee args normal error => .variant "TryApply" (.record
      [("callee", .text callee), ("args", .listOf ValueId.toDatum args),
        ("normal", normal.toDatum), ("error", error.toDatum)])
  | .dynamicMethodBr operand member hasMethod noMethod => .variant "DynamicMethodBr" (.record
      [("operand", operand.toDatum), ("member", .text member), ("has_method", hasMethod.toDatum),
        ("no_method", noMethod.toDatum)])
  | .yieldTo values resume cancel => .variant "Yield" (.record
      [("values", .listOf ValueId.toDatum values), ("resume", resume.toDatum),
        ("unwind", cancel.toDatum)])
  | .ret value => .variant "Return" (.record [("value", value.toDatum)])
  | .throwing value => .variant "Throw" (.record [("value", value.toDatum)])
  | .unwind => .text "Unwind"
  | .unreachable => .text "Unreachable"

def Edge.toDatum (e : Edge) : Datum := .record
  [("block", e.block.toDatum), ("edge", .nat e.index)]

def Point.toDatum : Point → Datum
  | .instr id => .variant "Inst" id.toDatum
  | .terminator block => .variant "Terminator" block.toDatum

def Block.toDatum (b : Block) : Datum := .record
  [("args", .listOf ValueId.toDatum b.args), ("insts", .listOf InstrId.toDatum b.instrs),
    ("terminator", .optionOf Terminator.toDatum b.terminator),
    ("preds", .listOf Edge.toDatum b.preds)]

def UseIndex.toDatum (u : UseIndex) : Datum := .record
  [("users", .listOf (.listOf Point.toDatum) u.users.toList)]

def Arena.toDatum {α : Type} (item : α → Datum) (a : Arena α) : Datum :=
  .listOf (.optionOf item) a.slots.toList

def Body.toDatum (f : Body) : Datum := .record
  [("name", .text f.name), ("blocks", f.blocks.toDatum Block.toDatum),
    ("layout", .listOf BlockId.toDatum f.layout), ("insts", f.instrs.toDatum Instr.toDatum),
    ("values", f.values.toDatum Value.toDatum), ("use_index", f.useIndex.toDatum)]

end FlowGraph
