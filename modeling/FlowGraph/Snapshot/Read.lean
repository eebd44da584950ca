import FlowGraph.Body.Basic
import FlowGraph.Snapshot.Datum

namespace FlowGraph

open Datum

/-- Numbers of edges lie below this limit. -/
def edgeLimit : Nat := 1 <<< 64

def BlockId.ofDatum? (d : Datum) : Option BlockId := (d.nat? slotLimit).map BlockId.mk

def ValueId.ofDatum? (d : Datum) : Option ValueId := (d.nat? slotLimit).map ValueId.mk

def InstrId.ofDatum? (d : Datum) : Option InstrId := (d.nat? slotLimit).map InstrId.mk

def TypeId.ofDatum? (d : Datum) : Option TypeId := (d.nat? slotLimit).map TypeId.mk

def Ownership.ofDatum? (d : Datum) : Option Ownership :=
  match d.variant? with
  | some ("None", .null) => some .none
  | some ("Owned", .null) => some .owned
  | some ("Guaranteed", .null) => some .guaranteed
  | some ("Unowned", .null) => some .unowned
  | _ => Option.none

def Convention.ofDatum? (d : Datum) : Option Convention :=
  match d.variant? with
  | some ("Owned", .null) => some .owned
  | some ("Guaranteed", .null) => some .guaranteed
  | some ("Indirect", .null) => some .indirect
  | some ("InoutAliasable", .null) => some .inoutAliasable
  | _ => none

def ArgKind.ofDatum? (d : Datum) : Option ArgKind :=
  match d.variant? with
  | some ("Phi", .null) => some .phi
  | some ("Function", content) => (Convention.ofDatum? content).map .function
  | _ => none

def Origin.ofDatum? (d : Datum) : Option Origin :=
  match d.variant? with
  | some ("Inst", content) => (InstrId.ofDatum? content).map .result
  | some ("BlockArg", content) =>
    match content.named? ["block", "index", "kind"] with
    | some [some block, some index, some kind] =>
      return .argument (← BlockId.ofDatum? block) (← index.nat? slotLimit) (← ArgKind.ofDatum? kind)
    | _ => none
  | _ => none

def Value.ofDatum? (d : Datum) : Option Value :=
  match d.fields? ["ty", "ownership", "def"] with
  | some [some type, some ownership, some origin] =>
    return ⟨← TypeId.ofDatum? type, ← Ownership.ofDatum? ownership, ← Origin.ofDatum? origin⟩
  | _ => none

def Literal.ofDatum? (d : Datum) : Option Literal :=
  match d.variant? with
  | some ("Int", content) => content.int64?.map .int
  | some ("Bool", content) => content.bool?.map .bool
  | some ("Str", content) => content.text?.map .str
  | _ => none

/-- The content of a form with one operand. -/
def operand? (name : String) (content : Datum) : Option ValueId :=
  match content.named? [name] with
  | some [some operand] => ValueId.ofDatum? operand
  | _ => none

/-- The content of a form with one operand and a type. -/
def operandAndType? (content : Datum) : Option (ValueId × TypeId) :=
  match content.named? ["operand", "ty"] with
  | some [some operand, some type] => return (← ValueId.ofDatum? operand, ← TypeId.ofDatum? type)
  | _ => none

def values? (d : Datum) : Option (List ValueId) := d.list? ValueId.ofDatum?

/-- The type and ownership of a result. -/
def result? (d : Datum) : Option (TypeId × Ownership) :=
  d.pair? TypeId.ofDatum? Ownership.ofDatum?

def Operation.ofDatum? (d : Datum) : Option Operation :=
  match d.variant? with
  | some ("Literal", content) =>
    match content.named? ["ty", "value"] with
    | some [some type, some value] =>
      return .literal (← TypeId.ofDatum? type) (← Literal.ofDatum? value)
    | _ => none
  | some ("Builtin", content) =>
    match content.named? ["name", "args", "result", "side_effects"] with
    | some [some name, some args, result, some sideEffects] =>
      return .builtin (← name.text?) (← values? args) (← (result.getD .null).option? result?)
        (← sideEffects.bool?)
    | _ => none
  | some ("Apply", content) =>
    match content.named? ["callee", "args", "ty"] with
    | some [some callee, some args, some type] =>
      return .apply (← callee.text?) (← values? args) (← TypeId.ofDatum? type)
    | _ => none
  | some ("Copy", content) => (operandAndType? content).map fun p => .copy p.1 p.2
  | some ("Destroy", content) => (operand? "operand" content).map .destroy
  | some ("BeginBorrow", content) => (operandAndType? content).map fun p => .beginBorrow p.1 p.2
  | some ("EndBorrow", content) => (operand? "operand" content).map .endBorrow
  | some ("AllocStack", content) =>
    match content.named? ["ty"] with
    | some [some type] => (TypeId.ofDatum? type).map .allocStack
    | _ => none
  | some ("DeallocStack", content) => (operand? "operand" content).map .deallocStack
  | some ("BeginAccess", content) => (operand? "address" content).map .beginAccess
  | some ("EndAccess", content) => (operand? "access" content).map .endAccess
  | some ("BeginApply", content) =>
    match content.named? ["callee", "args"] with
    | some [some callee, some args] => return .beginApply (← callee.text?) (← values? args)
    | _ => none
  | some ("EndApply", content) => (operand? "token" content).map .endApply
  | some ("AbortApply", content) => (operand? "token" content).map .abortApply
  | some ("OpenExistential", content) =>
    (operandAndType? content).map fun p => .openExistential p.1 p.2
  | some ("ForeignMethod", content) =>
    match content.named? ["operand", "member", "ty"] with
    | some [some operand, some member, some type] =>
      return .foreignMethod (← ValueId.ofDatum? operand) (← member.text?) (← TypeId.ofDatum? type)
    | _ => none
  | _ => none

def Instr.ofDatum? (d : Datum) : Option Instr :=
  match d.fields? ["kind", "block", "result"] with
  | some [some op, some block, result] =>
    return ⟨← Operation.ofDatum? op, ← BlockId.ofDatum? block,
      ← (result.getD .null).option? ValueId.ofDatum?⟩
  | _ => none

/-- The content of a switch whose cases are labelled by `label`. -/
def switch? {κ : Type} (label : Datum → Option κ) (content : Datum) :
    Option (ValueId × List (κ × BlockId) × Option BlockId) :=
  match content.named? ["operand", "cases", "default"] with
  | some [some operand, some cases, default] =>
    return (← ValueId.ofDatum? operand, ← cases.list? (pair? label BlockId.ofDatum?),
      ← (default.getD .null).option? BlockId.ofDatum?)
  | _ => none

def Terminator.ofDatum? (d : Datum) : Option Terminator :=
  match d.variant? with
  | some ("Br", content) =>
    match content.named? ["dest", "args"] with
    | some [some dest, some args] => return .br (← BlockId.ofDatum? dest) (← values? args)
    | _ => none
  | some ("CondBr", content) =>
    match content.named? ["cond", "true_dest", "true_args", "false_dest", "false_args"] with
    | some [some cond, some trueDest, some trueArgs, some falseDest, some falseArgs] =>
      return .condBr (← ValueId.ofDatum? cond) (← BlockId.ofDatum? trueDest) (← values? trueArgs)
        (← BlockId.ofDatum? falseDest) (← values? falseArgs)
    | _ => none
  | some ("SwitchValue", content) =>
    (switch? int64? content).map fun (operand, cases, default) =>
      .switchValue operand cases default
  | some ("SwitchEnum", content) =>
    (switch? (nat? slotLimit) content).map fun (operand, cases, default) =>
      .switchEnum operand cases default
  | some ("CheckedCast", content) =>
    match content.named? ["operand", "target", "success", "failure"] with
    | some [some operand, some target, some success, some failure] =>
      return .checkedCast (← ValueId.ofDatum? operand) (← TypeId.ofDatum? target)
        (← BlockId.ofDatum? success) (← BlockId.ofDatum? failure)
    | _ => none
  | some ("TryApply", content) =>
    match content.named? ["callee", "args", "normal", "error"] with
    | some [some callee, some args, some normal, some error] =>
      return .tryApply (← callee.text?) (← values? args) (← BlockId.ofDatum? normal)
        (← BlockId.ofDatum? error)
    | _ => none
  | some ("DynamicMethodBr", content) =>
    match content.named? ["operand", "member", "has_method", "no_method"] with
    | some [some operand, some member, some hasMethod, some noMethod] =>
      return .dynamicMethodBr (← ValueId.ofDatum? operand) (← member.text?)
        (← BlockId.ofDatum? hasMethod) (← BlockId.ofDatum? noMethod)
    | _ => none
  | some ("Yield", content) =>
    match content.named? ["values", "resume", "unwind"] with
    | some [some values, some resume, some cancel] =>
      return .yieldTo (← values? values) (← BlockId.ofDatum? resume) (← BlockId.ofDatum? cancel)
    | _ => none
  | some ("Return", content) => (operand? "value" content).map .ret
  | some ("Throw", content) => (operand? "value" content).map .throwing
  | some ("Unwind", .null) => some .unwind
  | some ("Unreachable", .null) => some .unreachable
  | _ => none

def Edge.ofDatum? (d : Datum) : Option Edge :=
  match d.fields? ["block", "edge"] with
  | some [some block, some index] => return ⟨← BlockId.ofDatum? block, ← index.nat? edgeLimit⟩
  | _ => none

def Point.ofDatum? (d : Datum) : Option Point :=
  match d.variant? with
  | some ("Inst", content) => (InstrId.ofDatum? content).map .instr
  | some ("Terminator", content) => (BlockId.ofDatum? content).map .terminator
  | _ => none

def Block.ofDatum? (d : Datum) : Option Block :=
  match d.fields? ["args", "insts", "terminator", "preds"] with
  | some [some args, some instrs, terminator, some preds] =>
    return ⟨← values? args, ← instrs.list? InstrId.ofDatum?,
      ← (terminator.getD .null).option? Terminator.ofDatum?, ← preds.list? Edge.ofDatum?⟩
  | _ => none

def UseIndex.ofDatum? (d : Datum) : Option UseIndex :=
  match d.fields? ["users"] with
  | some [some users] => return ⟨(← users.list? (list? Point.ofDatum?)).toArray⟩
  | _ => none

def Arena.ofDatum? {α : Type} (item : Datum → Option α) (d : Datum) : Option (Arena α) :=
  return ⟨(← d.list? (option? item)).toArray⟩

/-- A body with the given identity and the stored content. -/
def Body.ofDatum? (id : BodyId) (d : Datum) : Option Body :=
  match d.fields? ["name", "blocks", "layout", "insts", "values", "use_index"] with
  | some [some name, some blocks, some layout, some instrs, some values, some useIndex] =>
    return {
      id
      name := ← name.text?
      blocks := ← Arena.ofDatum? Block.ofDatum? blocks
      layout := ← layout.list? BlockId.ofDatum?
      instrs := ← Arena.ofDatum? Instr.ofDatum? instrs
      values := ← Arena.ofDatum? Value.ofDatum? values
      useIndex := ← UseIndex.ofDatum? useIndex }
  | _ => none

end FlowGraph
