import FlowGraph.Program
import FlowGraph.Proofs.Similar.Basic
import FlowGraph.Snapshot.Read
import FlowGraph.Snapshot.Write

/-!
Bodies come back from their stored form. A body is in range if its numbers fit: 32 bits for the
numbers of parts, types, arguments and tags, 64 for edges, 64 with a sign for literals and the cases
of a switch over integers. Nothing else is asked of it: arenas may have empty slots, lists may name
parts that do not exist, and use lists may be in any order.

Each type has its range check and the lemma that its reader inverts its writer within the range.
-/

namespace FlowGraph

namespace Datum

variable {α β : Type} {read : Datum → Option α} {write : α → Datum} {ok : α → Bool}

def inInt64 (n : Int) : Bool := Int64.minValue.toInt ≤ n && n ≤ Int64.maxValue.toInt

theorem nat?_nat {limit n : Nat} (h : n < limit) : nat? limit (.nat n) = some n := by
  rw [Datum.nat, nat?, if_pos ⟨Int.natCast_nonneg n, Int.ofNat_lt.mpr h⟩, Int.toNat_natCast]

theorem int64?_int {n : Int} (h : inInt64 n = true) : int64? (.int n) = some n := by
  rw [inInt64, Bool.and_eq_true, decide_eq_true_eq, decide_eq_true_eq] at h
  rw [int64?, if_pos h]

theorem list?_listOf (hread : ∀ x, ok x = true → read (write x) = some x) {xs : List α}
    (h : xs.all ok = true) : list? read (listOf write xs) = some xs := by
  rw [listOf, list?]
  induction xs with
  | nil => rfl
  | cons x xs ih =>
      rw [List.all_cons, Bool.and_eq_true] at h
      rw [List.map_cons, List.mapM_cons, hread x h.1, ih h.2]
      rfl

theorem option?_optionOf (hread : ∀ x, ok x = true → read (write x) = some x)
    (hnull : ∀ x, write x ≠ .null) {o : Option α} (h : o.all ok = true) :
    option? read (optionOf write o) = some o := by
  cases o with
  | none => rfl
  | some x =>
      have hx : read (write x) = some x := hread x h
      rw [optionOf, option?]
      · rw [hx]
        rfl
      · exact hnull x

end Datum

open Datum

def BlockId.inRange (b : BlockId) : Bool := b.index < slotLimit

def ValueId.inRange (v : ValueId) : Bool := v.index < slotLimit

def InstrId.inRange (i : InstrId) : Bool := i.index < slotLimit

def TypeId.inRange (t : TypeId) : Bool := t.index < slotLimit

theorem BlockId.ofDatum?_toDatum {b : BlockId} (h : b.inRange = true) :
    ofDatum? b.toDatum = some b := by
  rw [ofDatum?, toDatum, nat?_nat (of_decide_eq_true h)]
  rfl

theorem ValueId.ofDatum?_toDatum {v : ValueId} (h : v.inRange = true) :
    ofDatum? v.toDatum = some v := by
  rw [ofDatum?, toDatum, nat?_nat (of_decide_eq_true h)]
  rfl

theorem InstrId.ofDatum?_toDatum {i : InstrId} (h : i.inRange = true) :
    ofDatum? i.toDatum = some i := by
  rw [ofDatum?, toDatum, nat?_nat (of_decide_eq_true h)]
  rfl

theorem TypeId.ofDatum?_toDatum {t : TypeId} (h : t.inRange = true) :
    ofDatum? t.toDatum = some t := by
  rw [ofDatum?, toDatum, nat?_nat (of_decide_eq_true h)]
  rfl

theorem values?_listOf {vs : List ValueId} (h : vs.all ValueId.inRange = true) :
    values? (listOf ValueId.toDatum vs) = some vs :=
  list?_listOf (fun _ => ValueId.ofDatum?_toDatum) h

theorem option?_value {o : Option ValueId} (h : o.all ValueId.inRange = true) :
    option? ValueId.ofDatum? (optionOf ValueId.toDatum o) = some o :=
  option?_optionOf (fun _ => ValueId.ofDatum?_toDatum) (fun _ => nofun) h

def Origin.inRange : Origin → Bool
  | .result instr => instr.inRange
  | .argument block index _ => block.inRange && index < slotLimit

def Value.inRange (v : Value) : Bool := v.type.inRange && v.origin.inRange

theorem Ownership.ofDatum?_toDatum (ownership : Ownership) :
    ofDatum? ownership.toDatum = some ownership := by
  cases ownership <;> rfl

theorem Convention.ofDatum?_toDatum (convention : Convention) :
    ofDatum? convention.toDatum = some convention := by
  cases convention <;> rfl

theorem ArgKind.ofDatum?_toDatum (kind : ArgKind) : ofDatum? kind.toDatum = some kind := by
  cases kind with
  | phi => rfl
  | function convention =>
      show (Convention.ofDatum? convention.toDatum).map ArgKind.function = _
      rw [Convention.ofDatum?_toDatum]
      rfl

theorem Origin.ofDatum?_toDatum {origin : Origin} (h : origin.inRange = true) :
    ofDatum? origin.toDatum = some origin := by
  cases origin with
  | result instr =>
      show (InstrId.ofDatum? instr.toDatum).map Origin.result = _
      rw [InstrId.ofDatum?_toDatum h]
      rfl
  | argument block index kind =>
      rw [inRange, Bool.and_eq_true, decide_eq_true_eq] at h
      simp [ofDatum?, toDatum, variant, variant?, named?, List.lookup_cons, BlockId.ofDatum?_toDatum h.1,
        nat?_nat h.2, ArgKind.ofDatum?_toDatum]

theorem Value.ofDatum?_toDatum {v : Value} (h : v.inRange = true) : ofDatum? v.toDatum = some v := by
  rw [inRange, Bool.and_eq_true] at h
  simp [ofDatum?, toDatum, fields?, named?, List.lookup_cons, TypeId.ofDatum?_toDatum h.1,
    Ownership.ofDatum?_toDatum, Origin.ofDatum?_toDatum h.2]

def Literal.inRange : Literal → Bool
  | .int value => inInt64 value
  | .bool _ | .str _ => true

def Operation.inRange : Operation → Bool
  | .literal type value => type.inRange && value.inRange
  | .builtin _ args result _ =>
      args.all ValueId.inRange && result.all fun produced => produced.1.inRange
  | .apply _ args type => args.all ValueId.inRange && type.inRange
  | .copy operand type | .beginBorrow operand type | .openExistential operand type
  | .foreignMethod operand _ type => operand.inRange && type.inRange
  | .destroy operand | .endBorrow operand | .deallocStack operand | .beginAccess operand
  | .endAccess operand | .endApply operand | .abortApply operand => operand.inRange
  | .allocStack type => type.inRange
  | .beginApply _ args => args.all ValueId.inRange

def Instr.inRange (i : Instr) : Bool :=
  i.op.inRange && i.block.inRange && i.result.all ValueId.inRange

theorem Literal.ofDatum?_toDatum {l : Literal} (h : l.inRange = true) :
    ofDatum? l.toDatum = some l := by
  cases l with
  | int value =>
      show (int64? (.int value)).map Literal.int = _
      rw [int64?_int h]
      rfl
  | bool value => rfl
  | str value => rfl

theorem option?_result {o : Option (TypeId × Ownership)}
    (h : (o.all fun produced => produced.1.inRange) = true) :
    option? result? (optionOf resultToDatum o) = some o := by
  have hnull : ∀ produced, resultToDatum produced ≠ .null := fun _ => nofun
  refine option?_optionOf (fun produced hproduced => ?_) hnull h
  simp [result?, resultToDatum, pair?, TypeId.ofDatum?_toDatum hproduced,
    Ownership.ofDatum?_toDatum]

theorem operand?_record {v : ValueId} (name : String) (h : v.inRange = true) :
    operand? name (.record [(name, v.toDatum)]) = some v := by
  simp [operand?, named?, List.lookup_cons, ValueId.ofDatum?_toDatum h]

theorem operandAndType?_record {v : ValueId} {t : TypeId} (hv : v.inRange = true)
    (ht : t.inRange = true) :
    operandAndType? (.record [("operand", v.toDatum), ("ty", t.toDatum)]) = some (v, t) := by
  simp [operandAndType?, named?, List.lookup_cons, ValueId.ofDatum?_toDatum hv, TypeId.ofDatum?_toDatum ht]

theorem Operation.ofDatum?_toDatum {op : Operation} (h : op.inRange = true) :
    ofDatum? op.toDatum = some op := by
  cases op with
  | literal type value =>
      rw [inRange, Bool.and_eq_true] at h
      simp [ofDatum?, toDatum, variant, variant?, named?, List.lookup_cons, TypeId.ofDatum?_toDatum h.1,
        Literal.ofDatum?_toDatum h.2]
  | builtin name args result sideEffects =>
      rw [inRange, Bool.and_eq_true] at h
      simp [ofDatum?, toDatum, variant, variant?, named?, List.lookup_cons, text?, bool?,
        values?_listOf h.1, option?_result h.2]
  | apply callee args type =>
      rw [inRange, Bool.and_eq_true] at h
      simp [ofDatum?, toDatum, variant, variant?, named?, List.lookup_cons, text?, values?_listOf h.1,
        TypeId.ofDatum?_toDatum h.2]
  | beginApply callee args =>
      simp [ofDatum?, toDatum, variant, variant?, named?, List.lookup_cons, text?, values?_listOf h]
  | allocStack type =>
      simp [ofDatum?, toDatum, variant, variant?, named?, List.lookup_cons, TypeId.ofDatum?_toDatum h]
  | foreignMethod operand member type =>
      rw [inRange, Bool.and_eq_true] at h
      simp [ofDatum?, toDatum, variant, variant?, named?, List.lookup_cons, text?,
        ValueId.ofDatum?_toDatum h.1, TypeId.ofDatum?_toDatum h.2]
  | copy operand type | beginBorrow operand type | openExistential operand type =>
      rw [inRange, Bool.and_eq_true] at h
      simp [ofDatum?, toDatum, variant, variant?, operandAndType?_record h.1 h.2]
  | destroy operand | endBorrow operand | deallocStack operand | beginAccess operand
  | endAccess operand | endApply operand | abortApply operand =>
      simp [ofDatum?, toDatum, variant, variant?, operand?_record _ h]

theorem Instr.ofDatum?_toDatum {i : Instr} (h : i.inRange = true) : ofDatum? i.toDatum = some i := by
  rw [inRange, Bool.and_eq_true, Bool.and_eq_true] at h
  simp [ofDatum?, toDatum, fields?, named?, List.lookup_cons, Operation.ofDatum?_toDatum h.1.1,
    BlockId.ofDatum?_toDatum h.1.2, option?_value h.2]

def intCaseInRange (c : Int × BlockId) : Bool := inInt64 c.1 && c.2.inRange

def tagCaseInRange (c : Nat × BlockId) : Bool := c.1 < slotLimit && c.2.inRange

def Terminator.inRange : Terminator → Bool
  | .br dest args => dest.inRange && args.all ValueId.inRange
  | .condBr cond trueDest trueArgs falseDest falseArgs =>
      cond.inRange && (trueDest.inRange && trueArgs.all ValueId.inRange) &&
        (falseDest.inRange && falseArgs.all ValueId.inRange)
  | .switchValue operand cases default =>
      operand.inRange && cases.all intCaseInRange && default.all BlockId.inRange
  | .switchEnum operand cases default =>
      operand.inRange && cases.all tagCaseInRange && default.all BlockId.inRange
  | .checkedCast operand target success failure =>
      operand.inRange && target.inRange && (success.inRange && failure.inRange)
  | .tryApply _ args normal error =>
      args.all ValueId.inRange && (normal.inRange && error.inRange)
  | .dynamicMethodBr operand _ hasMethod noMethod =>
      operand.inRange && (hasMethod.inRange && noMethod.inRange)
  | .yieldTo values resume cancel =>
      values.all ValueId.inRange && (resume.inRange && cancel.inRange)
  | .ret value | .throwing value => value.inRange
  | .unwind | .unreachable => true

theorem switch?_record {κ : Type} {label : Datum → Option κ} {case : κ × BlockId → Datum}
    {ok : κ × BlockId → Bool} {operand : ValueId} {cases : List (κ × BlockId)}
    {default : Option BlockId}
    (hcase : ∀ c, ok c = true → pair? label BlockId.ofDatum? (case c) = some c)
    (h : (operand.inRange && cases.all ok && default.all BlockId.inRange) = true) :
    switch? label (.record [("operand", operand.toDatum), ("cases", listOf case cases),
      ("default", optionOf BlockId.toDatum default)]) = some (operand, cases, default) := by
  rw [Bool.and_eq_true, Bool.and_eq_true] at h
  have hdefault : option? BlockId.ofDatum? (optionOf BlockId.toDatum default) = some default :=
    option?_optionOf (fun _ => BlockId.ofDatum?_toDatum) (fun _ => nofun) h.2
  simp [switch?, named?, List.lookup_cons, ValueId.ofDatum?_toDatum h.1.1, list?_listOf hcase h.1.2,
    hdefault]

theorem pair?_intCase {c : Int × BlockId} (h : intCaseInRange c = true) :
    pair? int64? BlockId.ofDatum? (intCaseToDatum c) = some c := by
  rw [intCaseInRange, Bool.and_eq_true] at h
  simp [intCaseToDatum, pair?, int64?_int h.1, BlockId.ofDatum?_toDatum h.2]

theorem pair?_tagCase {c : Nat × BlockId} (h : tagCaseInRange c = true) :
    pair? (nat? slotLimit) BlockId.ofDatum? (tagCaseToDatum c) = some c := by
  rw [tagCaseInRange, Bool.and_eq_true, decide_eq_true_eq] at h
  simp [tagCaseToDatum, pair?, nat?_nat h.1, BlockId.ofDatum?_toDatum h.2]

theorem Terminator.ofDatum?_toDatum {t : Terminator} (h : t.inRange = true) :
    ofDatum? t.toDatum = some t := by
  cases t with
  | br dest args =>
      rw [inRange, Bool.and_eq_true] at h
      simp [ofDatum?, toDatum, variant, variant?, named?, List.lookup_cons, BlockId.ofDatum?_toDatum h.1,
        values?_listOf h.2]
  | condBr cond trueDest trueArgs falseDest falseArgs =>
      simp only [inRange, Bool.and_eq_true] at h
      obtain ⟨⟨hcond, htrue⟩, hfalse⟩ := h
      simp [ofDatum?, toDatum, variant, variant?, named?, List.lookup_cons, ValueId.ofDatum?_toDatum hcond,
        BlockId.ofDatum?_toDatum htrue.1, values?_listOf htrue.2, BlockId.ofDatum?_toDatum hfalse.1,
        values?_listOf hfalse.2]
  | switchValue operand cases default =>
      have hswitch := switch?_record (fun _ => pair?_intCase) h
      simp [ofDatum?, toDatum, variant, variant?, hswitch]
  | switchEnum operand cases default =>
      have hswitch := switch?_record (fun _ => pair?_tagCase) h
      simp [ofDatum?, toDatum, variant, variant?, hswitch]
  | checkedCast operand target success failure =>
      simp only [inRange, Bool.and_eq_true] at h
      obtain ⟨⟨hoperand, htarget⟩, hsuccess, hfailure⟩ := h
      simp [ofDatum?, toDatum, variant, variant?, named?, List.lookup_cons,
        ValueId.ofDatum?_toDatum hoperand, TypeId.ofDatum?_toDatum htarget,
        BlockId.ofDatum?_toDatum hsuccess, BlockId.ofDatum?_toDatum hfailure]
  | tryApply callee args normal error =>
      simp only [inRange, Bool.and_eq_true] at h
      obtain ⟨hargs, hnormal, herror⟩ := h
      simp [ofDatum?, toDatum, variant, variant?, named?, List.lookup_cons, text?, values?_listOf hargs,
        BlockId.ofDatum?_toDatum hnormal, BlockId.ofDatum?_toDatum herror]
  | dynamicMethodBr operand member hasMethod noMethod =>
      simp only [inRange, Bool.and_eq_true] at h
      obtain ⟨hoperand, hhas, hno⟩ := h
      simp [ofDatum?, toDatum, variant, variant?, named?, List.lookup_cons, text?,
        ValueId.ofDatum?_toDatum hoperand, BlockId.ofDatum?_toDatum hhas, BlockId.ofDatum?_toDatum hno]
  | yieldTo values resume cancel =>
      simp only [inRange, Bool.and_eq_true] at h
      obtain ⟨hvalues, hresume, hcancel⟩ := h
      simp [ofDatum?, toDatum, variant, variant?, named?, List.lookup_cons, values?_listOf hvalues,
        BlockId.ofDatum?_toDatum hresume, BlockId.ofDatum?_toDatum hcancel]
  | ret value | throwing value => simp [ofDatum?, toDatum, variant, variant?, operand?_record _ h]
  | unwind | unreachable => rfl

theorem Terminator.toDatum_ne_null (t : Terminator) : t.toDatum ≠ .null := by
  cases t <;> nofun

def Edge.inRange (e : Edge) : Bool := e.block.inRange && e.index < edgeLimit

def Point.inRange : Point → Bool
  | .instr id => id.inRange
  | .terminator block => block.inRange

def Block.inRange (b : Block) : Bool :=
  b.args.all ValueId.inRange && b.instrs.all InstrId.inRange && b.terminator.all Terminator.inRange &&
    b.preds.all Edge.inRange

def UseIndex.inRange (u : UseIndex) : Bool := u.users.toList.all fun points => points.all Point.inRange

def Arena.inRange {α : Type} (item : α → Bool) (a : Arena α) : Bool :=
  a.slots.toList.all fun slot => slot.all item

/-- Whether all numbers of a body fit into the widths of the stored form. -/
def Body.inRange (f : Body) : Bool :=
  f.blocks.inRange Block.inRange && f.layout.all BlockId.inRange && f.instrs.inRange Instr.inRange &&
    f.values.inRange Value.inRange && f.useIndex.inRange

theorem Edge.ofDatum?_toDatum {e : Edge} (h : e.inRange = true) : ofDatum? e.toDatum = some e := by
  rw [inRange, Bool.and_eq_true, decide_eq_true_eq] at h
  simp [ofDatum?, toDatum, fields?, named?, List.lookup_cons, BlockId.ofDatum?_toDatum h.1, nat?_nat h.2]

theorem Point.ofDatum?_toDatum {p : Point} (h : p.inRange = true) : ofDatum? p.toDatum = some p := by
  cases p with
  | instr id =>
      show (InstrId.ofDatum? id.toDatum).map Point.instr = _
      rw [InstrId.ofDatum?_toDatum h]
      rfl
  | terminator block =>
      show (BlockId.ofDatum? block.toDatum).map Point.terminator = _
      rw [BlockId.ofDatum?_toDatum h]
      rfl

theorem Block.ofDatum?_toDatum {b : Block} (h : b.inRange = true) : ofDatum? b.toDatum = some b := by
  simp only [inRange, Bool.and_eq_true] at h
  obtain ⟨⟨⟨hargs, hinstrs⟩, hterminator⟩, hpreds⟩ := h
  have hterminator := option?_optionOf (fun _ => Terminator.ofDatum?_toDatum)
    Terminator.toDatum_ne_null hterminator
  have hinstrs := list?_listOf (fun _ => InstrId.ofDatum?_toDatum) hinstrs
  have hpreds := list?_listOf (fun _ => Edge.ofDatum?_toDatum) hpreds
  simp [ofDatum?, toDatum, fields?, named?, List.lookup_cons, values?_listOf hargs, hinstrs, hterminator,
    hpreds]

theorem UseIndex.ofDatum?_toDatum {u : UseIndex} (h : u.inRange = true) :
    ofDatum? u.toDatum = some u := by
  have husers := list?_listOf
    (fun _ hpoints => list?_listOf (fun _ => Point.ofDatum?_toDatum) hpoints) h
  simp [ofDatum?, toDatum, fields?, named?, List.lookup_cons, husers]

theorem Arena.ofDatum?_toDatum {α : Type} {read : Datum → Option α} {write : α → Datum} {ok : α → Bool}
    (hread : ∀ x, ok x = true → read (write x) = some x) (hnull : ∀ x, write x ≠ .null)
    {a : Arena α} (h : a.inRange ok = true) : ofDatum? read (a.toDatum write) = some a := by
  have hslots := list?_listOf (fun _ => option?_optionOf hread hnull) h
  simp [ofDatum?, toDatum, hslots]

/-- What is read back is the body itself, but for its identity. -/
theorem Body.ofDatum?_toDatum {f : Body} (id : BodyId) (h : f.inRange = true) :
    ofDatum? id f.toDatum = some { f with id } := by
  simp only [inRange, Bool.and_eq_true] at h
  obtain ⟨⟨⟨⟨hblocks, hlayout⟩, hinstrs⟩, hvalues⟩, huses⟩ := h
  have hblocks := Arena.ofDatum?_toDatum (fun _ => Block.ofDatum?_toDatum) (fun _ => nofun) hblocks
  have hlayout := list?_listOf (fun _ => BlockId.ofDatum?_toDatum) hlayout
  have hinstrs := Arena.ofDatum?_toDatum (fun _ => Instr.ofDatum?_toDatum) (fun _ => nofun) hinstrs
  have hvalues := Arena.ofDatum?_toDatum (fun _ => Value.ofDatum?_toDatum) (fun _ => nofun) hvalues
  simp [ofDatum?, toDatum, fields?, named?, List.lookup_cons, text?, hblocks, hlayout, hinstrs, hvalues,
    UseIndex.ofDatum?_toDatum huses]

theorem UseIndex.inRange_sorted (u : UseIndex) : u.sorted.inRange = u.inRange := by
  have hsort : ∀ points, (sortPoints points).all Point.inRange = points.all Point.inRange :=
    fun points => (List.mergeSort_perm points Point.le).all_eq
  rw [inRange, sorted, Array.toList_map, List.all_map, inRange]
  congr 1
  funext points
  exact hsort points

theorem Body.inRange_sortUses (f : Body) : f.sortUses.inRange = f.inRange := by
  rw [inRange, sortUses, UseIndex.inRange_sorted]
  rfl

/-- The program has given out the identity. -/
def Program.HasIssued (p : Program) (id : BodyId) : Prop := id.serial < p.issued

/-- A body is read back from its stored form as a similar body with an identity of its own, and the
stored form of that is the same again. So it is if the use lists are sorted before they are written.
The program that takes the new body in has given out its identity as well. -/
theorem Program.readBack_exact (p : Program) (f : Body) (hissued : p.HasIssued f.id)
    (hrange : f.inRange = true) :
    ∃ g, Body.ofDatum? p.nextId f.toDatum = some g ∧
      Body.ofDatum? p.nextId f.sortUses.toDatum = some g.sortUses ∧
      f.similar g = true ∧ f.similar g.sortUses = true ∧ g.id ≠ f.id ∧
      g.toDatum = f.toDatum ∧ g.sortUses.toDatum = f.sortUses.toDatum ∧
      (p.add g).2.body? (p.add g).1 = some g ∧ (p.add g).2.HasIssued g.id := by
  have hsorted : f.sortUses.inRange = true := f.inRange_sortUses.trans hrange
  have halike : f.Alike { f with id := p.nextId } := .of rfl (.refl _)
  refine ⟨{ f with id := p.nextId }, Body.ofDatum?_toDatum _ hrange, Body.ofDatum?_toDatum _ hsorted,
    halike, halike.trans (.sortUses _), ?_, rfl, rfl, ?_, Nat.lt_succ_self p.issued⟩
  · intro hid
    have hserial : p.issued = f.id.serial := congrArg BodyId.serial hid
    rw [HasIssued] at hissued
    omega
  · exact List.getElem?_concat_length

/-- Empty slots, parts that do not exist, the ends of all ranges, and forms that are seldom used. -/
def motleyBody : Body where
  id := ⟨7⟩
  name := "na\u00efve \"f\"\n"
  blocks := ⟨#[
    some {
      args := [⟨4294967295⟩], instrs := [⟨1⟩, ⟨9⟩], preds := [⟨⟨0⟩, 18446744073709551615⟩]
      terminator := some (.switchValue ⟨0⟩
        [(-9223372036854775808, ⟨1⟩), (9223372036854775807, ⟨0⟩)] none) },
    none,
    some {},
    some { terminator := some (.switchEnum ⟨1⟩ [(4294967295, ⟨2⟩)] (some ⟨0⟩)) },
    some { terminator := some (.yieldTo [⟨0⟩, ⟨0⟩] ⟨1⟩ ⟨2⟩) },
    some { terminator := some (.tryApply "" [] ⟨1⟩ ⟨1⟩) },
    some { terminator := some .unwind }]⟩
  layout := [⟨3⟩, ⟨0⟩, ⟨0⟩]
  instrs := ⟨#[
    none,
    some ⟨.literal .int (.int (-1)), ⟨0⟩, none⟩,
    some ⟨.builtin "" [] none true, ⟨1⟩, some ⟨0⟩⟩,
    some ⟨.builtin "null" [⟨0⟩] (some (.bool, .unowned)) false, ⟨1⟩, none⟩,
    some ⟨.foreignMethod ⟨3⟩ "m" .address, ⟨8⟩, some ⟨4294967295⟩⟩,
    some ⟨.abortApply ⟨2⟩, ⟨0⟩, none⟩]⟩
  values := ⟨#[
    some ⟨⟨4294967295⟩, .none, .argument ⟨0⟩ 4294967295 (.function .inoutAliasable)⟩,
    none,
    some ⟨.token, .guaranteed, .result ⟨5⟩⟩]⟩
  useIndex := ⟨#[[.terminator ⟨4⟩, .instr ⟨3⟩, .terminator ⟨0⟩], [], [.instr ⟨5⟩]]⟩

theorem motleyBody_readBack_exact :
    motleyBody.inRange = true ∧ ∃ g, Body.ofDatum? ⟨8⟩ motleyBody.toDatum = some g ∧
      motleyBody.similar g = true ∧ g.id ≠ motleyBody.id ∧
      g.sortUses.toDatum = motleyBody.sortUses.toDatum := by
  have hrange : motleyBody.inRange = true := by decide +kernel
  obtain ⟨g, hread, -, hsimilar, -, hid, -, hsorted, -⟩ :=
    Program.readBack_exact ⟨[], 8⟩ motleyBody (Nat.lt_succ_self 7) hrange
  exact ⟨hrange, g, hread, hsimilar, hid, hsorted⟩

end FlowGraph
