import Mathlib.Data.List.Permutation
import FlowGraph.Proofs.Consistency.Erase
import FlowGraph.Proofs.Listing

/-!
Bodies with a history. A well-built body comes from a body without blocks by a finite sequence of
edits, none of which faulted, and each of which wrote operands that were allocated at the time. Every
part of the structural invariant holds of it, whatever the sequence was.
-/

namespace FlowGraph

/-- The edits that a body offers. -/
inductive Edit where
  | createBlock
  | createBlockAfter (sibling : BlockId)
  | createBlockBefore (sibling : BlockId)
  | addPhi (b : BlockId) (type : TypeId) (ownership : Ownership)
  | addFunctionArg (b : BlockId) (type : TypeId) (convention : Convention)
  | eraseArg (b : BlockId) (index : Nat)
  | appendInstr (b : BlockId) (op : Operation)
  | insertInstr (b : BlockId) (position : Nat) (op : Operation)
  | eraseInstr (i : InstrId)
  | setTerminator (b : BlockId) (t : Terminator)
  | setSuccessor (b : BlockId) (e : Nat) (dest : BlockId)
  | setEdgeArgs (b : BlockId) (e : Nat) (args : List ValueId)
  | replaceAllUses (old new : ValueId)
  | setOwnership (v : ValueId) (ownership : Ownership)
  | splitBlock (b : BlockId) (position : Nat)
  | mergeWithSuccessor (b : BlockId)
  | eraseBlock (b : BlockId)
  deriving DecidableEq, Repr

namespace Edit

/-- The body after an edit. A merge that is refused changes nothing. -/
def apply (f : Body) : Edit → Except Fault Body
  | createBlock => return (← f.createBlock).2
  | createBlockAfter sibling => return (← f.createBlockAfter sibling).2
  | createBlockBefore sibling => return (← f.createBlockBefore sibling).2
  | addPhi b type ownership => return (← f.addPhi b type ownership).2
  | addFunctionArg b type convention => return (← f.addFunctionArg b type convention).2
  | eraseArg b index => f.eraseArg b index
  | appendInstr b op => return (← f.appendInstr b op).2
  | insertInstr b position op => return (← f.insertInstr b position op).2
  | eraseInstr i => f.eraseInstr i
  | setTerminator b t => return (← f.setTerminator b t).2
  | setSuccessor b e dest => f.setSuccessor b e dest
  | setEdgeArgs b e args => return (← f.setEdgeArgs b e args).2
  | replaceAllUses old new => return f.replaceAllUses old new
  | setOwnership v ownership => f.setOwnership v ownership
  | splitBlock b position => return (← f.splitBlock b position).2
  | mergeWithSuccessor b => do
    match ← f.mergeWithSuccessor b with
    | .ok (_, g) => return g
    | .error _ => return f
  | eraseBlock b => f.eraseBlock b

/-- Every operand that the edit writes names a value slot that is allocated by then. An instruction
may read its own result. -/
def Allocated (f : Body) : Edit → Prop
  | appendInstr _ op =>
    ∀ v ∈ op.operands, v.index < f.values.size + if op.resultType?.isSome = true then 1 else 0
  | insertInstr _ _ op =>
    ∀ v ∈ op.operands, v.index < f.values.size + if op.resultType?.isSome = true then 1 else 0
  | setTerminator _ t => ∀ v ∈ t.operands, v.index < f.values.size
  | setEdgeArgs b e args =>
    ((f.terminator? b).bind (·.explicitArgs? e)).isSome = true → ∀ v ∈ args, v.index < f.values.size
  | replaceAllUses old new => f.hasUses old = true → new.index < f.values.size
  | _ => True

instance (f : Body) : (edit : Edit) → Decidable (edit.Allocated f)
  | appendInstr _ op => inferInstanceAs (Decidable (∀ v ∈ op.operands, _))
  | insertInstr _ _ op => inferInstanceAs (Decidable (∀ v ∈ op.operands, _))
  | setTerminator _ t => inferInstanceAs (Decidable (∀ v ∈ t.operands, _))
  | setEdgeArgs _ _ args => inferInstanceAs (Decidable (_ = true → ∀ v ∈ args, _))
  | replaceAllUses _ _ => inferInstanceAs (Decidable (_ = true → _))
  | createBlock => .isTrue trivial
  | createBlockAfter _ => .isTrue trivial
  | createBlockBefore _ => .isTrue trivial
  | addPhi _ _ _ => .isTrue trivial
  | addFunctionArg _ _ _ => .isTrue trivial
  | eraseArg _ _ => .isTrue trivial
  | eraseInstr _ => .isTrue trivial
  | setSuccessor _ _ _ => .isTrue trivial
  | setOwnership _ _ => .isTrue trivial
  | splitBlock _ _ => .isTrue trivial
  | mergeWithSuccessor _ => .isTrue trivial
  | eraseBlock _ => .isTrue trivial

/-- The body after a sequence of edits, if none of them faults or writes what is not allocated. -/
def replay (f : Body) : List Edit → Option Body
  | [] => some f
  | edit :: rest =>
    if edit.Allocated f then
      match edit.apply f with
      | .ok g => replay g rest
      | .error _ => none
    else none

end Edit

/-- The body has a history of edits from a body without blocks. -/
inductive WellBuilt : Body → Prop
  | empty (id : BodyId) (name : String) : WellBuilt (Body.empty id name)
  | edit {f g : Body} (edit : Edit) (hf : WellBuilt f) (halloc : edit.Allocated f)
      (happly : edit.apply f = .ok g) : WellBuilt g

theorem WellBuilt.replay {f g : Body} {edits : List Edit} (hf : WellBuilt f)
    (h : Edit.replay f edits = some g) : WellBuilt g := by
  induction edits generalizing f with
  | nil =>
      cases h
      exact hf
  | cons edit rest ih =>
      rw [Edit.replay] at h
      split at h
      · rename_i halloc
        split at h
        · rename_i body happly
          exact ih (hf.edit edit halloc happly) h
        · cases h
      · cases h

namespace Body

theorem consistent_empty (id : BodyId) (name : String) : (empty id name).Consistent := by
  have hblock : ∀ b, (empty id name).block? b = none := fun b => by
    simp [block?, empty, Arena.get?]
  have hinstr : ∀ i, (empty id name).instr? i = none := fun i => by
    simp [instr?, empty, Arena.get?]
  have hvalue : ∀ v, (empty id name).value? v = none := fun v => by
    simp [value?, empty, Arena.get?]
  have hoperands : ∀ point, (empty id name).operandsAt? point = [] := by
    rintro (i | b)
    · simp [operandsAt?, hinstr]
    · simp [operandsAt?, hblock]
  refine ⟨⟨List.nodup_nil, fun b => ?_⟩, ⟨fun hb => ?_, fun he => ?_⟩,
    ⟨fun hb => ?_, fun hi => ?_⟩, ⟨fun hb => ?_, fun hv => ?_⟩,
    fun i v => ?_, ⟨rfl, fun hv => ?_, fun v point => ?_⟩⟩
  · rw [isLiveBlock, hblock]
    simp [empty]
  · simp [preds?, hblock] at hb
  · simp [target?, terminator?, hblock] at he
  · simp [instrs?, hblock] at hb
  · simp [holder?, hinstr] at hi
  · simp [args?, hblock] at hb
  · simp [origin?, hvalue] at hv
  · simp [result?, hinstr, origin?, hvalue]
  · simp [hoperands] at hv
  · rw [hoperands]
    simp [usersOf, UseIndex.usersOf, empty]

theorem Consistent.apply {f g : Body} {edit : Edit} (h : f.Consistent) (halloc : edit.Allocated f)
    (happly : edit.apply f = .ok g) : g.Consistent := by
  cases edit <;> simp only [Edit.apply, bind_eq_ok, pure_eq_ok, Prod.exists, exists_eq_right] at happly
  case createBlock =>
    obtain ⟨b, hcreate⟩ := happly
    exact h.createBlock hcreate
  case createBlockAfter sibling =>
    obtain ⟨b, hcreate⟩ := happly
    exact h.createBlockAfter hcreate
  case createBlockBefore sibling =>
    obtain ⟨b, hcreate⟩ := happly
    exact h.createBlockBefore hcreate
  case addPhi b type ownership =>
    obtain ⟨v, hadd⟩ := happly
    exact h.addArg hadd
  case addFunctionArg b type convention =>
    obtain ⟨v, hadd⟩ := happly
    exact h.addArg hadd
  case eraseArg b index => exact h.eraseArg happly
  case appendInstr b op =>
    obtain ⟨i, happend⟩ := happly
    exact h.appendInstr (by rwa [size_values_withResult]) happend
  case insertInstr b position op =>
    obtain ⟨i, hinsert⟩ := happly
    exact h.insertInstr (by rwa [size_values_withResult]) hinsert
  case eraseInstr i => exact h.eraseInstr happly
  case setTerminator b t =>
    obtain ⟨old, hset⟩ := happly
    exact h.setTerminator halloc hset
  case setSuccessor b e dest => exact h.setSuccessor happly
  case setEdgeArgs b e args =>
    obtain ⟨old, hset⟩ := happly
    exact h.setEdgeArgs halloc hset
  case replaceAllUses old new =>
    subst happly
    exact h.replaceAllUses halloc
  case setOwnership v ownership => exact h.setOwnership happly
  case splitBlock b position =>
    obtain ⟨tail, hsplit⟩ := happly
    exact h.splitBlock hsplit
  case mergeWithSuccessor b =>
    obtain ⟨merged, hmerge, hrest⟩ := happly
    rcases merged with refusal | ⟨succ, body⟩
    · cases hrest
      exact h
    · cases hrest
      exact h.mergeWithSuccessor hmerge
  case eraseBlock b => exact h.eraseBlock happly

end Body

/-- Every edit of a history keeps the structural invariant. -/
theorem WellBuilt.consistent {f : Body} (h : WellBuilt f) : f.Consistent := by
  induction h with
  | empty id name => exact Body.consistent_empty id name
  | edit edit hf halloc happly ih => exact ih.apply halloc happly

/-- The body that a sequence of edits leads to; without blocks if the sequence cannot be run. -/
def replayed (edits : List Edit) : Body :=
  (Edit.replay (.empty ⟨0⟩ "sample") edits).getD (.empty ⟨0⟩ "sample")

theorem wellBuilt_replayed (edits : List Edit) : WellBuilt (replayed edits) := by
  unfold replayed
  rcases h : Edit.replay (.empty ⟨0⟩ "sample") edits with _ | f
  · exact .empty _ _
  · exact (WellBuilt.empty _ _).replay h

/-- A loop: the entry branches to a block that reads its own argument twice and either branches back
to itself or leaves. -/
def loopHistory : List Edit :=
  [.createBlock, .createBlock, .createBlockAfter ⟨0⟩,
    .addFunctionArg ⟨0⟩ .int .guaranteed, .addPhi ⟨1⟩ .int .none,
    .appendInstr ⟨1⟩ (.builtin "add" [⟨1⟩, ⟨1⟩] (some (.int, .none)) false),
    .setTerminator ⟨0⟩ (.br ⟨1⟩ [⟨0⟩]),
    .setTerminator ⟨1⟩ (.condBr ⟨2⟩ ⟨1⟩ [⟨2⟩] ⟨2⟩ []),
    .setTerminator ⟨2⟩ (.ret ⟨0⟩)]

/-- The lists of a well-built body are exact: the layout lists the live blocks, each block lists its
instructions, its arguments and the edges that lead to it, and each value lists its readers. -/
theorem WellBuilt.lists_exact {f : Body} (h : WellBuilt f) :
    (f.layout.Nodup ∧ ∀ b, b ∈ f.layout ↔ f.isLiveBlock b = true) ∧
    (∀ b data, f.block? b = some data →
      (∀ s ∈ data.successors, f.isLiveBlock s = true) ∧
        data.preds.Perm (Body.partners b f.edgeTargets)) ∧
    (∀ i instr, f.instr? i = some instr →
      ∃ data, f.block? instr.block = some data ∧ data.instrs.count i = 1) ∧
    (∀ b data, f.block? b = some data →
      ∀ i ∈ data.instrs, ∃ instr, f.instr? i = some instr ∧ instr.block = b) ∧
    (∀ b data, f.block? b = some data → ∀ index v, data.args[index]? = some v ↔
      ∃ value kind, f.value? v = some value ∧ value.origin = .argument b index kind) ∧
    (∀ v value b index kind, f.value? v = some value → value.origin = .argument b index kind →
      f.isLiveBlock b = true) ∧
    (∀ i v, (∃ instr, f.instr? i = some instr ∧ instr.result = some v) ↔
      ∃ value, f.value? v = some value ∧ value.origin = .result i) ∧
    ∀ v, (f.usersOf v).Perm (Body.partners v f.operandReads) := by
  have hf := h.consistent
  refine ⟨⟨hf.layout.nodup, hf.layout.mem_iff⟩, fun b data hb => ⟨fun s hs => ?_, ?_⟩,
    fun i instr hi => ?_, fun b data hb i hi => ?_, fun b data hb index v => ?_,
    fun v value b index kind hv hkind => ?_, fun i v => ?_, fun v => ?_⟩
  · rw [Block.successors] at hs
    split at hs
    · rename_i t ht
      exact hf.edges.live_of_mem ((Body.terminator?_of hb).trans ht) hs
    · cases hs
  · exact hf.edges.perm_preds hf.layout hb
  · have hholder : f.holder? i = some instr.block := Body.holder?_eq_some.mpr ⟨instr, hi, rfl⟩
    obtain ⟨data, hdata⟩ := Body.isLiveBlock_iff.mp (hf.instrs.live_holder hholder)
    refine ⟨data, hdata, ?_⟩
    rw [hf.instrs.count_instrs (Body.instrs?_of hdata), if_pos hholder]
  · exact Body.holder?_eq_some.mp ((hf.instrs.mem_instrs (Body.instrs?_of hb)).mp hi)
  · rw [hf.args.getElem?_args (Body.args?_of hb), exists_comm]
    exact exists_congr fun kind => Body.origin?_eq_some
  · exact hf.args.live_block (Body.origin?_eq_some.mpr ⟨value, hv, hkind⟩)
  · exact Body.result?_eq_some.symm.trans ((hf.results i v).trans Body.origin?_eq_some)
  · exact hf.uses.perm_users hf.layout hf.instrs v

/-- The loop after more edits: its block is cut and joined again, the sum is read in place of the
argument, the edge back passes too much, and a block with two edges to itself has come and gone. -/
def reworkedLoop : Body :=
  replayed (loopHistory ++
    [.splitBlock ⟨1⟩ 1, .replaceAllUses ⟨1⟩ ⟨2⟩, .setSuccessor ⟨3⟩ 0 ⟨1⟩, .mergeWithSuccessor ⟨1⟩,
      .setEdgeArgs ⟨1⟩ 0 [⟨0⟩, ⟨0⟩], .createBlock,
      .setTerminator ⟨4⟩ (.condBr ⟨2⟩ ⟨4⟩ [⟨2⟩] ⟨4⟩ []), .eraseBlock ⟨4⟩])

theorem reworkedLoop_lists_exact :
    WellBuilt reworkedLoop ∧ reworkedLoop.layout = [⟨0⟩, ⟨2⟩, ⟨1⟩] ∧
      ∀ v, (reworkedLoop.usersOf v).Perm (Body.partners v reworkedLoop.operandReads) := by
  have hbuilt : WellBuilt reworkedLoop := wellBuilt_replayed _
  obtain ⟨-, -, -, -, -, -, -, husers⟩ := WellBuilt.lists_exact hbuilt
  exact ⟨hbuilt, by cbv, husers⟩

end FlowGraph
