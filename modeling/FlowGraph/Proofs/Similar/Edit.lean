import FlowGraph.Body.Splice
import FlowGraph.Proofs.Similar.Basic

namespace FlowGraph.Body

variable {f g : Body}

namespace Alike

theorem allocBlock (h : f.Alike g) : Agree (Paired Alike) f.allocBlock g.allocBlock := by
  refine .bind_eq (h.read fun f => IdSpace.block.checked f.blocks.size) fun index => .result ⟨rfl, ?_⟩
  exact .of (h.read fun f => { f with blocks := f.blocks.alloc {} }) h.uses

theorem relayout (h : f.Alike g) (change : List BlockId → List BlockId) :
    Alike { f with layout := change f.layout } { g with layout := change g.layout } :=
  .of (h.read fun f => { f with layout := change f.layout }) h.uses

theorem layoutPosition (h : f.Alike g) (b : BlockId) : f.layoutPosition b = g.layoutPosition b :=
  h.read fun f => f.layoutPosition b

theorem createBlock (h : f.Alike g) : Agree (Paired Alike) f.createBlock g.createBlock := by
  refine h.allocBlock.bind_paired fun b f g h => ?_
  exact .result ⟨rfl, h.relayout (· ++ [b])⟩

theorem createBlockAfter (h : f.Alike g) (sibling : BlockId) :
    Agree (Paired Alike) (f.createBlockAfter sibling) (g.createBlockAfter sibling) := by
  refine .bind_eq (h.layoutPosition sibling) fun position => ?_
  refine h.allocBlock.bind_paired fun b f g h => ?_
  exact .result ⟨rfl, h.relayout (·.insertIdx (position + 1) b)⟩

theorem createBlockBefore (h : f.Alike g) (sibling : BlockId) :
    Agree (Paired Alike) (f.createBlockBefore sibling) (g.createBlockBefore sibling) := by
  refine .bind_eq (h.layoutPosition sibling) fun position => ?_
  refine h.allocBlock.bind_paired fun b f g h => ?_
  exact .result ⟨rfl, h.relayout (·.insertIdx position b)⟩

theorem dropBlock (h : f.Alike g) (b : BlockId) : (f.dropBlock b).Alike (g.dropBlock b) :=
  .of (h.read fun f => f.dropBlock b) h.uses

theorem allocValue (h : f.Alike g) (value : Value) :
    Agree (Paired Alike) (f.allocValue value) (g.allocValue value) := by
  refine .bind_eq (h.read fun f => IdSpace.value.checked f.values.size) fun index => .result ⟨rfl, ?_⟩
  exact .of (h.read fun f => { f with values := f.values.alloc value }) h.uses.addValue

theorem eraseValue (h : f.Alike g) (v : ValueId) :
    Agree Alike (f.eraseValue v) (g.eraseValue v) := by
  have hsize : f.values.size = g.values.size := h.read fun f => f.values.size
  rw [Body.eraseValue, Body.eraseValue, hsize]
  refine .ite (.result ?_) (.fault _)
  exact .of (h.read fun f => { f with values := f.values.erase v.index }) h.uses

theorem setOwnership (h : f.Alike g) (v : ValueId) (ownership : Ownership) :
    Agree Alike (f.setOwnership v ownership) (g.setOwnership v ownership) :=
  .bind_eq (h.value v) fun _ => .result (h.modifyValue v _)

theorem addArg (h : f.Alike g) (b : BlockId) (type : TypeId) (ownership : Ownership) (kind : ArgKind) :
    Agree (Paired Alike) (f.addArg b type ownership kind) (g.addArg b type ownership kind) := by
  refine .bind_eq (h.block b) fun data => .guard ?_
  refine (h.allocValue _).bind_paired fun v f g h => ?_
  exact .result ⟨rfl, h.modifyBlock b _⟩

theorem renumberArgs (h : f.Alike g) (b : BlockId) (start : Nat) (args : List ValueId) :
    Agree Alike (f.renumberArgs b start args) (g.renumberArgs b start args) := by
  induction args generalizing f g start with
  | nil => exact .result h
  | cons v rest ih => exact .bind_eq (h.value v) fun _ => ih (h.modifyValue v _) (start + 1)

theorem eraseArg (h : f.Alike g) (b : BlockId) (index : Nat) :
    Agree Alike (f.eraseArg b index) (g.eraseArg b index) := by
  refine .bind_eq (h.read fun f => f.arg b index) fun v => ?_
  rw [h.hasUses v]
  refine .guard (((h.modifyBlock b _).eraseValue v).bind fun f g h => ?_)
  exact .bind_eq (h.block b) fun data => h.renumberArgs b index _

theorem allocInstr (h : f.Alike g) (data : Instr) :
    Alike { f with instrs := f.instrs.alloc data } { g with instrs := g.instrs.alloc data } :=
  .of (h.read fun f => { f with instrs := f.instrs.alloc data }) h.uses

theorem dropInstr (h : f.Alike g) (i : InstrId) :
    Alike { f with instrs := f.instrs.erase i.index } { g with instrs := g.instrs.erase i.index } :=
  .of (h.read fun f => { f with instrs := f.instrs.erase i.index }) h.uses

theorem insertInstr (h : f.Alike g) (b : BlockId) (position : Nat) (op : Operation) :
    Agree (Paired Alike) (f.insertInstr b position op) (g.insertInstr b position op) := by
  refine .bind_eq (h.read fun f => IdSpace.instr.checked f.instrs.size) fun index => ?_
  rcases op.resultType? with _ | ⟨type, ownership⟩
  · refine .pure_bind (.bind_eq (h.block b) fun data => .guard (.result ⟨rfl, ?_⟩))
    exact ((h.allocInstr _).link _ _).modifyBlock b _
  · refine (h.allocValue _).bind_paired fun v f g h => ?_
    refine .pure_bind (.bind_eq (h.block b) fun data => .guard (.result ⟨rfl, ?_⟩))
    exact ((h.allocInstr _).link _ _).modifyBlock b _

theorem appendInstr (h : f.Alike g) (b : BlockId) (op : Operation) :
    Agree (Paired Alike) (f.appendInstr b op) (g.appendInstr b op) :=
  .bind_eq (h.block b) fun _ => h.insertInstr b _ op

theorem eraseInstr (h : f.Alike g) (i : InstrId) : Agree Alike (f.eraseInstr i) (g.eraseInstr i) := by
  refine .bind_eq (h.instr i) fun data => ?_
  have hunlinked := h.unlink (.instr i) data.op.operands
  rcases data.result with _ | v
  · refine .pure_bind (.bind_eq (hunlinked.block _) fun _ => .result ?_)
    exact (hunlinked.modifyBlock _ _).dropInstr i
  · dsimp only
    rw [hunlinked.hasUses v]
    refine .guard ((hunlinked.eraseValue v).bind fun f g h => ?_)
    exact .bind_eq (h.block _) fun _ => .result ((h.modifyBlock _ _).dropInstr i)

theorem unlistEdges (h : f.Alike g) (b : BlockId) (targets : List BlockId) :
    (f.unlistEdges b targets).Alike (g.unlistEdges b targets) := by
  induction targets generalizing f g with
  | nil => exact h
  | cons s rest ih => exact ih (h.modifyBlock s _)

theorem listEdges (h : f.Alike g) (b : BlockId) (e : Nat) (targets : List BlockId) :
    (f.listEdges b e targets).Alike (g.listEdges b e targets) := by
  induction targets generalizing f g e with
  | nil => exact h
  | cons s rest ih => exact ih (h.modifyBlock s _) (e + 1)

theorem takeTerminator (h : f.Alike g) (b : BlockId) :
    Agree (Paired Alike) (f.takeTerminator b) (g.takeTerminator b) := by
  refine .bind_eq (h.block b) fun data => ?_
  rcases data.terminator with _ | t
  · exact .result ⟨rfl, h⟩
  · exact .result ⟨rfl, ((h.modifyBlock b _).unlink _ _).unlistEdges b _⟩

theorem setTerminator (h : f.Alike g) (b : BlockId) (t : Terminator) :
    Agree (Paired Alike) (f.setTerminator b t) (g.setTerminator b t) := by
  refine (h.takeTerminator b).bind_paired fun old f g h => ?_
  refine .bind_eq (h.read fun f => t.successors.forM fun s => do let _ ← f.block s) fun _ => ?_
  exact .result ⟨rfl, ((h.listEdges b 0 _).link _ _).modifyBlock b _⟩

theorem setSuccessor (h : f.Alike g) (b : BlockId) (e : Nat) (dest : BlockId) :
    Agree Alike (f.setSuccessor b e dest) (g.setSuccessor b e dest) := by
  refine .bind_eq (h.terminator b) fun t => .bind_eq rfl fun old => .ite (.result h) ?_
  refine .bind_eq (h.block old) fun _ => ?_
  have hunlisted := h.modifyBlock old fun data => { data with preds := data.preds.filter (· ≠ ⟨b, e⟩) }
  refine .bind_eq (hunlisted.block dest) fun _ => .bind_eq rfl fun t => .result ?_
  exact (hunlisted.modifyBlock dest _).modifyBlock b _

theorem setEdgeArgs (h : f.Alike g) (b : BlockId) (e : Nat) (args : List ValueId) :
    Agree (Paired Alike) (f.setEdgeArgs b e args) (g.setEdgeArgs b e args) := by
  refine .bind_eq (h.block b) fun data => ?_
  rcases data.terminator with _ | t
  · exact .result ⟨rfl, h⟩
  · dsimp only
    rcases t.explicitArgs? e with _ | old
    · exact .result ⟨rfl, h⟩
    · exact .result ⟨rfl, ((h.modifyBlock b _).unlink _ _).link _ _⟩

theorem mapOperandsAt (h : f.Alike g) (change : ValueId → ValueId) (point : Point) :
    (f.mapOperandsAt change point).Alike (g.mapOperandsAt change point) := by
  rcases point with i | b
  · exact h.modifyInstr i _
  · exact h.modifyBlock b _

theorem substituteAt (h : f.Alike g) (old new : ValueId) (point : Point) :
    (f.substituteAt old new point).Alike (g.substituteAt old new point) := by
  rw [Body.substituteAt, Body.substituteAt, h.operandsAt? point]
  exact (h.mapOperandsAt _ point).link point _

theorem substituteEach (h : f.Alike g) (old new : ValueId) (points : List Point) :
    (points.foldl (fun f point => f.substituteAt old new point) f).Alike
      (points.foldl (fun g point => g.substituteAt old new point) g) := by
  induction points generalizing f g with
  | nil => exact h
  | cons point rest ih => exact ih (h.substituteAt old new point)

/-- The readers are visited in increasing order, whatever order they are listed in. -/
theorem replaceAllUses (h : f.Alike g) (old new : ValueId) :
    (f.replaceAllUses old new).Alike (g.replaceAllUses old new) := by
  have hclear : Alike { f with useIndex := f.useIndex.clear old }
      { g with useIndex := g.useIndex.clear old } := .of h.bare (h.uses.clear old)
  rw [Body.replaceAllUses, Body.replaceAllUses, h.readersOf old]
  split
  · exact h
  · exact hclear.substituteEach old new _

theorem moveInstrs (h : f.Alike g) (b : BlockId) (instrs : List InstrId) :
    Agree Alike (f.moveInstrs b instrs) (g.moveInstrs b instrs) := by
  induction instrs generalizing f g with
  | nil => exact .result h
  | cons i rest ih => exact .bind_eq (h.instr i) fun _ => ih (h.modifyInstr i _)

theorem moveTerminator (h : f.Alike g) (source target : BlockId) :
    Agree Alike (f.moveTerminator source target) (g.moveTerminator source target) := by
  refine (h.takeTerminator source).bind ?_
  rintro ⟨_ | t, f⟩ ⟨_, g⟩ ⟨rfl, h⟩
  · exact .result h
  · exact (h.setTerminator target t).bind fun _ _ h => .result h.2

theorem splitBlock (h : f.Alike g) (b : BlockId) (position : Nat) :
    Agree (Paired Alike) (f.splitBlock b position) (g.splitBlock b position) := by
  refine .bind_eq (h.block b) fun data => .guard ?_
  refine (h.createBlockAfter b).bind_paired fun tail f g h => ?_
  refine ((h.modifyBlock b _).moveInstrs tail _).bind fun f g h => ?_
  refine ((h.modifyBlock tail _).moveTerminator b tail).bind fun f g h => ?_
  refine (h.setTerminator b _).bind_paired fun old f g h => ?_
  exact .result ⟨rfl, h⟩

theorem mergeTarget (h : f.Alike g) (b : BlockId) : f.mergeTarget b = g.mergeTarget b :=
  h.read fun f => f.mergeTarget b

theorem bindArgs (h : f.Alike g) (args operands : List ValueId) :
    Agree Alike (f.bindArgs args operands) (g.bindArgs args operands) := by
  induction args generalizing f g operands with
  | nil => exact .result h
  | cons arg args ih =>
      rcases operands with _ | ⟨operand, operands⟩
      · exact .result h
      · exact ((h.replaceAllUses arg operand).eraseValue arg).bind fun f g h => ih h operands

theorem absorb (h : f.Alike g) (b succ : BlockId) (operands : List ValueId) :
    Agree Alike (f.absorb b succ operands) (g.absorb b succ operands) := by
  refine (h.takeTerminator b).bind_paired fun old f g h => ?_
  refine .bind_eq (h.block succ) fun data => .guard ?_
  refine ((h.modifyBlock succ _).bindArgs data.args operands).bind fun f g h => ?_
  refine ((h.modifyBlock succ _).moveInstrs b data.instrs).bind fun f g h => ?_
  exact ((h.modifyBlock b _).moveTerminator succ b).bind fun f g h => .result (h.dropBlock succ)

theorem mergeWithSuccessor (h : f.Alike g) (b : BlockId) :
    Agree (Agree (Paired Alike)) (f.mergeWithSuccessor b) (g.mergeWithSuccessor b) := by
  refine .bind_eq (h.mergeTarget b) ?_
  rintro (refusal | ⟨succ, operands⟩)
  · exact .result (.fault refusal)
  · exact (h.absorb b succ operands).bind fun f g h => .result (.result ⟨rfl, h⟩)

theorem eraseInstrs (h : f.Alike g) (instrs : List InstrId) :
    Agree Alike (f.eraseInstrs instrs) (g.eraseInstrs instrs) := by
  induction instrs generalizing f g with
  | nil => exact .result h
  | cons i rest ih =>
      refine .bind_eq (h.instr i) fun data => ?_
      have hunlinked := h.unlink (.instr i) data.op.operands
      rcases data.result with _ | v
      · exact ih (hunlinked.dropInstr i)
      · exact (hunlinked.eraseValue v).bind fun f g h => ih (h.dropInstr i)

theorem eraseValues (h : f.Alike g) (vs : List ValueId) :
    Agree Alike (vs.foldlM Body.eraseValue f) (vs.foldlM Body.eraseValue g) := by
  induction vs generalizing f g with
  | nil => exact .result h
  | cons v rest ih =>
      rw [List.foldlM_cons, List.foldlM_cons]
      exact (h.eraseValue v).bind fun f g h => ih h

theorem eraseBlock (h : f.Alike g) (b : BlockId) : Agree Alike (f.eraseBlock b) (g.eraseBlock b) := by
  refine .bind_eq (h.block b) fun data => .guard ?_
  refine (h.takeTerminator b).bind_paired fun old f g h => ?_
  refine .bind_eq (h.block b) fun data => ?_
  refine ((h.modifyBlock b _).eraseValues data.args).bind fun f g h => ?_
  exact (h.eraseInstrs data.instrs).bind fun f g h => .result (h.dropBlock b)

end Alike

end FlowGraph.Body
