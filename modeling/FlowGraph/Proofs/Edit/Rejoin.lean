import FlowGraph.Proofs.Edit.Fusion
import FlowGraph.Proofs.History

namespace FlowGraph

theorem filter_insertIdx_of_neg {α : Type} {p : α → Bool} {a : α} (ha : ¬ p a = true) (l : List α)
    (n : Nat) : (l.insertIdx n a).filter p = l.filter p := by
  induction l generalizing n with
  | nil =>
      rcases n with _ | n
      · exact List.filter_cons_of_neg ha
      · rfl
  | cons x l ih =>
      rcases n with _ | n
      · exact List.filter_cons_of_neg ha
      · rw [List.insertIdx_succ_cons, List.filter_cons, List.filter_cons, ih]

namespace Body

variable {f g h : Body} {b tail : BlockId}

theorem size_relocate (f : Body) (b : BlockId) (moved : List InstrId) :
    (f.relocate b moved).instrs.size = f.instrs.size := by
  induction moved generalizing f with
  | nil => rfl
  | cons i rest ih => exact (ih _).trans (Arena.size_modify _ _ _)

theorem blocks_relocate (f : Body) (b : BlockId) (moved : List InstrId) :
    (f.relocate b moved).blocks = f.blocks := by
  rw [relocate_eq]

theorem size_handOver (f : Body) (source target : BlockId) (t : Option Terminator) :
    (f.handOver source target t).blocks.size = f.blocks.size := by
  rcases t with _ | t
  · rfl
  · rw [handOver, size_attach, size_detach]

theorem size_blocks_cut (f : Body) (b : BlockId) (position : Nat) (layout : List BlockId)
    (data : Block) : (f.cut b position layout data).blocks.size = f.blocks.size + 1 := by
  rw [cut, size_attach, cutOpen, size_handOver, cutInstrs, size_modifyBlock, blocks_relocate,
    size_modifyBlock]
  exact Arena.size_alloc _ _

theorem size_instrs_cut (f : Body) (b : BlockId) (position : Nat) (layout : List BlockId)
    (data : Block) : (f.cut b position layout data).instrs.size = f.instrs.size := by
  rw [cut, attach_eq, cutOpen, handOver_eq]
  exact size_relocate _ _ _

theorem bound_nil (f : Body) : f.bound [] [] = f := rfl

theorem joined_of_args_eq_nil {sdata : Block} (hargs : sdata.args = []) :
    f.joined b tail [] sdata =
      ((f.detach b (some (.br tail []))).modifyBlock tail
        fun data => { data with args := [] }).spliceInstrs tail b sdata.instrs := by
  rw [joined, hargs, passArgs, bound_nil]

section Absorbed

variable {sdata : Block} (hargs : sdata.args = [])
include hargs

theorem absorbed_eq_of_args_eq_nil (f : Body) (b tail : BlockId) :
    f.absorbed b tail [] sdata =
      { f with
        layout := f.layout.filter (· ≠ tail)
        blocks := (f.absorbed b tail [] sdata).blocks
        instrs := (f.absorbed b tail [] sdata).instrs
        useIndex := (f.absorbed b tail [] sdata).useIndex } := by
  rw [Absorbable.absorbed_eq, joined_of_args_eq_nil hargs, spliceInstrs_eq, modifyBlock, detach_eq]

theorem size_blocks_absorbed : (f.absorbed b tail [] sdata).blocks.size = f.blocks.size := by
  change (Arena.erase _ _).size = _
  rw [Arena.size_erase, size_handOver, joined_of_args_eq_nil hargs, spliceInstrs, size_modifyBlock,
    blocks_relocate, size_modifyBlock, size_modifyBlock, size_detach]

theorem size_instrs_absorbed : (f.absorbed b tail [] sdata).instrs.size = f.instrs.size := by
  rw [Absorbable.absorbed_eq, joined_of_args_eq_nil hargs, spliceInstrs]
  refine (size_relocate _ _ _).trans ?_
  rw [detach_eq]
  rfl

end Absorbed

/-- The body `g` is `f` again, but for one more slot for blocks, which is empty, and for the order
inside the lists of incoming edges and of readers. -/
structure Restored (f g : Body) : Prop where
  id : g.id = f.id
  name : g.name = f.name
  layout : g.layout = f.layout
  size_blocks : g.blocks.size = f.blocks.size + 1
  erased : g.block? ⟨f.blocks.size⟩ = none
  args : ∀ c, g.args? c = f.args? c
  lists : ∀ c, g.instrs? c = f.instrs? c
  terminators : ∀ c, g.terminator? c = f.terminator? c
  preds : ∀ c preds, f.preds? c = some preds →
    ∃ preds', g.preds? c = some preds' ∧ preds'.Perm preds
  instrs : g.instrs = f.instrs
  values : g.values = f.values
  size_users : g.useIndex.users.size = f.useIndex.users.size
  users : ∀ v, (g.usersOf v).Perm (f.usersOf v)

theorem Consistent.perm_preds_of_terminator? (hf : f.Consistent) (hg : g.Consistent)
    (hargs : ∀ c, g.args? c = f.args? c) (hterm : ∀ c, g.terminator? c = f.terminator? c)
    {c : BlockId} {preds : List Edge} (hpreds : f.preds? c = some preds) :
    ∃ preds', g.preds? c = some preds' ∧ preds'.Perm preds := by
  have hlive : (g.preds? c).isSome = true := by
    rw [isSome_preds?, ← isSome_args?, hargs, isSome_args?, ← isSome_preds?, hpreds]
    rfl
  obtain ⟨preds', hpreds'⟩ := Option.isSome_iff_exists.mp hlive
  refine ⟨preds', hpreds', List.perm_iff_count.mpr fun x => ?_⟩
  rw [hg.edges.count_preds hpreds', hf.edges.count_preds hpreds, target?_congr hterm]

theorem Consistent.perm_users_of_operandsAt? (hf : f.Consistent) (hg : g.Consistent)
    (hoperands : ∀ point, g.operandsAt? point = f.operandsAt? point) (v : ValueId) :
    (g.usersOf v).Perm (f.usersOf v) := by
  refine List.perm_iff_count.mpr fun point => ?_
  rw [hg.uses.count_users, hf.uses.count_users, hoperands]

section Unique

variable {front front' : List InstrId} {operands operands' : List ValueId}
  {σ σ' : ValueId → ValueId} (hf : f.Fused g b tail front [] operands σ)
  (hh : h.Fused g b tail front' [] operands' σ')
include hf hh

theorem Fused.args?_unique (c : BlockId) : h.args? c = f.args? c := by
  rw [hh.takes, hf.takes]

theorem Fused.instrs?_unique (c : BlockId) : h.instrs? c = f.instrs? c := by
  cases hf.front_eq.symm.trans hh.front_eq
  rw [hh.instrs, hf.instrs]

theorem Fused.terminator?_unique (c : BlockId) : h.terminator? c = f.terminator? c := by
  rw [hh.terminators, hf.terminators]
  refine congrArg (Option.map · _) (funext fun t => ?_)
  rw [Terminator.mapOperands_eq_self fun v _ => hf.keeps List.not_mem_nil,
    Terminator.mapOperands_eq_self fun v _ => hh.keeps List.not_mem_nil]

end Unique

theorem Consistent.exists_rejoin (hf : f.Consistent) {data : Block} (hb : f.block? b = some data)
    {place : Nat} (hplace : f.layout.idxOf? b = some place) (position : Nat) {g : Body}
    (hcut : g = f.cut b position (f.layout.insertIdx (place + 1) f.nextBlock) data) :
    ∃ sdata, sdata.args = [] ∧ sdata.instrs = data.instrs.drop position ∧
      g.Absorbable b f.nextBlock [] sdata ∧
      g.mergeWithSuccessor b = .ok (.ok (f.nextBlock, g.absorbed b f.nextBlock [] sdata)) := by
  have hperm := List.perm_insertIdx f.nextBlock f.layout (List.idxOf?_eq_some_iff.mp hplace).1
  have hfused : f.Fused g b f.nextBlock _ [] [] _ := hcut ▸ hf.fused_cut hb hplace position
  have hg : g.Consistent := hcut ▸ hf.cut position hb hperm
  obtain ⟨sdata, hs, hargs⟩ := args?_eq_some.mp hfused.taken
  have hinstrs : g.instrs? f.nextBlock = some (data.instrs.drop position) := by
    rw [hcut, instrs?_cut position hf hb hperm, if_neg (nextBlock_ne hb).symm, if_pos rfl]
  rw [instrs?_of hs, Option.some.injEq] at hinstrs
  have hsingle : sdata.preds.length = 1 :=
    (hg.edges.length_preds_eq_one_iff hs ((hfused.into ⟨b, 0⟩).mpr rfl)).mpr fun y =>
      (hfused.into y).mp
  have habsorb : g.Absorbable b f.nextBlock [] sdata :=
    ⟨hfused.branch, hfused.ne.symm, hs, hsingle, congrArg List.length hargs⟩
  obtain ⟨entry, rest, hlayout⟩ := List.exists_cons_of_ne_nil
    (List.ne_nil_of_mem ((hf.layout.mem_iff b).mpr (isLiveBlock_of hb)))
  have hentry : g.entry = .ok entry := hfused.entry.mp (entry_eq_ok.mpr ⟨rest, hlayout⟩)
  have hother : f.nextBlock ≠ entry := by
    rintro rfl
    exact hfused.not_entry hentry
  have htarget : g.mergeTarget b = .ok (.ok (f.nextBlock, [])) :=
    mergeTarget_eq_ok.mpr ⟨hfused.branch, hfused.ne.symm, ⟨entry, hentry, hother⟩, sdata, hs, hsingle,
      fun v hv => absurd hv List.not_mem_nil⟩
  exact ⟨sdata, hargs, hinstrs, habsorb,
    (mergeWithSuccessor_eq_ok hg).mpr ⟨[], sdata, htarget, habsorb, rfl⟩⟩

theorem Consistent.instr?_rejoin (hf : f.Consistent) {data sdata : Block}
    (hb : f.block? b = some data) {position : Nat} {layout : List BlockId}
    (hperm : layout.Perm (f.nextBlock :: f.layout)) (hargs : sdata.args = [])
    (hinstrs : sdata.instrs = data.instrs.drop position)
    (habsorb : (f.cut b position layout data).Absorbable b f.nextBlock [] sdata) (i : InstrId) :
    ((f.cut b position layout data).absorbed b f.nextBlock [] sdata).instr? i = f.instr? i := by
  rw [habsorb.instr?_absorbed (hf.cut position hb hperm), instr?_cut, Option.map_map, hargs]
  rcases hi : f.instr? i with _ | ⟨op, holder, result⟩
  · rfl
  · have hop : op.mapOperands (renameAll [] []) = op :=
      Operation.mapOperands_eq_self fun _ _ => rfl
    have hholder : i ∈ data.instrs.drop position → holder = b := by
      intro hmem
      have hrecorded := (hf.instrs.mem_instrs (instrs?_of hb)).mp (List.mem_of_mem_drop hmem)
      rw [holder?, hi] at hrecorded
      exact Option.some.inj hrecorded
    simp only [Option.map_some, Function.comp_apply, hop, hinstrs]
    split
    · rename_i hmem
      rw [hholder hmem]
    · rfl

/-- Cutting a block and joining the halves gives back the body. -/
theorem Consistent.restored_rejoin (hf : f.Consistent) {data sdata : Block}
    (hb : f.block? b = some data) {place : Nat} (hplace : f.layout.idxOf? b = some place)
    {position : Nat} (hcut : g = f.cut b position (f.layout.insertIdx (place + 1) f.nextBlock) data)
    (hargs : sdata.args = []) (hinstrs : sdata.instrs = data.instrs.drop position)
    (habsorb : g.Absorbable b f.nextBlock [] sdata) :
    f.Restored (g.absorbed b f.nextBlock [] sdata) := by
  have hlt := List.idxOf?_eq_some_iff.mp hplace
  have hperm := List.perm_insertIdx f.nextBlock f.layout hlt.1
  have hfused : f.Fused g b f.nextBlock _ [] [] _ := hcut ▸ hf.fused_cut hb hplace position
  have hg : g.Consistent := hcut ▸ hf.cut position hb hperm
  obtain ⟨front, hback⟩ := habsorb.fused hg hfused.not_entry fun v hv => absurd hv List.not_mem_nil
  rw [hargs] at hback
  have hargs? := hfused.args?_unique hback
  have hterm := hfused.terminator?_unique hback
  have hinstr : ∀ i, (g.absorbed b f.nextBlock [] sdata).instr? i = f.instr? i := by
    subst hcut
    exact hf.instr?_rejoin hb hperm hargs hinstrs habsorb
  have hlast := habsorb.consistent_absorbed hg
  have heq := absorbed_eq_of_args_eq_nil hargs g b f.nextBlock
  have hvalues : (g.absorbed b f.nextBlock [] sdata).values = f.values := by
    rw [heq, hcut, cut_eq]
  exact {
    id := by rw [heq, hcut, cut_eq]
    name := by rw [heq, hcut, cut_eq]
    layout := by
      rw [heq, hcut, cut_eq]
      refine (filter_insertIdx_of_neg (by simp) _ _).trans (List.filter_eq_self.mpr fun c hc => ?_)
      refine decide_eq_true ?_
      rintro rfl
      exact f.not_isLiveBlock_nextBlock ((hf.layout.mem_iff _).mp hc)
    size_blocks := by rw [size_blocks_absorbed hargs, hcut, size_blocks_cut]
    erased := by
      have hnone := hargs? f.nextBlock
      rw [args?, args?, block?_nextBlock, Option.map_none, Option.map_eq_none_iff] at hnone
      exact hnone
    args := hargs?
    lists := hfused.instrs?_unique hback
    terminators := hterm
    preds := fun c preds => hf.perm_preds_of_terminator? hlast hargs? hterm
    instrs := by
      refine Arena.ext_get? ?_ fun i => hinstr ⟨i⟩
      rw [size_instrs_absorbed hargs, hcut, size_instrs_cut]
    values := hvalues
    size_users := by rw [hlast.uses.size_users, hf.uses.size_users, hvalues]
    users := hf.perm_users_of_operandsAt? hlast
      (operandsAt?_congr hterm fun i => by rw [operation?, hinstr, operation?]) }

end Body

/-- A block of a well-built body that has been cut, at whatever position, can be joined with its second
half, and that gives back the body. -/
theorem WellBuilt.splitBlock_restored {f : Body} (hf : WellBuilt f) {b : BlockId}
    {instrs : List InstrId} (hb : f.instrs? b = some instrs) {position : Nat}
    (hposition : position ≤ instrs.length) (hroom : f.blocks.size < slotLimit) :
    ∃ g h, f.splitBlock b position = .ok (⟨f.blocks.size⟩, g) ∧
      g.mergeWithSuccessor b = .ok (.ok (⟨f.blocks.size⟩, h)) ∧ f.Restored h := by
  have hc := hf.consistent
  obtain ⟨data, hdata, rfl⟩ := Body.instrs?_eq_some.mp hb
  obtain ⟨place, hplace⟩ := Option.isSome_iff_exists.mp
    (List.isSome_idxOf?.mpr ((hc.layout.mem_iff b).mpr (Body.isLiveBlock_of hdata)))
  have hsplit := (Body.splitBlock_eq_ok hc).mpr
    ⟨data, place, hdata, hposition, hplace, hroom, rfl, rfl⟩
  obtain ⟨sdata, hargs, hinstrs, habsorb, hmerge⟩ := hc.exists_rejoin hdata hplace position rfl
  exact ⟨_, _, hsplit, hmerge, hc.restored_rejoin hdata hplace rfl hargs hinstrs habsorb⟩

/-- A block that leads back to itself, with three instructions, and one that is not finished. -/
def openLoop : Body :=
  replayed [.createBlock, .createBlock, .createBlock,
    .addFunctionArg ⟨0⟩ .int .owned, .addPhi ⟨1⟩ .int .none,
    .setTerminator ⟨0⟩ (.br ⟨1⟩ [⟨0⟩]),
    .appendInstr ⟨1⟩ (.literal .int (.int 7)),
    .appendInstr ⟨1⟩ (.builtin "add" [⟨1⟩, ⟨2⟩] (some (.int, .none)) false),
    .appendInstr ⟨1⟩ (.builtin "print" [⟨3⟩] none true),
    .setTerminator ⟨1⟩ (.condBr ⟨1⟩ ⟨1⟩ [⟨3⟩] ⟨2⟩ []),
    .appendInstr ⟨2⟩ (.literal .int (.int 1))]

theorem openLoop_splitBlock_restored :
    (∃ g h, openLoop.splitBlock ⟨1⟩ 1 = .ok (⟨3⟩, g) ∧
      g.mergeWithSuccessor ⟨1⟩ = .ok (.ok (⟨3⟩, h)) ∧ openLoop.Restored h) ∧
    ∃ g h, openLoop.splitBlock ⟨2⟩ 1 = .ok (⟨3⟩, g) ∧
      g.mergeWithSuccessor ⟨2⟩ = .ok (.ok (⟨3⟩, h)) ∧ openLoop.Restored h := by
  have hf : WellBuilt openLoop := wellBuilt_replayed _
  have hbody : openLoop.instrs? ⟨1⟩ = some [⟨0⟩, ⟨1⟩, ⟨2⟩] := by cbv
  have hopen : openLoop.instrs? ⟨2⟩ = some [⟨3⟩] := by cbv
  have hroom : openLoop.blocks.size < slotLimit := by cbv
  exact ⟨WellBuilt.splitBlock_restored hf hbody (by decide) hroom,
    WellBuilt.splitBlock_restored hf hopen (by decide) hroom⟩

end FlowGraph
