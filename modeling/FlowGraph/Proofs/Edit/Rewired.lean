import FlowGraph.Proofs.Consistency.Edges
import FlowGraph.Proofs.Consistency.Build

namespace FlowGraph.Body

variable {f g h : Body} {b : BlockId} {t : Terminator} {e : Nat}

/-- The bodies differ in their terminators, and in the two indexes, only. -/
structure Rewired (f g : Body) : Prop where
  id : g.id = f.id
  name : g.name = f.name
  layout : g.layout = f.layout
  args : ∀ c, g.args? c = f.args? c
  lists : ∀ c, g.instrs? c = f.instrs? c
  instrs : g.instrs = f.instrs
  values : g.values = f.values
  size : g.blocks.size = f.blocks.size

namespace Rewired

theorem refl (f : Body) : f.Rewired f := ⟨rfl, rfl, rfl, fun _ => rfl, fun _ => rfl, rfl, rfl, rfl⟩

theorem trans (hfg : f.Rewired g) (hgh : g.Rewired h) : f.Rewired h where
  id := hgh.id.trans hfg.id
  name := hgh.name.trans hfg.name
  layout := hgh.layout.trans hfg.layout
  args c := (hgh.args c).trans (hfg.args c)
  lists c := (hgh.lists c).trans (hfg.lists c)
  instrs := hgh.instrs.trans hfg.instrs
  values := hgh.values.trans hfg.values
  size := hgh.size.trans hfg.size

theorem isLiveBlock (hfg : f.Rewired g) (c : BlockId) : g.isLiveBlock c = f.isLiveBlock c := by
  rw [← isSome_args?, hfg.args, isSome_args?]

theorem value? (hfg : f.Rewired g) (v : ValueId) : g.value? v = f.value? v := by
  rw [Body.value?, hfg.values, Body.value?]

theorem instr? (hfg : f.Rewired g) (i : InstrId) : g.instr? i = f.instr? i := by
  rw [Body.instr?, hfg.instrs, Body.instr?]

theorem operandsAt?_instr (hfg : f.Rewired g) (i : InstrId) :
    g.operandsAt? (.instr i) = f.operandsAt? (.instr i) := by
  rw [operandsAt?, operandsAt?, hfg.instr?]

end Rewired

theorem size_modifyBlock (f : Body) (b : BlockId) (φ : Block → Block) :
    (f.modifyBlock b φ).blocks.size = f.blocks.size :=
  Arena.size_modify _ _ _

theorem size_unlistEdges (f : Body) (b : BlockId) (targets : List BlockId) :
    (f.unlistEdges b targets).blocks.size = f.blocks.size := by
  unfold unlistEdges
  induction targets generalizing f with
  | nil => rfl
  | cons s rest ih => rw [List.foldl_cons, ih, size_modifyBlock]

theorem size_listEdges (f : Body) (b : BlockId) (e : Nat) (targets : List BlockId) :
    (f.listEdges b e targets).blocks.size = f.blocks.size := by
  induction targets generalizing f e with
  | nil => rfl
  | cons s rest ih => rw [listEdges, ih, size_modifyBlock]

theorem size_detach (f : Body) (b : BlockId) (t : Option Terminator) :
    (f.detach b t).blocks.size = f.blocks.size := by
  rcases t with _ | t
  · rfl
  · rw [detach, size_unlistEdges]
    exact size_modifyBlock f b _

theorem size_attach (f : Body) (b : BlockId) (t : Terminator) :
    (f.attach b t).blocks.size = f.blocks.size := by
  rw [attach, size_modifyBlock]
  exact size_listEdges f b 0 t.successors

theorem Consistent.exists_setEdgeArgs (h : f.Consistent) (ht : f.terminator? b = some t) (e : Nat)
    (args : List ValueId) (halloc : ∀ v ∈ args, v.index < f.values.size) :
    ∃ g, f.setEdgeArgs b e args = .ok (t.explicitArgs? e, g) ∧ g.Consistent ∧ f.Rewired g ∧
      (∀ c, g.terminator? c = if c = b then some (t.withEdgeArgs e args) else f.terminator? c) ∧
      ∀ c, g.block? c = (f.block? c).map fun data =>
        { data with
          terminator := if c = b then some (t.withEdgeArgs e args) else data.terminator } := by
  obtain ⟨data, hb, hterm⟩ := terminator?_eq_some.mp ht
  rcases hold : t.explicitArgs? e with _ | old
  · have hset : f.setEdgeArgs b e args = .ok (none, f) :=
      setEdgeArgs_eq_ok.mpr ⟨isLiveBlock_of hb, by rw [ht]; exact hold.symm, .inl ⟨rfl, rfl⟩⟩
    rw [Terminator.withEdgeArgs_of_none hold]
    refine ⟨f, hset, h, .refl f, fun c => ?_, fun c => ?_⟩
    · split
      · rename_i hc
        rw [hc, ht]
      · rfl
    · split
      · rename_i hc
        rw [hc, hb, Option.map_some, ← hterm]
      · exact Option.map_id'.symm
  · have hset : f.setEdgeArgs b e args = .ok (some old, f.exchangeArgs b t e old args) :=
      setEdgeArgs_eq_ok.mpr ⟨isLiveBlock_of hb, by rw [ht]; exact hold.symm,
        .inr ⟨t, old, ht, rfl, rfl⟩⟩
    refine ⟨_, hset, h.setEdgeArgs (fun _ => halloc) hset, ?_, terminator?_exchangeArgs ht,
      block?_exchangeArgs⟩
    exact ⟨rfl, rfl, rfl, args?_mapBlocks block?_exchangeArgs fun _ _ => rfl,
      instrs?_mapBlocks block?_exchangeArgs fun _ _ => rfl, rfl, rfl, size_modifyBlock f b _⟩

theorem Consistent.exists_setSuccessor (h : f.Consistent) (ht : f.terminator? b = some t)
    {old : BlockId} (hold : t.successors[e]? = some old) (dest : BlockId) (hne : old ≠ dest)
    (hdest : f.isLiveBlock dest = true) :
    ∃ g, f.setSuccessor b e dest = .ok g ∧ g.Consistent ∧ f.Rewired g ∧
      (∀ c, g.terminator? c = if c = b then some (t.retarget e dest) else f.terminator? c) ∧
      ∀ c, g.preds? c = (f.preds? c).map fun preds =>
        (if c = old then preds.filter (· ≠ ⟨b, e⟩) else preds) ++ if c = dest then [⟨b, e⟩] else [] := by
  have htarget : f.target? ⟨b, e⟩ = some old := target?_eq_some.mpr ⟨t, ht, hold⟩
  have hlive := h.edges.live_target htarget
  have hset : f.setSuccessor b e dest = .ok (f.retarget b t e old dest) :=
    setSuccessor_eq_ok.mpr ⟨t, old, ht, hold, .inr ⟨hne, hlive, hdest, rfl⟩⟩
  refine ⟨_, hset, h.setSuccessor hset, ?_, terminator?_retarget ht, fun c => ?_⟩
  · refine ⟨rfl, rfl, rfl, args?_mapBlocks (block?_retarget f b t e old dest) fun _ _ => rfl,
      instrs?_mapBlocks (block?_retarget f b t e old dest) fun _ _ => rfl, rfl, rfl, ?_⟩
    rw [retarget, size_modifyBlock, size_modifyBlock, size_modifyBlock]
  · rw [preds?, block?_retarget, preds?, Option.map_map, Option.map_map]
    rfl

theorem Consistent.exists_setTerminator (h : f.Consistent) (hb : f.isLiveBlock b = true)
    (t : Terminator) (hlive : ∀ s ∈ t.successors, f.isLiveBlock s = true)
    (halloc : ∀ v ∈ t.operands, v.index < f.values.size) :
    ∃ g, f.setTerminator b t = .ok (f.terminator? b, g) ∧ g.Consistent ∧ f.Rewired g ∧
      (∀ c, g.terminator? c = if c = b then some t else f.terminator? c) ∧
      ∀ c, g.preds? c = (f.preds? c).map fun preds =>
        preds.filter (·.block ≠ b) ++ arrivals b 0 t.successors c := by
  obtain ⟨data, hdata⟩ := isLiveBlock_iff.mp hb
  have hset : f.setTerminator b t =
      .ok (f.terminator? b, (f.detach b data.terminator).attach b t) :=
    setTerminator_eq_ok.mpr ⟨data, hdata, terminator?_of hdata, hlive, rfl⟩
  have hdetached : (f.detach b data.terminator).isLiveBlock b = true := by
    rw [isLiveBlock_detach]
    exact hb
  refine ⟨_, hset, h.setTerminator halloc hset, ⟨?_, ?_, ?_, fun c => ?_, fun c => ?_, ?_, ?_, ?_⟩,
    fun c => ?_, fun c => ?_⟩
  · rw [attach_eq, detach_eq]
  · rw [attach_eq, detach_eq]
  · rw [attach_eq, detach_eq]
  · rw [args?_mapBlocks (block?_attach _ b t) fun _ _ => rfl]
    exact args?_mapBlocks (h.edges.block?_detach hdata) (fun _ _ => rfl) c
  · rw [instrs?_mapBlocks (block?_attach _ b t) fun _ _ => rfl]
    exact instrs?_mapBlocks (h.edges.block?_detach hdata) (fun _ _ => rfl) c
  · rw [attach_eq, detach_eq]
  · rw [attach_eq, detach_eq]
  · rw [size_attach, size_detach]
  · rw [terminator?_attach hdetached, h.edges.terminator?_detach hdata]
    split <;> rfl
  · rw [preds?_attach, h.edges.preds?_detach hdata, Option.map_map]
    rfl

end FlowGraph.Body
