import FlowGraph.Dominators.Backward
import FlowGraph.Proofs.Consistency.Build
import FlowGraph.Proofs.Dominance.Fresh

namespace FlowGraph

namespace Body

variable {f : Body} {b c : BlockId}

/-- Whether `b` is live and leads nowhere. -/
def isExit (f : Body) (b : BlockId) : Bool := (f.block? b).any (·.successors.isEmpty)

/-- The node behind all exits. -/
def sink (f : Body) : BlockId := ⟨f.blocks.size⟩

/-- The control flow turned round, entered from the sink. -/
def Back (f : Body) (b c : BlockId) : Prop := f.Arc c b ∨ b = f.sink ∧ f.isExit c = true

theorem isExit_of {data : Block} (hb : f.block? b = some data) :
    f.isExit b = data.successors.isEmpty := by
  rw [isExit, hb]
  rfl

theorem not_isLiveBlock_sink (f : Body) : ¬ f.isLiveBlock f.sink = true := f.not_isLiveBlock_nextBlock

theorem isLiveBlock_of_isExit (h : f.isExit b = true) : f.isLiveBlock b = true := by
  rcases hb : f.block? b with _ | data
  · simp [isExit, hb] at h
  · exact isLiveBlock_of hb

theorem ne_sink_of_isLiveBlock (h : f.isLiveBlock b = true) : b ≠ f.sink := by
  rintro rfl
  exact f.not_isLiveBlock_sink h

theorem ne_sink_of_lt (h : b.index < f.blocks.size) : b ≠ f.sink := by
  rintro rfl
  exact Nat.lt_irrefl _ h

theorem arc_iff_mem_successors {data : Block} (hb : f.block? b = some data) :
    f.Arc b c ↔ c ∈ data.successors := by
  rw [← flow_arc_iff, Graph.Arc]
  constructor
  · rintro ⟨succs, hsuccs, hc⟩
    obtain ⟨other, hother, rfl⟩ := successors_eq_ok.mp hsuccs
    rw [hb, Option.some.injEq] at hother
    exact hother ▸ hc
  · intro hc
    exact ⟨data.successors, successors_eq_ok.mpr ⟨data, hb, rfl⟩, hc⟩

end Body

theorem Graph.arc_ofTable {rows : Array (List Nat)} {m n : Nat} :
    (Graph.ofTable rows).Arc m n ↔ n ∈ rows[m]?.getD [] := by
  rcases hrow : rows[m]? with _ | row
  · simp [Graph.Arc, Graph.ofTable, hrow]
  · simp [Graph.Arc, Graph.ofTable, hrow]

theorem Body.lt_of_reaches_back {f : Body} {n : Nat}
    (hn : Reaches (fun m n => f.Back ⟨m⟩ ⟨n⟩) f.sink.index n) : n < f.blocks.size + 1 := by
  cases hn with
  | root _ => exact Nat.lt_succ_self _
  | step _ hback _ =>
      rcases hback with harc | ⟨-, hexit⟩
      · exact Nat.lt_succ_of_lt (lt_size_of_isLiveBlock (isLiveBlock_of_arc harc))
      · exact Nat.lt_succ_of_lt (lt_size_of_isLiveBlock (isLiveBlock_of_isExit hexit))

namespace ExitTable

variable {f : Body} {table : ExitTable} {done : List BlockId} {b : BlockId}

/-- The table has the exits among the blocks `done`, and the arcs that are turned round at them. -/
structure Turns (table : ExitTable) (f : Body) (done : List BlockId) : Prop where
  exits : table.exits = done.filter f.isExit
  size_sources : table.sources.size = f.blocks.size + 1
  size_targets : table.targets.size = f.blocks.size + 1
  mem_sources : ∀ b c, c.index ∈ table.sources[b.index]?.getD [] ↔
    b ∈ done ∧ f.Arc c b ∨ b = f.sink ∧ c ∈ done ∧ f.isExit c = true
  mem_targets : ∀ b c, c.index ∈ table.targets[b.index]?.getD [] ↔ b ∈ done ∧ f.Back c b

theorem turns_empty (f : Body) :
    Turns ⟨[], Array.replicate (f.blocks.size + 1) [], Array.replicate (f.blocks.size + 1) []⟩ f
      [] := by
  have hnone : ∀ n : Nat,
      (Array.replicate (f.blocks.size + 1) ([] : List Nat))[n]?.getD [] = [] := by
    intro n
    rw [Array.getElem?_replicate]
    split <;> rfl
  exact ⟨rfl, Array.size_replicate, Array.size_replicate, by simp [hnone], by simp [hnone]⟩

theorem mem_getD_setIfInBounds {rows : Array (List Nat)} {i n m : Nat} {row : List Nat}
    (hi : i < rows.size) :
    m ∈ (rows.setIfInBounds i row)[n]?.getD [] ↔
      n = i ∧ m ∈ row ∨ n ≠ i ∧ m ∈ rows[n]?.getD [] := by
  rw [Array.getElem?_setIfInBounds]
  rcases Classical.em (i = n) with rfl | hne
  · simp [hi]
  · simp [hne, Ne.symm hne]

theorem mem_getD_modify {rows : Array (List Nat)} {i n m k : Nat} (hi : i < rows.size) :
    m ∈ (rows.modify i (· ++ [k]))[n]?.getD [] ↔ m ∈ rows[n]?.getD [] ∨ n = i ∧ m = k := by
  rw [Array.getElem?_modify]
  rcases Classical.em (i = n) with rfl | hne
  · simp [hi]
  · simp [hne, Ne.symm hne]

theorem addBlock_of_exit (table : ExitTable) {data : Block} (hb : f.block? b = some data)
    (hexit : data.successors = []) :
    table.addBlock f b = .ok {
      exits := table.exits ++ [b]
      sources := (table.sources.setIfInBounds b.index (data.preds.map (·.block.index))).modify
        f.sink.index (· ++ [b.index])
      targets := table.targets.modify b.index (· ++ [f.sink.index]) } := by
  rw [addBlock, Body.predecessors_eq_ok.mpr ⟨data, hb, rfl⟩, ok_bind,
    Body.successors_eq_ok.mpr ⟨data, hb, hexit⟩]
  rfl

theorem addBlock_of_inner (table : ExitTable) {data : Block} (hb : f.block? b = some data)
    (hinner : data.successors.isEmpty = false) :
    table.addBlock f b = .ok { table with
      sources := table.sources.setIfInBounds b.index (data.preds.map (·.block.index))
      targets := table.targets.setIfInBounds b.index (data.successors.map BlockId.index) } := by
  rw [addBlock, Body.predecessors_eq_ok.mpr ⟨data, hb, rfl⟩, ok_bind,
    Body.successors_eq_ok.mpr ⟨data, hb, rfl⟩, ok_bind, hinner]
  rfl

theorem Turns.exists_addBlock (h : table.Turns f done) (hf : f.Consistent) {data : Block}
    (hb : f.block? b = some data) (hnew : b ∉ done) :
    ∃ table', table.addBlock f b = .ok table' ∧ table'.Turns f (done ++ [b]) := by
  have hlive := Body.isLiveBlock_of hb
  have hbound : b.index < f.blocks.size + 1 := Nat.lt_succ_of_lt (Body.lt_size_of_isLiveBlock hlive)
  have hsink : b ≠ f.sink := Body.ne_sink_of_isLiveBlock hlive
  have hmem : ∀ x, x ∈ done ++ [b] ↔ x ∈ done ∨ x = b := by simp
  have hsources : ∀ x c : BlockId, c.index ∈ (table.sources.setIfInBounds b.index
        (data.preds.map (·.block.index)))[x.index]?.getD [] ↔
      x = b ∧ f.Arc c b ∨ x ≠ b ∧ c.index ∈ table.sources[x.index]?.getD [] := by
    intro x c
    rw [mem_getD_setIfInBounds (h.size_sources ▸ hbound), ne_eq, Body.blockId_ext,
      ← hf.edges.mem_preds_iff_arc hb]
    simp [Body.blockId_ext]
  have hnext : ∀ c, f.Arc b c ↔ c ∈ data.successors := fun c => Body.arc_iff_mem_successors hb
  rcases hexit : data.successors.isEmpty with _ | _
  · have hnot : f.isExit b = false := (Body.isExit_of hb).trans hexit
    refine ⟨_, table.addBlock_of_inner hb hexit, ?_, ?_, ?_, ?_, ?_⟩
    · simp [h.exits, hnot]
    · simp [h.size_sources]
    · simp [h.size_targets]
    · intro x c
      rw [hsources, h.mem_sources, hmem, hmem]
      grind
    · intro x c
      have hsuccs : c.index ∈ data.successors.map BlockId.index ↔ c ∈ data.successors := by
        simp [Body.blockId_ext]
      rw [mem_getD_setIfInBounds (h.size_targets ▸ hbound), h.mem_targets, ne_eq, Body.blockId_ext,
        hsuccs, ← hnext, hmem, Body.Back]
      grind
  · -- An exit has no edges of its own and gets one to the sink, in both directions of the table.
    have hnone : ∀ c, ¬ f.Arc b c := by
      intro c
      rw [hnext, List.isEmpty_iff.mp hexit]
      exact List.not_mem_nil
    have hself : f.isExit b = true := (Body.isExit_of hb).trans hexit
    refine ⟨_, table.addBlock_of_exit hb (List.isEmpty_iff.mp hexit), ?_, ?_, ?_, ?_, ?_⟩
    · simp [h.exits, hself]
    · simp [h.size_sources]
    · simp [h.size_targets]
    · intro x c
      rw [mem_getD_modify (by simp [h.size_sources, Body.sink]), hsources, h.mem_sources, hmem, hmem,
        Body.blockId_ext, Body.blockId_ext]
      grind
    · intro x c
      rw [mem_getD_modify (h.size_targets ▸ hbound), h.mem_targets, hmem, Body.blockId_ext,
        Body.blockId_ext, Body.Back]
      grind

theorem exists_exitTable (hf : f.Consistent) :
    ∃ table, f.exitTable = .ok table ∧ table.Turns f f.layout := by
  refine exists_foldlM (P := fun done table => Turns table f done) (turns_empty f)
    fun done b rest table hsplit h => ?_
  have hnew : b ∉ done := notMem_of_nodup_append (hsplit ▸ hf.layout.nodup)
  have hlive : f.isLiveBlock b = true := by
    rw [← hf.layout.mem_iff, hsplit]
    exact List.mem_append_right _ List.mem_cons_self
  obtain ⟨data, hb⟩ := Body.isLiveBlock_iff.mp hlive
  exact h.exists_addBlock hf hb hnew

section Turns

variable (h : table.Turns f f.layout) (hf : f.Consistent)
include h hf

theorem Turns.mem_sources_iff (b c : BlockId) :
    c.index ∈ table.sources[b.index]?.getD [] ↔ f.Back b c := by
  rw [h.mem_sources, hf.layout.mem_iff, hf.layout.mem_iff, Body.Back]
  constructor
  · rintro (⟨-, harc⟩ | ⟨hsink, -, hexit⟩)
    · exact .inl harc
    · exact .inr ⟨hsink, hexit⟩
  · rintro (harc | ⟨hsink, hexit⟩)
    · exact .inl ⟨hf.edges.isLiveBlock_of_arc harc, harc⟩
    · exact .inr ⟨hsink, Body.isLiveBlock_of_isExit hexit, hexit⟩

theorem Turns.mem_targets_iff (b c : BlockId) :
    c.index ∈ table.targets[b.index]?.getD [] ↔ f.Back c b := by
  rw [h.mem_targets, hf.layout.mem_iff]
  refine and_iff_right_of_imp ?_
  rintro (harc | ⟨-, hexit⟩)
  · exact Body.isLiveBlock_of_arc harc
  · exact Body.isLiveBlock_of_isExit hexit

theorem Turns.arc_sources : (Graph.ofTable table.sources).Arc = fun m n => f.Back ⟨m⟩ ⟨n⟩ := by
  funext m n
  exact propext (Graph.arc_ofTable.trans (h.mem_sources_iff hf ⟨m⟩ ⟨n⟩))

theorem Turns.exists_postOrder :
    ∃ post, (Graph.ofTable table.sources).postOrder f.sink.index [] = .ok post ∧
      (Graph.ofTable table.sources).IsPostOrder f.sink.index post := by
  apply Graph.exists_postOrder
  intro n hn
  rw [h.arc_sources hf] at hn
  have hlt : n < table.sources.size := h.size_sources ▸ Body.lt_of_reaches_back hn
  refine ⟨table.sources[n], ?_⟩
  simp [Graph.ofTable, hlt]

theorem Turns.isInput {post : List Nat}
    (hpost : (Graph.ofTable table.sources).IsPostOrder f.sink.index post) :
    Tree.IsInput (fun m n => f.Back ⟨m⟩ ⟨n⟩) f.sink.index post.reverse table.targets := by
  have harc := h.arc_sources hf
  rw [← harc]
  refine hpost.isInput (fun m n => ?_) (fun n hn => ?_) (fun m n hm => ?_)
  · rw [harc]
    exact h.mem_targets_iff hf ⟨n⟩ ⟨m⟩
  · rw [harc] at hn
    rw [h.size_targets]
    exact Body.lt_of_reaches_back hn
  · rw [harc] at hm
    rw [h.size_targets]
    rcases hm with harc | ⟨hsink, -⟩
    · exact Nat.lt_succ_of_lt (Body.lt_size_of_isLiveBlock (hf.edges.isLiveBlock_of_arc harc))
    · exact Nat.lt_succ_of_le (Nat.le_of_eq (congrArg BlockId.index hsink))

end Turns

end ExitTable

/-- The tree, read as one of dominators. -/
def PostDominators.turned (d : PostDominators) : Dominators := ⟨d.owner, d.tree⟩

/-- The tree has the exits of the body and is the dominator tree of its control flow turned round. -/
structure PostDominators.Represents (d : PostDominators) (f : Body) : Prop where
  exits : d.exits = f.layout.filter f.isExit
  sink : d.sink = f.blocks.size
  turned : d.turned.Represents f.Back f.sink

/-- A consistent body has a post-dominator tree, also if it has no blocks. -/
theorem Body.Consistent.exists_postDominators {f : Body} (hf : f.Consistent) :
    ∃ d, f.postDominators = .ok d ∧ d.Represents f := by
  obtain ⟨table, htable, h⟩ := ExitTable.exists_exitTable hf
  obtain ⟨post, hpost, hisPost⟩ := h.exists_postOrder hf
  obtain ⟨t, ht, hrepresents⟩ := Dominators.exists_ofOrder f.id (h.isInput hf hisPost)
  refine ⟨⟨f.id, table.exits, f.blocks.size, t⟩, ?_, h.exits, rfl, hrepresents⟩
  rw [Body.postDominators, htable, ok_bind]
  change ((Graph.ofTable table.sources).postOrder f.sink.index [] >>= _) = _
  rw [hpost, ok_bind]
  change (Tree.ofOrder f.sink.index post.reverse table.targets >>= _) = _
  rw [ht]
  rfl

end FlowGraph
