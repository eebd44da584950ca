import FlowGraph.Proofs.Consistency.Basic
import FlowGraph.Proofs.Dominance.Fixpoint
import FlowGraph.Proofs.Dominance.Tree
import FlowGraph.Proofs.Dominance.Walk

namespace FlowGraph

section Index

variable {R : BlockId → BlockId → Prop} {P : BlockId → Prop} {r a x : BlockId}

theorem path_index_iff :
    Path (fun m n => R ⟨m⟩ ⟨n⟩) (fun n => P ⟨n⟩) r.index x.index ↔ Path R P r x := by
  have hblocks : ∀ n, Path (fun m n => R ⟨m⟩ ⟨n⟩) (fun n => P ⟨n⟩) r.index n → Path R P r ⟨n⟩ := by
    intro n hn
    induction hn with
    | root h => exact .root h
    | step _ harc h ih => exact ih.step harc h
  refine ⟨hblocks x.index, fun hx => ?_⟩
  induction hx with
  | root h => exact .root h
  | @step x y _ harc h ih => exact @Path.step _ _ _ _ x.index y.index ih harc h

theorem reaches_index_iff :
    Reaches (fun m n => R ⟨m⟩ ⟨n⟩) r.index x.index ↔ Reaches R r x :=
  path_index_iff (P := fun _ => True)

theorem evades_index_iff :
    Evades (fun m n => R ⟨m⟩ ⟨n⟩) r.index a.index x.index ↔ Evades R r a x := by
  have hne : ∀ n, n ≠ a.index ↔ (⟨n⟩ : BlockId) ≠ a := by
    intro n
    cases a
    simp
  rw [Evades, Evades, ← path_index_iff]
  exact ⟨fun h => h.mono fun n => (hne n).mp, fun h => h.mono fun n => (hne n).mpr⟩

theorem dominates_index_iff :
    Dominates (fun m n => R ⟨m⟩ ⟨n⟩) r.index a.index x.index ↔ Dominates R r a x := by
  rw [Dominates, Dominates, reaches_index_iff, evades_index_iff]

theorem ImmediatelyDominates.of_index
    (h : ImmediatelyDominates (fun m n => R ⟨m⟩ ⟨n⟩) r.index a.index x.index) :
    ImmediatelyDominates R r a x := by
  refine ⟨dominates_index_iff.mp h.dominates, fun heq => h.ne (congrArg BlockId.index heq), ?_⟩
  intro q hq hne
  refine dominates_index_iff.mp (h.nearest q.index (dominates_index_iff.mpr hq) fun heq => hne ?_)
  exact congrArg BlockId.mk heq

end Index

/-- The iteration over the numbers of blocks gives the dominator tree of the blocks. -/
theorem Dominators.exists_ofOrder {R : BlockId → BlockId → Prop} {r : BlockId} {order : List Nat}
    {preds : Array (List Nat)} (owner : BodyId)
    (hin : Tree.IsInput (fun m n => R ⟨m⟩ ⟨n⟩) r.index order preds) :
    ∃ t, Tree.ofOrder r.index order preds = .ok t ∧ (⟨owner, t⟩ : Dominators).Represents R r := by
  obtain ⟨t, ht, hroot, hcontains, hsound, hcomplete⟩ := Tree.ofOrder_eq_ok hin
  refine ⟨t, ht, ?_, fun b => ?_, fun b p hp => ?_, fun b hb hne => ?_⟩
  · rw [Dominators.root, hroot]
  · rw [Dominators.isReachable, hcontains]
    exact reaches_index_iff
  · exact (hsound b.index p.index (Dominators.idom?_eq_some.mp hp)).of_index
  · obtain ⟨p, hp⟩ := hcomplete b.index (reaches_index_iff.mpr hb)
      fun heq => hne (congrArg BlockId.mk heq)
    exact ⟨⟨p⟩, Dominators.idom?_eq_some.mpr hp⟩

theorem notMem_of_nodup_append {α : Type} {done rest : List α} {a : α}
    (h : (done ++ a :: rest).Nodup) : a ∉ done := fun ha =>
  (List.nodup_append.mp h).2.2 a ha a List.mem_cons_self rfl

theorem idxOf_lt_of_sublist {α : Type} [DecidableEq α] {l : List α} {a b : α} (hnodup : l.Nodup)
    (h : [a, b].Sublist l) : l.idxOf a < l.idxOf b := by
  induction l with
  | nil => cases h
  | cons c l ih =>
      obtain ⟨hc, hnodup⟩ := List.nodup_cons.mp hnodup
      cases h with
      | cons _ h =>
          have ha : a ≠ c := fun heq => hc (heq ▸ h.mem List.mem_cons_self)
          have hb : b ≠ c := fun heq => hc (heq ▸ h.mem (List.mem_cons_of_mem _ List.mem_cons_self))
          rw [List.idxOf_cons_ne _ (Ne.symm ha), List.idxOf_cons_ne _ (Ne.symm hb)]
          exact Nat.succ_lt_succ (ih hnodup h)
      | cons_cons _ h =>
          have hb : b ≠ a := fun heq => hc (heq ▸ h.mem List.mem_cons_self)
          rw [List.idxOf_cons_self, List.idxOf_cons_ne _ (Ne.symm hb)]
          exact Nat.succ_pos _

theorem Graph.IsPostOrder.isInput {g : Graph Nat} {r : Nat} {post : List Nat}
    {preds : Array (List Nat)} (hpost : g.IsPostOrder r post)
    (hmem : ∀ m n, m ∈ preds[n]?.getD [] ↔ g.Arc m n)
    (hbound : ∀ n, Reaches g.Arc r n → n < preds.size) (hsource : ∀ m n, g.Arc m n → m < preds.size) :
    Tree.IsInput g.Arc r post.reverse preds := by
  have hreaches : ∀ n, n ∈ post.reverse ↔ Reaches g.Arc r n := by
    intro n
    rw [List.mem_reverse, hpost.mem_iff]
  have hnodup := List.nodup_reverse.mpr hpost.nodup
  refine ⟨?_, hnodup, hreaches, fun n hn hne => ?_, fun n _ m => hmem m n,
    fun n hn => hbound n ((hreaches n).mp hn), fun n _ m => hsource m n⟩
  · obtain ⟨init, rfl⟩ := List.getLast?_eq_some_iff.mp hpost.getLast?
    exact ⟨init.reverse, by simp⟩
  · obtain ⟨m, hm, hsub⟩ := hpost.entered n (List.mem_reverse.mp hn) hne
    have hsub := List.reverse_sublist.mpr hsub
    exact ⟨m, hsub.mem List.mem_cons_self, hm, idxOf_lt_of_sublist hnodup hsub⟩

namespace Body

variable {f : Body} {b c entry : BlockId}

/-- Some edge leads from `b` to `c`. -/
def Arc (f : Body) (b c : BlockId) : Prop := ∃ e, f.target? ⟨b, e⟩ = some c

theorem isLiveBlock_of_arc (h : f.Arc b c) : f.isLiveBlock b = true := by
  obtain ⟨e, he⟩ := h
  obtain ⟨t, ht, -⟩ := target?_eq_some.mp he
  obtain ⟨data, hdata, -⟩ := terminator?_eq_some.mp ht
  exact isLiveBlock_of hdata

theorem EdgesListed.isLiveBlock_of_arc (h : f.EdgesListed) (harc : f.Arc b c) :
    f.isLiveBlock c = true := by
  obtain ⟨e, he⟩ := harc
  exact h.live_target he

theorem EdgesListed.mem_preds_iff_arc (h : f.EdgesListed) {data : Block}
    (hc : f.block? c = some data) : b ∈ data.preds.map Edge.block ↔ f.Arc b c := by
  rw [List.mem_map]
  constructor
  · rintro ⟨⟨source, e⟩, he, rfl⟩
    exact ⟨e, (h.mem_preds (preds?_of hc)).mp he⟩
  · rintro ⟨e, he⟩
    exact ⟨⟨b, e⟩, (h.mem_preds (preds?_of hc)).mpr he, rfl⟩

theorem flow_arc_iff : f.flow.Arc b c ↔ f.Arc b c := by
  have hnext : ∀ succs, f.flow.next b = .ok succs ↔
      ∃ data, f.block? b = some data ∧ data.successors = succs := fun succs => successors_eq_ok
  simp only [Graph.Arc, hnext, Arc, target?, terminator?]
  rcases f.block? b with _ | data
  · simp
  · simp only [Option.some.injEq, exists_eq_left', Option.bind_some, Block.successors]
    rcases data.terminator with _ | t
    · simp
    · simp only [Option.bind_some, List.mem_iff_getElem?]

theorem arc_flow (f : Body) : f.flow.Arc = f.Arc := by
  funext b c
  exact propext flow_arc_iff

theorem backflow_next {data : Block} (hb : f.block? b = some data) :
    f.backflow.next b = .ok (data.preds.map Edge.block) := by
  change (f.predecessors b >>= _) = _
  rw [predecessors_eq_ok.mpr ⟨data, hb, rfl⟩]
  rfl

theorem Consistent.isLiveBlock_of_reaches (h : f.Consistent) (hentry : f.entry = .ok entry)
    (hb : Reaches f.Arc entry b) : f.isLiveBlock b = true := by
  induction hb with
  | root _ => exact h.isLiveBlock_entry hentry
  | step _ harc _ _ => exact h.edges.isLiveBlock_of_arc harc

theorem Consistent.exists_next (h : f.Consistent) (b : BlockId) (hb : f.isLiveBlock b = true) :
    ∃ succs, f.flow.next b = .ok succs ∧ ∀ c ∈ succs, f.isLiveBlock c = true := by
  obtain ⟨data, hdata⟩ := isLiveBlock_iff.mp hb
  have hnext : f.flow.next b = .ok data.successors := successors_eq_ok.mpr ⟨data, hdata, rfl⟩
  refine ⟨data.successors, hnext, fun c hc => ?_⟩
  exact h.edges.isLiveBlock_of_arc (flow_arc_iff.mp ⟨data.successors, hnext, hc⟩)

theorem Consistent.exists_postOrder (h : f.Consistent) (hentry : f.entry = .ok entry) :
    ∃ post, f.postOrderFrom entry [] = .ok post ∧ f.flow.IsPostOrder entry post := by
  apply Graph.exists_postOrder
  intro x hx
  rw [arc_flow] at hx
  obtain ⟨succs, hnext, -⟩ := h.exists_next x (h.isLiveBlock_of_reaches hentry hx)
  exact ⟨succs, hnext⟩

theorem size_blockTable {α : Type} {start : α} {entry : BlockId → Except Fault α} {table : Array α}
    (h : f.blockTable start entry = .ok table) : table.size = f.blocks.size := by
  have hfold : ∀ (blocks : List BlockId) (old : Array α),
      blocks.foldlM (fun table b => return table.setIfInBounds b.index (← entry b)) old = .ok table →
      table.size = old.size := by
    intro blocks
    induction blocks with
    | nil =>
        rintro old hrun
        cases hrun
        rfl
    | cons b blocks ih =>
        intro old hrun
        rw [List.foldlM_cons, bind_eq_ok] at hrun
        obtain ⟨next, hnext, hrun⟩ := hrun
        obtain ⟨value, -, hvalue⟩ := bind_eq_ok.mp hnext
        cases hvalue
        rw [ih _ hrun, Array.size_setIfInBounds]
  rw [hfold f.layout _ h, Array.size_replicate]

theorem blockTable_eq_ok {α : Type} (f : Body) (start : α) (entry : BlockId → Except Fault α)
    (value : BlockId → α) (h : ∀ b ∈ f.layout, entry b = .ok (value b)) :
    ∃ table, f.blockTable start entry = .ok table ∧ table.size = f.blocks.size ∧
      ∀ b ∈ f.layout, b.index < f.blocks.size → table[b.index]? = some (value b) := by
  have hfold : ∀ (blocks : List BlockId) (table : Array α),
      (∀ b ∈ blocks, entry b = .ok (value b)) →
      ∃ table', blocks.foldlM (fun table b => return table.setIfInBounds b.index (← entry b)) table =
          .ok table' ∧ table'.size = table.size ∧
        ∀ n, table'[n]? = if (⟨n⟩ : BlockId) ∈ blocks ∧ n < table.size then some (value ⟨n⟩)
          else table[n]? := by
    intro blocks
    induction blocks with
    | nil => exact fun table _ => ⟨table, rfl, rfl, fun n => by simp⟩
    | cons b rest ih =>
        intro table hblocks
        rw [List.forall_mem_cons] at hblocks
        obtain ⟨table', hrun, hsize, hget⟩ := ih (table.setIfInBounds b.index (value b)) hblocks.2
        refine ⟨table', ?_, by rw [hsize, Array.size_setIfInBounds], fun n => ?_⟩
        · simp only [List.foldlM_cons, hblocks.1, ok_bind]
          exact hrun
        · rw [hget, Array.size_setIfInBounds, Array.getElem?_setIfInBounds]
          rcases Classical.em (b = ⟨n⟩) with rfl | hne
          · rcases Classical.em (n < table.size) with hlt | hge
            · simp [hlt]
            · simp [hge]
          · have hindex : b.index ≠ n := fun heq => hne (by cases b; simpa using heq)
            simp [hindex, Ne.symm hne]
  obtain ⟨table, hrun, hsize, hget⟩ := hfold f.layout (Array.replicate f.blocks.size start) h
  rw [Array.size_replicate] at hsize hget
  refine ⟨table, hrun, hsize, fun b hb hlt => ?_⟩
  rw [hget, if_pos ⟨hb, hlt⟩]

theorem Consistent.isInput (h : f.Consistent) (hentry : f.entry = .ok entry) {post : List BlockId}
    (hpost : f.flow.IsPostOrder entry post) {preds : Array (List Nat)}
    (hsize : preds.size = f.blocks.size)
    (hpreds : ∀ b data, f.block? b = some data →
      preds[b.index]? = some (data.preds.map fun e => e.block.index)) :
    Tree.IsInput (fun m n => f.Arc ⟨m⟩ ⟨n⟩) entry.index (post.reverse.map BlockId.index) preds := by
  have hinjective : Function.Injective BlockId.index := by
    rintro ⟨m⟩ ⟨n⟩ hmn
    exact congrArg BlockId.mk hmn
  have hnodup : (post.reverse.map BlockId.index).Nodup :=
    (List.nodup_reverse.mpr hpost.nodup).map hinjective
  have hmem : ∀ n, n ∈ post.reverse.map BlockId.index ↔ Reaches f.Arc entry ⟨n⟩ := by
    intro n
    rw [← arc_flow, ← hpost.mem_iff, List.mem_map]
    constructor
    · rintro ⟨b, hb, rfl⟩
      exact List.mem_reverse.mp hb
    · intro hn
      exact ⟨⟨n⟩, List.mem_reverse.mpr hn, rfl⟩
  have hlive : ∀ n, n ∈ post.reverse.map BlockId.index → f.isLiveBlock ⟨n⟩ = true := fun n hn =>
    h.isLiveBlock_of_reaches hentry ((hmem n).mp hn)
  refine ⟨?_, hnodup, fun n => ?_, fun n hn hne => ?_, fun n hn m => ?_, fun n hn => ?_,
    fun n hn m hm => ?_⟩
  · obtain ⟨init, rfl⟩ := List.getLast?_eq_some_iff.mp hpost.getLast?
    exact ⟨init.reverse.map BlockId.index, by simp⟩
  · rw [hmem]
    exact (reaches_index_iff (x := ⟨n⟩)).symm
  · have hmem' : (⟨n⟩ : BlockId) ∈ post := by
      rw [hpost.mem_iff, arc_flow]
      exact (hmem n).mp hn
    obtain ⟨y, hy, hsub⟩ := hpost.entered ⟨n⟩ hmem' fun heq => hne (congrArg BlockId.index heq)
    have hsub : [y.index, n].Sublist (post.reverse.map BlockId.index) :=
      (List.reverse_sublist.mpr hsub).map BlockId.index
    refine ⟨y.index, hsub.mem List.mem_cons_self, ?_, idxOf_lt_of_sublist hnodup hsub⟩
    rwa [arc_flow] at hy
  · obtain ⟨data, hdata⟩ := isLiveBlock_iff.mp (hlive n hn)
    rw [hpreds ⟨n⟩ data hdata, Option.getD_some, ← h.edges.mem_preds_iff_arc hdata]
    simp only [List.mem_map]
    constructor
    · rintro ⟨e, he, rfl⟩
      exact ⟨e, he, rfl⟩
    · rintro ⟨e, he, hblock⟩
      exact ⟨e, he, congrArg BlockId.index hblock⟩
  · rw [hsize]
    exact lt_size_of_isLiveBlock (hlive n hn)
  · rw [hsize]
    exact lt_size_of_isLiveBlock (isLiveBlock_of_arc hm)

theorem Consistent.exists_dominators (h : f.Consistent) (hentry : f.entry = .ok entry) :
    ∃ d, f.dominators = .ok d ∧ d.Represents f.Arc entry := by
  obtain ⟨post, hpost, hisPost⟩ := h.exists_postOrder hentry
  obtain ⟨preds, hrun, hsize, hget⟩ := f.blockTable_eq_ok []
    (fun b => return (← f.predecessors b).map (·.block.index))
    (fun b => ((f.preds? b).getD []).map (·.block.index)) (by
      intro b hb
      obtain ⟨data, hdata⟩ := isLiveBlock_iff.mp ((h.layout.mem_iff b).mp hb)
      rw [predecessors_eq_ok.mpr ⟨data, hdata, rfl⟩, preds?_of hdata]
      rfl)
  have hpreds : ∀ b data, f.block? b = some data →
      preds[b.index]? = some (data.preds.map fun e => e.block.index) := by
    intro b data hb
    have hlive := isLiveBlock_of hb
    rw [hget b ((h.layout.mem_iff b).mpr hlive) (lt_size_of_isLiveBlock hlive), preds?_of hb]
    rfl
  obtain ⟨t, ht, hrepresents⟩ :=
    Dominators.exists_ofOrder f.id (h.isInput hentry hisPost hsize hpreds)
  refine ⟨⟨f.id, t⟩, ?_, hrepresents⟩
  simp only [dominators, hentry, ok_bind, hrun, reversePostOrderFrom, hpost, pure_bind, ht]
  rfl

theorem Consistent.dominates_iff_of_ne (h : f.Consistent) (hentry : f.entry = .ok entry)
    (hbc : b ≠ c) :
    Dominates f.Arc entry b c ↔ f.dominators.map (·.dominates b c) = .ok true := by
  obtain ⟨d, hd, hrepresents⟩ := h.exists_dominators hentry
  rw [hd, Except.map, Except.ok.injEq, hrepresents.dominates_iff, or_iff_right hbc]

end Body

end FlowGraph
