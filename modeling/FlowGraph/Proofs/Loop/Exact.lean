import FlowGraph.Loop.Boundary
import FlowGraph.Proofs.History
import FlowGraph.Proofs.Loop.Fresh

namespace FlowGraph

namespace BlockOrder

variable {order : BlockOrder} {a b c : BlockId} {blocks : List BlockId}

/-- The blocks have numbers in reverse post-order, and the numbers increase. -/
def Ascends (order : BlockOrder) (blocks : List BlockId) : Prop :=
  ∃ numbers : List Nat, blocks.map order.reverseNumber? = numbers.map some ∧ numbers.Pairwise (· < ·)

theorem le_trans (a b c : BlockId) (hab : order.le a b = true) (hbc : order.le b c = true) :
    order.le a c = true := by
  unfold le at hab hbc ⊢
  generalize order.reverseNumber? a = first at hab ⊢
  generalize order.reverseNumber? b = second at hab hbc
  generalize order.reverseNumber? c = third at hbc ⊢
  rcases first with _ | k
  · rfl
  rcases second with _ | m
  · cases hab
  rcases third with _ | n
  · cases hbc
  simp only [decide_eq_true_eq] at hab hbc ⊢
  exact Nat.le_trans hab hbc

theorem le_total (a b : BlockId) : (order.le a b || order.le b a) = true := by
  unfold le
  rcases order.reverseNumber? a with _ | m
  · rfl
  rcases order.reverseNumber? b with _ | n
  · rfl
  simp only [Bool.or_eq_true, decide_eq_true_eq]
  exact Nat.le_total m n

variable (hnodup : order.post.Nodup)
include hnodup

theorem number?_eq_some {n : Nat} : order.number? b = some n ↔ order.post[n]? = some b := by
  rw [number?, List.idxOf?_eq_some_iff, List.getElem?_eq_some_iff]
  constructor
  · rintro ⟨hn, hb, -⟩
    exact ⟨hn, hb⟩
  · rintro ⟨hn, hb⟩
    refine ⟨hn, hb, fun j hj heq => ?_⟩
    exact Nat.ne_of_lt hj (hnodup.getElem_inj_iff.mp (heq.trans hb.symm))

theorem reverseNumber?_of_mem (hb : b ∈ order.post) :
    order.reverseNumber? b = some (order.reverse.idxOf b) := by
  obtain ⟨i, hi, rfl⟩ := List.mem_iff_getElem.mp hb
  have hnumber : order.number? order.post[i] = some i :=
    (number?_eq_some hnodup).mpr (List.getElem?_eq_getElem hi)
  have hlt : order.post.length - 1 - i < order.reverse.length := by
    rw [reverse, List.length_reverse]
    omega
  have hplace : order.reverse[order.post.length - 1 - i] = order.post[i] := by
    simp only [reverse, List.getElem_reverse]
    congr 1
    omega
  rw [reverseNumber?, hnumber, Option.map_some, ← hplace]
  exact congrArg some ((List.nodup_reverse.mpr hnodup).idxOf_getElem _ hlt).symm

theorem pairwise_idxOf (hmem : ∀ b ∈ blocks, b ∈ order.post) (hblocks : blocks.Nodup)
    (hsorted : blocks.Pairwise (order.le · · = true)) :
    blocks.Pairwise fun a b => order.reverse.idxOf a < order.reverse.idxOf b := by
  refine (hsorted.and hblocks).imp_of_mem fun {a b} ha hb hab => ?_
  obtain ⟨hle, hne⟩ := hab
  rw [le, reverseNumber?_of_mem hnodup (hmem a ha), reverseNumber?_of_mem hnodup (hmem b hb)] at hle
  refine Nat.lt_of_le_of_ne (of_decide_eq_true hle) fun heq => hne ?_
  exact (List.idxOf_inj (List.mem_reverse.mpr (hmem a ha))).mp heq

theorem ascends_of_pairwise (hmem : ∀ b ∈ blocks, b ∈ order.post)
    (hblocks : blocks.Pairwise fun a b => order.reverse.idxOf a < order.reverse.idxOf b) :
    order.Ascends blocks := by
  refine ⟨blocks.map order.reverse.idxOf, ?_, List.pairwise_map.mpr hblocks⟩
  rw [List.map_map, List.map_inj_left]
  exact fun b hb => reverseNumber?_of_mem hnodup (hmem b hb)

end BlockOrder

theorem Graph.IsPostOrder.idxOf_lt_of_dominates {α : Type} [DecidableEq α] {g : Graph α}
    {start k h : α} {post : List α} (hpost : g.IsPostOrder start post)
    (hdom : Dominates g.Arc start k h) (hne : k ≠ h) :
    post.reverse.idxOf k < post.reverse.idxOf h := by
  have hh : h ∈ post.reverse := List.mem_reverse.mpr ((hpost.mem_iff h).mpr hdom.reaches)
  obtain ⟨done, rest, hsplit⟩ := List.append_of_mem hh
  have hnodup := List.nodup_reverse.mpr hpost.nodup
  have hk : k ∈ done := hpost.mem_of_dominates hsplit hdom hne
  rw [hsplit] at hnodup ⊢
  have hnot : h ∉ done := notMem_of_nodup_append hnodup
  rw [List.idxOf_append_of_mem hk, List.idxOf_append_of_notMem hnot]
  exact Nat.lt_of_lt_of_le (List.idxOf_lt_length_iff.mpr hk) (Nat.le_add_right _ _)

section Sorted

variable {f : Body} {d : Dominators} {order : BlockOrder} {loops loops' : Array Loop}

theorem sorted_addLoopOf {h : BlockId} (hrun : addLoopOf f d order loops h = .ok loops')
    (hloops : ∀ l ∈ loops, l.blocks.Pairwise (order.le · · = true)) :
    ∀ l ∈ loops', l.blocks.Pairwise (order.le · · = true) := by
  obtain ⟨latches, -, hrun⟩ := bind_eq_ok.mp hrun
  split at hrun
  · cases hrun
    exact hloops
  · obtain ⟨blocks, -, hrun⟩ := bind_eq_ok.mp hrun
    cases hrun
    intro l hl
    rcases Array.mem_push.mp hl with hl | rfl
    · exact hloops l hl
    · exact List.pairwise_mergeSort BlockOrder.le_trans BlockOrder.le_total blocks

theorem sorted_foldlM_addLoopOf {headers : List BlockId}
    (hrun : headers.foldlM (addLoopOf f d order) loops = .ok loops')
    (hloops : ∀ l ∈ loops, l.blocks.Pairwise (order.le · · = true)) :
    ∀ l ∈ loops', l.blocks.Pairwise (order.le · · = true) := by
  induction headers generalizing loops with
  | nil =>
      cases hrun
      exact hloops
  | cons h rest ih =>
      rw [List.foldlM_cons] at hrun
      obtain ⟨next, hnext, hrest⟩ := bind_eq_ok.mp hrun
      exact ih hrest (sorted_addLoopOf hnext hloops)

end Sorted

namespace Body

variable {f : Body} {entry : BlockId} {l : Loop}

theorem ascends_blocks {order : BlockOrder} (hpost : f.flow.IsPostOrder entry order.post)
    (hmem : ∀ x, x ∈ l.blocks ↔ InLoop f.Arc entry l.header x)
    (hheader : InLoop f.Arc entry l.header l.header) (hnodup : l.blocks.Nodup)
    (hsorted : l.blocks.Pairwise (order.le · · = true)) :
    l.blocks.head? = some l.header ∧ order.Ascends l.blocks := by
  have hwalked : ∀ b ∈ l.blocks, b ∈ order.post := by
    intro b hb
    rw [hpost.mem_iff, arc_flow]
    exact ((hmem b).mp hb).reaches
  have hpairwise := BlockOrder.pairwise_idxOf hpost.nodup hwalked hnodup hsorted
  refine ⟨?_, BlockOrder.ascends_of_pairwise hpost.nodup hwalked hpairwise⟩
  have hself : l.header ∈ l.blocks := (hmem l.header).mpr hheader
  rcases hblocks : l.blocks with _ | ⟨first, rest⟩
  · rw [hblocks] at hself
    cases hself
  · rw [hblocks] at hself hpairwise
    rw [List.head?_cons, Option.some.injEq]
    by_contra hne
    -- The header would come after a block that it dominates.
    have hbefore : order.reverse.idxOf first < order.reverse.idxOf l.header :=
      List.rel_of_pairwise_cons hpairwise ((List.mem_cons.mp hself).resolve_left (Ne.symm hne))
    have hdom : Dominates f.flow.Arc entry l.header first := by
      rw [arc_flow]
      refine ((hmem first).mp ?_).dominates
      rw [hblocks]
      exact List.mem_cons_self
    exact Nat.lt_asymm hbefore (hpost.idxOf_lt_of_dominates hdom (Ne.symm hne))

theorem Consistent.exists_loops_ascending {d : Dominators} (hf : f.Consistent)
    (hentry : f.entry = .ok entry) (hd : d.Represents f.Arc entry) :
    ∃ order forest, f.blockOrder = .ok order ∧ f.loops d = .ok forest ∧
      forest.Represents f.Arc entry ∧ ∀ {id l}, forest.loop? id = some l →
        l.blocks.Nodup ∧ l.blocks.head? = some l.header ∧ order.Ascends l.blocks := by
  obtain ⟨order, loops, forest, horder, hpost, hrun, hg, hforest, hsame, hrepresents⟩ :=
    hf.exists_loops_found hentry hd
  refine ⟨order, forest, horder, hforest, hrepresents, ?_⟩
  intro id l hl
  obtain ⟨m, hm, -, hblocks⟩ := hsame.exists_loop? hl
  have hnodup := hg.nodup_blocks hm
  have hsorted := sorted_foldlM_addLoopOf hrun (by simp) m (Array.mem_of_getElem? hm)
  rw [hblocks] at hnodup hsorted
  exact ⟨hnodup, ascends_blocks hpost (hrepresents.mem_blocks hl)
    (hrepresents.heads (LoopForest.header?_of hl)) hnodup hsorted⟩

theorem Consistent.exists_latches (hf : f.Consistent) (hentry : f.entry = .ok entry)
    (hmem : ∀ x, x ∈ l.blocks ↔ InLoop f.Arc entry l.header x)
    (hheader : InLoop f.Arc entry l.header l.header) :
    ∃ latches, l.latches f = .ok latches ∧ latches.Nodup ∧
      ∀ x, x ∈ latches ↔ Latch f.Arc entry l.header x := by
  obtain ⟨data, hdata⟩ := isLiveBlock_iff.mp (hf.isLiveBlock_of_reaches hentry hheader.reaches)
  refine ⟨(data.preds.map Edge.block).eraseDups.filter l.contains, ?_, ?_, fun x => ?_⟩
  · rw [Loop.latches, predBlocks, block_eq_ok.mpr hdata]
    rfl
  · exact (nodup_eraseDups _).filter _
  · rw [List.mem_filter, List.mem_eraseDups, hf.edges.mem_preds_iff_arc hdata, Loop.contains,
      decide_eq_true_iff, hmem]
    constructor
    · rintro ⟨harc, hin⟩
      exact ⟨harc, hin.dominates⟩
    · intro hlatch
      exact ⟨hlatch.arc, hlatch.inLoop⟩

end Body

/-- The loops found in a well-built body with a block are its natural loops, one for each header,
whether or not its cycles have one entry each. -/
theorem WellBuilt.loops_exact {f : Body} (hf : WellBuilt f) (hne : f.layout ≠ []) :
    ∃ d entry order forest, f.dominators = .ok d ∧ f.entry = .ok entry ∧
      f.blockOrder = .ok order ∧ f.loops d = .ok forest ∧
      (forest.loops.toList.map Loop.header).Nodup ∧
      (∀ h, h ∈ forest.loops.toList.map Loop.header ↔
        Reaches f.Arc entry h ∧ ∃ l, f.Arc l h ∧ Dominates f.Arc entry h l) ∧
      ∀ l ∈ forest.loops.toList,
        (∀ x, x ∈ l.blocks ↔ x = l.header ∨ Reaches f.Arc entry x ∧
          ∃ latch, Latch f.Arc entry l.header latch ∧ Path f.Arc (· ≠ l.header) x latch) ∧
        l.blocks.Nodup ∧ l.blocks.head? = some l.header ∧ order.Ascends l.blocks ∧
        (∀ x ∈ l.blocks, Dominates f.Arc entry l.header x) ∧
        (∀ x y, Reaches f.Arc entry x → x ∉ l.blocks → y ∈ l.blocks → f.Arc x y → y = l.header) ∧
        ∃ latches, l.latches f = .ok latches ∧ latches.Nodup ∧
          ∀ x, x ∈ latches ↔ Latch f.Arc entry l.header x := by
  obtain ⟨entry, rest, hlayout⟩ := List.exists_cons_of_ne_nil hne
  have hentry : f.entry = .ok entry := Body.entry_eq_ok.mpr ⟨rest, hlayout⟩
  obtain ⟨d, hd, hdoms⟩ := hf.consistent.exists_dominators hentry
  obtain ⟨order, forest, horder, hforest, h, hlisted⟩ :=
    hf.consistent.exists_loops_ascending hentry hdoms
  refine ⟨d, entry, order, forest, hd, hentry, horder, hforest, h.nodup_headers, fun k => ?_,
    fun l hl => ?_⟩
  · rw [h.mem_headers]
    constructor
    · rintro ⟨l, hl, -⟩
      exact ⟨hl.dominates.reaches_left, l, hl.arc, hl.dominates⟩
    · rintro ⟨-, l, harc, hdom⟩
      exact ⟨l, ⟨harc, hdom⟩, .inl rfl⟩
  · obtain ⟨id, hloop⟩ := LoopForest.mem_loops.mp hl
    have hmem := h.mem_blocks hloop
    have hheader := h.heads (LoopForest.header?_of hloop)
    obtain ⟨hnodup, hfirst, hascends⟩ := hlisted hloop
    refine ⟨fun x => (hmem x).trans (inLoop_iff hheader), hnodup, hfirst, hascends,
      fun x hx => ((hmem x).mp hx).dominates, fun x y hx hout hy harc => ?_,
      hf.consistent.exists_latches hentry hmem hheader⟩
    by_contra hyh
    exact hout ((hmem x).mpr (((hmem y).mp hy).of_arc hyh harc hx))

/-- A loop around two others. One of those has a cycle with two entries in it, the other is a block
that goes back to itself. A block that cannot be reached leads to the outer header. -/
def nestedLoops : Body :=
  replayed [.createBlock, .createBlock, .createBlock, .createBlock, .createBlock, .createBlock,
    .createBlock, .createBlock,
    .appendInstr ⟨0⟩ (.literal .int (.int 1)),
    .setTerminator ⟨0⟩ (.br ⟨1⟩ []),
    .setTerminator ⟨1⟩ (.condBr ⟨0⟩ ⟨2⟩ [] ⟨6⟩ []),
    .setTerminator ⟨2⟩ (.condBr ⟨0⟩ ⟨3⟩ [] ⟨4⟩ []),
    .setTerminator ⟨3⟩ (.condBr ⟨0⟩ ⟨4⟩ [] ⟨2⟩ []),
    .setTerminator ⟨4⟩ (.condBr ⟨0⟩ ⟨3⟩ [] ⟨5⟩ []),
    .setTerminator ⟨5⟩ (.condBr ⟨0⟩ ⟨5⟩ [] ⟨1⟩ []),
    .setTerminator ⟨7⟩ (.br ⟨1⟩ [])]

theorem nestedLoops_dominates_iff {a b : BlockId} (hab : a ≠ b) :
    Dominates nestedLoops.Arc ⟨0⟩ a b ↔ nestedLoops.dominators.map (·.dominates a b) = .ok true :=
  (wellBuilt_replayed _).consistent.dominates_iff_of_ne (by cbv) hab

theorem nestedLoops_latch : Latch nestedLoops.Arc ⟨0⟩ ⟨2⟩ ⟨3⟩ :=
  ⟨⟨1, by cbv⟩, (nestedLoops_dominates_iff (by decide)).mpr (by decide +kernel)⟩

theorem nestedLoops_loops_exact :
    ∃ d forest, nestedLoops.dominators = .ok d ∧ nestedLoops.loops d = .ok forest ∧
      (∃ l ∈ forest.loops.toList, l.blocks.head? = some ⟨2⟩ ∧ ⟨4⟩ ∈ l.blocks ∧ ⟨1⟩ ∉ l.blocks ∧
        ∃ latches, l.latches nestedLoops = .ok latches ∧ ⟨3⟩ ∈ latches) ∧
      ∀ l ∈ forest.loops.toList, l.header ≠ ⟨3⟩ := by
  have hbuilt : WellBuilt nestedLoops := wellBuilt_replayed _
  have hpath : Path nestedLoops.Arc (· ≠ ⟨2⟩) ⟨4⟩ ⟨3⟩ :=
    .step (.root (by decide)) ⟨0, by cbv⟩ (by decide)
  have hreach : Reaches nestedLoops.Arc ⟨0⟩ ⟨4⟩ :=
    nestedLoops_latch.dominates.reaches_left.step ⟨1, by cbv⟩
  obtain ⟨d, entry, order, forest, hd, hentry, -, hforest, -, hheaders, hloops⟩ :=
    WellBuilt.loops_exact hbuilt (by decide +kernel)
  have hfirst : nestedLoops.entry = .ok ⟨0⟩ := by cbv
  cases hfirst.symm.trans hentry
  refine ⟨d, forest, hd, hforest, ?_, fun l hl hthree => ?_⟩
  · obtain ⟨l, hl, hheader⟩ := List.mem_map.mp ((hheaders ⟨2⟩).mpr
      ⟨nestedLoops_latch.dominates.reaches_left, ⟨3⟩, nestedLoops_latch.arc,
        nestedLoops_latch.dominates⟩)
    obtain ⟨hmem, -, hhead, -, hdoms, -, latches, hlatches, -, hlisted⟩ := hloops l hl
    rw [hheader] at hmem hhead hdoms hlisted
    refine ⟨l, hl, hhead, (hmem ⟨4⟩).mpr (.inr ⟨hreach, ⟨3⟩, nestedLoops_latch, hpath⟩),
      fun hone => ?_, latches, hlatches, (hlisted ⟨3⟩).mpr nestedLoops_latch⟩
    exact absurd ((nestedLoops_dominates_iff (by decide)).mp (hdoms ⟨1⟩ hone)) (by decide +kernel)
  · -- The cycle of 3 and 4 is entered at both, so neither dominates the other.
    obtain ⟨-, latch, ⟨e, he⟩, hback⟩ := (hheaders ⟨3⟩).mp (List.mem_map.mpr ⟨l, hl, hthree⟩)
    have hpreds : nestedLoops.preds? ⟨3⟩ = some [⟨⟨2⟩, 0⟩, ⟨⟨4⟩, 0⟩] := by cbv
    have hmem := (hbuilt.consistent.edges.mem_preds hpreds).mpr he
    simp only [List.mem_cons, List.not_mem_nil, or_false, Edge.mk.injEq] at hmem
    rcases hmem with ⟨rfl, -⟩ | ⟨rfl, -⟩
    · exact absurd ((nestedLoops_dominates_iff (by decide)).mp hback) (by decide +kernel)
    · exact absurd ((nestedLoops_dominates_iff (by decide)).mp hback) (by decide +kernel)

end FlowGraph
