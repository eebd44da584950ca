import FlowGraph.Edit.Merge
import FlowGraph.Proofs.Dominance.Patch
import FlowGraph.Proofs.Loop.Patch

namespace FlowGraph

/-- There are numbers for `n` more blocks and values. -/
def Body.HasRoom (f : Body) (n : Nat) : Prop :=
  f.blocks.size + n ≤ slotLimit ∧ f.values.size + n ≤ slotLimit

namespace Tracked

variable {t t' t'' : Tracked} {b source dest mid succ entry : BlockId} {e m n : Nat} {α β : Type}

/-- The body is valid, and the analyses that are given represent it. -/
structure Sound (t : Tracked) : Prop where
  consistent : t.body.Consistent
  valid : t.body.Valid
  dominators : ∀ {d entry}, t.dominators = some d → t.body.entry = .ok entry →
    d.Represents t.body.Arc entry
  loops : ∀ {forest entry}, t.loops = some forest → t.body.entry = .ok entry →
    forest.Represents t.body.Arc entry

/-- A sound tracked body that has the same analyses. -/
structure Keeps (t t' : Tracked) : Prop where
  sound : t'.Sound
  dominators : t'.dominators.isSome = t.dominators.isSome
  loops : t'.loops.isSome = t.loops.isSome

theorem Keeps.refl (ht : t.Sound) : t.Keeps t := ⟨ht, rfl, rfl⟩

theorem Keeps.trans (h : t.Keeps t') (h' : t'.Keeps t'') : t.Keeps t'' :=
  ⟨h'.sound, h'.dominators.trans h.dominators, h'.loops.trans h.loops⟩

theorem Sound.splitEdge_cases (ht : t.Sound) (htarget : t.body.target? ⟨b, e⟩ = some dest) :
    (∃ t', t.splitEdge b e = .ok (t.body.nextBlock, t') ∧ t.Keeps t' ∧
        t.body.IsSplit t'.body b e t.body.nextBlock dest) ∨
      ∃ space, t.splitEdge b e = .error (.idOverflow space) ∧ ¬ t.body.HasRoom 1 := by
  obtain ⟨term, hterm, hdest⟩ := Body.target?_eq_some.mp htarget
  obtain ⟨entry, hentry⟩ := ht.valid.exists_entry
  rw [splitEdge, Body.terminator_eq_ok.mpr (Body.terminator?_eq_some.mp hterm), ok_bind,
    Terminator.successor_eq_ok.mpr hdest, ok_bind]
  rcases ht.valid.splitEdge_cases ht.consistent htarget with ⟨g, hsplit, hg⟩ | ⟨space, hfail, hfull⟩
  · left
    have hdetour := hg.detour ht.consistent htarget hentry
    obtain ⟨dominators, hrun, hpresent, hfollow⟩ := exists_mapM
      (k := fun d => d.afterSplit g b t.body.nextBlock dest) (P := (·.Represents g.Arc entry))
      fun d hd => hg.exists_afterSplit ht.consistent htarget hentry (ht.dominators hd hentry)
    obtain ⟨loops, hloops, hkept, hforests⟩ := exists_mapM
      (k := fun forest => forest.afterSplit b t.body.nextBlock dest) (P := (·.Represents g.Arc entry))
      fun forest hforest => (ht.loops hforest hentry).exists_afterSplit hdetour
        ⟨0, hg.target?_new htarget⟩
    refine ⟨⟨g, dominators, loops⟩, ?_, ⟨⟨hg.consistent, hg.valid, ?_, ?_⟩, hpresent, hkept⟩, hg⟩
    · rw [hsplit, ok_bind]
      simp only [hrun, hloops, ok_bind]
      rfl
    · intro d start hd hstart
      cases hentry.symm.trans (hg.entry.mp hstart)
      exact hfollow d hd
    · intro forest start hforest hstart
      cases hentry.symm.trans (hg.entry.mp hstart)
      exact hforests forest hforest
  · right
    refine ⟨space, ?_, ?_⟩
    · rw [hfail]
      rfl
    · rintro ⟨hblocks, hvalues⟩
      omega

theorem Sound.exists_mergeWithSuccessor (ht : t.Sound) (hb : t.body.isLiveBlock b = true) :
    ∃ merged t', t.mergeWithSuccessor b = .ok (merged, t') ∧ t.Keeps t' ∧
      Relation.ReflTransGen Body.MergeOnce t.body t'.body := by
  obtain ⟨entry, hentry⟩ := ht.valid.exists_entry
  rcases ht.consistent.mergeWithSuccessor_cases ht.valid hb with
    ⟨refusal, hrefused⟩ | ⟨succ, g, hmerge, hg⟩
  · refine ⟨false, t, ?_, .refl ht, .refl⟩
    rw [mergeWithSuccessor, hrefused]
    rfl
  · have hgone := hg.contraction hentry
    obtain ⟨loops, hrun, hpresent, hfollow⟩ := exists_mapM
      (k := fun forest => forest.removeBlock succ) (P := (·.Represents g.Arc entry))
      fun forest hforest => (ht.loops hforest hentry).exists_removeBlock hgone.sameLoops
        fun h => hgone.not_inLoop_of_gone
    refine ⟨true, ⟨g, t.dominators.map fun d => d.erase succ, loops⟩, ?_,
      ⟨⟨hg.consistent, hg.valid, ?_, ?_⟩, ?_, hpresent⟩, .single ⟨b, succ, hmerge⟩⟩
    · rw [mergeWithSuccessor, hmerge, ok_bind]
      simp only [hrun, ok_bind]
      rfl
    · intro d start hd hstart
      cases hentry.symm.trans (hg.entry.mp hstart)
      obtain ⟨old, hold, rfl⟩ := Option.map_eq_some_iff.mp hd
      exact (ht.dominators hold hentry).erase hgone
    · intro forest start hforest hstart
      cases hentry.symm.trans (hg.entry.mp hstart)
      exact hfollow forest hforest
    · rw [Option.isSome_map]

/-- Blocks were put on edges, at most `n` of them. -/
structure Grows (n : Nat) (t t' : Tracked) : Prop where
  keeps : t.Keeps t'
  splits : Relation.ReflTransGen Body.SplitOnce t.body t'.body
  live : ∀ {c}, t.body.isLiveBlock c = true → t'.body.isLiveBlock c = true
  edges : ∀ {c}, t.body.isLiveBlock c = true →
    ∀ k, (t'.body.target? ⟨c, k⟩).isSome = (t.body.target? ⟨c, k⟩).isSome
  size_blocks : t'.body.blocks.size ≤ t.body.blocks.size + n
  size_values : t'.body.values.size ≤ t.body.values.size + n

theorem Grows.refl (ht : t.Sound) : t.Grows 0 t :=
  ⟨.refl ht, .refl, id, fun _ _ => rfl, Nat.le_refl _, Nat.le_refl _⟩

theorem Grows.trans (h : t.Grows n t') (h' : t'.Grows m t'') : t.Grows (n + m) t'' where
  keeps := h.keeps.trans h'.keeps
  splits := h.splits.trans h'.splits
  live hc := h'.live (h.live hc)
  edges hc k := (h'.edges (h.live hc) k).trans (h.edges hc k)
  size_blocks := by
    have := h.size_blocks
    have := h'.size_blocks
    omega
  size_values := by
    have := h.size_values
    have := h'.size_values
    omega

/-- The computation puts at most `n` blocks on edges, or lacks the numbers for them. -/
def Splits (n : Nat) (t : Tracked) (x : Except Fault (α × Tracked)) : Prop :=
  (∃ a t', x = .ok (a, t') ∧ t.Grows n t') ∨
    ∃ space, x = .error (.idOverflow space) ∧ ¬ t.body.HasRoom n

theorem Splits.pure (ht : t.Sound) (a : α) : Splits 0 t (.ok (a, t)) := .inl ⟨a, t, rfl, .refl ht⟩

theorem Splits.bind {x : Except Fault (α × Tracked)} {k : α × Tracked → Except Fault (β × Tracked)}
    (hx : Splits n t x) (hk : ∀ a t', t.Grows n t' → Splits m t' (k (a, t'))) :
    Splits (n + m) t (x >>= k) := by
  rcases hx with ⟨a, t', rfl, hgrows⟩ | ⟨space, rfl, hroom⟩
  · rw [ok_bind]
    rcases hk a t' hgrows with ⟨c, t'', hrun, hgrows'⟩ | ⟨space, hrun, hroom⟩
    · exact .inl ⟨c, t'', hrun, hgrows.trans hgrows'⟩
    · refine .inr ⟨space, hrun, fun hroom' => hroom ?_⟩
      have := hgrows.size_blocks
      have := hgrows.size_values
      obtain ⟨hblocks, hvalues⟩ := hroom'
      constructor <;> omega
  · refine .inr ⟨space, rfl, fun hroom' => hroom ?_⟩
    obtain ⟨hblocks, hvalues⟩ := hroom'
    constructor <;> omega

theorem Splits.map {x : Except Fault (α × Tracked)} {k : α × Tracked → Except Fault (β × Tracked)}
    (hx : Splits n t x) (hk : ∀ a t', ∃ c, k (a, t') = .ok (c, t')) : Splits n t (x >>= k) := by
  refine hx.bind (m := 0) fun a t' hgrows => ?_
  obtain ⟨c, hc⟩ := hk a t'
  rw [hc]
  exact .pure hgrows.keeps.sound c

theorem Splits.mono {x : Except Fault (α × Tracked)} (hx : Splits n t x) (hle : n ≤ m) :
    Splits m t x := by
  rcases hx with ⟨a, t', hrun, hgrows⟩ | ⟨space, hrun, hroom⟩
  · refine .inl ⟨a, t', hrun, { hgrows with size_blocks := ?_, size_values := ?_ }⟩
    · exact Nat.le_trans hgrows.size_blocks (Nat.add_le_add_left hle _)
    · exact Nat.le_trans hgrows.size_values (Nat.add_le_add_left hle _)
  · refine .inr ⟨space, hrun, fun hroom' => hroom ?_⟩
    obtain ⟨hblocks, hvalues⟩ := hroom'
    constructor <;> omega

theorem Sound.splits_splitEdge (ht : t.Sound)
    (hedge : (t.body.target? ⟨b, e⟩).isSome = true) : Splits 1 t (t.splitEdge b e) := by
  obtain ⟨dest, htarget⟩ := Option.isSome_iff_exists.mp hedge
  rcases ht.splitEdge_cases htarget with ⟨t', hrun, hkeeps, hsplit⟩ | hfail
  · refine .inl ⟨_, t', hrun, hkeeps, .single ⟨b, e, _, dest, hsplit⟩,
      fun hc => (hsplit.live _).mpr (.inr hc), fun hc k => ?_, Nat.le_of_eq hsplit.size_blocks,
      hsplit.size_values⟩
    rw [hsplit.target]
    split
    · rename_i heq
      rw [heq, htarget]
      rfl
    · split
      · rename_i heq
        cases heq
        rw [hsplit.fresh] at hc
        cases hc
      · rfl
  · exact .inr hfail

theorem Sound.exists_isCriticalEdge (ht : t.Sound)
    (hedge : (t.body.target? ⟨b, e⟩).isSome = true) :
    ∃ critical, t.body.isCriticalEdge b e = .ok critical := by
  obtain ⟨dest, htarget⟩ := Option.isSome_iff_exists.mp hedge
  obtain ⟨term, hterm, hdest⟩ := Body.target?_eq_some.mp htarget
  obtain ⟨data, hdata⟩ := Body.isLiveBlock_iff.mp (ht.consistent.edges.live_target htarget)
  rw [Body.isCriticalEdge, Body.terminator_eq_ok.mpr (Body.terminator?_eq_some.mp hterm), ok_bind,
    Terminator.successor_eq_ok.mpr hdest, ok_bind, Body.predecessors_eq_ok.mpr ⟨data, hdata, rfl⟩,
    ok_bind]
  split <;> exact ⟨_, rfl⟩

theorem Sound.splits_splitCriticalEdge (ht : t.Sound)
    (hedge : (t.body.target? ⟨b, e⟩).isSome = true) : Splits 1 t (t.splitCriticalEdge b e) := by
  obtain ⟨critical, hcritical⟩ := ht.exists_isCriticalEdge hedge
  rw [splitCriticalEdge, hcritical, ok_bind]
  split
  · exact (ht.splits_splitEdge hedge).map fun mid t' => ⟨some mid, rfl⟩
  · exact (Splits.pure ht none).mono (Nat.zero_le 1)

theorem mem_edgesTo {successors : List BlockId} :
    e ∈ Body.edgesTo dest successors ↔ successors[e]? = some dest := by
  simp [Body.edgesTo, List.mem_zipIdx_iff_getElem?]

theorem exists_successors {f : Body} (hb : f.isLiveBlock b = true) :
    ∃ successors, f.successors b = .ok successors ∧
      (f.edgesFrom b).length = successors.length ∧ ∀ k, f.target? ⟨b, k⟩ = successors[k]? := by
  obtain ⟨data, hdata⟩ := Body.isLiveBlock_iff.mp hb
  refine ⟨data.successors, Body.successors_eq_ok.mpr ⟨data, hdata, rfl⟩, ?_, fun k => ?_⟩
  · rw [Body.edgesFrom, hdata]
    simp
  · rw [Body.target?, Body.terminator?_of hdata, Block.successors]
    rcases data.terminator with _ | term <;> rfl

theorem Grows.length_edgesFrom (h : t.Grows n t') (hb : t.body.isLiveBlock b = true) :
    (t'.body.edgesFrom b).length = (t.body.edgesFrom b).length := by
  obtain ⟨successors, -, hlength, htarget⟩ := exists_successors hb
  obtain ⟨successors', -, hlength', htarget'⟩ := exists_successors (h.live hb)
  have hsame : ∀ k, k < successors'.length ↔ k < successors.length := by
    intro k
    have := h.edges hb k
    rw [htarget, htarget', Bool.eq_iff_iff] at this
    simpa using this
  rw [hlength, hlength']
  exact Nat.le_antisymm (Nat.le_of_not_lt fun hlt => Nat.lt_irrefl _ ((hsame _).mp hlt))
    (Nat.le_of_not_lt fun hlt => Nat.lt_irrefl _ ((hsame _).mpr hlt))

theorem exists_findM? {l : List Nat} {p : Nat → Except Fault Bool}
    (hp : ∀ e ∈ l, ∃ found, p e = .ok found) :
    ∃ result, l.findM? p = .ok result ∧ ∀ e, result = some e → e ∈ l := by
  induction l with
  | nil => exact ⟨none, rfl, fun e he => by cases he⟩
  | cons e rest ih =>
      rw [List.forall_mem_cons] at hp
      obtain ⟨found, hfound⟩ := hp.1
      obtain ⟨result, hrun, hmem⟩ := ih hp.2
      rw [List.findM?, hfound, ok_bind]
      rcases found with _ | _
      · exact ⟨result, hrun, fun e he => List.mem_cons_of_mem _ (hmem e he)⟩
      · exact ⟨some e, rfl, fun e' he => Option.some.inj he ▸ List.mem_cons_self⟩

section

variable (ht : t.Sound)
include ht

theorem Sound.splits_splitCriticalEdgeTo (hsource : t.body.isLiveBlock source = true) (dest : BlockId) :
    Splits 1 t (t.splitCriticalEdgeTo source dest) := by
  obtain ⟨successors, hrun, -, htarget⟩ := exists_successors hsource
  have hedges : ∀ e ∈ Body.edgesTo dest successors, (t.body.target? ⟨source, e⟩).isSome = true := by
    intro e he
    rw [htarget, mem_edgesTo.mp he]
    rfl
  obtain ⟨found, hfind, hmem⟩ :=
    exists_findM? fun e he => ht.exists_isCriticalEdge (hedges e he)
  rw [splitCriticalEdgeTo, hrun, ok_bind]
  simp only [hfind, ok_bind]
  rcases found with _ | e
  · exact (Splits.pure ht none).mono (Nat.zero_le 1)
  · exact (ht.splits_splitEdge (hedges e (hmem e rfl))).map fun mid t' => ⟨some mid, rfl⟩

theorem Sound.splits_splitEach (hb : t.body.isLiveBlock b = true) {edges : List Nat}
    (hedges : ∀ e ∈ edges, (t.body.target? ⟨b, e⟩).isSome = true) :
    Splits edges.length t (t.splitEach b edges) := by
  induction edges generalizing t with
  | nil => exact .pure ht []
  | cons e rest ih =>
      rw [List.forall_mem_cons] at hedges
      rw [splitEach, List.length_cons, Nat.add_comm]
      refine (ht.splits_splitEdge hedges.1).bind fun mid t' hgrows => ?_
      refine (ih hgrows.keeps.sound (hgrows.live hb) fun k hk => ?_).map fun mids t'' => ⟨_, rfl⟩
      rw [hgrows.edges hb]
      exact hedges.2 k hk

theorem Sound.splits_splitEdgesTo (hsource : t.body.isLiveBlock source = true) (dest : BlockId) :
    Splits (t.body.edgesFrom source).length t (t.splitEdgesTo source dest) := by
  obtain ⟨successors, hrun, hlength, htarget⟩ := exists_successors hsource
  rw [splitEdgesTo, hrun, ok_bind]
  refine (ht.splits_splitEach hsource fun e he => ?_).mono ?_
  · rw [htarget, mem_edgesTo.mp he]
    rfl
  · rw [hlength, Body.edgesTo, List.length_map, ← List.length_zipIdx (l := successors)]
    exact List.length_filter_le _ _

theorem Sound.splits_splitCriticalEach (hb : t.body.isLiveBlock b = true) {edges : List Nat}
    (hedges : ∀ e ∈ edges, (t.body.target? ⟨b, e⟩).isSome = true) :
    Splits edges.length t (t.splitCriticalEach b edges) := by
  induction edges generalizing t with
  | nil => exact .pure ht false
  | cons e rest ih =>
      rw [List.forall_mem_cons] at hedges
      rw [splitCriticalEach, List.length_cons, Nat.add_comm]
      refine (ht.splits_splitCriticalEdge hedges.1).bind fun mid t' hgrows => ?_
      refine (ih hgrows.keeps.sound (hgrows.live hb) fun k hk => ?_).map fun changed t'' => ⟨_, rfl⟩
      rw [hgrows.edges hb]
      exact hedges.2 k hk

theorem Sound.splits_splitCriticalFrom {blocks : List BlockId}
    (hblocks : ∀ b ∈ blocks, t.body.isLiveBlock b = true) :
    Splits (blocks.flatMap t.body.edgesFrom).length t (t.splitCriticalFrom blocks) := by
  induction blocks generalizing t with
  | nil => exact .pure ht false
  | cons b rest ih =>
      rw [List.forall_mem_cons] at hblocks
      obtain ⟨successors, hrun, hlength, htarget⟩ := exists_successors hblocks.1
      rw [splitCriticalFrom, hrun, ok_bind, List.flatMap_cons, List.length_append]
      have hedges : ∀ e ∈ List.range successors.length,
          (t.body.target? ⟨b, e⟩).isSome = true := by
        intro e he
        rw [htarget]
        simpa using he
      have hhere := ht.splits_splitCriticalEach hblocks.1 hedges
      rw [List.length_range] at hhere
      rw [hlength]
      refine hhere.bind fun here t' hgrows => ?_
      have hsame : (rest.flatMap t'.body.edgesFrom).length =
          (rest.flatMap t.body.edgesFrom).length := by
        rw [List.length_flatMap, List.length_flatMap]
        refine congrArg List.sum (List.map_congr_left fun c hc => ?_)
        exact hgrows.length_edgesFrom (hblocks.2 c hc)
      rw [← hsame]
      exact (ih hgrows.keeps.sound fun c hc => hgrows.live (hblocks.2 c hc)).map
        fun there t'' => ⟨_, rfl⟩

theorem Sound.splits_splitAllCriticalEdges :
    Splits t.body.edgeTargets.length t t.splitAllCriticalEdges :=
  ht.splits_splitCriticalFrom fun b hb => (ht.consistent.layout.mem_iff b).mp hb

end

end Tracked

end FlowGraph
