import FlowGraph.Proofs.Dominance.Exact
import FlowGraph.Proofs.PostDominance.Fresh

/-!
The answers of a post-dominator tree in terms of ways out of a body. A way out leads from a block to
an exit, and the post-dominators of a block are the blocks on all its ways out. In the control flow
turned round a way out is a way from the sink, so post-dominance is dominance there; the sink itself
dominates everything and is on no way out, which is why two blocks can be without a common
post-dominator.
-/

namespace FlowGraph

namespace Body

variable {f : Body} {P : BlockId → Prop} {a b p x : BlockId} {s : Set BlockId}

/-- `way` lists the blocks passed on a way from `b` to an exit. -/
def IsWayOut (f : Body) (b : BlockId) (way : List BlockId) : Prop :=
  ∃ x, f.isExit x = true ∧ IsWay f.Arc b x way

/-- The blocks on every way from `b` to an exit, if there is one. -/
def postDominatorsOf (f : Body) (b : BlockId) : Set BlockId :=
  {a | (∃ way, f.IsWayOut b way) ∧ ∀ way, f.IsWayOut b way → a ∈ way}

/-- `p` is in `s`, and all of `s` post-dominates it. -/
def IsNearestOut (f : Body) (s : Set BlockId) (p : BlockId) : Prop :=
  p ∈ s ∧ ∀ q ∈ s, q ∈ f.postDominatorsOf p

/-- The answer is the nearest of the blocks in `s`; there is none only if `s` is empty. -/
def Answers (f : Body) (answer : Option BlockId) (s : Set BlockId) : Prop :=
  (∀ p, answer = some p ↔ f.IsNearestOut s p) ∧ (answer = none ↔ s = ∅)

theorem answers_none (f : Body) : f.Answers none ∅ :=
  ⟨fun _ => iff_of_false nofun fun h => h.1, iff_of_true rfl rfl⟩

theorem exists_wayOut_iff :
    (∃ way, f.IsWayOut b way ∧ ∀ y ∈ way, P y) ↔ ∃ x, f.isExit x = true ∧ Path f.Arc P b x := by
  constructor
  · rintro ⟨way, ⟨x, hx, hway⟩, hP⟩
    exact ⟨x, hx, exists_way_iff_path.mp ⟨way, hway, hP⟩⟩
  · rintro ⟨x, hx, hpath⟩
    obtain ⟨way, hway, hP⟩ := exists_way_iff_path.mpr hpath
    exact ⟨way, ⟨x, hx, hway⟩, hP⟩

theorem mem_postDominatorsOf_iff_avoid :
    a ∈ f.postDominatorsOf b ↔
      (∃ way, f.IsWayOut b way) ∧ ¬ ∃ way, f.IsWayOut b way ∧ ∀ y ∈ way, y ≠ a := by
  rw [postDominatorsOf, Set.mem_ofPred_eq]
  apply and_congr_right
  intro _
  constructor
  · rintro hall ⟨way, hway, havoid⟩
    exact havoid a (hall way hway) rfl
  · intro hnone way hway
    by_contra ha
    exact hnone ⟨way, hway, fun y hy heq => ha (heq ▸ hy)⟩

theorem exists_live_wayOut (h : ∃ way, f.IsWayOut b way) :
    ∃ way, f.IsWayOut b way ∧ ∀ y ∈ way, f.isLiveBlock y = true := by
  have hlive : ∀ {x}, Reaches f.Arc b x → f.isLiveBlock x = true →
      Path f.Arc (fun y => f.isLiveBlock y = true) b x := by
    intro x hpath
    induction hpath with
    | root _ => exact fun hb => .root hb
    | step _ harc _ ih => exact (ih (isLiveBlock_of_arc harc)).step harc
  obtain ⟨way, x, hexit, hway⟩ := h
  rw [exists_wayOut_iff]
  exact ⟨x, hexit, hlive (exists_way_iff.mp ⟨way, hway⟩) (isLiveBlock_of_isExit hexit)⟩

theorem isLiveBlock_of_isWayOut {way : List BlockId} (h : f.IsWayOut b way) :
    f.isLiveBlock b = true := by
  obtain ⟨live, ⟨x, -, hway⟩, hlive⟩ := exists_live_wayOut ⟨way, h⟩
  exact hlive b (List.mem_of_mem_head? hway.first)

theorem isLiveBlock_of_mem_postDominatorsOf (h : a ∈ f.postDominatorsOf b) :
    f.isLiveBlock a = true := by
  obtain ⟨way, hway, hlive⟩ := exists_live_wayOut h.1
  exact hlive a (h.2 way hway)

section Back

variable (hf : f.EdgesListed)
include hf

theorem path_back_iff (hP : P f.sink) (hb : b ≠ f.sink) :
    Path f.Back P f.sink b ↔ ∃ way, f.IsWayOut b way ∧ ∀ y ∈ way, P y := by
  rw [exists_wayOut_iff]
  constructor
  · intro hpath
    induction hpath with
    | root _ => exact absurd rfl hb
    | @step x y hpath hback hy ih =>
        rcases hback with harc | ⟨-, hexit⟩
        · obtain ⟨z, hz, hrest⟩ := ih (ne_sink_of_isLiveBlock (hf.isLiveBlock_of_arc harc))
          exact ⟨z, hz, hrest.head hy harc⟩
        · exact ⟨y, hexit, .root hy⟩
  · rintro ⟨x, hexit, hpath⟩
    have hout : Path f.Back P f.sink x := .step (.root hP) (.inr ⟨rfl, hexit⟩) hpath.last
    -- The way is taken up from its end: each block is entered from the one that it leads to.
    clear hexit
    induction hpath with
    | root _ => exact hout
    | step hpath harc _ ih => exact ih (hout.step (.inl harc) hpath.last)

theorem reaches_back_iff (hb : b ≠ f.sink) :
    Reaches f.Back f.sink b ↔ ∃ way, f.IsWayOut b way := by
  rw [Reaches, path_back_iff hf trivial hb]
  simp

/-- Among blocks, dominance in the control flow turned round is post-dominance. -/
theorem dominates_back_iff (ha : a ≠ f.sink) (hb : b ≠ f.sink) :
    Dominates f.Back f.sink a b ↔ a ∈ f.postDominatorsOf b := by
  rw [Dominates, reaches_back_iff hf hb, Evades, path_back_iff hf ha.symm hb,
    mem_postDominatorsOf_iff_avoid]

theorem mem_postDominatorsOf (hb : b ≠ f.sink) :
    a ∈ f.postDominatorsOf b ↔ a ∈ dominatorsOf f.Back f.sink b ∧ a ≠ f.sink := by
  rw [mem_dominatorsOf]
  constructor
  · intro ha
    have hne : a ≠ f.sink := ne_sink_of_isLiveBlock (isLiveBlock_of_mem_postDominatorsOf ha)
    exact ⟨(dominates_back_iff hf hne hb).mpr ha, hne⟩
  · rintro ⟨hdom, hne⟩
    exact (dominates_back_iff hf hne hb).mp hdom

theorem isNearestOut_iff {t : Set BlockId} {c : BlockId} (hc : IsNearest f.Back f.sink t c)
    (hs : ∀ q, q ∈ s ↔ q ∈ t ∧ q ≠ f.sink) : f.IsNearestOut s p ↔ p ≠ f.sink ∧ c = p := by
  constructor
  · rintro ⟨hp, hall⟩
    obtain ⟨hpt, hne⟩ := (hs p).mp hp
    have hpc : Dominates f.Back f.sink p c := mem_dominatorsOf.mp (hc.2 p hpt)
    have hcne : c ≠ f.sink := by
      rintro rfl
      exact hne hpc.eq_root
    have hcp := (dominates_back_iff hf hcne hne).mpr (hall c ((hs c).mpr ⟨hc.1, hcne⟩))
    exact ⟨hne, hcp.antisymm hpc⟩
  · rintro ⟨hne, rfl⟩
    refine ⟨(hs c).mpr ⟨hc.1, hne⟩, fun q hq => ?_⟩
    obtain ⟨hqt, hqne⟩ := (hs q).mp hq
    exact (mem_postDominatorsOf hf hne).mpr ⟨hc.2 q hqt, hqne⟩

theorem answers_of_isNearest {answer : Option BlockId} {t : Set BlockId} {c : BlockId}
    (hc : IsNearest f.Back f.sink t c) (hs : ∀ q, q ∈ s ↔ q ∈ t ∧ q ≠ f.sink)
    (hanswer : ∀ p, answer = some p ↔ p ≠ f.sink ∧ c = p) : f.Answers answer s := by
  constructor
  · intro p
    rw [hanswer, isNearestOut_iff hf hc hs]
  · rw [Set.eq_empty_iff_forall_notMem]
    constructor
    · rintro hnone q hq
      obtain ⟨hqt, hne⟩ := (hs q).mp hq
      have hcne : c ≠ f.sink := by
        rintro rfl
        exact hne (mem_dominatorsOf.mp (hc.2 q hqt)).eq_root
      rw [(hanswer c).mpr ⟨hcne, rfl⟩] at hnone
      cases hnone
    · intro hempty
      apply Option.eq_none_iff_forall_ne_some.mpr
      intro p hp
      obtain ⟨hne, rfl⟩ := (hanswer p).mp hp
      exact hempty c ((hs c).mpr ⟨hc.1, hne⟩)

end Back

end Body

namespace PostDominators.Represents

variable {d : PostDominators} {f : Body} {a b c p : BlockId} {n : Nat} (h : d.Represents f)
include h

theorem node?_eq_some : d.node? b = some n ↔ b.index < f.blocks.size ∧ b.index = n := by
  simp [node?, h.sink, Option.ite_none_right_eq_some]

theorem node?_eq_none (hb : ¬ b.index < f.blocks.size) : d.node? b = none := by
  rw [node?, h.sink, if_neg hb]

theorem block?_eq_some : d.block? n = some b ↔ b ≠ f.sink ∧ b.index = n := by
  rw [block?, h.sink, Option.ite_none_left_eq_some, Option.some.injEq, ← Body.blockId_ext, ne_eq,
    ← Body.blockId_ext]
  constructor
  · rintro ⟨hne, rfl⟩
    exact ⟨hne, rfl⟩
  · rintro ⟨hne, rfl⟩
    exact ⟨hne, rfl⟩

theorem ipdom?_iff_turned :
    d.ipdom? b = some p ↔ b.index < f.blocks.size ∧ p ≠ f.sink ∧ d.turned.idom? b = some p := by
  simp only [ipdom?, bind, Option.bind_eq_some_iff, h.node?_eq_some, h.block?_eq_some,
    Dominators.idom?_eq_some]
  constructor
  · rintro ⟨_, ⟨hb, rfl⟩, _, hp, hne, rfl⟩
    exact ⟨hb, hne, hp⟩
  · rintro ⟨hb, hne, hp⟩
    exact ⟨_, ⟨hb, rfl⟩, _, hp, hne, rfl⟩

theorem nearestCommon?_iff_turned :
    d.nearestCommon? a b = some c ↔ a.index < f.blocks.size ∧ b.index < f.blocks.size ∧
      c ≠ f.sink ∧ d.turned.nearestCommon? a b = some c := by
  simp only [nearestCommon?, Dominators.nearestCommon?, bind, Option.bind_eq_some_iff,
    h.node?_eq_some, h.block?_eq_some, Option.map_eq_some_iff]
  constructor
  · rintro ⟨_, ⟨ha, rfl⟩, _, ⟨hb, rfl⟩, _, hc, hne, rfl⟩
    exact ⟨ha, hb, hne, c.index, hc, rfl⟩
  · rintro ⟨ha, hb, hne, _, hc, rfl⟩
    exact ⟨_, ⟨ha, rfl⟩, _, ⟨hb, rfl⟩, _, hc, hne, rfl⟩

variable (hf : f.Consistent)
include hf

theorem reachesExit_iff_reaches :
    d.reachesExit b = true ↔ b ≠ f.sink ∧ Reaches f.Back f.sink b := by
  rcases Classical.em (b.index < f.blocks.size) with hb | hb
  · rw [reachesExit, h.node?_eq_some.mpr ⟨hb, rfl⟩]
    change d.turned.isReachable b = true ↔ _
    rw [h.turned.isReachable_iff]
    exact (and_iff_right (Body.ne_sink_of_lt hb)).symm
  · rw [reachesExit, h.node?_eq_none hb]
    refine iff_of_false Bool.false_ne_true ?_
    rintro ⟨hne, hreach⟩
    obtain ⟨way, hway⟩ := (Body.reaches_back_iff hf.edges hne).mp hreach
    exact hb (Body.lt_size_of_isLiveBlock (Body.isLiveBlock_of_isWayOut hway))

theorem reachesExit_iff :
    d.reachesExit b = true ↔ f.isLiveBlock b = true ∧ ∃ way, f.IsWayOut b way := by
  rw [h.reachesExit_iff_reaches hf]
  constructor
  · rintro ⟨hne, hreach⟩
    obtain ⟨way, hway⟩ := (Body.reaches_back_iff hf.edges hne).mp hreach
    exact ⟨Body.isLiveBlock_of_isWayOut hway, way, hway⟩
  · rintro ⟨hlive, hways⟩
    have hne := Body.ne_sink_of_isLiveBlock hlive
    exact ⟨hne, (Body.reaches_back_iff hf.edges hne).mpr hways⟩

theorem postDominatorsOf_eq_empty (hb : d.reachesExit b = false) : f.postDominatorsOf b = ∅ := by
  rw [Set.eq_empty_iff_forall_notMem]
  rintro a ⟨⟨way, hway⟩, -⟩
  have hlive := Body.isLiveBlock_of_isWayOut hway
  rw [(h.reachesExit_iff hf).mpr ⟨hlive, way, hway⟩] at hb
  cases hb

theorem postDominates_iff :
    d.postDominates a b = true ↔ a = b ∨ a ∈ f.postDominatorsOf b := by
  have hlt : a ∈ f.postDominatorsOf b → a.index < f.blocks.size ∧ b.index < f.blocks.size := by
    intro ha
    obtain ⟨way, hway⟩ := ha.1
    exact ⟨Body.lt_size_of_isLiveBlock (Body.isLiveBlock_of_mem_postDominatorsOf ha),
      Body.lt_size_of_isLiveBlock (Body.isLiveBlock_of_isWayOut hway)⟩
  rw [postDominates]
  rcases Classical.em (a.index < f.blocks.size) with ha | ha
  · rcases Classical.em (b.index < f.blocks.size) with hb | hb
    · rw [h.node?_eq_some.mpr ⟨ha, rfl⟩, h.node?_eq_some.mpr ⟨hb, rfl⟩]
      change d.turned.dominates a b = true ↔ _
      rw [h.turned.dominates_iff,
        Body.dominates_back_iff hf.edges (Body.ne_sink_of_lt ha) (Body.ne_sink_of_lt hb)]
    · have hnot : a ∉ f.postDominatorsOf b := fun hab => hb (hlt hab).2
      rw [h.node?_eq_none hb]
      simp [hnot]
  · have hnot : a ∉ f.postDominatorsOf b := fun hab => ha (hlt hab).1
    rw [h.node?_eq_none ha]
    simp [hnot]

theorem answers_ipdom? : f.Answers (d.ipdom? b) (f.postDominatorsOf b \ {b}) := by
  rcases hb : d.reachesExit b with _ | _
  · have hnone : d.ipdom? b = none := by
      apply Option.eq_none_iff_forall_ne_some.mpr
      intro p hp
      obtain ⟨hlt, -, hparent⟩ := h.ipdom?_iff_turned.mp hp
      have hreach := (h.turned.sound b p hparent).reaches
      rw [(h.reachesExit_iff_reaches hf).mpr ⟨Body.ne_sink_of_lt hlt, hreach⟩] at hb
      cases hb
    rw [hnone, h.postDominatorsOf_eq_empty hf hb, Set.empty_sdiff]
    exact f.answers_none
  · obtain ⟨hne, hreach⟩ := (h.reachesExit_iff_reaches hf).mp hb
    obtain ⟨c, hc⟩ := h.turned.complete b hreach hne
    have hlt := Body.lt_size_of_isLiveBlock ((h.reachesExit_iff hf).mp hb).1
    refine Body.answers_of_isNearest hf.edges
      (isNearest_proper_iff.mpr (h.turned.sound b c hc)) (fun q => ?_) fun p => ?_
    · rw [Set.mem_sdiff, Set.mem_sdiff, Body.mem_postDominatorsOf hf.edges hne]
      exact and_right_comm
    · rw [h.ipdom?_iff_turned, hc, Option.some.injEq]
      exact and_iff_right hlt

theorem answers_nearestCommon? :
    f.Answers (d.nearestCommon? a b) (f.postDominatorsOf a ∩ f.postDominatorsOf b) := by
  rcases Classical.em (d.reachesExit a = true ∧ d.reachesExit b = true) with ⟨ha, hb⟩ | hab
  · obtain ⟨hane, hareach⟩ := (h.reachesExit_iff_reaches hf).mp ha
    obtain ⟨hbne, hbreach⟩ := (h.reachesExit_iff_reaches hf).mp hb
    have halt := Body.lt_size_of_isLiveBlock ((h.reachesExit_iff hf).mp ha).1
    have hblt := Body.lt_size_of_isLiveBlock ((h.reachesExit_iff hf).mp hb).1
    obtain ⟨c, hc, hnearest⟩ := h.turned.nearestCommon?_eq hareach hbreach
    refine Body.answers_of_isNearest hf.edges hnearest (fun q => ?_) fun p => ?_
    · rw [Set.mem_inter_iff, Set.mem_inter_iff, Body.mem_postDominatorsOf hf.edges hane,
        Body.mem_postDominatorsOf hf.edges hbne]
      exact and_and_right.symm
    · rw [h.nearestCommon?_iff_turned, hc, Option.some.injEq]
      exact (and_iff_right halt).trans (and_iff_right hblt)
  · have hnone : d.nearestCommon? a b = none := by
      apply Option.eq_none_iff_forall_ne_some.mpr
      intro c hc
      obtain ⟨halt, hblt, -, hmeet⟩ := h.nearestCommon?_iff_turned.mp hc
      rw [h.turned.nearestCommon?_eq_none] at hmeet
      · cases hmeet
      · rintro ⟨hareach, hbreach⟩
        exact hab ⟨(h.reachesExit_iff_reaches hf).mpr ⟨Body.ne_sink_of_lt halt, hareach⟩,
          (h.reachesExit_iff_reaches hf).mpr ⟨Body.ne_sink_of_lt hblt, hbreach⟩⟩
    have hempty : f.postDominatorsOf a ∩ f.postDominatorsOf b = ∅ := by
      rw [not_and_or, Bool.not_eq_true, Bool.not_eq_true] at hab
      rcases hab with ha | hb
      · rw [h.postDominatorsOf_eq_empty hf ha, Set.empty_inter]
      · rw [h.postDominatorsOf_eq_empty hf hb, Set.inter_empty]
    rw [hnone, hempty]
    exact f.answers_none

end PostDominators.Represents

/-- The post-dominator tree of a well-built body, also of one without blocks, is graph post-dominance
towards the blocks that lead nowhere, whatever they end in. -/
theorem WellBuilt.postDominators_exact {f : Body} (hf : WellBuilt f) :
    ∃ d, f.postDominators = .ok d ∧ d.exits = f.layout.filter f.isExit ∧
      (∀ b, d.reachesExit b = true ↔ f.isLiveBlock b = true ∧ ∃ way, f.IsWayOut b way) ∧
      (∀ a b, d.postDominates a b = true ↔ a = b ∨ a ∈ f.postDominatorsOf b) ∧
      (∀ b p, d.ipdom? b = some p ↔ f.IsNearestOut (f.postDominatorsOf b \ {b}) p) ∧
      (∀ b, d.ipdom? b = none ↔ d.reachesExit b = false ∨ f.postDominatorsOf b \ {b} = ∅) ∧
      (∀ a b c, d.nearestCommon? a b = some c ↔
        f.IsNearestOut (f.postDominatorsOf a ∩ f.postDominatorsOf b) c) ∧
      ∀ a b, d.nearestCommon? a b = none ↔ d.reachesExit a = false ∨ d.reachesExit b = false ∨
        f.postDominatorsOf a ∩ f.postDominatorsOf b = ∅ := by
  obtain ⟨d, hd, h⟩ := hf.consistent.exists_postDominators
  have hempty : ∀ b, d.reachesExit b = false → f.postDominatorsOf b = ∅ :=
    fun b hb => h.postDominatorsOf_eq_empty hf.consistent hb
  refine ⟨d, hd, h.exits, fun b => h.reachesExit_iff hf.consistent,
    fun a b => h.postDominates_iff hf.consistent, fun b => (h.answers_ipdom? hf.consistent).1,
    fun b => ?_, fun a b => (h.answers_nearestCommon? hf.consistent).1, fun a b => ?_⟩
  · rw [(h.answers_ipdom? hf.consistent).2]
    refine (or_iff_right_of_imp fun hb => ?_).symm
    rw [hempty b hb, Set.empty_sdiff]
  · rw [(h.answers_nearestCommon? hf.consistent).2, ← or_assoc]
    refine (or_iff_right_of_imp ?_).symm
    rintro (ha | hb)
    · rw [hempty a ha, Set.empty_inter]
    · rw [hempty b hb, Set.inter_empty]

/-- A branch whose one side goes round for ever, while the other returns or comes to a block that is
not terminated. A block that cannot be reached leads to the return. -/
def partingWays : Body :=
  replayed [.createBlock, .createBlock, .createBlock, .createBlock, .createBlock, .createBlock,
    .createBlock,
    .appendInstr ⟨0⟩ (.literal .int (.int 1)),
    .setTerminator ⟨0⟩ (.br ⟨1⟩ []),
    .setTerminator ⟨1⟩ (.condBr ⟨0⟩ ⟨2⟩ [] ⟨3⟩ []),
    .setTerminator ⟨2⟩ (.condBr ⟨0⟩ ⟨4⟩ [] ⟨5⟩ []),
    .setTerminator ⟨3⟩ (.br ⟨3⟩ []),
    .setTerminator ⟨4⟩ (.ret ⟨0⟩),
    .setTerminator ⟨6⟩ (.br ⟨4⟩ [])]

theorem partingWays_postDominators_exact :
    ∃ d, partingWays.postDominators = .ok d ∧
      partingWays.layout.filter partingWays.isExit = [⟨4⟩, ⟨5⟩] ∧
      (∀ way, ¬ partingWays.IsWayOut ⟨3⟩ way) ∧
      partingWays.IsNearestOut (partingWays.postDominatorsOf ⟨0⟩ \ {⟨0⟩}) ⟨1⟩ ∧
      partingWays.postDominatorsOf ⟨2⟩ \ {⟨2⟩} = ∅ ∧
      partingWays.postDominatorsOf ⟨6⟩ ∩ partingWays.postDominatorsOf ⟨2⟩ = ∅ := by
  have hf : WellBuilt partingWays := wellBuilt_replayed _
  obtain ⟨d, hd, hexits, hreaches, -, hipdom, hipdomNone, -, hcommonNone⟩ :=
    WellBuilt.postDominators_exact hf
  have hread : partingWays.postDominators.map (fun e => (e.exits, [⟨2⟩, ⟨3⟩, ⟨6⟩].map e.reachesExit,
      [⟨0⟩, ⟨2⟩].map e.ipdom?, e.nearestCommon? ⟨6⟩ ⟨2⟩)) =
        .ok ([⟨4⟩, ⟨5⟩], [true, false, true], [some ⟨1⟩, none], none) := by decide +kernel
  rw [hd] at hread
  simp only [Except.map, Except.ok.injEq, Prod.mk.injEq, List.map_cons, List.cons.injEq] at hread
  obtain ⟨hlist, ⟨htwo, hthree, hsix, -⟩, ⟨hzero, htop, -⟩, hpair⟩ := hread
  refine ⟨d, hd, hexits ▸ hlist, fun way hway => ?_, (hipdom _ _).mp hzero, ?_, ?_⟩
  · rw [(hreaches ⟨3⟩).mpr ⟨by decide +kernel, way, hway⟩] at hthree
    cases hthree
  · simpa [htwo] using (hipdomNone ⟨2⟩).mp htop
  · simpa [htwo, hsix] using (hcommonNone ⟨6⟩ ⟨2⟩).mp hpair

end FlowGraph
