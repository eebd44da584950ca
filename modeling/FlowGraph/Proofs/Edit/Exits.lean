import FlowGraph.Proofs.DeadEnd
import FlowGraph.Proofs.Edit.Fusion
import FlowGraph.Proofs.Loop.Natural

namespace FlowGraph

section Ways

variable {α : Type} {R S : α → α → Prop} {P E F : α → Prop} {r b m d s x : α}

namespace Detour

theorem exists_arc_iff (h : Detour R S r b m d) (hx : x ≠ m) : (∃ y, S x y) ↔ ∃ y, R x y := by
  constructor
  · rintro ⟨y, harc⟩
    rcases Classical.em (y = m) with rfl | hy
    · obtain rfl := h.of_into harc
      exact ⟨d, h.arc⟩
    · exact ⟨y, h.of_arc harc hx hy⟩
  · rintro ⟨y, harc⟩
    rcases h.kept harc with harc | ⟨rfl, -, -⟩
    · exact ⟨y, harc⟩
    · exact ⟨m, h.into⟩

theorem exists_path_iff (h : Detour R S r b m d) (hm : P m) (hnew : ¬ F m)
    (hends : ∀ x, x ≠ m → (F x ↔ E x)) :
    (∃ x, F x ∧ Path S P r x) ↔ ∃ x, E x ∧ Path R P r x := by
  constructor
  · rintro ⟨x, hx, hpath⟩
    have hne : x ≠ m := by
      rintro rfl
      exact hnew hx
    exact ⟨x, (hends x hne).mp hx, (h.path_iff hm hne).mp hpath⟩
  · rintro ⟨x, hx, hpath⟩
    have hne : x ≠ m := h.ne_of_reaches (hpath.mono fun _ _ => trivial)
    exact ⟨x, (hends x hne).mpr hx, h.of_path hm hpath⟩

theorem exists_path_new_iff (h : Detour R S r b m d) (hout : S m d) (hm : P m) (hnew : ¬ F m)
    (hends : ∀ x, x ≠ m → (F x ↔ E x)) :
    (∃ x, F x ∧ Path S P m x) ↔ ∃ x, E x ∧ Path R P d x := by
  rw [← (h.from_node h.target_ne).exists_path_iff hm hnew hends]
  constructor
  · rintro ⟨x, hx, hpath⟩
    rcases hpath.eq_or_head with rfl | ⟨y, harc, hrest⟩
    · exact absurd hx hnew
    · exact ⟨x, hx, h.of_out harc ▸ hrest⟩
  · rintro ⟨x, hx, hpath⟩
    exact ⟨x, hx, hpath.head hm hout⟩

end Detour

/-- The ends are the nodes with `E` before a node is taken into another, and those with `F` afterwards.
An end that was taken in has moved. -/
theorem Contraction.exists_path_iff (h : Contraction R S r b s) (hs : P s) (hbranch : ¬ E b)
    (hgone : ¬ F s) (hmoved : F b ↔ E s) (hends : ∀ x, x ≠ b → x ≠ s → (F x ↔ E x)) :
    (∃ x, F x ∧ Path S P r x) ↔ ∃ x, E x ∧ Path R P r x := by
  constructor
  · rintro ⟨x, hx, hpath⟩
    have hxs : x ≠ s := by
      rintro rfl
      exact hgone hx
    have hold := h.of_path hs hpath
    rcases Classical.em (x = b) with rfl | hxb
    · exact ⟨s, hmoved.mp hx, hold.step h.arc hs⟩
    · exact ⟨x, (hends x hxb hxs).mp hx, hold⟩
  · rintro ⟨x, hx, hpath⟩
    have hxb : x ≠ b := by
      rintro rfl
      exact hbranch hx
    rcases h.path_of hpath with ⟨hxs, hnew⟩ | ⟨rfl, hnew⟩
    · exact ⟨x, (hends x hxb hxs).mpr hx, hnew⟩
    · exact ⟨b, hmoved.mpr hx, hnew⟩

end Ways

namespace Terminator

theorem successors_of_isExiting {t : Terminator} (h : t.isExiting = true) : t.successors = [] := by
  cases t <;> first | rfl | cases h

@[simp] theorem isExiting_mapOperands (σ : ValueId → ValueId) (t : Terminator) :
    (t.mapOperands σ).isExiting = t.isExiting := by
  cases t <;> rfl

end Terminator

namespace Body

variable {f g : Body} {a b c m tail mid dest : BlockId} {e : Nat}

theorem isExit_iff : f.isExit b = true ↔ f.isLiveBlock b = true ∧ ¬ ∃ c, f.Arc b c := by
  rcases hb : f.block? b with _ | data
  · simp [isExit, isLiveBlock, hb]
  · rw [isExit_of hb, List.isEmpty_iff, List.eq_nil_iff_forall_not_mem, not_exists]
    simp only [arc_iff_mem_successors hb]
    exact (and_iff_right (isLiveBlock_of hb)).symm

theorem not_isExit_of_arc (harc : f.Arc b c) : ¬ f.isExit b = true := fun hexit =>
  (isExit_iff.mp hexit).2 ⟨c, harc⟩

theorem not_leaves_of_arc (harc : f.Arc b c) : ¬ f.leaves b = true := by
  intro hleaves
  obtain ⟨e, he⟩ := harc
  obtain ⟨t, ht, hs⟩ := target?_eq_some.mp he
  obtain ⟨u, hu, hexiting⟩ := leaves_iff.mp hleaves
  cases ht.symm.trans hu
  rw [Terminator.successors_of_isExiting hexiting] at hs
  cases hs

theorem exists_wayOut_iff_reaches :
    (∃ way, f.IsWayOut b way) ↔ ∃ x, f.isExit x = true ∧ Reaches f.Arc b x := by
  simp only [Reaches, ← exists_wayOut_iff, implies_true, and_true]

theorem mem_postDominatorsOf_iff :
    a ∈ f.postDominatorsOf b ↔ (∃ x, f.isExit x = true ∧ Reaches f.Arc b x) ∧
      ¬ ∃ x, f.isExit x = true ∧ Evades f.Arc b a x := by
  rw [mem_postDominatorsOf_iff_avoid, exists_wayOut_iff_reaches, exists_wayOut_iff]
  rfl

theorem reachesExit_iff_isExit {d : PostDominators} (hd : d.Represents f) (hf : f.Consistent) :
    d.reachesExit b = true ↔ ∃ x, f.isExit x = true ∧ Reaches f.Arc b x := by
  rw [hd.reachesExit_iff hf, ← exists_wayOut_iff_reaches]
  exact and_iff_right_of_imp fun ⟨_, hway⟩ => isLiveBlock_of_isWayOut hway

/-- New analyses say the same of `a` in `f` and of `c` in `g`: whether it is a dead end, and whether an
exit can be reached from it. -/
structure SameFate (f : Body) (a : BlockId) (g : Body) (c : BlockId) : Prop where
  isDeadEnd : ∃ answer, ({} : DeadEnds).isDeadEnd f a = .ok answer ∧
    ({} : DeadEnds).isDeadEnd g c = .ok answer
  reachesExit : ∃ d d', f.postDominators = .ok d ∧ g.postDominators = .ok d' ∧
    d.reachesExit a = d'.reachesExit c

/-- New analyses of the two bodies agree about the ways out of the blocks that both have. -/
structure ExitsKept (f g : Body) : Prop where
  fate : ∀ a, f.isLiveBlock a = true → g.isLiveBlock a = true → f.SameFate a g a
  postDominates : ∃ d d', f.postDominators = .ok d ∧ g.postDominators = .ok d' ∧
    ∀ a b, f.isLiveBlock a = true → g.isLiveBlock a = true →
      f.isLiveBlock b = true → g.isLiveBlock b = true → d.postDominates a b = d'.postDominates a b

theorem Consistent.sameFate (hf : f.Consistent) (hg : g.Consistent)
    (hescapes : f.Escapes a ↔ g.Escapes c)
    (hexits : (∃ x, f.isExit x = true ∧ Reaches f.Arc a x) ↔
      ∃ x, g.isExit x = true ∧ Reaches g.Arc c x) : f.SameFate a g c := by
  obtain ⟨dead, hdead, hquery, -⟩ := hf.exists_deadEnds
  obtain ⟨dead', hdead', hquery', -⟩ := hg.exists_deadEnds
  obtain ⟨d, hd, hrep⟩ := hf.exists_postDominators
  obtain ⟨d', hd', hrep'⟩ := hg.exists_postDominators
  refine ⟨⟨dead a, hquery a, ?_⟩, d, d', hd, hd', ?_⟩
  · rw [hquery', Except.ok.injEq, Bool.eq_iff_iff, hdead, hdead', hescapes]
  · rw [Bool.eq_iff_iff, reachesExit_iff_isExit hrep hf, reachesExit_iff_isExit hrep' hg, hexits]

/-- The bodies have the same ways to an end from each block but `m`, whatever the ways must avoid if it
is not `m`. -/
structure SameWays (f g : Body) (m : BlockId) : Prop where
  exits : ∀ {P : BlockId → Prop} {x}, P m → x ≠ m →
    ((∃ y, f.isExit y = true ∧ Path f.Arc P x y) ↔ ∃ y, g.isExit y = true ∧ Path g.Arc P x y)
  escapes : ∀ {x}, x ≠ m → (f.Escapes x ↔ g.Escapes x)

theorem SameWays.symm (h : f.SameWays g m) : g.SameWays f m :=
  ⟨fun hm hx => (h.exits hm hx).symm, fun hx => (h.escapes hx).symm⟩

theorem SameWays.exitsKept (h : f.SameWays g m) (hf : f.Consistent) (hg : g.Consistent)
    (hm : ¬ (f.isLiveBlock m = true ∧ g.isLiveBlock m = true)) : f.ExitsKept g := by
  have hne : ∀ {a}, f.isLiveBlock a = true → g.isLiveBlock a = true → a ≠ m := by
    rintro a ha ha' rfl
    exact hm ⟨ha, ha'⟩
  obtain ⟨d, hd, hrep⟩ := hf.exists_postDominators
  obtain ⟨d', hd', hrep'⟩ := hg.exists_postDominators
  refine ⟨fun a ha ha' => ?_, d, d', hd, hd', fun a b ha ha' hb hb' => ?_⟩
  · exact hf.sameFate hg (h.escapes (hne ha ha')) (h.exits trivial (hne ha ha'))
  · have hab := hne hb hb'
    have hreaches : (∃ x, f.isExit x = true ∧ Reaches f.Arc b x) ↔
        ∃ x, g.isExit x = true ∧ Reaches g.Arc b x := h.exits trivial hab
    have hevades : (∃ x, f.isExit x = true ∧ Evades f.Arc b a x) ↔
        ∃ x, g.isExit x = true ∧ Evades g.Arc b a x := h.exits (hne ha ha').symm hab
    rw [Bool.eq_iff_iff, hrep.postDominates_iff hf, hrep'.postDominates_iff hg,
      mem_postDominatorsOf_iff, mem_postDominatorsOf_iff, hreaches, hevades]

namespace IsSplit

variable (h : f.IsSplit g b e mid dest)
include h

theorem leaves_old (htarget : f.target? ⟨b, e⟩ = some dest) (hc : c ≠ mid) :
    g.leaves c = true ↔ f.leaves c = true := by
  rcases Classical.em (c = b) with rfl | hcb
  · have hnew : g.Arc c mid := ⟨e, (h.target _).trans (if_pos rfl)⟩
    exact iff_of_false (not_leaves_of_arc hnew) (not_leaves_of_arc ⟨e, htarget⟩)
  · obtain ⟨t, taken, args, hinter⟩ := h.interposed
    rw [leaves, hinter.terminators, if_neg hc, if_neg hcb, leaves]

variable {entry : BlockId} (hdetour : Detour f.Arc g.Arc entry b mid dest)
include hdetour

theorem isExit_old (hc : c ≠ mid) : g.isExit c = true ↔ f.isExit c = true := by
  rw [isExit_iff, isExit_iff, h.live, hdetour.exists_arc_iff hc, or_iff_right hc]

end IsSplit

/-- The blocks of a body keep their ways out when a block is put on an edge, and the new block has those
of the block that it leads to. -/
theorem IsSplit.exitsKept (h : f.IsSplit g b e mid dest) (hf : f.Consistent) (hv : f.Valid)
    (htarget : f.target? ⟨b, e⟩ = some dest) : f.ExitsKept g ∧ f.SameFate dest g mid := by
  obtain ⟨entry, hentry⟩ := hv.exists_entry
  have hdetour := h.detour hf htarget hentry
  have hout : g.Arc mid dest := ⟨0, h.target?_new htarget⟩
  have hexit := not_isExit_of_arc hout
  have hexits : ∀ x, x ≠ mid → (g.isExit x = true ↔ f.isExit x = true) := fun _ =>
    h.isExit_old hdetour
  have hleaves := not_leaves_of_arc hout
  have hleave : ∀ x, x ≠ mid → (g.leaves x = true ↔ f.leaves x = true) := fun _ =>
    h.leaves_old htarget
  have hways : f.SameWays g mid := by
    refine ⟨fun hm hx => Iff.symm ?_, fun hx => Iff.symm ?_⟩
    · exact (hdetour.from_node hx).exists_path_iff hm hexit hexits
    · exact (hdetour.from_node hx).exists_path_iff trivial hleaves hleave
  refine ⟨hways.exitsKept hf h.consistent ?_, hf.sameFate h.consistent ?_ ?_⟩
  · rw [h.fresh]
    exact fun hmid => Bool.false_ne_true hmid.1
  · exact (hdetour.exists_path_new_iff hout trivial hleaves hleave).symm
  · exact (hdetour.exists_path_new_iff hout trivial hexit hexits).symm

namespace Fused

variable {front : List InstrId} {args operands : List ValueId} {σ : ValueId → ValueId}
  (h : f.Fused g b tail front args operands σ)
include h

theorem live_iff : f.isLiveBlock c = true ↔ c ≠ tail ∧ g.isLiveBlock c = true := by
  rw [← isSome_args?, h.takes, ← isSome_args?]
  split <;> simp [*]

theorem leaves_eq (c : BlockId) :
    f.leaves c = if c = b then g.leaves tail else if c = tail then false else g.leaves c := by
  rw [leaves, h.terminators, Option.any_map]
  simp only [Terminator.isExiting_mapOperands]
  split
  · rfl
  · split <;> rfl

theorem sameWays {entry : BlockId} (hentry : g.entry = .ok entry) : f.SameWays g tail := by
  have hgone := h.contraction hentry
  have hfirst : g.isLiveBlock b = true := isLiveBlock_of_arc hgone.arc
  have hsecond : g.isLiveBlock tail = true := by
    rw [← isSome_args?, h.taken]
    rfl
  have hmoved : f.isExit b = true ↔ g.isExit tail = true := by
    rw [isExit_iff, isExit_iff, h.live_iff, exists_congr fun _ => hgone.merged]
    exact and_congr_left fun _ => iff_of_true ⟨h.ne, hfirst⟩ hsecond
  have hkept : ∀ x, x ≠ b → x ≠ tail → (f.isExit x = true ↔ g.isExit x = true) := by
    intro x hxb hxt
    rw [isExit_iff, isExit_iff, h.live_iff, and_iff_right hxt,
      exists_congr fun _ => hgone.kept hxb hxt]
  have hnot : ¬ f.isExit tail = true := fun hexit =>
    (h.live_iff.mp (isLiveBlock_of_isExit hexit)).1 rfl
  refine ⟨fun hm hx => ?_, fun hx => ?_⟩
  · exact (hgone.from_node hx).exists_path_iff hm (not_isExit_of_arc hgone.arc) hnot hmoved hkept
  · apply (hgone.from_node hx).exists_path_iff trivial (not_leaves_of_arc hgone.arc)
    · rw [h.leaves_eq, if_neg h.ne.symm, if_pos rfl]
      exact Bool.false_ne_true
    · rw [h.leaves_eq, if_pos rfl]
    · intro x hxb hxt
      rw [h.leaves_eq, if_neg hxb, if_neg hxt]

theorem exitsKept (hf : f.Consistent) (hg : g.Consistent) {entry : BlockId}
    (hentry : g.entry = .ok entry) : f.ExitsKept g ∧ g.ExitsKept f := by
  have htail : ¬ f.isLiveBlock tail = true := fun hlive => (h.live_iff.mp hlive).1 rfl
  have hways := h.sameWays hentry
  exact ⟨hways.exitsKept hf hg fun hlive => htail hlive.1,
    hways.symm.exitsKept hg hf fun hlive => htail hlive.2⟩

end Fused

theorem exists_target_of_splitEdge (hrun : f.splitEdge b e = .ok (mid, g)) :
    ∃ dest, f.target? ⟨b, e⟩ = some dest := by
  rw [splitEdge, bind_eq_ok] at hrun
  obtain ⟨t, ht, hrun⟩ := hrun
  obtain ⟨dest, hdest, -⟩ := bind_eq_ok.mp hrun
  exact ⟨dest, target?_eq_some.mpr ⟨t, terminator?_eq_some.mpr (terminator_eq_ok.mp ht),
    Terminator.successor_eq_ok.mp hdest⟩⟩

theorem Consistent.exitsKept_of_splitEdge (hf : f.Consistent) (hv : f.Valid)
    (hrun : f.splitEdge b e = .ok (mid, g)) :
    f.ExitsKept g ∧ ∃ dest, f.target? ⟨b, e⟩ = some dest ∧ f.SameFate dest g mid := by
  obtain ⟨dest, htarget⟩ := exists_target_of_splitEdge hrun
  rcases hv.splitEdge_cases hf htarget with ⟨g', hrun', hsplit⟩ | ⟨space, hfail, -⟩
  · cases hrun.symm.trans hrun'
    obtain ⟨hkept, hfate⟩ := hsplit.exitsKept hf hv htarget
    exact ⟨hkept, dest, htarget, hfate⟩
  · cases hrun.symm.trans hfail

theorem Consistent.exitsKept_of_splitBlock (hf : f.Consistent) (hv : f.Valid) {position : Nat}
    (hrun : f.splitBlock b position = .ok (tail, g)) : f.ExitsKept g := by
  obtain ⟨front, hfused⟩ := hf.fused_of_splitBlock hrun
  obtain ⟨entry, hentry⟩ := hv.exists_entry
  exact (hfused.exitsKept hf (hf.splitBlock hrun) (hfused.entry.mp hentry)).1

theorem Consistent.exitsKept_of_mergeWithSuccessor (hf : f.Consistent) (hv : f.Valid)
    (hrun : f.mergeWithSuccessor b = .ok (.ok (tail, g))) : f.ExitsKept g := by
  obtain ⟨hg, -, front, args, operands, σ, hfused⟩ := hf.fused_of_mergeWithSuccessor hv hrun
  obtain ⟨entry, hentry⟩ := hv.exists_entry
  exact (hfused.exitsKept hg hf hentry).2

end Body

theorem Tracked.body_splitEdge {t t' : Tracked} {b mid : BlockId} {e : Nat}
    (hrun : t.splitEdge b e = .ok (mid, t')) : t.body.splitEdge b e = .ok (mid, t'.body) := by
  simp only [splitEdge, bind_eq_ok] at hrun
  obtain ⟨term, -, dest, -, ⟨m, g⟩, hsplit, d, -, loops, -, hret⟩ := hrun
  cases hret
  exact hsplit

/-- Splits and merges of a well-built body that is verified change nothing about the ways out of its
blocks, whichever analyses are carried along. A block on an edge shares the fate of the block that the
edge led to. -/
theorem WellBuilt.exits_kept {f : Body} (hf : WellBuilt f) (hv : f.verify.run = .ok (.ok ())) :
    (∀ (t t' : Tracked) (b : BlockId) (e : Nat) (mid : BlockId), t.body = f →
      t.splitEdge b e = .ok (mid, t') → f.ExitsKept t'.body ∧
        ∃ dest, f.target? ⟨b, e⟩ = some dest ∧ f.SameFate dest t'.body mid) ∧
    (∀ b position tail g, f.splitBlock b position = .ok (tail, g) → f.ExitsKept g) ∧
    ∀ b tail g, f.mergeWithSuccessor b = .ok (.ok (tail, g)) → f.ExitsKept g := by
  have hc := hf.consistent
  have hvalid := hc.verify_iff.mp hv
  refine ⟨?_, fun b position tail g => hc.exitsKept_of_splitBlock hvalid,
    fun b tail g => hc.exitsKept_of_mergeWithSuccessor hvalid⟩
  rintro t t' b e mid rfl hrun
  exact hc.exitsKept_of_splitEdge hvalid (Tracked.body_splitEdge hrun)

/-- A branch to a block that leaves by way of another, and to one that goes round for ever. -/
def leaveOrStay : Body :=
  replayed [.createBlock, .createBlock, .createBlock, .createBlock,
    .addFunctionArg ⟨0⟩ .int .guaranteed,
    .appendInstr ⟨1⟩ (.literal .int (.int 1)),
    .setTerminator ⟨0⟩ (.condBr ⟨0⟩ ⟨1⟩ [] ⟨2⟩ []),
    .setTerminator ⟨1⟩ (.br ⟨3⟩ []),
    .setTerminator ⟨2⟩ (.br ⟨2⟩ []),
    .setTerminator ⟨3⟩ (.ret ⟨1⟩)]

theorem leaveOrStay_exits_kept :
    (∃ g, leaveOrStay.splitBlock ⟨1⟩ 1 = .ok (⟨4⟩, g) ∧ leaveOrStay.ExitsKept g) ∧
    (∃ g, leaveOrStay.mergeWithSuccessor ⟨1⟩ = .ok (.ok (⟨3⟩, g)) ∧ leaveOrStay.ExitsKept g) ∧
    ∃ t', (⟨leaveOrStay, none, none⟩ : Tracked).splitEdge ⟨0⟩ 1 = .ok (⟨4⟩, t') ∧
      leaveOrStay.ExitsKept t'.body ∧ ({} : DeadEnds).isDeadEnd t'.body ⟨4⟩ = .ok true := by
  have hf : WellBuilt leaveOrStay := wellBuilt_replayed _
  have hv : leaveOrStay.verify.run = .ok (.ok ()) := by cbv
  obtain ⟨hedge, hcut, hmerge⟩ := WellBuilt.exits_kept hf hv
  obtain ⟨g, hg⟩ : ∃ g, leaveOrStay.splitBlock ⟨1⟩ 1 = .ok (⟨4⟩, g) := ⟨_, rfl⟩
  obtain ⟨h, hh⟩ : ∃ h, leaveOrStay.mergeWithSuccessor ⟨1⟩ = .ok (.ok (⟨3⟩, h)) := ⟨_, rfl⟩
  obtain ⟨t', ht'⟩ : ∃ t', (⟨leaveOrStay, none, none⟩ : Tracked).splitEdge ⟨0⟩ 1 =
    .ok (⟨4⟩, t') := ⟨_, rfl⟩
  obtain ⟨hkept, dest, hdest, hfate⟩ := hedge _ t' ⟨0⟩ 1 ⟨4⟩ rfl ht'
  have htwo : leaveOrStay.target? ⟨⟨0⟩, 1⟩ = some ⟨2⟩ := by cbv
  obtain rfl : dest = ⟨2⟩ := Option.some.inj (hdest.symm.trans htwo)
  obtain ⟨answer, hold, hnew⟩ := hfate.isDeadEnd
  have hdead : ({} : DeadEnds).isDeadEnd leaveOrStay ⟨2⟩ = .ok true := by decide +kernel
  obtain rfl : answer = true := Except.ok.inj (hold.symm.trans hdead)
  exact ⟨⟨g, hg, hcut _ _ _ g hg⟩, ⟨h, hh, hmerge _ _ h hh⟩, t', ht', hkept, hnew⟩

end FlowGraph
