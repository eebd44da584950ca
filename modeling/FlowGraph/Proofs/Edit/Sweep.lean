import FlowGraph.Proofs.Edit.Fusion
import FlowGraph.Proofs.History

/-!
Letting every block absorb its successors. A block that declines is not talked round by what other
blocks absorb: its branch stays, and the block that it leads to keeps its edges and arguments. So after
one round every block declines, and another round changes nothing.
-/

namespace FlowGraph

namespace Body

variable {f g : Body} {b c tail : BlockId} {merged : Bool} {blocks : List BlockId}

/-- `b` can absorb its successor. -/
def Absorbs (f : Body) (b : BlockId) : Prop :=
  ∃ succ operands, f.mergeTarget b = .ok (.ok (succ, operands))

theorem Absorbs.exists_terminator (h : f.Absorbs b) : ∃ t, f.terminator? b = some t := by
  obtain ⟨succ, operands, htarget⟩ := h
  exact ⟨_, (mergeTarget_eq_ok.mp htarget).1⟩

theorem Absorbs.isLiveBlock (h : f.Absorbs b) : f.isLiveBlock b = true := by
  obtain ⟨t, ht⟩ := h.exists_terminator
  obtain ⟨data, hb, -⟩ := terminator?_eq_some.mp ht
  exact isLiveBlock_of hb

/-- A block can absorb the block that it branches to if no other edge leads there, it is not the entry,
and it is passed none of its own arguments. -/
theorem Consistent.absorbs_iff (hf : f.Consistent) :
    f.Absorbs b ↔ ∃ succ operands args entry, f.terminator? b = some (.br succ operands) ∧ succ ≠ b ∧
      f.entry = .ok entry ∧ succ ≠ entry ∧ (∀ x, f.target? x = some succ → x = ⟨b, 0⟩) ∧
      f.args? succ = some args ∧ ∀ v ∈ operands, v ∉ args := by
  have hbranch : ∀ {succ operands}, f.terminator? b = some (.br succ operands) →
      f.target? ⟨b, 0⟩ = some succ := fun ht => target?_eq_some.mpr ⟨_, ht, rfl⟩
  constructor
  · rintro ⟨succ, operands, htarget⟩
    obtain ⟨ht, hself, ⟨entry, hentry, hne⟩, data, hs, hone, hfree⟩ := mergeTarget_eq_ok.mp htarget
    exact ⟨succ, operands, data.args, entry, ht, hself, hentry, hne,
      (hf.edges.length_preds_eq_one_iff hs (hbranch ht)).mp hone, args?_of hs, hfree⟩
  · rintro ⟨succ, operands, args, entry, ht, hself, hentry, hne, honly, hargs, hfree⟩
    obtain ⟨data, hs, rfl⟩ := args?_eq_some.mp hargs
    exact ⟨succ, operands, mergeTarget_eq_ok.mpr ⟨ht, hself, ⟨entry, hentry, hne⟩, data, hs,
      (hf.edges.length_preds_eq_one_iff hs (hbranch ht)).mpr honly, hfree⟩⟩

/-- What a block can absorb in the joint body could be absorbed before, by the block that has the
branch there. -/
theorem Fused.absorbs_source {front : List InstrId} {args operands : List ValueId}
    {σ : ValueId → ValueId} (h : g.Fused f b tail front args operands σ) (hf : f.Consistent)
    (hg : g.Consistent) (hc : g.Absorbs c) : f.Absorbs (if c = b then tail else c) := by
  obtain ⟨succ, passed, taken, entry, hbranch, hself, hentry, hother, honly, htaken, hfree⟩ :=
    hg.absorbs_iff.mp hc
  obtain ⟨given, ht, rfl⟩ := h.exists_branch_source hbranch
  have hedge : f.target? ⟨if c = b then tail else c, 0⟩ = some succ :=
    target?_eq_some.mpr ⟨_, ht, rfl⟩
  have hsucc : succ ≠ tail := by
    intro heq
    rw [heq] at hedge
    have hblock := congrArg Edge.block ((h.into _).mp hedge)
    dsimp only at hblock
    split at hblock
    · exact h.ne hblock.symm
    · rename_i hne
      exact hne hblock
  rw [h.takes, if_neg hsucc] at htaken
  refine hf.absorbs_iff.mpr ⟨succ, given, taken, entry, ht, ?_, h.entry.mp hentry, hother, ?_,
    htaken, fun v hv hmem => ?_⟩
  · split
    · exact hsucc
    · exact hself
  · rintro ⟨d, k⟩ hx
    have hdb : d ≠ b := by
      rintro rfl
      exact hsucc (h.out hx)
    rcases Classical.em (d = tail) with rfl | hdt
    · -- The edges of the absorbed block are those of `b` now.
      have hmoved : g.target? ⟨b, k⟩ = some succ := by
        rw [h.target?, if_pos rfl]
        exact hx
      cases honly _ hmoved
      rw [if_pos rfl]
    · have hkept : g.target? ⟨d, k⟩ = some succ := by
        rw [h.target?, if_neg hdb, if_neg hdt]
        exact hx
      cases honly _ hkept
      rw [if_neg hdb]
  · have hkept : v ∉ args := by
      intro harg
      obtain ⟨i, kind, hi⟩ := (hf.args.mem_args htaken).mp hmem
      obtain ⟨j, kind', hj⟩ := (hf.args.mem_args h.taken).mp harg
      cases hi.symm.trans hj
      exact hsucc rfl
    apply hfree (σ v) (List.mem_map_of_mem hv)
    rwa [h.keeps hkept]

theorem absorbs_of_mergeWithSuccessor (hrun : f.mergeWithSuccessor b = .ok (.ok (tail, g))) :
    f.Absorbs b := by
  obtain ⟨target, htarget, hrest⟩ := bind_eq_ok.mp hrun
  rcases target with refusal | ⟨succ, operands⟩
  · cases hrest
  · exact ⟨succ, operands, htarget⟩

theorem not_absorbs_of_mergeWithSuccessor {refusal : MergeRefusal}
    (hrun : f.mergeWithSuccessor b = .ok (.error refusal)) : ¬ f.Absorbs b := by
  rintro ⟨succ, operands, htarget⟩
  rw [Body.mergeWithSuccessor, htarget, ok_bind] at hrun
  obtain ⟨g, -, hrest⟩ := bind_eq_ok.mp hrun
  cases hrest

theorem not_absorbs_of_absorbChain (hrun : f.absorbChain b = .ok (merged, g)) : ¬ g.Absorbs b := by
  fun_induction absorbChain f b generalizing merged with
  | case1 f fault hmerge => cases hrun
  | case2 f refusal hmerge =>
      cases hrun
      exact not_absorbs_of_mergeWithSuccessor hmerge
  | case3 f succ next hmerge fault hchain ih => cases hrun
  | case4 f succ next hmerge more last hchain ih =>
      cases hrun
      exact ih hchain

theorem absorbChain_cases (hrun : f.absorbChain b = .ok (merged, g)) :
    merged = false ∧ g = f ∧ ¬ f.Absorbs b ∨ merged = true ∧ f.Absorbs b := by
  rw [absorbChain] at hrun
  split at hrun
  · cases hrun
  · rename_i refusal hmerge
    cases hrun
    exact .inl ⟨rfl, rfl, not_absorbs_of_mergeWithSuccessor hmerge⟩
  · rename_i succ next hmerge
    split at hrun
    · cases hrun
    · cases hrun
      exact .inr ⟨rfl, absorbs_of_mergeWithSuccessor hmerge⟩

theorem Consistent.absorbs_of_absorbChain (hf : f.Consistent) (hv : f.Valid)
    (hrun : f.absorbChain b = .ok (merged, g)) (hne : c ≠ b) (hc : g.Absorbs c) : f.Absorbs c := by
  fun_induction absorbChain f b generalizing merged with
  | case1 f fault hmerge => cases hrun
  | case2 f refusal hmerge =>
      cases hrun
      exact hc
  | case3 f succ next hmerge fault hchain ih => cases hrun
  | case4 f succ next hmerge more last hchain ih =>
      cases hrun
      obtain ⟨hnext, hvnext, _, _, _, _, hfused⟩ := hf.fused_of_mergeWithSuccessor hv hmerge
      have hsource := hfused.absorbs_source hf hnext (ih hnext hvnext hchain)
      rwa [if_neg hne] at hsource

/-- What holds after the turn of `b`, which took `f` to `g`. -/
structure Turn (f g : Body) (b : BlockId) (merged : Bool) : Prop where
  consistent : g.Consistent
  valid : g.Valid
  declines : ¬ g.Absorbs b
  earlier : ∀ {c}, g.Absorbs c → f.Absorbs c
  merged_iff : merged = true ↔ f.Absorbs b
  unchanged : merged = false → g = f

theorem Consistent.turn_of_absorbChain (hf : f.Consistent) (hv : f.Valid)
    (hb : f.isLiveBlock b = true) (hrun : f.absorbChain b = .ok (merged, g)) :
    f.Turn g b merged := by
  obtain ⟨merged', g', hchain, hg, hvg, -⟩ := hf.exists_absorbChain hv hb
  cases hrun.symm.trans hchain
  have hdeclines := not_absorbs_of_absorbChain hrun
  have hearlier : ∀ {c}, g.Absorbs c → f.Absorbs c := by
    intro c hc
    rcases Classical.em (c = b) with rfl | hne
    · exact absurd hc hdeclines
    · exact hf.absorbs_of_absorbChain hv hrun hne hc
  rcases absorbChain_cases hrun with ⟨rfl, rfl, hnot⟩ | ⟨rfl, hyes⟩
  · exact ⟨hg, hvg, hdeclines, hearlier, iff_of_false Bool.false_ne_true hnot, fun _ => rfl⟩
  · exact ⟨hg, hvg, hdeclines, hearlier, iff_of_true rfl hyes, nofun⟩

theorem Consistent.turn_of_mergeEach (hf : f.Consistent) (hv : f.Valid)
    (hrun : f.mergeEach (b :: blocks) = .ok (merged, g)) :
    ∃ next here there, f.Turn next b here ∧ next.mergeEach blocks = .ok (there, g) ∧
      merged = (here || there) := by
  rw [mergeEach] at hrun
  split at hrun
  · rename_i hsome
    obtain ⟨⟨here, next⟩, hchain, hrest⟩ := bind_eq_ok.mp hrun
    obtain ⟨⟨there, last⟩, hlast, hrest⟩ := bind_eq_ok.mp hrest
    cases hrest
    obtain ⟨t, ht⟩ := Option.isSome_iff_exists.mp hsome
    obtain ⟨data, hb, -⟩ := terminator?_eq_some.mp ht
    exact ⟨next, here, there, hf.turn_of_absorbChain hv (isLiveBlock_of hb) hchain, hlast, rfl⟩
  · rename_i hnone
    rw [pure_bind] at hrun
    obtain ⟨⟨there, last⟩, hlast, hrest⟩ := bind_eq_ok.mp hrun
    cases hrest
    have hdeclines : ¬ f.Absorbs b := by
      intro habsorbs
      obtain ⟨t, ht⟩ := habsorbs.exists_terminator
      exact hnone (Option.isSome_iff_exists.mpr ⟨t, ht⟩)
    exact ⟨f, false, there, ⟨hf, hv, hdeclines, fun hc => hc, iff_of_false Bool.false_ne_true hdeclines,
      fun _ => rfl⟩, hlast, rfl⟩

/-- After all turns, none of the blocks can absorb. -/
theorem Consistent.settles_of_mergeEach (hf : f.Consistent) (hv : f.Valid)
    (hrun : f.mergeEach blocks = .ok (merged, g)) :
    (∀ c, g.Absorbs c → f.Absorbs c ∧ c ∉ blocks) ∧
      (merged = true ↔ ∃ b ∈ blocks, f.Absorbs b) ∧ (merged = false → g = f) := by
  induction blocks generalizing f merged with
  | nil =>
      cases hrun
      exact ⟨fun c hc => ⟨hc, List.not_mem_nil⟩, by simp, fun _ => rfl⟩
  | cons b rest ih =>
      obtain ⟨next, here, there, hturn, hrest, rfl⟩ := hf.turn_of_mergeEach hv hrun
      obtain ⟨hlater, hthere, hsame⟩ := ih hturn.consistent hturn.valid hrest
      refine ⟨fun c hc => ?_, ?_, ?_⟩
      · obtain ⟨hnext, hnotMem⟩ := hlater c hc
        refine ⟨hturn.earlier hnext, fun hmem => ?_⟩
        rcases List.mem_cons.mp hmem with rfl | hmem
        · exact hturn.declines hnext
        · exact hnotMem hmem
      · simp only [Bool.or_eq_true, hturn.merged_iff, hthere, List.mem_cons, exists_eq_or_imp]
        -- Up to the first block that absorbs, the body is as it was.
        rcases here with _ | _
        · rw [hturn.unchanged rfl]
        · have hb := hturn.merged_iff.mp rfl
          exact iff_of_true (.inl hb) (.inl hb)
      · intro hneither
        obtain ⟨hhere, hthere⟩ := Bool.or_eq_false_iff.mp hneither
        rw [hsame hthere, hturn.unchanged hhere]

theorem Consistent.mergeBlocks_eq_of_declines (hf : f.Consistent) (hv : f.Valid)
    (hnone : ∀ b, ¬ f.Absorbs b) : f.mergeBlocks = .ok (false, f) := by
  obtain ⟨merged, g, hrun, -⟩ := hf.exists_mergeEach hv f.layout
  obtain ⟨-, hmerged, hsame⟩ := hf.settles_of_mergeEach hv hrun
  rcases merged with _ | _
  · rwa [hsame rfl] at hrun
  · obtain ⟨b, -, hb⟩ := hmerged.mp rfl
    exact absurd hb (hnone b)

theorem Consistent.entry_of_merges (hf : f.Consistent) (hv : f.Valid)
    (h : Relation.ReflTransGen MergeOnce f g) : g.entry = f.entry := by
  have hkept : g.Consistent ∧ g.Valid ∧ ∀ {c}, g.entry = .ok c ↔ f.entry = .ok c := by
    induction h with
    | refl => exact ⟨hf, hv, Iff.rfl⟩
    | tail _ hstep ih =>
        obtain ⟨hmid, hvmid, hentry⟩ := ih
        obtain ⟨hlast, hvlast, _, _, _, _, _, _, hfused⟩ := hstep.fused hmid hvmid
        exact ⟨hlast, hvlast, fun {c} => hfused.entry.trans hentry⟩
  obtain ⟨entry, hentry⟩ := hv.exists_entry
  rw [hentry, hkept.2.2.mpr hentry]

end Body

/-- In a well-built body that passes verification, one round lets the blocks absorb all that can be
absorbed. It tells whether there was anything to absorb, and leaves nothing for another round. -/
theorem WellBuilt.mergeBlocks_complete {f : Body} (hf : WellBuilt f)
    (hv : f.verify.run = .ok (.ok ())) :
    ∃ merged g, f.mergeBlocks = .ok (merged, g) ∧
      (∀ b, g.isLiveBlock b = true → ∃ refusal, g.mergeTarget b = .ok (.error refusal)) ∧
      (merged = true ↔ ∃ b succ operands, f.isLiveBlock b = true ∧
        f.mergeTarget b = .ok (.ok (succ, operands))) ∧
      g.mergeBlocks = .ok (false, g) ∧ g.entry = f.entry := by
  have hvalid := hf.consistent.verify_iff.mp hv
  obtain ⟨merged, g, hrun, hg, hvg, hmerges⟩ := hf.consistent.exists_mergeEach hvalid f.layout
  obtain ⟨hsettled, hmerged, -⟩ := hf.consistent.settles_of_mergeEach hvalid hrun
  have hnone : ∀ b, ¬ g.Absorbs b := by
    intro b hb
    obtain ⟨hfirst, hnotMem⟩ := hsettled b hb
    exact hnotMem ((hf.consistent.layout.mem_iff b).mpr hfirst.isLiveBlock)
  refine ⟨merged, g, hrun, fun b hb => ?_, ?_, hg.mergeBlocks_eq_of_declines hvg hnone,
    hf.consistent.entry_of_merges hvalid hmerges⟩
  · obtain ⟨refusal | ⟨succ, operands⟩, htarget⟩ := hg.exists_mergeTarget hvg hb
    · exact ⟨refusal, htarget⟩
    · exact absurd ⟨succ, operands, htarget⟩ (hnone b)
  · rw [hmerged]
    constructor
    · rintro ⟨b, -, hb⟩
      have hlive := hb.isLiveBlock
      obtain ⟨succ, operands, htarget⟩ := hb
      exact ⟨b, succ, operands, hlive, htarget⟩
    · rintro ⟨b, succ, operands, hlive, htarget⟩
      exact ⟨b, (hf.consistent.layout.mem_iff b).mpr hlive, succ, operands, htarget⟩

/-- A block that can be absorbed before a branch whose sides meet again, and a cycle that cannot be
reached, in which one block is passed its own argument and the other is not. -/
def looseChain : Body :=
  replayed [.createBlock, .createBlock, .createBlock, .createBlock, .createBlock, .createBlock,
    .addFunctionArg ⟨0⟩ .int .guaranteed, .addPhi ⟨1⟩ .int .none, .addPhi ⟨5⟩ .int .none,
    .setTerminator ⟨0⟩ (.br ⟨1⟩ [⟨0⟩]),
    .setTerminator ⟨1⟩ (.condBr ⟨1⟩ ⟨2⟩ [] ⟨3⟩ []),
    .setTerminator ⟨2⟩ (.br ⟨3⟩ []),
    .setTerminator ⟨3⟩ (.ret ⟨1⟩),
    .setTerminator ⟨4⟩ (.br ⟨5⟩ [⟨2⟩]),
    .setTerminator ⟨5⟩ (.br ⟨4⟩ [])]

theorem looseChain_mergeBlocks_complete :
    ∃ g, looseChain.mergeBlocks = .ok (true, g) ∧
      looseChain.mergeTarget ⟨4⟩ = .ok (.error (.argumentCycle ⟨4⟩ ⟨5⟩)) ∧
      looseChain.mergeTarget ⟨5⟩ = .ok (.ok (⟨4⟩, [])) ∧
      (∀ b, g.isLiveBlock b = true → ∃ refusal, g.mergeTarget b = .ok (.error refusal)) ∧
      g.mergeBlocks = .ok (false, g) ∧ g.entry = .ok ⟨0⟩ := by
  have hbuilt : WellBuilt looseChain := wellBuilt_replayed _
  have hv : looseChain.verify.run = .ok (.ok ()) := by cbv
  have hentry : looseChain.entry = .ok ⟨0⟩ := by cbv
  have hcycle : looseChain.mergeTarget ⟨4⟩ = .ok (.error (.argumentCycle ⟨4⟩ ⟨5⟩)) := by cbv
  have htarget : looseChain.mergeTarget ⟨5⟩ = .ok (.ok (⟨4⟩, [])) := by cbv
  obtain ⟨merged, g, hrun, hrefused, hmerged, hagain, hkept⟩ :=
    WellBuilt.mergeBlocks_complete hbuilt hv
  obtain rfl := hmerged.mpr ⟨⟨5⟩, ⟨4⟩, [], by cbv, htarget⟩
  exact ⟨g, hrun, hcycle, htarget, hrefused, hagain, hkept.trans hentry⟩

end FlowGraph
