import FlowGraph.Proofs.Edit.Sweep

/-!
Joining blocks while some of them have no terminator yet. A round passes over such blocks, but a block
that absorbs one of them is left without a terminator itself, and its next look at its successor is a
fault. That is the only fault of a round on a body whose edges deliver what their targets take.
-/

namespace FlowGraph

namespace Body

variable {f g h : Body} {b c u tail : BlockId} {merged : Bool} {blocks : List BlockId}

/-- The block is there, but has no terminator yet. -/
def IsOpen (f : Body) (u : BlockId) : Prop := f.isLiveBlock u = true ∧ f.terminator? u = none

/-- `b` can absorb a block that has no terminator yet. -/
def AbsorbsOpen (f : Body) (b : BlockId) : Prop :=
  ∃ u operands, f.mergeTarget b = .ok (.ok (u, operands)) ∧ f.terminator? u = none

theorem absorbsOpen_iff : f.AbsorbsOpen b ↔
    f.Absorbs b ∧ ∃ u operands, f.terminator? b = some (.br u operands) ∧ f.terminator? u = none := by
  constructor
  · rintro ⟨u, operands, htarget, hu⟩
    exact ⟨⟨u, operands, htarget⟩, u, operands, (mergeTarget_eq_ok.mp htarget).1, hu⟩
  · rintro ⟨⟨u, operands, htarget⟩, u', operands', hbranch, hu⟩
    rw [(mergeTarget_eq_ok.mp htarget).1] at hbranch
    cases hbranch
    exact ⟨u, operands, htarget, hu⟩

/-- Whether an edge to `s` delivers what `s` takes. -/
def edgeFits (f : Body) (s : BlockId) (x : Edge) : Bool :=
  match f.edgeArgs? x, f.args? s with
  | some given, some taken => given.fits taken.length
  | _, _ => false

theorem LayoutListed.fits_iff (hf : f.LayoutListed) :
    f.Fits ↔ ∀ x ∈ f.edgeTargets, f.edgeFits x.1 x.2 = true := by
  have hfits : ∀ {s c t e}, f.terminator? c = some t →
      (f.edgeFits s ⟨c, e⟩ = true ↔ f.Delivers t e s) := by
    intro s c t e ht
    rw [edgeFits, edgeArgs?, ht, Option.bind_some, Delivers]
    rcases t.edgeArgs? e with _ | given <;> rcases f.args? s with _ | taken <;> simp
  constructor
  · rintro hfit ⟨s, c, e⟩ hx
    rw [← List.count_pos_iff, count_edgeTargets hf] at hx
    split at hx
    · rename_i htarget
      obtain ⟨t, ht, hs⟩ := target?_eq_some.mp htarget
      exact (hfits ht).mpr (hfit ht hs)
    · cases hx
  · intro hall c t e s ht hs
    refine (hfits ht).mp (hall (s, ⟨c, e⟩) ?_)
    rw [← List.count_pos_iff, count_edgeTargets hf, if_pos (target?_eq_some.mpr ⟨t, ht, hs⟩)]
    exact Nat.one_pos

/-- What a round that comes to its end keeps. -/
structure Tidied (f g : Body) : Prop where
  consistent : g.Consistent
  fits : g.Fits
  spares : ∀ {u}, f.IsOpen u → g.IsOpen u ∧ g.args? u = f.args? u ∧ g.instrs? u = f.instrs? u
  earlier : ∀ {c}, g.AbsorbsOpen c → ∃ d, f.AbsorbsOpen d

theorem Tidied.refl (hf : f.Consistent) (hfit : f.Fits) : f.Tidied f :=
  ⟨hf, hfit, fun hu => ⟨hu, rfl, rfl⟩, fun hc => ⟨_, hc⟩⟩

theorem Tidied.trans (hfg : f.Tidied g) (hgh : g.Tidied h) : f.Tidied h where
  consistent := hgh.consistent
  fits := hgh.fits
  spares hu := by
    obtain ⟨hopen, hargs, hinstrs⟩ := hfg.spares hu
    obtain ⟨hopen', hargs', hinstrs'⟩ := hgh.spares hopen
    exact ⟨hopen', hargs'.trans hargs, hinstrs'.trans hinstrs⟩
  earlier hc := by
    obtain ⟨d, hd⟩ := hgh.earlier hc
    exact hfg.earlier hd

theorem Consistent.fits_of_mergeWithSuccessor (hf : f.Consistent) (hfit : f.Fits)
    (hrun : f.mergeWithSuccessor b = .ok (.ok (tail, g))) : g.Fits := by
  obtain ⟨operands, data, -, habsorb, rfl⟩ := (mergeWithSuccessor_eq_ok hf).mp hrun
  exact habsorb.fits_absorbed hf hfit

theorem Consistent.tidied_of_merge (hf : f.Consistent) (hfit : f.Fits)
    (hrun : f.mergeWithSuccessor b = .ok (.ok (tail, g))) {t : Terminator}
    (ht : f.terminator? tail = some t) : f.Tidied g := by
  have hg := hf.mergeWithSuccessor hrun
  obtain ⟨front, args, operands, σ, hfused⟩ := hf.exists_fused hrun
  have hterm : ∀ {u}, u ≠ b → u ≠ tail →
      g.terminator? u = (f.terminator? u).map (·.mapOperands σ) := by
    intro u hb htail
    rw [hfused.terminators, if_neg hb, if_neg htail]
  refine ⟨hg, hf.fits_of_mergeWithSuccessor hfit hrun, ?_, ?_⟩
  · rintro u ⟨hlive, hu⟩
    have hb : u ≠ b := by
      rintro rfl
      rw [hfused.branch] at hu
      cases hu
    have htail : u ≠ tail := by
      rintro rfl
      rw [ht] at hu
      cases hu
    have hargs : g.args? u = f.args? u := by rw [hfused.takes, if_neg htail]
    refine ⟨⟨?_, ?_⟩, hargs, ?_⟩
    · rw [← isSome_args?, hargs, isSome_args?, hlive]
    · rw [hterm hb htail, hu]
      rfl
    · rw [hfused.instrs, if_neg htail, if_neg hb]
  · intro c hc
    obtain ⟨habsorbs, u, passed, hbranch, hu⟩ := absorbsOpen_iff.mp hc
    obtain ⟨given, hsource, -⟩ := hfused.exists_branch_source hbranch
    refine ⟨_, absorbsOpen_iff.mpr ⟨hfused.absorbs_source hf hg habsorbs, u, given, hsource, ?_⟩⟩
    -- The block that absorbed has a terminator, and the absorbed one has no other incoming edge.
    have hb : u ≠ b := by
      rintro rfl
      rw [hfused.terminators, if_pos rfl, ht] at hu
      cases hu
    have htail : u ≠ tail := by
      rintro rfl
      have hedge : g.target? ⟨c, 0⟩ = some u := target?_eq_some.mpr ⟨_, hbranch, rfl⟩
      obtain ⟨data, hdata⟩ := isLiveBlock_iff.mp (hg.edges.live_target hedge)
      have hargs := hfused.takes u
      rw [if_pos rfl, args?_of hdata] at hargs
      cases hargs
    rw [hterm hb htail, Option.map_eq_none_iff] at hu
    exact hu

theorem absorbChain_of_isOpen (hb : f.IsOpen b) : f.absorbChain b = .error (.noTerminator b) := by
  obtain ⟨data, hdata⟩ := isLiveBlock_iff.mp hb.1
  have hterm : data.terminator = none := (terminator?_of hdata).symm.trans hb.2
  have hmerge : f.mergeWithSuccessor b = .error (.noTerminator b) := by
    rw [Body.mergeWithSuccessor, mergeTarget, terminator, block_eq_ok.mpr hdata, ok_bind, hterm]
    rfl
  rw [absorbChain_eq, hmerge]
  rfl

theorem Consistent.merge_outcome (hf : f.Consistent) (hfit : f.Fits)
    (hrun : f.mergeWithSuccessor b = .ok (.ok (tail, g))) :
    f.Tidied g ∧ (∃ t, g.terminator? b = some t) ∨ f.AbsorbsOpen b ∧ g.IsOpen b := by
  obtain ⟨operands, data, htarget, habsorb, rfl⟩ := (mergeWithSuccessor_eq_ok hf).mp hrun
  have hterm := habsorb.terminator?_absorbed hf b
  rw [if_pos rfl] at hterm
  rcases htail : f.terminator? tail with _ | t
  · obtain ⟨bdata, hb, -⟩ := terminator?_eq_some.mp habsorb.branch
    rw [htail] at hterm
    exact .inr ⟨⟨tail, operands, htarget, htail⟩,
      (habsorb.isLiveBlock_absorbed hf b).mpr ⟨isLiveBlock_of hb, habsorb.ne.symm⟩, hterm⟩
  · rw [htail] at hterm
    exact .inl ⟨hf.tidied_of_merge hfit hrun htail, _, hterm⟩

theorem Consistent.absorbChain_outcome (hf : f.Consistent) (hfit : f.Fits) {t : Terminator}
    (ht : f.terminator? b = some t) :
    (∃ merged g, f.absorbChain b = .ok (merged, g) ∧ f.Tidied g) ∨
      f.absorbChain b = .error (.noTerminator b) ∧ ∃ c, f.AbsorbsOpen c := by
  fun_induction absorbChain f b generalizing t with
  | case1 f fault hmerge =>
      obtain ⟨refusal | ⟨succ, operands⟩, htarget⟩ := hf.exists_mergeTarget_of_terminator? ht
      · rw [Body.mergeWithSuccessor, htarget] at hmerge
        cases hmerge
      · obtain ⟨data, -, -, -, hrun⟩ := hf.exists_absorbable hfit htarget
        cases hmerge.symm.trans hrun
  | case2 f refusal hmerge => exact .inl ⟨false, f, rfl, .refl hf hfit⟩
  | case3 f succ g hmerge fault hchain ih =>
      right
      rcases hf.merge_outcome hfit hmerge with ⟨htidied, t', ht'⟩ | ⟨hopens, hopen⟩
      · rcases ih htidied.consistent htidied.fits ht' with ⟨more, last, hrun, -⟩ | ⟨hrun, c, hc⟩
        · cases hchain.symm.trans hrun
        · cases hchain.symm.trans hrun
          exact ⟨rfl, htidied.earlier hc⟩
      · cases hchain.symm.trans (absorbChain_of_isOpen hopen)
        exact ⟨rfl, b, hopens⟩
  | case4 f succ g hmerge more last hchain ih =>
      left
      rcases hf.merge_outcome hfit hmerge with ⟨htidied, t', ht'⟩ | ⟨-, hopen⟩
      · rcases ih htidied.consistent htidied.fits ht' with ⟨more', last', hrun, hlast⟩ | ⟨hrun, -⟩
        · cases hchain.symm.trans hrun
          exact ⟨true, last, rfl, htidied.trans hlast⟩
        · cases hchain.symm.trans hrun
      · cases hchain.symm.trans (absorbChain_of_isOpen hopen)

/-- Whatever blocks are named, a round over them keeps the body tidy, or ends at a block that was left
without a terminator. -/
theorem Consistent.mergeEach_outcome (hf : f.Consistent) (hfit : f.Fits) (blocks : List BlockId) :
    (∃ merged g, f.mergeEach blocks = .ok (merged, g) ∧ f.Tidied g) ∨
      ∃ b c, f.mergeEach blocks = .error (.noTerminator b) ∧ f.AbsorbsOpen c := by
  induction blocks generalizing f with
  | nil => exact .inl ⟨false, f, rfl, .refl hf hfit⟩
  | cons b rest ih =>
      rw [mergeEach]
      split
      · rename_i hsome
        obtain ⟨t, ht⟩ := Option.isSome_iff_exists.mp hsome
        rcases hf.absorbChain_outcome hfit ht with ⟨here, g, hrun, hg⟩ | ⟨hrun, c, hc⟩
        · rw [hrun, ok_bind]
          rcases ih hg.consistent hg.fits with ⟨there, last, hrest, hlast⟩ | ⟨d, c, hrest, hc⟩
          · left
            refine ⟨here || there, last, ?_, hg.trans hlast⟩
            simp only [hrest, ok_bind]
            rfl
          · right
            obtain ⟨c', hc'⟩ := hg.earlier hc
            refine ⟨d, c', ?_, hc'⟩
            simp only [hrest, error_bind]
        · right
          refine ⟨b, c, ?_, hc⟩
          rw [hrun, error_bind]
      · rw [pure_bind]
        rcases ih hf hfit with ⟨there, last, hrest, hlast⟩ | ⟨d, c, hrest, hc⟩
        · left
          refine ⟨there, last, ?_, hlast⟩
          simp only [hrest, ok_bind]
          rfl
        · right
          refine ⟨d, c, ?_, hc⟩
          simp only [hrest, error_bind]

/-- `c` branches to `u`, which has no terminator, takes nothing and has no other incoming edge. -/
structure Dangles (f : Body) (c u : BlockId) : Prop where
  branch : f.terminator? c = some (.br u [])
  into : ∀ {x}, f.target? x = some u → x = ⟨c, 0⟩
  unfinished : f.terminator? u = none
  bare : f.args? u = some []
  not_entry : f.entry ≠ .ok u

theorem Consistent.dangles_of_mergeTarget (hf : f.Consistent) (hfit : f.Fits)
    (htarget : f.mergeTarget c = .ok (.ok (u, []))) (hu : f.terminator? u = none) :
    f.Dangles c u := by
  obtain ⟨data, habsorb, hentry, -⟩ := hf.exists_absorbable hfit htarget
  have hargs : data.args = [] := List.length_eq_zero_iff.mp habsorb.arity
  refine ⟨habsorb.branch, (habsorb.target?_iff hf.edges).mp, hu, ?_, hentry⟩
  rw [args?_of habsorb.block, hargs]

namespace Dangles

variable (hd : f.Dangles c u)
include hd

theorem ne : u ≠ c := by
  rintro rfl
  have hbranch := hd.branch
  rw [hd.unfinished] at hbranch
  cases hbranch

theorem absorbs (hf : f.Consistent) : f.Absorbs c := by
  obtain ⟨data, hc, -⟩ := terminator?_eq_some.mp hd.branch
  obtain ⟨entry, rest, hlayout⟩ := List.exists_cons_of_ne_nil
    (List.ne_nil_of_mem ((hf.layout.mem_iff c).mpr (isLiveBlock_of hc)))
  have hentry : f.entry = .ok entry := entry_eq_ok.mpr ⟨rest, hlayout⟩
  refine hf.absorbs_iff.mpr ⟨u, [], [], entry, hd.branch, hd.ne, hentry, ?_, fun x => hd.into,
    hd.bare, fun v hv => ?_⟩
  · rintro rfl
    exact hd.not_entry hentry
  · cases hv

/-- What blocks absorb moves the branch to the unfinished block along with its block. -/
theorem of_merge (hf : f.Consistent) (hrun : f.mergeWithSuccessor b = .ok (.ok (tail, g)))
    (htail : tail ≠ u) : g.Dangles (if c = tail then b else c) u := by
  obtain ⟨front, args, operands, σ, hfused⟩ := hf.exists_fused hrun
  have hcb : c ≠ b := by
    rintro rfl
    have hbranch := hd.branch
    rw [hfused.branch] at hbranch
    cases hbranch
    exact htail rfl
  have hub : u ≠ b := by
    rintro rfl
    have hbranch := hfused.branch
    rw [hd.unfinished] at hbranch
    cases hbranch
  refine ⟨?_, ?_, ?_, ?_, fun hentry => hd.not_entry (hfused.entry.mp hentry)⟩
  · rcases Classical.em (c = tail) with rfl | hc
    · rw [if_pos rfl, hfused.terminators, if_pos rfl, hd.branch]
      rfl
    · rw [if_neg hc, hfused.terminators, if_neg hcb, if_neg hc, hd.branch]
      rfl
  · rintro ⟨d, k⟩ hx
    rw [hfused.target?] at hx
    split at hx
    · rename_i hblock
      cases hd.into hx
      rw [if_pos rfl, ← hblock]
    · split at hx
      · cases hx
      · rename_i hother
        cases hd.into hx
        rw [if_neg hother]
  · rw [hfused.terminators, if_neg hub, if_neg htail.symm, hd.unfinished]
    rfl
  · rw [hfused.takes, if_neg htail.symm, hd.bare]

/-- A block that comes to its end has not absorbed the branch to the unfinished block. -/
theorem of_absorbChain (hf : f.Consistent) (hfit : f.Fits)
    (hrun : f.absorbChain b = .ok (merged, g)) : c ≠ b ∧ g.Dangles c u := by
  fun_induction absorbChain f b generalizing c merged with
  | case1 f fault hmerge => cases hrun
  | case2 f refusal hmerge =>
      cases hrun
      refine ⟨?_, hd⟩
      rintro rfl
      exact not_absorbs_of_mergeWithSuccessor hmerge (hd.absorbs hf)
  | case3 f succ next hmerge fault hchain ih => cases hrun
  | case4 f succ next hmerge more last hchain ih =>
      cases hrun
      rcases hf.merge_outcome hfit hmerge with ⟨htidied, t, ht⟩ | ⟨-, hopen⟩
      · have hsucc : succ ≠ u := by
          rintro rfl
          obtain ⟨front, args, operands, σ, hfused⟩ := hf.exists_fused hmerge
          rw [hfused.terminators, if_pos rfl, hd.unfinished] at ht
          cases ht
        obtain ⟨hne, hlast⟩ := ih (hd.of_merge hf hmerge hsucc) htidied.consistent htidied.fits hchain
        split at hne
        · exact absurd rfl hne
        · rename_i hother
          rw [if_neg hother] at hlast
          exact ⟨hne, hlast⟩
      · cases hchain.symm.trans (absorbChain_of_isOpen hopen)

theorem notMem_of_mergeEach (hf : f.Consistent) (hfit : f.Fits)
    (hrun : f.mergeEach blocks = .ok (merged, g)) : c ∉ blocks := by
  induction blocks generalizing f g merged with
  | nil => exact List.not_mem_nil
  | cons b rest ih =>
      rw [List.mem_cons, not_or]
      rw [mergeEach] at hrun
      split at hrun
      · rename_i hsome
        obtain ⟨t, ht⟩ := Option.isSome_iff_exists.mp hsome
        obtain ⟨⟨here, next⟩, hchain, hrest⟩ := bind_eq_ok.mp hrun
        obtain ⟨⟨there, last⟩, hlast, -⟩ := bind_eq_ok.mp hrest
        obtain ⟨hne, hnext⟩ := hd.of_absorbChain hf hfit hchain
        rcases hf.absorbChain_outcome hfit ht with ⟨here', next', hchain', htidied⟩ | ⟨hfault, -⟩
        · cases hchain.symm.trans hchain'
          exact ⟨hne, ih hnext htidied.consistent htidied.fits hlast⟩
        · cases hchain.symm.trans hfault
      · rename_i hnone
        rw [pure_bind] at hrun
        obtain ⟨⟨there, last⟩, hlast, -⟩ := bind_eq_ok.mp hrun
        refine ⟨?_, ih hd hf hfit hlast⟩
        rintro rfl
        exact hnone (Option.isSome_iff_exists.mpr ⟨_, hd.branch⟩)

end Dangles

end Body

/-- On a well-built body whose edges deliver what their targets take, a round of joining blocks returns
and leaves the blocks without terminator as they are, unless a block can absorb one of these. Then it
can only end at a block that it left without a terminator, and it does so if the block without
terminator takes no arguments. -/
theorem WellBuilt.mergeBlocks_returns_unless_open {f : Body} (hf : WellBuilt f)
    (hfit : ∀ b t e s, f.terminator? b = some t → t.successors[e]? = some s → f.Delivers t e s) :
    (∀ merged g, f.mergeBlocks = .ok (merged, g) → ∀ u, f.isLiveBlock u = true →
      f.terminator? u = none → g.isLiveBlock u = true ∧ g.terminator? u = none ∧
        g.args? u = f.args? u ∧ g.instrs? u = f.instrs? u) ∧
    ((∀ b u operands, f.mergeTarget b = .ok (.ok (u, operands)) → ∃ t, f.terminator? u = some t) →
      ∃ merged g, f.mergeBlocks = .ok (merged, g)) ∧
    (∀ fault, f.mergeBlocks = .error fault → ∃ b, fault = .noTerminator b) ∧
    ∀ b u, f.mergeTarget b = .ok (.ok (u, [])) → f.terminator? u = none →
      ∃ c, f.mergeBlocks = .error (.noTerminator c) := by
  have hcons := hf.consistent
  have hfits : f.Fits := fun {b t e s} => hfit b t e s
  have houtcome := hcons.mergeEach_outcome hfits f.layout
  refine ⟨fun merged g hrun u hlive hu => ?_, fun hclosed => ?_, fun fault hrun => ?_,
    fun b u htarget hu => ?_⟩
  · rcases houtcome with ⟨merged', g', hrun', htidied⟩ | ⟨b, c, hrun', -⟩
    · cases hrun.symm.trans hrun'
      obtain ⟨⟨hlive', hu'⟩, hkept⟩ := htidied.spares ⟨hlive, hu⟩
      exact ⟨hlive', hu', hkept⟩
    · cases hrun.symm.trans hrun'
  · rcases houtcome with ⟨merged, g, hrun, -⟩ | ⟨b, c, -, u, operands, htarget, hu⟩
    · exact ⟨merged, g, hrun⟩
    · obtain ⟨t, ht⟩ := hclosed c u operands htarget
      rw [hu] at ht
      cases ht
  · rcases houtcome with ⟨merged, g, hrun', -⟩ | ⟨b, c, hrun', -⟩
    · cases hrun.symm.trans hrun'
    · cases hrun.symm.trans hrun'
      exact ⟨b, rfl⟩
  · rcases houtcome with ⟨merged, g, hrun, -⟩ | ⟨c, d, hrun, -⟩
    · have hdangles := hcons.dangles_of_mergeTarget hfits htarget hu
      obtain ⟨data, hdata, -⟩ := Body.terminator?_eq_some.mp hdangles.branch
      exact absurd ((hcons.layout.mem_iff b).mpr (Body.isLiveBlock_of hdata))
        (hdangles.notMem_of_mergeEach hcons hfits hrun)
    · exact ⟨c, hrun⟩

/-- A block that can be absorbed behind one side of a branch, and a block without terminator on the
other. -/
def openBranch : Body :=
  replayed [.createBlock, .createBlock, .createBlock, .createBlock,
    .addFunctionArg ⟨0⟩ .int .guaranteed, .addPhi ⟨1⟩ .int .none, .addPhi ⟨3⟩ .int .none,
    .setTerminator ⟨0⟩ (.condBr ⟨0⟩ ⟨1⟩ [⟨0⟩] ⟨2⟩ []),
    .setTerminator ⟨2⟩ (.br ⟨3⟩ [⟨0⟩]),
    .setTerminator ⟨3⟩ (.ret ⟨2⟩)]

theorem openBranch_mergeBlocks_returns :
    ∃ merged g, openBranch.mergeBlocks = .ok (merged, g) ∧ g.isLiveBlock ⟨1⟩ = true ∧
      g.terminator? ⟨1⟩ = none := by
  have hbuilt : WellBuilt openBranch := wellBuilt_replayed _
  have hedges : ∀ x ∈ openBranch.edgeTargets, openBranch.edgeFits x.1 x.2 = true := by
    decide +kernel
  have hfits : Body.Fits _ := hbuilt.consistent.layout.fits_iff.mpr hedges
  have hclosed : ∀ b ∈ openBranch.layout, ∀ u operands,
      openBranch.mergeTarget b = .ok (.ok (u, operands)) →
        (openBranch.terminator? u).isSome = true := by
    have hchecked : ∀ b ∈ openBranch.layout, (match openBranch.mergeTarget b with
        | .ok (.ok (u, _)) => (openBranch.terminator? u).isSome
        | _ => true) = true := by decide +kernel
    intro b hb u operands htarget
    have hb := hchecked b hb
    rwa [htarget] at hb
  obtain ⟨hspares, hreturns, -⟩ :=
    WellBuilt.mergeBlocks_returns_unless_open hbuilt fun b t e s ht hs => hfits ht hs
  obtain ⟨merged, g, hrun⟩ := hreturns fun b u operands htarget => by
    have hlive : openBranch.Absorbs b := ⟨u, operands, htarget⟩
    exact Option.isSome_iff_exists.mp (hclosed b
      ((hbuilt.consistent.layout.mem_iff b).mpr hlive.isLiveBlock) u operands htarget)
  obtain ⟨hlive, hopen, -⟩ := hspares merged g hrun ⟨1⟩ (by cbv) (by cbv)
  exact ⟨merged, g, hrun, hlive, hopen⟩

/-- A block without terminator at the end of a chain of branches. -/
def openChain : Body :=
  replayed [.createBlock, .createBlock, .createBlock,
    .addFunctionArg ⟨0⟩ .int .guaranteed, .addPhi ⟨1⟩ .int .none,
    .setTerminator ⟨0⟩ (.br ⟨1⟩ [⟨0⟩]),
    .setTerminator ⟨1⟩ (.br ⟨2⟩ [])]

/-- The round does not return although all edges deliver what their targets take. -/
theorem openChain_mergeBlocks_faults :
    WellBuilt openChain ∧
      (∀ b t e s, openChain.terminator? b = some t → t.successors[e]? = some s →
        openChain.Delivers t e s) ∧
      openChain.mergeBlocks = .error (.noTerminator ⟨0⟩) := by
  have hbuilt : WellBuilt openChain := wellBuilt_replayed _
  have hedges : ∀ x ∈ openChain.edgeTargets, openChain.edgeFits x.1 x.2 = true := by
    decide +kernel
  have hfits : Body.Fits _ := hbuilt.consistent.layout.fits_iff.mpr hedges
  exact ⟨hbuilt, fun b t e s ht hs => hfits ht hs, by decide +kernel⟩

end FlowGraph
