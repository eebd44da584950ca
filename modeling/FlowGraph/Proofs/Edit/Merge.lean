import Mathlib.Logic.Relation
import FlowGraph.Edit.Merge
import FlowGraph.Proofs.Consistency.Join
import FlowGraph.Proofs.Validity

namespace FlowGraph

namespace Terminator

variable {t : Terminator} {e : Nat}

theorem explicitArgs?_mapOperands (t : Terminator) (e : Nat) (σ : ValueId → ValueId) :
    (t.mapOperands σ).explicitArgs? e = (t.explicitArgs? e).map (List.map σ) := by
  cases t <;> rcases e with _ | _ | e <;> rfl

theorem edgeArgs?_mapOperands_of_implicit {payload : Payload}
    (h : t.edgeArgs? e = some (.implicit payload)) (σ : ValueId → ValueId) :
    (t.mapOperands σ).edgeArgs? e = some (.implicit payload) := by
  cases t <;> rcases e with _ | _ | e <;> simp_all [edgeArgs?, mapOperands]

theorem exists_edgeArgs?_mapOperands {given : EdgeArgs} (h : t.edgeArgs? e = some given)
    (σ : ValueId → ValueId) :
    ∃ passed, (t.mapOperands σ).edgeArgs? e = some passed ∧ ∀ n, passed.fits n = given.fits n := by
  rcases given with args | payload
  · refine ⟨.explicit (args.map σ), ?_, fun n => by simp [EdgeArgs.fits]⟩
    rw [edgeArgs?_eq_explicit, explicitArgs?_mapOperands, edgeArgs?_eq_explicit.mp h]
    rfl
  · exact ⟨.implicit payload, edgeArgs?_mapOperands_of_implicit h σ, fun n => rfl⟩

end Terminator

namespace Body

variable {f g : Body} {b succ : BlockId} {operands : List ValueId} {sdata : Block}

/-- Every edge delivers what its target takes. -/
def Fits (f : Body) : Prop :=
  ∀ {b t e s}, f.terminator? b = some t → t.successors[e]? = some s → f.Delivers t e s

/-- The body `g` is `f` after `b` has absorbed `succ`. -/
structure IsMerge (f g : Body) (b succ : BlockId) : Prop where
  consistent : g.Consistent
  valid : g.Valid
  entry : ∀ {c}, g.entry = .ok c ↔ f.entry = .ok c
  ne : b ≠ succ
  not_entry : f.entry ≠ .ok succ
  into : ∀ x, f.target? x = some succ ↔ x = ⟨b, 0⟩
  out : ∀ {k y}, f.target? ⟨b, k⟩ = some y → y = succ
  target : ∀ x, g.target? x =
    if x.block = b then f.target? ⟨succ, x.index⟩
    else if x.block = succ then none else f.target? x
  live : ∀ c, g.isLiveBlock c = true ↔ f.isLiveBlock c = true ∧ c ≠ succ

/-- One block has absorbed its successor. -/
def MergeOnce (f g : Body) : Prop := ∃ b succ, f.mergeWithSuccessor b = .ok (.ok (succ, g))

namespace Absorbable

variable (h : f.Absorbable b succ operands sdata)
include h

theorem target?_absorbed (hf : f.Consistent) (x : Edge) :
    (f.absorbed b succ operands sdata).target? x =
      if x.block = b then f.target? ⟨succ, x.index⟩
      else if x.block = succ then none else f.target? x := by
  rw [target?, h.terminator?_absorbed hf, target?, target?]
  split
  · rcases f.terminator? succ with _ | t
    · rfl
    · simp
  · split
    · rfl
    · rcases f.terminator? x.block with _ | t
      · rfl
      · simp

theorem exists_of_mem_operandsAt? (hf : f.Consistent) {point : Point} {v : ValueId}
    (hmem : v ∈ (f.absorbed b succ operands sdata).operandsAt? point) :
    ∃ source w, w ∈ f.operandsAt? source ∧ renameAll sdata.args operands w = v := by
  cases point with
  | instr i =>
      refine ⟨.instr i, ?_⟩
      rw [operandsAt?_instr, operation?, h.instr?_absorbed hf] at hmem
      rw [operandsAt?_instr, operation?]
      rcases hi : f.instr? i with _ | data
      · simp [hi] at hmem
      · simpa [hi] using hmem
  | terminator c =>
      rw [operandsAt?_terminator, h.terminator?_absorbed hf] at hmem
      have hread : ∀ c, v ∈ (((f.terminator? c).map
          (·.mapOperands (renameAll sdata.args operands))).map (·.operands)).getD [] →
          ∃ source w, w ∈ f.operandsAt? source ∧ renameAll sdata.args operands w = v := by
        intro c hmem
        refine ⟨.terminator c, ?_⟩
        rw [operandsAt?_terminator]
        rcases ht : f.terminator? c with _ | t
        · simp [ht] at hmem
        · simpa [ht] using hmem
      split at hmem
      · exact hread succ hmem
      · split at hmem
        · cases hmem
        · exact hread c hmem

theorem isLiveValue_absorbed (hv : f.Valid) (hfree : ∀ v ∈ operands, v ∉ sdata.args) {v : ValueId}
    (hlive : f.isLiveValue v = true) :
    (f.absorbed b succ operands sdata).isLiveValue (renameAll sdata.args operands v) = true := by
  rw [isLiveValue, h.value?_absorbed]
  rcases Classical.em (v ∈ sdata.args) with hmem | hmem
  · have hoperand := renameAll_mem h.arity hfree hmem
    rw [if_neg (hfree _ hoperand)]
    refine @hv.live_operands (.terminator b) _ ?_
    rw [operandsAt?_terminator, h.branch]
    exact hoperand
  · rw [renameAll_of_notMem hmem, if_neg hmem]
    exact hlive

omit h in
theorem entry_absorbed (hentry : f.entry ≠ .ok succ) {c : BlockId} :
    (f.absorbed b succ operands sdata).entry = .ok c ↔ f.entry = .ok c := by
  rw [entry_eq_ok, entry_eq_ok, absorbed_eq]
  change (∃ rest, f.layout.filter (· ≠ succ) = c :: rest) ↔ _
  rcases hlayout : f.layout with _ | ⟨first, rest⟩
  · simp
  · have hne : first ≠ succ := by
      rintro rfl
      exact hentry (entry_eq_ok.mpr ⟨rest, hlayout⟩)
    simp [hne]

theorem fits_absorbed (hf : f.Consistent) (hfit : f.Fits) :
    (f.absorbed b succ operands sdata).Fits := by
  intro c t' e s ht' hs
  have hdelivers : ∀ c t, c ≠ b → f.terminator? c = some t → t.successors[e]? = some s →
      (f.absorbed b succ operands sdata).Delivers
        (t.mapOperands (renameAll sdata.args operands)) e s := by
    intro c t hc ht hs
    have hne : s ≠ succ := by
      rintro rfl
      have hedge : f.target? ⟨c, e⟩ = some s := target?_eq_some.mpr ⟨t, ht, hs⟩
      exact hc (congrArg Edge.block ((h.target?_iff hf.edges).mp hedge))
    obtain ⟨given, taken, hgiven, htaken, hfits⟩ := hfit ht hs
    obtain ⟨passed, hpassed, hsame⟩ :=
      Terminator.exists_edgeArgs?_mapOperands hgiven (renameAll sdata.args operands)
    refine ⟨passed, taken, hpassed, ?_, (hsame _).trans hfits⟩
    rw [h.args?_absorbed hf, if_neg hne, htaken]
  rw [h.terminator?_absorbed hf] at ht'
  obtain ⟨t, ht, rfl⟩ := Option.map_eq_some_iff.mp ht'
  rw [Terminator.successors_mapOperands] at hs
  split at ht
  · exact hdelivers succ t h.ne ht hs
  · rename_i hc
    split at ht
    · cases ht
    · exact hdelivers c t hc ht hs

theorem valid_absorbed (hf : f.Consistent) (hv : f.Valid) (hentry : f.entry ≠ .ok succ)
    (hfree : ∀ v ∈ operands, v ∉ sdata.args) : (f.absorbed b succ operands sdata).Valid := by
  have hgf := h.consistent_absorbed hf
  have hlive := h.isLiveBlock_absorbed hf
  have hterm := h.terminator?_absorbed hf
  obtain ⟨data, hb, -⟩ := terminator?_eq_some.mp h.branch
  refine ⟨?_, ?_, ?_, ?_, ?_⟩
  · have hself := (hlive b).mpr ⟨isLiveBlock_of hb, h.ne.symm⟩
    exact List.ne_nil_of_mem ((hgf.layout.mem_iff b).mpr hself)
  · intro c hc
    obtain ⟨hc, hne⟩ := (hlive c).mp hc
    obtain ⟨s, hs⟩ := hv.terminated (isLiveBlock_of h.block)
    obtain ⟨t, ht⟩ := hv.terminated hc
    rw [hterm, hs, ht, if_neg hne]
    split <;> exact ⟨_, rfl⟩
  · exact h.fits_absorbed hf hv.delivers
  · intro point v hmem
    obtain ⟨source, w, hw, rfl⟩ := h.exists_of_mem_operandsAt? hf hmem
    exact h.isLiveValue_absorbed hv hfree (hv.live_operands hw)
  · intro c e hc htarget
    have hfree := fun e => @hv.entry_free c e ((entry_absorbed hentry).mp hc)
    rw [h.target?_absorbed hf] at htarget
    split at htarget
    · exact hfree _ htarget
    · split at htarget
      · cases htarget
      · exact hfree _ htarget

end Absorbable

theorem Valid.exists_entry (hv : f.Valid) : ∃ entry, f.entry = .ok entry := by
  obtain ⟨entry, rest, hlayout⟩ := List.exists_cons_of_ne_nil hv.nonempty
  exact ⟨entry, entry_eq_ok.mpr ⟨rest, hlayout⟩⟩

theorem Consistent.exists_mergeTarget_of_terminator? (hf : f.Consistent) {t : Terminator}
    (ht : f.terminator? b = some t) : ∃ target, f.mergeTarget b = .ok target := by
  obtain ⟨data, hb, -⟩ := terminator?_eq_some.mp ht
  obtain ⟨entry, rest, hlayout⟩ := List.exists_cons_of_ne_nil
    (List.ne_nil_of_mem ((hf.layout.mem_iff b).mpr (isLiveBlock_of hb)))
  rw [mergeTarget, terminator_eq_ok.mpr (terminator?_eq_some.mp ht), ok_bind]
  split
  · rename_i succ args
    have htarget : f.target? ⟨b, 0⟩ = some succ := target?_eq_some.mpr ⟨_, ht, rfl⟩
    obtain ⟨data, hdata⟩ := isLiveBlock_iff.mp (hf.edges.live_target htarget)
    rw [entry_eq_ok.mpr ⟨rest, hlayout⟩, ok_bind, block_eq_ok.mpr hdata, ok_bind]
    split
    · exact ⟨_, rfl⟩
    · split
      · exact ⟨_, rfl⟩
      · split
        · exact ⟨_, rfl⟩
        · split <;> exact ⟨_, rfl⟩
  · exact ⟨_, rfl⟩

theorem Consistent.exists_mergeTarget (hf : f.Consistent) (hv : f.Valid)
    (hb : f.isLiveBlock b = true) : ∃ target, f.mergeTarget b = .ok target := by
  obtain ⟨t, ht⟩ := hv.terminated hb
  exact hf.exists_mergeTarget_of_terminator? ht

/-- Where edges deliver what their targets take, a block absorbs what it can. -/
theorem Consistent.exists_absorbable (hf : f.Consistent) (hfit : f.Fits)
    (htarget : f.mergeTarget b = .ok (.ok (succ, operands))) :
    ∃ sdata, f.Absorbable b succ operands sdata ∧ f.entry ≠ .ok succ ∧
      (∀ v ∈ operands, v ∉ sdata.args) ∧
      f.mergeWithSuccessor b = .ok (.ok (succ, f.absorbed b succ operands sdata)) := by
  obtain ⟨hbranch, hne, ⟨entry, hentry, hother⟩, sdata, hs, hsingle, hfree⟩ :=
    mergeTarget_eq_ok.mp htarget
  have harity : sdata.args.length = operands.length := by
    obtain ⟨given, taken, hgiven, htaken, hfits⟩ := @hfit b _ 0 succ hbranch rfl
    cases hgiven
    rw [args?_of hs] at htaken
    cases htaken
    exact (beq_iff_eq.mp hfits).symm
  have h : f.Absorbable b succ operands sdata := ⟨hbranch, hne, hs, hsingle, harity⟩
  refine ⟨sdata, h, ?_, hfree, (mergeWithSuccessor_eq_ok hf).mpr ⟨operands, sdata, htarget, h, rfl⟩⟩
  rw [hentry]
  exact fun heq => hother (Except.ok.inj heq).symm

/-- A block of a valid body either absorbs its successor or declines. -/
theorem Consistent.mergeWithSuccessor_cases (hf : f.Consistent) (hv : f.Valid)
    (hb : f.isLiveBlock b = true) :
    (∃ refusal, f.mergeWithSuccessor b = .ok (.error refusal)) ∨
      ∃ succ g, f.mergeWithSuccessor b = .ok (.ok (succ, g)) ∧ f.IsMerge g b succ := by
  obtain ⟨refusal | ⟨succ, operands⟩, htarget⟩ := hf.exists_mergeTarget hv hb
  · left
    refine ⟨refusal, ?_⟩
    rw [Body.mergeWithSuccessor, htarget]
    rfl
  · right
    obtain ⟨sdata, h, hnot, hfree, hrun⟩ := hf.exists_absorbable hv.delivers htarget
    refine ⟨succ, _, hrun, h.consistent_absorbed hf, h.valid_absorbed hf hv hnot hfree,
      Absorbable.entry_absorbed hnot, h.ne.symm, hnot, fun x => h.target?_iff hf.edges, ?_,
      h.target?_absorbed hf, h.isLiveBlock_absorbed hf⟩
    intro k y hy
    obtain ⟨t, ht, hk⟩ := target?_eq_some.mp hy
    rw [h.branch] at ht
    cases ht
    rcases k with _ | k
    · exact (Option.some.inj hk).symm
    · cases hk

/-- A block of a valid body can absorb its successors until one of them stays. -/
theorem Consistent.exists_absorbChain (hf : f.Consistent) (hv : f.Valid)
    (hb : f.isLiveBlock b = true) :
    ∃ merged g, f.absorbChain b = .ok (merged, g) ∧ g.Consistent ∧ g.Valid ∧
      Relation.ReflTransGen MergeOnce f g := by
  fun_induction absorbChain f b with
  | case1 f fault hmerge =>
      rcases hf.mergeWithSuccessor_cases hv hb with ⟨refusal, hrun⟩ | ⟨succ, g, hrun, -⟩
      · cases hmerge.symm.trans hrun
      · cases hmerge.symm.trans hrun
  | case2 f refusal hmerge => exact ⟨false, f, rfl, hf, hv, .refl⟩
  | case3 f succ g hmerge fault hchain ih =>
      rcases hf.mergeWithSuccessor_cases hv hb with ⟨refusal, hrun⟩ | ⟨succ', g', hrun, hg⟩
      · cases hmerge.symm.trans hrun
      · cases hmerge.symm.trans hrun
        obtain ⟨merged, last, hlast, -⟩ := ih hg.consistent hg.valid ((hg.live b).mpr ⟨hb, hg.ne⟩)
        cases hchain.symm.trans hlast
  | case4 f succ g hmerge merged last hchain ih =>
      rcases hf.mergeWithSuccessor_cases hv hb with ⟨refusal, hrun⟩ | ⟨succ', g', hrun, hg⟩
      · cases hmerge.symm.trans hrun
      · cases hmerge.symm.trans hrun
        obtain ⟨merged', last', hlast, hconsistent, hvalid, hmerges⟩ :=
          ih hg.consistent hg.valid ((hg.live b).mpr ⟨hb, hg.ne⟩)
        cases hchain.symm.trans hlast
        exact ⟨true, last, rfl, hconsistent, hvalid, .head ⟨b, succ, hmerge⟩ hmerges⟩

/-- Whatever blocks are named, those that are left by then absorb what they can. -/
theorem Consistent.exists_mergeEach (hf : f.Consistent) (hv : f.Valid) (blocks : List BlockId) :
    ∃ merged g, f.mergeEach blocks = .ok (merged, g) ∧ g.Consistent ∧ g.Valid ∧
      Relation.ReflTransGen MergeOnce f g := by
  induction blocks generalizing f with
  | nil => exact ⟨false, f, rfl, hf, hv, .refl⟩
  | cons b rest ih =>
      rw [mergeEach]
      split
      · rename_i hsome
        obtain ⟨t, ht⟩ := Option.isSome_iff_exists.mp hsome
        obtain ⟨data, hb, -⟩ := terminator?_eq_some.mp ht
        obtain ⟨here, g, hrun, hg, hvg, hmerges⟩ := hf.exists_absorbChain hv (isLiveBlock_of hb)
        obtain ⟨there, last, hrest, hlast, hvlast, hmerges'⟩ := ih hg hvg
        refine ⟨here || there, last, ?_, hlast, hvlast, hmerges.trans hmerges'⟩
        rw [hrun, ok_bind]
        simp only [hrest, ok_bind]
        rfl
      · obtain ⟨there, last, hrest, hlast⟩ := ih hf hv
        refine ⟨there, last, ?_, hlast⟩
        simp only [pure_bind, hrest, ok_bind]
        rfl

end Body

end FlowGraph
