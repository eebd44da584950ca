import FlowGraph.DeadEnd
import FlowGraph.Proofs.PostDominance.Exact

namespace FlowGraph

theorem Terminator.isExiting_iff {t : Terminator} :
    t.isExiting = true ↔ (∃ v, t = .ret v) ∨ (∃ v, t = .throwing v) ∨ t = .unwind := by
  cases t <;> simp [isExiting]

namespace Body

variable {f : Body} {b c : BlockId}

/-- Whether `b` has a terminator that leaves the function. -/
def leaves (f : Body) (b : BlockId) : Bool := (f.terminator? b).any Terminator.isExiting

/-- Some way leads from `b` out of the function. -/
def Escapes (f : Body) (b : BlockId) : Prop := ∃ x, f.leaves x = true ∧ Reaches f.Arc b x

theorem leaves_iff : f.leaves b = true ↔ ∃ t, f.terminator? b = some t ∧ t.isExiting = true := by
  rw [leaves, Option.any_eq_true]

theorem isLiveBlock_of_leaves (h : f.leaves b = true) : f.isLiveBlock b = true := by
  obtain ⟨t, ht, -⟩ := leaves_iff.mp h
  obtain ⟨data, hdata, -⟩ := terminator?_eq_some.mp ht
  exact isLiveBlock_of hdata

theorem isExiting_eq_ok (h : f.isLiveBlock b = true) : f.isExiting b = .ok (f.leaves b) := by
  obtain ⟨data, hdata⟩ := isLiveBlock_iff.mp h
  rw [isExiting, block_eq_ok.mpr hdata, leaves, terminator?_of hdata]
  rfl

namespace EdgesListed

variable (h : f.EdgesListed)
include h

theorem exists_backflow_next (b : BlockId) (hb : f.isLiveBlock b = true) :
    ∃ sources, f.backflow.next b = .ok sources ∧ ∀ c ∈ sources, f.isLiveBlock c = true := by
  obtain ⟨data, hdata⟩ := isLiveBlock_iff.mp hb
  refine ⟨_, backflow_next hdata, fun c hc => ?_⟩
  exact Body.isLiveBlock_of_arc ((h.mem_preds_iff_arc hdata).mp hc)

theorem backflow_arc_iff : f.backflow.Arc c b ↔ f.Arc b c := by
  constructor
  · rintro ⟨sources, hsources, hb⟩
    obtain ⟨data, hdata⟩ := mem_liveBlocks.mp (f.backflow.mem_nodes c sources hsources)
    rw [backflow_next hdata, Except.ok.injEq] at hsources
    exact (h.mem_preds_iff_arc hdata).mp (hsources ▸ hb)
  · intro harc
    obtain ⟨data, hdata⟩ := isLiveBlock_iff.mp (h.isLiveBlock_of_arc harc)
    exact ⟨_, backflow_next hdata, (h.mem_preds_iff_arc hdata).mpr harc⟩

end EdgesListed

theorem Consistent.exists_blocksReachingExit (h : f.Consistent) :
    ∃ reaching, f.blocksReachingExit = .ok reaching ∧ ∀ b, b ∈ reaching ↔ f.Escapes b := by
  have hlive : ∀ b ∈ f.layout, f.isExiting b = .ok (f.leaves b) := fun b hb =>
    isExiting_eq_ok ((h.layout.mem_iff b).mp hb)
  have hstack : ∀ x, x ∈ (f.layout.filter f.leaves).reverse ↔ f.leaves x = true := by
    intro x
    rw [List.mem_reverse, List.mem_filter, h.layout.mem_iff]
    exact and_iff_right_of_imp isLiveBlock_of_leaves
  obtain ⟨reaching, hrun, -, hmem⟩ := Graph.exists_flood h.edges.exists_backflow_next
    (fun x hx => isLiveBlock_of_leaves ((hstack x).mp hx)) List.nodup_nil
  refine ⟨reaching, ?_, fun b => (hmem b).trans ?_⟩
  · rw [blocksReachingExit, filterM_eq_ok hlive, ok_bind, hrun]
  · constructor
    · rintro (hnil | ⟨x, hx, hpath⟩)
      · exact absurd hnil List.not_mem_nil
      · refine ⟨x, (hstack x).mp hx, ?_⟩
        exact (hpath.mono fun _ _ => trivial).reverse fun _ _ => h.edges.backflow_arc_iff.mp
    · rintro ⟨x, hx, hpath⟩
      refine .inr ⟨x, (hstack x).mpr hx, ?_⟩
      exact (hpath.mono fun _ _ => List.not_mem_nil).reverse fun _ _ => h.edges.backflow_arc_iff.mpr

/-- The answers of a new analysis, and that it gives the same ones once it has computed its set. -/
theorem Consistent.exists_deadEnds (h : f.Consistent) :
    ∃ dead : BlockId → Bool, (∀ b, dead b = true ↔ ¬ f.Escapes b) ∧
      (∀ b, ({} : DeadEnds).isDeadEnd f b = .ok (dead b)) ∧
      ({} : DeadEnds).deadEnds f = .ok (f.layout.filter dead) ∧
      ∃ d, ({} : DeadEnds).compute f = .ok d ∧ d.isComputed = true ∧
        (∀ b, d.isDeadEnd f b = .ok (dead b)) ∧ d.deadEnds f = .ok (f.layout.filter dead) := by
  obtain ⟨reaching, hrun, hmem⟩ := h.exists_blocksReachingExit
  have hnew : ({} : DeadEnds).reachingOf f = .ok reaching := hrun
  refine ⟨fun b => b ∉ reaching, fun b => ?_, fun b => ?_, ?_, ⟨some reaching⟩, ?_, rfl, fun b => rfl,
    rfl⟩
  · rw [decide_eq_true_eq, hmem]
  · rw [DeadEnds.isDeadEnd, hnew]
    rfl
  · rw [DeadEnds.deadEnds, hnew]
    rfl
  · rw [DeadEnds.compute, hnew]
    rfl

end Body

/-- A dead end of a well-built body is a block from which no way leads to a return, a throw or an
unwinding. -/
theorem WellBuilt.deadEnds_exact {f : Body} (hf : WellBuilt f) :
    ∃ dead : BlockId → Bool,
      (∀ b, dead b = true ↔ ¬ ∃ x way t, IsWay f.Arc b x way ∧ f.terminator? x = some t ∧
        ((∃ v, t = .ret v) ∨ (∃ v, t = .throwing v) ∨ t = .unwind)) ∧
      (∀ b, ({} : DeadEnds).isDeadEnd f b = .ok (dead b)) ∧
      ({} : DeadEnds).deadEnds f = .ok (f.layout.filter dead) ∧
      ∃ d, ({} : DeadEnds).compute f = .ok d ∧ d.isComputed = true ∧
        (∀ b, d.isDeadEnd f b = .ok (dead b)) ∧ d.deadEnds f = .ok (f.layout.filter dead) := by
  obtain ⟨dead, hdead, hanswers⟩ := hf.consistent.exists_deadEnds
  refine ⟨dead, fun b => (hdead b).trans (not_congr ?_), hanswers⟩
  constructor
  · rintro ⟨x, hx, hreach⟩
    obtain ⟨way, hway⟩ := exists_way_iff.mpr hreach
    obtain ⟨t, ht, hexiting⟩ := Body.leaves_iff.mp hx
    exact ⟨x, way, t, hway, ht, Terminator.isExiting_iff.mp hexiting⟩
  · rintro ⟨x, way, t, hway, ht, hexiting⟩
    refine ⟨x, Body.leaves_iff.mpr ⟨t, ht, ?_⟩, exists_way_iff.mp ⟨way, hway⟩⟩
    exact Terminator.isExiting_iff.mpr hexiting

/-- The block that goes round for ever and the one that is not terminated are dead ends. The block that
cannot be reached is none. -/
theorem partingWays_deadEnds_exact :
    ({} : DeadEnds).deadEnds partingWays = .ok [⟨3⟩, ⟨5⟩] ∧
      ({} : DeadEnds).isDeadEnd partingWays ⟨6⟩ = .ok false ∧
      ¬ ∃ x way t, IsWay partingWays.Arc ⟨3⟩ x way ∧ partingWays.terminator? x = some t ∧
        ((∃ v, t = .ret v) ∨ (∃ v, t = .throwing v) ∨ t = .unwind) := by
  have hf : WellBuilt partingWays := wellBuilt_replayed _
  obtain ⟨dead, hdead, hquery, -, -⟩ := WellBuilt.deadEnds_exact hf
  have hlist : ({} : DeadEnds).deadEnds partingWays = .ok [⟨3⟩, ⟨5⟩] := by decide +kernel
  have hsix : ({} : DeadEnds).isDeadEnd partingWays ⟨6⟩ = .ok false := by decide +kernel
  have hthree : ({} : DeadEnds).isDeadEnd partingWays ⟨3⟩ = .ok true := by decide +kernel
  refine ⟨hlist, hsix, (hdead ⟨3⟩).mp ?_⟩
  rw [hquery, Except.ok.injEq] at hthree
  exact hthree

end FlowGraph
