import FlowGraph.Proofs.Rework
import FlowGraph.Proofs.Ssa.Fusion
import FlowGraph.Proofs.Ssa.Split

namespace FlowGraph

namespace Body

variable {f g : Body} {b mid : BlockId}

/-- A valid body in SSA form. -/
structure Strict (f : Body) : Prop where
  consistent : f.Consistent
  valid : f.Valid
  ssa : f.SsaValid

theorem Strict.exists_ordered (hf : f.Strict) : ∃ entry, f.entry = .ok entry ∧ f.Ordered entry := by
  obtain ⟨entry, hentry⟩ := hf.valid.exists_entry
  exact ⟨entry, hentry, (hf.consistent.ssaValid_iff hentry).mp hf.ssa⟩

theorem SplitOnce.strict (h : f.SplitOnce g) (hf : f.Strict) : g.Strict := by
  obtain ⟨b, e, mid, dest, hsplit⟩ := h
  obtain ⟨entry, hentry, hord⟩ := hf.exists_ordered
  refine ⟨hsplit.consistent, hsplit.valid, ?_⟩
  rw [hsplit.consistent.ssaValid_iff (hsplit.entry.mpr hentry)]
  exact hsplit.ordered hf.consistent hentry hord

theorem MergeOnce.strict (h : f.MergeOnce g) (hf : f.Strict) : g.Strict := by
  obtain ⟨hg, hvg, b, tail, front, args, operands, σ, hfused⟩ := h.fused hf.consistent hf.valid
  obtain ⟨entry, hentry, hord⟩ := hf.exists_ordered
  refine ⟨hg, hvg, ?_⟩
  rw [hg.ssaValid_iff (hfused.entry.mpr hentry)]
  exact hfused.ordered hentry hf.consistent hord

namespace Strict

variable (hf : f.Strict)
include hf

theorem of_splits (h : Relation.ReflTransGen SplitOnce f g) : g.Strict := by
  induction h with
  | refl => exact hf
  | tail _ hstep ih => exact hstep.strict ih

theorem of_merges (h : Relation.ReflTransGen MergeOnce f g) : g.Strict := by
  induction h with
  | refl => exact hf
  | tail _ hstep ih => exact hstep.strict ih

theorem ssaValid_splitBlock {position : Nat} (hrun : f.splitBlock b position = .ok (mid, g)) :
    g.SsaValid := by
  obtain ⟨front, hfused⟩ := hf.consistent.fused_of_splitBlock hrun
  obtain ⟨entry, hentry, hord⟩ := hf.exists_ordered
  have hg := hf.consistent.splitBlock hrun
  rw [hg.ssaValid_iff (hfused.entry.mp hentry)]
  exact hfused.ordered_cut hf.consistent hg (hfused.entry.mp hentry) hord

/-- All changes but the erasure of a phi keep SSA form. -/
theorem ssaValid_of_does {c : Rework} (hc : ∀ b index clean, c ≠ .erasePhi b index clean)
    (h : c.Does f g) : g.SsaValid := by
  cases c with
  | reshape c =>
      rw [Rework.Does, Reshape.Does] at h
      split at h
      · exact (hf.of_splits h).ssa
      · exact (hf.of_merges h).ssa
  | splitBlock b position =>
      obtain ⟨mid, hrun⟩ := h
      exact hf.ssaValid_splitBlock hrun
  | mergeBlocks => exact (hf.of_merges h).ssa
  | erasePhi b index clean => exact absurd rfl (hc b index clean)

end Strict

end Body

/-- A well-built body that passes verification and is in SSA form stays in SSA form: when a block is
put on an edge, on some or on all critical edges, when a block is cut in two, and when one block or
every block absorbs its successors. Analyses of the body, if they are kept, follow. The change fails
only if it adds blocks and there are no numbers for them. -/
theorem WellBuilt.ssaValid_kept {f : Body} (hf : WellBuilt f) (hv : f.verify.run = .ok (.ok ()))
    (hssa : f.SsaValid) {dominators : Option Dominators} {loops : Option LoopForest}
    (hdominators : ∀ d, dominators = some d → f.dominators = .ok d)
    (hloops : ∀ forest, loops = some forest →
      ∃ d, f.dominators = .ok d ∧ f.loops d = .ok forest)
    {c : Rework} (hc : ∀ b index clean, c ≠ .erasePhi b index clean) (hin : c.InRange f) :
    (∃ t', c.apply ⟨f, dominators, loops⟩ = .ok t' ∧ t'.body.SsaValid) ∨
      ∃ space, c.apply ⟨f, dominators, loops⟩ = .error (.idOverflow space) ∧
        ¬ f.HasRoom (c.cost f) := by
  have hvalid := hf.consistent.verify_iff.mp hv
  have hsound := hf.consistent.sound hvalid hdominators hloops
  rcases hsound.rework_does hin with ⟨t', hrun, -, hdoes⟩ | hfail
  · exact .inl ⟨t', hrun, Body.Strict.ssaValid_of_does ⟨hf.consistent, hvalid, hssa⟩ hc hdoes⟩
  · exact .inr hfail

/-- A loop in which a block computes a value anew each time and hands it to the next block. -/
def relayLoop : Body :=
  replayed [.createBlock, .createBlock, .createBlock, .createBlock,
    .addFunctionArg ⟨0⟩ .int .guaranteed, .addPhi ⟨1⟩ .int .none, .addPhi ⟨2⟩ .int .none,
    .appendInstr ⟨1⟩ (.builtin "next" [⟨1⟩] (some (.int, .none)) false),
    .appendInstr ⟨2⟩ (.builtin "more" [⟨2⟩] (some (.int, .none)) false),
    .setTerminator ⟨0⟩ (.br ⟨1⟩ [⟨0⟩]),
    .setTerminator ⟨1⟩ (.br ⟨2⟩ [⟨3⟩]),
    .setTerminator ⟨2⟩ (.condBr ⟨4⟩ ⟨1⟩ [⟨2⟩] ⟨3⟩ []),
    .setTerminator ⟨3⟩ (.ret ⟨2⟩)]

theorem relayLoop_ssaValid_kept :
    (∃ t', (Rework.reshape .splitAllCriticalEdges).apply ⟨relayLoop, none, none⟩ = .ok t' ∧
      t'.body.SsaValid) ∧
    ∃ t', Rework.mergeBlocks.apply ⟨relayLoop, none, none⟩ = .ok t' ∧ t'.body.SsaValid := by
  have hf : WellBuilt relayLoop := wellBuilt_replayed _
  have hv : relayLoop.verify.run = .ok (.ok ()) := by cbv
  have hssa : relayLoop.SsaValid := by decide +kernel
  constructor
  · rcases @WellBuilt.ssaValid_kept _ hf hv hssa none none (by simp) (by simp)
      (.reshape .splitAllCriticalEdges) (by simp) trivial with h | ⟨space, -, hroom⟩
    · exact h
    · exact absurd (by cbv) hroom
  · rcases @WellBuilt.ssaValid_kept _ hf hv hssa none none (by simp) (by simp)
      .mergeBlocks (by simp) trivial with h | ⟨space, -, hroom⟩
    · exact h
    · exact absurd (by cbv) hroom

end FlowGraph
