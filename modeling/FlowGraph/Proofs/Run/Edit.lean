import FlowGraph.Proofs.Run.Fusion
import FlowGraph.Proofs.Run.Split
import FlowGraph.Proofs.Ssa.Edit

namespace FlowGraph

namespace Body

variable {f g : Body} {b tail mid entry : BlockId} {front : List InstrId}
  {args operands : List ValueId} {σ : ValueId → ValueId}

theorem SplitOnce.keeps (h : f.SplitOnce g) : g.Consistent ∧ g.Valid := by
  obtain ⟨b, e, mid, dest, hsplit⟩ := h
  exact ⟨hsplit.consistent, hsplit.valid⟩

theorem SplitOnce.sameRuns (h : f.SplitOnce g) (hf : f.Consistent) (hv : f.Valid) :
    f.SameRuns g := by
  obtain ⟨b, e, mid, dest, hsplit⟩ := h
  obtain ⟨t, taken, args, hmid⟩ := hsplit.interposed
  exact hmid.sameRuns hf hv hsplit.consistent hsplit.valid

theorem Consistent.sameRuns_of_splits (hf : f.Consistent) (hv : f.Valid)
    (h : Relation.ReflTransGen SplitOnce f g) : f.SameRuns g := by
  have hall : g.Consistent ∧ g.Valid ∧ f.SameRuns g := by
    induction h with
    | refl => exact ⟨hf, hv, .refl f⟩
    | tail _ hstep ih =>
        obtain ⟨hc, hvc, hsame⟩ := ih
        obtain ⟨hg, hvg⟩ := hstep.keeps
        exact ⟨hg, hvg, hsame.trans (hstep.sameRuns hc hvc)⟩
  exact hall.2.2

theorem Consistent.sameRuns_splitBlock (hf : f.Consistent) (hv : f.Valid) {position : Nat}
    (hrun : f.splitBlock b position = .ok (mid, g)) : f.SameRuns g := by
  obtain ⟨front, hfused⟩ := hf.fused_of_splitBlock hrun
  obtain ⟨entry, hentry⟩ := hv.exists_entry
  refine hfused.sameRuns (hf.splitBlock hrun) (hfused.entry.mp hentry) ⟨?_, ?_⟩
  · intro v c k _ _ hmem
    cases hmem
  · intro v c k hmem
    cases hmem

/-- In SSA form the operands of a branch are not computed anew where the arguments are read: that
would be behind the branch, and in front of it. -/
theorem Fused.guarded (h : f.Fused g b tail front args operands σ) (hg : g.Consistent)
    (hentry : g.entry = .ok entry) (hord : g.Ordered entry) :
    Fused.Guarded g entry tail args operands where
  reads := fun hreach hread hmem => hord.dominates_of_mem_args hg h.taken hmem hreach hread
  defines := by
    intro v c k hmem hdef hdom
    have hgone := h.contraction hentry
    have hb := (hgone.immediatelyDominates_gone hdom.reaches_left).reaches_left
    obtain ⟨d, m, hdef', hdom'⟩ := (hord hb (h.reads_operand hmem)).dominates hb
    obtain ⟨rfl, -⟩ := hdef.unique hdef' hg
    exact hgone.not_dominates_of_gone (hdom.trans hdom')

theorem MergeOnce.sameRuns (h : f.MergeOnce g) (hf : f.Strict) : f.SameRuns g := by
  obtain ⟨-, -, b, tail, front, args, operands, σ, hfused⟩ := h.fused hf.consistent hf.valid
  obtain ⟨entry, hentry, hord⟩ := hf.exists_ordered
  have hguard := hfused.guarded hf.consistent hentry hord
  exact (hfused.sameRuns hf.consistent hentry hguard).symm

theorem Strict.sameRuns_of_merges (hf : f.Strict) (h : Relation.ReflTransGen MergeOnce f g) :
    f.SameRuns g := by
  induction h with
  | refl => exact .refl f
  | tail hsteps hstep ih => exact ih.trans (hstep.sameRuns (hf.of_merges hsteps))

theorem Consistent.sameRuns_of_does (hf : f.Consistent) (hv : f.Valid) {c : Rework}
    (hc : c.splits = true) (h : c.Does f g) : f.SameRuns g := by
  cases c with
  | reshape c =>
      rw [Rework.splits] at hc
      rw [Rework.Does, Reshape.Does, if_pos hc] at h
      exact hf.sameRuns_of_splits hv h
  | splitBlock b position =>
      obtain ⟨mid, hrun⟩ := h
      exact hf.sameRuns_splitBlock hv hrun
  | mergeBlocks => cases hc
  | erasePhi b index clean => cases hc

end Body

/-- Putting a block on an edge, on some or on all critical edges, and cutting a block in two leaves a
well-built body that passes verification with the same finite traces, for every oracle and all
inputs. The change fails only if there are no numbers for the new blocks. -/
theorem WellBuilt.sameRuns_split {f : Body} (hf : WellBuilt f) (hv : f.verify.run = .ok (.ok ()))
    {dominators : Option Dominators} {loops : Option LoopForest}
    (hdominators : ∀ d, dominators = some d → f.dominators = .ok d)
    (hloops : ∀ forest, loops = some forest →
      ∃ d, f.dominators = .ok d ∧ f.loops d = .ok forest)
    {c : Rework} (hc : c.splits = true) (hin : c.InRange f) :
    (∃ t', c.apply ⟨f, dominators, loops⟩ = .ok t' ∧ f.SameRuns t'.body) ∨
      ∃ space, c.apply ⟨f, dominators, loops⟩ = .error (.idOverflow space) ∧
        ¬ f.HasRoom (c.cost f) := by
  have hvalid := hf.consistent.verify_iff.mp hv
  have hsound := hf.consistent.sound hvalid hdominators hloops
  rcases hsound.rework_does hin with ⟨t', hrun, -, hdoes⟩ | hfail
  · exact .inl ⟨t', hrun, hf.consistent.sameRuns_of_does hvalid hc hdoes⟩
  · exact .inr hfail

/-- A call that is tried again, with the error, until it succeeds. -/
def retryLoop : Body :=
  replayed [.createBlock, .createBlock, .createBlock,
    .addFunctionArg ⟨0⟩ .int .guaranteed, .addPhi ⟨1⟩ .int .none, .addPhi ⟨2⟩ .int .none,
    .setTerminator ⟨0⟩ (.br ⟨1⟩ [⟨0⟩]),
    .setTerminator ⟨1⟩ (.tryApply "attempt" [⟨1⟩] ⟨2⟩ ⟨1⟩),
    .setTerminator ⟨2⟩ (.ret ⟨2⟩)]

/-- An oracle that counts. It takes the second edge after the first event and after the sixth. -/
def countingOracle : Oracle Nat where
  visible := fun _ => true
  compute := fun _ _ _ => 0
  result := fun trace => trace.length
  edge := fun trace => if trace.length ∈ [1, 6] then 1 else 0
  payload := fun trace => 10 * trace.length

theorem retryLoop_sameRuns_split :
    ∃ t', (Rework.reshape .splitAllCriticalEdges).apply ⟨retryLoop, none, none⟩ = .ok t' ∧
      retryLoop.SameRuns t'.body ∧
      [.terminator (.tryApply "attempt" [⟨0⟩] ⟨0⟩ ⟨0⟩) [some 5],
        .terminator (.tryApply "attempt" [⟨0⟩] ⟨0⟩ ⟨0⟩) [some 10],
        .terminator (.ret ⟨0⟩) [some 20]] ∈ t'.body.finalTraces countingOracle [5] := by
  have hf : WellBuilt retryLoop := wellBuilt_replayed _
  have hv : retryLoop.verify.run = .ok (.ok ()) := by cbv
  rcases @WellBuilt.sameRuns_split _ hf hv none none (by simp) (by simp)
    (.reshape .splitAllCriticalEdges) rfl trivial with ⟨t', hrun, hsame⟩ | ⟨space, -, hroom⟩
  · refine ⟨t', hrun, hsame, ?_⟩
    rw [← (hsame Nat countingOracle [5]).2]
    exact Body.mem_finalTraces (n := 4) (by rfl)
  · exact absurd (by cbv) hroom

/-- A block of a well-built body that passes verification and is in SSA form can absorb its successor
without a change of the finite traces, whatever the oracle and the inputs; so can all blocks. -/
theorem WellBuilt.sameRuns_merge {f : Body} (hf : WellBuilt f) (hv : f.verify.run = .ok (.ok ()))
    (hssa : f.SsaValid) :
    (∀ b succ g, f.mergeWithSuccessor b = .ok (.ok (succ, g)) → f.SameRuns g) ∧
      ∃ changed g, f.mergeBlocks = .ok (changed, g) ∧ f.SameRuns g := by
  have hstrict : f.Strict := ⟨hf.consistent, hf.consistent.verify_iff.mp hv, hssa⟩
  obtain ⟨changed, g, hrun, -, -, hmerges⟩ :=
    hstrict.consistent.exists_mergeEach hstrict.valid f.layout
  refine ⟨fun b succ g hrun => ?_, changed, g, hrun, hstrict.sameRuns_of_merges hmerges⟩
  exact Body.MergeOnce.sameRuns ⟨b, succ, hrun⟩ hstrict

theorem relayLoop_sameRuns_merge :
    ∃ g, relayLoop.mergeWithSuccessor ⟨1⟩ = .ok (.ok (⟨2⟩, g)) ∧ relayLoop.SameRuns g ∧
      ∃ trace ∈ g.finalTraces countingOracle [5],
        trace.length = 7 ∧ trace.getLast? = some (.terminator (.ret ⟨0⟩) [some 4]) := by
  have hf : WellBuilt relayLoop := wellBuilt_replayed _
  have hv : relayLoop.verify.run = .ok (.ok ()) := by cbv
  obtain ⟨hone, -⟩ := WellBuilt.sameRuns_merge hf hv (by decide +kernel)
  have hmerge : ((relayLoop.mergeWithSuccessor ⟨1⟩).toOption.bind (·.toOption)).map (·.1) =
      some ⟨2⟩ := by cbv
  obtain ⟨⟨succ, g⟩, hsome, hsucc⟩ := Option.map_eq_some_iff.mp hmerge
  obtain rfl : succ = ⟨2⟩ := hsucc
  rcases hrun : relayLoop.mergeWithSuccessor ⟨1⟩ with fault | refusal | result
  · rw [hrun] at hsome
    cases hsome
  · rw [hrun] at hsome
    cases hsome
  · rw [hrun] at hsome
    cases hsome
    have hsame := hone ⟨1⟩ ⟨2⟩ g hrun
    refine ⟨g, rfl, hsame, ?_⟩
    rw [← (hsame Nat countingOracle [5]).2]
    exact ⟨_, Body.mem_finalTraces (n := 10) (by rfl), by rfl, by rfl⟩

end FlowGraph
