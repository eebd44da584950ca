import FlowGraph.Proofs.Dominance.Patch
import FlowGraph.Proofs.Ssa.Basic

namespace FlowGraph.Body

variable {f g : Body} {b mid dest entry c : BlockId} {e k m : Nat} {t : Terminator} {v : ValueId}
  {taken args : List ValueId}

namespace Interposed

variable (h : f.Interposed g b t e mid dest taken args)
include h

theorem args?_mid : g.args? mid = some taken := by
  rw [h.takes, if_pos rfl]

theorem terminator?_new : g.terminator? mid = some (.br dest args) := by
  rw [h.terminators, if_pos rfl]

theorem instrAt?_of_ne (hc : c ≠ mid) (k : Nat) : g.instrAt? c k = f.instrAt? c k := by
  rw [instrAt?, h.lists, if_neg hc, instrAt?]

theorem instrAt?_mid (k : Nat) : g.instrAt? mid k = none := by
  rw [instrAt?, h.lists, if_pos rfl]
  rfl

theorem defines (hf : f.Consistent) (hdef : f.Defines v c m) : g.Defines v c m := by
  have hc := h.ne_mid (hdef.isLiveBlock hf)
  have horigin : ∀ {origin}, f.origin? v = some origin → g.origin? v = some origin := by
    intro origin hv
    obtain ⟨value, hvalue, rfl⟩ := origin?_eq_some.mp hv
    exact origin?_eq_some.mpr ⟨value, h.values hvalue, rfl⟩
  cases hdef with
  | argument hdef => exact .argument (horigin hdef)
  | result hdef hi => exact .result (horigin hdef) ((h.instrAt?_of_ne hc _).trans hi)

theorem mem_operandsAt? (hc : c ≠ mid) (hv : v ∈ g.operandsAt? (.terminator c)) :
    v ∈ f.operandsAt? (.terminator c) := by
  rw [operandsAt?_terminator, h.terminators, if_neg hc] at hv
  split at hv
  · rename_i hcb
    rw [operandsAt?_terminator, hcb, h.source]
    change v ∈ ((t.withEdgeArgs e []).retarget e mid).operands at hv
    rw [Terminator.operands_retarget] at hv
    rcases Terminator.mem_operands_withEdgeArgs hv with hv | hv
    · exact hv
    · cases hv
  · rwa [operandsAt?_terminator]

theorem reads (hc : c ≠ mid) (hread : g.Reads v c k) : f.Reads v c k := by
  obtain ⟨point, hpoint, hv⟩ := hread
  cases hpoint with
  | @instr i _ _ hi =>
      refine ⟨.instr i, .instr ((h.instrAt?_of_ne hc k).symm.trans hi), ?_⟩
      rw [operandsAt?_instr, operation?, h.instrs] at hv
      rwa [operandsAt?_instr, operation?]
  | terminator hinstrs hk =>
      rw [h.lists, if_neg hc] at hinstrs
      exact ⟨.terminator c, .terminator hinstrs hk, h.mem_operandsAt? hc hv⟩

theorem mem_args_of_reads (hread : g.Reads v mid k) : v ∈ args := by
  obtain ⟨point, hpoint, hv⟩ := hread
  cases hpoint with
  | instr hi =>
      rw [h.instrAt?_mid] at hi
      cases hi
  | terminator _ _ =>
      rw [operandsAt?_terminator, h.terminator?_new] at hv
      exact hv

theorem reads_of_carried (hgiven : t.edgeArgs? e = some (.explicit args)) (hv : v ∈ args) :
    ∃ k, f.Reads v b k := by
  obtain ⟨data, hb, -⟩ := terminator?_eq_some.mp h.source
  refine ⟨_, .terminator b, .terminator (instrs?_of hb) rfl, ?_⟩
  rw [operandsAt?_terminator, h.source]
  exact Terminator.mem_operands_of_explicitArgs? (Terminator.edgeArgs?_eq_explicit.mp hgiven) hv

end Interposed

/-- Putting a block on an edge keeps SSA form. -/
theorem IsSplit.ordered (h : f.IsSplit g b e mid dest) (hf : f.Consistent)
    (hentry : f.entry = .ok entry) (hord : f.Ordered entry) : g.Ordered entry := by
  obtain ⟨t, taken, args, hmid⟩ := h.interposed
  have htarget : f.target? ⟨b, e⟩ = some dest := target?_eq_some.mpr ⟨t, hmid.source, hmid.leads⟩
  have hdetour := h.detour hf htarget hentry
  intro c k v hreach hread
  -- In the new block the reads are those of its branch; elsewhere nothing new is read.
  rcases Classical.em (c = mid) with rfl | hc
  · have hv := hmid.mem_args_of_reads hread
    cases hmid.forwards with
    | carried hgiven =>
        obtain ⟨n, hread⟩ := hmid.reads_of_carried hgiven hv
        have hb := hdetour.reaches_new_iff.mp hreach
        obtain ⟨d, m, hdef, hdom⟩ := (hord hb hread).dominates hb
        have hd := hmid.ne_mid (hdef.isLiveBlock hf)
        exact ⟨d, m, hmid.defines hf hdef, .inr ⟨hd, (hdetour.dominates_new_iff hd).mpr hdom⟩⟩
    | taken _ =>
        have hdef := h.consistent.defines_of_mem_args hmid.args?_mid hv
        exact ⟨c, 0, hdef, .inl ⟨rfl, Nat.zero_le k⟩⟩
  · obtain ⟨d, m, hdef, hplace⟩ := hord ((hdetour.reaches_iff hc).mp hreach) (hmid.reads hc hread)
    have hd := hmid.ne_mid (hdef.isLiveBlock hf)
    refine ⟨d, m, hmid.defines hf hdef, ?_⟩
    rwa [hdetour.dominates_iff hd hc]

end FlowGraph.Body
