import FlowGraph.Proofs.Edit.Fusion
import FlowGraph.Proofs.Ssa.Basic

namespace FlowGraph

namespace Body

variable {f g : Body} {b tail entry c d : BlockId} {k m : Nat} {v : ValueId} {point : Point}
  {front : List InstrId} {args operands : List ValueId} {σ : ValueId → ValueId}

theorem Available.mono (h : f.Available entry v b k) (hdom : Dominates f.Arc entry b c)
    (hle : b = c → k ≤ m) : f.Available entry v c m := by
  obtain ⟨d, n, hdef, ⟨rfl, hn⟩ | ⟨hne, hd⟩⟩ := h
  · refine ⟨d, n, hdef, ?_⟩
    rcases Classical.em (d = c) with heq | hne
    · exact .inl ⟨heq, Nat.le_trans hn (hle heq)⟩
    · exact .inr ⟨hne, hdom⟩
  · refine ⟨d, n, hdef, .inr ⟨?_, hd.trans hdom⟩⟩
    rintro rfl
    exact hne (hd.antisymm hdom)

theorem Ordered.dominates_of_mem_args (hord : g.Ordered entry) (hg : g.Consistent)
    (hargs : g.args? tail = some args) (hv : v ∈ args) (hreach : Reaches g.Arc entry c)
    (hread : g.Reads v c k) : Dominates g.Arc entry tail c := by
  obtain ⟨d, n, hdef, hdom⟩ := (hord hreach hread).dominates hreach
  obtain ⟨rfl, -⟩ := hdef.unique (hg.defines_of_mem_args hargs hv) hg
  exact hdom

/-- The place in the body with the joint block. -/
def joint (b tail : BlockId) (front : List InstrId) (c : BlockId) (k : Nat) : BlockId × Nat :=
  if c = tail then (b, front.length + k) else (c, k)

theorem joint_fst (b tail : BlockId) (front : List InstrId) (c : BlockId) (k : Nat) :
    (joint b tail front c k).1 = if c = tail then b else c := by
  rw [joint]
  split <;> rfl

theorem joint_succ :
    joint b tail front c (k + 1) = ((joint b tail front c k).1, (joint b tail front c k).2 + 1) := by
  rw [joint, joint]
  split <;> rfl

namespace Fused

variable (h : f.Fused g b tail front args operands σ)
include h

theorem exists_back : ∃ back, g.instrs? tail = some back := by
  obtain ⟨data, hdata, -⟩ := args?_eq_some.mp h.taken
  exact ⟨data.instrs, instrs?_of hdata⟩

theorem instrAt?_joint (hfront : c = b → k < front.length) :
    f.instrAt? (joint b tail front c k).1 (joint b tail front c k).2 = g.instrAt? c k := by
  obtain ⟨back, hback⟩ := h.exists_back
  rw [joint]
  split
  · rename_i hc
    change f.instrAt? b (front.length + k) = _
    rw [instrAt?, instrAt?, h.instrs, if_neg h.ne, if_pos rfl, hc, hback, Option.map_some,
      Option.bind_some, Option.bind_some, List.getElem?_append_right (Nat.le_add_right _ _),
      Nat.add_sub_cancel_left]
  · rename_i hc
    change f.instrAt? c k = _
    rw [instrAt?, instrAt?, h.instrs, if_neg hc]
    split
    · rename_i hcb
      rw [hcb, hback, h.front_eq, Option.map_some, Option.bind_some, Option.bind_some]
      exact List.getElem?_append_left (hfront hcb)
    · rfl

theorem terminator?_joint (hc : c ≠ b) :
    f.terminator? (joint b tail front c k).1 = (g.terminator? c).map (·.mapOperands σ) := by
  rw [joint]
  split
  · rename_i htail
    rw [h.terminators, if_pos rfl, htail]
  · rename_i htail
    change f.terminator? c = _
    rw [h.terminators, if_neg hc, if_neg htail]

theorem lt_of_instrAt? {i : InstrId} (hi : g.instrAt? c k = some i) (hc : c = b) :
    k < front.length := by
  rw [instrAt?, hc, h.front_eq] at hi
  exact (List.getElem?_eq_some_iff.mp hi).1

theorem reads_operand (hv : v ∈ operands) : g.Reads v b front.length := by
  refine ⟨.terminator b, .terminator h.front_eq rfl, ?_⟩
  rw [operandsAt?_terminator, h.branch]
  exact hv

theorem operands_instr (i : InstrId) :
    f.operandsAt? (.instr i) = (g.operandsAt? (.instr i)).map σ := by
  rw [operandsAt?_instr, operandsAt?_instr, h.operations]
  rcases g.operation? i with _ | op
  · rfl
  · exact op.operands_mapOperands σ

theorem operands_terminator (hc : c ≠ b) :
    f.operandsAt? (.terminator (joint b tail front c k).1) =
      (g.operandsAt? (.terminator c)).map σ := by
  rw [operandsAt?_terminator, operandsAt?_terminator, h.terminator?_joint hc]
  rcases g.terminator? c with _ | t
  · rfl
  · exact t.operands_mapOperands σ

theorem stands_joint (hpoint : g.Stands point c k) (hbranch : point ≠ .terminator b) :
    ∃ other, f.Stands other (joint b tail front c k).1 (joint b tail front c k).2 ∧
      f.operandsAt? other = (g.operandsAt? point).map σ := by
  cases hpoint with
  | @instr i _ _ hi =>
      refine ⟨.instr i, .instr ?_, h.operands_instr i⟩
      rw [h.instrAt?_joint (h.lt_of_instrAt? hi), hi]
  | @terminator _ _ instrs hinstrs hk =>
      have hc : c ≠ b := fun heq => hbranch (congrArg Point.terminator heq)
      refine ⟨_, ?_, h.operands_terminator (k := k) hc⟩
      rw [joint]
      split
      · rename_i htail
        have hlength : (front ++ instrs).length = front.length + k := by rw [List.length_append, hk]
        refine .terminator ?_ hlength
        rw [h.instrs, if_neg h.ne, if_pos rfl, ← htail, hinstrs]
        rfl
      · rename_i htail
        refine .terminator ?_ hk
        rw [h.instrs, if_neg htail, if_neg hc, hinstrs]

theorem exists_stands (hpoint : f.Stands point d m) :
    ∃ other c k, g.Stands other c k ∧ joint b tail front c k = (d, m) ∧
      f.operandsAt? point = (g.operandsAt? other).map σ := by
  obtain ⟨back, hback⟩ := h.exists_back
  cases hpoint with
  | @instr i _ _ hi =>
      obtain ⟨instrs, hinstrs, hm⟩ := instrAt?_eq_some.mp hi
      rw [h.instrs] at hinstrs
      split at hinstrs
      · cases hinstrs
      · rename_i htail
        split at hinstrs
        · rename_i hd
          rw [hback] at hinstrs
          cases hinstrs
          -- The joint block has the places of `front` first and those of `tail` behind them.
          rcases Nat.lt_or_ge m front.length with hlt | hge
          · refine ⟨.instr i, d, m, .instr (instrAt?_eq_some.mpr ⟨front, ?_, ?_⟩), if_neg htail,
              h.operands_instr i⟩
            · rw [hd, h.front_eq]
            · rwa [List.getElem?_append_left hlt] at hm
          · refine ⟨.instr i, tail, m - front.length,
              .instr (instrAt?_eq_some.mpr ⟨back, hback, ?_⟩), ?_, h.operands_instr i⟩
            · rwa [List.getElem?_append_right hge] at hm
            · rw [joint, if_pos rfl, hd, Nat.add_sub_cancel' hge]
        · exact ⟨.instr i, d, m, .instr (instrAt?_eq_some.mpr ⟨instrs, hinstrs, hm⟩), if_neg htail,
            h.operands_instr i⟩
  | @terminator _ _ instrs hinstrs hm =>
      rw [h.instrs] at hinstrs
      split at hinstrs
      · cases hinstrs
      · rename_i htail
        split at hinstrs
        · rename_i hd
          rw [hback] at hinstrs
          cases hinstrs
          have hplace : joint b tail front tail back.length = (d, m) := by
            rw [joint, if_pos rfl, hd, ← hm, List.length_append]
          refine ⟨.terminator tail, tail, back.length, .terminator hback rfl, hplace, ?_⟩
          rw [← h.operands_terminator (k := back.length) h.ne.symm, hplace]
        · rename_i hd
          have hplace : joint b tail front d m = (d, m) := if_neg htail
          refine ⟨.terminator d, d, m, .terminator hinstrs hm, hplace, ?_⟩
          rw [← h.operands_terminator (k := m) hd, hplace]

theorem le_of_defines (hdef : g.Defines v b m) : m ≤ front.length := by
  cases hdef with
  | argument _ => exact Nat.zero_le _
  | result _ hi => exact h.lt_of_instrAt? hi rfl

theorem origin?_of_notMem (hv : v ∉ args) : f.origin? v = g.origin? v := by
  rw [h.origins, if_neg hv]

theorem defines_joint (hg : g.Consistent) (hdef : g.Defines v c m) (hv : v ∉ args) :
    f.Defines v (joint b tail front c m).1 (joint b tail front c m).2 := by
  have horigin := h.origin?_of_notMem hv
  cases hdef with
  | @argument _ index kind hdef =>
      have hc : c ≠ tail := by
        rintro rfl
        exact hv ((hg.args.mem_args h.taken).mpr ⟨index, kind, hdef⟩)
      rw [joint, if_neg hc]
      exact .argument (horigin.trans hdef)
  | result hdef hi =>
      rw [joint_succ]
      exact .result (horigin.trans hdef) ((h.instrAt?_joint (h.lt_of_instrAt? hi)).trans hi)

variable (hentry : g.entry = .ok entry)
include hentry

theorem reaches_of_joint (hreach : Reaches f.Arc entry (joint b tail front c k).1) :
    Reaches g.Arc entry c := by
  have hgone := h.contraction hentry
  rw [joint_fst] at hreach
  split at hreach
  · rename_i hc
    rw [hc]
    exact ((hgone.reaches_iff h.ne).mp hreach).step hgone.arc
  · rename_i hc
    exact (hgone.reaches_iff hc).mp hreach

theorem reaches_joint (hreach : Reaches g.Arc entry c) :
    Reaches f.Arc entry (joint b tail front c k).1 := by
  have hdom := (h.contraction hentry).dominates_of (.refl hreach)
  rw [joint_fst]
  exact hdom.reaches

theorem available_joint (hg : g.Consistent) (hreach : Reaches g.Arc entry c) (hv : v ∉ args)
    (havail : g.Available entry v c k) :
    f.Available entry v (joint b tail front c k).1 (joint b tail front c k).2 := by
  have hgone := h.contraction hentry
  obtain ⟨d, m, hdef, hplace⟩ := havail
  have hdom : Dominates g.Arc entry d c := by
    rcases hplace with ⟨rfl, -⟩ | ⟨-, hdom⟩
    · exact .refl hreach
    · exact hdom
  refine ⟨_, _, h.defines_joint hg hdef hv, ?_⟩
  rcases Classical.em ((joint b tail front d m).1 = (joint b tail front c k).1) with heq | hne
  · refine .inl ⟨heq, ?_⟩
    rw [joint_fst, joint_fst] at heq
    rw [joint, joint]
    rcases hplace with ⟨rfl, hle⟩ | ⟨hdc, -⟩
    · split
      · exact Nat.add_le_add_left hle _
      · exact hle
    · -- The definition is in the first block and the place in the second, not the other way round.
      rcases Classical.em (d = tail) with rfl | hd
      · rw [if_pos rfl, if_neg (Ne.symm hdc)] at heq
        rw [← heq] at hdom
        exact absurd hdom hgone.not_dominates_of_gone
      · rw [if_neg hd] at heq ⊢
        split at heq
        · rename_i hc
          rw [heq] at hdef
          rw [if_pos hc]
          exact Nat.le_trans (h.le_of_defines hdef) (Nat.le_add_right _ _)
        · exact absurd heq hdc
  · refine .inr ⟨hne, ?_⟩
    rw [joint_fst, joint_fst]
    exact hgone.dominates_of hdom

theorem available_of_joint (hf : f.Consistent) (hg : g.Consistent)
    (hreach : Reaches g.Arc entry c) (hv : v ∉ args)
    (hfront : c = b → k < front.length)
    (havail : f.Available entry v (joint b tail front c k).1 (joint b tail front c k).2) :
    g.Available entry v c k := by
  have hgone := h.contraction hentry
  obtain ⟨d, m, hdef⟩ : ∃ d m, g.Defines v d m := by
    obtain ⟨_, _, hdef, -⟩ := havail
    apply hg.exists_defines
    rw [← isSome_origin?, ← h.origin?_of_notMem hv, isSome_origin?]
    exact hdef.isLiveValue
  refine ⟨d, m, hdef, ?_⟩
  rw [(h.defines_joint hg hdef hv).available_iff hf, joint_fst, joint_fst] at havail
  rcases havail with ⟨heq, hle⟩ | ⟨hne, hdom⟩
  · rw [joint, joint] at hle
    rcases Classical.em (d = c) with rfl | hdc
    · refine .inl ⟨rfl, ?_⟩
      split at hle
      · exact Nat.le_of_add_le_add_left hle
      · exact hle
    · refine .inr ⟨hdc, ?_⟩
      rcases Classical.em (d = tail) with rfl | hd
      · rw [if_pos rfl, if_neg (Ne.symm hdc)] at heq hle
        have hlt := hfront heq.symm
        change front.length + m ≤ k at hle
        omega
      · rw [if_neg hd] at heq
        split at heq
        · rename_i hc
          subst hc heq
          exact (hgone.immediatelyDominates_gone hreach).dominates
        · exact absurd heq hdc
  · refine .inr ⟨?_, hgone.of_dominates hreach hdom hne⟩
    rintro rfl
    exact hne rfl

/-- Joining two blocks keeps SSA form. -/
theorem ordered (hg : g.Consistent) (hord : g.Ordered entry) : f.Ordered entry := by
  have hgone := h.contraction hentry
  rintro d m w hreach ⟨point, hpoint, hw⟩
  obtain ⟨other, c, k, hother, hplace, hread⟩ := h.exists_stands hpoint
  rw [hread] at hw
  obtain ⟨v, hv, rfl⟩ := List.mem_map.mp hw
  have hvread : g.Reads v c k := ⟨other, hother, hv⟩
  obtain ⟨rfl, rfl⟩ : d = (joint b tail front c k).1 ∧ m = (joint b tail front c k).2 := by
    rw [hplace]
    exact ⟨rfl, rfl⟩
  have hc := h.reaches_of_joint hentry hreach
  rcases Classical.em (v ∈ args) with hmem | hmem
  · -- The operand is there at the branch, which comes before.
    have hdom := hord.dominates_of_mem_args hg h.taken hmem hc hvread
    have hb := (hgone.immediatelyDominates_gone hdom.reaches_left).reaches_left
    have hoperand := h.rename_mem hmem
    have havail := h.available_joint hentry hg hb (h.apart _ hoperand)
      (hord hb (h.reads_operand hoperand))
    rw [joint, if_neg h.ne] at havail
    refine havail.mono ?_ ?_
    · have hdom' := hgone.dominates_of hdom
      rwa [if_pos rfl, ← joint_fst b tail front c k] at hdom'
    · intro heq
      rw [joint] at heq ⊢
      split at heq
      · rename_i htail
        rw [if_pos htail]
        exact Nat.le_add_right _ _
      · obtain rfl : b = c := heq
        exact absurd hdom hgone.not_dominates_of_gone
  · rw [h.keeps hmem]
    exact h.available_joint hentry hg hc hmem (hord hc hvread)

end Fused

/-- Cutting a block keeps SSA form. There is nothing to replace, and the branch between the halves
reads nothing. -/
theorem Fused.ordered_cut (h : f.Fused g b tail front [] [] fun v => v) (hf : f.Consistent)
    (hg : g.Consistent) (hentry : g.entry = .ok entry) (hord : f.Ordered entry) :
    g.Ordered entry := by
  rintro c k v hreach ⟨point, hpoint, hv⟩
  have hbranch : point ≠ .terminator b := by
    rintro rfl
    rw [operandsAt?_terminator, h.branch] at hv
    cases hv
  obtain ⟨other, hother, hread⟩ := h.stands_joint hpoint hbranch
  rw [List.map_id'] at hread
  have havail := hord (h.reaches_joint hentry hreach) ⟨other, hother, hread ▸ hv⟩
  refine h.available_of_joint hentry hf hg hreach List.not_mem_nil ?_ havail
  rintro rfl
  cases hpoint with
  | instr hi => exact h.lt_of_instrAt? hi rfl
  | terminator _ _ => exact absurd rfl hbranch

end Body

end FlowGraph
