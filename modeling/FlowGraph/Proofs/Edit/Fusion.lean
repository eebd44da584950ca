import FlowGraph.Proofs.Dominance.Patch
import FlowGraph.Proofs.Edit.Cut

namespace FlowGraph

theorem getElem?_renameAll {args operands : List ValueId} {v : ValueId} {j : Nat}
    (hlen : args.length = operands.length) (hfree : ∀ o ∈ operands, o ∉ args)
    (hnodup : args.Nodup) (hj : args[j]? = some v) :
    operands[j]? = some (renameAll args operands v) := by
  induction args generalizing operands j with
  | nil => cases hj
  | cons arg args ih =>
      rcases operands with _ | ⟨operand, operands⟩
      · cases hlen
      rw [List.nodup_cons] at hnodup
      have hfree' : ∀ o ∈ operand :: operands, o ∉ args := fun o ho hmem =>
        hfree o ho (List.mem_cons_of_mem _ hmem)
      rw [renameAll]
      cases j with
      | zero =>
          obtain rfl := Option.some.inj hj
          rw [rename, if_pos rfl, renameAll_of_notMem (hfree' operand List.mem_cons_self)]
          rfl
      | succ j =>
          have hne : v ≠ arg := by
            rintro rfl
            exact hnodup.1 (List.mem_of_getElem? hj)
          rw [rename_of_ne hne]
          apply ih (Nat.succ.inj hlen) _ hnodup.2 hj
          exact fun o ho => hfree' o (List.mem_cons_of_mem _ ho)

namespace Body

/-- The body `f` is `g` with the block `tail` taken into `b`, which has the instructions `front` and
branches to `tail` with `operands` for the arguments `args`. -/
structure Fused (f g : Body) (b tail : BlockId) (front : List InstrId)
    (args operands : List ValueId) (σ : ValueId → ValueId) : Prop where
  ne : b ≠ tail
  entry : ∀ {c}, f.entry = .ok c ↔ g.entry = .ok c
  not_entry : g.entry ≠ .ok tail
  branch : g.terminator? b = some (.br tail operands)
  into : ∀ x, g.target? x = some tail ↔ x = ⟨b, 0⟩
  front_eq : g.instrs? b = some front
  taken : g.args? tail = some args
  instrs : ∀ c, f.instrs? c = if c = tail then none
    else if c = b then (g.instrs? tail).map (front ++ ·) else g.instrs? c
  terminators : ∀ c, f.terminator? c =
    (if c = b then g.terminator? tail else if c = tail then none else g.terminator? c).map
      (·.mapOperands σ)
  takes : ∀ c, f.args? c = if c = tail then none else g.args? c
  operations : ∀ i, f.operation? i = (g.operation? i).map (·.mapOperands σ)
  results : ∀ i, f.result? i = g.result? i
  origins : ∀ v, f.origin? v = if v ∈ args then none else g.origin? v
  keeps : ∀ {v}, v ∉ args → σ v = v
  renames : ∀ {j : Nat} {v}, args[j]? = some v → operands[j]? = some (σ v)
  apart : ∀ v ∈ operands, v ∉ args

variable {f g : Body} {b tail : BlockId}

theorem Consistent.target?_cut_nextBlock (h : f.Consistent) {data : Block}
    (hb : f.block? b = some data) {layout : List BlockId}
    (hperm : layout.Perm (f.nextBlock :: f.layout)) (position : Nat) (x : Edge) :
    (f.cut b position layout data).target? x = some f.nextBlock ↔ x = ⟨b, 0⟩ := by
  constructor
  · intro hx
    rcases exists_of_target?_cut position h hb hperm hx with ⟨rfl, -⟩ | ⟨y, hy⟩
    · rfl
    · exact absurd (h.edges.live_target hy) f.not_isLiveBlock_nextBlock
  · rintro rfl
    exact target?_eq_some.mpr ⟨_, (terminator?_cut position h hb hperm b).trans (if_pos rfl), rfl⟩

/-- A body is its cut with the second half taken into the first. -/
theorem Consistent.fused_cut (h : f.Consistent) {data : Block} (hb : f.block? b = some data)
    {place : Nat} (hplace : f.layout.idxOf? b = some place) (position : Nat) :
    f.Fused (f.cut b position (f.layout.insertIdx (place + 1) f.nextBlock) data) b f.nextBlock
      (data.instrs.take position) [] [] fun v => v := by
  have hperm := List.perm_insertIdx f.nextBlock f.layout (List.idxOf?_eq_some_iff.mp hplace).1
  have hne := nextBlock_ne hb
  have hterm := terminator?_cut position h hb hperm
  have hargs := args?_cut position h hb hperm
  have hinstrs := instrs?_cut position h hb hperm
  have hnext := f.block?_nextBlock
  have hhead : (f.layout.insertIdx (place + 1) f.nextBlock).head? = f.layout.head? := by
    obtain ⟨first, rest, hlayout⟩ :=
      List.exists_cons_of_ne_nil (List.ne_nil_of_mem ((h.layout.mem_iff b).mpr (isLiveBlock_of hb)))
    rw [hlayout]
    rfl
  exact {
    ne := hne
    entry := (entry_cut position hhead).symm
    not_entry := fun hentry => f.not_isLiveBlock_nextBlock
      (h.isLiveBlock_entry ((entry_cut position hhead).mp hentry))
    branch := by rw [hterm, if_pos rfl]
    into := h.target?_cut_nextBlock hb hperm position
    front_eq := by rw [hinstrs, if_pos rfl]
    taken := by rw [hargs, if_pos rfl]
    instrs := fun c => by
      rw [hinstrs, hinstrs, if_neg hne.symm, if_pos rfl]
      split
      · rename_i hc
        rw [hc, instrs?, hnext]
        rfl
      · split
        · rename_i hc
          rw [hc, instrs?_of hb, Option.map_some, List.take_append_drop]
        · rfl
    terminators := fun c => by
      simp only [Terminator.mapOperands_id, Option.map_id', hterm, if_neg hne.symm, if_true]
      split
      · rename_i hc
        rw [hc, terminator?_of hb]
      · split
        · rename_i hc
          rw [hc, terminator?, hnext]
          rfl
        · rfl
    takes := fun c => by
      rw [hargs]
      split
      · rename_i hc
        rw [hc, args?, hnext]
        rfl
      · rfl
    operations := fun i => by
      simp only [Operation.mapOperands_id, operation?, instr?_cut, Option.map_map]
      rfl
    results := fun i => by
      rw [result?, result?, instr?_cut]
      rcases f.instr? i with _ | data <;> rfl
    origins := fun v => by
      rw [if_neg List.not_mem_nil, cut_eq]
      rfl
    keeps := fun _ => rfl
    renames := fun hj => by cases hj
    apart := fun v hv => by cases hv }

theorem Absorbable.fused {operands : List ValueId} {data : Block}
    (h : f.Absorbable b tail operands data) (hf : f.Consistent)
    (hentry : f.entry ≠ .ok tail) (hfree : ∀ v ∈ operands, v ∉ data.args) :
    ∃ front, (f.absorbed b tail operands data).Fused f b tail front data.args operands
      (renameAll data.args operands) := by
  obtain ⟨bdata, hb, -⟩ := terminator?_eq_some.mp h.branch
  have hargs := args?_of h.block
  refine ⟨bdata.instrs, h.ne.symm, Absorbable.entry_absorbed hentry, hentry, h.branch,
    fun x => h.target?_iff hf.edges, instrs?_of hb, hargs, ?_, h.terminator?_absorbed hf,
    h.args?_absorbed hf, ?_, ?_, ?_, fun hv => renameAll_of_notMem hv,
    fun hj => getElem?_renameAll h.arity hfree (hf.args.nodup_args hargs) hj, hfree⟩
  · intro c
    rw [h.instrs?_absorbed hf, instrs?_of hb, instrs?_of h.block]
    rfl
  · intro i
    rw [operation?, operation?, h.instr?_absorbed hf, Option.map_map, Option.map_map]
    rfl
  · intro i
    rw [result?, result?, h.instr?_absorbed hf]
    rcases f.instr? i with _ | data <;> rfl
  · intro v
    rw [origin?, h.value?_absorbed, origin?]
    split <;> rfl

/-- Cutting a block gives a body of which the old one is the fusion. -/
theorem Consistent.fused_of_splitBlock (hf : f.Consistent) {position : Nat}
    (hrun : f.splitBlock b position = .ok (tail, g)) :
    ∃ front, f.Fused g b tail front [] [] fun v => v := by
  obtain ⟨data, place, hb, -, hplace, -, rfl, rfl⟩ := (splitBlock_eq_ok hf).mp hrun
  exact ⟨_, hf.fused_cut hb hplace position⟩

theorem Consistent.exists_fused (hf : f.Consistent)
    (hrun : f.mergeWithSuccessor b = .ok (.ok (tail, g))) :
    ∃ front args operands σ, g.Fused f b tail front args operands σ := by
  obtain ⟨operands, data, htarget, habsorb, rfl⟩ := (mergeWithSuccessor_eq_ok hf).mp hrun
  obtain ⟨-, -, ⟨entry, hentry, hother⟩, data', hdata', -, hfree⟩ := mergeTarget_eq_ok.mp htarget
  obtain rfl := Option.some.inj (habsorb.block.symm.trans hdata')
  have hnot : f.entry ≠ .ok tail := by
    rw [hentry]
    exact fun heq => hother (Except.ok.inj heq).symm
  obtain ⟨front, hfused⟩ := habsorb.fused hf hnot hfree
  exact ⟨front, _, _, _, hfused⟩

/-- Joining two blocks of a valid body gives a fusion of it, which is valid. -/
theorem Consistent.fused_of_mergeWithSuccessor (hf : f.Consistent) (hv : f.Valid)
    (hrun : f.mergeWithSuccessor b = .ok (.ok (tail, g))) :
    g.Consistent ∧ g.Valid ∧ ∃ front args operands σ, g.Fused f b tail front args operands σ := by
  obtain ⟨operands, data, htarget, -, -⟩ := (mergeWithSuccessor_eq_ok hf).mp hrun
  obtain ⟨data', habsorb, hnot, hfree, hrun'⟩ := hf.exists_absorbable hv.delivers htarget
  cases hrun.symm.trans hrun'
  exact ⟨habsorb.consistent_absorbed hf, habsorb.valid_absorbed hf hv hnot hfree,
    hf.exists_fused hrun⟩

theorem MergeOnce.fused (h : f.MergeOnce g) (hf : f.Consistent) (hv : f.Valid) :
    g.Consistent ∧ g.Valid ∧
      ∃ b tail front args operands σ, g.Fused f b tail front args operands σ := by
  obtain ⟨b, tail, hrun⟩ := h
  obtain ⟨hg, hvg, hfused⟩ := hf.fused_of_mergeWithSuccessor hv hrun
  exact ⟨hg, hvg, b, tail, hfused⟩

namespace Fused

variable {front : List InstrId} {args operands : List ValueId} {σ : ValueId → ValueId}
  (h : f.Fused g b tail front args operands σ)
include h

theorem target? (x : Edge) :
    f.target? x = if x.block = b then g.target? ⟨tail, x.index⟩
      else if x.block = tail then none else g.target? x := by
  rw [Body.target?, h.terminators, Body.target?, Body.target?]
  split
  · rcases g.terminator? tail with _ | t
    · rfl
    · simp
  · split
    · rfl
    · rcases g.terminator? x.block with _ | t
      · rfl
      · simp

theorem ne_of_terminator? {c : BlockId} {t : Terminator} (ht : f.terminator? c = some t) :
    c ≠ tail := by
  rintro rfl
  rw [h.terminators, if_neg h.ne.symm, if_pos rfl] at ht
  cases ht

/-- A branch of the joint body is one of the other body, with other names for its operands. The joint
block has the terminator of `tail`. -/
theorem exists_branch_source {c succ : BlockId} {passed : List ValueId}
    (hbranch : f.terminator? c = some (.br succ passed)) :
    ∃ given, g.terminator? (if c = b then tail else c) = some (.br succ given) ∧
      given.map σ = passed := by
  have hc := h.ne_of_terminator? hbranch
  rw [h.terminators, if_neg hc] at hbranch
  obtain ⟨t, ht, hmap⟩ := Option.map_eq_some_iff.mp hbranch
  cases t with
  | br dest given =>
      cases hmap
      refine ⟨given, ?_, rfl⟩
      rw [← ht]
      split <;> rfl
  | _ => cases hmap

theorem out {k : Nat} {y : BlockId} (hk : g.target? ⟨b, k⟩ = some y) : y = tail := by
  obtain ⟨t, ht, hs⟩ := target?_eq_some.mp hk
  cases h.branch.symm.trans ht
  rcases k with _ | k
  · exact (Option.some.inj hs).symm
  · cases hs

theorem contraction {entry : BlockId} (hentry : g.entry = .ok entry) :
    Contraction g.Arc f.Arc entry b tail := by
  refine contraction_of_target ?_ h.ne h.into h.out h.target?
  rintro rfl
  exact h.not_entry hentry

theorem rename_mem {v : ValueId} (hv : v ∈ args) : σ v ∈ operands := by
  obtain ⟨j, hj⟩ := List.mem_iff_getElem?.mp hv
  exact List.mem_of_getElem? (h.renames hj)

theorem rename_notMem (v : ValueId) : σ v ∉ args := by
  rcases Classical.em (v ∈ args) with hv | hv
  · exact h.apart _ (h.rename_mem hv)
  · rw [h.keeps hv]
    exact hv

end Fused

end Body

end FlowGraph
