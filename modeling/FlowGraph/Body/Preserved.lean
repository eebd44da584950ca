import FlowGraph.Body.Splice

namespace FlowGraph.Body

@[simp] theorem liveBlocks_modifyBlock (f : Body) (b : BlockId) (g : Block → Block) :
    (f.modifyBlock b g).liveBlocks = f.liveBlocks := by
  simp [liveBlocks, modifyBlock]

@[simp] theorem liveBlocks_unlistEdges (f : Body) (b : BlockId) (targets : List BlockId) :
    (f.unlistEdges b targets).liveBlocks = f.liveBlocks := by
  unfold unlistEdges
  induction targets generalizing f with
  | nil => rfl
  | cons s rest ih => rw [List.foldl_cons, ih, liveBlocks_modifyBlock]

@[simp] theorem liveBlocks_listEdges (f : Body) (b : BlockId) (e : Nat) (targets : List BlockId) :
    (f.listEdges b e targets).liveBlocks = f.liveBlocks := by
  induction targets generalizing f e with
  | nil => rfl
  | cons s rest ih => rw [listEdges, ih, liveBlocks_modifyBlock]

theorem liveBlocks_takeTerminator {f f' : Body} {b : BlockId} {t : Option Terminator}
    (h : f.takeTerminator b = .ok (t, f')) : f'.liveBlocks = f.liveBlocks := by
  unfold takeTerminator at h
  cases hb : f.block b with
  | error fault => simp [hb, bind, Except.bind] at h
  | ok data =>
    simp only [hb, bind, Except.bind] at h
    split at h
    · cases h
      rfl
    · cases h
      exact (liveBlocks_unlistEdges _ _ _).trans (liveBlocks_modifyBlock f b _)

theorem liveBlocks_setTerminator {f f' : Body} {b : BlockId} {t : Terminator}
    {old : Option Terminator} (h : f.setTerminator b t = .ok (old, f')) :
    f'.liveBlocks = f.liveBlocks := by
  unfold setTerminator at h
  cases htake : f.takeTerminator b with
  | error fault => simp [htake, bind, Except.bind] at h
  | ok taken =>
    obtain ⟨prior, g⟩ := taken
    simp only [htake, bind, Except.bind] at h
    split at h
    · cases h
    · cases h
      rw [liveBlocks_modifyBlock]
      exact (liveBlocks_listEdges g b 0 _).trans (liveBlocks_takeTerminator htake)

theorem liveBlocks_moveTerminator {f f' : Body} {source target : BlockId}
    (h : f.moveTerminator source target = .ok f') : f'.liveBlocks = f.liveBlocks := by
  unfold moveTerminator at h
  cases htake : f.takeTerminator source with
  | error fault => simp [htake, bind, Except.bind] at h
  | ok taken =>
    obtain ⟨t, g⟩ := taken
    have hg := liveBlocks_takeTerminator htake
    simp only [htake, bind, Except.bind] at h
    cases t with
    | none =>
      cases h
      exact hg
    | some t =>
      cases hset : g.setTerminator target t with
      | error fault => simp [hset] at h
      | ok result =>
        simp only [hset] at h
        cases h
        exact (liveBlocks_setTerminator hset).trans hg

theorem liveBlocks_moveInstrs {f f' : Body} {b : BlockId} {moved : List InstrId}
    (h : f.moveInstrs b moved = .ok f') : f'.liveBlocks = f.liveBlocks := by
  induction moved generalizing f with
  | nil =>
    cases h
    rfl
  | cons i rest ih =>
    unfold moveInstrs at h
    cases hi : f.instr i with
    | error fault => simp [hi, bind, Except.bind] at h
    | ok data =>
      simp only [hi, bind, Except.bind] at h
      exact (ih h).trans rfl

@[simp] theorem liveBlocks_mapOperandsAt (f : Body) (g : ValueId → ValueId) (point : Point) :
    (f.mapOperandsAt g point).liveBlocks = f.liveBlocks := by
  cases point with
  | instr i => rfl
  | terminator b => exact liveBlocks_modifyBlock f b _

theorem liveBlocks_replaceAllUses (f : Body) (old new : ValueId) :
    (f.replaceAllUses old new).liveBlocks = f.liveBlocks := by
  unfold replaceAllUses
  split
  · rfl
  · have hfold : ∀ (points : List Point) (g : Body),
        (points.foldl (fun f point => f.substituteAt old new point) g).liveBlocks =
          g.liveBlocks := by
      intro points
      induction points with
      | nil => intro g; rfl
      | cons point rest ih =>
        intro g
        rw [List.foldl_cons, ih]
        exact liveBlocks_mapOperandsAt g _ point
    exact (hfold _ _).trans rfl

theorem liveBlocks_eraseValue {f f' : Body} {v : ValueId} (h : f.eraseValue v = .ok f') :
    f'.liveBlocks = f.liveBlocks := by
  unfold eraseValue at h
  split at h
  · cases h
    rfl
  · cases h

theorem liveBlocks_bindArgs {f f' : Body} {args operands : List ValueId}
    (h : f.bindArgs args operands = .ok f') : f'.liveBlocks = f.liveBlocks := by
  induction args generalizing f operands with
  | nil =>
    cases h
    rfl
  | cons arg args ih =>
    cases operands with
    | nil =>
      cases h
      rfl
    | cons operand operands =>
      unfold bindArgs at h
      cases herase : (f.replaceAllUses arg operand).eraseValue arg with
      | error fault => simp [herase, bind, Except.bind] at h
      | ok g =>
        simp only [herase, bind, Except.bind] at h
        exact (ih h).trans ((liveBlocks_eraseValue herase).trans (liveBlocks_replaceAllUses _ _ _))

theorem liveBlocks_dropBlock (f : Body) (b : BlockId) :
    (f.dropBlock b).liveBlocks = f.liveBlocks.filter (· ≠ b) := by
  simp only [liveBlocks, dropBlock, Arena.live_erase, List.filter_map]
  congr 1
  apply List.filter_congr
  intro i _
  cases b
  simp

theorem liveBlocks_absorb {f f' : Body} {b succ : BlockId} {operands : List ValueId}
    (h : f.absorb b succ operands = .ok f') :
    succ ∈ f.liveBlocks ∧ f'.liveBlocks = f.liveBlocks.filter (· ≠ succ) := by
  unfold absorb at h
  cases htake : f.takeTerminator b with
  | error fault => simp [htake, bind, Except.bind] at h
  | ok taken =>
    obtain ⟨t, g⟩ := taken
    have hg := liveBlocks_takeTerminator htake
    simp only [htake, bind, Except.bind] at h
    cases hsucc : g.block succ with
    | error fault => simp [hsucc] at h
    | ok data =>
      simp only [hsucc] at h
      have hmem : succ ∈ f.liveBlocks := hg ▸ mem_liveBlocks.2 ⟨data, block_eq_ok.1 hsucc⟩
      split at h
      · cases h
      · simp only [pure, Except.pure] at h
        cases hbind : (g.modifyBlock succ fun data => { data with args := [] }).bindArgs data.args
            operands with
        | error fault => simp [hbind] at h
        | ok g₁ =>
          simp only [hbind] at h
          cases hmove : (g₁.modifyBlock succ fun data => { data with instrs := [] }).moveInstrs b
              data.instrs with
          | error fault => simp [hmove] at h
          | ok g₂ =>
            simp only [hmove] at h
            cases hterm : (g₂.modifyBlock b fun blk =>
                { blk with instrs := blk.instrs ++ data.instrs }).moveTerminator succ b with
            | error fault => simp [hterm] at h
            | ok g₃ =>
              simp only [hterm] at h
              cases h
              refine ⟨hmem, ?_⟩
              rw [liveBlocks_dropBlock, liveBlocks_moveTerminator hterm, liveBlocks_modifyBlock,
                liveBlocks_moveInstrs hmove, liveBlocks_modifyBlock, liveBlocks_bindArgs hbind,
                liveBlocks_modifyBlock, hg]

theorem length_liveBlocks_lt_of_merge {f f' : Body} {b succ : BlockId}
    (h : f.mergeWithSuccessor b = .ok (.ok (succ, f'))) :
    f'.liveBlocks.length < f.liveBlocks.length := by
  unfold mergeWithSuccessor at h
  cases htarget : f.mergeTarget b with
  | error fault => simp [htarget, bind, Except.bind] at h
  | ok target =>
    simp only [htarget, bind, Except.bind] at h
    cases target with
    | error refusal => cases h
    | ok found =>
      obtain ⟨s, operands⟩ := found
      simp only at h
      cases habsorb : f.absorb b s operands with
      | error fault => simp [habsorb] at h
      | ok g =>
        simp only [habsorb] at h
        cases h
        obtain ⟨hmem, hlive⟩ := liveBlocks_absorb habsorb
        rw [hlive]
        exact List.length_filter_lt_length_iff_exists.2 ⟨_, hmem, by simp⟩

end FlowGraph.Body
