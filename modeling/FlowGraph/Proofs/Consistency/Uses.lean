import FlowGraph.Proofs.Consistency.Instrs

namespace FlowGraph

def rename (old new v : ValueId) : ValueId := if v = old then new else v

theorem rename_of_ne {old new v : ValueId} (h : v ≠ old) : rename old new v = v := if_neg h

theorem rename_self (v w : ValueId) : rename v v w = w := by
  unfold rename
  split
  · rename_i h
    exact h.symm
  · rfl

theorem count_map_rename {old new : ValueId} (hne : old ≠ new) (l : List ValueId) (v : ValueId) :
    (l.map (rename old new)).count v =
      (if v = old then 0 else l.count v) + if v = new then l.count old else 0 := by
  induction l with
  | nil => simp
  | cons w l ih =>
      rw [List.map_cons, List.count_cons, ih, List.count_cons, List.count_cons]
      unfold rename
      grind

theorem Operation.mapOperands_comp (σ τ : ValueId → ValueId) (op : Operation) :
    (op.mapOperands σ).mapOperands τ = op.mapOperands (τ ∘ σ) := by
  cases op <;> simp [mapOperands]

theorem Terminator.mapOperands_comp (σ τ : ValueId → ValueId) (t : Terminator) :
    (t.mapOperands σ).mapOperands τ = t.mapOperands (τ ∘ σ) := by
  cases t <;> simp [mapOperands]

theorem nodup_eraseDups {α : Type} [DecidableEq α] (l : List α) : l.eraseDups.Nodup := by
  match l with
  | [] => exact List.nodup_nil
  | a :: l =>
      rw [List.eraseDups_cons, List.nodup_cons]
      refine ⟨?_, nodup_eraseDups _⟩
      rw [List.mem_eraseDups]
      simp
termination_by l.length
decreasing_by exact Nat.lt_succ_of_le (List.length_filter_le _ _)

namespace Body

variable {f g : Body} {σ : ValueId → ValueId}

/-- `g` is `f` with every operand slot renamed along `σ`, as far as blocks and instructions go. -/
structure Renamed (σ : ValueId → ValueId) (f g : Body) : Prop where
  block? : ∀ c, g.block? c =
    (f.block? c).map fun data => { data with terminator := data.terminator.map (·.mapOperands σ) }
  instr? : ∀ i, g.instr? i =
    (f.instr? i).map fun data => { data with op := data.op.mapOperands σ }

namespace Renamed

theorem refl (hσ : ∀ v, σ v = v) (f : Body) : Renamed σ f f := by
  refine ⟨fun c => ?_, fun i => ?_⟩
  · rcases f.block? c with _ | ⟨args, instrs, _ | t, preds⟩
    · rfl
    · rfl
    · simp [Terminator.mapOperands_eq_self fun v _ => hσ v]
  · rcases f.instr? i with _ | data
    · rfl
    · simp [Operation.mapOperands_eq_self fun v _ => hσ v]

theorem trans {h : Body} {τ : ValueId → ValueId} (hfg : Renamed σ f g) (hgh : Renamed τ g h) :
    Renamed (τ ∘ σ) f h := by
  refine ⟨fun c => ?_, fun i => ?_⟩
  · rw [hgh.block?, hfg.block?]
    simp [Function.comp_def, Terminator.mapOperands_comp]
  · rw [hgh.instr?, hfg.instr?]
    simp [Function.comp_def, Operation.mapOperands_comp]

section

variable (h : Renamed σ f g)
include h

theorem terminator? (c : BlockId) :
    g.terminator? c = (f.terminator? c).map (·.mapOperands σ) := by
  rw [Body.terminator?, h.block?, Body.terminator?]
  rcases f.block? c with _ | data <;> rfl

theorem target? (e : Edge) : g.target? e = f.target? e := by
  rw [Body.target?, h.terminator?, Body.target?]
  rcases f.terminator? e.block with _ | t
  · rfl
  · simp

theorem operation? (i : InstrId) : g.operation? i = (f.operation? i).map (·.mapOperands σ) := by
  rw [Body.operation?, h.instr?, Body.operation?]
  rcases f.instr? i with _ | data <;> rfl

theorem holder? (i : InstrId) : g.holder? i = f.holder? i := by
  rw [Body.holder?, h.instr?, Body.holder?]
  rcases f.instr? i with _ | data <;> rfl

theorem result? (i : InstrId) : g.result? i = f.result? i := by
  rw [Body.result?, h.instr?, Body.result?]
  rcases f.instr? i with _ | data <;> rfl

theorem operandsAt? (point : Point) : g.operandsAt? point = (f.operandsAt? point).map σ := by
  rcases point with i | c
  · rw [operandsAt?_instr, h.operation?, operandsAt?_instr]
    rcases f.operation? i with _ | op <;> simp
  · rw [operandsAt?_terminator, h.terminator?, operandsAt?_terminator]
    rcases f.terminator? c with _ | t <;> simp

theorem consistent (hf : f.Consistent) (hlayout : g.layout = f.layout)
    (hvalues : g.values = f.values) (huses : g.UsesListed) : g.Consistent := by
  have horigin : ∀ v, g.origin? v = f.origin? v := fun v => by
    rw [origin?, value?, hvalues]
    rfl
  refine ⟨?_, ?_, ?_, ?_, ?_, huses⟩
  · exact hf.layout.congr hlayout (isLiveBlock_mapBlocks h.block?)
  · exact hf.edges.congr (preds?_mapBlocks h.block? fun _ _ => rfl) h.target?
  · exact hf.instrs.congr (instrs?_mapBlocks h.block? fun _ _ => rfl) h.holder?
  · exact hf.args.congr (args?_mapBlocks h.block? fun _ _ => rfl) horigin
  · exact hf.results.congr h.result? horigin

end

end Renamed

section SubstituteAt

variable (f : Body) (old new : ValueId) (point : Point)

theorem instr?_substituteAt (i : InstrId) :
    (f.substituteAt old new point).instr? i =
      if point = .instr i then
        (f.instr? i).map fun data => { data with op := data.op.mapOperands (rename old new) }
      else f.instr? i := by
  rcases point with j | b
  · refine (instr?_modifyInstr f j i _).trans ?_
    simp only [Point.instr.injEq, @eq_comm _ j i]
    rfl
  · rfl

theorem block?_substituteAt (c : BlockId) :
    (f.substituteAt old new point).block? c =
      if point = .terminator c then
        (f.block? c).map fun data =>
          { data with terminator := data.terminator.map (·.mapOperands (rename old new)) }
      else f.block? c := by
  rcases point with j | b
  · rfl
  · refine (block?_modifyBlock f b c _).trans ?_
    simp only [Point.terminator.injEq, @eq_comm _ b c]
    rfl

theorem substituteAt_eq :
    f.substituteAt old new point =
      { f with
        blocks := (f.substituteAt old new point).blocks
        instrs := (f.substituteAt old new point).instrs
        useIndex := f.useIndex.link point (List.replicate ((f.operandsAt? point).count old) new) } := by
  rcases point with j | b <;> rfl

end SubstituteAt

theorem operandsAt?_substituteAt {old new : ValueId} {point other : Point} (hne : point ≠ other) :
    (f.substituteAt old new point).operandsAt? other = f.operandsAt? other := by
  rcases other with i | c
  · rw [operandsAt?_instr, operation?, instr?_substituteAt, if_neg hne, operandsAt?_instr,
      operation?]
  · rw [operandsAt?_terminator, terminator?, block?_substituteAt, if_neg hne]
    rfl

theorem count_users_substituteAt (f : Body) (old new v : ValueId) (point other : Point) :
    ((f.substituteAt old new point).usersOf v).count other =
      (f.usersOf v).count other +
        if other = point ∧ v = new ∧ v.index < f.useIndex.users.size then
          (f.operandsAt? point).count old
        else 0 := by
  rw [substituteAt_eq]
  change ((f.useIndex.link _ _).usersOf v).count other = _
  rw [UseIndex.count_link, List.count_replicate]
  change (f.usersOf v).count other + _ = _
  grind

/-- The body after `old` was replaced by `new` at the given points. -/
def substituteAll (f : Body) (old new : ValueId) (points : List Point) : Body :=
  points.foldl (fun f point => f.substituteAt old new point) f

section SubstituteAll

variable (f : Body) (old new : ValueId)

theorem substituteAll_eq (points : List Point) :
    f.substituteAll old new points =
      { f with
        blocks := (f.substituteAll old new points).blocks
        instrs := (f.substituteAll old new points).instrs
        useIndex := (f.substituteAll old new points).useIndex } := by
  induction points generalizing f with
  | nil => rfl
  | cons point rest ih =>
      change (f.substituteAt old new point).substituteAll old new rest = _
      rw [ih]
      rcases point with i | b <;> rfl

theorem size_users_substituteAll (points : List Point) :
    (f.substituteAll old new points).useIndex.users.size = f.useIndex.users.size := by
  induction points generalizing f with
  | nil => rfl
  | cons point rest ih =>
      change ((f.substituteAt old new point).substituteAll old new rest).useIndex.users.size = _
      rw [ih, substituteAt_eq]
      exact UseIndex.size_link _ _ _

theorem instr?_substituteAll {points : List Point} (hnodup : points.Nodup) (i : InstrId) :
    (f.substituteAll old new points).instr? i =
      if .instr i ∈ points then
        (f.instr? i).map fun data => { data with op := data.op.mapOperands (rename old new) }
      else f.instr? i := by
  induction points generalizing f with
  | nil => rfl
  | cons point rest ih =>
      obtain ⟨hpoint, hrest⟩ := List.nodup_cons.mp hnodup
      change ((f.substituteAt old new point).substituteAll old new rest).instr? i = _
      rw [ih _ hrest, instr?_substituteAt]
      grind

theorem block?_substituteAll {points : List Point} (hnodup : points.Nodup) (c : BlockId) :
    (f.substituteAll old new points).block? c =
      if .terminator c ∈ points then
        (f.block? c).map fun data =>
          { data with terminator := data.terminator.map (·.mapOperands (rename old new)) }
      else f.block? c := by
  induction points generalizing f with
  | nil => rfl
  | cons point rest ih =>
      obtain ⟨hpoint, hrest⟩ := List.nodup_cons.mp hnodup
      change ((f.substituteAt old new point).substituteAll old new rest).block? c = _
      rw [ih _ hrest, block?_substituteAt]
      grind

theorem count_users_substituteAll {points : List Point} (hnodup : points.Nodup) (v : ValueId)
    (other : Point) :
    ((f.substituteAll old new points).usersOf v).count other =
      (f.usersOf v).count other +
        if other ∈ points ∧ v = new ∧ v.index < f.useIndex.users.size then
          (f.operandsAt? other).count old
        else 0 := by
  induction points generalizing f with
  | nil => simp [substituteAll]
  | cons point rest ih =>
      obtain ⟨hpoint, hrest⟩ := List.nodup_cons.mp hnodup
      change (((f.substituteAt old new point).substituteAll old new rest).usersOf v).count other = _
      have hsize : (f.substituteAt old new point).useIndex.users.size =
          f.useIndex.users.size := by
        rw [substituteAt_eq]
        exact UseIndex.size_link _ _ _
      rw [ih _ hrest, count_users_substituteAt, hsize]
      rcases Classical.em (point = other) with rfl | hne
      · simp [hpoint]
      · rw [operandsAt?_substituteAt hne]
        simp [Ne.symm hne]

end SubstituteAll

theorem nodup_readersOf (f : Body) (v : ValueId) : (f.readersOf v).Nodup :=
  nodup_eraseDups _

theorem mem_readersOf (h : f.UsesListed) {v : ValueId} {point : Point} :
    point ∈ f.readersOf v ↔ v ∈ f.operandsAt? point := by
  rw [readersOf, List.mem_eraseDups, sortPoints, List.mem_mergeSort, ← List.count_pos_iff,
    h.count_users, List.count_pos_iff]

theorem replaceAllUses_eq {old new : ValueId} (hne : old ≠ new) :
    f.replaceAllUses old new =
      { f with useIndex := f.useIndex.clear old : Body }.substituteAll old new
        (f.readersOf old) :=
  if_neg hne

theorem layout_replaceAllUses (f : Body) (old new : ValueId) :
    (f.replaceAllUses old new).layout = f.layout := by
  rcases Classical.em (old = new) with heq | hne
  · rw [replaceAllUses, if_pos heq]
  · rw [replaceAllUses_eq hne, substituteAll_eq]

theorem values_replaceAllUses (f : Body) (old new : ValueId) :
    (f.replaceAllUses old new).values = f.values := by
  rcases Classical.em (old = new) with heq | hne
  · rw [replaceAllUses, if_pos heq]
  · rw [replaceAllUses_eq hne, substituteAll_eq]

theorem UsesListed.renamed_replaceAllUses (h : f.UsesListed) (old new : ValueId) :
    Renamed (rename old new) f (f.replaceAllUses old new) := by
  rcases Classical.em (old = new) with rfl | hne
  · rw [replaceAllUses, if_pos rfl]
    exact .refl (rename_self old) f
  rw [replaceAllUses_eq hne]
  -- a point that is not visited does not read `old`, so renaming does not change it
  have hkeep : ∀ {point : Point}, point ∉ f.readersOf old →
      ∀ v ∈ f.operandsAt? point, rename old new v = v := by
    rintro point hpoint v hv
    refine rename_of_ne ?_
    rintro rfl
    exact hpoint ((mem_readersOf h).mpr hv)
  refine ⟨fun c => ?_, fun i => ?_⟩
  · rw [block?_substituteAll _ _ _ (nodup_readersOf f old)]
    change (if _ then (f.block? c).map _ else f.block? c) = _
    split
    · rfl
    · rename_i hc
      have hsame := hkeep hc
      rw [operandsAt?] at hsame
      rcases hb : f.block? c with _ | ⟨args, instrs, _ | t, preds⟩
      · rfl
      · rfl
      · rw [hb] at hsame
        simp [Terminator.mapOperands_eq_self hsame]
  · rw [instr?_substituteAll _ _ _ (nodup_readersOf f old)]
    change (if _ then (f.instr? i).map _ else f.instr? i) = _
    split
    · rfl
    · rename_i hi
      have hsame := hkeep hi
      rw [operandsAt?] at hsame
      rcases hdata : f.instr? i with _ | data
      · rfl
      · rw [hdata] at hsame
        simp [Operation.mapOperands_eq_self hsame]

theorem UsesListed.mem_usersOf (h : f.UsesListed) {v : ValueId} {point : Point} :
    point ∈ f.usersOf v ↔ v ∈ f.operandsAt? point := by
  rw [← List.count_pos_iff, h.count_users, List.count_pos_iff]

theorem UsesListed.hasUses_iff (h : f.UsesListed) {v : ValueId} :
    f.hasUses v = true ↔ ∃ point, v ∈ f.operandsAt? point := by
  simp only [← h.mem_usersOf]
  change (!(f.usersOf v).isEmpty) = true ↔ _
  rcases f.usersOf v with _ | ⟨point, rest⟩
  · simp
  · exact iff_of_true rfl ⟨point, List.mem_cons_self⟩

/-- No instruction and no terminator reads the value. -/
def Unread (f : Body) (v : ValueId) : Prop := ∀ point, v ∉ f.operandsAt? point

theorem UsesListed.unread_iff (h : f.UsesListed) {v : ValueId} :
    f.Unread v ↔ f.hasUses v = false := by
  rw [← Bool.not_eq_true, h.hasUses_iff, not_exists]
  rfl

/-- The replacement has to be allocated only if there is something to replace. -/
theorem UsesListed.replaceAllUses (h : f.UsesListed) {old new : ValueId}
    (halloc : f.hasUses old = true → new.index < f.values.size) :
    (f.replaceAllUses old new).UsesListed := by
  rcases Classical.em (old = new) with rfl | hne
  · rw [Body.replaceAllUses, if_pos rfl]
    exact h
  have halloc : ∀ {point}, old ∈ f.operandsAt? point → new.index < f.values.size :=
    fun hold => halloc (h.hasUses_iff.mpr ⟨_, hold⟩)
  have hoperands := (h.renamed_replaceAllUses old new).operandsAt?
  refine ⟨?_, ?_, ?_⟩
  · rw [values_replaceAllUses, replaceAllUses_eq hne, size_users_substituteAll]
    exact (UseIndex.size_clear _ _).trans h.size_users
  · intro point v hv
    rw [hoperands, List.mem_map] at hv
    obtain ⟨w, hw, rfl⟩ := hv
    rw [values_replaceAllUses]
    unfold rename
    split
    · rename_i hold
      subst hold
      exact halloc hw
    · exact h.allocated hw
  · intro v point
    rw [hoperands, count_map_rename hne, replaceAllUses_eq hne,
      count_users_substituteAll _ _ _ (nodup_readersOf f old)]
    change ((f.useIndex.clear old).usersOf v).count point + (if _ ∧ _ ∧
      v.index < (f.useIndex.clear old).users.size then (f.operandsAt? point).count old else 0) = _
    rw [UseIndex.count_clear, UseIndex.size_clear, h.size_users]
    change (if v = old then 0 else (f.usersOf v).count point) + _ = _
    simp only [h.count_users, mem_readersOf h]
    congr 1
    rcases Classical.em (v = new) with rfl | hnew
    · rcases Classical.em (old ∈ f.operandsAt? point) with hmem | hnot
      · simp [hmem, halloc hmem]
      · simp [hnot, List.count_eq_zero.mpr hnot]
    · simp [hnew]

theorem Consistent.replaceAllUses (h : f.Consistent) {old new : ValueId}
    (halloc : f.hasUses old = true → new.index < f.values.size) :
    (f.replaceAllUses old new).Consistent :=
  (h.uses.renamed_replaceAllUses old new).consistent h (layout_replaceAllUses f old new)
    (values_replaceAllUses f old new) (h.uses.replaceAllUses halloc)

end Body

end FlowGraph
