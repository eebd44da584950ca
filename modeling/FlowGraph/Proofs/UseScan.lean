import FlowGraph.Proofs.History

/-!
The questions about the readers of a value against a scan of the whole body. The use index is asked,
its answer is sorted and each point is read once; the scan goes through all live instructions and
terminators in order. Both give the same list, and replacing the uses of a value renames what the scan
sees.
-/

namespace FlowGraph

theorem sublist_eraseDups {α : Type} [DecidableEq α] (l : List α) : l.eraseDups.Sublist l := by
  match l with
  | [] => exact List.Sublist.refl _
  | a :: l =>
      rw [List.eraseDups_cons]
      apply List.Sublist.cons_cons
      exact (sublist_eraseDups _).trans List.filter_sublist
termination_by l.length
decreasing_by exact Nat.lt_succ_of_le (List.length_filter_le _ _)

theorem flatMap_filter_of_eq_nil {α β : Type} {p : α → Bool} {F : α → List β} {l : List α}
    (h : ∀ a ∈ l, p a = false → F a = []) : (l.filter p).flatMap F = l.flatMap F := by
  induction l with
  | nil => rfl
  | cons a l ih =>
      rw [List.forall_mem_cons] at h
      rw [List.filter_cons, List.flatMap_cons]
      split
      · rw [List.flatMap_cons, ih h.2]
      · rename_i hp
        rw [h.1 (Bool.eq_false_iff.mpr hp), ih h.2, List.nil_append]

theorem Arena.pairwise_live {α : Type} (a : Arena α) : a.live.Pairwise (· < ·) :=
  List.pairwise_lt_range.filter _

namespace UseIndex

theorem usersOf_link_of_notMem {v : ValueId} {operands : List ValueId} (hv : v ∉ operands)
    (u : UseIndex) (point : Point) : (u.link point operands).usersOf v = u.usersOf v := by
  unfold link
  induction operands generalizing u with
  | nil => rfl
  | cons w rest ih =>
      rw [List.mem_cons, not_or] at hv
      rw [List.foldl_cons, ih hv.2, add, usersOf_modify, if_neg fun h => hv.1 h.1]

end UseIndex

namespace Body

variable {f g : Body} {v old new : ValueId}

/-- The points of a body: the live instructions by number, then the terminators of the live blocks by
number. -/
def points (f : Body) : List Point :=
  f.instrs.live.map (fun i => .instr ⟨i⟩) ++ f.blocks.live.map fun b => .terminator ⟨b⟩

/-- The operand slots of a body, point by point and by position, each with the value that it reads. -/
def slots (f : Body) : List (Use × ValueId) :=
  f.points.flatMap fun point =>
    (f.operandsAt? point).zipIdx.map fun slot => (⟨point, slot.2⟩, slot.1)

/-- The slots that read `v`, found by looking at all of them. -/
def scanFor (f : Body) (v : ValueId) : List Use := (f.slots.filter (·.2 = v)).map Prod.fst

theorem mem_points_of_mem_operandsAt? {point : Point} (h : v ∈ f.operandsAt? point) :
    point ∈ f.points := by
  unfold points
  rw [List.mem_append, List.mem_map, List.mem_map]
  cases point with
  | instr i =>
      left
      rcases hi : f.instr? i with _ | data
      · simp [operandsAt?, hi] at h
      · exact ⟨i.index, Arena.mem_live.mpr ⟨data, hi⟩, rfl⟩
  | terminator b =>
      right
      rcases hb : f.block? b with _ | data
      · simp [operandsAt?, hb] at h
      · exact ⟨b.index, Arena.mem_live.mpr ⟨data, hb⟩, rfl⟩

theorem pairwise_points (f : Body) :
    f.points.Pairwise fun a b => Point.le a b = true ∧ a ≠ b := by
  unfold points
  rw [List.pairwise_append, List.pairwise_map, List.pairwise_map]
  refine ⟨f.instrs.pairwise_live.imp ?_, f.blocks.pairwise_live.imp ?_, ?_⟩
  · intro i j hij
    exact ⟨decide_eq_true (Nat.le_of_lt hij), by simp [Nat.ne_of_lt hij]⟩
  · intro b c hbc
    exact ⟨decide_eq_true (Nat.le_of_lt hbc), by simp [Nat.ne_of_lt hbc]⟩
  · intro a ha b hb
    obtain ⟨i, -, rfl⟩ := List.mem_map.mp ha
    obtain ⟨c, -, rfl⟩ := List.mem_map.mp hb
    exact ⟨rfl, Point.noConfusion⟩

theorem nodup_points (f : Body) : f.points.Nodup := f.pairwise_points.imp fun h => h.2

theorem mem_slots {slot : Use × ValueId} :
    slot ∈ f.slots ↔ (f.operandsAt? slot.1.point)[slot.1.operand]? = some slot.2 := by
  obtain ⟨⟨point, k⟩, v⟩ := slot
  simp only [slots, List.mem_flatMap, List.mem_map, List.mem_zipIdx_iff_getElem?, Prod.mk.injEq,
    Use.mk.injEq]
  constructor
  · rintro ⟨other, -, slot, hslot, ⟨rfl, rfl⟩, rfl⟩
    exact hslot
  · intro h
    exact ⟨point, mem_points_of_mem_operandsAt? (List.mem_of_getElem? h), (v, k), h, ⟨rfl, rfl⟩, rfl⟩

theorem nodup_slots (f : Body) : (f.slots.map Prod.fst).Nodup := by
  rw [slots, List.map_flatMap, List.nodup_flatMap]
  refine ⟨fun point _ => ?_, f.nodup_points.imp ?_⟩
  · have hnumbers : ((f.operandsAt? point).zipIdx.map Prod.snd).Nodup := by
      rw [List.zipIdx_map_snd]
      exact List.nodup_range'
    have hinjective : Function.Injective (Use.mk point) := fun _ _ hkl => congrArg Use.operand hkl
    have huses := hnumbers.map hinjective
    rw [List.map_map] at huses ⊢
    exact huses
  · intro a b hne use ha hb
    apply hne
    simp only [List.mem_map] at ha hb
    obtain ⟨_, ⟨_, -, rfl⟩, rfl⟩ := ha
    obtain ⟨_, ⟨_, -, rfl⟩, hpoint⟩ := hb
    exact (congrArg Use.point hpoint).symm

theorem mem_scanFor {use : Use} :
    use ∈ f.scanFor v ↔ (f.operandsAt? use.point)[use.operand]? = some v := by
  simp only [scanFor, List.mem_map, List.mem_filter, decide_eq_true_eq]
  constructor
  · rintro ⟨slot, ⟨hslot, rfl⟩, rfl⟩
    exact mem_slots.mp hslot
  · intro h
    exact ⟨(use, v), ⟨mem_slots.mpr h, rfl⟩, rfl⟩

theorem nodup_scanFor (f : Body) (v : ValueId) : (f.scanFor v).Nodup :=
  f.nodup_slots.sublist (List.filter_sublist.map Prod.fst)

theorem scanFor_eq_flatMap (f : Body) (v : ValueId) :
    f.scanFor v = f.points.flatMap fun point => usesAt v point (f.operandsAt? point) := by
  rw [scanFor, slots, List.filter_flatMap, List.map_flatMap]
  apply List.flatMap_congr
  intro point _
  rw [List.filter_map, List.map_map]
  rfl

theorem usesAt_eq_nil {operands : List ValueId} (hv : v ∉ operands) (point : Point) :
    usesAt v point operands = [] := by
  rw [usesAt, List.map_eq_nil_iff, List.filter_eq_nil_iff]
  intro slot hslot heq
  rw [List.mem_zipIdx_iff_getElem?, of_decide_eq_true heq] at hslot
  exact hv (List.mem_of_getElem? hslot)

theorem operandsAt_eq_ok {point : Point} (h : v ∈ f.operandsAt? point) :
    f.operandsAt point = .ok (f.operandsAt? point) := by
  cases point with
  | instr i =>
      rcases hi : f.instr? i with _ | data
      · simp [operandsAt?, hi] at h
      · rw [operandsAt, instr_eq_ok.mpr hi, ok_bind, operandsAt?, hi]
        rfl
  | terminator b =>
      rcases hterm : f.terminator? b with _ | t
      · simp [operandsAt?_terminator, hterm] at h
      · rw [operandsAt, terminator_eq_ok.mpr (terminator?_eq_some.mp hterm), ok_bind,
          operandsAt?_terminator, hterm]
        rfl

/-- The points listed for a value, sorted and each taken once, are those of the scan that read it. -/
theorem UsesListed.readersOf_eq_filter (h : f.UsesListed) (v : ValueId) :
    f.readersOf v = f.points.filter fun point => v ∈ f.operandsAt? point := by
  have hsorted : (f.readersOf v).Pairwise fun a b => Point.le a b = true :=
    (List.pairwise_mergeSort Point.le_trans Point.le_total _).sublist (sublist_eraseDups _)
  have hscanned : (f.points.filter fun point => v ∈ f.operandsAt? point).Pairwise
      fun a b => Point.le a b = true :=
    (f.pairwise_points.imp fun hab => hab.1).sublist List.filter_sublist
  apply List.Perm.eq_of_pairwise (fun a b _ _ => Point.le_antisymm a b) hsorted hscanned
  rw [List.perm_ext_iff_of_nodup (nodup_readersOf f v) (f.nodup_points.filter _)]
  intro point
  rw [mem_readersOf h, List.mem_filter, decide_eq_true_eq]
  exact (and_iff_right_of_imp mem_points_of_mem_operandsAt?).symm

theorem UsesListed.usesOf_eq (h : f.UsesListed) (v : ValueId) : f.usesOf v = .ok (f.scanFor v) := by
  have hrun : (f.readersOf v).mapM (fun point => do return usesAt v point (← f.operandsAt point)) =
      .ok ((f.readersOf v).map fun point => usesAt v point (f.operandsAt? point)) := by
    apply mapM_eq_ok
    intro point hpoint
    rw [operandsAt_eq_ok ((mem_readersOf h).mp hpoint)]
    rfl
  rw [usesOf, hrun, ok_bind, scanFor_eq_flatMap, h.readersOf_eq_filter, ← List.flatMap_def]
  refine congrArg Except.ok (flatMap_filter_of_eq_nil fun point _ hpoint => ?_)
  exact usesAt_eq_nil (of_decide_eq_false hpoint) point

theorem UsesListed.hasUses_iff_slot (h : f.UsesListed) :
    f.hasUses v = true ↔ ∃ slot ∈ f.slots, slot.2 = v := by
  rw [h.hasUses_iff]
  constructor
  · rintro ⟨point, hv⟩
    obtain ⟨k, hk⟩ := List.mem_iff_getElem?.mp hv
    exact ⟨(⟨point, k⟩, v), mem_slots.mpr hk, rfl⟩
  · rintro ⟨slot, hslot, rfl⟩
    exact ⟨slot.1.point, List.mem_of_getElem? (mem_slots.mp hslot)⟩

theorem size_substituteAll (f : Body) (old new : ValueId) (points : List Point) :
    (f.substituteAll old new points).blocks.size = f.blocks.size ∧
      (f.substituteAll old new points).instrs.size = f.instrs.size := by
  induction points generalizing f with
  | nil => exact ⟨rfl, rfl⟩
  | cons point rest ih =>
      obtain ⟨hblocks, hinstrs⟩ := ih (f.substituteAt old new point)
      cases point with
      | instr i => exact ⟨hblocks, hinstrs.trans (Arena.size_modify _ _ _)⟩
      | terminator b => exact ⟨hblocks.trans (Arena.size_modify _ _ _), hinstrs⟩

theorem usersOf_substituteAll (hv : v ≠ new) (f : Body) (old : ValueId) (points : List Point) :
    (f.substituteAll old new points).usersOf v = f.usersOf v := by
  induction points generalizing f with
  | nil => rfl
  | cons point rest ih =>
      refine (ih (f.substituteAt old new point)).trans ?_
      rw [substituteAt_eq]
      apply UseIndex.usersOf_link_of_notMem
      exact fun hmem => hv (List.eq_of_mem_replicate hmem)

/-- All that replacing the value `old` by `new` does to a body: the slots that read `old` read `new`, and
the readers of `old` have become readers of `new`. -/
structure Substituted (f g : Body) (old new : ValueId) : Prop where
  id : g.id = f.id
  name : g.name = f.name
  layout : g.layout = f.layout
  values : g.values = f.values
  size_blocks : g.blocks.size = f.blocks.size
  size_instrs : g.instrs.size = f.instrs.size
  renamed : Renamed (rename old new) f g
  slots : g.slots = f.slots.map fun slot => (slot.1, rename old new slot.2)
  unread : ∀ slot ∈ g.slots, slot.2 ≠ old
  size_users : g.useIndex.users.size = f.useIndex.users.size
  users_old : g.usersOf old = []
  users_new : (g.usersOf new).Perm (f.usersOf new ++ f.usersOf old)
  users_other : ∀ v, v ≠ old → v ≠ new → g.usersOf v = f.usersOf v

theorem Renamed.points_eq {σ : ValueId → ValueId} (h : Renamed σ f g)
    (hblocks : g.blocks.size = f.blocks.size) (hinstrs : g.instrs.size = f.instrs.size) :
    g.points = f.points := by
  have hblock : ∀ b, g.blocks.isLive b = f.blocks.isLive b := by
    intro b
    have hb := congrArg Option.isSome (h.block? ⟨b⟩)
    rw [Option.isSome_map] at hb
    exact hb
  have hinstr : ∀ i, g.instrs.isLive i = f.instrs.isLive i := by
    intro i
    have hi := congrArg Option.isSome (h.instr? ⟨i⟩)
    rw [Option.isSome_map] at hi
    exact hi
  rw [points, Arena.live, Arena.live, hblocks, hinstrs, funext hblock, funext hinstr]
  rfl

theorem Renamed.slots_eq {σ : ValueId → ValueId} (h : Renamed σ f g) (hpoints : g.points = f.points) :
    g.slots = f.slots.map fun slot => (slot.1, σ slot.2) := by
  rw [slots, slots, hpoints, List.map_flatMap]
  apply List.flatMap_congr
  intro point _
  rw [h.operandsAt?, List.zipIdx_map, List.map_map, List.map_map]
  rfl

theorem Consistent.substituted (h : f.Consistent) (halloc : new.index < f.values.size)
    (hne : old ≠ new) : f.Substituted (f.replaceAllUses old new) old new := by
  have hrenamed := h.uses.renamed_replaceAllUses old new
  have huses : (f.replaceAllUses old new).UsesListed := h.uses.replaceAllUses fun _ => halloc
  have heq := replaceAllUses_eq (f := f) hne
  obtain ⟨hblocks, hinstrs⟩ := size_substituteAll { f with useIndex := f.useIndex.clear old } old new
    (f.readersOf old)
  rw [← heq] at hblocks hinstrs
  have hslots := hrenamed.slots_eq (hrenamed.points_eq hblocks hinstrs)
  have hcount : ∀ v point, ((f.replaceAllUses old new).usersOf v).count point =
      (if v = old then 0 else (f.usersOf v).count point) +
        if v = new then (f.usersOf old).count point else 0 := by
    intro v point
    rw [huses.count_users, hrenamed.operandsAt?, count_map_rename hne, h.uses.count_users,
      h.uses.count_users]
  refine ⟨?_, ?_, layout_replaceAllUses f old new, values_replaceAllUses f old new, hblocks, hinstrs,
    hrenamed, hslots, ?_, ?_, ?_, ?_, ?_⟩
  · rw [heq, substituteAll_eq]
  · rw [heq, substituteAll_eq]
  · intro slot hslot heq
    rw [hslots, List.mem_map] at hslot
    obtain ⟨source, -, rfl⟩ := hslot
    unfold rename at heq
    split at heq
    · exact hne heq.symm
    · contradiction
  · rw [huses.size_users, values_replaceAllUses, h.uses.size_users]
  · rw [List.eq_nil_iff_forall_not_mem]
    intro point
    rw [← List.count_pos_iff, hcount, if_pos rfl, if_neg hne]
    exact Nat.lt_irrefl 0
  · rw [List.perm_iff_count]
    intro point
    rw [hcount, if_neg hne.symm, if_pos rfl, List.count_append]
  · intro v hold hnew
    rw [heq, usersOf_substituteAll hnew]
    exact (f.useIndex.usersOf_clear old v).trans (if_neg hold)

end Body

/-- The use index of a well-built body answers as a scan of all its instructions and terminators does,
and replacing a value by an allocated one renames what the scan sees and nothing else. -/
theorem WellBuilt.uses_scanned {f : Body} (hf : WellBuilt f) :
    (∀ v, f.usesOf v = .ok (f.scanFor v) ∧ (f.scanFor v).Nodup ∧
      (∀ use, use ∈ f.scanFor v ↔ (f.operandsAt? use.point)[use.operand]? = some v) ∧
      (∀ point, (f.usersOf v).count point = (f.operandsAt? point).count v) ∧
      (f.hasUses v = true ↔ ∃ slot ∈ f.slots, slot.2 = v)) ∧
    ∀ old new, new.index < f.values.size → old ≠ new →
      f.Substituted (f.replaceAllUses old new) old new := by
  have huses := hf.consistent.uses
  refine ⟨fun v => ⟨huses.usesOf_eq v, f.nodup_scanFor v, fun use => Body.mem_scanFor,
    huses.count_users v, huses.hasUses_iff_slot⟩, fun old new halloc hne => ?_⟩
  exact hf.consistent.substituted halloc hne

/-- The sum is read twice by the instruction that forms it and once by the terminator. -/
theorem reworkedLoop_uses_scanned :
    reworkedLoop.usesOf ⟨2⟩ = .ok [⟨.instr ⟨0⟩, 0⟩, ⟨.instr ⟨0⟩, 1⟩, ⟨.terminator ⟨1⟩, 0⟩] ∧
      reworkedLoop.hasUses ⟨2⟩ = true ∧
      reworkedLoop.Substituted (reworkedLoop.replaceAllUses ⟨2⟩ ⟨0⟩) ⟨2⟩ ⟨0⟩ := by
  have hf : WellBuilt reworkedLoop := wellBuilt_replayed _
  obtain ⟨hquery, hreplace⟩ := WellBuilt.uses_scanned hf
  obtain ⟨huses, -, -, -, hread⟩ := hquery ⟨2⟩
  have hscan : reworkedLoop.scanFor ⟨2⟩ =
      [⟨.instr ⟨0⟩, 0⟩, ⟨.instr ⟨0⟩, 1⟩, ⟨.terminator ⟨1⟩, 0⟩] := by cbv
  have hslot : (⟨.instr ⟨0⟩, 0⟩, ⟨2⟩) ∈ reworkedLoop.slots := Body.mem_slots.mpr (by cbv)
  exact ⟨hscan ▸ huses, hread.mpr ⟨_, hslot, rfl⟩, hreplace ⟨2⟩ ⟨0⟩ (by cbv) (by decide)⟩

end FlowGraph
