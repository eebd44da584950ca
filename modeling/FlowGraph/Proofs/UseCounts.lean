import FlowGraph.UseIndex

namespace FlowGraph

namespace Point

theorem le_trans : ∀ a b c : Point, a.le b = true → b.le c = true → a.le c = true := by
  rintro (⟨a⟩ | ⟨a⟩) (⟨b⟩ | ⟨b⟩) (⟨c⟩ | ⟨c⟩) hab hbc <;> simp [Point.le] at * <;> omega

theorem le_total : ∀ a b : Point, (a.le b || b.le a) = true := by
  rintro (⟨a⟩ | ⟨a⟩) (⟨b⟩ | ⟨b⟩) <;> simp [Point.le] <;> omega

theorem le_antisymm : ∀ a b : Point, a.le b = true → b.le a = true → a = b := by
  rintro (⟨⟨a⟩⟩ | ⟨⟨a⟩⟩) (⟨⟨b⟩⟩ | ⟨⟨b⟩⟩) hab hba <;> simp [Point.le] at * <;> omega

end Point

theorem dropPoint_perm (point : Point) (points : List Point) :
    (dropPoint point points).Perm (points.erase point) := by
  unfold dropPoint
  split
  · rename_i hnone
    rw [List.erase_of_not_mem (List.idxOf?_eq_none_iff.mp hnone)]
  · rename_i i hsome
    obtain ⟨hi, hpoint, hbefore⟩ := List.idxOf?_eq_some_iff.mp hsome
    have hsplit : points = points.take i ++ point :: points.drop (i + 1) := by
      rw [← hpoint, ← List.drop_eq_getElem_cons hi, List.take_append_drop]
    have hnot : point ∉ points.take i := by
      intro hmem
      obtain ⟨j, hj, heq⟩ := List.mem_take_iff_getElem.mp hmem
      have hji : j < i := by omega
      exact hbefore j hji heq
    have hlen : (points.take i).length = i := by
      rw [List.length_take]
      omega
    generalize points.take i = before at *
    generalize points.drop (i + 1) = after at *
    subst hsplit
    rw [List.erase_append_right _ hnot, List.erase_cons_head]
    rcases List.eq_nil_or_concat after with rfl | ⟨front, last, rfl⟩
    · simp [← hlen]
    · rw [List.concat_eq_append, show before ++ point :: (front ++ [last]) =
        (before ++ point :: front) ++ [last] by simp, List.getLastD_concat]
      have hset : ((before ++ point :: front) ++ [last]).set i last =
          (before ++ last :: front) ++ [last] := by
        simp [← hlen]
      rw [hset, List.dropLast_concat]
      exact List.Perm.append_left before (List.perm_append_singleton last front).symm

theorem count_dropPoint (point other : Point) (points : List Point) :
    (dropPoint point points).count other = points.count other - if other = point then 1 else 0 := by
  rw [(dropPoint_perm point points).count_eq, List.count_erase]
  grind

namespace UseIndex

theorem ext_index {v w : ValueId} : v.index = w.index ↔ v = w := by
  rcases v with ⟨_⟩
  rcases w with ⟨_⟩
  simp

theorem usersOf_eq_nil {u : UseIndex} {v : ValueId} (h : u.users.size ≤ v.index) :
    u.usersOf v = [] := by
  simp [usersOf, Array.getElem?_eq_none h]

@[simp] theorem size_addValue (u : UseIndex) : u.addValue.users.size = u.users.size + 1 := by
  simp [addValue]

@[simp] theorem size_clear (u : UseIndex) (v : ValueId) :
    (u.clear v).users.size = u.users.size := by
  simp [clear]

@[simp] theorem size_link (u : UseIndex) (point : Point) (operands : List ValueId) :
    (u.link point operands).users.size = u.users.size := by
  unfold link
  induction operands generalizing u with
  | nil => rfl
  | cons v rest ih =>
      rw [List.foldl_cons, ih]
      simp [add]

@[simp] theorem size_unlink (u : UseIndex) (point : Point) (operands : List ValueId) :
    (u.unlink point operands).users.size = u.users.size := by
  unfold unlink
  induction operands generalizing u with
  | nil => rfl
  | cons v rest ih =>
      rw [List.foldl_cons, ih]
      simp [drop]

theorem usersOf_modify (u : UseIndex) (v w : ValueId) (g : List Point → List Point) :
    (UseIndex.mk (u.users.modify v.index g)).usersOf w =
      if w = v ∧ w.index < u.users.size then g (u.usersOf w) else u.usersOf w := by
  simp only [usersOf, Array.getElem?_modify, ext_index]
  rcases Classical.em (w = v) with rfl | hne
  · rcases Nat.lt_or_ge w.index u.users.size with hlt | hge
    · simp [hlt]
    · simp [Nat.not_lt.mpr hge]
  · simp [hne, Ne.symm hne]

theorem count_add (u : UseIndex) (point other : Point) (v w : ValueId) :
    ((u.add point v).usersOf w).count other =
      (u.usersOf w).count other + if other = point ∧ w = v ∧ w.index < u.users.size then 1 else 0 := by
  rw [add, usersOf_modify]
  split
  · rw [List.count_append, List.count_singleton]
    grind
  · rename_i h
    simp [h]

theorem count_drop (u : UseIndex) (point other : Point) (v w : ValueId) :
    ((u.drop point v).usersOf w).count other =
      (u.usersOf w).count other - if other = point ∧ w = v then 1 else 0 := by
  rw [drop, usersOf_modify]
  split
  · rename_i h
    simp only [h, and_true, count_dropPoint]
  · rename_i h
    rcases Classical.em (w = v) with rfl | hne
    · have hge : u.users.size ≤ w.index := by
        simpa using h
      simp [usersOf_eq_nil hge]
    · simp [hne]

theorem count_link (u : UseIndex) (point other : Point) (operands : List ValueId) (v : ValueId) :
    ((u.link point operands).usersOf v).count other =
      (u.usersOf v).count other +
        if other = point ∧ v.index < u.users.size then operands.count v else 0 := by
  induction operands generalizing u with
  | nil => simp [link]
  | cons w rest ih =>
      change (((u.add point w).link point rest).usersOf v).count other = _
      have hsize : (u.add point w).users.size = u.users.size := by simp [add]
      rw [ih, count_add, hsize, List.count_cons]
      grind

theorem count_unlink (u : UseIndex) (point other : Point) (operands : List ValueId) (v : ValueId) :
    ((u.unlink point operands).usersOf v).count other =
      (u.usersOf v).count other - if other = point then operands.count v else 0 := by
  induction operands generalizing u with
  | nil => simp [unlink]
  | cons w rest ih =>
      change (((u.drop point w).unlink point rest).usersOf v).count other = _
      rw [ih, count_drop, List.count_cons]
      grind

theorem count_clear (u : UseIndex) (v w : ValueId) (point : Point) :
    ((u.clear v).usersOf w).count point = if w = v then 0 else (u.usersOf w).count point := by
  rw [usersOf_clear]
  split <;> simp

end UseIndex

end FlowGraph
