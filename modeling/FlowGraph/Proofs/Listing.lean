import Mathlib.Data.List.Count
import FlowGraph.Body.Verify
import FlowGraph.Proofs.Consistency.Basic

namespace FlowGraph

theorem count_flatMap_of_unique {α β : Type} [DecidableEq α] [BEq β] [LawfulBEq β]
    {F : α → List β}
    {x : β} {l : List α} {key : α} (hnodup : l.Nodup) (hkey : ∀ a, x ∈ F a → a = key) :
    (l.flatMap F).count x = if key ∈ l then (F key).count x else 0 := by
  induction l with
  | nil => rfl
  | cons a l ih =>
      obtain ⟨ha, hnodup⟩ := List.nodup_cons.mp hnodup
      rw [List.flatMap_cons, List.count_append, ih hnodup]
      rcases Classical.em (a = key) with rfl | hne
      · simp [ha]
      · have hzero : (F a).count x = 0 := List.count_eq_zero.mpr fun hx => hne (hkey a hx)
        simp [hzero, Ne.symm hne]

namespace Body

variable {f : Body} {b : BlockId} {data : Block}

theorem count_partners {κ α : Type} [DecidableEq κ] [DecidableEq α] (key : κ)
    (pairs : List (κ × α)) (x : α) : (partners key pairs).count x = pairs.count (key, x) := by
  induction pairs with
  | nil => rfl
  | cons pair pairs ih =>
      unfold partners at ih ⊢
      rw [List.filter_cons, List.count_cons]
      rcases pair with ⟨k, y⟩
      rcases Classical.em (k = key) with rfl | hne
      · simp [List.count_cons, ih]
      · simp [hne, ih]

theorem count_edgesFrom (f : Body) (b s : BlockId) (e : Edge) :
    (f.edgesFrom b).count (s, e) = if e.block = b ∧ f.target? e = some s then 1 else 0 := by
  have hzip : ∀ (start : Nat) (succs : List BlockId),
      ((succs.zipIdx start).map fun (x : BlockId × Nat) => (x.1, Edge.mk b x.2)).count (s, e) =
        if e.block = b ∧ start ≤ e.index ∧ succs[e.index - start]? = some s then 1 else 0 := by
    intro start succs
    induction succs generalizing start with
    | nil => simp
    | cons c rest ih =>
        rcases e with ⟨eb, ee⟩
        rw [List.zipIdx_cons, List.map_cons, List.count_cons, ih]
        rcases Nat.lt_trichotomy ee start with hlt | heq | hgt
        · simp [Nat.not_le.mpr hlt, Nat.not_le.mpr (Nat.lt_succ_of_lt hlt), Nat.ne_of_gt hlt]
        · subst heq
          simp only [Nat.not_succ_le_self, Nat.sub_self, List.getElem?_cons_zero]
          grind
        · obtain ⟨k, rfl⟩ : ∃ k, ee = start + 1 + k := ⟨ee - (start + 1), by omega⟩
          simp [show start + 1 + k - start = k + 1 by omega, show start ≤ start + 1 + k by omega,
            show start ≠ start + 1 + k by omega]
  unfold edgesFrom
  rcases hb : f.block? b with _ | data
  · rw [List.count_nil, if_neg]
    rintro ⟨rfl, he⟩
    rw [target?, terminator?, hb] at he
    cases he
  · refine (hzip 0 data.successors).trans ?_
    have hsucc : ∀ e : Edge, e.block = b → f.target? e = data.successors[e.index]? := by
      rintro e rfl
      rw [target?, terminator?_of hb, Block.successors]
      rcases data.terminator with _ | t <;> rfl
    rcases Classical.em (e.block = b) with heb | heb
    · simp [heb, hsucc e heb]
    · simp [heb]

theorem count_edgeTargets (hlayout : f.LayoutListed) (s : BlockId) (e : Edge) :
    f.edgeTargets.count (s, e) = if f.target? e = some s then 1 else 0 := by
  have hkey : ∀ c, (s, e) ∈ f.edgesFrom c → c = e.block := by
    intro c hc
    have hpos := List.count_pos_iff.mpr hc
    rw [count_edgesFrom] at hpos
    split at hpos
    · rename_i h
      exact h.1.symm
    · cases hpos
  rw [edgeTargets, count_flatMap_of_unique hlayout.nodup hkey, count_edgesFrom]
  rcases Classical.em (f.target? e = some s) with he | he
  · obtain ⟨t, ht, -⟩ := target?_eq_some.mp he
    obtain ⟨data, hdata, -⟩ := terminator?_eq_some.mp ht
    simp [he, (hlayout.mem_iff _).mpr (isLiveBlock_of hdata)]
  · simp [he]

/-- The incoming edges of a block are, up to order, the edges that lead to it. -/
theorem EdgesListed.perm_preds (h : f.EdgesListed) (hlayout : f.LayoutListed)
    (hb : f.block? b = some data) : data.preds.Perm (partners b f.edgeTargets) := by
  rw [List.perm_iff_count]
  intro e
  rw [h.count_preds (preds?_of hb), count_partners, count_edgeTargets hlayout]

theorem count_readsAt (f : Body) (v : ValueId) (point other : Point) :
    (f.readsAt other).count (v, point) =
      if other = point then (f.operandsAt? point).count v else 0 := by
  unfold readsAt
  rcases Classical.em (other = point) with rfl | hne
  · rw [if_pos rfl]
    have hinjective : Function.Injective fun v : ValueId => (v, other) :=
      fun _ _ hvw => congrArg Prod.fst hvw
    exact List.count_map_of_injective _ _ hinjective v
  · rw [if_neg hne, List.count_eq_zero]
    simp only [List.mem_map, Prod.mk.injEq, not_exists, not_and]
    rintro w - - heq
    exact hne heq

/-- The block that a point lies in, if it is there. -/
def place? (f : Body) : Point → Option BlockId
  | .instr i => f.holder? i
  | .terminator b => if f.isLiveBlock b then some b else none

theorem operandsAt?_of_place?_eq_none {point : Point} (h : f.place? point = none) :
    f.operandsAt? point = [] := by
  rcases point with i | c
  · rw [operandsAt?_instr, operation?]
    rw [place?, holder?, Option.map_eq_none_iff] at h
    rw [h]
    rfl
  · rw [operandsAt?_terminator, terminator?]
    rw [place?] at h
    split at h
    · cases h
    · rename_i hdead
      rw [isLiveBlock, Bool.not_eq_true, Option.isSome_eq_false_iff, Option.isNone_iff_eq_none]
        at hdead
      rw [hdead]
      rfl

theorem InstrsListed.live_place (h : f.InstrsListed) {point : Point}
    (hpoint : f.place? point = some b) : f.isLiveBlock b = true := by
  rcases point with i | c
  · exact h.live_holder hpoint
  · rw [place?] at hpoint
    split at hpoint
    · cases hpoint
      assumption
    · cases hpoint

theorem InstrsListed.mem_pointsIn (h : f.InstrsListed) {point : Point} :
    point ∈ f.pointsIn b ↔ f.place? point = some b := by
  unfold pointsIn
  rcases hb : f.block? b with _ | data
  · have hdead : ¬ f.isLiveBlock b = true := by simp [isLiveBlock, hb]
    exact iff_of_false List.not_mem_nil fun hpoint => hdead (h.live_place hpoint)
  · rcases point with i | c
    · simp only [List.mem_append, List.mem_map, Point.instr.injEq, exists_eq_right,
        List.mem_singleton, reduceCtorEq, or_false, place?]
      exact h.mem_instrs (instrs?_of hb)
    · simp only [List.mem_append, List.mem_map, reduceCtorEq, and_false, exists_false,
        List.mem_singleton, Point.terminator.injEq, false_or, place?]
      constructor
      · rintro rfl
        rw [if_pos (isLiveBlock_of hb)]
      · intro hc
        split at hc
        · exact Option.some.inj hc
        · cases hc

theorem InstrsListed.nodup_pointsIn (h : f.InstrsListed) (b : BlockId) : (f.pointsIn b).Nodup := by
  unfold pointsIn
  rcases hb : f.block? b with _ | data
  · exact List.nodup_nil
  · refine List.Nodup.append ?_ (List.nodup_singleton _) ?_
    · refine (h.nodup_instrs (instrs?_of hb)).map ?_
      intro i j hij
      exact Point.instr.inj hij
    · intro point hpoint hterm
      obtain ⟨i, -, rfl⟩ := List.mem_map.mp hpoint
      cases List.mem_singleton.mp hterm

theorem count_operandReads (hlayout : f.LayoutListed) (hinstrs : f.InstrsListed) (v : ValueId)
    (point : Point) : f.operandReads.count (v, point) = (f.operandsAt? point).count v := by
  have hin : ∀ b, ((f.pointsIn b).flatMap f.readsAt).count (v, point) =
      if f.place? point = some b then (f.operandsAt? point).count v else 0 := by
    intro b
    have hkey : ∀ other, (v, point) ∈ f.readsAt other → other = point := by
      intro other hother
      have hpos := List.count_pos_iff.mpr hother
      rw [count_readsAt] at hpos
      split at hpos
      · assumption
      · cases hpos
    rw [count_flatMap_of_unique (hinstrs.nodup_pointsIn b) hkey, count_readsAt, if_pos rfl]
    simp only [hinstrs.mem_pointsIn]
  rcases hplace : f.place? point with _ | place
  · rw [operandsAt?_of_place?_eq_none hplace, List.count_nil, operandReads, List.count_eq_zero]
    intro hmem
    obtain ⟨b, -, hb⟩ := List.mem_flatMap.mp hmem
    have hpos := List.count_pos_iff.mpr hb
    rw [hin, hplace] at hpos
    cases hpos
  · have hkey : ∀ b, (v, point) ∈ (f.pointsIn b).flatMap f.readsAt → b = place := by
      intro b hb
      have hpos := List.count_pos_iff.mpr hb
      rw [hin, hplace] at hpos
      split at hpos
      · rename_i heq
        exact (Option.some.inj heq).symm
      · cases hpos
    have hlive : place ∈ f.layout := (hlayout.mem_iff _).mpr (hinstrs.live_place hplace)
    rw [operandReads, count_flatMap_of_unique hlayout.nodup hkey, if_pos hlive, hin, if_pos hplace]

/-- The readers of a value are, up to order, the operand slots that hold it. -/
theorem UsesListed.perm_users (h : f.UsesListed) (hlayout : f.LayoutListed)
    (hinstrs : f.InstrsListed) (v : ValueId) : (f.usersOf v).Perm (partners v f.operandReads) := by
  rw [List.perm_iff_count]
  intro point
  rw [h.count_users, count_partners, count_operandReads hlayout hinstrs]

end Body

end FlowGraph
