import FlowGraph.Proofs.Dominance.Fresh
import FlowGraph.Proofs.Loop.Forest

namespace FlowGraph

/-- The loop as it is found, with nothing recorded but its parent. -/
def Loop.bare (l : Loop) : Loop := { l with children := [], depth := 1 }

namespace LoopForest

variable {a b forest raw : LoopForest} {id j p : LoopId} {l m : Loop} {h x : BlockId}
  {done rest : List LoopId}

/-- The forests have the same loops, apart from what is recorded beside the parents. -/
def SameBare (a b : LoopForest) : Prop := a.loops.map Loop.bare = b.loops.map Loop.bare

theorem sameBare_iff :
    SameBare a b ↔ ∀ id, (a.loop? id).map Loop.bare = (b.loop? id).map Loop.bare := by
  constructor
  · intro hsame id
    rw [loop?, loop?, ← Array.getElem?_map, ← Array.getElem?_map, hsame]
  · intro hsame
    refine Array.ext_getElem? fun n => ?_
    rw [Array.getElem?_map, Array.getElem?_map]
    exact hsame ⟨n⟩

namespace SameBare

variable (hsame : SameBare a b)
include hsame

theorem size : a.loops.size = b.loops.size := by
  simpa using congrArg Array.size hsame

theorem ids : a.ids = b.ids := by
  rw [LoopForest.ids, LoopForest.ids, hsame.size]

theorem exists_loop? (hl : a.loop? id = some l) :
    ∃ m, b.loop? id = some m ∧ m.header = l.header ∧ m.blocks = l.blocks := by
  have hbare := sameBare_iff.mp hsame id
  rw [hl, Option.map_some] at hbare
  obtain ⟨m, hm, hml⟩ := Option.map_eq_some_iff.mp hbare.symm
  rw [Loop.bare, Loop.bare, Loop.mk.injEq] at hml
  exact ⟨m, hm, hml.1, hml.2.1⟩

theorem header? (id : LoopId) : a.header? id = b.header? id := by
  have hbare := congrArg (Option.map Loop.header) (sameBare_iff.mp hsame id)
  rwa [Option.map_map, Option.map_map] at hbare

theorem parent? (id : LoopId) : a.parent? id = b.parent? id := by
  have hbare := congrArg (Option.bind · Loop.parent) (sameBare_iff.mp hsame id)
  simp only [Option.bind_map] at hbare
  exact hbare

theorem enclosing (id : LoopId) : a.enclosing id = b.enclosing id :=
  enclosing_congr hsame.size hsame.parent? id

end SameBare

/-- The loops `done` of a forest have been linked, and no others. -/
structure LinkedUpTo (raw : LoopForest) (done : List LoopId) (forest : LoopForest) : Prop where
  bare : SameBare forest raw
  innermost : forest.innermost = raw.innermost
  topLevel : forest.topLevel = done.filter fun id => raw.parent? id = none
  children : ∀ {id l}, forest.loop? id = some l →
    l.children = done.filter fun i => raw.parent? i = some id
  depth : ∀ {id l}, forest.loop? id = some l →
    l.depth = if id ∈ done then (raw.enclosing id).length else 1

theorem filter_append_singleton_of_neg {q : LoopId → Bool} (hq : q id = false) :
    (done ++ [id]).filter q = done.filter q := by
  rw [List.filter_append, List.filter_singleton, hq]
  exact List.append_nil _

theorem filter_append_singleton_of_pos {q : LoopId → Bool} (hq : q id = true) :
    (done ++ [id]).filter q = done.filter q ++ [id] := by
  rw [List.filter_append, List.filter_singleton, hq]
  rfl

theorem LinkedUpTo.nil (htop : raw.topLevel = [])
    (hbare : ∀ {id l}, raw.loop? id = some l → l.bare = l) : LinkedUpTo raw [] raw := by
  refine ⟨rfl, rfl, htop, ?_, ?_⟩
  · intro id l hl
    rw [← hbare hl]
    rfl
  · intro id l hl
    rw [← hbare hl]
    rfl

theorem LinkedUpTo.addTop (hl : LinkedUpTo raw done forest) (hraw : raw.Orderly)
    (hid : raw.header? id = some h) (hnew : id ∉ done) (hp : raw.parent? id = none) :
    LinkedUpTo raw (done ++ [id]) { forest with topLevel := forest.topLevel ++ [id] } := by
  refine ⟨hl.bare, hl.innermost, ?_, ?_, ?_⟩
  · rw [filter_append_singleton_of_pos (by simpa using hp)]
    exact congrArg (· ++ [id]) hl.topLevel
  · intro j m hm
    rw [filter_append_singleton_of_neg (by simp [hp])]
    exact hl.children hm
  · intro j m hm
    rw [hl.depth hm]
    rcases Classical.em (j = id) with rfl | hne
    · simp [hnew, hraw.enclosing_of_top hid hp]
    · simp [hne]

theorem LinkedUpTo.addChild (hl : LinkedUpTo raw done forest) (hraw : raw.Orderly)
    (hp : raw.parent? id = some p) (hdone : p ∈ done) (hloop : forest.loop? p = some l) :
    LinkedUpTo raw (done ++ [id])
      ((forest.modifyLoop id fun m => { m with depth := l.depth + 1 }).modifyLoop p fun m =>
        { m with children := m.children ++ [id] }) := by
  have hne : p ≠ id := by
    rintro rfl
    exact Nat.lt_irrefl _ (hraw.earlier hp)
  have hnext : ∀ j, ((forest.modifyLoop id fun m => { m with depth := l.depth + 1 }).modifyLoop
      p fun m => { m with children := m.children ++ [id] }).loop? j =
      (forest.loop? j).map fun m => { m with
        children := if j = p then m.children ++ [id] else m.children
        depth := if j = id then l.depth + 1 else m.depth } := by
    intro j
    rw [loop?_modifyLoop, loop?_modifyLoop]
    rcases Classical.em (j = p) with rfl | hjp
    · simp [hne]
    · rcases Classical.em (j = id) with rfl | hjid
      · simp [hjp]
      · simp [hjp, hjid]
  refine ⟨?_, hl.innermost, ?_, ?_, ?_⟩
  · rw [sameBare_iff]
    intro j
    rw [hnext, Option.map_map, ← sameBare_iff.mp hl.bare j]
    rfl
  · rw [filter_append_singleton_of_neg (by simp [hp])]
    exact hl.topLevel
  · intro j m hm
    obtain ⟨old, hold, rfl⟩ := Option.map_eq_some_iff.mp ((hnext j).symm.trans hm)
    have hchildren := hl.children hold
    rcases Classical.em (j = p) with rfl | hjp
    · rw [filter_append_singleton_of_pos (by simpa using hp), ← hchildren]
      exact if_pos rfl
    · rw [filter_append_singleton_of_neg (by simp [hp, Ne.symm hjp]), ← hchildren]
      exact if_neg hjp
  · intro j m hm
    obtain ⟨old, hold, rfl⟩ := Option.map_eq_some_iff.mp ((hnext j).symm.trans hm)
    rcases Classical.em (j = id) with rfl | hjid
    · simp [hl.depth hloop, hdone, hraw.enclosing_of_parent? hp]
    · simp [hjid, hl.depth hold]

/-- The next loop is linked if the loop around it has been. -/
theorem LinkedUpTo.exists_link (hl : LinkedUpTo raw done forest) (hraw : raw.Orderly)
    (hid : raw.header? id = some h) (hnew : id ∉ done)
    (hdone : ∀ p, raw.parent? id = some p → p ∈ done) :
    ∃ next, forest.link id = .ok next ∧ LinkedUpTo raw (done ++ [id]) next := by
  obtain ⟨l, hloop, -⟩ := header?_eq_some.mp ((hl.bare.header? id).trans hid)
  have hparent : l.parent = raw.parent? id := (parent?_of hloop).symm.trans (hl.bare.parent? id)
  rw [link, loop_eq_ok.mpr hloop, ok_bind, hparent]
  rcases hp : raw.parent? id with _ | p
  · exact ⟨_, rfl, hl.addTop hraw hid hnew hp⟩
  · obtain ⟨q, hq⟩ := hraw.exists_header?_parent hp
    obtain ⟨outer, houter, -⟩ := header?_eq_some.mp ((hl.bare.header? p).trans hq)
    simp only [loop_eq_ok.mpr houter, ok_bind]
    exact ⟨_, rfl, hl.addChild hraw hp (hdone p hp) houter⟩

theorem mem_of_ids_split (hsplit : forest.ids = done ++ id :: rest) (hlt : p.index < id.index) :
    p ∈ done := by
  have hsorted : forest.ids.Pairwise fun i j => i.index < j.index :=
    List.pairwise_map.mpr List.pairwise_lt_range
  have hid : id ∈ forest.ids := hsplit ▸ List.mem_append_right _ List.mem_cons_self
  have hp : p ∈ forest.ids := by
    obtain ⟨k, hk⟩ := mem_ids.mp hid
    exact List.mem_map.mpr
      ⟨p.index, List.mem_range.mpr (Nat.lt_trans hlt (lt_size_of_header? hk)), rfl⟩
  rw [hsplit] at hp hsorted
  rcases List.mem_append.mp hp with hp | hp
  · exact hp
  · rcases List.mem_cons.mp hp with rfl | hp
    · exact absurd hlt (Nat.lt_irrefl _)
    · have hafter := List.rel_of_pairwise_cons (List.pairwise_append.mp hsorted).2.1 hp
      exact absurd hlt (Nat.lt_asymm hafter)

/-- All loops are linked at the end of the pass: a loop is preceded by the loop around it. -/
theorem Orderly.exists_linked (hraw : raw.Orderly) (htop : raw.topLevel = [])
    (hbare : ∀ {id l}, raw.loop? id = some l → l.bare = l) :
    ∃ forest, raw.ids.foldlM link raw = .ok forest ∧ LinkedUpTo raw raw.ids forest := by
  refine exists_foldlM (P := fun done forest => LinkedUpTo raw done forest) (.nil htop hbare) ?_
  intro done id rest forest hsplit hlinked
  obtain ⟨h, hid⟩ := mem_ids.mp (hsplit ▸ List.mem_append_right done List.mem_cons_self)
  exact hlinked.exists_link hraw hid (notMem_of_nodup_append (hsplit ▸ nodup_ids raw))
    fun p hp => mem_of_ids_split hsplit (hraw.earlier hp)

theorem LinkedUpTo.wired (hl : LinkedUpTo raw raw.ids forest) : forest.Wired := by
  refine ⟨?_, ?_, ?_⟩
  · rw [hl.topLevel, hl.bare.ids]
    simp only [hl.bare.parent?]
  · intro id l hloop
    rw [hl.children hloop, hl.bare.ids]
    simp only [hl.bare.parent?]
  · intro id l hloop
    have hid : id ∈ raw.ids := by
      rw [← hl.bare.ids, mem_ids]
      exact ⟨l.header, header?_of hloop⟩
    rw [hl.depth hloop, if_pos hid, hl.bare.enclosing]

/-- The record has for each block the deepest of the loops that were offered for it. -/
structure Deepest (forest : LoopForest) (offers : List (LoopId × BlockId)) : Prop where
  known : ∀ {id x}, (id, x) ∈ offers → ∃ l, forest.loop? id = some l
  recorded : ∀ {x id}, forest.innermost? x = some id →
    (id, x) ∈ offers ∧ ∀ j, (j, x) ∈ offers → forest.depth j ≤ forest.depth id
  missing : ∀ {x}, forest.innermost? x = none → ∀ j, (j, x) ∉ offers

theorem offerInnermost_cases {b : BlockId} (id : LoopId) (depth : Nat)
    (hknown : ∀ other, forest.innermost? b = some other → ∃ l, forest.loop? other = some l) :
    ∃ record, offerInnermost id depth forest b = .ok (forest.withRecord record) ∧
      ((∀ x, record.lookup x = if x = b then some id else forest.innermost? x) ∧
          (∀ other, forest.innermost? b = some other → forest.depth other < depth) ∨
        record = forest.innermost ∧
          ∃ other, forest.innermost? b = some other ∧ depth ≤ forest.depth other) := by
  have hput := lookup_putInnermost forest.innermost b id
  unfold offerInnermost
  rcases hb : forest.innermost? b with _ | other
  · exact ⟨_, rfl, .inl ⟨hput, by simp⟩⟩
  · obtain ⟨l, hl⟩ := hknown other hb
    simp only [loop_eq_ok.mpr hl, ok_bind, ← depth_of hl]
    split
    · rename_i hlt
      exact ⟨_, rfl, .inl ⟨hput, fun other' hother => Option.some.inj hother ▸ hlt⟩⟩
    · rename_i hge
      exact ⟨_, rfl, .inr ⟨rfl, other, rfl, Nat.le_of_not_lt hge⟩⟩

namespace Deepest

variable {offers : List (LoopId × BlockId)}

theorem exists_offerInnermost (hd : forest.Deepest offers) (hl : forest.loop? id = some l)
    (b : BlockId) : ∃ record, offerInnermost id l.depth forest b = .ok (forest.withRecord record) ∧
      (forest.withRecord record).Deepest (offers ++ [(id, b)]) := by
  have hmem : ∀ {j x}, (j, x) ∈ offers ++ [(id, b)] ↔ (j, x) ∈ offers ∨ j = id ∧ x = b := by
    intro j x
    simp
  have hall : ∀ {j x}, (j, x) ∈ offers ++ [(id, b)] → ∃ l, forest.loop? j = some l := by
    intro j x hj
    rcases hmem.mp hj with hj | ⟨rfl, -⟩
    · exact hd.known hj
    · exact ⟨l, hl⟩
  obtain ⟨record, hrun, hcases⟩ := offerInnermost_cases id l.depth
    fun other hother => hd.known (hd.recorded hother).1
  rw [← depth_of hl] at hcases
  refine ⟨record, hrun, hall, ?_, ?_⟩
  · intro x i hx
    rw [innermost?_withRecord] at hx
    simp only [hmem]
    rcases hcases with ⟨hrecord, hlt⟩ | ⟨rfl, other, hother, hge⟩
    · -- The offer is deeper than what was recorded for `b`, so than all that was offered before.
      rw [hrecord] at hx
      split at hx
      · rename_i hxb
        cases hx
        subst hxb
        refine ⟨.inr ⟨rfl, rfl⟩, fun j hj => ?_⟩
        rcases hj with hj | ⟨rfl, -⟩
        · rcases hb : forest.innermost? x with _ | other
          · exact absurd hj (hd.missing hb j)
          · exact Nat.le_of_lt (Nat.lt_of_le_of_lt ((hd.recorded hb).2 j hj) (hlt other hb))
        · exact Nat.le_refl _
      · rename_i hxb
        refine ⟨.inl (hd.recorded hx).1, fun j hj => ?_⟩
        rcases hj with hj | ⟨-, hj⟩
        · exact (hd.recorded hx).2 j hj
        · exact absurd hj hxb
    · refine ⟨.inl (hd.recorded hx).1, fun j hj => ?_⟩
      rcases hj with hj | ⟨rfl, rfl⟩
      · exact (hd.recorded hx).2 j hj
      · cases hother.symm.trans hx
        exact hge
  · intro x hx j
    rw [innermost?_withRecord] at hx
    rw [hmem]
    rcases hcases with ⟨hrecord, -⟩ | ⟨rfl, other, hother, -⟩
    · rw [hrecord] at hx
      split at hx
      · cases hx
      · rename_i hxb
        rintro (hj | ⟨-, hj⟩)
        · exact hd.missing hx j hj
        · exact hxb hj
    · rintro (hj | ⟨-, rfl⟩)
      · exact hd.missing hx j hj
      · cases hother.symm.trans hx

theorem exists_offer (hd : forest.Deepest offers) (hl : forest.loop? id = some l) :
    ∃ record, forest.offer id = .ok (forest.withRecord record) ∧
      (forest.withRecord record).Deepest (offers ++ l.blocks.map (Prod.mk id)) := by
  have hfold : ∃ last, l.blocks.foldlM (offerInnermost id l.depth) forest = .ok last ∧
      ∃ record, last = forest.withRecord record ∧
        last.Deepest (offers ++ l.blocks.map (Prod.mk id)) := by
    refine exists_foldlM (P := fun done state => ∃ record, state = forest.withRecord record ∧
      state.Deepest (offers ++ done.map (Prod.mk id))) ⟨forest.innermost, rfl, by simpa using hd⟩ ?_
    rintro done b rest _ - ⟨record, rfl, hdeepest⟩
    have hsame : (forest.withRecord record).loop? id = some l := hl
    obtain ⟨record', hrun, hnext⟩ := hdeepest.exists_offerInnermost hsame b
    exact ⟨_, hrun, record', rfl, by simpa using hnext⟩
  obtain ⟨_, hrun, record, rfl, hdeepest⟩ := hfold
  refine ⟨record, ?_, hdeepest⟩
  rw [LoopForest.offer, loop_eq_ok.mpr hl, ok_bind, hrun]

end Deepest

/-- The given loops, each offered for its blocks. -/
def offersOf (forest : LoopForest) (ids : List LoopId) : List (LoopId × BlockId) :=
  ids.flatMap fun id => (((forest.loop? id).map Loop.blocks).getD []).map (Prod.mk id)

theorem mem_offersOf_ids :
    (id, x) ∈ forest.offersOf forest.ids ↔ ∃ l, forest.loop? id = some l ∧ x ∈ l.blocks := by
  simp only [offersOf, ids, List.mem_flatMap, List.mem_map, List.mem_range, Prod.mk.injEq]
  constructor
  · rintro ⟨j, -, y, hy, rfl, rfl⟩
    rcases hl : forest.loop? j with _ | l
    · simp [hl] at hy
    · exact ⟨l, rfl, by simpa [hl] using hy⟩
  · rintro ⟨l, hl, hx⟩
    exact ⟨id, ⟨id.index, (Array.getElem?_eq_some_iff.mp hl).1, rfl⟩, x, by simpa [hl] using hx, rfl,
      rfl⟩

/-- All loops are offered to all their blocks at the end of the pass. -/
theorem exists_offered (hinnermost : forest.innermost = []) :
    ∃ record, forest.ids.foldlM offer forest = .ok (forest.withRecord record) ∧
      (forest.withRecord record).Deepest (forest.offersOf forest.ids) := by
  have hfold : ∃ last, forest.ids.foldlM offer forest = .ok last ∧
      ∃ record, last = forest.withRecord record ∧ last.Deepest (forest.offersOf forest.ids) := by
    refine exists_foldlM (P := fun done state => ∃ record, state = forest.withRecord record ∧
      state.Deepest (forest.offersOf done)) ⟨forest.innermost, rfl, ?_⟩ ?_
    · refine ⟨fun hoffer => absurd hoffer List.not_mem_nil, ?_, fun _ _ => List.not_mem_nil⟩
      intro x id hx
      rw [innermost?, hinnermost] at hx
      cases hx
    · rintro done id rest _ hsplit ⟨record, rfl, hdeepest⟩
      obtain ⟨h, hid⟩ := mem_ids.mp (hsplit ▸ List.mem_append_right done List.mem_cons_self)
      obtain ⟨l, hl, -⟩ := header?_eq_some.mp hid
      have hsame : (forest.withRecord record).loop? id = some l := hl
      obtain ⟨record', hrun, hnext⟩ := hdeepest.exists_offer hsame
      refine ⟨_, hrun, record', rfl, ?_⟩
      simpa [offersOf, hl] using hnext
  obtain ⟨_, hrun, record, rfl, hdeepest⟩ := hfold
  exact ⟨record, hrun, hdeepest⟩

/-- A forest can be made of loops that are preceded by the loops around them. -/
theorem Orderly.exists_ofLoops {loops : Array Loop} (hraw : ({ loops } : LoopForest).Orderly)
    (hbare : ∀ {id l}, ({ loops } : LoopForest).loop? id = some l → l.bare = l) :
    ∃ forest, ofLoops loops = .ok forest ∧ SameBare forest { loops } ∧ forest.Wired ∧
      forest.Deepest (forest.offersOf forest.ids) := by
  obtain ⟨linked, hlink, hlinked⟩ := hraw.exists_linked rfl hbare
  obtain ⟨record, hoffer, hdeepest⟩ := exists_offered hlinked.innermost
  refine ⟨linked.withRecord record, ?_, hlinked.bare,
    hlinked.wired.congr rfl (fun _ => rfl) rfl fun hl => ⟨_, hl, rfl, rfl⟩, hdeepest⟩
  rw [ofLoops]
  simp only [hlink, ok_bind]
  exact hoffer

end LoopForest

end FlowGraph
