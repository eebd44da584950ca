import Mathlib.Data.List.Perm.Subperm
import FlowGraph.Proofs.Loop.Link

/-!
The loops of a consistent body are found without a fault, and form a forest that represents its control
flow. Headers are taken in an order in which dominators come first, so the loops around a header are
known when it is its turn; the smallest of them is the innermost.
-/

namespace FlowGraph

theorem foldl_smallest (candidates : List (Nat × LoopId)) (first : Nat × LoopId) :
    ∃ result, candidates.foldl (fun (best : Option (Nat × LoopId)) candidate =>
        match best with
        | some smallest => if candidate.1 < smallest.1 then some candidate else some smallest
        | none => some candidate) (some first) = some result ∧
      result ∈ first :: candidates ∧ ∀ c ∈ first :: candidates, result.1 ≤ c.1 := by
  induction candidates generalizing first with
  | nil => exact ⟨first, rfl, List.mem_cons_self, by simp⟩
  | cons candidate rest ih =>
      simp only [List.foldl_cons]
      split
      · rename_i hlt
        obtain ⟨result, hrun, hmem, hall⟩ := ih candidate
        refine ⟨result, hrun, List.mem_cons_of_mem _ hmem, List.forall_mem_cons.mpr ⟨?_, hall⟩⟩
        exact Nat.le_trans (hall candidate List.mem_cons_self) (Nat.le_of_lt hlt)
      · rename_i hge
        obtain ⟨result, hrun, hmem, hall⟩ := ih first
        rw [List.forall_mem_cons] at hall
        refine ⟨result, hrun, ?_, List.forall_mem_cons.mpr ⟨hall.1, List.forall_mem_cons.mpr
          ⟨Nat.le_trans hall.1 (Nat.le_of_not_lt hge), hall.2⟩⟩⟩
        rcases List.mem_cons.mp hmem with rfl | hmem
        · exact List.mem_cons_self
        · exact List.mem_cons_of_mem _ (List.mem_cons_of_mem _ hmem)

theorem smallestAround_cases (loops : Array Loop) (b : BlockId) :
    (smallestAround loops b = none ∧ ∀ (i : Nat) l, loops[i]? = some l → b ∉ l.blocks) ∨
      ∃ (n : Nat) (l : Loop), smallestAround loops b = some ⟨n⟩ ∧ loops[n]? = some l ∧ b ∈ l.blocks ∧
        ∀ (i : Nat) m, loops[i]? = some m → b ∈ m.blocks → l.blocks.length ≤ m.blocks.length := by
  unfold smallestAround
  simp only
  generalize hentries : (List.range loops.size).filterMap _ = around
  have haround : ∀ size n, (size, (⟨n⟩ : LoopId)) ∈ around ↔
      ∃ l, loops[n]? = some l ∧ b ∈ l.blocks ∧ l.blocks.length = size := by
    intro size n
    rw [← hentries, List.mem_filterMap]
    simp only [List.mem_range]
    constructor
    · rintro ⟨index, hindex, hentry⟩
      split at hentry
      · rename_i l hl
        split at hentry
        · rename_i hb
          cases hentry
          exact ⟨l, hl, of_decide_eq_true hb, rfl⟩
        · cases hentry
      · cases hentry
    · rintro ⟨l, hl, hb, rfl⟩
      refine ⟨n, (Array.getElem?_eq_some_iff.mp hl).1, ?_⟩
      simp only [hl, Loop.contains, hb, decide_true, if_true]
  rcases around with _ | ⟨first, rest⟩
  · refine .inl ⟨rfl, fun i l hl hb => ?_⟩
    exact absurd ((haround l.blocks.length i).mpr ⟨l, hl, hb, rfl⟩) List.not_mem_nil
  · right
    obtain ⟨⟨size, ⟨n⟩⟩, hrun, hmem, hall⟩ := foldl_smallest rest first
    obtain ⟨l, hl, hb, rfl⟩ := (haround size n).mp hmem
    refine ⟨n, l, ?_, hl, hb, fun i m hm hbm => ?_⟩
    · rw [List.foldl_cons]
      exact congrArg (Option.map Prod.snd) hrun
    · exact hall (m.blocks.length, ⟨i⟩) ((haround _ i).mpr ⟨m, hm, hbm, rfl⟩)

theorem length_lt_of_subset {l m : List BlockId} {x : BlockId} (hl : l.Nodup)
    (hsub : ∀ y ∈ l, y ∈ m) (hx : x ∈ m) (hnot : x ∉ l) : l.length < m.length := by
  have hcons : (x :: l).Nodup := List.nodup_cons.mpr ⟨hnot, hl⟩
  exact (hcons.subperm (List.forall_mem_cons.mpr ⟨hx, hsub⟩)).length_le

namespace LoopForest

variable {forest : LoopForest} {R : BlockId → BlockId → Prop} {r h : BlockId} {done : List BlockId}

def withLoop (forest : LoopForest) (l : Loop) : LoopForest :=
  { forest with loops := forest.loops.push l }

theorem loop?_withLoop (forest : LoopForest) (l : Loop) (id : LoopId) :
    (forest.withLoop l).loop? id =
      if id.index = forest.loops.size then some l else forest.loop? id :=
  Array.getElem?_push

theorem loop?_withLoop_cases {l m : Loop} {id : LoopId} (hm : (forest.withLoop l).loop? id = some m) :
    id = ⟨forest.loops.size⟩ ∧ m = l ∨ forest.loop? id = some m := by
  rw [loop?_withLoop] at hm
  split at hm
  · rename_i hid
    cases hm
    cases id
    exact .inl ⟨congrArg LoopId.mk hid, rfl⟩
  · exact .inr hm

theorem header?_withLoop_cases {l : Loop} {id : LoopId} {k : BlockId}
    (hk : (forest.withLoop l).header? id = some k) :
    id = ⟨forest.loops.size⟩ ∧ l.header = k ∨ forest.header? id = some k := by
  obtain ⟨m, hm, rfl⟩ := header?_eq_some.mp hk
  rcases loop?_withLoop_cases hm with ⟨hid, rfl⟩ | hm
  · exact .inl ⟨hid, rfl⟩
  · exact .inr (header?_of hm)

theorem header?_withLoop_of {id : LoopId} {k : BlockId} (hk : forest.header? id = some k) (l : Loop) :
    (forest.withLoop l).header? id = some k := by
  rw [header?, loop?_withLoop, if_neg (Nat.ne_of_lt (lt_size_of_header? hk))]
  exact hk

/-- The forest has the loops of the headers among the blocks `done`. -/
structure Gathers (forest : LoopForest) (R : BlockId → BlockId → Prop) (r : BlockId)
    (done : List BlockId) : Prop where
  heads : ∀ {id h}, forest.header? id = some h → InLoop R r h h ∧ h ∈ done
  found : ∀ {h}, InLoop R r h h → h ∈ done → ∃ id, forest.header? id = some h
  distinct : ∀ {i j h}, forest.header? i = some h → forest.header? j = some h → i = j
  bare : ∀ {id l}, forest.loop? id = some l → l.bare = l
  nodup_blocks : ∀ {id l}, forest.loop? id = some l → l.blocks.Nodup
  mem_blocks : ∀ {id l}, forest.loop? id = some l → ∀ x, x ∈ l.blocks ↔ InLoop R r l.header x
  earlier : ∀ {id p}, forest.parent? id = some p → p.index < id.index
  parent : ∀ {id p h}, forest.header? id = some h → forest.parent? id = some p →
    ∃ q, forest.header? p = some q ∧ InnermostAround R r q h
  top : ∀ {id h}, forest.header? id = some h → forest.parent? id = none →
    ∀ k, InLoop R r k h → k = h

namespace Gathers

theorem empty : ({ loops := #[] } : LoopForest).Gathers R r [] := by
  have hheader : ∀ id, ({ loops := #[] } : LoopForest).header? id = none := fun id => by
    simp [header?, loop?]
  have hloop : ∀ id, ({ loops := #[] } : LoopForest).loop? id = none := fun id => by simp [loop?]
  have hparent : ∀ id, ({ loops := #[] } : LoopForest).parent? id = none := fun id => by
    simp [parent?, loop?]
  constructor <;> simp [hheader, hloop, hparent]

theorem skip (hg : forest.Gathers R r done) (hh : ¬ InLoop R r h h) :
    forest.Gathers R r (done ++ [h]) :=
  { hg with
    heads := fun hid => ⟨(hg.heads hid).1, List.mem_append_left _ (hg.heads hid).2⟩
    found := by
      intro k hk hmem
      rcases List.mem_append.mp hmem with hmem | hmem
      · exact hg.found hk hmem
      · rw [List.mem_singleton] at hmem
        exact absurd (hmem ▸ hk) hh }

/-- The smallest of the loops found so far that contain a new header is the innermost around it. -/
theorem innermostAround (hg : forest.Gathers R r done) (hh : InLoop R r h h) (hnew : h ∉ done)
    (hdone : ∀ k, Dominates R r k h → k ≠ h → k ∈ done) :
    (smallestAround forest.loops h = none ∧ ∀ k, InLoop R r k h → k = h) ∨
      ∃ p q, smallestAround forest.loops h = some p ∧ p.index < forest.loops.size ∧
        forest.header? p = some q ∧ InnermostAround R r q h := by
  have hfound : ∀ k, InLoop R r k h → k ≠ h →
      ∃ id l, forest.loop? id = some l ∧ l.header = k ∧ h ∈ l.blocks := by
    intro k hk hne
    obtain ⟨id, hid⟩ := hg.found hk.header (hdone k hk.dominates hne)
    obtain ⟨l, hl, rfl⟩ := header?_eq_some.mp hid
    exact ⟨id, l, hl, rfl, (hg.mem_blocks hl h).mpr hk⟩
  rcases smallestAround_cases forest.loops h with ⟨hnone, hout⟩ | ⟨n, l, hsome, hl, hin, hleast⟩
  · left
    refine ⟨hnone, fun k hk => ?_⟩
    by_contra hne
    obtain ⟨id, m, hm, -, hmem⟩ := hfound k hk hne
    exact hout id.index m hm hmem
  · right
    have hloop : forest.loop? ⟨n⟩ = some l := hl
    have hheader := header?_of hloop
    refine ⟨⟨n⟩, l.header, hsome, lt_size_of_header? hheader, hheader, ?_,
      (hg.mem_blocks hloop h).mp hin, fun k hk hne => ?_⟩
    · rintro rfl
      exact hnew (hg.heads hheader).2
    · obtain ⟨id, m, hm, rfl, hmem⟩ := hfound k hk hne
      rcases hk.total ((hg.mem_blocks hloop h).mp hin) with hkl | hlk
      · exact hkl
      · -- The loop of `k` would lie in the smallest one, and be smaller.
        by_contra hnot
        have hlt : m.blocks.length < l.blocks.length := by
          refine @length_lt_of_subset _ _ l.header (hg.nodup_blocks hm) (fun y hy => ?_) ?_ ?_
          · exact (hg.mem_blocks hloop y).mpr (hlk.trans ((hg.mem_blocks hm y).mp hy))
          · exact (hg.mem_blocks hloop _).mpr (hg.heads hheader).1
          · exact fun hy => hnot ((hg.mem_blocks hm _).mp hy)
        exact Nat.not_lt_of_le (hleast id.index m hm hmem) hlt

theorem push (hg : forest.Gathers R r done) (hh : InLoop R r h h) (hnew : h ∉ done)
    (hdone : ∀ k, Dominates R r k h → k ≠ h → k ∈ done) {blocks : List BlockId}
    (hnodup : blocks.Nodup) (hblocks : ∀ x, x ∈ blocks ↔ InLoop R r h x) :
    (forest.withLoop { header := h, blocks, parent := smallestAround forest.loops h }).Gathers R r
      (done ++ [h]) := by
  have haround := hg.innermostAround hh hnew hdone
  generalize smallestAround forest.loops h = parent at haround ⊢
  exact {
    heads := by
      intro id k hk
      rcases header?_withLoop_cases hk with ⟨-, rfl⟩ | hk
      · exact ⟨hh, List.mem_append_right _ List.mem_cons_self⟩
      · exact ⟨(hg.heads hk).1, List.mem_append_left _ (hg.heads hk).2⟩
    found := by
      intro k hk hmem
      rcases List.mem_append.mp hmem with hmem | hmem
      · obtain ⟨id, hid⟩ := hg.found hk hmem
        exact ⟨id, header?_withLoop_of hid _⟩
      · rw [List.mem_singleton] at hmem
        exact ⟨⟨forest.loops.size⟩, by rw [header?, loop?_withLoop, if_pos rfl, hmem]; rfl⟩
    distinct := by
      intro i j k hi hj
      rcases header?_withLoop_cases hi with ⟨rfl, rfl⟩ | hi
      · rcases header?_withLoop_cases hj with ⟨rfl, -⟩ | hj
        · rfl
        · exact absurd (hg.heads hj).2 hnew
      · rcases header?_withLoop_cases hj with ⟨-, rfl⟩ | hj
        · exact absurd (hg.heads hi).2 hnew
        · exact hg.distinct hi hj
    bare := by
      intro id l hl
      rcases loop?_withLoop_cases hl with ⟨-, rfl⟩ | hl
      · rfl
      · exact hg.bare hl
    nodup_blocks := by
      intro id l hl
      rcases loop?_withLoop_cases hl with ⟨-, rfl⟩ | hl
      · exact hnodup
      · exact hg.nodup_blocks hl
    mem_blocks := by
      intro id l hl
      rcases loop?_withLoop_cases hl with ⟨-, rfl⟩ | hl
      · exact hblocks
      · exact hg.mem_blocks hl
    earlier := by
      intro id p hp
      obtain ⟨l, hl, hp⟩ := Option.bind_eq_some_iff.mp hp
      rcases loop?_withLoop_cases hl with ⟨rfl, rfl⟩ | hl
      · rcases haround with ⟨rfl, -⟩ | ⟨q, -, rfl, hlt, -⟩
        · cases hp
        · cases hp
          exact hlt
      · exact hg.earlier (parent?_of hl ▸ hp)
    parent := by
      intro id p k hk hp
      obtain ⟨l, hl, rfl⟩ := header?_eq_some.mp hk
      rw [parent?_of hl] at hp
      rcases loop?_withLoop_cases hl with ⟨rfl, rfl⟩ | hl
      · rcases haround with ⟨rfl, -⟩ | ⟨p', q, rfl, -, hq, hin⟩
        · cases hp
        · cases hp
          exact ⟨q, header?_withLoop_of hq _, hin⟩
      · obtain ⟨q, hq, hin⟩ := hg.parent (header?_of hl) ((parent?_of hl).trans hp)
        exact ⟨q, header?_withLoop_of hq _, hin⟩
    top := by
      intro id k hk hp
      obtain ⟨l, hl, rfl⟩ := header?_eq_some.mp hk
      rw [parent?_of hl] at hp
      rcases loop?_withLoop_cases hl with ⟨rfl, rfl⟩ | hl
      · rcases haround with ⟨-, htop⟩ | ⟨p', q, rfl, -⟩
        · exact htop
        · cases hp
      · exact hg.top (header?_of hl) ((parent?_of hl).trans hp) }

end Gathers

theorem Gathers.lists (hg : forest.Gathers R r done) (hall : ∀ h, Reaches R r h → h ∈ done) :
    forest.Lists R r :=
  { hg with
    heads := fun hid => (hg.heads hid).1
    found := fun hh => hg.found hh (hall _ hh.reaches) }

theorem Lists.congr {a b : LoopForest} (hb : b.Lists R r) (hsame : SameBare a b) : a.Lists R r where
  heads hh := hb.heads ((hsame.header? _).symm.trans hh)
  found hh := by
    obtain ⟨id, hid⟩ := hb.found hh
    exact ⟨id, (hsame.header? id).trans hid⟩
  distinct hi hj := hb.distinct ((hsame.header? _).symm.trans hi) ((hsame.header? _).symm.trans hj)
  mem_blocks hl := by
    obtain ⟨m, hm, hheader, hblocks⟩ := hsame.exists_loop? hl
    rw [← hheader, ← hblocks]
    exact hb.mem_blocks hm
  earlier hp := hb.earlier ((hsame.parent? _).symm.trans hp)
  parent hh hp := by
    obtain ⟨q, hq, haround⟩ :=
      hb.parent ((hsame.header? _).symm.trans hh) ((hsame.parent? _).symm.trans hp)
    exact ⟨q, (hsame.header? _).trans hq, haround⟩
  top hh hp := hb.top ((hsame.header? _).symm.trans hh) ((hsame.parent? _).symm.trans hp)

theorem Lists.represents (hf : forest.Lists R r) (hwired : forest.Wired)
    (hdeepest : forest.Deepest (forest.offersOf forest.ids)) : forest.Represents R r := by
  have hfound : ∀ {k x}, InLoop R r k x →
      ∃ id, forest.header? id = some k ∧ (id, x) ∈ forest.offersOf forest.ids := by
    intro k x hk
    obtain ⟨id, hid⟩ := hf.found hk.header
    obtain ⟨l, hl, rfl⟩ := header?_eq_some.mp hid
    exact ⟨id, hid, mem_offersOf_ids.mpr ⟨l, hl, (hf.mem_blocks hl x).mpr hk⟩⟩
  refine { hf, hwired with innermost := ?_, outside := ?_ }
  · intro x id hx
    obtain ⟨hin, hdeep⟩ := hdeepest.recorded hx
    obtain ⟨l, hl, hmem⟩ := mem_offersOf_ids.mp hin
    have hxl := (hf.mem_blocks hl x).mp hmem
    refine ⟨l.header, header?_of hl, hxl, fun k hk => ?_⟩
    obtain ⟨j, hj, hoffer⟩ := hfound hk
    rcases hk.total hxl with hkl | hlk
    · exact hkl
    · by_contra hnot
      refine Nat.not_lt_of_le (hdeep j hoffer) ?_
      rw [hwired.depth_eq (header?_of hl), hwired.depth_eq hj]
      refine hf.orderly.length_enclosing_lt hj ((hf.mem_enclosing (header?_of hl) hj).mpr hlk) ?_
      rintro rfl
      exact hnot (Option.some.inj ((header?_of hl).symm.trans hj) ▸ hlk)
  · intro x hx k hk
    obtain ⟨j, -, hoffer⟩ := hfound hk
    exact hdeepest.missing hx j hoffer

/-- The loops that have been found make a forest, with the same headers, blocks and parents. -/
theorem Gathers.exists_ofLoops {loops : Array Loop} (hg : ({ loops } : LoopForest).Gathers R r done)
    (hall : ∀ h, Reaches R r h → h ∈ done) :
    ∃ forest, ofLoops loops = .ok forest ∧ SameBare forest { loops } ∧ forest.Represents R r := by
  have hlists := hg.lists hall
  obtain ⟨forest, hrun, hsame, hwired, hdeepest⟩ := hlists.orderly.exists_ofLoops hg.bare
  exact ⟨forest, hrun, hsame, (hlists.congr hsame).represents hwired hdeepest⟩

end LoopForest

theorem Graph.IsPostOrder.mem_of_dominates {α : Type} [DecidableEq α] {g : Graph α} {start k h : α}
    {post done rest : List α} (hpost : g.IsPostOrder start post)
    (hsplit : post.reverse = done ++ h :: rest) (hdom : Dominates g.Arc start k h) (hne : k ≠ h) :
    k ∈ done := by
  have hnodup : post.reverse.Nodup := List.nodup_reverse.mpr hpost.nodup
  induction hlength : done.length using Nat.strongRecOn generalizing done h rest with
  | ind n ih =>
  have hh : h ∈ post := by
    rw [← List.mem_reverse, hsplit]
    exact List.mem_append_right _ List.mem_cons_self
  have hroot : h ≠ start := by
    rintro rfl
    exact hne hdom.eq_root
  obtain ⟨y, harc, hsub⟩ := hpost.entered h hh hroot
  have hy : y ∈ done := by
    have hlt := idxOf_lt_of_sublist hnodup (List.reverse_sublist.mpr hsub)
    rw [hsplit] at hlt hnodup
    have hnot : h ∉ done := notMem_of_nodup_append hnodup
    by_contra hy
    rw [List.idxOf_append_of_notMem hnot, List.idxOf_append_of_notMem hy, List.idxOf_cons_self] at hlt
    exact Nat.not_lt_of_le (Nat.le_add_right _ _) hlt
  have hreach : Reaches g.Arc start y := by
    rw [← hpost.mem_iff, ← List.mem_reverse, hsplit]
    exact List.mem_append_left _ hy
  rcases Classical.em (k = y) with rfl | hky
  · exact hy
  · obtain ⟨before, after, rfl⟩ := List.append_of_mem hy
    rw [List.append_assoc, List.cons_append] at hsplit
    refine List.mem_append_left _ (ih before.length ?_ hsplit (hdom.of_arc hne harc hreach) hky rfl)
    rw [← hlength, List.length_append, List.length_cons]
    omega

namespace Body

variable {f : Body} {d : Dominators} {entry h x : BlockId} {latches : List BlockId}

theorem Consistent.exists_latchesOf (hf : f.Consistent) (hd : d.Represents f.Arc entry)
    (hh : f.isLiveBlock h = true) :
    ∃ latches, f.latchesOf d h = .ok latches ∧ ∀ l, l ∈ latches ↔ Latch f.Arc entry h l := by
  obtain ⟨data, hdata⟩ := isLiveBlock_iff.mp hh
  refine ⟨(data.preds.map Edge.block).eraseDups.filter fun b =>
    d.isReachable b && d.dominates h b, ?_, fun l => ?_⟩
  · rw [latchesOf, predBlocks, block_eq_ok.mpr hdata]
    rfl
  · rw [List.mem_filter, List.mem_eraseDups, hf.edges.mem_preds_iff_arc hdata, Bool.and_eq_true,
      hd.isReachable_iff]
    constructor
    · rintro ⟨harc, hreach, hdom⟩
      exact ⟨harc, (hd.dominates_iff_of_reaches hreach).mp hdom⟩
    · rintro ⟨harc, hdom⟩
      exact ⟨harc, hdom.reaches, (hd.dominates_iff_of_reaches hdom.reaches).mpr hdom⟩

theorem Consistent.next_reachableBackflow (hf : f.Consistent) (hd : d.Represents f.Arc entry)
    (hx : f.isLiveBlock x = true) :
    ∃ sources, (f.reachableBackflow d).next x = .ok sources ∧
      ∀ y, y ∈ sources ↔ f.Arc y x ∧ Reaches f.Arc entry y := by
  obtain ⟨data, hdata⟩ := isLiveBlock_iff.mp hx
  refine ⟨((data.preds.map Edge.block).eraseDups).filter d.isReachable, ?_, fun y => ?_⟩
  · change Except.map _ (f.backflow.next x) = _
    rw [backflow_next hdata]
    rfl
  · rw [List.mem_filter, List.mem_eraseDups, hf.edges.mem_preds_iff_arc hdata, hd.isReachable_iff]

section Backflow

variable (hf : f.Consistent) (hentry : f.entry = .ok entry) (hd : d.Represents f.Arc entry)
include hf hentry hd

theorem arc_reachableBackflow {x y : BlockId} (hx : Reaches f.Arc entry x) :
    (f.reachableBackflow d).Arc x y ↔ f.Arc y x ∧ Reaches f.Arc entry y := by
  obtain ⟨sources, hnext, hmem⟩ := hf.next_reachableBackflow hd (hf.isLiveBlock_of_reaches hentry hx)
  rw [← hmem, Graph.Arc, hnext]
  simp

theorem path_reachableBackflow {P : BlockId → Prop} {l : BlockId} (hl : Reaches f.Arc entry l) :
    Path (f.reachableBackflow d).Arc P l x ↔ Reaches f.Arc entry x ∧ Path f.Arc P x l := by
  have harc := @arc_reachableBackflow f d entry hf hentry hd
  constructor
  · intro hpath
    induction hpath with
    | root h => exact ⟨hl, .root h⟩
    | step _ hstep h ih =>
        obtain ⟨hyx, hy⟩ := (harc ih.1).mp hstep
        exact ⟨hy, ih.2.head h hyx⟩
  · rintro ⟨hx, hpath⟩
    induction hpath with
    | root h => exact .root h
    | @step y z hpath hstep h ih =>
        have hy : Reaches f.Arc entry y := Path.trans hx (hpath.mono fun _ _ => trivial)
        exact (ih hy).head h ((harc hl).mpr ⟨hstep, hy⟩)

theorem exists_loopBlocks (hlatches : ∀ l, l ∈ latches ↔ Latch f.Arc entry h l)
    (hh : InLoop f.Arc entry h h) :
    ∃ blocks, f.loopBlocks d h latches = .ok blocks ∧ blocks.Nodup ∧
      ∀ x, x ∈ blocks ↔ InLoop f.Arc entry h x := by
  have hnext : ∀ a, Reaches f.Arc entry a → ∃ sources, (f.reachableBackflow d).next a = .ok sources ∧
      ∀ b ∈ sources, Reaches f.Arc entry b := by
    intro a ha
    obtain ⟨sources, hnext, hsources⟩ :=
      hf.next_reachableBackflow hd (hf.isLiveBlock_of_reaches hentry ha)
    exact ⟨sources, hnext, fun b hb => ((hsources b).mp hb).2⟩
  have hstack : ∀ l ∈ latches.reverse, Reaches f.Arc entry l := fun l hl =>
    ((hlatches l).mp (List.mem_reverse.mp hl)).dominates.reaches
  obtain ⟨blocks, hrun, hnodup, hmem⟩ := Graph.exists_flood hnext hstack (List.nodup_singleton h)
  refine ⟨blocks, hrun, hnodup, fun x => ?_⟩
  have hpath : ∀ {l}, Latch f.Arc entry h l →
      (Path (f.reachableBackflow d).Arc (· ∉ [h]) l x ↔
        Reaches f.Arc entry x ∧ Path f.Arc (· ≠ h) x l) := by
    intro l hl
    simp only [List.mem_singleton]
    exact path_reachableBackflow hf hentry hd hl.dominates.reaches
  rw [hmem, List.mem_singleton]
  constructor
  · rintro (rfl | ⟨l, hl, hx⟩)
    · exact hh
    · have hl := (hlatches l).mp (List.mem_reverse.mp hl)
      exact ⟨l, hl, .inr ((hpath hl).mp hx)⟩
  · rintro ⟨l, hl, hx | hx⟩
    · exact .inl hx
    · exact .inr ⟨l, List.mem_reverse.mpr ((hlatches l).mpr hl), (hpath hl).mpr hx⟩

end Backflow

theorem Consistent.exists_addLoopOf (hf : f.Consistent) (hentry : f.entry = .ok entry)
    (hd : d.Represents f.Arc entry) (order : BlockOrder) {loops : Array Loop} {done : List BlockId}
    (hg : ({ loops } : LoopForest).Gathers f.Arc entry done) (hh : Reaches f.Arc entry h)
    (hnew : h ∉ done) (hdone : ∀ k, Dominates f.Arc entry k h → k ≠ h → k ∈ done) :
    ∃ loops', addLoopOf f d order loops h = .ok loops' ∧
      ({ loops := loops' } : LoopForest).Gathers f.Arc entry (done ++ [h]) := by
  obtain ⟨latches, hrun, hlatches⟩ := hf.exists_latchesOf hd (hf.isLiveBlock_of_reaches hentry hh)
  rw [addLoopOf, hrun, ok_bind]
  rcases latches with _ | ⟨l, rest⟩
  · refine ⟨loops, rfl, hg.skip ?_⟩
    rintro ⟨l, hl, -⟩
    exact absurd ((hlatches l).mpr hl) List.not_mem_nil
  · have hheader := ((hlatches l).mp List.mem_cons_self).inLoop.header
    obtain ⟨blocks, hblocks, hnodup, hmem⟩ := exists_loopBlocks hf hentry hd hlatches hheader
    have hperm := List.mergeSort_perm blocks order.le
    refine ⟨_, ?_, hg.push hheader hnew hdone (hperm.nodup_iff.mpr hnodup) fun x => ?_⟩
    · rw [List.isEmpty_cons, if_neg Bool.false_ne_true, hblocks, ok_bind]
      rfl
    · rw [hperm.mem_iff, hmem]

theorem Consistent.exists_gathered (hf : f.Consistent) (hentry : f.entry = .ok entry)
    (hd : d.Represents f.Arc entry) {post : List BlockId} (hpost : f.flow.IsPostOrder entry post) :
    ∃ loops, post.reverse.foldlM (addLoopOf f d ⟨post⟩) #[] = .ok loops ∧
      ({ loops } : LoopForest).Gathers f.Arc entry post.reverse := by
  refine exists_foldlM (P := fun done loops =>
    ({ loops } : LoopForest).Gathers f.Arc entry done) .empty fun done h rest loops hsplit hg => ?_
  have hh : Reaches f.Arc entry h := by
    rw [← arc_flow, ← hpost.mem_iff, ← List.mem_reverse, hsplit]
    exact List.mem_append_right _ List.mem_cons_self
  have hnew : h ∉ done := notMem_of_nodup_append (hsplit ▸ List.nodup_reverse.mpr hpost.nodup)
  refine hf.exists_addLoopOf hentry hd ⟨post⟩ hg hh hnew fun k hk hne => ?_
  rw [← arc_flow] at hk
  exact hpost.mem_of_dominates hsplit hk hne

theorem Consistent.exists_blockOrder (hf : f.Consistent) (hentry : f.entry = .ok entry) :
    ∃ order, f.blockOrder = .ok order ∧ f.flow.IsPostOrder entry order.post := by
  obtain ⟨post, hpost, hisPost⟩ := hf.exists_postOrder hentry
  refine ⟨⟨post⟩, ?_, hisPost⟩
  rw [blockOrder, hentry, ok_bind, hpost]
  rfl

/-- The loops of a consistent body form a forest that represents its control flow. Each of them is one
that was found, but for what has been recorded beside its parent. -/
theorem Consistent.exists_loops_found (hf : f.Consistent) (hentry : f.entry = .ok entry)
    (hd : d.Represents f.Arc entry) :
    ∃ order loops forest, f.blockOrder = .ok order ∧ f.flow.IsPostOrder entry order.post ∧
      order.reverse.foldlM (addLoopOf f d order) #[] = .ok loops ∧
      ({ loops } : LoopForest).Gathers f.Arc entry order.reverse ∧
      f.loops d = .ok forest ∧ LoopForest.SameBare forest { loops } ∧
      forest.Represents f.Arc entry := by
  obtain ⟨order, horder, hpost⟩ := hf.exists_blockOrder hentry
  obtain ⟨loops, hrun, hg⟩ := hf.exists_gathered hentry hd hpost
  have hall : ∀ h, Reaches f.Arc entry h → h ∈ order.post.reverse := fun h hh => by
    rwa [List.mem_reverse, hpost.mem_iff, arc_flow]
  obtain ⟨forest, hforest, hsame, hrepresents⟩ := hg.exists_ofLoops hall
  refine ⟨order, loops, forest, horder, hpost, hrun, hg, ?_, hsame, hrepresents⟩
  rw [Body.loops, horder, ok_bind]
  exact bind_eq_ok.mpr ⟨loops, hrun, hforest⟩

theorem Consistent.exists_loops (hf : f.Consistent) (hentry : f.entry = .ok entry)
    (hd : d.Represents f.Arc entry) :
    ∃ forest, f.loops d = .ok forest ∧ forest.Represents f.Arc entry := by
  obtain ⟨-, -, forest, -, -, -, -, hforest, -, hrepresents⟩ := hf.exists_loops_found hentry hd
  exact ⟨forest, hforest, hrepresents⟩

end Body

end FlowGraph
