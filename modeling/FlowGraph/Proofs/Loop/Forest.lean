import Mathlib.Data.List.Nodup
import FlowGraph.Loop.Discovery
import FlowGraph.Proofs.Loop.Natural
import FlowGraph.Proofs.Outcome

namespace FlowGraph.LoopForest

variable {forest : LoopForest} {R : BlockId → BlockId → Prop} {r h k x : BlockId} {id i j p : LoopId}
  {l : Loop}

/-- The header of loop `id`, if there is such a loop. -/
def header? (forest : LoopForest) (id : LoopId) : Option BlockId := (forest.loop? id).map (·.header)

/-- The loops that are listed inside loop `id`. -/
def children (forest : LoopForest) (id : LoopId) : List LoopId :=
  (forest.loop? id).elim [] (·.children)

/-- The depth that is recorded for loop `id`. -/
def depth (forest : LoopForest) (id : LoopId) : Nat := (forest.loop? id).elim 0 (·.depth)

/-- The header of the innermost loop that `b` lies in. -/
def innermostHeader? (forest : LoopForest) (b : BlockId) : Option BlockId :=
  (forest.innermost? b).bind forest.header?

/-- The header of the loop around the loop that `header` heads. -/
def parentHeader? (forest : LoopForest) (header : BlockId) : Option BlockId := do
  forest.header? (← forest.parent? (← forest.innermost? header))

theorem loop_eq_ok : forest.loop id = .ok l ↔ forest.loop? id = some l := by
  unfold loop
  rcases forest.loop? id with _ | m <;> simp

theorem header?_of (hl : forest.loop? id = some l) : forest.header? id = some l.header := by
  rw [header?, hl]
  rfl

theorem parent?_of (hl : forest.loop? id = some l) : forest.parent? id = l.parent := by
  rw [parent?, hl]
  rfl

theorem children_of (hl : forest.loop? id = some l) : forest.children id = l.children := by
  rw [children, hl]
  rfl

theorem depth_of (hl : forest.loop? id = some l) : forest.depth id = l.depth := by
  rw [depth, hl]
  rfl

theorem header?_eq_some :
    forest.header? id = some h ↔ ∃ l, forest.loop? id = some l ∧ l.header = h :=
  Option.map_eq_some_iff

theorem exists_header?_of_parent? (hp : forest.parent? id = some p) :
    ∃ h, forest.header? id = some h := by
  obtain ⟨l, hl, -⟩ := Option.bind_eq_some_iff.mp hp
  exact ⟨l.header, header?_of hl⟩

theorem lt_size_of_header? (hh : forest.header? id = some h) : id.index < forest.loops.size := by
  obtain ⟨l, hl, -⟩ := header?_eq_some.mp hh
  exact (Array.getElem?_eq_some_iff.mp hl).1

theorem lookup_filter_ne (record : List (BlockId × LoopId)) (m x : BlockId) :
    (record.filter (·.1 ≠ m)).lookup x = if x = m then none else record.lookup x := by
  induction record with
  | nil => simp
  | cons entry record ih =>
      obtain ⟨y, id⟩ := entry
      rcases Classical.em (y = m) with rfl | hy
      · rw [List.filter_cons_of_neg (by simp), ih, List.lookup_cons]
        split
        · rfl
        · rename_i hx
          rw [beq_false_of_ne hx]
      · rw [List.filter_cons_of_pos (by simpa using hy), List.lookup_cons, List.lookup_cons, ih]
        rcases Classical.em (x = m) with rfl | hx
        · rw [beq_false_of_ne (Ne.symm hy), if_pos rfl]
        · rw [if_neg hx, if_neg hx]

theorem lookup_putInnermost (record : List (BlockId × LoopId)) (m : BlockId) (id : LoopId)
    (x : BlockId) :
    (putInnermost record m id).lookup x = if x = m then some id else record.lookup x := by
  rw [putInnermost, List.lookup_cons, lookup_filter_ne]
  rcases Classical.em (x = m) with rfl | hne
  · rw [beq_self_eq_true, if_pos rfl, if_pos rfl]
  · rw [beq_false_of_ne hne, if_neg hne, if_neg hne]

def withRecord (forest : LoopForest) (record : List (BlockId × LoopId)) : LoopForest :=
  { forest with innermost := record }

theorem innermost?_withRecord (forest : LoopForest) (record : List (BlockId × LoopId)) (x : BlockId) :
    (forest.withRecord record).innermost? x = record.lookup x := rfl

theorem eq_of_loop? {a b : LoopForest} (hloop : ∀ id, a.loop? id = b.loop? id)
    (htop : a.topLevel = b.topLevel) (hinnermost : a.innermost = b.innermost) : a = b := by
  obtain ⟨loops, top, record⟩ := a
  obtain ⟨loops', top', record'⟩ := b
  have hloops : loops = loops' := Array.ext_getElem? fun n => hloop ⟨n⟩
  rw [hloops, show top = top' from htop, show record = record' from hinnermost]

theorem loop?_modifyLoop (forest : LoopForest) (id : LoopId) (g : Loop → Loop) (j : LoopId) :
    (forest.modifyLoop id g).loop? j =
      if j = id then (forest.loop? j).map g else forest.loop? j := by
  rw [loop?, modifyLoop, Array.getElem?_modify]
  cases id
  cases j
  simp [loop?, eq_comm]

theorem mem_loops : l ∈ forest.loops.toList ↔ ∃ id, forest.loop? id = some l := by
  rw [List.mem_iff_getElem?]
  constructor
  · rintro ⟨n, hn⟩
    exact ⟨⟨n⟩, Array.getElem?_toList.symm.trans hn⟩
  · rintro ⟨id, hid⟩
    exact ⟨id.index, Array.getElem?_toList.trans hid⟩

theorem getElem?_headers (forest : LoopForest) (n : Nat) :
    (forest.loops.toList.map Loop.header)[n]? = forest.header? ⟨n⟩ := by
  rw [List.getElem?_map, Array.getElem?_toList]
  rfl

theorem mem_map_header :
    h ∈ forest.loops.toList.map Loop.header ↔ ∃ id, forest.header? id = some h := by
  rw [List.mem_iff_getElem?]
  constructor
  · rintro ⟨n, hn⟩
    exact ⟨⟨n⟩, (getElem?_headers forest n).symm.trans hn⟩
  · rintro ⟨id, hid⟩
    exact ⟨id.index, (getElem?_headers forest id.index).trans hid⟩

theorem mem_ids : id ∈ forest.ids ↔ ∃ h, forest.header? id = some h := by
  rw [ids, List.mem_map]
  constructor
  · rintro ⟨n, hn, rfl⟩
    rw [List.mem_range] at hn
    exact ⟨forest.loops[n].header, header?_of (Array.getElem?_eq_getElem hn)⟩
  · rintro ⟨h, hh⟩
    exact ⟨id.index, List.mem_range.mpr (lt_size_of_header? hh), rfl⟩

theorem nodup_ids (forest : LoopForest) : forest.ids.Nodup :=
  List.nodup_range.map fun _ _ => LoopId.mk.inj

theorem climb_congr {a b : LoopForest} (hparent : ∀ id, a.parent? id = b.parent? id) (steps : Nat)
    (id : LoopId) : a.climb steps id = b.climb steps id := by
  induction steps generalizing id with
  | zero => rfl
  | succ steps ih =>
      rw [climb, climb, hparent]
      rcases b.parent? id with _ | p
      · rfl
      · simp only [ih]

theorem enclosing_congr {a b : LoopForest} (hsize : a.loops.size = b.loops.size)
    (hparent : ∀ id, a.parent? id = b.parent? id) (id : LoopId) :
    a.enclosing id = b.enclosing id := by
  rw [enclosing, enclosing, hsize, climb_congr hparent]

/-- Loops have different headers, and the loop around a loop has a smaller number. -/
structure Orderly (forest : LoopForest) : Prop where
  distinct : ∀ {i j h}, forest.header? i = some h → forest.header? j = some h → i = j
  earlier : ∀ {id p}, forest.parent? id = some p → p.index < id.index

namespace Orderly

variable (hf : forest.Orderly)
include hf

theorem nodup_headers : (forest.loops.toList.map Loop.header).Nodup := by
  rw [List.nodup_iff_getElem?_ne_getElem?]
  intro m n hmn hn heq
  have hh := List.getElem?_eq_getElem hn
  rw [hh] at heq
  rw [getElem?_headers] at hh heq
  exact absurd (congrArg LoopId.index (hf.distinct heq hh)) (Nat.ne_of_lt hmn)

theorem exists_header?_parent (hp : forest.parent? id = some p) : ∃ q, forest.header? p = some q := by
  obtain ⟨h, hh⟩ := exists_header?_of_parent? hp
  have hlt : p.index < forest.loops.size := Nat.lt_trans (hf.earlier hp) (lt_size_of_header? hh)
  exact ⟨forest.loops[p.index].header, header?_of (Array.getElem?_eq_getElem hlt)⟩

theorem climb_eq {m n : Nat} (hm : id.index < m) (hn : id.index < n) :
    forest.climb m id = forest.climb n id := by
  induction m generalizing n id with
  | zero => exact absurd hm (Nat.not_lt_zero _)
  | succ m ih =>
      rcases n with _ | n
      · exact absurd hn (Nat.not_lt_zero _)
      · rw [climb, climb]
        rcases hp : forest.parent? id with _ | p
        · rfl
        · have hlt := hf.earlier hp
          simp only [ih (Nat.lt_of_lt_of_le hlt (Nat.le_of_lt_succ hm))
            (Nat.lt_of_lt_of_le hlt (Nat.le_of_lt_succ hn))]

theorem enclosing_eq (hh : forest.header? id = some h) :
    forest.enclosing id = id :: ((forest.parent? id).map forest.enclosing).getD [] := by
  have hlt := lt_size_of_header? hh
  rw [enclosing, climb]
  rcases hp : forest.parent? id with _ | p
  · rfl
  · have houter := Nat.lt_trans (hf.earlier hp) hlt
    simp only [hf.climb_eq houter (Nat.lt_succ_of_lt houter)]
    rfl

theorem enclosing_of_parent? (hp : forest.parent? id = some p) :
    forest.enclosing id = id :: forest.enclosing p := by
  obtain ⟨h, hh⟩ := exists_header?_of_parent? hp
  rw [hf.enclosing_eq hh, hp]
  rfl

theorem enclosing_of_top (hh : forest.header? id = some h) (hp : forest.parent? id = none) :
    forest.enclosing id = [id] := by
  rw [hf.enclosing_eq hh, hp]
  rfl

/-- A property of loops holds if it is passed on from the loop around a loop. -/
theorem climb_induction {Q : LoopId → Prop}
    (htop : ∀ id h, forest.header? id = some h → forest.parent? id = none → Q id)
    (hstep : ∀ id p, forest.parent? id = some p → Q p → Q id)
    (hh : forest.header? id = some h) : Q id := by
  induction hindex : id.index using Nat.strongRecOn generalizing id h with
  | ind n ih =>
  rcases hp : forest.parent? id with _ | p
  · exact htop id h hh hp
  · obtain ⟨q, hq⟩ := hf.exists_header?_parent hp
    exact hstep id p hp (ih _ (hindex ▸ hf.earlier hp) hq rfl)

theorem self_mem_enclosing (hi : forest.header? i = some h) : i ∈ forest.enclosing i := by
  rw [hf.enclosing_eq hi]
  exact List.mem_cons_self

theorem exists_header?_of_mem_enclosing (hi : forest.header? i = some h)
    (hj : j ∈ forest.enclosing i) : ∃ k, forest.header? j = some k := by
  refine hf.climb_induction
    (Q := fun i => j ∈ forest.enclosing i → ∃ k, forest.header? j = some k) ?_ ?_ hi hj
  · intro i h hi hp hj
    rw [hf.enclosing_of_top hi hp, List.mem_singleton] at hj
    exact ⟨h, hj ▸ hi⟩
  · intro i p hp ih hj
    rw [hf.enclosing_of_parent? hp, List.mem_cons] at hj
    rcases hj with rfl | hj
    · exact exists_header?_of_parent? hp
    · exact ih hj

theorem index_le_of_mem_enclosing (hi : forest.header? i = some h) (hj : j ∈ forest.enclosing i) :
    j.index ≤ i.index := by
  refine hf.climb_induction (Q := fun i => j ∈ forest.enclosing i → j.index ≤ i.index) ?_ ?_ hi hj
  · intro i h hi hp hj
    rw [hf.enclosing_of_top hi hp, List.mem_singleton] at hj
    exact Nat.le_of_eq (congrArg LoopId.index hj)
  · intro i p hp ih hj
    rw [hf.enclosing_of_parent? hp, List.mem_cons] at hj
    rcases hj with rfl | hj
    · exact Nat.le_refl _
    · exact Nat.le_trans (ih hj) (Nat.le_of_lt (hf.earlier hp))

theorem nodup_enclosing (hh : forest.header? id = some h) : (forest.enclosing id).Nodup := by
  refine hf.climb_induction (Q := fun id => (forest.enclosing id).Nodup) ?_ ?_ hh
  · intro id h hh hp
    rw [hf.enclosing_of_top hh hp]
    exact List.nodup_singleton id
  · intro id p hp ih
    rw [hf.enclosing_of_parent? hp, List.nodup_cons]
    obtain ⟨q, hq⟩ := hf.exists_header?_parent hp
    refine ⟨fun hin => ?_, ih⟩
    exact absurd (hf.index_le_of_mem_enclosing hq hin) (Nat.not_le_of_lt (hf.earlier hp))

theorem enclosing_antisymm (hi : forest.header? i = some h) (hji : j ∈ forest.enclosing i)
    (hij : i ∈ forest.enclosing j) : i = j := by
  obtain ⟨k, hj⟩ := hf.exists_header?_of_mem_enclosing hi hji
  have hle := hf.index_le_of_mem_enclosing hi hji
  have hge := hf.index_le_of_mem_enclosing hj hij
  cases i
  cases j
  exact congrArg LoopId.mk (Nat.le_antisymm hge hle)

theorem nested_eq (i : LoopId) (hj : forest.header? j = some h) :
    forest.nested i j = .ok (decide (i ∈ forest.enclosing j)) := by
  have hany : (forest.enclosing j).any (fun id => decide (id = i)) =
      decide (i ∈ forest.enclosing j) := by
    rw [Bool.eq_iff_iff]
    simp
  rw [nested, ← hany]
  refine anyM_eq_ok fun id hid => ?_
  obtain ⟨k, hk⟩ := hf.exists_header?_of_mem_enclosing hj hid
  obtain ⟨l, hl, -⟩ := header?_eq_some.mp hk
  rcases Classical.em (id = i) with heq | hne
  · rw [if_pos heq, decide_eq_true heq]
    rfl
  · rw [if_neg hne, loop_eq_ok.mpr hl, decide_eq_false hne]
    rfl

theorem length_enclosing_lt (hj : forest.header? j = some h) (hi : i ∈ forest.enclosing j)
    (hne : i ≠ j) : (forest.enclosing i).length < (forest.enclosing j).length := by
  refine hf.climb_induction (Q := fun j => i ∈ forest.enclosing j → i ≠ j →
    (forest.enclosing i).length < (forest.enclosing j).length) ?_ ?_ hj hi hne
  · intro j h hj htop hi hne
    rw [hf.enclosing_of_top hj htop, List.mem_singleton] at hi
    exact absurd hi hne
  · intro j p hp ih hi hne
    rw [hf.enclosing_of_parent? hp, List.mem_cons] at hi
    rw [hf.enclosing_of_parent? hp, List.length_cons]
    rcases Classical.em (i = p) with rfl | hip
    · exact Nat.lt_succ_self _
    · exact Nat.lt_succ_of_lt (ih (hi.resolve_left hne) hip)

end Orderly

/-- What is recorded beside the parents follows from them: the loops at the top level, the loops inside
a loop, both in the order of their numbers, and how many loops a loop and those around it are. -/
structure Wired (forest : LoopForest) : Prop where
  topLevel : forest.topLevel = forest.ids.filter fun id => forest.parent? id = none
  children : ∀ {id l}, forest.loop? id = some l →
    l.children = forest.ids.filter fun i => forest.parent? i = some id
  depth : ∀ {id l}, forest.loop? id = some l → l.depth = (forest.enclosing id).length

theorem Wired.congr {a b : LoopForest} (ha : a.Wired) (hsize : b.loops.size = a.loops.size)
    (hparent : ∀ id, b.parent? id = a.parent? id) (htop : b.topLevel = a.topLevel)
    (hlinks : ∀ {id l}, b.loop? id = some l →
      ∃ m, a.loop? id = some m ∧ l.children = m.children ∧ l.depth = m.depth) : b.Wired := by
  have hids : b.ids = a.ids := by rw [ids, ids, hsize]
  refine ⟨?_, ?_, ?_⟩
  · rw [htop, ha.topLevel, hids]
    simp only [hparent]
  · intro id l hl
    obtain ⟨m, hm, hchildren, -⟩ := hlinks hl
    rw [hchildren, ha.children hm, hids]
    simp only [hparent]
  · intro id l hl
    obtain ⟨m, hm, -, hdepth⟩ := hlinks hl
    rw [hdepth, ha.depth hm, enclosing_congr hsize hparent]

namespace Wired

variable (hw : forest.Wired)
include hw

theorem depth_eq (hh : forest.header? id = some h) :
    forest.depth id = (forest.enclosing id).length := by
  obtain ⟨l, hl, -⟩ := header?_eq_some.mp hh
  rw [depth_of hl, hw.depth hl]

theorem mem_children (hf : forest.Orderly) :
    i ∈ forest.children p ↔ forest.parent? i = some p := by
  rcases hl : forest.loop? p with _ | l
  · rw [LoopForest.children, hl]
    refine iff_of_false List.not_mem_nil fun hi => ?_
    obtain ⟨h, hh⟩ := hf.exists_header?_parent hi
    obtain ⟨l, hsome, -⟩ := header?_eq_some.mp hh
    cases hl.symm.trans hsome
  · rw [children_of hl, hw.children hl, List.mem_filter, decide_eq_true_iff, mem_ids]
    exact and_iff_right_of_imp exists_header?_of_parent?

theorem nodup_children (p : LoopId) : (forest.children p).Nodup := by
  rcases hl : forest.loop? p with _ | l
  · rw [LoopForest.children, hl]
    exact List.nodup_nil
  · rw [children_of hl, hw.children hl]
    exact (nodup_ids forest).filter _

theorem mem_topLevel : i ∈ forest.topLevel ↔ i ∈ forest.ids ∧ forest.parent? i = none := by
  rw [hw.topLevel, List.mem_filter, decide_eq_true_iff]

theorem nodup_topLevel : forest.topLevel.Nodup := by
  rw [hw.topLevel]
  exact (nodup_ids forest).filter _

end Wired

/-- All links lead to loops of the forest. -/
structure Closed (forest : LoopForest) : Prop extends forest.Orderly where
  known : ∀ {x id}, forest.innermost? x = some id → ∃ h, forest.header? id = some h

theorem headerOf?_eq {id : Option LoopId} (hid : ∀ i, id = some i → ∃ h, forest.header? i = some h) :
    forest.headerOf? id = .ok (id.bind forest.header?) := by
  rcases id with _ | i
  · rfl
  · obtain ⟨h, hh⟩ := hid i rfl
    obtain ⟨l, hl, rfl⟩ := header?_eq_some.mp hh
    change (forest.loop i >>= fun l => pure l.header) >>= (fun h => pure (some h)) = _
    rw [loop_eq_ok.mpr hl, Option.bind_some, hh]
    rfl

namespace Closed

variable (hf : forest.Closed)
include hf

theorem headerAround?_eq (b : BlockId) : forest.headerAround? b = .ok (forest.innermostHeader? b) :=
  headerOf?_eq fun _ hid => hf.known hid

theorem headerOutside?_eq (b : BlockId) : forest.headerOutside? b = .ok (forest.parentHeader? b) := by
  rw [headerOutside?, parentHeader?]
  rcases hid : forest.innermost? b with _ | id
  · rfl
  · obtain ⟨h, hh⟩ := hf.known hid
    obtain ⟨l, hl, -⟩ := header?_eq_some.mp hh
    simp only [loop_eq_ok.mpr hl, ok_bind]
    rw [headerOf?_eq fun p hp => hf.exists_header?_parent ((parent?_of hl).trans hp), ← parent?_of hl]
    rfl

end Closed

/-- The forest has a loop for each header, linked to the innermost loop around it. -/
structure Lists (forest : LoopForest) (R : BlockId → BlockId → Prop) (r : BlockId) : Prop where
  heads : ∀ {id h}, forest.header? id = some h → InLoop R r h h
  found : ∀ {h}, InLoop R r h h → ∃ id, forest.header? id = some h
  distinct : ∀ {i j h}, forest.header? i = some h → forest.header? j = some h → i = j
  mem_blocks : ∀ {id l}, forest.loop? id = some l → ∀ x, x ∈ l.blocks ↔ InLoop R r l.header x
  earlier : ∀ {id p}, forest.parent? id = some p → p.index < id.index
  parent : ∀ {id p h}, forest.header? id = some h → forest.parent? id = some p →
    ∃ q, forest.header? p = some q ∧ InnermostAround R r q h
  top : ∀ {id h}, forest.header? id = some h → forest.parent? id = none →
    ∀ k, InLoop R r k h → k = h

namespace Lists

variable (hf : forest.Lists R r)
include hf

theorem orderly : forest.Orderly := ⟨hf.distinct, hf.earlier⟩

theorem climb_induction {Q : LoopId → BlockId → Prop}
    (htop : ∀ id h, forest.header? id = some h → forest.parent? id = none → Q id h)
    (hstep : ∀ id h p q, forest.header? id = some h → forest.parent? id = some p →
      forest.header? p = some q → InnermostAround R r q h → Q p q → Q id h)
    (hh : forest.header? id = some h) : Q id h := by
  refine hf.orderly.climb_induction (Q := fun id => ∀ h, forest.header? id = some h → Q id h)
    (fun id _ _ hp h hh => htop id h hh hp) (fun id p hp ih h hh => ?_) hh h hh
  obtain ⟨q, hq, haround⟩ := hf.parent hh hp
  exact hstep id h p q hh hp hq haround (ih q hq)

/-- The loops around a loop are those that its header lies in. -/
theorem mem_enclosing (hi : forest.header? i = some h) (hj : forest.header? j = some k) :
    i ∈ forest.enclosing j ↔ InLoop R r h k := by
  have hsame : ∀ {j k}, forest.header? j = some k → (i = j ↔ h = k) := by
    intro j k hj
    constructor
    · rintro rfl
      exact Option.some.inj (hi.symm.trans hj)
    · rintro rfl
      exact hf.distinct hi hj
  refine hf.climb_induction (Q := fun j k => i ∈ forest.enclosing j ↔ InLoop R r h k) ?_ ?_ hj
  · intro j k hj hp
    rw [hf.orderly.enclosing_of_top hj hp, List.mem_singleton, hsame hj]
    constructor
    · rintro rfl
      exact hf.heads hi
    · exact hf.top hj hp h
  · intro j k p q hj hp hq haround ih
    rw [hf.orderly.enclosing_of_parent? hp, List.mem_cons, hsame hj, ih, haround.inLoop_iff]
    refine or_congr_left ⟨?_, And.left⟩
    rintro rfl
    exact ⟨rfl, hf.heads hi⟩

theorem exists_nested (hi : forest.header? i = some h) (hj : forest.header? j = some k) :
    ∃ answer, forest.nested i j = .ok answer ∧ (answer = true ↔ InLoop R r h k) :=
  ⟨_, hf.orderly.nested_eq i hj, by rw [decide_eq_true_iff, hf.mem_enclosing hi hj]⟩

end Lists

/-- The forest has the loops of the graph and knows the innermost one around each block. -/
structure Represents (forest : LoopForest) (R : BlockId → BlockId → Prop) (r : BlockId) : Prop
    extends forest.Lists R r, forest.Wired where
  innermost : ∀ {x id}, forest.innermost? x = some id →
    ∃ h, forest.header? id = some h ∧ Innermost R r h x
  outside : ∀ {x}, forest.innermost? x = none → ∀ h, ¬ InLoop R r h x

theorem Represents.closed (hf : forest.Represents R r) : forest.Closed where
  toOrderly := hf.orderly
  known hid := by
    obtain ⟨h, hh, -⟩ := hf.innermost hid
    exact ⟨h, hh⟩

theorem Represents.depth_lt (hf : forest.Represents R r) (hi : forest.header? i = some h)
    (hj : forest.header? j = some k) (hin : InLoop R r h k) (hne : h ≠ k) :
    forest.depth i < forest.depth j := by
  rw [hf.depth_eq hi, hf.depth_eq hj]
  refine hf.orderly.length_enclosing_lt hj ((hf.mem_enclosing hi hj).mpr hin) ?_
  rintro rfl
  exact hne (Option.some.inj (hi.symm.trans hj))

theorem Represents.innermostHeader?_eq_some (hf : forest.Represents R r) :
    forest.innermostHeader? x = some h ↔ Innermost R r h x := by
  rw [innermostHeader?]
  rcases hx : forest.innermost? x with _ | id
  · exact iff_of_false (by simp) fun hh => hf.outside hx h hh.inLoop
  · obtain ⟨k, hk, hinner⟩ := hf.innermost hx
    rw [Option.bind_some, hk, Option.some.injEq]
    exact ⟨fun heq => heq ▸ hinner, fun hh => hinner.unique hh⟩

/-- Two forests have the same loops, up to their numbers, and give the same answers. -/
structure Agrees (a b : LoopForest) : Prop where
  headers : (a.loops.toList.map Loop.header).Perm (b.loops.toList.map Loop.header)
  blocks : ∀ {i j l m}, a.loop? i = some l → b.loop? j = some m → l.header = m.header →
    ∀ x, x ∈ l.blocks ↔ x ∈ m.blocks
  parent : ∀ {i j h}, a.header? i = some h → b.header? j = some h →
    (a.parent? i).bind a.header? = (b.parent? j).bind b.header?
  depth : ∀ {i j h}, a.header? i = some h → b.header? j = some h → a.depth i = b.depth j
  innermost : ∀ x, a.innermostHeader? x = b.innermostHeader? x

namespace Lists

variable {a b : LoopForest}

theorem parentHeader_eq_some (hf : forest.Lists R r) (hh : forest.header? id = some h) :
    (forest.parent? id).bind forest.header? = some k ↔ InnermostAround R r k h := by
  rcases hp : forest.parent? id with _ | p
  · refine iff_of_false (by simp) fun haround => haround.ne ?_
    exact hf.top hh hp k haround.inLoop
  · obtain ⟨q, hq, haround⟩ := hf.parent hh hp
    rw [Option.bind_some, hq, Option.some.injEq]
    exact ⟨fun heq => heq ▸ haround, fun hk => haround.unique hk⟩

theorem mem_headers (hf : forest.Lists R r) :
    h ∈ forest.loops.toList.map Loop.header ↔ InLoop R r h h := by
  rw [mem_map_header]
  exact ⟨fun ⟨_, hid⟩ => hf.heads hid, hf.found⟩

theorem nodup_headers (hf : forest.Lists R r) : (forest.loops.toList.map Loop.header).Nodup :=
  hf.orderly.nodup_headers

theorem length_enclosing_eq (ha : a.Lists R r) (hb : b.Lists R r) (hi : a.header? i = some h)
    (hj : b.header? j = some h) : (a.enclosing i).length = (b.enclosing j).length := by
  refine ha.climb_induction (Q := fun i h => ∀ j, b.header? j = some h →
    (a.enclosing i).length = (b.enclosing j).length) ?_ ?_ hi j hj
  · intro i h hi hp j hj
    rw [ha.orderly.enclosing_of_top hi hp]
    rcases hq : b.parent? j with _ | q
    · rw [hb.orderly.enclosing_of_top hj hq]
      rfl
    · obtain ⟨k, -, haround⟩ := hb.parent hj hq
      exact absurd (ha.top hi hp k haround.inLoop) haround.ne
  · intro i h p q hi hp hq haround ih j hj
    rcases hp' : b.parent? j with _ | p'
    · exact absurd (hb.top hj hp' q haround.inLoop) haround.ne
    · obtain ⟨q', hq', haround'⟩ := hb.parent hj hp'
      obtain rfl := haround.unique haround'
      rw [ha.orderly.enclosing_of_parent? hp, hb.orderly.enclosing_of_parent? hp', List.length_cons,
        List.length_cons, ih p' hq']

end Lists

/-- The graph settles everything but the numbers of the loops. -/
theorem Represents.agrees {a b : LoopForest} (ha : a.Represents R r) (hb : b.Represents R r) :
    a.Agrees b := by
  refine ⟨?_, fun hl hm heq x => ?_, fun hi hj => ?_, fun hi hj => ?_, fun x => ?_⟩
  · rw [List.perm_ext_iff_of_nodup ha.nodup_headers hb.nodup_headers]
    exact fun h => ha.mem_headers.trans hb.mem_headers.symm
  · rw [ha.mem_blocks hl, hb.mem_blocks hm, heq]
  · apply Option.ext
    intro k
    rw [ha.parentHeader_eq_some hi, hb.parentHeader_eq_some hj]
  · rw [ha.depth_eq hi, hb.depth_eq hj, ha.length_enclosing_eq hb.toLists hi hj]
  · apply Option.ext
    intro k
    rw [ha.innermostHeader?_eq_some, hb.innermostHeader?_eq_some]

theorem Represents.parentHeader?_eq_some (hf : forest.Represents R r) (hh : InLoop R r h h) :
    forest.parentHeader? h = some k ↔ InnermostAround R r k h := by
  have hself : Innermost R r h h := ⟨hh, fun _ hk => hk⟩
  rcases hid : forest.innermost? h with _ | id
  · exact absurd hh (hf.outside hid h)
  · obtain ⟨q, hq, hinner⟩ := hf.innermost hid
    obtain rfl := hinner.unique hself
    rw [← hf.parentHeader_eq_some hq, parentHeader?, hid]
    rfl

/-- The comparison with a fresh forest has an answer. It finds nothing if there are as many loops, if
the headers of the innermost loops are the same, and if the same loops are around the fresh ones. -/
theorem Closed.exists_staleness? {a fresh : LoopForest} {f : Body} {d : Dominators} (ha : a.Closed)
    (hfresh : fresh.Closed) (hloops : f.loops d = .ok fresh) :
    ∃ answer, a.staleness? f d = .ok answer ∧ (answer = none ↔
      a.loops.size = fresh.loops.size ∧
      (∀ b ∈ f.layout, a.innermostHeader? b = fresh.innermostHeader? b) ∧
      ∀ i h, fresh.header? i = some h → a.parentHeader? h = (fresh.parent? i).bind fresh.header?) := by
  have hmembership : ∀ b ∈ f.layout, ∃ found, a.membershipStaleness? fresh b = .ok found ∧
      (found = none ↔ a.innermostHeader? b = fresh.innermostHeader? b) := by
    intro b _
    rw [membershipStaleness?, ha.headerAround?_eq, hfresh.headerAround?_eq]
    exact ⟨_, rfl, by simp⟩
  have hparent : ∀ l ∈ fresh.loops.toList, ∃ found, a.parentStaleness? fresh l = .ok found ∧
      (found = none ↔ a.parentHeader? l.header = l.parent.bind fresh.header?) := by
    intro l hl
    obtain ⟨id, hloop⟩ := mem_loops.mp hl
    rw [parentStaleness?, ha.headerOutside?_eq,
      headerOf?_eq fun p hp => hfresh.exists_header?_parent ((parent?_of hloop).trans hp)]
    exact ⟨_, rfl, by simp⟩
  rw [staleness?, hloops, ok_bind]
  rcases Classical.em (fresh.loops.size = a.loops.size) with hsize | hsize
  · obtain ⟨moved, hmoved, hsame⟩ := exists_findSomeM? hmembership
    obtain ⟨relinked, hrelinked, hlinks⟩ := exists_findSomeM? hparent
    rw [if_neg (not_not_intro hsize), hmoved, ok_bind, and_iff_right hsize.symm, ← hsame]
    rcases moved with _ | cause
    · refine ⟨relinked, hrelinked, hlinks.trans ?_⟩
      rw [and_iff_right rfl]
      constructor
      · intro hall i h hi
        obtain ⟨l, hl, rfl⟩ := header?_eq_some.mp hi
        rw [parent?_of hl]
        exact hall l (mem_loops.mpr ⟨i, hl⟩)
      · intro hall l hl
        obtain ⟨id, hloop⟩ := mem_loops.mp hl
        rw [hall id l.header (header?_of hloop), parent?_of hloop]
    · exact ⟨_, rfl, iff_of_false (by simp) fun h => by cases h.1⟩
  · rw [if_pos hsize]
    exact ⟨_, rfl, iff_of_false (by simp) fun h => hsize h.1.symm⟩

theorem Represents.staleness?_eq_none {a fresh : LoopForest} {f : Body} {d : Dominators}
    (ha : a.Represents R r) (hfresh : fresh.Represents R r) (hloops : f.loops d = .ok fresh) :
    a.staleness? f d = .ok none := by
  have hagrees := ha.agrees hfresh
  have hsize : a.loops.size = fresh.loops.size := by
    have hlength := hagrees.headers.length_eq
    simpa only [List.length_map, Array.length_toList] using hlength
  obtain ⟨answer, hrun, hnone⟩ := ha.closed.exists_staleness? hfresh.closed hloops
  rw [hrun, hnone.mpr ⟨hsize, fun b _ => hagrees.innermost b, fun i h hi => ?_⟩]
  apply Option.ext
  intro k
  rw [ha.parentHeader?_eq_some (hfresh.heads hi), hfresh.parentHeader_eq_some hi]

end FlowGraph.LoopForest
