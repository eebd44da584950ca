import Mathlib.Data.Finset.Card
import FlowGraph.Proofs.Loop.Stored

/-!
Stored forests and their members. However often blocks without a loop have been put into loops and
blocks that head none have been taken out, the list of a loop begins with the header and holds no
block twice, the loops nest by their members, and the innermost loop of a block is the deepest one
that it lies in.

The members of a loop can also be kept as a set beside the list, to be asked in its place. A forest
with sets (`IndexedForest`) adds a block to a list only if it is new to the set. The sets never
differ from the lists, so such a forest goes through the same states.
-/

namespace FlowGraph

/-- The list of the blocks begins with the header and has no duplicates. -/
structure Loop.Tidy (l : Loop) : Prop where
  nodup : l.blocks.Nodup
  head : l.blocks.head? = some l.header

theorem Loop.Tidy.append {l : Loop} {b : BlockId} (hl : l.Tidy) (hb : b ∉ l.blocks) :
    { l with blocks := l.blocks ++ [b] : Loop }.Tidy := by
  constructor
  · exact List.nodup_append.mpr ⟨hl.nodup, List.nodup_singleton b, fun x hx y hy heq =>
      hb (List.mem_singleton.mp hy ▸ heq ▸ hx)⟩
  · show (l.blocks ++ [b]).head? = some l.header
    rw [List.head?_append, hl.head]
    rfl

theorem Loop.Tidy.filter {l : Loop} {b : BlockId} (hl : l.Tidy) (hb : b ≠ l.header) :
    { l with blocks := l.blocks.filter (· ≠ b) : Loop }.Tidy := by
  constructor
  · exact hl.nodup.filter _
  · show (l.blocks.filter (· ≠ b)).head? = some l.header
    obtain ⟨rest, hrest⟩ := List.head?_eq_some_iff.mp hl.head
    rw [hrest, List.filter_cons_of_pos (by simpa using hb.symm)]
    rfl

namespace LoopForest

variable {forest new : LoopForest} {b h k x : BlockId} {i id j m o p : LoopId} {ids : List LoopId}
  {l : Loop}

theorem notMem_blocks (hb : forest.around b = ∅) (hl : forest.loop? j = some l) : b ∉ l.blocks := by
  intro hmem
  have hj : j ∈ forest.around b := ⟨l, hl, hmem⟩
  rw [hb] at hj
  exact hj

namespace Orderly

variable (hf : forest.Orderly)
include hf

theorem enclosing_trans (hm : forest.header? m = some h) (hi : i ∈ forest.enclosing j)
    (hj : j ∈ forest.enclosing m) : i ∈ forest.enclosing m := by
  refine hf.climb_induction (Q := fun m => j ∈ forest.enclosing m → i ∈ forest.enclosing m)
    ?_ ?_ hm hj
  · intro m h hm htop hj
    rw [hf.enclosing_of_top hm htop, List.mem_singleton] at hj
    exact hj ▸ hi
  · intro m p hp ih hj
    rw [hf.enclosing_of_parent? hp, List.mem_cons] at hj ⊢
    rcases hj with rfl | hj
    · rw [← List.mem_cons, ← hf.enclosing_of_parent? hp]
      exact hi
    · exact .inr (ih hj)

end Orderly

theorem mem_around_changeAlong {g : List BlockId → List BlockId} {record : List (BlockId × LoopId)}
    (hnew : (forest.changeAlong id g record).Linked) :
    j ∈ (forest.changeAlong id g record).around x ↔
      ∃ m, record.lookup x = some m ∧ j ∈ forest.enclosing m := by
  refine hnew.mem_members.trans (exists_congr fun m => and_congr_right fun _ => ?_)
  rw [enclosing_changeAlong]

namespace Linked

variable (hf : forest.Linked)
include hf

theorem header_mem_members (hi : forest.header? i = some h) : h ∈ forest.members i :=
  hf.mem_members.mpr ⟨i, hf.heads hi, hf.self_mem_enclosing hi⟩

theorem members_subset_iff (hi : forest.header? i = some h) :
    forest.members i ⊆ forest.members o ↔ o ∈ forest.enclosing i := by
  constructor
  · intro hsub
    obtain ⟨k, hk, ho⟩ := hf.mem_members.mp (hsub (hf.header_mem_members hi))
    cases (hf.heads hi).symm.trans hk
    exact ho
  · intro ho x hx
    obtain ⟨k, hk, hik⟩ := hf.mem_members.mp hx
    obtain ⟨q, hq⟩ := hf.known hk
    exact hf.mem_members.mpr ⟨k, hk, hf.enclosing_trans hq ho hik⟩

theorem members_subset_of_parent? (hp : forest.parent? i = some p) :
    forest.members i ⊆ forest.members p := by
  obtain ⟨h, hh⟩ := exists_header?_of_parent? hp
  obtain ⟨q, hq⟩ := hf.exists_header?_parent hp
  rw [hf.members_subset_iff hh, hf.enclosing_of_parent? hp]
  exact List.mem_cons_of_mem i (hf.self_mem_enclosing hq)

theorem deepest (hid : forest.innermost? x = some id) : x ∈ forest.members id ∧
    ∀ j, x ∈ forest.members j → j ≠ id → forest.depth j < forest.depth id := by
  obtain ⟨h, hh⟩ := hf.known hid
  refine ⟨hf.mem_members.mpr ⟨id, hid, hf.self_mem_enclosing hh⟩, fun j hj hne => ?_⟩
  obtain ⟨k, hk, hjk⟩ := hf.mem_members.mp hj
  cases hid.symm.trans hk
  obtain ⟨q, hq⟩ := hf.exists_header?_of_mem_enclosing hh hjk
  rw [hf.depth_eq hq, hf.depth_eq hh]
  exact hf.length_enclosing_lt hh hjk hne

theorem innermost?_eq_some_iff : forest.innermost? x = some id ↔ x ∈ forest.members id ∧
    ∀ j, x ∈ forest.members j → j ≠ id → forest.depth j < forest.depth id := by
  refine ⟨hf.deepest, ?_⟩
  rintro ⟨hx, hall⟩
  obtain ⟨k, hk, -⟩ := hf.mem_members.mp hx
  obtain ⟨hmem, hdeepest⟩ := hf.deepest hk
  by_contra hne
  have hne : k ≠ id := by
    rintro rfl
    exact hne hk
  exact Nat.lt_asymm (hall k hmem hne) (hdeepest id hx hne.symm)

theorem around_addBlock (hk : forest.header? id = some k) (hb : forest.around b = ∅)
    (hrun : forest.addBlock b id = .ok new) (x : BlockId) :
    new.around x = if x = b then {j | j ∈ forest.enclosing id} else forest.around x := by
  have hnew := hf.addBlock hk hb hrun
  cases hrun.symm.trans (hf.addBlock_eq hk b)
  ext j
  rw [mem_around_changeAlong hnew, lookup_putInnermost]
  split
  · simp
  · exact hf.mem_members.symm

theorem around_removeBlock (hb : ∀ id, forest.header? id ≠ some b)
    (hrun : forest.removeBlock b = .ok new) (x : BlockId) :
    new.around x = if x = b then ∅ else forest.around x := by
  have hnew := hf.removeBlock hb hrun
  obtain ⟨hnone, hsame⟩ | ⟨id, -, hchange⟩ := hf.removeBlock_cases hb
  · cases hrun.symm.trans hsame
    split
    · rename_i hx
      exact hx ▸ hf.around_eq_empty_iff.mpr hnone
    · rfl
  · cases hrun.symm.trans hchange
    ext j
    -- The way up from the innermost loop passes all loops of `b`, so none is left out.
    rw [mem_around_changeAlong hnew, lookup_filter_ne]
    split
    · simp
    · exact hf.mem_members.symm

/-- Taking out a block that has just been added restores the forest. -/
theorem removeBlock_addBlock (hk : forest.header? id = some k) (hb : forest.around b = ∅)
    (hrun : forest.addBlock b id = .ok new) : new.removeBlock b = .ok forest := by
  have hnone := hf.around_eq_empty_iff.mp hb
  have hlinked := hf.addBlock hk hb hrun
  cases hrun.symm.trans (hf.addBlock_eq hk b)
  have hinner := (lookup_putInnermost forest.innermost b id b).trans (if_pos rfl)
  have hne : k ≠ b := by
    rintro rfl
    cases hnone.symm.trans (hf.heads hk)
  rw [hlinked.removeBlock_eq hinner ((forest.header?_changeAlong id _ _ id).trans hk) hne]
  refine congrArg Except.ok (eq_of_loop? (fun j => ?_) rfl ?_)
  · rw [loop?_changeAlong, loop?_changeAlong, enclosing_changeAlong]
    rcases hl : forest.loop? j with _ | l
    · rfl
    · have hnew := notMem_blocks hb hl
      have hkeep : l.blocks.filter (· ≠ b) = l.blocks := by
        rw [List.filter_eq_self]
        intro x hx
        exact decide_eq_true (ne_of_mem_of_not_mem hx hnew)
      rw [Option.map_some, Option.map_some, withBlock, if_neg hnew]
      split
      · rw [List.filter_append, hkeep]
        simp
      · rfl
  · show (putInnermost forest.innermost b id).filter (·.1 ≠ b) = forest.innermost
    have hkeep : forest.innermost.filter (·.1 ≠ b) = forest.innermost := by
      rw [List.filter_eq_self]
      intro entry hentry
      apply decide_eq_true
      rintro rfl
      exact absurd (List.lookup_eq_none_iff.mp hnone entry hentry) (by simp)
    rw [putInnermost, List.filter_cons_of_neg (by simp), List.filter_filter]
    simpa using hkeep

end Linked

theorem tidy_of_found {f : Body} {d : Dominators} (hf : WellBuilt f) (hd : f.dominators = .ok d)
    (hforest : f.loops d = .ok forest) (hl : forest.loop? id = some l) : l.Tidy := by
  obtain ⟨entry, hentry, -⟩ := bind_eq_ok.mp hd
  obtain ⟨d', hd', hdoms⟩ := hf.consistent.exists_dominators hentry
  cases hd.symm.trans hd'
  obtain ⟨order, found, -, hfound, -, hlisted⟩ := hf.consistent.exists_loops_ascending hentry hdoms
  cases hforest.symm.trans hfound
  obtain ⟨hnodup, hhead, -⟩ := hlisted hl
  exact ⟨hnodup, hhead⟩

theorem Stored.tidy (hs : Stored forest) (hl : forest.loop? j = some l) : l.Tidy := by
  induction hs generalizing j l with
  | found hf hd hforest => exact tidy_of_found hf hd hforest hl
  | @add forest new b id hs hid hb hrun ih =>
      obtain ⟨k, hk⟩ := mem_ids.mp hid
      cases hrun.symm.trans (hs.linked.addBlock_eq hk b)
      rw [loop?_changeAlong] at hl
      obtain ⟨old, hold, rfl⟩ := Option.map_eq_some_iff.mp hl
      have hnew := notMem_blocks hb hold
      rw [withBlock, if_neg hnew]
      split
      · exact (ih hold).append hnew
      · exact ih hold
  | @remove forest new b hs hb hrun ih =>
      obtain ⟨-, hsame⟩ | ⟨id, -, hchange⟩ := hs.linked.removeBlock_cases hb
      · cases hrun.symm.trans hsame
        exact ih hl
      · cases hrun.symm.trans hchange
        rw [loop?_changeAlong] at hl
        obtain ⟨old, hold, rfl⟩ := Option.map_eq_some_iff.mp hl
        split
        · refine (ih hold).filter ?_
          rintro rfl
          exact hb j (header?_of hold)
        · exact ih hold

end LoopForest

/-- A forest that keeps the members of each loop also as a set. -/
structure IndexedForest where
  forest : LoopForest
  sets : LoopId → Finset BlockId

namespace IndexedForest

def modify (s : IndexedForest) (id : LoopId) (onList : List BlockId → List BlockId)
    (onSet : Finset BlockId → Finset BlockId) : IndexedForest where
  forest := s.forest.modifyLoop id fun l => { l with blocks := onList l.blocks }
  sets := Function.update s.sets id (onSet (s.sets id))

def record (s : IndexedForest) (innermost : List (BlockId × LoopId)) : IndexedForest :=
  { s with forest := { s.forest with innermost := innermost } }

/-- Put `b` into one loop. The set is asked whether `b` is new. -/
def enter (b : BlockId) (s : IndexedForest) (id : LoopId) : Except Fault IndexedForest := do
  let _ ← s.forest.loop id
  if b ∈ s.sets id then return s
  return s.modify id (· ++ [b]) (insert b)

def leave (b : BlockId) (s : IndexedForest) (id : LoopId) : Except Fault IndexedForest := do
  let _ ← s.forest.loop id
  return s.modify id (List.filter (· ≠ b)) (Finset.erase · b)

def addBlock (s : IndexedForest) (b : BlockId) (id : LoopId) : Except Fault IndexedForest := do
  let s ← (s.forest.enclosing id).foldlM (enter b) s
  return s.record (LoopForest.putInnermost s.forest.innermost b id)

def removeBlock (s : IndexedForest) (b : BlockId) : Except Fault IndexedForest := do
  match s.forest.innermost? b with
  | none => return s
  | some id =>
    if (← s.forest.loop id).header = b then .error (.headsLoop b)
    else
      let s ← (s.forest.enclosing id).foldlM (leave b) s
      return s.record (s.forest.innermost.filter (·.1 ≠ b))

end IndexedForest

namespace LoopForest

variable {forest new : LoopForest} {b x : BlockId} {id : LoopId} {l : Loop}

/-- The forest with the set that belongs to each list. -/
def indexed (forest : LoopForest) : IndexedForest where
  forest := forest
  sets id := (forest.loop? id).elim ∅ fun l => l.blocks.toFinset

theorem forest_indexed (forest : LoopForest) : forest.indexed.forest = forest := rfl

theorem sets_of_loop? (hl : forest.loop? id = some l) :
    forest.indexed.sets id = l.blocks.toFinset := by
  simp only [indexed, hl, Option.elim_some]

theorem mem_sets : x ∈ forest.indexed.sets id ↔ x ∈ forest.members id := by
  rcases hl : forest.loop? id with _ | l
  · simp [indexed, members, hl]
  · simp [indexed, members, hl]

theorem forall_notMem_sets : (∀ id, b ∉ forest.indexed.sets id) ↔ forest.around b = ∅ := by
  rw [Set.eq_empty_iff_forall_notMem]
  exact forall_congr' fun id => not_congr mem_sets

theorem modify_indexed {onList : List BlockId → List BlockId}
    {onSet : Finset BlockId → Finset BlockId} (hl : forest.loop? id = some l)
    (hset : (onList l.blocks).toFinset = onSet l.blocks.toFinset) :
    forest.indexed.modify id onList onSet =
      (forest.modifyLoop id fun l => { l with blocks := onList l.blocks }).indexed := by
  refine congrArg (IndexedForest.mk _) (funext fun j => ?_)
  have hloop := forest.loop?_modifyLoop id (fun l => { l with blocks := onList l.blocks }) j
  rcases Classical.em (j = id) with rfl | hne
  · rw [if_pos rfl, hl, Option.map_some] at hloop
    rw [Function.update_self, sets_of_loop? hl, ← hset]
    exact (sets_of_loop? hloop).symm
  · rw [if_neg hne] at hloop
    rw [Function.update_of_ne hne]
    simp only [indexed, hloop]

theorem enter_indexed (forest : LoopForest) (b : BlockId) (id : LoopId) :
    IndexedForest.enter b forest.indexed id = (forest.enter b id).map indexed := by
  rw [IndexedForest.enter, enter, forest_indexed]
  rcases hl : forest.loop? id with _ | l
  · rw [loop, hl]
    rfl
  · rw [loop_eq_ok.mpr hl, ok_bind, ok_bind, sets_of_loop? hl]
    simp only [List.mem_toFinset, Loop.contains, decide_eq_true_iff]
    split
    · rfl
    · rw [modify_indexed hl]
      · rfl
      · ext x
        simp

theorem leave_indexed (forest : LoopForest) (b : BlockId) (id : LoopId) :
    IndexedForest.leave b forest.indexed id = (forest.leave b id).map indexed := by
  rw [IndexedForest.leave, leave, forest_indexed]
  rcases hl : forest.loop? id with _ | l
  · rw [loop, hl]
    rfl
  · rw [loop_eq_ok.mpr hl, ok_bind, ok_bind, modify_indexed hl]
    · rfl
    · ext x
      simp [and_comm]

theorem foldlM_indexed {step : LoopForest → LoopId → Except Fault LoopForest}
    {step' : IndexedForest → LoopId → Except Fault IndexedForest}
    (hstep : ∀ forest id, step' (indexed forest) id = (step forest id).map indexed)
    (forest : LoopForest) (ids : List LoopId) :
    ids.foldlM step' forest.indexed = (ids.foldlM step forest).map indexed := by
  induction ids generalizing forest with
  | nil => rfl
  | cons id ids ih =>
      rw [List.foldlM_cons, List.foldlM_cons, hstep]
      rcases step forest id with fault | next
      · rfl
      · exact ih next

theorem addBlock_indexed (forest : LoopForest) (b : BlockId) (id : LoopId) :
    forest.indexed.addBlock b id = (forest.addBlock b id).map indexed := by
  have hwalk := foldlM_indexed (enter_indexed · b) forest (forest.enclosing id)
  rw [IndexedForest.addBlock, addBlock, forest_indexed, hwalk]
  rcases (forest.enclosing id).foldlM (enter b) forest with fault | new <;> rfl

theorem removeBlock_indexed (forest : LoopForest) (b : BlockId) :
    forest.indexed.removeBlock b = (forest.removeBlock b).map indexed := by
  rw [IndexedForest.removeBlock, removeBlock, forest_indexed]
  rcases forest.innermost? b with _ | id
  · rfl
  · have hwalk := foldlM_indexed (leave_indexed · b) forest (forest.enclosing id)
    simp only [hwalk]
    rcases forest.loop id with fault | l
    · rfl
    · rw [ok_bind, ok_bind]
      split
      · rfl
      · rcases (forest.enclosing id).foldlM (leave b) forest with fault | new <;> rfl

end LoopForest

/-- A forest with sets that began with those of the lists found in a well-built body, and in which
blocks without a loop have been put into loops and blocks that head none have been taken out. -/
inductive IndexedForest.Kept : IndexedForest → Prop
  | found {f : Body} {d : Dominators} {forest : LoopForest} (hf : WellBuilt f)
      (hd : f.dominators = .ok d) (hforest : f.loops d = .ok forest) : Kept forest.indexed
  | add {s new : IndexedForest} {b : BlockId} {id : LoopId} (hs : Kept s) (hid : id ∈ s.forest.ids)
      (hb : ∀ j, b ∉ s.sets j) (hrun : s.addBlock b id = .ok new) : Kept new
  | remove {s new : IndexedForest} {b : BlockId} (hs : Kept s)
      (hb : ∀ id, s.forest.header? id ≠ some b) (hrun : s.removeBlock b = .ok new) : Kept new

theorem IndexedForest.Kept.exists_stored {s : IndexedForest} (hs : s.Kept) :
    ∃ forest : LoopForest, forest.Stored ∧ s = forest.indexed := by
  have hresult : ∀ {x : Except Fault LoopForest} {new : IndexedForest},
      x.map LoopForest.indexed = .ok new → ∃ forest, x = .ok forest ∧ new = forest.indexed := by
    intro x new hx
    rcases x with fault | forest
    · cases hx
    · cases hx
      exact ⟨forest, rfl, rfl⟩
  induction hs with
  | found hf hd hforest => exact ⟨_, .found hf hd hforest, rfl⟩
  | add hs hid hb hrun ih =>
      obtain ⟨forest, hstored, rfl⟩ := ih
      rw [LoopForest.addBlock_indexed] at hrun
      obtain ⟨new, hnew, rfl⟩ := hresult hrun
      exact ⟨new, hstored.add hid (LoopForest.forall_notMem_sets.mp hb) hnew, rfl⟩
  | remove hs hb hrun ih =>
      obtain ⟨forest, hstored, rfl⟩ := ih
      rw [LoopForest.removeBlock_indexed] at hrun
      obtain ⟨new, hnew, rfl⟩ := hresult hrun
      exact ⟨new, hstored.remove hb hnew, rfl⟩

theorem LoopForest.Stored.kept_indexed {forest : LoopForest} (hs : forest.Stored) :
    forest.indexed.Kept := by
  induction hs with
  | found hf hd hforest => exact .found hf hd hforest
  | add hs hid hb hrun ih =>
      refine ih.add hid (LoopForest.forall_notMem_sets.mpr hb) ?_
      rw [LoopForest.addBlock_indexed, hrun]
      rfl
  | remove hs hb hrun ih =>
      refine ih.remove hb ?_
      rw [LoopForest.removeBlock_indexed, hrun]
      rfl

/-- The sets go with the lists: over a stored forest there is one kept forest with sets. -/
theorem LoopForest.Stored.kept_iff {forest : LoopForest} (hs : forest.Stored) (s : IndexedForest) :
    s.Kept ∧ s.forest = forest ↔ s = forest.indexed := by
  constructor
  · rintro ⟨hkept, rfl⟩
    obtain ⟨forest, -, rfl⟩ := hkept.exists_stored
    rfl
  · rintro rfl
    exact ⟨hs.kept_indexed, rfl⟩

/-- What a stored forest stays through any number of edits. A forest with sets has the same states.
A block without a loop can be put into any loop, which puts it into the loops around that and can be
taken back. A block that heads no loop can be taken out of all its loops. No list has duplicates, and
each begins with its header. Loops nest by their members, and the innermost loop of a block is the
deepest one that it lies in. -/
theorem LoopForest.Stored.stays_forest {forest : LoopForest} (hs : forest.Stored) :
    (∀ s : IndexedForest, s.Kept ∧ s.forest = forest ↔ s = forest.indexed) ∧
    (∀ b, ∀ id ∈ forest.ids, forest.around b = ∅ →
      ∃ new, forest.addBlock b id = .ok new ∧ forest.indexed.addBlock b id = .ok new.indexed ∧
        (∀ x, new.around x = if x = b then {j | j ∈ forest.enclosing id} else forest.around x) ∧
        new.removeBlock b = .ok forest ∧ new.indexed.removeBlock b = .ok forest.indexed) ∧
    (∀ b, (∀ id, forest.header? id ≠ some b) →
      ∃ new, forest.removeBlock b = .ok new ∧ forest.indexed.removeBlock b = .ok new.indexed ∧
        ∀ x, new.around x = if x = b then ∅ else forest.around x) ∧
    (∀ id l, forest.loop? id = some l → l.blocks.Nodup ∧ l.blocks.head? = some l.header ∧
      ∀ x, x ∈ l.blocks ↔ x ∈ forest.indexed.sets id) ∧
    (∀ id, ∀ child ∈ forest.children id, forest.members child ⊆ forest.members id) ∧
    (∀ b id, forest.innermost? b = some id ↔ b ∈ forest.members id ∧
      ∀ j, b ∈ forest.members j → j ≠ id → forest.depth j < forest.depth id) ∧
    (∀ b, forest.innermost? b = none ↔ ∀ id, b ∉ forest.members id) ∧
    ∀ outer ∈ forest.ids, ∀ inner ∈ forest.ids, ∃ answer, forest.nested outer inner = .ok answer ∧
      (answer = true ↔ forest.members inner ⊆ forest.members outer) := by
  have hf := hs.linked
  refine ⟨hs.kept_iff, fun b id hid hb => ?_, fun b hb => ?_, fun id l hl => ?_,
    fun id child hchild => hf.members_subset_of_parent? ((hf.mem_children hf.toOrderly).mp hchild),
    fun b id => hf.innermost?_eq_some_iff, fun b => ?_, fun outer _ inner hinner => ?_⟩
  · obtain ⟨k, hk⟩ := mem_ids.mp hid
    have hrun := hf.addBlock_eq hk b
    have hback := hf.removeBlock_addBlock hk hb hrun
    refine ⟨_, hrun, ?_, hf.around_addBlock hk hb hrun, hback, ?_⟩
    · rw [addBlock_indexed, hrun]
      rfl
    · rw [removeBlock_indexed, hback]
      rfl
  · have hrun : ∃ new, forest.removeBlock b = .ok new := by
      obtain ⟨-, hrun⟩ | ⟨id, -, hrun⟩ := hf.removeBlock_cases hb
      · exact ⟨_, hrun⟩
      · exact ⟨_, hrun⟩
    obtain ⟨new, hrun⟩ := hrun
    refine ⟨new, hrun, ?_, hf.around_removeBlock hb hrun⟩
    rw [removeBlock_indexed, hrun]
    rfl
  · refine ⟨(hs.tidy hl).nodup, (hs.tidy hl).head, fun x => ?_⟩
    rw [sets_of_loop? hl, List.mem_toFinset]
  · rw [← hf.around_eq_empty_iff, Set.eq_empty_iff_forall_notMem]
    rfl
  · obtain ⟨h, hh⟩ := mem_ids.mp hinner
    exact ⟨_, hf.nested_eq outer hh, by rw [decide_eq_true_iff, hf.members_subset_iff hh]⟩

/-- Block 4 has been taken out of the loops of `nestedLoops`; it can go back into the inner one. -/
theorem sparseForest_stays_forest :
    sparseForest.Stored ∧ sparseForest.addBlock ⟨4⟩ ⟨1⟩ = .ok refilledForest ∧
      sparseForest.indexed.addBlock ⟨4⟩ ⟨1⟩ = .ok refilledForest.indexed ∧
      refilledForest.around ⟨4⟩ = {j | j ∈ [⟨1⟩, ⟨0⟩]} ∧
      refilledForest.removeBlock ⟨4⟩ = .ok sparseForest ∧
      sparseForest.members ⟨1⟩ ⊆ sparseForest.members ⟨0⟩ ∧
      ¬ sparseForest.members ⟨1⟩ ⊆ sparseForest.members ⟨2⟩ := by
  obtain ⟨-, hadd, -, -, -, -, -, hnested⟩ := LoopForest.Stored.stays_forest stored_sparseForest
  obtain ⟨new, hrun, hindexed, haround, hback, -⟩ := hadd ⟨4⟩ ⟨1⟩ (by decide) sparseForest_around
  cases sparseForest_addBlock.symm.trans hrun
  obtain ⟨below, hbelow, hbelowIff⟩ := hnested ⟨0⟩ (by decide) ⟨1⟩ (by decide)
  obtain ⟨beside, hbeside, hbesideIff⟩ := hnested ⟨2⟩ (by decide) ⟨1⟩ (by decide)
  cases hbelow.symm.trans (by decide : sparseForest.nested ⟨0⟩ ⟨1⟩ = .ok true)
  cases hbeside.symm.trans (by decide : sparseForest.nested ⟨2⟩ ⟨1⟩ = .ok false)
  exact ⟨stored_sparseForest, hrun, hindexed, (haround ⟨4⟩).trans (if_pos rfl), hback,
    hbelowIff.mp rfl, fun h => absurd (hbesideIff.mpr h) (by decide)⟩

end FlowGraph
