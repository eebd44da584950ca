import Mathlib.Data.Set.Card
import Mathlib.Order.CompletePartialOrder
import FlowGraph.Proofs.Loop.Exact

namespace FlowGraph

namespace LoopForest

variable {forest : LoopForest} {R : BlockId → BlockId → Prop} {r h k x : BlockId} {id i j p : LoopId}

/-- The blocks of loop `id`, if there is such a loop. -/
def members (forest : LoopForest) (id : LoopId) : Set BlockId :=
  {x | ∃ l, forest.loop? id = some l ∧ x ∈ l.blocks}

/-- The loops that `x` lies in. -/
def around (forest : LoopForest) (x : BlockId) : Set LoopId := {id | x ∈ forest.members id}

/-- Loop `p` contains more than loop `i`, and lies in every loop that does. -/
def IsSmallestAround (forest : LoopForest) (p i : LoopId) : Prop :=
  p ∈ forest.ids ∧ forest.members i ⊂ forest.members p ∧
    ∀ j ∈ forest.ids, forest.members i ⊂ forest.members j → forest.members p ⊆ forest.members j

theorem exists_header?_of_mem_members (hx : x ∈ forest.members id) :
    ∃ h, forest.header? id = some h := by
  obtain ⟨l, hl, -⟩ := hx
  exact ⟨l.header, header?_of hl⟩

namespace Lists

variable (hf : forest.Lists R r)
include hf

theorem mem_members (hi : forest.header? i = some h) : x ∈ forest.members i ↔ InLoop R r h x := by
  obtain ⟨l, hl, rfl⟩ := header?_eq_some.mp hi
  rw [← hf.mem_blocks hl]
  constructor
  · rintro ⟨m, hm, hx⟩
    cases hl.symm.trans hm
    exact hx
  · exact fun hx => ⟨l, hl, hx⟩

theorem header_mem_members (hi : forest.header? i = some h) : h ∈ forest.members i :=
  (hf.mem_members hi).mpr (hf.heads hi)

theorem members_subset_iff (hi : forest.header? i = some h) (hj : forest.header? j = some k) :
    forest.members i ⊆ forest.members j ↔ InLoop R r k h := by
  constructor
  · intro hsub
    exact (hf.mem_members hj).mp (hsub (hf.header_mem_members hi))
  · intro hin x hx
    exact (hf.mem_members hj).mpr (hin.trans ((hf.mem_members hi).mp hx))

theorem members_ssubset_iff (hi : forest.header? i = some h) (hj : forest.header? j = some k) :
    forest.members i ⊂ forest.members j ↔ InLoop R r k h ∧ k ≠ h := by
  rw [Set.ssubset_def, hf.members_subset_iff hi hj, hf.members_subset_iff hj hi]
  apply and_congr_right
  intro hin
  constructor
  · rintro hnot rfl
    exact hnot hin
  · exact fun hne hback => hne (hin.antisymm hback)

theorem disjoint_or_ssubset (hi : forest.header? i = some h) (hj : forest.header? j = some k)
    (hne : i ≠ j) : Disjoint (forest.members i) (forest.members j) ∨
      forest.members i ⊂ forest.members j ∨ forest.members j ⊂ forest.members i := by
  rw [hf.members_ssubset_iff hi hj, hf.members_ssubset_iff hj hi, Set.disjoint_iff_inter_eq_empty]
  rcases Set.eq_empty_or_nonempty (forest.members i ∩ forest.members j) with hempty | ⟨x, hx, hx'⟩
  · exact .inl hempty
  · have hhk : h ≠ k := by
      rintro rfl
      exact hne (hf.distinct hi hj)
    rcases ((hf.mem_members hi).mp hx).total ((hf.mem_members hj).mp hx') with hin | hin
    · exact .inr (.inr ⟨hin, hhk⟩)
    · exact .inr (.inl ⟨hin, hhk.symm⟩)

theorem parent?_eq_some_iff (hi : forest.header? i = some h) :
    forest.parent? i = some p ↔ ∃ q, forest.header? p = some q ∧ InnermostAround R r q h := by
  refine ⟨hf.parent hi, ?_⟩
  rintro ⟨q, hq, haround⟩
  rcases hp : forest.parent? i with _ | p'
  · exact absurd (hf.top hi hp q haround.inLoop) haround.ne
  · obtain ⟨q', hq', haround'⟩ := hf.parent hi hp
    obtain rfl := haround.unique haround'
    rw [hf.distinct hq' hq]

theorem isSmallestAround_iff (hi : forest.header? i = some h) :
    forest.IsSmallestAround p i ↔ ∃ q, forest.header? p = some q ∧ InnermostAround R r q h := by
  constructor
  · rintro ⟨hp, hstrict, hleast⟩
    obtain ⟨q, hq⟩ := mem_ids.mp hp
    obtain ⟨hin, hne⟩ := (hf.members_ssubset_iff hi hq).mp hstrict
    refine ⟨q, hq, hne, hin, fun k hk hkh => ?_⟩
    obtain ⟨j, hj⟩ := hf.found hk.header
    exact (hf.members_subset_iff hq hj).mp
      (hleast j (mem_ids.mpr ⟨k, hj⟩) ((hf.members_ssubset_iff hi hj).mpr ⟨hk, hkh⟩))
  · rintro ⟨q, hq, haround⟩
    refine ⟨mem_ids.mpr ⟨q, hq⟩, (hf.members_ssubset_iff hi hq).mpr ⟨haround.inLoop, haround.ne⟩,
      fun j hj hstrict => ?_⟩
    obtain ⟨k, hk⟩ := mem_ids.mp hj
    obtain ⟨hin, hne⟩ := (hf.members_ssubset_iff hi hk).mp hstrict
    exact (hf.members_subset_iff hq hk).mpr (haround.inside k hin hne)

theorem parent?_eq_none_iff (hi : forest.header? i = some h) :
    forest.parent? i = none ↔ ∀ j ∈ forest.ids, ¬ forest.members i ⊂ forest.members j := by
  constructor
  · intro hp j hj hstrict
    obtain ⟨k, hk⟩ := mem_ids.mp hj
    obtain ⟨hin, hne⟩ := (hf.members_ssubset_iff hi hk).mp hstrict
    exact hne (hf.top hi hp k hin)
  · intro hnone
    apply Option.eq_none_iff_forall_ne_some.mpr
    intro p hp
    obtain ⟨hmem, hstrict, -⟩ := (hf.isSmallestAround_iff hi).mpr (hf.parent hi hp)
    exact hnone p hmem hstrict

theorem around_header (hi : forest.header? i = some h) :
    forest.around h = {j | j ∈ forest.enclosing i} := by
  ext j
  constructor
  · intro hj
    obtain ⟨k, hk⟩ := exists_header?_of_mem_members hj
    exact (hf.mem_enclosing hk hi).mpr ((hf.mem_members hk).mp hj)
  · intro hj
    obtain ⟨k, hk⟩ := hf.orderly.exists_header?_of_mem_enclosing hi hj
    exact (hf.mem_members hk).mpr ((hf.mem_enclosing hk hi).mp hj)

end Lists

namespace Represents

variable (hf : forest.Represents R r)
include hf

theorem depth_eq_encard (hi : forest.header? i = some h) :
    (forest.depth i : ℕ∞) = (forest.around h).encard := by
  rw [hf.depth_eq hi, hf.around_header hi, ← List.coe_toFinset, Set.encard_coe_eq_coe_finsetCard,
    List.toFinset_card_of_nodup (hf.orderly.nodup_enclosing hi)]

end Represents

/-- The given loops, each followed by those inside it, down to `levels` levels. -/
def listing (forest : LoopForest) : Nat → List LoopId → List LoopId
  | 0, _ => []
  | levels + 1, roots => roots.flatMap fun id => id :: forest.listing levels (forest.children id)

/-- No way down from one of the roots has more than `levels` loops: a parent has a smaller number. -/
def LevelsSuffice (forest : LoopForest) (levels : Nat) (roots : List LoopId) : Prop :=
  ∀ root ∈ roots, root ∈ forest.ids ∧ forest.loops.size ≤ levels + root.index

theorem LevelsSuffice.not_mem {roots : List LoopId} (h : forest.LevelsSuffice 0 roots) :
    i ∉ roots := by
  intro hi
  obtain ⟨hmem, hsize⟩ := h i hi
  obtain ⟨k, hk⟩ := mem_ids.mp hmem
  have := lt_size_of_header? hk
  omega

theorem LevelsSuffice.succ {levels : Nat} {roots : List LoopId}
    (h : forest.LevelsSuffice levels roots) : forest.LevelsSuffice (levels + 1) roots := by
  intro root hroot
  obtain ⟨hid, hsize⟩ := h root hroot
  exact ⟨hid, by omega⟩

namespace Represents

variable {levels : Nat} {roots : List LoopId} (hf : forest.Represents R r)
include hf

theorem levelsSuffice_topLevel : forest.LevelsSuffice forest.loops.size forest.topLevel :=
  fun _ hroot => ⟨(hf.mem_topLevel.mp hroot).1, Nat.le_add_right _ _⟩

theorem levelsSuffice_children (h : forest.LevelsSuffice (levels + 1) roots) (hp : p ∈ roots) :
    forest.LevelsSuffice levels (forest.children p) := by
  intro i hi
  have hparent := (hf.mem_children hf.orderly).mp hi
  have hlater := hf.earlier hparent
  have hsize := (h p hp).2
  exact ⟨mem_ids.mpr (exists_header?_of_parent? hparent), by omega⟩

theorem enclosing_total (hid : forest.header? id = some x) (hi : i ∈ forest.enclosing id)
    (hj : j ∈ forest.enclosing id) : i ∈ forest.enclosing j ∨ j ∈ forest.enclosing i := by
  obtain ⟨h, hh⟩ := hf.orderly.exists_header?_of_mem_enclosing hid hi
  obtain ⟨k, hk⟩ := hf.orderly.exists_header?_of_mem_enclosing hid hj
  rw [hf.mem_enclosing hh hk, hf.mem_enclosing hk hh]
  exact ((hf.mem_enclosing hh hid).mp hi).total ((hf.mem_enclosing hk hid).mp hj)

theorem mem_enclosing_iff_child (hi : forest.header? i = some h) :
    p ∈ forest.enclosing i ↔ i = p ∨ ∃ c ∈ forest.children p, c ∈ forest.enclosing i := by
  simp only [hf.mem_children hf.orderly]
  refine hf.climb_induction (Q := fun i _ => p ∈ forest.enclosing i ↔
    i = p ∨ ∃ c, forest.parent? c = some p ∧ c ∈ forest.enclosing i) ?_ ?_ hi
  · intro i h hi htop
    rw [hf.orderly.enclosing_of_top hi htop]
    simp only [List.mem_singleton, exists_eq_right, htop, reduceCtorEq, or_false]
    exact eq_comm
  · intro i h outer q hi hp hq _ ih
    rw [hf.orderly.enclosing_of_parent? hp]
    simp only [List.mem_cons, ih]
    constructor
    · rintro (rfl | rfl | ⟨c, hc, hmem⟩)
      · exact .inl rfl
      · exact .inr ⟨i, hp, .inl rfl⟩
      · exact .inr ⟨c, hc, .inr hmem⟩
    · rintro (rfl | ⟨c, hc, rfl | hmem⟩)
      · exact .inl rfl
      · exact .inr (.inl (Option.some.inj (hp.symm.trans hc)))
      · exact .inr (.inr ⟨c, hc, hmem⟩)

theorem mem_listing (hroots : forest.LevelsSuffice levels roots) :
    i ∈ forest.listing levels roots ↔
      i ∈ forest.ids ∧ ∃ root ∈ roots, root ∈ forest.enclosing i := by
  induction levels generalizing roots with
  | zero =>
      refine iff_of_false List.not_mem_nil ?_
      rintro ⟨-, root, hroot, -⟩
      exact hroots.not_mem hroot
  | succ levels ih =>
      rw [listing, List.mem_flatMap]
      constructor
      · rintro ⟨root, hroot, hi⟩
        have hmem : i ∈ forest.ids ∧
            (i = root ∨ ∃ c ∈ forest.children root, c ∈ forest.enclosing i) := by
          rcases List.mem_cons.mp hi with rfl | hi
          · exact ⟨(hroots i hroot).1, .inl rfl⟩
          · obtain ⟨hid, hchild⟩ := (ih (hf.levelsSuffice_children hroots hroot)).mp hi
            exact ⟨hid, .inr hchild⟩
        obtain ⟨h, hh⟩ := mem_ids.mp hmem.1
        exact ⟨hmem.1, root, hroot, (hf.mem_enclosing_iff_child hh).mpr hmem.2⟩
      · rintro ⟨hid, root, hroot, hi⟩
        obtain ⟨h, hh⟩ := mem_ids.mp hid
        refine ⟨root, hroot, List.mem_cons.mpr ?_⟩
        rcases (hf.mem_enclosing_iff_child hh).mp hi with rfl | hchild
        · exact .inl rfl
        · exact .inr ((ih (hf.levelsSuffice_children hroots hroot)).mpr ⟨hid, hchild⟩)

theorem not_mem_enclosing_parent (hi : forest.parent? i = some p) : i ∉ forest.enclosing p := by
  intro hip
  obtain ⟨h, hh⟩ := exists_header?_of_parent? hi
  obtain ⟨q, hq, -⟩ := hf.parent hh hi
  have hpi : p ∈ forest.enclosing i := by
    rw [hf.orderly.enclosing_of_parent? hi]
    exact List.mem_cons_of_mem _ (hf.orderly.self_mem_enclosing hq)
  obtain rfl := hf.orderly.enclosing_antisymm hh hpi hip
  exact Nat.lt_irrefl _ (hf.earlier hi)

theorem eq_of_siblings (hi : forest.parent? i = some p) (hj : forest.parent? j = some p)
    (hij : i ∈ forest.enclosing j) : i = j := by
  rw [hf.orderly.enclosing_of_parent? hj, List.mem_cons] at hij
  exact hij.resolve_right (hf.not_mem_enclosing_parent hi)

theorem nodup_listing (hroots : forest.LevelsSuffice levels roots) (hnodup : roots.Nodup)
    (hapart : ∀ i ∈ roots, ∀ j ∈ roots, i ∈ forest.enclosing j → i = j) :
    (forest.listing levels roots).Nodup := by
  induction levels generalizing roots with
  | zero => exact List.nodup_nil
  | succ levels ih =>
      have hbelow : ∀ {root}, root ∈ roots → ∀ {i},
          i ∈ root :: forest.listing levels (forest.children root) →
          ∃ h, forest.header? i = some h ∧ root ∈ forest.enclosing i := by
        intro root hroot i hi
        have hone : forest.LevelsSuffice (levels + 1) [root] := by
          intro other hother
          rw [List.mem_singleton.mp hother]
          exact hroots root hroot
        have hi : i ∈ forest.listing (levels + 1) [root] := by
          rwa [listing, List.flatMap_singleton]
        obtain ⟨hid, other, hother, hin⟩ := (hf.mem_listing hone).mp hi
        obtain ⟨h, hh⟩ := mem_ids.mp hid
        exact ⟨h, hh, List.mem_singleton.mp hother ▸ hin⟩
      rw [listing, List.nodup_flatMap]
      constructor
      · intro root hroot
        have hsuffice := hf.levelsSuffice_children hroots hroot
        refine List.nodup_cons.mpr ⟨fun hmem => ?_, ih hsuffice (hf.nodup_children root) ?_⟩
        · obtain ⟨-, c, hc, hin⟩ := (hf.mem_listing hsuffice).mp hmem
          exact hf.not_mem_enclosing_parent ((hf.mem_children hf.orderly).mp hc) hin
        · intro i hi j hj hij
          exact hf.eq_of_siblings ((hf.mem_children hf.orderly).mp hi)
            ((hf.mem_children hf.orderly).mp hj) hij
      · -- A loop behind two roots would have both around it, and one of them would lie in the other.
        refine hnodup.imp_of_mem fun {a b} ha hb hne i hia hib => hne ?_
        obtain ⟨h, hh, ha'⟩ := hbelow ha hia
        obtain ⟨-, -, hb'⟩ := hbelow hb hib
        rcases hf.enclosing_total hh ha' hb' with hab | hba
        · exact hapart a ha b hb hab
        · exact (hapart b hb a ha hba).symm

theorem sublist_listing (hroots : forest.LevelsSuffice levels roots)
    (hi : forest.parent? i = some p) (hp : p ∈ forest.listing levels roots) :
    [p, i].Sublist (forest.listing levels roots) := by
  induction levels generalizing roots with
  | zero => exact absurd hp List.not_mem_nil
  | succ levels ih =>
      rw [listing] at hp ⊢
      obtain ⟨root, hroot, hp⟩ := List.mem_flatMap.mp hp
      have hsuffice := hf.levelsSuffice_children hroots hroot
      refine List.Sublist.trans ?_ (List.sublist_flatten_of_mem (List.mem_map_of_mem hroot))
      rcases List.mem_cons.mp hp with rfl | hp
      · obtain ⟨h, hh⟩ := exists_header?_of_parent? hi
        have hmem : i ∈ forest.listing levels (forest.children p) :=
          (hf.mem_listing hsuffice).mpr ⟨mem_ids.mpr ⟨h, hh⟩, i, (hf.mem_children hf.orderly).mpr hi,
            hf.orderly.self_mem_enclosing hh⟩
        exact (List.singleton_sublist.mpr hmem).cons_cons p
      · exact (ih hsuffice hp).cons root

theorem mem_listing_topLevel :
    i ∈ forest.listing forest.loops.size forest.topLevel ↔ i ∈ forest.ids := by
  rw [hf.mem_listing hf.levelsSuffice_topLevel]
  refine and_iff_left_of_imp fun hid => ?_
  obtain ⟨h, hh⟩ := mem_ids.mp hid
  refine hf.climb_induction (Q := fun i _ => ∃ root ∈ forest.topLevel, root ∈ forest.enclosing i)
    ?_ ?_ hh
  · intro i h hi htop
    exact ⟨i, hf.mem_topLevel.mpr ⟨mem_ids.mpr ⟨h, hi⟩, htop⟩, hf.orderly.self_mem_enclosing hi⟩
  · rintro i h p q - hp - - ⟨root, hroot, hin⟩
    refine ⟨root, hroot, ?_⟩
    rw [hf.orderly.enclosing_of_parent? hp]
    exact List.mem_cons_of_mem _ hin

theorem listing_topLevel_perm :
    (forest.listing forest.loops.size forest.topLevel).Perm forest.ids := by
  have hnodup : (forest.listing forest.loops.size forest.topLevel).Nodup := by
    refine hf.nodup_listing hf.levelsSuffice_topLevel hf.nodup_topLevel ?_
    intro i _ j hj hij
    obtain ⟨hid, htop⟩ := hf.mem_topLevel.mp hj
    obtain ⟨h, hh⟩ := mem_ids.mp hid
    rw [hf.orderly.enclosing_of_top hh htop] at hij
    exact List.mem_singleton.mp hij
  exact (List.perm_ext_iff_of_nodup hnodup (nodup_ids forest)).mpr fun _ => hf.mem_listing_topLevel

theorem listing_succ (hroots : forest.LevelsSuffice levels roots) :
    forest.listing (levels + 1) roots = forest.listing levels roots := by
  induction levels generalizing roots with
  | zero =>
      rw [List.eq_nil_iff_forall_not_mem.mpr fun i => hroots.not_mem]
      rfl
  | succ levels ih =>
      rw [listing, listing]
      refine List.flatMap_congr fun root hroot => ?_
      rw [ih (hf.levelsSuffice_children hroots hroot)]

theorem listing_cons (hroots : forest.LevelsSuffice (levels + 1) (id :: roots)) :
    forest.listing (levels + 1) (id :: roots) =
      id :: forest.listing (levels + 1) (forest.children id ++ roots) := by
  have hchildren := hf.listing_succ (hf.levelsSuffice_children hroots List.mem_cons_self)
  calc forest.listing (levels + 1) (id :: roots)
      = id :: (forest.listing levels (forest.children id) ++ forest.listing (levels + 1) roots) := by
        rw [listing, listing, List.flatMap_cons, List.cons_append]
    _ = id :: (forest.listing (levels + 1) (forest.children id) ++
          forest.listing (levels + 1) roots) := by rw [hchildren]
    _ = id :: forest.listing (levels + 1) (forest.children id ++ roots) := by
        rw [listing, listing, listing, List.flatMap_append]

/-- The walk with a stack lists the loops on it, each followed by those inside it. -/
theorem preorderFrom_eq {steps : Nat} {stack : List LoopId}
    (hstack : forest.LevelsSuffice (levels + 1) stack)
    (hsteps : (forest.listing (levels + 1) stack).length ≤ steps) :
    forest.preorderFrom steps stack = .ok (forest.listing (levels + 1) stack) := by
  induction steps generalizing stack with
  | zero =>
      rcases stack with _ | ⟨id, stack⟩
      · rfl
      · simp [listing] at hsteps
  | succ steps ih =>
      rcases stack with _ | ⟨id, stack⟩
      · rfl
      · obtain ⟨h, hh⟩ := mem_ids.mp (hstack id List.mem_cons_self).1
        obtain ⟨l, hl, -⟩ := header?_eq_some.mp hh
        have hnext : forest.LevelsSuffice (levels + 1) (forest.children id ++ stack) := by
          intro root hroot
          rcases List.mem_append.mp hroot with hroot | hroot
          · exact (hf.levelsSuffice_children hstack List.mem_cons_self).succ root hroot
          · exact hstack root (List.mem_cons_of_mem _ hroot)
        rw [hf.listing_cons hstack, List.length_cons] at hsteps
        rw [preorderFrom, loop_eq_ok.mpr hl, ok_bind, ← children_of hl,
          ih hnext (Nat.le_of_succ_le_succ hsteps), hf.listing_cons hstack]
        rfl

theorem exists_preorder : ∃ order, forest.preorder = .ok order ∧ order.Perm forest.ids ∧
    ∀ i p, forest.parent? i = some p → [p, i].Sublist order := by
  have hperm := hf.listing_topLevel_perm
  refine ⟨forest.listing forest.loops.size forest.topLevel, ?_, hperm, fun i p hi => ?_⟩
  · have hlength : (forest.listing forest.loops.size forest.topLevel).length = forest.loops.size := by
      rw [hperm.length_eq, ids, List.length_map, List.length_range]
    have hsuffice := hf.levelsSuffice_topLevel
    rw [preorder, ← hf.listing_succ hsuffice]
    refine hf.preorderFrom_eq hsuffice.succ ?_
    rw [hf.listing_succ hsuffice, hlength]
  · obtain ⟨q, hq⟩ := hf.orderly.exists_header?_parent hi
    exact hf.sublist_listing hf.levelsSuffice_topLevel hi
      (hf.mem_listing_topLevel.mpr (mem_ids.mpr ⟨q, hq⟩))

theorem innermost?_eq_none_iff : forest.innermost? x = none ↔ forest.around x = ∅ := by
  rw [Set.eq_empty_iff_forall_notMem]
  constructor
  · intro hnone j hj
    obtain ⟨k, hk⟩ := exists_header?_of_mem_members hj
    exact hf.outside hnone k ((hf.mem_members hk).mp hj)
  · intro hempty
    apply Option.eq_none_iff_forall_ne_some.mpr
    intro i hi
    obtain ⟨h, hh, hinner⟩ := hf.innermost hi
    exact hempty i ((hf.mem_members hh).mpr hinner.inLoop)

theorem innermost?_eq_some_iff :
    forest.innermost? x = some i ↔
      x ∈ forest.members i ∧ ∀ j, x ∈ forest.members j → j ≠ i → forest.depth j < forest.depth i := by
  have hdeepest : ∀ {i}, forest.innermost? x = some i → x ∈ forest.members i ∧
      ∀ j, x ∈ forest.members j → j ≠ i → forest.depth j < forest.depth i := by
    intro i hi
    obtain ⟨h, hh, hinner⟩ := hf.innermost hi
    refine ⟨(hf.mem_members hh).mpr hinner.inLoop, fun j hj hne => ?_⟩
    obtain ⟨k, hk⟩ := exists_header?_of_mem_members hj
    refine hf.depth_lt hk hh (hinner.inside k ((hf.mem_members hk).mp hj)) ?_
    rintro rfl
    exact hne (hf.distinct hk hh)
  refine ⟨hdeepest, ?_⟩
  rintro ⟨hmem, hall⟩
  rcases hx : forest.innermost? x with _ | i'
  · have hmem' : i ∈ forest.around x := hmem
    rw [hf.innermost?_eq_none_iff.mp hx] at hmem'
    exact absurd hmem' (Set.notMem_empty i)
  · obtain ⟨hmem', hall'⟩ := hdeepest hx
    by_contra hne
    have hne : i' ≠ i := fun heq => hne (congrArg some heq)
    exact Nat.lt_asymm (hall i' hmem' hne) (hall' i hmem hne.symm)

theorem exists_blockDepth (x : BlockId) :
    ∃ n, forest.blockDepth x = .ok n ∧ (n : ℕ∞) = (forest.around x).encard := by
  rw [blockDepth]
  rcases hx : forest.innermost? x with _ | i
  · refine ⟨0, rfl, ?_⟩
    rw [hf.innermost?_eq_none_iff.mp hx, Set.encard_empty]
    rfl
  · obtain ⟨h, hh, hinner⟩ := hf.innermost hx
    obtain ⟨l, hl, -⟩ := header?_eq_some.mp hh
    have haround : forest.around x = forest.around h := by
      ext j
      constructor
      · intro hj
        obtain ⟨k, hk⟩ := exists_header?_of_mem_members hj
        exact (hf.mem_members hk).mpr (hinner.inLoop_iff.mp ((hf.mem_members hk).mp hj))
      · intro hj
        obtain ⟨k, hk⟩ := exists_header?_of_mem_members hj
        exact (hf.mem_members hk).mpr (hinner.inLoop_iff.mpr ((hf.mem_members hk).mp hj))
    simp only [loop_eq_ok.mpr hl, ok_bind, haround, ← hf.depth_eq_encard hh, ← depth_of hl]
    exact ⟨_, rfl, rfl⟩

theorem exists_isHeader (x : BlockId) : ∃ answer, forest.isHeader x = .ok answer ∧
    (answer = true ↔ ∃ i, forest.header? i = some x) := by
  rw [isHeader, hf.closed.headerAround?_eq]
  refine ⟨_, rfl, ?_⟩
  rw [decide_eq_true_iff, hf.innermostHeader?_eq_some]
  constructor
  · exact fun hinner => hf.found hinner.inLoop
  · rintro ⟨i, hi⟩
    exact ⟨hf.heads hi, fun _ hk => hk⟩

end Represents

end LoopForest

/-- The loops of a well-built body with a block nest properly, whether or not its cycles have one
entry each, and the forest answers accordingly. -/
theorem WellBuilt.loops_nested {f : Body} (hf : WellBuilt f) (hne : f.layout ≠ []) :
    ∃ d forest, f.dominators = .ok d ∧ f.loops d = .ok forest ∧
      (∀ i ∈ forest.ids, ∀ j ∈ forest.ids, i ≠ j →
        Disjoint (forest.members i) (forest.members j) ∨
          forest.members i ⊂ forest.members j ∨ forest.members j ⊂ forest.members i) ∧
      (∀ i ∈ forest.ids, ∀ p, forest.parent? i = some p ↔ forest.IsSmallestAround p i) ∧
      (∀ i ∈ forest.ids, forest.parent? i = none ↔
        ∀ j ∈ forest.ids, ¬ forest.members i ⊂ forest.members j) ∧
      (∀ i p, forest.parent? i = some p → p.index < i.index) ∧
      (∀ p, (forest.children p).Nodup ∧ ∀ i, i ∈ forest.children p ↔ forest.parent? i = some p) ∧
      (forest.topLevel.Nodup ∧
        ∀ i, i ∈ forest.topLevel ↔ i ∈ forest.ids ∧ forest.parent? i = none) ∧
      (∀ i h, forest.header? i = some h → (forest.depth i : ℕ∞) = (forest.around h).encard) ∧
      (∀ o ∈ forest.ids, ∀ i ∈ forest.ids, ∃ answer, forest.nested o i = .ok answer ∧
        (answer = true ↔ forest.members i ⊆ forest.members o)) ∧
      (∀ b i, forest.innermost? b = some i ↔ b ∈ forest.members i ∧
        ∀ j, b ∈ forest.members j → j ≠ i → forest.depth j < forest.depth i) ∧
      (∀ b, forest.innermost? b = none ↔ forest.around b = ∅) ∧
      (∀ b, ∃ n, forest.blockDepth b = .ok n ∧ (n : ℕ∞) = (forest.around b).encard) ∧
      (∀ b, ∃ answer, forest.isHeader b = .ok answer ∧
        (answer = true ↔ ∃ i, forest.header? i = some b)) ∧
      ∃ order, forest.preorder = .ok order ∧ order.Perm forest.ids ∧
        ∀ i p, forest.parent? i = some p → [p, i].Sublist order := by
  obtain ⟨entry, rest, hlayout⟩ := List.exists_cons_of_ne_nil hne
  have hentry : f.entry = .ok entry := Body.entry_eq_ok.mpr ⟨rest, hlayout⟩
  obtain ⟨d, hd, hdoms⟩ := hf.consistent.exists_dominators hentry
  obtain ⟨forest, hforest, h⟩ := hf.consistent.exists_loops hentry hdoms
  refine ⟨d, forest, hd, hforest, ?_, ?_, ?_, fun i p => h.earlier,
    fun p => ⟨h.nodup_children p, fun i => h.mem_children h.orderly⟩,
    ⟨h.nodup_topLevel, fun i => h.mem_topLevel⟩, fun i k => h.depth_eq_encard, ?_,
    fun b i => h.innermost?_eq_some_iff, fun b => h.innermost?_eq_none_iff, h.exists_blockDepth,
    h.exists_isHeader, h.exists_preorder⟩
  · intro i hi j hj hij
    obtain ⟨k, hk⟩ := LoopForest.mem_ids.mp hi
    obtain ⟨m, hm⟩ := LoopForest.mem_ids.mp hj
    exact h.disjoint_or_ssubset hk hm hij
  · intro i hi p
    obtain ⟨k, hk⟩ := LoopForest.mem_ids.mp hi
    rw [h.parent?_eq_some_iff hk, h.isSmallestAround_iff hk]
  · intro i hi
    obtain ⟨k, hk⟩ := LoopForest.mem_ids.mp hi
    exact h.parent?_eq_none_iff hk
  · intro o ho i hi
    obtain ⟨k, hk⟩ := LoopForest.mem_ids.mp ho
    obtain ⟨m, hm⟩ := LoopForest.mem_ids.mp hi
    rw [h.members_subset_iff hm hk]
    exact h.exists_nested hk hm

theorem nestedLoops_loops_nested :
    ∃ d forest inner outer, nestedLoops.dominators = .ok d ∧ nestedLoops.loops d = .ok forest ∧
      forest.header? inner = some ⟨2⟩ ∧ forest.header? outer = some ⟨1⟩ ∧
      forest.members inner ⊂ forest.members outer ∧ forest.nested outer inner = .ok true ∧
      ∃ p, forest.parent? inner = some p ∧ forest.IsSmallestAround p inner ∧
        p.index < inner.index ∧ inner ∈ forest.children p ∧
        ∃ order, forest.preorder = .ok order ∧ [p, inner].Sublist order := by
  have hbuilt : WellBuilt nestedLoops := wellBuilt_replayed _
  have hentry : nestedLoops.entry = .ok ⟨0⟩ := by cbv
  have hback : Latch nestedLoops.Arc ⟨0⟩ ⟨1⟩ ⟨5⟩ :=
    ⟨⟨1, by cbv⟩, (nestedLoops_dominates_iff (by decide)).mpr (by decide +kernel)⟩
  have hpath : Path nestedLoops.Arc (· ≠ ⟨1⟩) ⟨2⟩ ⟨4⟩ :=
    .step (.root (by decide)) ⟨1, by cbv⟩ (by decide)
  have hin : InLoop nestedLoops.Arc ⟨0⟩ ⟨1⟩ ⟨2⟩ :=
    ⟨⟨5⟩, hback, .inr ⟨nestedLoops_latch.dominates.reaches_left,
      hpath.step ⟨1, by cbv⟩ (by decide)⟩⟩
  obtain ⟨d, forest, hd, hforest, -, hparent, htop, hearlier, hchildren, -, -, hnested, -, -, -, -,
    order, horder, -, hsub⟩ := WellBuilt.loops_nested hbuilt (by decide +kernel)
  obtain ⟨d', hd', hdoms⟩ := hbuilt.consistent.exists_dominators hentry
  cases hd.symm.trans hd'
  obtain ⟨forest', hforest', h⟩ := hbuilt.consistent.exists_loops hentry hdoms
  cases hforest.symm.trans hforest'
  obtain ⟨inner, hinner⟩ := h.found nestedLoops_latch.inLoop.header
  obtain ⟨outer, houter⟩ := h.found hin.header
  have hi := LoopForest.mem_ids.mpr ⟨_, hinner⟩
  have ho := LoopForest.mem_ids.mpr ⟨_, houter⟩
  have hstrict : forest.members inner ⊂ forest.members outer :=
    (h.members_ssubset_iff hinner houter).mpr ⟨hin, by decide⟩
  obtain ⟨p, hp⟩ : ∃ p, forest.parent? inner = some p :=
    Option.ne_none_iff_exists'.mp fun hnone => (htop inner hi).mp hnone outer ho hstrict
  obtain ⟨answer, hanswer, hiff⟩ := hnested outer ho inner hi
  rw [hiff.mpr hstrict.subset] at hanswer
  exact ⟨d, forest, inner, outer, hd, hforest, hinner, houter, hstrict, hanswer, p, hp,
    (hparent inner hi p).mp hp, hearlier inner p hp, ((hchildren p).2 inner).mpr hp, order, horder,
    hsub inner p hp⟩

end FlowGraph
