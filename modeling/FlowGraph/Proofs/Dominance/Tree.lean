import Mathlib.Data.List.Nodup
import Mathlib.Data.List.Perm.Subperm
import FlowGraph.Dominators.Forward
import FlowGraph.Proofs.Dominance.Path
import FlowGraph.Proofs.Outcome

namespace FlowGraph

namespace Tree

variable {t u : Tree} {n p : Nat}

theorem parent?_eq_some : t.parent? n = some p ↔ t.link? n = some p ∧ p ≠ n := by
  simp [parent?, Option.filter_eq_some_iff]

theorem lt_size_of_link? (h : t.link? n = some p) : n < t.parents.size := by
  by_contra hn
  rw [link?, Array.getElem?_eq_none (Nat.le_of_not_lt hn)] at h
  cases h

theorem lt_size_of_contains (h : t.contains n = true) : n < t.parents.size := by
  obtain ⟨p, hp⟩ := Option.isSome_iff_exists.mp h
  exact lt_size_of_link? hp

theorem contains_of_parent? (h : t.parent? n = some p) : t.contains n = true :=
  Option.isSome_iff_exists.mpr ⟨p, (parent?_eq_some.mp h).1⟩

/-- The way up from a node is `l`, and ends there. -/
inductive Upward (t : Tree) : Nat → List Nat → Prop
  | stop {n : Nat} (h : t.parent? n = none) : Upward t n []
  | step {n p : Nat} {l : List Nat} (h : t.parent? n = some p) (hup : Upward t p l) :
      Upward t n (p :: l)

theorem Upward.unique {l m : List Nat} (hl : t.Upward n l) (hm : t.Upward n m) : l = m := by
  induction hl generalizing m with
  | stop h =>
      cases hm with
      | stop _ => rfl
      | step h' _ => simp [h] at h'
  | step h _ ih =>
      cases hm with
      | stop h' => simp [h] at h'
      | step h' hup =>
          rw [h] at h'
          cases h'
          rw [ih hup]

theorem Upward.congr {l : List Nat} (h : t.Upward n l) (hparent : ∀ m, u.parent? m = t.parent? m) :
    u.Upward n l := by
  induction h with
  | stop h => exact .stop ((hparent _).trans h)
  | step h _ ih => exact .step ((hparent _).trans h) ih

theorem upward_climb {steps : Nat} (h : (t.climb steps n).length < steps) :
    t.Upward n (t.climb steps n) := by
  induction steps generalizing n with
  | zero => exact absurd h (Nat.not_lt_zero _)
  | succ steps ih =>
      rw [climb] at h ⊢
      rcases hp : t.parent? n with _ | p
      · exact .stop hp
      · simp only [hp, List.length_cons, Nat.add_lt_add_iff_right] at h
        exact .step hp (ih h)

theorem upward_ancestors {S : Nat → Nat → Prop} (htrans : ∀ a b c, S a b → S b c → S a c)
    (hirrefl : ∀ a, ¬ S a a) (hparent : ∀ m p, t.parent? m = some p → S p m ∧ t.contains p = true)
    (n : Nat) : t.Upward n (t.ancestors n) := by
  have hclimb : ∀ steps m, (m :: t.climb steps m).Nodup ∧
      ∀ a ∈ t.climb steps m, S a m ∧ t.contains a = true := by
    intro steps
    induction steps with
    | zero => exact fun m => ⟨List.nodup_singleton m, fun a ha => absurd ha List.not_mem_nil⟩
    | succ steps ih =>
        intro m
        rw [climb]
        rcases hp : t.parent? m with _ | p
        · exact ⟨List.nodup_singleton m, fun a ha => absurd ha List.not_mem_nil⟩
        · obtain ⟨hnodup, habove⟩ := ih p
          obtain ⟨hS, hcontains⟩ := hparent m p hp
          have hall : ∀ a ∈ p :: t.climb steps p, S a m ∧ t.contains a = true := by
            rw [List.forall_mem_cons]
            exact ⟨⟨hS, hcontains⟩, fun a ha => ⟨htrans a p m (habove a ha).1 hS, (habove a ha).2⟩⟩
          exact ⟨List.nodup_cons.mpr ⟨fun hm => hirrefl m (hall m hm).1, hnodup⟩, hall⟩
  rcases hn : t.parent? n with _ | p
  · have hnil : t.ancestors n = [] := by
      rw [ancestors]
      rcases t.parents.size with _ | steps
      · rfl
      · rw [climb, hn]
    rw [hnil]
    exact .stop hn
  · obtain ⟨hnodup, habove⟩ := hclimb t.parents.size n
    have hbound : ∀ a ∈ n :: t.climb t.parents.size n, a ∈ List.range t.parents.size := by
      rw [List.forall_mem_cons]
      simp only [List.mem_range]
      exact ⟨lt_size_of_contains (contains_of_parent? hn),
        fun a ha => lt_size_of_contains (habove a ha).2⟩
    have hlength := (hnodup.subperm hbound).length_le
    rw [List.length_range, List.length_cons] at hlength
    exact upward_climb hlength

theorem filter_range_eq {q : Nat → Bool} {m k : Nat} (h : ∀ c, q c = true → c < m ∧ c < k) :
    (List.range m).filter q = (List.range k).filter q := by
  have hextra : ∀ base extra, (∀ c, q c = true → c < base) →
      (List.range (base + extra)).filter q = (List.range base).filter q := by
    intro base extra hbase
    rw [List.range_add, List.filter_append, List.append_right_eq_self, List.filter_eq_nil_iff]
    intro c hc hq
    obtain ⟨d, -, rfl⟩ := List.mem_map.mp hc
    have := hbase _ hq
    omega
  rcases Nat.le_total m k with hle | hle
  · rw [← Nat.add_sub_of_le hle, hextra m (k - m) fun c hc => (h c hc).1]
  · rw [← Nat.add_sub_of_le hle, hextra k (m - k) fun c hc => (h c hc).2]

theorem children_congr (hparent : ∀ m, t.parent? m = u.parent? m) (n : Nat) :
    t.children n = u.children n := by
  unfold children
  simp only [hparent]
  apply filter_range_eq
  intro c hc
  rw [decide_eq_true_eq] at hc
  exact ⟨lt_size_of_contains (contains_of_parent? ((hparent c).trans hc)),
    lt_size_of_contains (contains_of_parent? hc)⟩

theorem insert_eq_ok :
    t.insert n p = .ok u ↔
      t.contains n = false ∧ u = { t with parents := (t.roomFor n).setIfInBounds n (some p) } := by
  unfold insert
  rcases t.contains n <;> simp [eq_comm]

theorem link?_insert (h : t.insert n p = .ok u) (m : Nat) :
    u.link? m = if m = n then some p else t.link? m := by
  obtain ⟨-, rfl⟩ := insert_eq_ok.mp h
  have hsize : n < (t.roomFor n).size := by
    simp only [roomFor, Array.size_append, Array.size_replicate]
    omega
  simp only [link?, Array.getElem?_setIfInBounds]
  rcases Classical.em (m = n) with rfl | hne
  · simp [hsize]
  · rw [if_neg (Ne.symm hne), if_neg hne, roomFor, Array.getElem?_append]
    split
    · rfl
    · rename_i hm
      rw [Array.getElem?_eq_none (Nat.le_of_not_lt hm), Array.getElem?_replicate]
      split <;> rfl

theorem reparent_eq_ok :
    t.reparent n p = .ok u ↔
      t.contains n = true ∧ t.dominates n p = false ∧
        u = { t with parents := t.parents.setIfInBounds n (some p) } := by
  unfold reparent
  rcases t.contains n <;> rcases t.dominates n p <;> simp [eq_comm]

theorem link?_reparent (h : t.reparent n p = .ok u) (m : Nat) :
    u.link? m = if m = n then some p else t.link? m := by
  obtain ⟨hcontains, -, rfl⟩ := reparent_eq_ok.mp h
  have hsize := lt_size_of_contains hcontains
  simp only [link?, Array.getElem?_setIfInBounds]
  rcases Classical.em (m = n) with rfl | hne
  · simp [hsize]
  · rw [if_neg (Ne.symm hne), if_neg hne]

theorem getElem?_hoist (parents : Array (Option Nat)) (nodes : List Nat) (p m : Nat) :
    (nodes.foldl (fun ps c => ps.setIfInBounds c (some p)) parents)[m]? =
      if m ∈ nodes ∧ m < parents.size then some (some p) else parents[m]? := by
  induction nodes generalizing parents with
  | nil => simp
  | cons c rest ih =>
      rw [List.foldl_cons, ih, Array.size_setIfInBounds, Array.getElem?_setIfInBounds]
      rcases Classical.em (m = c) with rfl | hne
      · simp only [List.mem_cons, true_or, true_and, if_true]
        rcases Classical.em (m < parents.size) with hlt | hge
        · simp [hlt]
        · simp [hge]
      · simp [hne, Ne.symm hne]

theorem link?_erase (h : t.parent? n = some p) (m : Nat) :
    (t.erase n).link? m =
      if m = n then none else if t.parent? m = some n then some p else t.link? m := by
  have hchild : ∀ c, c ∈ t.children n ↔ t.parent? c = some n := by
    intro c
    simp only [children, List.mem_filter, List.mem_range, decide_eq_true_eq]
    exact ⟨fun hc => hc.2, fun hc => ⟨lt_size_of_contains (contains_of_parent? hc), hc⟩⟩
  unfold erase
  simp only [h, link?, Array.getElem?_setIfInBounds]
  rcases Classical.em (m = n) with rfl | hne
  · simp only [if_true]
    split <;> rfl
  · rw [if_neg (Ne.symm hne), if_neg hne, getElem?_hoist]
    simp only [hchild]
    rcases Classical.em (t.parent? m = some n) with hm | hm
    · rw [if_pos ⟨hm, lt_size_of_contains (contains_of_parent? hm)⟩, if_pos hm]
      rfl
    · rw [if_neg fun hand => hm hand.1, if_neg hm]

theorem link?_erase_of_none (h : t.parent? n = none) (m : Nat) :
    (t.erase n).link? m = if m = n then none else t.link? m := by
  unfold erase
  simp only [h, link?, Array.getElem?_setIfInBounds]
  rcases Classical.em (m = n) with rfl | hne
  · simp only [if_true]
    split <;> rfl
  · rw [if_neg (Ne.symm hne), if_neg hne]

end Tree

namespace Dominators

variable {d e : Dominators} {R : BlockId → BlockId → Prop} {r a b p : BlockId}

/-- The tree has the blocks that can be reached, and knows their immediate dominators. -/
structure Represents (d : Dominators) (R : BlockId → BlockId → Prop) (r : BlockId) : Prop where
  root : d.root = r
  isReachable_iff : ∀ b, d.isReachable b = true ↔ Reaches R r b
  sound : ∀ b p, d.idom? b = some p → ImmediatelyDominates R r p b
  complete : ∀ b, Reaches R r b → b ≠ r → ∃ p, d.idom? b = some p

theorem idom?_eq_some : d.idom? b = some p ↔ d.tree.parent? b.index = some p.index := by
  rw [idom?, Option.map_eq_some_iff]
  constructor
  · rintro ⟨n, hn, rfl⟩
    exact hn
  · intro h
    exact ⟨p.index, h, rfl⟩

namespace Represents

theorem idom?_iff (h : d.Represents R r) : d.idom? b = some p ↔ ImmediatelyDominates R r p b := by
  refine ⟨h.sound b p, fun hp => ?_⟩
  have hne : b ≠ r := by
    rintro rfl
    exact hp.ne hp.dominates.eq_root
  obtain ⟨q, hq⟩ := h.complete b hp.reaches hne
  rw [hq, (h.sound b q hq).unique hp]

theorem eq_root_of_idom?_eq_none (h : d.Represents R r) (hb : d.idom? b = none)
    (hreach : Reaches R r b) : b = r := by
  by_contra hne
  obtain ⟨p, hp⟩ := h.complete b hreach hne
  simp [hb] at hp

theorem upward (h : d.Represents R r) (n : Nat) : d.tree.Upward n (d.tree.ancestors n) := by
  refine Tree.upward_ancestors
    (S := fun m k => Dominates R r ⟨m⟩ ⟨k⟩ ∧ m ≠ k) ?_ (fun m hm => hm.2 rfl) ?_ n
  · rintro m k l ⟨hmk, hne⟩ ⟨hkl, -⟩
    refine ⟨hmk.trans hkl, ?_⟩
    rintro rfl
    exact hne (congrArg BlockId.index (hmk.antisymm hkl))
  · intro m q hq
    have himmediate := h.sound ⟨m⟩ ⟨q⟩ (idom?_eq_some.mpr hq)
    refine ⟨⟨himmediate.dominates, fun heq => himmediate.ne (congrArg BlockId.mk heq)⟩, ?_⟩
    exact (h.isReachable_iff ⟨q⟩).mpr himmediate.reaches_left

theorem mem_ancestors (h : d.Represents R r) :
    a.index ∈ d.tree.ancestors b.index ↔ Dominates R r a b ∧ a ≠ b := by
  have hup : ∀ n l, d.tree.Upward n l → ∀ m, m ∈ l ↔ Dominates R r ⟨m⟩ ⟨n⟩ ∧ m ≠ n := by
    intro n l hl
    induction hl with
    | @stop n hn =>
        intro m
        refine iff_of_false List.not_mem_nil ?_
        rintro ⟨hdom, hne⟩
        have hroot := h.eq_root_of_idom?_eq_none (b := ⟨n⟩) (by simp [idom?, hn]) hdom.reaches
        subst hroot
        exact hne (congrArg BlockId.index hdom.eq_root)
    | @step n q l hq _ ih =>
        intro m
        have himmediate := h.sound ⟨n⟩ ⟨q⟩ (idom?_eq_some.mpr hq)
        rw [List.mem_cons, ih m]
        constructor
        · rintro (rfl | ⟨hdom, hne⟩)
          · exact ⟨himmediate.dominates, fun heq => himmediate.ne (congrArg BlockId.mk heq)⟩
          · refine ⟨hdom.trans himmediate.dominates, ?_⟩
            rintro rfl
            exact hne (congrArg BlockId.index (hdom.antisymm himmediate.dominates))
        · rintro ⟨hdom, hne⟩
          rcases Classical.em (m = q) with heq | hq
          · exact .inl heq
          · refine .inr ⟨himmediate.nearest ⟨m⟩ hdom ?_, hq⟩
            exact fun heq => hne (congrArg BlockId.index heq)
  rw [hup b.index _ (h.upward b.index) a.index]
  refine and_congr_right fun _ => not_congr ?_
  cases a
  cases b
  simp

theorem dominates_iff (h : d.Represents R r) :
    d.dominates a b = true ↔ a = b ∨ Dominates R r a b := by
  simp only [Dominators.dominates, Tree.dominates, Bool.or_eq_true, decide_eq_true_eq,
    h.mem_ancestors]
  have hindex : a.index = b.index ↔ a = b := by
    cases a
    cases b
    simp
  rw [hindex]
  constructor
  · rintro (heq | hdom)
    · exact .inl heq
    · exact .inr hdom.1
  · rintro (heq | hdom)
    · exact .inl heq
    · rcases Classical.em (a = b) with heq | hne
      · exact .inl heq
      · exact .inr ⟨hdom, hne⟩

theorem dominates_iff_of_reaches (h : d.Represents R r) (hb : Reaches R r b) :
    d.dominates a b = true ↔ Dominates R r a b := by
  rw [h.dominates_iff]
  constructor
  · rintro (rfl | hdom)
    · exact .refl hb
    · exact hdom
  · exact .inr

end Represents

/-- Two trees give the same answers. -/
structure Agrees (d e : Dominators) : Prop where
  root : d.root = e.root
  isReachable : ∀ b, d.isReachable b = e.isReachable b
  idom? : ∀ b, d.idom? b = e.idom? b
  children : ∀ b, d.children b = e.children b
  depth? : ∀ b, d.depth? b = e.depth? b
  dominates : ∀ a b, d.dominates a b = e.dominates a b
  nearestCommon? : ∀ a b, d.nearestCommon? a b = e.nearestCommon? a b

/-- The graph settles every answer of the tree. -/
theorem Represents.agrees (hd : d.Represents R r) (he : e.Represents R r) : d.Agrees e := by
  have hidom : ∀ b, d.idom? b = e.idom? b := by
    intro b
    apply Option.ext
    intro p
    rw [hd.idom?_iff, he.idom?_iff]
  have hparent : ∀ n, d.tree.parent? n = e.tree.parent? n := by
    intro n
    apply Option.ext
    intro p
    have := idom?_eq_some (d := d) (b := ⟨n⟩) (p := ⟨p⟩)
    rw [hidom, idom?_eq_some] at this
    exact this.symm
  have hreachable : ∀ b, d.isReachable b = e.isReachable b := by
    intro b
    rw [Bool.eq_iff_iff, hd.isReachable_iff, he.isReachable_iff]
  have hcontains : ∀ n, d.tree.contains n = e.tree.contains n := fun n => hreachable ⟨n⟩
  have hancestors : ∀ n, d.tree.ancestors n = e.tree.ancestors n := fun n =>
    ((hd.upward n).congr fun m => (hparent m).symm).unique (he.upward n)
  refine ⟨hd.root.trans he.root.symm, hreachable, hidom, fun b => ?_, fun b => ?_, fun a b => ?_,
    fun a b => ?_⟩
  · rw [Dominators.children, Dominators.children, Tree.children_congr hparent]
  · simp only [Dominators.depth?, Tree.depth?, hcontains, hancestors]
  · simp only [Dominators.dominates, Tree.dominates, hancestors]
  · simp only [Dominators.nearestCommon?, Tree.meet?, hcontains, hancestors]

end Dominators

end FlowGraph
