import FlowGraph.Proofs.Dominance.Exact

namespace FlowGraph.Tree

variable {t u : Tree} {a b c m n p q : Nat} {l : List Nat} {T U : Array (Option Nat)}

theorem Above.mono (h : Above T a n) (hkept : ∀ {m q}, link T m = some q → link U m = some q) :
    Above U a n := by
  induction h with
  | refl => exact .refl
  | up hlink _ ih => exact .up (hkept hlink) ih

theorem Above.of_not_above (h : Above T a m) (hnot : ¬ Above T n m)
    (hothers : ∀ {k}, k ≠ n → link U k = link T k) : Above U a m := by
  induction h with
  | refl => exact .refl
  | @up m q hlink _ ih =>
      have hne : m ≠ n := by
        rintro rfl
        exact hnot .refl
      exact .up ((hothers hne).trans hlink) (ih fun hq => hnot (.up hlink hq))

theorem exists_upward_of_above (ha : t.parent? a = none) (h : Above t.parents a n) :
    ∃ way, t.Upward n way ∧ (n :: way).getLast? = some a := by
  induction h with
  | refl => exact ⟨[], .stop ha, rfl⟩
  | @up n p hlink _ ih =>
      obtain ⟨way, hway, hlast⟩ := ih
      rcases Classical.em (p = n) with rfl | hne
      · exact ⟨way, hway, hlast⟩
      · refine ⟨p :: way, .step (parent?_eq_some.mpr ⟨hlink, hne⟩) hway, ?_⟩
        rwa [List.getLast?_cons_cons]

theorem Upward.mem_of_above (h : Above t.parents a n) (hway : t.Upward n l) : a ∈ n :: l := by
  induction h generalizing l with
  | refl => exact List.mem_cons_self
  | @up n p hlink _ ih =>
      rcases Classical.em (p = n) with rfl | hne
      · exact ih hway
      · have hparent : t.parent? n = some p := parent?_eq_some.mpr ⟨hlink, hne⟩
        cases hway with
        | stop hnone => simp [hparent] at hnone
        | step hsome hup =>
            cases hparent.symm.trans hsome
            exact List.mem_cons_of_mem n (ih hup)

theorem Upward.above_of_mem (hway : t.Upward n l) (ha : a ∈ n :: l) : Above t.parents a n := by
  induction hway with
  | stop _ =>
      rw [List.mem_singleton.mp ha]
      exact .refl
  | step hparent _ ih =>
      rcases List.mem_cons.mp ha with rfl | ha
      · exact .refl
      · exact .up (parent?_eq_some.mp hparent).1 (ih ha)

theorem root_erase (t : Tree) (n : Nat) : (t.erase n).root = t.root := by
  unfold erase
  split <;> rfl

theorem Above.erase (h : Above t.parents a b) (hp : t.parent? n = some p) (ha : a ≠ n) :
    (b ≠ n → Above (t.erase n).parents a b) ∧ (b = n → Above (t.erase n).parents a p) := by
  have hlink := link?_erase hp
  induction h with
  | refl => exact ⟨fun _ => .refl, fun heq => absurd heq ha⟩
  | @up k q hup _ ih =>
      have hk : t.link? k = some q := hup
      constructor
      · intro hkn
        rcases Classical.em (q = n) with rfl | hqn
        · refine .up ((hlink k).trans ?_) (ih.2 rfl)
          rw [if_neg hkn, if_pos (parent?_eq_some.mpr ⟨hk, Ne.symm hkn⟩)]
        · refine .up ((hlink k).trans ?_) (ih.1 hqn)
          rw [if_neg hkn, if_neg, hk]
          intro hchild
          cases hk.symm.trans (parent?_eq_some.mp hchild).1
          exact hqn rfl
      · rintro rfl
        obtain ⟨hup, hpk⟩ := parent?_eq_some.mp hp
        cases hk.symm.trans hup
        exact ih.1 hpk

theorem Above.of_erase (h : Above (t.erase n).parents a b) (hp : t.parent? n = some p)
    (hb : b ≠ n) : Above t.parents a b := by
  obtain ⟨hup, hpn⟩ := parent?_eq_some.mp hp
  induction h with
  | refl => exact .refl
  | @up k q hlink _ ih =>
      have hk := (link?_erase hp k).symm.trans hlink
      rw [if_neg hb] at hk
      split at hk
      · rename_i hchild
        cases hk
        exact .up (parent?_eq_some.mp hchild).1 (.up hup (ih hpn))
      · rename_i hother
        refine .up hk (ih ?_)
        rintro rfl
        exact hother (parent?_eq_some.mpr ⟨hk, Ne.symm hb⟩)

theorem of_contains_erase (hm : (t.erase n).contains m = true) : m ≠ n ∧ t.contains m = true := by
  rcases hp : t.parent? n with _ | p
  · rw [contains, link?_erase_of_none hp] at hm
    split at hm
    · cases hm
    · exact ⟨‹_›, hm⟩
  · rw [contains, link?_erase hp] at hm
    split at hm
    · cases hm
    · rename_i hmn
      split at hm
      · rename_i hchild
        exact ⟨hmn, contains_of_parent? hchild⟩
      · exact ⟨hmn, hm⟩

/-- The root is its own parent, and every node of the tree comes up to it. -/
structure Rooted (t : Tree) : Prop where
  root : t.link? t.root = some t.root
  above : ∀ {n}, t.contains n = true → Above t.parents t.root n

namespace Rooted

variable (h : t.Rooted)
include h

theorem parent?_root : t.parent? t.root = none := by
  simp [parent?, h.root]

theorem contains_root : t.contains t.root = true := Option.isSome_iff_exists.mpr ⟨_, h.root⟩

theorem contains_iff : t.contains n = true ↔ Above t.parents t.root n := by
  refine ⟨h.above, fun hn => ?_⟩
  cases hn with
  | refl => exact h.contains_root
  | up hlink _ => exact Option.isSome_iff_exists.mpr ⟨_, hlink⟩

theorem contains_of_link? (hlink : t.link? n = some p) : t.contains p = true := by
  have hn : t.contains n = true := Option.isSome_iff_exists.mpr ⟨p, hlink⟩
  cases h.above hn with
  | refl =>
      cases h.root.symm.trans hlink
      exact hn
  | up hup habove =>
      cases hup.symm.trans hlink
      exact h.contains_iff.mpr habove

theorem upward (n : Nat) : t.Upward n (t.ancestors n) := by
  -- A parent has a shorter way up than its child.
  refine upward_ancestors (S := fun m k => ∃ short long, t.Upward m short ∧ t.Upward k long ∧
    short.length < long.length) ?_ ?_ ?_ n
  · rintro a b c ⟨la, lb, hla, hlb, hab⟩ ⟨lb', lc, hlb', hlc, hbc⟩
    obtain rfl := hlb.unique hlb'
    exact ⟨la, lc, hla, hlc, hab.trans hbc⟩
  · rintro a ⟨short, long, hshort, hlong, hlt⟩
    rw [hshort.unique hlong] at hlt
    exact Nat.lt_irrefl _ hlt
  · intro m p hp
    have hcontains := h.contains_of_link? (parent?_eq_some.mp hp).1
    obtain ⟨way, hway, -⟩ := exists_upward_of_above h.parent?_root (h.above hcontains)
    exact ⟨⟨way, p :: way, hway, .step hp hway, Nat.lt_succ_self _⟩, hcontains⟩

theorem getLast?_way (hn : t.contains n = true) : (n :: t.ancestors n).getLast? = some t.root := by
  obtain ⟨way, hway, hlast⟩ := exists_upward_of_above h.parent?_root (h.above hn)
  rwa [← hway.unique (h.upward n)]

theorem ancestors_of_parent? (hp : t.parent? n = some p) : t.ancestors n = p :: t.ancestors p :=
  (h.upward n).unique (.step hp (h.upward p))

theorem exists_parent? (hn : t.contains n = true) (hne : n ≠ t.root) :
    ∃ p, t.parent? n = some p := by
  have hlast := h.getLast?_way hn
  cases hway : t.ancestors n with
  | nil =>
      rw [hway] at hlast
      exact absurd (Option.some.inj hlast) hne
  | cons p way =>
      have hup := h.upward n
      rw [hway] at hup
      cases hup with
      | step hp _ => exact ⟨p, hp⟩

theorem link?_eq_none (hn : t.parent? n = none) (hne : n ≠ t.root) : t.link? n = none := by
  by_contra hlink
  obtain ⟨p, hp⟩ := h.exists_parent? (Option.isSome_iff_ne_none.mpr hlink) hne
  simp [hn] at hp

theorem dominates_iff : t.dominates a b = true ↔ Above t.parents a b := by
  rw [dominates, Bool.or_eq_true, decide_eq_true_iff, decide_eq_true_iff, ← List.mem_cons]
  exact ⟨(h.upward b).above_of_mem, fun hab => (h.upward b).mem_of_above hab⟩

theorem length_ancestors_lt (hab : Above t.parents a b) (hne : a ≠ b) :
    (t.ancestors a).length < (t.ancestors b).length := by
  have hmem : a ∈ t.ancestors b :=
    (List.mem_cons.mp ((h.upward b).mem_of_above hab)).resolve_left hne
  obtain ⟨j, hj⟩ := List.mem_iff_getElem?.mp hmem
  have hlength := add_length_way h.upward (n := b) (j := j + 1) hj
  simp only [List.length_cons] at hlength
  omega

theorem above_antisymm (hab : Above t.parents a b) (hba : Above t.parents b a) : a = b := by
  by_contra hne
  exact Nat.lt_asymm (h.length_ancestors_lt hab hne) (h.length_ancestors_lt hba (Ne.symm hne))

theorem depth?_of_parent? (hp : t.parent? n = some p) :
    ∃ k, t.depth? p = some k ∧ t.depth? n = some (k + 1) := by
  refine ⟨(t.ancestors p).length, ?_, ?_⟩
  · rw [depth?, if_pos (h.contains_of_link? (parent?_eq_some.mp hp).1)]
  · rw [depth?, if_pos (contains_of_parent? hp), h.ancestors_of_parent? hp, List.length_cons]

theorem depth?_root : t.depth? t.root = some 0 := by
  rw [depth?, if_pos h.contains_root, (h.upward t.root).unique (.stop h.parent?_root)]
  rfl

/-- Two nodes of the tree meet at the lowest node above both. -/
theorem meet?_lowest (ha : t.contains a = true) (hb : t.contains b = true) :
    ∃ c, t.meet? a b = some c ∧ Above t.parents c a ∧ Above t.parents c b ∧
      ∀ k, Above t.parents k a → Above t.parents k b → Above t.parents k c := by
  obtain ⟨c, hmeet, hca, hcb, hlowest⟩ := exists_meet? h.upward ha hb
    ((h.upward a).mem_of_above (h.above ha)) ((h.upward b).mem_of_above (h.above hb))
  refine ⟨c, hmeet, (h.upward a).above_of_mem hca, (h.upward b).above_of_mem hcb, fun k hka hkb => ?_⟩
  exact (h.upward c).above_of_mem
    (hlowest k ((h.upward a).mem_of_above hka) ((h.upward b).mem_of_above hkb))

theorem insert (hp : t.contains p = true) (hrun : t.insert n p = .ok u) : u.Rooted := by
  have hlink := link?_insert hrun
  obtain ⟨hnew, hu⟩ := insert_eq_ok.mp hrun
  have hroot : u.root = t.root := by rw [hu]
  have hkept : ∀ {m q}, t.link? m = some q → u.link? m = some q := by
    intro m q hm
    rw [hlink, if_neg, hm]
    rintro rfl
    simp [contains, hm] at hnew
  have hold : ∀ {m}, t.contains m = true → Above u.parents t.root m := fun hm =>
    (h.above hm).mono hkept
  refine ⟨by rw [hroot, hkept h.root], fun {m} hm => ?_⟩
  rw [hroot]
  rcases Classical.em (m = n) with rfl | hne
  · exact .up ((hlink m).trans (if_pos rfl)) (hold hp)
  · rw [contains, hlink, if_neg hne] at hm
    exact hold hm

theorem reparent (hp : t.contains p = true) (hrun : t.reparent n p = .ok u) : u.Rooted := by
  have hlink := link?_reparent hrun
  obtain ⟨hn, hnot, hu⟩ := reparent_eq_ok.mp hrun
  have hroot : u.root = t.root := by rw [hu]
  have hnotAbove : ¬ Above t.parents n p := by
    rw [← h.dominates_iff, hnot]
    exact Bool.false_ne_true
  have hne : t.root ≠ n := by
    rintro rfl
    exact hnotAbove (h.above hp)
  -- The new parent does not lie below the node, so its way up is untouched.
  have hmoved : Above u.parents t.root n := by
    refine .up ((hlink n).trans (if_pos rfl)) ((h.above hp).of_not_above hnotAbove fun {k} hk => ?_)
    exact (hlink k).trans (if_neg hk)
  have hall : ∀ {m}, Above t.parents t.root m → Above u.parents t.root m := by
    intro m hm
    induction hm with
    | refl => exact .refl
    | @up m q hq _ ih =>
        rcases Classical.em (m = n) with rfl | hmn
        · exact hmoved
        · exact .up ((hlink m).trans ((if_neg hmn).trans hq)) ih
  refine ⟨by rw [hroot, hlink, if_neg hne, h.root], fun {m} hm => ?_⟩
  rw [hroot]
  rcases Classical.em (m = n) with rfl | hmn
  · exact hmoved
  · rw [contains, hlink, if_neg hmn] at hm
    exact hall (h.above hm)

theorem above_erase_iff (hne : n ≠ t.root) (ha : a ≠ n) (hb : b ≠ n) :
    Above (t.erase n).parents a b ↔ Above t.parents a b := by
  rcases hp : t.parent? n with _ | p
  · -- The node is not in the tree, so nothing happens.
    have hlink : ∀ k, (t.erase n).link? k = t.link? k := by
      intro k
      rw [link?_erase_of_none hp]
      split
      · rename_i hk
        rw [hk, h.link?_eq_none hp hne]
      · rfl
    exact ⟨fun hab => hab.mono fun {k q} hk => (hlink k).symm.trans hk,
      fun hab => hab.mono fun {k q} hk => (hlink k).trans hk⟩
  · exact ⟨fun hab => hab.of_erase hp hb, fun hab => (hab.erase hp ha).1 hb⟩

theorem erase (hne : n ≠ t.root) : (t.erase n).Rooted := by
  have hroot : (t.erase n).link? t.root = some t.root := by
    rcases hp : t.parent? n with _ | p
    · rw [link?_erase_of_none hp, if_neg (Ne.symm hne), h.root]
    · rw [link?_erase hp, if_neg (Ne.symm hne), h.parent?_root, if_neg (by simp), h.root]
  refine ⟨by rw [root_erase, hroot], fun {m} hm => ?_⟩
  obtain ⟨hmn, hm⟩ := of_contains_erase hm
  rw [root_erase]
  exact (h.above_erase_iff hne (Ne.symm hne) hmn).mpr (h.above hm)

theorem contains_erase_iff (hne : n ≠ t.root) :
    (t.erase n).contains m = true ↔ m ≠ n ∧ t.contains m = true := by
  refine ⟨of_contains_erase, fun ⟨hmn, hm⟩ => ?_⟩
  rw [(h.erase hne).contains_iff, root_erase, h.above_erase_iff hne (Ne.symm hne) hmn]
  exact h.above hm

theorem dominates_erase (hne : n ≠ t.root) (ha : a ≠ n) (hb : b ≠ n) :
    (t.erase n).dominates a b = t.dominates a b := by
  rw [Bool.eq_iff_iff, (h.erase hne).dominates_iff, h.dominates_iff, h.above_erase_iff hne ha hb]

end Rooted

end FlowGraph.Tree
