import Mathlib.Data.Set.Card
import FlowGraph.Proofs.Dominance.Fresh
import FlowGraph.Proofs.History

namespace FlowGraph

section Way

variable {α : Type} {R : α → α → Prop} {P : α → Prop} {r a x y : α} {way : List α}

/-- `way` lists the nodes passed on the way from `r` to `x`, both ends included. -/
structure IsWay (R : α → α → Prop) (r x : α) (way : List α) : Prop where
  first : way.head? = some r
  last : way.getLast? = some x
  chain : way.IsChain R

theorem IsWay.append_singleton (h : IsWay R r x way) (harc : R x y) : IsWay R r y (way ++ [y]) := by
  refine ⟨?_, ?_, ?_⟩
  · rw [List.head?_append, h.first]
    rfl
  · exact List.getLast?_concat
  · apply h.chain.append (List.isChain_singleton y)
    intro z hz y' hy'
    rw [h.last, Option.mem_some_iff] at hz
    rw [List.head?_singleton, Option.mem_some_iff] at hy'
    rw [← hz, ← hy']
    exact harc

theorem exists_way_iff_path : (∃ way, IsWay R r x way ∧ ∀ y ∈ way, P y) ↔ Path R P r x := by
  constructor
  · rintro ⟨way, hway, hP⟩
    induction way generalizing r with
    | nil => cases hway.first
    | cons z rest ih =>
        obtain rfl : z = r := Option.some.inj hway.first
        rw [List.forall_mem_cons] at hP
        cases rest with
        | nil =>
            obtain rfl : z = x := Option.some.inj hway.last
            exact .root hP.1
        | cons w rest =>
            have harc := List.isChain_cons_cons.mp hway.chain
            apply Path.head hP.1 harc.1
            apply ih _ hP.2
            exact ⟨rfl, by rw [← hway.last, List.getLast?_cons_cons], harc.2⟩
  · intro h
    induction h with
    | root h => exact ⟨[r], ⟨rfl, rfl, List.isChain_singleton r⟩, by simpa using h⟩
    | @step x y _ harc h ih =>
        obtain ⟨way, hway, hP⟩ := ih
        refine ⟨way ++ [y], hway.append_singleton harc, fun z hz => ?_⟩
        rw [List.mem_append, List.mem_singleton] at hz
        rcases hz with hz | rfl
        · exact hP z hz
        · exact h

theorem exists_way_iff : (∃ way, IsWay R r x way) ↔ Reaches R r x := by
  rw [Reaches, ← exists_way_iff_path]
  simp

/-- The nodes on every way from `r` to `x`, if there is one. -/
def dominatorsOf (R : α → α → Prop) (r x : α) : Set α :=
  {a | (∃ way, IsWay R r x way) ∧ ∀ way, IsWay R r x way → a ∈ way}

theorem mem_dominatorsOf : a ∈ dominatorsOf R r x ↔ Dominates R r a x := by
  rw [dominatorsOf, Set.mem_ofPred_eq, exists_way_iff, Dominates, Evades, ← exists_way_iff_path]
  apply and_congr_right
  intro _
  constructor
  · rintro hall ⟨way, hway, havoid⟩
    exact havoid a (hall way hway) rfl
  · intro hnone way hway
    by_contra ha
    exact hnone ⟨way, hway, fun y hy heq => ha (heq ▸ hy)⟩

/-- `p` is in `s`, and all of `s` dominates it. -/
def IsNearest (R : α → α → Prop) (r : α) (s : Set α) (p : α) : Prop :=
  p ∈ s ∧ ∀ q ∈ s, q ∈ dominatorsOf R r p

theorem isNearest_proper_iff :
    IsNearest R r (dominatorsOf R r x \ {x}) a ↔ ImmediatelyDominates R r a x := by
  simp only [IsNearest, Set.mem_sdiff, Set.mem_singleton_iff, mem_dominatorsOf]
  constructor
  · rintro ⟨⟨hdom, hne⟩, hnearest⟩
    exact ⟨hdom, hne, fun q hq hne => hnearest q ⟨hq, hne⟩⟩
  · intro h
    exact ⟨⟨h.dominates, h.ne⟩, fun q hq => h.nearest q hq.1 hq.2⟩

theorem IsNearest.unique {s : Set α} {p q : α} (hp : IsNearest R r s p) (hq : IsNearest R r s q) :
    p = q :=
  (mem_dominatorsOf.mp (hq.2 p hp.1)).antisymm (mem_dominatorsOf.mp (hp.2 q hq.1))

end Way

namespace Tree

variable {t : Tree} {a b m n : Nat} {l : List Nat}

theorem Upward.drop (h : t.Upward n l) {j : Nat} (hj : (n :: l)[j]? = some m) :
    t.Upward m (l.drop j) := by
  induction h generalizing j with
  | @stop n h =>
      cases j with
      | zero =>
          obtain rfl : n = m := Option.some.inj hj
          exact .stop h
      | succ j => cases hj
  | @step n p l h hup ih =>
      cases j with
      | zero =>
          obtain rfl : n = m := Option.some.inj hj
          exact .step h hup
      | succ j => exact ih hj

theorem drop_way (hup : ∀ n, t.Upward n (t.ancestors n)) {j : Nat}
    (hj : (n :: t.ancestors n)[j]? = some m) :
    (n :: t.ancestors n).drop j = m :: t.ancestors m := by
  obtain ⟨hlt, rfl⟩ := List.getElem?_eq_some_iff.mp hj
  rw [List.drop_eq_getElem_cons hlt, List.drop_succ_cons]
  exact congrArg _ (((hup n).drop hj).unique (hup _))

theorem add_length_way (hup : ∀ n, t.Upward n (t.ancestors n)) {j : Nat}
    (hj : (n :: t.ancestors n)[j]? = some m) :
    j + (m :: t.ancestors m).length = (n :: t.ancestors n).length := by
  have hlt := (List.getElem?_eq_some_iff.mp hj).1
  rw [← drop_way hup hj, List.length_drop]
  omega

/-- All that is on the ways up from two nodes is on the way up from their meeting point. -/
theorem exists_meet? (hup : ∀ n, t.Upward n (t.ancestors n)) (ha : t.contains a = true)
    (hb : t.contains b = true) (hma : m ∈ a :: t.ancestors a) (hmb : m ∈ b :: t.ancestors b) :
    ∃ c, t.meet? a b = some c ∧ c ∈ a :: t.ancestors a ∧ c ∈ b :: t.ancestors b ∧
      ∀ k, k ∈ a :: t.ancestors a → k ∈ b :: t.ancestors b → k ∈ c :: t.ancestors c := by
  simp only [meet?, ha, hb, Bool.and_self, if_true]
  generalize hleft : a :: t.ancestors a = left at hma ⊢
  generalize hright : b :: t.ancestors b = right at hmb ⊢
  generalize hpairs : (left.drop (left.length - right.length)).zip
    (right.drop (right.length - left.length)) = pairs
  -- The cut puts a node that is on both ways at the same place of both.
  have haligned : ∀ k, k ∈ left → k ∈ right → ∃ i : Nat, pairs[i]? = some (k, k) := by
    intro k hkleft hkright
    obtain ⟨i, hi⟩ := List.mem_iff_getElem?.mp hkleft
    obtain ⟨j, hj⟩ := List.mem_iff_getElem?.mp hkright
    have hi' : i + (k :: t.ancestors k).length = left.length := by
      rw [← hleft] at hi ⊢
      exact add_length_way hup hi
    have hj' : j + (k :: t.ancestors k).length = right.length := by
      rw [← hright] at hj ⊢
      exact add_length_way hup hj
    refine ⟨i - (left.length - right.length), ?_⟩
    have hposi : left.length - right.length + (i - (left.length - right.length)) = i := by omega
    have hposj : right.length - left.length + (i - (left.length - right.length)) = j := by omega
    rw [← hpairs, List.getElem?_zip_eq_some, List.getElem?_drop, List.getElem?_drop, hposi, hposj]
    exact ⟨hi, hj⟩
  have hfound : (pairs.find? fun pair => pair.1 = pair.2).isSome = true := by
    obtain ⟨i, hi⟩ := haligned m hma hmb
    rw [List.find?_isSome]
    exact ⟨(m, m), List.mem_of_getElem? hi, by simp⟩
  obtain ⟨⟨c, c'⟩, hfind⟩ := Option.isSome_iff_exists.mp hfound
  obtain ⟨heq, i, hlt, hget, hfirst⟩ := List.find?_eq_some_iff_getElem.mp hfind
  obtain rfl : c = c' := by simpa using heq
  have hpair : pairs[i]? = some (c, c) := List.getElem?_eq_some_iff.mpr ⟨hlt, hget⟩
  rw [← hpairs] at hpair
  obtain ⟨hc, hc'⟩ := List.getElem?_zip_eq_some.mp hpair
  rw [List.getElem?_drop] at hc hc'
  refine ⟨c, by rw [hfind]; rfl, List.mem_of_getElem? hc, List.mem_of_getElem? hc', ?_⟩
  intro k hkleft hkright
  obtain ⟨j, hj⟩ := haligned k hkleft hkright
  have hij : i ≤ j := by
    by_contra hij
    have hbefore := hfirst j (Nat.lt_of_not_le hij)
    rw [(List.getElem?_eq_some_iff.mp hj).2] at hbefore
    simp at hbefore
  rw [← hpairs] at hj
  obtain ⟨hk, -⟩ := List.getElem?_zip_eq_some.mp hj
  rw [← hleft] at hc
  rw [← drop_way hup hc, hleft, List.mem_iff_getElem?]
  refine ⟨j - i, ?_⟩
  rw [List.getElem?_drop] at hk ⊢
  rw [← hk]
  congr 1
  omega

end Tree

namespace Dominators.Represents

variable {d : Dominators} {R : BlockId → BlockId → Prop} {r a b : BlockId}

theorem mem_way (h : d.Represents R r) (hb : Reaches R r b) :
    a.index ∈ b.index :: d.tree.ancestors b.index ↔ Dominates R r a b := by
  rw [← h.dominates_iff_of_reaches hb]
  simp [Dominators.dominates, Tree.dominates]

theorem nodup_ancestors (h : d.Represents R r) (n : Nat) : (d.tree.ancestors n).Nodup := by
  have hup : ∀ n l, d.tree.Upward n l → l.Nodup := by
    intro n l hl
    induction hl with
    | stop _ => exact List.nodup_nil
    | @step n p l _ hup ih =>
        rw [List.nodup_cons, hup.unique (h.upward p)]
        exact ⟨fun hp => (h.mem_ancestors (a := ⟨p⟩) (b := ⟨p⟩)).mp hp |>.2 rfl,
          hup.unique (h.upward p) ▸ ih⟩
  exact hup n _ (h.upward n)

theorem depth?_eq (h : d.Represents R r) (hb : Reaches R r b) :
    ∃ n : Nat, d.depth? b = some n ∧ (dominatorsOf R r b \ {b}).encard = n := by
  have hcontains : d.tree.contains b.index = true := (h.isReachable_iff b).mpr hb
  refine ⟨(d.tree.ancestors b.index).length, ?_, ?_⟩
  · rw [Dominators.depth?, Tree.depth?, if_pos hcontains]
  · have hset : dominatorsOf R r b \ {b} =
        Set.image BlockId.mk {n | n ∈ (d.tree.ancestors b.index).toFinset} := by
      ext a
      rw [Set.mem_sdiff, mem_dominatorsOf, Set.mem_singleton_iff, ← ne_eq, ← h.mem_ancestors]
      simp only [List.mem_toFinset, Set.mem_image, Set.mem_ofPred_eq]
      constructor
      · intro ha
        exact ⟨a.index, ha, rfl⟩
      · rintro ⟨n, hn, rfl⟩
        exact hn
    have hinjective : Function.Injective BlockId.mk := fun m n => BlockId.mk.inj
    rw [hset, hinjective.encard_image]
    change ((d.tree.ancestors b.index).toFinset : Set Nat).encard = _
    rw [Set.encard_coe_eq_coe_finsetCard, List.toFinset_card_of_nodup (h.nodup_ancestors _)]

theorem depth?_eq_none (h : d.Represents R r) (hb : ¬ Reaches R r b) : d.depth? b = none := by
  have hcontains : ¬ d.tree.contains b.index = true := fun hc => hb ((h.isReachable_iff b).mp hc)
  rw [Dominators.depth?, Tree.depth?, if_neg hcontains]

theorem nearestCommon?_eq (h : d.Represents R r) (ha : Reaches R r a) (hb : Reaches R r b) :
    ∃ c, d.nearestCommon? a b = some c ∧
      IsNearest R r (dominatorsOf R r a ∩ dominatorsOf R r b) c := by
  have hroot : ∀ x, Reaches R r x → Dominates R r r x := fun x hx =>
    ⟨hx, fun hevades => hevades.first rfl⟩
  obtain ⟨c, hmeet, hca, hcb, hbelow⟩ := Tree.exists_meet? h.upward
    ((h.isReachable_iff a).mpr ha) ((h.isReachable_iff b).mpr hb)
    ((h.mem_way ha).mpr (hroot a ha)) ((h.mem_way hb).mpr (hroot b hb))
  have hcommon : ∀ q, q ∈ dominatorsOf R r a ∩ dominatorsOf R r b ↔
      q.index ∈ a.index :: d.tree.ancestors a.index ∧
        q.index ∈ b.index :: d.tree.ancestors b.index := by
    intro q
    rw [Set.mem_inter_iff, mem_dominatorsOf, mem_dominatorsOf, h.mem_way ha, h.mem_way hb]
  have hc := (hcommon ⟨c⟩).mpr ⟨hca, hcb⟩
  refine ⟨⟨c⟩, by rw [Dominators.nearestCommon?, hmeet]; rfl, hc, fun q hq => ?_⟩
  obtain ⟨hqa, hqb⟩ := (hcommon q).mp hq
  have hreach : Reaches R r ⟨c⟩ := (mem_dominatorsOf.mp hc.1).reaches_left
  exact mem_dominatorsOf.mpr ((h.mem_way hreach).mp (hbelow q.index hqa hqb))

theorem nearestCommon?_eq_none (h : d.Represents R r) (hab : ¬ (Reaches R r a ∧ Reaches R r b)) :
    d.nearestCommon? a b = none := by
  have hcontains : ¬ (d.tree.contains a.index && d.tree.contains b.index) = true := by
    intro hc
    rw [Bool.and_eq_true] at hc
    exact hab ⟨(h.isReachable_iff a).mp hc.1, (h.isReachable_iff b).mp hc.2⟩
  rw [Dominators.nearestCommon?, Tree.meet?, if_neg hcontains]
  rfl

end Dominators.Represents

/-- The dominator tree of a well-built body with a block is graph dominance, whether or not the
blocks are terminated, the cycles have one entry, edges lead into the entry or blocks cannot be
reached. -/
theorem WellBuilt.dominators_exact {f : Body} (hf : WellBuilt f) (hne : f.layout ≠ []) :
    ∃ d entry, f.dominators = .ok d ∧ f.entry = .ok entry ∧ d.root = entry ∧
      (∀ b, d.isReachable b = true ↔ ∃ way, IsWay f.Arc entry b way) ∧
      (∀ a b, d.dominates a b = true ↔ a = b ∨ a ∈ dominatorsOf f.Arc entry b) ∧
      (∀ b, d.isReachable b = true → b ≠ entry → ∃ p, d.idom? b = some p ∧
        ∀ q, IsNearest f.Arc entry (dominatorsOf f.Arc entry b \ {b}) q ↔ q = p) ∧
      (∀ b, d.isReachable b = false ∨ b = entry → d.idom? b = none) ∧
      (∀ b, d.isReachable b = true → ∃ n : Nat, d.depth? b = some n ∧
        (dominatorsOf f.Arc entry b \ {b}).encard = n) ∧
      (∀ b, d.isReachable b = false → d.depth? b = none) ∧
      (∀ a b, d.isReachable a = true → d.isReachable b = true →
        ∃ c, d.nearestCommon? a b = some c ∧ ∀ q,
          IsNearest f.Arc entry (dominatorsOf f.Arc entry a ∩ dominatorsOf f.Arc entry b) q ↔
            q = c) ∧
      ∀ a b, d.isReachable a = false ∨ d.isReachable b = false → d.nearestCommon? a b = none := by
  obtain ⟨entry, rest, hlayout⟩ := List.exists_cons_of_ne_nil hne
  have hentry : f.entry = .ok entry := Body.entry_eq_ok.mpr ⟨rest, hlayout⟩
  obtain ⟨d, hd, h⟩ := hf.consistent.exists_dominators hentry
  have hnot : ∀ b, d.isReachable b = false ↔ ¬ Reaches f.Arc entry b := by
    intro b
    rw [← h.isReachable_iff b, Bool.not_eq_true]
  refine ⟨d, entry, hd, hentry, h.root, ?_, ?_, ?_, ?_, ?_, ?_, ?_, ?_⟩
  · intro b
    rw [h.isReachable_iff, exists_way_iff]
  · intro a b
    rw [h.dominates_iff, mem_dominatorsOf]
  · intro b hb hne
    obtain ⟨p, hp⟩ := h.complete b ((h.isReachable_iff b).mp hb) hne
    refine ⟨p, hp, fun q => ?_⟩
    rw [isNearest_proper_iff, ← h.idom?_iff, hp, Option.some.injEq, eq_comm]
  · intro b hb
    apply Option.eq_none_iff_forall_ne_some.mpr
    intro p hp
    have himmediate := h.sound b p hp
    rcases hb with hb | rfl
    · exact (hnot b).mp hb himmediate.reaches
    · exact himmediate.ne himmediate.dominates.eq_root
  · exact fun b hb => h.depth?_eq ((h.isReachable_iff b).mp hb)
  · exact fun b hb => h.depth?_eq_none ((hnot b).mp hb)
  · intro a b ha hb
    obtain ⟨c, hc, hnearest⟩ :=
      h.nearestCommon?_eq ((h.isReachable_iff a).mp ha) ((h.isReachable_iff b).mp hb)
    refine ⟨c, hc, fun q => ⟨fun hq => hq.unique hnearest, ?_⟩⟩
    rintro rfl
    exact hnearest
  · intro a b hab
    apply h.nearestCommon?_eq_none
    rintro ⟨ha, hb⟩
    rcases hab with hab | hab
    · exact (hnot a).mp hab ha
    · exact (hnot b).mp hab hb

/-- A cycle with two entries, an edge into the entry, a block that is not terminated and one that
cannot be reached. -/
def tangledLoops : Body :=
  replayed [.createBlock, .createBlock, .createBlock, .createBlock, .createBlock,
    .appendInstr ⟨0⟩ (.literal .int (.int 1)),
    .setTerminator ⟨0⟩ (.condBr ⟨0⟩ ⟨1⟩ [] ⟨2⟩ []),
    .setTerminator ⟨1⟩ (.condBr ⟨0⟩ ⟨2⟩ [] ⟨3⟩ []),
    .setTerminator ⟨2⟩ (.condBr ⟨0⟩ ⟨1⟩ [] ⟨0⟩ []),
    .setTerminator ⟨4⟩ (.br ⟨3⟩ [])]

theorem tangledLoops_dominators_exact :
    ∃ d, tangledLoops.dominators = .ok d ∧ d.isReachable ⟨4⟩ = false ∧
      d.idom? ⟨3⟩ = some ⟨1⟩ ∧ d.nearestCommon? ⟨3⟩ ⟨2⟩ = some ⟨0⟩ ∧
      IsNearest tangledLoops.Arc ⟨0⟩ (dominatorsOf tangledLoops.Arc ⟨0⟩ ⟨3⟩ \ {⟨3⟩}) ⟨1⟩ ∧
      (dominatorsOf tangledLoops.Arc ⟨0⟩ ⟨3⟩ \ {⟨3⟩}).encard = 2 := by
  have hbuilt : WellBuilt tangledLoops := wellBuilt_replayed _
  have hne : tangledLoops.layout ≠ [] := by decide +kernel
  obtain ⟨d, entry, hd, hentry, -, -, -, hidom, -, hdepth, -⟩ :=
    WellBuilt.dominators_exact hbuilt hne
  obtain rfl : ⟨0⟩ = entry := by
    have hfirst : tangledLoops.entry = .ok ⟨0⟩ := by cbv
    rw [hfirst] at hentry
    exact Except.ok.inj hentry
  have hread : tangledLoops.dominators.map (fun e => (e.isReachable ⟨4⟩, e.isReachable ⟨3⟩,
      e.idom? ⟨3⟩, e.nearestCommon? ⟨3⟩ ⟨2⟩, e.depth? ⟨3⟩)) =
        .ok (false, true, some ⟨1⟩, some ⟨0⟩, some 2) := by decide +kernel
  rw [hd] at hread
  simp only [Except.map, Except.ok.injEq, Prod.mk.injEq] at hread
  obtain ⟨hfour, hthree, hparent, hcommon, htwo⟩ := hread
  obtain ⟨p, hp, hnearest⟩ := hidom ⟨3⟩ hthree (by decide)
  obtain ⟨n, hn, hcount⟩ := hdepth ⟨3⟩ hthree
  rw [hparent, Option.some.injEq] at hp
  rw [htwo, Option.some.injEq] at hn
  subst hn
  exact ⟨d, hd, hfour, hparent, hcommon, (hnearest ⟨1⟩).mpr hp, hcount⟩

end FlowGraph
