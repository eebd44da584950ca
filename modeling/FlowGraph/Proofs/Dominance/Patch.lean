import FlowGraph.Edit.Split
import FlowGraph.Proofs.Dominance.Fresh
import FlowGraph.Proofs.Dominance.Surgery
import FlowGraph.Proofs.Edit.Merge
import FlowGraph.Proofs.Edit.Split

namespace FlowGraph

namespace Dominators

variable {d d' : Dominators} {R S : BlockId → BlockId → Prop} {r b m s dest x : BlockId}

theorem isReachable_iff_link? : d.isReachable x = true ↔ ∃ p, d.tree.link? x.index = some p :=
  Option.isSome_iff_exists

/-- The tree for a graph with a new node: the old one with a leaf, which may take a node over. -/
theorem Represents.of_detour (h : Detour R S r b m dest) (hd : d.Represents R r)
    (hroot : d'.root = d.root) (hb : Reaches R r b)
    (hreach : ∀ x, d'.isReachable x = true ↔ x = m ∨ d.isReachable x = true)
    (hnew : d'.idom? m = some b) (htarget : Dominates S r m dest → d'.idom? dest = some m)
    (hkept : ∀ x, x ≠ m → (x = dest → ¬ Dominates S r m dest) → d'.idom? x = d.idom? x) :
    d'.Represents S r := by
  refine ⟨hroot.trans hd.root, fun x => ?_, fun x p hp => ?_, fun x hx hne => ?_⟩
  · rw [hreach, hd.isReachable_iff]
    rcases Classical.em (x = m) with rfl | hx
    · exact iff_of_true (.inl rfl) (h.reaches_new_iff.mpr hb)
    · rw [h.reaches_iff hx]
      exact or_iff_right hx
  · rcases Classical.em (x = m) with rfl | hx
    · rw [hnew] at hp
      cases hp
      exact h.immediatelyDominates_new hb
    · rcases Classical.em (x = dest ∧ Dominates S r m dest) with ⟨rfl, hdom⟩ | htaken
      · rw [htarget hdom] at hp
        cases hp
        exact h.immediatelyDominates_target hdom
      · have hfree : x = dest → ¬ Dominates S r m dest := fun heq hdom => htaken ⟨heq, hdom⟩
        rw [hkept x hx hfree] at hp
        exact h.immediatelyDominates (hd.sound x p hp) hfree
  · rcases Classical.em (x = m) with rfl | hxm
    · exact ⟨b, hnew⟩
    · rcases Classical.em (x = dest ∧ Dominates S r m dest) with ⟨rfl, hdom⟩ | htaken
      · exact ⟨m, htarget hdom⟩
      · rw [hkept x hxm fun heq hdom => htaken ⟨heq, hdom⟩]
        exact hd.complete x ((h.reaches_iff hxm).mp hx) hne

theorem Represents.of_unreached_detour (h : Detour R S r b m dest) (hd : d.Represents R r)
    (hb : ¬ Reaches R r b) : d.Represents S r := by
  have hm : ¬ Reaches S r m := fun hm => hb (h.reaches_new_iff.mp hm)
  have hreach : ∀ x, Reaches S r x ↔ Reaches R r x := by
    intro x
    rcases Classical.em (x = m) with rfl | hx
    · exact iff_of_false hm fun hx => h.ne_of_reaches hx rfl
    · exact h.reaches_iff hx
  refine ⟨hd.root, fun x => ?_, fun x p hp => ?_, fun x hx hne => ?_⟩
  · rw [hd.isReachable_iff, hreach]
  · exact h.immediatelyDominates (hd.sound x p hp) fun _ hdom => hm hdom.reaches_left
  · exact hd.complete x ((hreach x).mp hx) hne

theorem idom?_of_link? {n p : Nat} (hlink : ∀ m, d'.tree.link? m =
      if m = n then some p else d.tree.link? m) (hne : p ≠ n) :
    d'.idom? ⟨n⟩ = some ⟨p⟩ ∧ ∀ x, x ≠ ⟨n⟩ → d'.idom? x = d.idom? x := by
  constructor
  · rw [idom?_eq_some, Tree.parent?_eq_some]
    exact ⟨(hlink n).trans (if_pos rfl), hne⟩
  · intro x hx
    have hindex : x.index ≠ n := fun heq => hx (Body.blockId_ext.mp heq)
    rw [idom?, idom?, Tree.parent?, Tree.parent?, hlink, if_neg hindex]

theorem Represents.exists_insert (h : Detour R S r b m dest) (hd : d.Represents R r) :
    ∃ d', d.insert m b = .ok d' ∧ d'.root = d.root ∧
      (∀ x, d'.isReachable x = true ↔ x = m ∨ d.isReachable x = true) ∧
      d'.idom? m = some b ∧ ∀ x, x ≠ m → d'.idom? x = d.idom? x := by
  have hfree : d.tree.contains m.index = false := by
    rw [← Bool.not_eq_true]
    exact fun hm => h.ne_of_reaches ((hd.isReachable_iff m).mp hm) rfl
  obtain ⟨t, ht⟩ : ∃ t, d.tree.insert m.index b.index = .ok t :=
    ⟨_, Tree.insert_eq_ok.mpr ⟨hfree, rfl⟩⟩
  have hlink := Tree.link?_insert ht
  have hroot : t.root = d.tree.root := by
    rw [(Tree.insert_eq_ok.mp ht).2]
  refine ⟨⟨d.owner, t⟩, ?_, congrArg BlockId.mk hroot, fun x => ?_, ?_⟩
  · rw [insert, ht, ok_bind]
    rfl
  · rw [isReachable_iff_link?, hlink, isReachable_iff_link?, ← Body.blockId_ext]
    split <;> simp [*]
  · exact idom?_of_link? hlink fun heq => h.source_ne (Body.blockId_ext.mp heq)

theorem Represents.exists_reparent (h : Detour R S r b m dest)
    (hd : d.Represents (fun x y => R x y ∨ x = b ∧ y = m) r) (hdom : Dominates S r m dest) :
    ∃ d', d.reparent dest m = .ok d' ∧ d'.root = d.root ∧
      (∀ x, d'.isReachable x = true ↔ d.isReachable x = true) ∧
      d'.idom? dest = some m ∧ ∀ x, x ≠ dest → d'.idom? x = d.idom? x := by
  have hreach : Reaches R r dest := (h.reaches_iff h.target_ne).mp hdom.reaches
  have hcontains : d.tree.contains dest.index = true :=
    (hd.isReachable_iff dest).mpr ((h.stub.reaches_iff h.target_ne).mpr hreach)
  have hbelow : d.tree.dominates dest.index m.index = false := by
    rw [← Bool.not_eq_true]
    intro hdest
    rcases hd.dominates_iff.mp hdest with heq | hdest
    · exact h.target_ne heq
    · exact h.not_dominates_source hdom ((h.stub.dominates_new_iff h.target_ne).mp hdest)
  obtain ⟨t, ht⟩ : ∃ t, d.tree.reparent dest.index m.index = .ok t :=
    ⟨_, Tree.reparent_eq_ok.mpr ⟨hcontains, hbelow, rfl⟩⟩
  have hlink := Tree.link?_reparent ht
  have hroot : t.root = d.tree.root := by
    rw [(Tree.reparent_eq_ok.mp ht).2.2]
  refine ⟨⟨d.owner, t⟩, ?_, congrArg BlockId.mk hroot, fun x => ?_, ?_⟩
  · rw [reparent, ht, ok_bind]
    rfl
  · rw [isReachable_iff_link?, hlink]
    split
    · rename_i hx
      obtain rfl := Body.blockId_ext.mp hx
      exact iff_of_true ⟨_, rfl⟩ hcontains
    · exact isReachable_iff_link?.symm
  · exact idom?_of_link? hlink fun heq => h.target_ne (Body.blockId_ext.mp heq).symm

theorem Represents.link?_erase (h : Contraction R S r b s) (hd : d.Represents R r) (n : Nat) :
    (d.erase s).tree.link? n =
      if n = s.index then none
      else if d.tree.parent? n = some s.index then some b.index else d.tree.link? n := by
  rcases hs : d.tree.parent? s.index with _ | p
  · have hunreached : ¬ Reaches R r s := fun hreach =>
      h.root (hd.eq_root_of_idom?_eq_none (by simp [idom?, hs]) hreach).symm
    have hchild : d.tree.parent? n ≠ some s.index := fun hn =>
      hunreached (hd.sound ⟨n⟩ s (idom?_eq_some.mpr hn)).reaches_left
    rw [Dominators.erase, Tree.link?_erase_of_none hs, if_neg hchild]
  · have hp := hd.sound s ⟨p⟩ (idom?_eq_some.mpr hs)
    obtain rfl := hp.unique (h.immediatelyDominates_gone hp.reaches)
    exact Tree.link?_erase hs n

/-- The tree for a graph with a node less: what it dominated goes to the node that took it in. -/
theorem Represents.erase (h : Contraction R S r b s) (hd : d.Represents R r) :
    (d.erase s).Represents S r := by
  have hlink := hd.link?_erase h
  have hroot : (d.erase s).root = d.root := by
    simp only [Dominators.erase, Dominators.root, Tree.erase]
    split <;> rfl
  have hgone : (d.erase s).tree.link? s.index = none := (hlink s.index).trans (if_pos rfl)
  have hchild : ∀ x, d.idom? x = some s → (d.erase s).idom? x = some b := by
    intro x hx
    have hs := hd.sound x s hx
    rw [idom?_eq_some, Tree.parent?_eq_some, hlink,
      if_neg fun heq => hs.ne (Body.blockId_ext.mp heq).symm,
      if_pos (idom?_eq_some.mp hx)]
    exact ⟨rfl, fun heq => (h.immediatelyDominates_of_gone hs).ne (Body.blockId_ext.mp heq)⟩
  have hkept : ∀ x, x ≠ s → d.idom? x ≠ some s → (d.erase s).idom? x = d.idom? x := by
    intro x hx hparent
    rw [idom?, idom?, Tree.parent?, Tree.parent?, hlink,
      if_neg fun heq => hx (Body.blockId_ext.mp heq),
      if_neg fun heq => hparent (idom?_eq_some.mpr heq)]
  refine ⟨hroot.trans hd.root, fun x => ?_, fun x p hp => ?_, fun x hx hne => ?_⟩
  · rcases Classical.em (x = s) with rfl | hx
    · rw [isReachable_iff_link?, hgone]
      exact iff_of_false (by simp) fun hreach => h.ne_of_reaches hreach rfl
    · rw [h.reaches_iff hx, ← hd.isReachable_iff, isReachable_iff_link?, isReachable_iff_link?, hlink,
        if_neg fun heq => hx (Body.blockId_ext.mp heq)]
      split
      · rename_i hparent
        exact iff_of_true ⟨_, rfl⟩ ⟨_, (Tree.parent?_eq_some.mp hparent).1⟩
      · rfl
  · have hx : x ≠ s := by
      rintro rfl
      rw [idom?_eq_some, Tree.parent?_eq_some, hgone] at hp
      cases hp.1
    rcases Classical.em (d.idom? x = some s) with hs | hs
    · rw [hchild x hs] at hp
      cases hp
      exact h.immediatelyDominates_of_gone (hd.sound x s hs)
    · rw [hkept x hx hs] at hp
      refine h.immediatelyDominates (hd.sound x p hp) hx ?_
      rintro rfl
      exact hs hp
  · have hxs := h.ne_of_reaches hx
    rcases Classical.em (d.idom? x = some s) with hs | hs
    · exact ⟨b, hchild x hs⟩
    · rw [hkept x hxs hs]
      exact hd.complete x ((h.reaches_iff hxs).mp hx) hne

end Dominators

namespace Body

variable {f g : Body} {d : Dominators} {b mid dest succ entry : BlockId} {e : Nat}

theorem IsSplit.target?_new (h : f.IsSplit g b e mid dest)
    (htarget : f.target? ⟨b, e⟩ = some dest) : g.target? ⟨mid, 0⟩ = some dest := by
  have hne : (⟨mid, 0⟩ : Edge) ≠ ⟨b, e⟩ := by
    intro heq
    cases heq
    have hlive := isLiveBlock_of_arc ⟨_, htarget⟩
    rw [h.fresh] at hlive
    cases hlive
  rw [h.target, if_neg hne, if_pos rfl]

theorem IsSplit.detour (h : f.IsSplit g b e mid dest) (hf : f.Consistent)
    (htarget : f.target? ⟨b, e⟩ = some dest) (hentry : f.entry = .ok entry) :
    Detour f.Arc g.Arc entry b mid dest := by
  have hne : ∀ {c}, f.isLiveBlock c = true → c ≠ mid := by
    rintro c hc rfl
    simp [h.fresh] at hc
  have hsource : ∀ {x y}, f.Arc x y → x ≠ mid := fun harc => hne (isLiveBlock_of_arc harc)
  have htargets : ∀ {x y}, f.Arc x y → y ≠ mid := fun harc => hne (hf.edges.isLiveBlock_of_arc harc)
  have hbd : f.Arc b dest := ⟨e, htarget⟩
  -- What an edge of the new body can be; the fields of `Detour` are read off this.
  have hcases : ∀ {x y}, g.Arc x y →
      x = b ∧ y = mid ∨ x = mid ∧ y = dest ∨ f.Arc x y := by
    rintro x y ⟨k, hk⟩
    rw [h.target] at hk
    split at hk
    · rename_i hx
      cases hx
      exact .inl ⟨rfl, (Option.some.inj hk).symm⟩
    · split at hk
      · rename_i hx
        cases hx
        exact .inr (.inl ⟨rfl, (Option.some.inj hk).symm⟩)
      · exact .inr (.inr ⟨k, hk⟩)
  have hout : g.Arc mid dest := ⟨0, h.target?_new htarget⟩
  refine ⟨hne (hf.isLiveBlock_entry hentry), hbd, hsource, htargets, ⟨e, ?_⟩, ?_, ?_, ?_, ?_⟩
  · rw [h.target, if_pos rfl]
  · intro x harc
    rcases hcases harc with ⟨rfl, -⟩ | ⟨-, heq⟩ | harc
    · rfl
    · exact absurd heq.symm (htargets hbd)
    · exact absurd rfl (htargets harc)
  · intro y harc
    rcases hcases harc with ⟨heq, -⟩ | ⟨-, rfl⟩ | harc
    · exact absurd heq.symm (hsource hbd)
    · rfl
    · exact absurd rfl (hsource harc)
  · intro x y harc hx hy
    rcases hcases harc with ⟨-, heq⟩ | ⟨heq, -⟩ | harc
    · exact absurd heq hy
    · exact absurd heq hx
    · exact harc
  · rintro x y ⟨k, hk⟩
    rcases Classical.em ((⟨x, k⟩ : Edge) = ⟨b, e⟩) with heq | hedge
    · rw [heq, htarget] at hk
      cases heq
      cases hk
      exact .inr ⟨rfl, rfl, hout⟩
    · refine .inl ⟨k, ?_⟩
      rw [h.target, if_neg hedge, if_neg fun heq => hsource ⟨k, hk⟩ (congrArg Edge.block heq), hk]

/-- The test on the edges into the target tells whether the new block dominates it. -/
theorem IsSplit.takesOver_iff (h : f.IsSplit g b e mid dest) (hf : f.Consistent)
    (htarget : f.target? ⟨b, e⟩ = some dest) (hentry : f.entry = .ok entry)
    (hb : Reaches f.Arc entry b)
    (hd : d.Represents (fun x y => f.Arc x y ∨ x = b ∧ y = mid) entry)
    {data : Block} (hdata : g.block? dest = some data) :
    (data.preds.all fun x => x.block = mid || !d.isReachable x.block ||
      d.dominates dest x.block) = true ↔ Dominates g.Arc entry mid dest := by
  have hdetour := h.detour hf htarget hentry
  have hdest : dest ≠ entry := by
    rintro rfl
    exact h.valid.entry_free (h.entry.mpr hentry) (h.target?_new htarget)
  rw [hdetour.dominates_new_target_iff hdest (hb.step hdetour.arc)]
  have htest : ∀ x, x ≠ mid → ((!d.isReachable x || d.dominates dest x) = true ↔
      (Reaches f.Arc entry x → Dominates f.Arc entry dest x)) := by
    intro x hx
    rw [Bool.or_eq_true, Bool.not_eq_true', ← Bool.not_eq_true, hd.isReachable_iff,
      hdetour.stub.reaches_iff hx, ← imp_iff_not_or]
    refine imp_congr_right fun hreach => ?_
    rw [hd.dominates_iff_of_reaches ((hdetour.stub.reaches_iff hx).mpr hreach),
      hdetour.stub.dominates_iff hdetour.target_ne hx]
  simp only [List.all_eq_true, Bool.or_assoc, Bool.or_eq_true (decide _), decide_eq_true_eq]
  constructor
  · intro hall x harc hx hreach
    obtain ⟨edge, hmem, rfl⟩ := List.mem_map.mp ((h.consistent.edges.mem_preds_iff_arc hdata).mpr harc)
    exact (htest edge.block hx).mp ((hall edge hmem).resolve_left hx) hreach
  · intro hall edge hmem
    rcases Classical.em (edge.block = mid) with heq | hx
    · exact .inl heq
    · refine .inr ((htest edge.block hx).mpr (hall edge.block ?_ hx))
      exact (h.consistent.edges.mem_preds_iff_arc hdata).mp (List.mem_map_of_mem hmem)

/-- The tree follows when a block is put on an edge. -/
theorem IsSplit.exists_afterSplit (h : f.IsSplit g b e mid dest) (hf : f.Consistent)
    (htarget : f.target? ⟨b, e⟩ = some dest) (hentry : f.entry = .ok entry)
    (hd : d.Represents f.Arc entry) :
    ∃ d', d.afterSplit g b mid dest = .ok d' ∧ d'.Represents g.Arc entry := by
  have hdetour := h.detour hf htarget hentry
  rcases hreach : d.isReachable b with _ | _
  · have hb : ¬ Reaches f.Arc entry b := by
      rw [← hd.isReachable_iff, hreach]
      exact Bool.false_ne_true
    refine ⟨d, ?_, hd.of_unreached_detour hdetour hb⟩
    rw [Dominators.afterSplit, hreach]
    rfl
  · have hb : Reaches f.Arc entry b := (hd.isReachable_iff b).mp hreach
    -- The test runs on a tree that has the new block, but not yet the edge that leaves it.
    obtain ⟨d₁, hinsert, hroot, hnodes, hnew, hkept⟩ := hd.exists_insert hdetour
    have hd₁ := hd.of_detour hdetour.stub hroot hb hnodes hnew
      (fun hdom => absurd hdom hdetour.not_dominates_stub) fun x hx _ => hkept x hx
    have hlive : g.isLiveBlock dest = true :=
      (h.live dest).mpr (.inr (hf.edges.isLiveBlock_of_arc hdetour.arc))
    obtain ⟨data, hdata⟩ := isLiveBlock_iff.mp hlive
    have htest := h.takesOver_iff hf htarget hentry hb hd₁ hdata
    have hrun : d.afterSplit g b mid dest =
        if data.preds.all fun x => x.block = mid || !d₁.isReachable x.block ||
          d₁.dominates dest x.block then d₁.reparent dest mid else .ok d₁ := by
      rw [Dominators.afterSplit, hreach, Bool.not_true, if_neg Bool.false_ne_true, hinsert, ok_bind,
        predecessors_eq_ok.mpr ⟨data, hdata, rfl⟩, ok_bind]
      rfl
    rw [hrun]
    rcases Classical.em (Dominates g.Arc entry mid dest) with hdom | hdom
    · rw [if_pos (htest.mpr hdom)]
      obtain ⟨d₂, hreparent, hroot', hnodes', htaken, hkept'⟩ := hd₁.exists_reparent hdetour hdom
      refine ⟨d₂, hreparent, hd.of_detour hdetour (hroot'.trans hroot) hb
        (fun x => (hnodes' x).trans (hnodes x)) ?_ (fun _ => htaken) fun x hx hne => ?_⟩
      · exact (hkept' mid hdetour.target_ne.symm).trans hnew
      · exact (hkept' x fun heq => hne heq hdom).trans (hkept x hx)
    · rw [if_neg fun hall => hdom (htest.mp hall)]
      exact ⟨d₁, rfl, hd.of_detour hdetour hroot hb hnodes hnew (fun hdom' => absurd hdom' hdom)
        fun x hx _ => hkept x hx⟩

theorem contraction_of_target (hroot : entry ≠ succ) (hne : b ≠ succ)
    (hinto : ∀ x, f.target? x = some succ ↔ x = ⟨b, 0⟩)
    (hout : ∀ {k y}, f.target? ⟨b, k⟩ = some y → y = succ)
    (htarget : ∀ x, g.target? x = if x.block = b then f.target? ⟨succ, x.index⟩
      else if x.block = succ then none else f.target? x) :
    Contraction f.Arc g.Arc entry b succ where
  root := hroot
  ne := hne
  arc := ⟨0, (hinto _).mpr rfl⟩
  of_into := by
    rintro x ⟨k, hk⟩
    exact congrArg Edge.block ((hinto _).mp hk)
  of_out := by
    rintro y ⟨k, hk⟩
    exact hout hk
  merged := by
    intro y
    simp only [Arc, htarget, if_true]
  kept := by
    intro x y hb hs
    simp only [Arc, htarget, if_neg hb, if_neg hs]
  gone := by
    rintro y ⟨k, hk⟩
    rw [htarget, if_neg hne.symm, if_pos rfl] at hk
    cases hk

theorem IsMerge.contraction (h : f.IsMerge g b succ) (hentry : f.entry = .ok entry) :
    Contraction f.Arc g.Arc entry b succ := by
  refine contraction_of_target ?_ h.ne h.into h.out h.target
  rintro rfl
  exact h.not_entry hentry

end Body

end FlowGraph
