import FlowGraph.Proofs.Dominance.Surgery

/-!
Natural loops in a rooted graph. A header dominates the latches that lead back to it, and its loop is
what reaches a latch without passing the header. The header of a loop dominates all of it, so two loops
that share a node lie one in the other: the loops around a node form a chain. No property of the graph
is assumed; cycles that can be entered at several places belong to no loop of their own.
-/

namespace FlowGraph

variable {α : Type} {R S : α → α → Prop} {P : α → Prop} {r b d h k l m p s x y : α}

theorem Path.backward {Q : α → Prop} (hpath : Path R P x y)
    (hQ : ∀ {x y}, R x y → P y → Q y → Q x) (hy : Q y) : Q x := by
  induction hpath with
  | root _ => exact hy
  | step _ harc h ih => exact ih (hQ harc h hy)

theorem Path.eq_or_head (hpath : Path R P x y) : x = y ∨ ∃ z, R x z ∧ Path R P z y := by
  induction hpath with
  | root _ => exact .inl rfl
  | @step y z _ harc h ih =>
      rcases ih with rfl | ⟨w, hw, hrest⟩
      · exact .inr ⟨z, harc, .root h⟩
      · exact .inr ⟨w, hw, hrest.step harc h⟩

theorem Dominates.path_within (hhk : Dominates R r h k) (hne : h ≠ k) (hkx : Dominates R r k x) :
    Path R (· ≠ h) k x := by
  have hevades : Evades R r k h := by
    by_contra hnot
    exact hne (hhk.antisymm ⟨hhk.reaches_left, hnot⟩)
  rcases hkx.reaches.after_last k with haround | rfl | ⟨y, harc, htail⟩
  · exact absurd (haround.mono fun _ hz => hz.2) hkx.2
  · exact .root hne.symm
  · rcases htail.after_last h with haround | rfl | ⟨z, hz, hrest⟩
    · exact (haround.mono fun _ hw => hw.2).head hne.symm harc
    · exact absurd (hevades.mono fun _ hw => hw) hkx.2
    · refine absurd (Path.trans (hevades.step hz hrest.first.1.2) ?_) hkx.2
      exact hrest.mono fun _ hw => hw.1.2

/-- There is an arc to `h` from `l`, which `h` dominates. -/
structure Latch (R : α → α → Prop) (r h l : α) : Prop where
  arc : R l h
  dominates : Dominates R r h l

/-- `x` lies in the loop of `h`: it is `h`, or it reaches a latch of `h` without passing `h`. -/
def InLoop (R : α → α → Prop) (r h x : α) : Prop :=
  ∃ l, Latch R r h l ∧ (x = h ∨ Reaches R r x ∧ Path R (· ≠ h) x l)

theorem Latch.inLoop (hl : Latch R r h l) : InLoop R r h l := by
  refine ⟨l, hl, ?_⟩
  rcases Classical.em (l = h) with heq | hne
  · exact .inl heq
  · exact .inr ⟨hl.dominates.reaches, .root hne⟩

theorem inLoop_iff (hh : InLoop R r h h) :
    InLoop R r h x ↔ x = h ∨ Reaches R r x ∧ ∃ l, Latch R r h l ∧ Path R (· ≠ h) x l := by
  constructor
  · rintro ⟨l, hl, heq | ⟨hreach, hpath⟩⟩
    · exact .inl heq
    · exact .inr ⟨hreach, l, hl, hpath⟩
  · rintro (rfl | ⟨hreach, l, hl, hpath⟩)
    · exact hh
    · exact ⟨l, hl, .inr ⟨hreach, hpath⟩⟩

namespace InLoop

theorem header (hx : InLoop R r h x) : InLoop R r h h := by
  obtain ⟨l, hl, -⟩ := hx
  exact ⟨l, hl, .inl rfl⟩

theorem dominates (hx : InLoop R r h x) : Dominates R r h x := by
  obtain ⟨l, hl, rfl | ⟨hreach, hpath⟩⟩ := hx
  · exact .refl hl.dominates.reaches_left
  · exact ⟨hreach, fun hevades => hl.dominates.2 (Path.trans hevades hpath)⟩

theorem reaches (hx : InLoop R r h x) : Reaches R r x := hx.dominates.reaches

theorem of_arc (hy : InLoop R r h y) (hne : y ≠ h) (harc : R x y) (hx : Reaches R r x) :
    InLoop R r h x := by
  obtain ⟨l, hl, rfl | ⟨-, hpath⟩⟩ := hy
  · exact absurd rfl hne
  · rcases Classical.em (x = h) with rfl | hxh
    · exact ⟨l, hl, .inl rfl⟩
    · exact ⟨l, hl, .inr ⟨hx, hpath.head hxh harc⟩⟩

theorem exists_next (hx : InLoop R r h x) (hne : x ≠ h) : ∃ y, R x y ∧ InLoop R r h y := by
  obtain ⟨l, hl, rfl | ⟨hreach, hpath⟩⟩ := hx
  · exact absurd rfl hne
  · rcases hpath.eq_or_head with rfl | ⟨y, harc, hrest⟩
    · exact ⟨h, hl.arc, hl.inLoop.header⟩
    · exact ⟨y, harc, l, hl, .inr ⟨hreach.step harc, hrest⟩⟩

theorem antisymm (hk : InLoop R r h k) (hh : InLoop R r k h) : h = k :=
  hk.dominates.antisymm hh.dominates

theorem of_dominates (hx : InLoop R r h x) (hhk : Dominates R r h k) (hkx : Dominates R r k x) :
    InLoop R r h k := by
  rcases Classical.em (h = k) with rfl | hne
  · exact hx.header
  · obtain ⟨l, hl, rfl | ⟨-, hpath⟩⟩ := hx
    · exact absurd (hhk.antisymm hkx) hne
    · exact ⟨l, hl, .inr ⟨hhk.reaches, (hhk.path_within hne hkx).trans hpath⟩⟩

theorem trans (hk : InLoop R r h k) (hx : InLoop R r k x) : InLoop R r h x := by
  rcases Classical.em (k = h) with rfl | hne
  · exact hx
  have houter : ∀ {y}, InLoop R r k y → y ≠ h := by
    rintro y hy rfl
    exact hne (hy.antisymm hk)
  obtain ⟨l, hl, rfl | ⟨hreach, hpath⟩⟩ := hx
  · exact hk
  · have hlatch : InLoop R r h l := hk.of_arc hne hl.arc hl.dominates.reaches
    -- Backwards from the latch: all nodes on the way lie in the inner loop, so none is the outer header.
    have hback : Reaches R r x → InLoop R r k x ∧ InLoop R r h x := by
      refine hpath.backward (Q := fun y => Reaches R r y → InLoop R r k y ∧ InLoop R r h y) ?_
        fun _ => ⟨hl.inLoop, hlatch⟩
      intro x y harc hyk hy hreach
      obtain ⟨hinner, hyh⟩ := hy (hreach.step harc)
      exact ⟨hinner.of_arc hyk harc hreach, hyh.of_arc (houter hinner) harc hreach⟩
    exact (hback hreach).2

theorem total (hh : InLoop R r h x) (hk : InLoop R r k x) : InLoop R r h k ∨ InLoop R r k h := by
  rcases hh.dominates.total hk.dominates with hdom | hdom
  · exact .inl (hh.of_dominates hdom hk.dominates)
  · exact .inr (hk.of_dominates hdom hh.dominates)

end InLoop

/-- The loop of `h` is the innermost one around `x`. -/
structure Innermost (R : α → α → Prop) (r h x : α) : Prop where
  inLoop : InLoop R r h x
  inside : ∀ k, InLoop R r k x → InLoop R r k h

/-- The loop of `p` is the innermost one around the loop of `h`. -/
structure InnermostAround (R : α → α → Prop) (r p h : α) : Prop where
  ne : p ≠ h
  inLoop : InLoop R r p h
  inside : ∀ k, InLoop R r k h → k ≠ h → InLoop R r k p

theorem Innermost.unique (hh : Innermost R r h x) (hk : Innermost R r k x) : h = k :=
  (hk.inside h hh.inLoop).antisymm (hh.inside k hk.inLoop)

theorem InnermostAround.unique (hp : InnermostAround R r p h) (hk : InnermostAround R r k h) : p = k :=
  (hk.inside p hp.inLoop hp.ne).antisymm (hp.inside k hk.inLoop hk.ne)

theorem Innermost.inLoop_iff (hh : Innermost R r h x) : InLoop R r k x ↔ InLoop R r k h :=
  ⟨hh.inside k, fun hk => hk.trans hh.inLoop⟩

theorem InnermostAround.inLoop_iff (hp : InnermostAround R r p h) :
    InLoop R r k h ↔ (k = h ∧ InLoop R r h h) ∨ InLoop R r k p := by
  constructor
  · intro hk
    rcases Classical.em (k = h) with rfl | hne
    · exact .inl ⟨rfl, hk⟩
    · exact .inr (hp.inside k hk hne)
  · rintro (⟨rfl, hk⟩ | hk)
    · exact hk
    · exact hk.trans hp.inLoop

/-- A loop carries over to a graph where each latch has a counterpart that the node still gets to. -/
theorem InLoop.transfer (hx : InLoop R r h x) (hreach : Reaches R r x → Reaches S r x)
    (hlatch : ∀ {l}, Latch R r h l →
      ∃ l', Latch S r h l' ∧ (Path R (· ≠ h) x l → Path S (· ≠ h) x l')) : InLoop S r h x := by
  obtain ⟨l, hl, hcases⟩ := hx
  obtain ⟨l', hl', hpath'⟩ := hlatch hl
  rcases hcases with rfl | ⟨hrx, hpath⟩
  · exact ⟨l', hl', .inl rfl⟩
  · exact ⟨l', hl', .inr ⟨hreach hrx, hpath' hpath⟩⟩

/-- The loops of the two graphs differ in the node `m` only, which heads none. -/
structure SameLoops (R S : α → α → Prop) (r m : α) : Prop where
  same : ∀ {h x}, x ≠ m → (InLoop S r h x ↔ InLoop R r h x)
  not_header : ∀ {x}, ¬ InLoop R r m x
  not_header' : ∀ {x}, ¬ InLoop S r m x

namespace SameLoops

theorem heads_iff (hsame : SameLoops R S r m) : InLoop S r h h ↔ InLoop R r h h := by
  rcases Classical.em (h = m) with rfl | hne
  · exact iff_of_false hsame.not_header' hsame.not_header
  · exact hsame.same hne

theorem innermost (hsame : SameLoops R S r m) (hx : x ≠ m) (hh : Innermost R r h x) :
    Innermost S r h x := by
  have hne : h ≠ m := by
    rintro rfl
    exact hsame.not_header hh.inLoop
  exact ⟨(hsame.same hx).mpr hh.inLoop, fun k hk =>
    (hsame.same hne).mpr (hh.inside k ((hsame.same hx).mp hk))⟩

theorem innermostAround (hsame : SameLoops R S r m) (hh : InLoop R r h h)
    (hp : InnermostAround R r p h) : InnermostAround S r p h := by
  have hhm : h ≠ m := by
    rintro rfl
    exact hsame.not_header hh
  have hpm : p ≠ m := by
    rintro rfl
    exact hsame.not_header hp.inLoop
  exact ⟨hp.ne, (hsame.same hhm).mpr hp.inLoop, fun k hk hne =>
    (hsame.same hpm).mpr (hp.inside k ((hsame.same hhm).mp hk) hne)⟩

end SameLoops

namespace Detour

theorem from_node (hdetour : Detour R S r b m d) (hx : x ≠ m) : Detour R S x b m d :=
  { hdetour with root := hx }

theorem latch_of (hdetour : Detour R S r b m d) (hl : Latch S r h l) (hh : h ≠ m) :
    l ≠ m ∧ Latch R r h l ∨ l = m ∧ Latch R r h b := by
  rcases Classical.em (l = m) with rfl | hlm
  · obtain rfl := hdetour.of_out hl.arc
    exact .inr ⟨rfl, hdetour.arc, (hdetour.dominates_new_iff hh).mp hl.dominates⟩
  · exact .inl ⟨hlm, hdetour.of_arc hl.arc hlm hh, (hdetour.dominates_iff hh hlm).mp hl.dominates⟩

theorem of_latch (hdetour : Detour R S r b m d) (hl : Latch R r h l) :
    Latch S r h l ∨ l = b ∧ Latch S r h m := by
  have hh : h ≠ m := hdetour.target hl.arc
  rcases hdetour.kept hl.arc with harc | ⟨rfl, rfl, hout⟩
  · exact .inl ⟨harc, (hdetour.dominates_iff hh (hdetour.source hl.arc)).mpr hl.dominates⟩
  · exact .inr ⟨rfl, hout, (hdetour.dominates_new_iff hh).mpr hl.dominates⟩

/-- The new node heads no loop: it is dominated by the only node with an arc to it. -/
theorem not_inLoop_new (hdetour : Detour R S r b m d) : ¬ InLoop S r m x := by
  rintro ⟨l, hl, -⟩
  obtain rfl := hdetour.of_into hl.arc
  have hb : Reaches R r l := (hdetour.reaches_iff hdetour.source_ne).mp hl.dominates.reaches
  exact hdetour.source_ne ((hdetour.immediatelyDominates_new hb).dominates.antisymm hl.dominates)

theorem sameLoops (hdetour : Detour R S r b m d) : SameLoops R S r m := by
  have hforward : ∀ {h x}, x ≠ m → InLoop S r h x → InLoop R r h x := by
    intro h x hx hloop
    have hh : h ≠ m := by
      rintro rfl
      exact hdetour.not_inLoop_new hloop
    refine hloop.transfer (hdetour.reaches_iff hx).mp fun hl => ?_
    rcases hdetour.latch_of hl hh with ⟨hlm, hl⟩ | ⟨rfl, hl⟩
    · exact ⟨_, hl, ((hdetour.from_node hx).path_iff hh.symm hlm).mp⟩
    · exact ⟨_, hl, ((hdetour.from_node hx).path_new_iff hh.symm).mp⟩
  have hback : ∀ {h x}, x ≠ m → InLoop R r h x → InLoop S r h x := by
    intro h x hx hloop
    refine hloop.transfer (hdetour.reaches_iff hx).mpr fun hl => ?_
    have hh : h ≠ m := hdetour.target hl.arc
    rcases hdetour.of_latch hl with hl | ⟨rfl, hl⟩
    · exact ⟨_, hl, (hdetour.from_node hx).of_path hh.symm⟩
    · exact ⟨_, hl, ((hdetour.from_node hx).path_new_iff hh.symm).mpr⟩
  refine ⟨fun hx => ⟨hforward hx, hback hx⟩, ?_, hdetour.not_inLoop_new⟩
  rintro x ⟨l, hl, -⟩
  exact hdetour.target hl.arc rfl

/-- The new node lies in the loops that both ends of the arc lie in. -/
theorem inLoop_new_iff (hdetour : Detour R S r b m d) (hout : S m d) :
    InLoop S r h m ↔ InLoop R r h b ∧ InLoop R r h d := by
  have hsame := hdetour.sameLoops
  constructor
  · intro hm
    have hh : h ≠ m := by
      rintro rfl
      exact hdetour.not_inLoop_new hm
    have hmb : InLoop S r h b :=
      hm.of_arc hh.symm hdetour.into ((hdetour.reaches_iff hdetour.source_ne).mpr
        (hdetour.reaches_new_iff.mp hm.reaches))
    obtain ⟨y, harc, hy⟩ := hm.exists_next hh.symm
    obtain rfl := hdetour.of_out harc
    exact ⟨(hsame.same hdetour.source_ne).mp hmb, (hsame.same hdetour.target_ne).mp hy⟩
  · rintro ⟨hb, hd⟩
    rcases Classical.em (d = h) with rfl | hne
    · exact Latch.inLoop ⟨hout, (hdetour.dominates_new_iff hdetour.target_ne).mpr hb.dominates⟩
    · exact ((hsame.same hdetour.target_ne).mpr hd).of_arc hne hout
        (hdetour.reaches_new_iff.mpr hb.reaches)

end Detour

namespace Contraction

theorem from_node (hgone : Contraction R S r b s) (hx : x ≠ s) : Contraction R S x b s :=
  { hgone with root := hx }

theorem latch_of (hgone : Contraction R S r b s) (hl : Latch R r h l) (hh : h ≠ s) :
    l ≠ s ∧ Latch S r h l ∨ l = s ∧ Latch S r h b := by
  rcases Classical.em (l = s) with rfl | hls
  · have hs := hgone.immediatelyDominates_gone hl.dominates.reaches
    have hb : Dominates R r h b := hs.nearest h hl.dominates hh
    exact .inr ⟨rfl, hgone.merged.mpr hl.arc, (hgone.dominates_iff hh hgone.ne).mpr hb⟩
  · have hlb : l ≠ b := by
      rintro rfl
      exact hh (hgone.of_out hl.arc)
    exact .inl ⟨hls, (hgone.kept hlb hls).mpr hl.arc, (hgone.dominates_iff hh hls).mpr hl.dominates⟩

theorem of_latch (hgone : Contraction R S r b s) (hl : Latch S r h l) :
    Latch R r h l ∨ l = b ∧ Latch R r h s := by
  have hh : h ≠ s := hgone.target_ne hl.arc
  rcases Classical.em (l = b) with rfl | hlb
  · have hb : Dominates R r h l := (hgone.dominates_iff hh hgone.ne).mp hl.dominates
    have hs := hgone.immediatelyDominates_gone (hb.reaches.step hgone.arc)
    exact .inr ⟨rfl, hgone.merged.mp hl.arc, hb.trans hs.dominates⟩
  · have hls : l ≠ s := by
      rintro rfl
      exact hgone.gone hl.arc
    exact .inl ⟨(hgone.kept hlb hls).mp hl.arc, (hgone.dominates_iff hh hls).mp hl.dominates⟩

theorem not_inLoop_gone (hgone : Contraction R S r b s) : ¬ InLoop R r s x := by
  rintro ⟨l, hl, -⟩
  obtain rfl := hgone.of_into hl.arc
  have hs := hgone.immediatelyDominates_gone hl.dominates.reaches_left
  exact hgone.ne (hs.dominates.antisymm hl.dominates)

theorem sameLoops (hgone : Contraction R S r b s) : SameLoops R S r s := by
  have hback : ∀ {h x}, x ≠ s → InLoop R r h x → InLoop S r h x := by
    intro h x hx hloop
    have hh : h ≠ s := by
      rintro rfl
      exact hgone.not_inLoop_gone hloop
    refine hloop.transfer (hgone.reaches_iff hx).mpr fun hl => ?_
    rcases hgone.latch_of hl hh with ⟨hls, hl⟩ | ⟨rfl, hl⟩
    · exact ⟨_, hl, ((hgone.from_node hx).path_iff hh.symm hls).mpr⟩
    · refine ⟨_, hl, fun hpath => ?_⟩
      rcases (hgone.from_node hx).path_of hpath with ⟨hne, -⟩ | ⟨-, hpath⟩
      · exact absurd rfl hne
      · exact hpath
  have hforward : ∀ {h x}, x ≠ s → InLoop S r h x → InLoop R r h x := by
    intro h x hx hloop
    refine hloop.transfer (hgone.reaches_iff hx).mp fun hl => ?_
    have hh : h ≠ s := hgone.target_ne hl.arc
    have hpath {l} : Path S (· ≠ h) x l → Path R (· ≠ h) x l :=
      (hgone.from_node hx).of_path hh.symm
    rcases hgone.of_latch hl with hl | ⟨rfl, hl⟩
    · exact ⟨_, hl, hpath⟩
    · exact ⟨_, hl, fun hb => (hpath hb).step hgone.arc hh.symm⟩
  refine ⟨fun hx => ⟨hforward hx, hback hx⟩, hgone.not_inLoop_gone, ?_⟩
  rintro x ⟨l, hl, -⟩
  exact hgone.target_ne hl.arc rfl

theorem not_inLoop_of_gone (hgone : Contraction R S r b s) : ¬ InLoop S r h s := fun hs =>
  hgone.ne_of_reaches hs.reaches rfl

end Contraction

end FlowGraph
