import FlowGraph.Proofs.Dominance.Path

namespace FlowGraph

variable {α : Type} {R S : α → α → Prop} {P : α → Prop} {r b m d s a p q x y : α}

theorem Path.first_arrival (h : Path R P r d) (hd : d ≠ r) :
    ∃ x, R x d ∧ Path R (fun y => P y ∧ y ≠ d) r x := by
  have hall : ∀ x, Path R P r x →
      Path R (fun y => P y ∧ y ≠ d) r x ∨ ∃ x, R x d ∧ Path R (fun y => P y ∧ y ≠ d) r x := by
    intro x hx
    induction hx with
    | root h => exact .inl (.root ⟨h, Ne.symm hd⟩)
    | @step x y _ harc h ih =>
        rcases ih with ih | ih
        · rcases Classical.em (y = d) with rfl | hne
          · exact .inr ⟨x, harc, ih⟩
          · exact .inl (ih.step harc ⟨h, hne⟩)
        · exact .inr ih
  rcases hall d h with hd | hd
  · exact absurd rfl hd.last.2
  · exact hd

/-- The graph `S` is `R` with a new node `m`, which can be entered from `b` only and left to `d` only.
An arc from `b` to `d` may be gone if `m` leads to `d`. -/
structure Detour (R S : α → α → Prop) (r b m d : α) : Prop where
  root : r ≠ m
  arc : R b d
  source : ∀ {x y}, R x y → x ≠ m
  target : ∀ {x y}, R x y → y ≠ m
  into : S b m
  of_into : ∀ {x}, S x m → x = b
  of_out : ∀ {y}, S m y → y = d
  of_arc : ∀ {x y}, S x y → x ≠ m → y ≠ m → R x y
  kept : ∀ {x y}, R x y → S x y ∨ x = b ∧ y = d ∧ S m d

namespace Detour

theorem ne_of_reaches (h : Detour R S r b m d) (hx : Reaches R r x) : x ≠ m := by
  cases hx with
  | root _ => exact h.root
  | step _ harc _ => exact h.target harc

theorem source_ne (h : Detour R S r b m d) : b ≠ m := h.source h.arc

theorem target_ne (h : Detour R S r b m d) : d ≠ m := h.target h.arc

theorem path_of (h : Detour R S r b m d) (hx : Path S P r x) :
    x ≠ m ∧ Path R P r x ∨ x = m ∧ Path R P r b := by
  induction hx with
  | root hr => exact .inl ⟨h.root, .root hr⟩
  | @step x y _ harc hy ih =>
      rcases Classical.em (y = m) with rfl | hne
      · obtain rfl := h.of_into harc
        rcases ih with ⟨-, ih⟩ | ⟨hx, -⟩
        · exact .inr ⟨rfl, ih⟩
        · exact absurd hx h.source_ne
      · rcases ih with ⟨hx, ih⟩ | ⟨rfl, ih⟩
        · exact .inl ⟨hne, ih.step (h.of_arc harc hx hne) hy⟩
        · obtain rfl := h.of_out harc
          exact .inl ⟨hne, ih.step h.arc hy⟩

theorem of_path (h : Detour R S r b m d) (hm : P m) (hx : Path R P r x) : Path S P r x := by
  induction hx with
  | root hr => exact .root hr
  | step _ harc hy ih =>
      rcases h.kept harc with harc | ⟨rfl, rfl, hout⟩
      · exact ih.step harc hy
      · exact (ih.step h.into hm).step hout hy

theorem path_iff (h : Detour R S r b m d) (hm : P m) (hx : x ≠ m) :
    Path S P r x ↔ Path R P r x := by
  refine ⟨fun hpath => ?_, h.of_path hm⟩
  rcases h.path_of hpath with ⟨-, hpath⟩ | ⟨rfl, -⟩
  · exact hpath
  · exact absurd rfl hx

theorem path_new_iff (h : Detour R S r b m d) (hm : P m) : Path S P r m ↔ Path R P r b := by
  constructor
  · intro hpath
    rcases h.path_of hpath with ⟨hne, -⟩ | ⟨-, hpath⟩
    · exact absurd rfl hne
    · exact hpath
  · exact fun hpath => (h.of_path hm hpath).step h.into hm

theorem reaches_iff (h : Detour R S r b m d) (hx : x ≠ m) : Reaches S r x ↔ Reaches R r x :=
  h.path_iff trivial hx

theorem reaches_new_iff (h : Detour R S r b m d) : Reaches S r m ↔ Reaches R r b :=
  h.path_new_iff trivial

theorem dominates_iff (h : Detour R S r b m d) (ha : a ≠ m) (hx : x ≠ m) :
    Dominates S r a x ↔ Dominates R r a x :=
  and_congr (h.reaches_iff hx) (not_congr (h.path_iff (Ne.symm ha) hx))

theorem dominates_new_iff (h : Detour R S r b m d) (ha : a ≠ m) :
    Dominates S r a m ↔ Dominates R r a b :=
  and_congr h.reaches_new_iff (not_congr (h.path_new_iff (Ne.symm ha)))

theorem dominates_of_new (h : Detour R S r b m d) (hx : Dominates S r m x) (hne : x ≠ m) :
    Dominates S r m d ∧ Dominates S r d x := by
  have hafter : ∃ y, S m y ∧ Path S (fun z => True ∧ z ≠ m) y x := by
    rcases hx.reaches.after_last m with hevades | heq | hafter
    · exact absurd (hevades.mono fun _ hz => hz.2) hx.2
    · exact absurd heq hne
    · exact hafter
  obtain ⟨y, hy, htail⟩ := hafter
  obtain rfl := h.of_out hy
  have hreach : Reaches S r y := hx.reaches_left.step hy
  refine ⟨⟨hreach, fun hevades => hx.2 (hevades.trans (htail.mono fun _ hz => hz.2))⟩, hx.reaches, ?_⟩
  intro hevades
  rcases hevades.after_last m with haround | heq | ⟨z, hz, hrest⟩
  · exact hx.2 (haround.mono fun _ hz => hz.2)
  · exact hne heq
  · obtain rfl := h.of_out hz
    exact hrest.first.1 rfl

/-- The new node dominates the node that it leads to exactly if every other way in comes from
there. -/
theorem dominates_new_target_iff (h : Detour R S r b m d) (hroot : d ≠ r) (hd : Reaches R r d) :
    Dominates S r m d ↔ ∀ x, S x d → x ≠ m → Reaches R r x → Dominates R r d x := by
  constructor
  · intro hdom x harc hx hreach
    have hdom' : Dominates S r m x := hdom.of_arc h.target_ne.symm harc ((h.reaches_iff hx).mpr hreach)
    exact (h.dominates_iff h.target_ne hx).mp (h.dominates_of_new hdom' hx).2
  · intro hall
    refine ⟨(h.reaches_iff h.target_ne).mpr hd, fun hevades => ?_⟩
    obtain ⟨x, harc, hpath⟩ := hevades.first_arrival hroot
    have hx : x ≠ m := hpath.last.1
    have hevades : Evades R r d x :=
      (h.path_iff h.target_ne.symm hx).mp (hpath.mono fun _ hz => hz.2)
    exact (hall x harc hx hevades.reaches).2 hevades

/-- The immediate dominator of a node stays, unless the new node takes its place. -/
theorem immediatelyDominates (h : Detour R S r b m d) (hp : ImmediatelyDominates R r p x)
    (hx : x = d → ¬ Dominates S r m d) : ImmediatelyDominates S r p x := by
  have hpm := h.ne_of_reaches hp.reaches_left
  have hxm := h.ne_of_reaches hp.reaches
  refine ⟨(h.dominates_iff hpm hxm).mpr hp.dominates, hp.ne, fun q hq hne => ?_⟩
  rcases Classical.em (q = m) with rfl | hqm
  · obtain ⟨hqd, hdx⟩ := h.dominates_of_new hq hxm
    have hdp := hp.nearest d ((h.dominates_iff h.target_ne hxm).mp hdx) fun heq => hx heq.symm hqd
    exact hqd.trans ((h.dominates_iff h.target_ne hpm).mpr hdp)
  · exact (h.dominates_iff hqm hpm).mpr (hp.nearest q ((h.dominates_iff hqm hxm).mp hq) hne)

theorem immediatelyDominates_new (h : Detour R S r b m d) (hb : Reaches R r b) :
    ImmediatelyDominates S r b m := by
  refine ⟨(h.dominates_new_iff h.source_ne).mpr (.refl hb), h.source_ne, fun q hq hne => ?_⟩
  exact (h.dominates_iff hne h.source_ne).mpr ((h.dominates_new_iff hne).mp hq)

theorem immediatelyDominates_target (h : Detour R S r b m d) (hd : Dominates S r m d) :
    ImmediatelyDominates S r m d := by
  refine ⟨hd, h.target_ne.symm, fun q hq hne => ?_⟩
  rcases hq.total hd with hqm | hmq
  · exact hqm
  · rcases Classical.em (q = m) with rfl | hqm
    · exact .refl hd.reaches_left
    · exact absurd (hq.antisymm (h.dominates_of_new hmq hqm).2) hne

theorem not_dominates_source (h : Detour R S r b m d) (hd : Dominates S r m d) :
    ¬ Dominates R r d b := by
  intro hdb
  exact h.target_ne (((h.dominates_new_iff h.target_ne).mpr hdb).antisymm hd)

theorem stub (h : Detour R S r b m d) :
    Detour R (fun x y => R x y ∨ x = b ∧ y = m) r b m d where
  root := h.root
  arc := h.arc
  source := h.source
  target := h.target
  into := .inr ⟨rfl, rfl⟩
  of_into := by
    rintro x (harc | ⟨hx, -⟩)
    · exact absurd rfl (h.target harc)
    · exact hx
  of_out := by
    rintro y (harc | ⟨hm, -⟩)
    · exact absurd rfl (h.source harc)
    · exact absurd hm.symm h.source_ne
  of_arc := by
    rintro x y (harc | ⟨-, hy⟩) - hne
    · exact harc
    · exact absurd hy hne
  kept := fun harc => .inl (.inl harc)

theorem not_dominates_stub (h : Detour R S r b m d) :
    ¬ Dominates (fun x y => R x y ∨ x = b ∧ y = m) r m d := by
  intro hdom
  have hd : Reaches R r d := (h.stub.reaches_iff h.target_ne).mp hdom.reaches
  have hall : ∀ x, Reaches R r x → Evades (fun x y => R x y ∨ x = b ∧ y = m) r m x := by
    intro x hx
    induction hx with
    | root _ => exact .root h.root
    | step _ harc _ ih => exact ih.step (.inl harc) (h.target harc)
  exact hdom.2 (hall d hd)

end Detour

/-- The graph `S` is `R` with the node `s` taken into `b`, the only node with an arc to it, which has no
other arc. -/
structure Contraction (R S : α → α → Prop) (r b s : α) : Prop where
  root : r ≠ s
  ne : b ≠ s
  arc : R b s
  of_into : ∀ {x}, R x s → x = b
  of_out : ∀ {y}, R b y → y = s
  merged : ∀ {y}, S b y ↔ R s y
  kept : ∀ {x y}, x ≠ b → x ≠ s → (S x y ↔ R x y)
  gone : ∀ {y}, ¬ S s y

namespace Contraction

theorem target_ne (h : Contraction R S r b s) (harc : S x y) : y ≠ s := by
  rintro rfl
  rcases Classical.em (x = b) with rfl | hx
  · exact h.ne (h.of_into (h.merged.mp harc)).symm
  · rcases Classical.em (x = y) with rfl | hxs
    · exact h.gone harc
    · exact hx (h.of_into ((h.kept hx hxs).mp harc))

theorem ne_of_reaches (h : Contraction R S r b s) (hx : Reaches S r x) : x ≠ s := by
  cases hx with
  | root _ => exact h.root
  | step _ harc _ => exact h.target_ne harc

theorem path_of (h : Contraction R S r b s) (hx : Path R P r x) :
    x ≠ s ∧ Path S P r x ∨ x = s ∧ Path S P r b := by
  induction hx with
  | root hr => exact .inl ⟨h.root, .root hr⟩
  | @step x y _ harc hy ih =>
      rcases Classical.em (y = s) with rfl | hne
      · obtain rfl := h.of_into harc
        rcases ih with ⟨-, ih⟩ | ⟨hx, -⟩
        · exact .inr ⟨rfl, ih⟩
        · exact absurd hx h.ne
      · rcases ih with ⟨hx, ih⟩ | ⟨rfl, ih⟩
        · have hxb : x ≠ b := by
            rintro rfl
            exact hne (h.of_out harc)
          exact .inl ⟨hne, ih.step ((h.kept hxb hx).mpr harc) hy⟩
        · exact .inl ⟨hne, ih.step (h.merged.mpr harc) hy⟩

theorem of_path (h : Contraction R S r b s) (hs : P s) (hx : Path S P r x) : Path R P r x := by
  induction hx with
  | root hr => exact .root hr
  | @step x y _ harc hy ih =>
      rcases Classical.em (x = b) with rfl | hxb
      · exact (ih.step h.arc hs).step (h.merged.mp harc) hy
      · have hxs : x ≠ s := by
          rintro rfl
          exact h.gone harc
        exact ih.step ((h.kept hxb hxs).mp harc) hy

theorem path_iff (h : Contraction R S r b s) (hs : P s) (hx : x ≠ s) :
    Path S P r x ↔ Path R P r x := by
  refine ⟨h.of_path hs, fun hpath => ?_⟩
  rcases h.path_of hpath with ⟨-, hpath⟩ | ⟨rfl, -⟩
  · exact hpath
  · exact absurd rfl hx

theorem reaches_iff (h : Contraction R S r b s) (hx : x ≠ s) : Reaches S r x ↔ Reaches R r x :=
  h.path_iff trivial hx

theorem dominates_iff (h : Contraction R S r b s) (ha : a ≠ s) (hx : x ≠ s) :
    Dominates S r a x ↔ Dominates R r a x :=
  and_congr (h.reaches_iff hx) (not_congr (h.path_iff (Ne.symm ha) hx))

theorem immediatelyDominates_gone (h : Contraction R S r b s) (hs : Reaches R r s) :
    ImmediatelyDominates R r b s := by
  have hb : Reaches R r b := by
    cases hs with
    | root _ => exact absurd rfl h.root
    | step hpath harc _ => exact h.of_into harc ▸ hpath
  refine ⟨Dominates.of_arcs hs h.root.symm fun x harc hx => ?_, h.ne, fun q hq hne => ?_⟩
  · obtain rfl := h.of_into harc
    exact .refl hx
  · exact hq.of_arc hne h.arc hb

theorem immediatelyDominates (h : Contraction R S r b s) (hp : ImmediatelyDominates R r p x)
    (hx : x ≠ s) (hps : p ≠ s) : ImmediatelyDominates S r p x := by
  refine ⟨(h.dominates_iff hps hx).mpr hp.dominates, hp.ne, fun q hq hne => ?_⟩
  have hqs := h.ne_of_reaches hq.reaches_left
  exact (h.dominates_iff hqs hps).mpr (hp.nearest q ((h.dominates_iff hqs hx).mp hq) hne)

theorem immediatelyDominates_of_gone (h : Contraction R S r b s)
    (hs : ImmediatelyDominates R r s x) : ImmediatelyDominates S r b x := by
  have hb := h.immediatelyDominates_gone hs.reaches_left
  have hx : x ≠ s := hs.ne.symm
  refine ⟨(h.dominates_iff h.ne hx).mpr (hb.dominates.trans hs.dominates), ?_, fun q hq hne => ?_⟩
  · rintro rfl
    exact h.ne (hb.dominates.antisymm hs.dominates)
  · have hqs := h.ne_of_reaches hq.reaches_left
    have hqs' := hs.nearest q ((h.dominates_iff hqs hx).mp hq) hne
    exact (h.dominates_iff hqs h.ne).mpr (hb.nearest q hqs' hqs)

theorem not_dominates_of_gone (h : Contraction R S r b s) : ¬ Dominates R r s b := by
  intro hsb
  exact h.ne ((h.immediatelyDominates_gone hsb.reaches_left).dominates.antisymm hsb)

theorem dominates_gone (h : Contraction R S r b s) (hx : Dominates R r b x) (hne : x ≠ b) :
    Dominates R r s x := by
  refine ⟨hx.reaches, fun hevades => ?_⟩
  rcases hevades.after_last b with haround | heq | ⟨y, hy, hrest⟩
  · exact hx.2 (haround.mono fun _ hz => hz.2)
  · exact hne heq
  · exact hrest.first.1 (h.of_out hy)

variable [DecidableEq α]

theorem dominates_of (h : Contraction R S r b s) (hax : Dominates R r a x) :
    Dominates S r (if a = s then b else a) (if x = s then b else x) := by
  have hgone : Reaches R r s → Dominates R r b s := fun hs =>
    (h.immediatelyDominates_gone hs).dominates
  rcases Classical.em (x = s) with rfl | hx
  · have hb := (hgone hax.reaches).reaches_left
    rw [if_pos rfl]
    split
    · exact .refl ((h.reaches_iff h.ne).mpr hb)
    · rename_i ha
      exact (h.dominates_iff ha h.ne).mpr (hax.of_arc ha h.arc hb)
  · rw [if_neg hx]
    split
    · rename_i ha
      subst ha
      exact (h.dominates_iff h.ne hx).mpr ((hgone hax.reaches_left).trans hax)
    · rename_i ha
      exact (h.dominates_iff ha hx).mpr hax

theorem of_dominates (h : Contraction R S r b s) (hx : Reaches R r x)
    (hdom : Dominates S r (if a = s then b else a) (if x = s then b else x))
    (hne : (if a = s then b else a) ≠ if x = s then b else x) : Dominates R r a x := by
  rcases Classical.em (x = s) with rfl | hxs
  · rw [if_pos rfl] at hdom hne
    rcases Classical.em (a = x) with rfl | ha
    · exact absurd (if_pos rfl) hne
    · rw [if_neg ha] at hdom
      exact ((h.dominates_iff ha h.ne).mp hdom).trans (h.immediatelyDominates_gone hx).dominates
  · rw [if_neg hxs] at hdom hne
    rcases Classical.em (a = s) with rfl | ha
    · rw [if_pos rfl] at hdom hne
      exact h.dominates_gone ((h.dominates_iff h.ne hxs).mp hdom) (Ne.symm hne)
    · rw [if_neg ha] at hdom
      exact (h.dominates_iff ha hxs).mp hdom

end Contraction

end FlowGraph
