import Mathlib.Tactic.ByContra

/-!
Dominance in a rooted graph. The graph is a relation between nodes; `a` dominates `x` if `x` can be
reached from the root, but not without passing `a`. Dominance is an order in which the dominators of a
node form a chain, so a node has at most one immediate dominator.
-/

namespace FlowGraph

variable {α : Type} {R S : α → α → Prop} {P Q : α → Prop} {r a b c x y : α}

/-- `x` can be reached from `r` along nodes that satisfy `P`, both ends included. -/
inductive Path (R : α → α → Prop) (P : α → Prop) (r : α) : α → Prop
  | root (h : P r) : Path R P r r
  | step {x y : α} (hpath : Path R P r x) (harc : R x y) (h : P y) : Path R P r y

namespace Path

theorem last (h : Path R P r x) : P x := by
  cases h with
  | root h => exact h
  | step _ _ h => exact h

theorem first (h : Path R P r x) : P r := by
  induction h with
  | root h => exact h
  | step _ _ _ ih => exact ih

theorem mono (h : Path R P r x) (hP : ∀ y, P y → Q y) : Path R Q r x := by
  induction h with
  | root h => exact .root (hP _ h)
  | step _ harc h ih => exact ih.step harc (hP _ h)

theorem trans (h : Path R P r x) (h' : Path R P x y) : Path R P r y := by
  induction h' with
  | root _ => exact h
  | step _ harc h ih => exact ih.step harc h

theorem head (hr : P r) (harc : R r x) (h : Path R P x y) : Path R P r y :=
  (step (root hr) harc h.first).trans h

theorem reverse (h : Path R P x y) (hS : ∀ a b, R a b → S b a) : Path S P y x := by
  induction h with
  | root h => exact .root h
  | step _ harc h ih => exact ih.head h (hS _ _ harc)

theorem avoid_or_meet (h : Path R P r x) (b : α) :
    Path R (fun y => P y ∧ y ≠ b) r x ∨ Path R P r b := by
  induction h with
  | root h =>
      rcases Classical.em (r = b) with rfl | hne
      · exact .inr (.root h)
      · exact .inl (.root ⟨h, hne⟩)
  | @step x y hpath harc h ih =>
      rcases ih with ih | ih
      · rcases Classical.em (y = b) with rfl | hne
        · exact .inr (hpath.step harc h)
        · exact .inl (ih.step harc ⟨h, hne⟩)
      · exact .inr ih

theorem after_last (h : Path R P r x) (b : α) :
    Path R (fun y => P y ∧ y ≠ b) r x ∨ x = b ∨
      ∃ y, R b y ∧ Path R (fun z => P z ∧ z ≠ b) y x := by
  induction h with
  | root h =>
      rcases Classical.em (r = b) with heq | hne
      · exact .inr (.inl heq)
      · exact .inl (.root ⟨h, hne⟩)
  | @step x y hpath harc h ih =>
      rcases Classical.em (y = b) with heq | hne
      · exact .inr (.inl heq)
      · rcases ih with ih | rfl | ⟨z, hz, ih⟩
        · exact .inl (ih.step harc ⟨h, hne⟩)
        · exact .inr (.inr ⟨y, harc, .root ⟨h, hne⟩⟩)
        · exact .inr (.inr ⟨z, hz, ih.step harc ⟨h, hne⟩⟩)

end Path

/-- `x` can be reached from `r`. -/
def Reaches (R : α → α → Prop) (r x : α) : Prop := Path R (fun _ => True) r x

/-- `x` can be reached from `r` without passing `a`. -/
def Evades (R : α → α → Prop) (r a x : α) : Prop := Path R (· ≠ a) r x

/-- `x` can be reached from `r`, but not without passing `a`. -/
def Dominates (R : α → α → Prop) (r a x : α) : Prop := Reaches R r x ∧ ¬ Evades R r a x

/-- `p` dominates `x`, and every other node that does dominates `p`. -/
structure ImmediatelyDominates (R : α → α → Prop) (r p x : α) : Prop where
  dominates : Dominates R r p x
  ne : p ≠ x
  nearest : ∀ q, Dominates R r q x → q ≠ x → Dominates R r q p

theorem Evades.reaches (h : Evades R r a x) : Reaches R r x := h.mono fun _ _ => trivial

theorem Reaches.step (h : Reaches R r x) (harc : R x y) : Reaches R r y := Path.step h harc trivial

theorem reaches_root : Reaches R r r := .root trivial

theorem Evades.ne (h : Evades R r a x) : x ≠ a := h.last

theorem evades_root (h : r ≠ a) : Evades R r a r := .root h

theorem Evades.split (h : Evades R r a x) (b : α) : Evades R r b x ∨ Evades R r a b := by
  rcases h.avoid_or_meet b with hb | hb
  · exact .inl (hb.mono fun _ h => h.2)
  · exact .inr hb

namespace Dominates

theorem reaches (h : Dominates R r a x) : Reaches R r x := h.1

theorem reaches_left (h : Dominates R r a x) : Reaches R r a := by
  rcases h.1.avoid_or_meet a with hx | ha
  · exact absurd (hx.mono fun _ h => h.2) h.2
  · exact ha

theorem refl (h : Reaches R r x) : Dominates R r x x := ⟨h, fun hx => hx.ne rfl⟩

theorem eq_root (h : Dominates R r a r) : a = r := by
  by_contra hne
  exact h.2 (evades_root (Ne.symm hne))

theorem trans (hab : Dominates R r a b) (hbx : Dominates R r b x) : Dominates R r a x := by
  refine ⟨hbx.1, fun hx => ?_⟩
  rcases hx.split b with hx | hb
  · exact hbx.2 hx
  · exact hab.2 hb

/-- Of two nodes that can be reached, one is reached first. -/
theorem evades_first (hab : a ≠ b) (h : Reaches R r x) :
    Path R (fun y => y ≠ a ∧ y ≠ b) r x ∨ Evades R r b a ∨ Evades R r a b := by
  induction h with
  | root _ =>
      rcases Classical.em (r = a) with rfl | ha
      · exact .inr (.inl (.root hab))
      rcases Classical.em (r = b) with rfl | hb
      · exact .inr (.inr (.root ha))
      exact .inl (.root ⟨ha, hb⟩)
  | @step x y _ harc _ ih =>
      rcases ih with ih | ih | ih
      · rcases Classical.em (y = a) with rfl | ha
        · exact .inr (.inl ((ih.mono fun _ h => h.2).step harc hab))
        rcases Classical.em (y = b) with rfl | hb
        · exact .inr (.inr ((ih.mono fun _ h => h.1).step harc ha))
        exact .inl (ih.step harc ⟨ha, hb⟩)
      · exact .inr (.inl ih)
      · exact .inr (.inr ih)

theorem antisymm (hab : Dominates R r a b) (hba : Dominates R r b a) : a = b := by
  by_contra hne
  rcases evades_first hne hab.1 with h | h | h
  · exact h.last.2 rfl
  · exact hba.2 h
  · exact hab.2 h

theorem total (ha : Dominates R r a x) (hb : Dominates R r b x) :
    Dominates R r a b ∨ Dominates R r b a := by
  by_contra hneither
  rw [not_or] at hneither
  have hab : Evades R r a b := by
    by_contra h
    exact hneither.1 ⟨hb.reaches_left, h⟩
  have hba : Evades R r b a := by
    by_contra h
    exact hneither.2 ⟨ha.reaches_left, h⟩
  have hevades : ∀ y, Reaches R r y → Evades R r a y ∨ Evades R r b y := by
    intro y hy
    induction hy with
    | root _ =>
        rcases Classical.em (r = a) with rfl | hne
        · exact .inr (.root hba.ne)
        · exact .inl (.root hne)
    | @step x y _ harc _ ih =>
        rcases ih with ih | ih
        · rcases Classical.em (y = a) with rfl | hne
          · exact .inr hba
          · exact .inl (ih.step harc hne)
        · rcases Classical.em (y = b) with rfl | hne
          · exact .inl hab
          · exact .inr (ih.step harc hne)
  rcases hevades x ha.1 with h | h
  · exact ha.2 h
  · exact hb.2 h

/-- What dominates a node properly dominates each node with an arc to it. -/
theorem of_arc (h : Dominates R r a y) (hne : a ≠ y) (harc : R x y) (hx : Reaches R r x) :
    Dominates R r a x :=
  ⟨hx, fun hevades => h.2 (hevades.step harc hne.symm)⟩

theorem of_arcs (hy : Reaches R r y) (hroot : y ≠ r)
    (h : ∀ x, R x y → Reaches R r x → Dominates R r a x) : Dominates R r a y := by
  refine ⟨hy, fun hevades => ?_⟩
  cases hevades with
  | root _ => exact hroot rfl
  | step hpath harc _ => exact (h _ harc (hpath.mono fun _ _ => trivial)).2 hpath

end Dominates

theorem ImmediatelyDominates.unique (ha : ImmediatelyDominates R r a x)
    (hb : ImmediatelyDominates R r b x) : a = b :=
  (hb.nearest a ha.dominates ha.ne).antisymm (ha.nearest b hb.dominates hb.ne)

theorem ImmediatelyDominates.reaches (h : ImmediatelyDominates R r a x) : Reaches R r x :=
  h.dominates.reaches

theorem ImmediatelyDominates.reaches_left (h : ImmediatelyDominates R r a x) : Reaches R r a :=
  h.dominates.reaches_left

end FlowGraph
