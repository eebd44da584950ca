import Mathlib.Data.List.Chain
import Mathlib.Data.List.Nodup
import FlowGraph.Graph
import FlowGraph.Proofs.Outcome
import FlowGraph.Proofs.Dominance.Path

/-!
What a depth-first walk finishes, and in which order. A walk from a node finishes everything that can
be reached from it, each node once. Every node but the first was entered from a neighbour that is
finished later, so in the opposite order it stands behind one of the nodes with an arc to it.

The other exploration of a graph, the flood, has no order; it adds exactly what can be reached without
passing what was there before.
-/

namespace FlowGraph.Graph

variable {α : Type} {g : Graph α} {w : Walk α} {seen out last : List α}

def Arc (g : Graph α) (a b : α) : Prop := ∃ neighbours, g.next a = .ok neighbours ∧ b ∈ neighbours

/-- The walk `w` comes to its end: it finishes the nodes `out`, in this order, and has seen `last`. -/
inductive Finishes (g : Graph α) : Walk α → List α → List α → Prop
  | done (seen : List α) : Finishes g ⟨seen, []⟩ [] seen
  | finish {seen out last : List α} {a : α} {rest : List (Frame α)}
      (hrest : Finishes g ⟨seen, rest⟩ out last) :
      Finishes g ⟨seen, ⟨a, []⟩ :: rest⟩ (a :: out) last
  | skip {seen out last pending : List α} {a b : α} {rest : List (Frame α)} (hb : b ∈ seen)
      (hrest : Finishes g ⟨seen, ⟨a, pending⟩ :: rest⟩ out last) :
      Finishes g ⟨seen, ⟨a, b :: pending⟩ :: rest⟩ out last
  | enter {seen out last pending neighbours : List α} {a b : α} {rest : List (Frame α)}
      (hb : b ∉ seen) (hnext : g.next b = .ok neighbours)
      (hrest : Finishes g ⟨b :: seen, ⟨b, neighbours⟩ :: ⟨a, pending⟩ :: rest⟩ out last) :
      Finishes g ⟨seen, ⟨a, b :: pending⟩ :: rest⟩ out last

/-- What holds of a walk in progress. Its path consists of different nodes, each a neighbour of the one
before it, and the neighbours of a node on the path have been seen or are still to be tried. -/
structure Underway (g : Graph α) (w : Walk α) : Prop where
  seen : ∀ frame ∈ w.stack, frame.node ∈ w.seen
  nodup : (w.stack.map Frame.node).Nodup
  tried : ∀ frame ∈ w.stack, ∀ b, g.Arc frame.node b → b ∈ w.seen ∨ b ∈ frame.pending
  pending : ∀ frame ∈ w.stack, ∀ b ∈ frame.pending, g.Arc frame.node b
  linked : (w.stack.map Frame.node).IsChain fun top below => g.Arc below top

theorem path_of_isChain {R : α → α → Prop} {P : α → Prop} {a x : α} {below : List α}
    (hchain : (a :: below).IsChain fun top below => R below top) (hP : ∀ z ∈ a :: below, P z)
    (hx : x ∈ a :: below) : Path R P x a := by
  induction below generalizing a with
  | nil =>
      rw [List.mem_singleton.mp hx]
      exact .root (hP a List.mem_cons_self)
  | cons b below ih =>
      rw [List.isChain_cons_cons] at hchain
      rw [List.forall_mem_cons] at hP
      rcases List.mem_cons.mp hx with rfl | hx
      · exact .root hP.1
      · exact (ih hchain.2 hP.2 hx).step hchain.1 hP.1

namespace Underway

variable {a b : α} {pending neighbours : List α} {rest : List (Frame α)} {frame : Frame α}

theorem start (hnext : g.next a = .ok neighbours) (seen : List α) :
    g.Underway ⟨a :: seen, [⟨a, neighbours⟩]⟩ := by
  refine ⟨by simp, List.nodup_singleton _, ?_, ?_, List.IsChain.singleton _⟩
  · rw [List.forall_mem_singleton]
    rintro b ⟨others, hothers, hb⟩
    rw [hnext] at hothers
    cases hothers
    exact .inr hb
  · rw [List.forall_mem_singleton]
    exact fun b hb => ⟨neighbours, hnext, hb⟩

theorem finish (h : g.Underway ⟨seen, frame :: rest⟩) : g.Underway ⟨seen, rest⟩ where
  seen other hother := h.seen other (List.mem_cons_of_mem _ hother)
  nodup := (List.nodup_cons.mp h.nodup).2
  tried other hother := h.tried other (List.mem_cons_of_mem _ hother)
  pending other hother := h.pending other (List.mem_cons_of_mem _ hother)
  linked := h.linked.tail

theorem skip (hb : b ∈ seen) (h : g.Underway ⟨seen, ⟨a, b :: pending⟩ :: rest⟩) :
    g.Underway ⟨seen, ⟨a, pending⟩ :: rest⟩ where
  seen := by simpa using h.seen
  nodup := h.nodup
  tried := by
    have htried := h.tried
    rw [List.forall_mem_cons] at htried ⊢
    refine ⟨fun c hc => ?_, htried.2⟩
    rcases htried.1 c hc with hseen | hpending
    · exact .inl hseen
    · rcases List.mem_cons.mp hpending with rfl | hpending
      · exact .inl hb
      · exact .inr hpending
  pending := by
    have hpending := h.pending
    simp only [List.forall_mem_cons] at hpending ⊢
    exact ⟨hpending.1.2, hpending.2⟩
  linked := h.linked

theorem enter (hb : b ∉ seen) (hnext : g.next b = .ok neighbours)
    (h : g.Underway ⟨seen, ⟨a, b :: pending⟩ :: rest⟩) :
    g.Underway ⟨b :: seen, ⟨b, neighbours⟩ :: ⟨a, pending⟩ :: rest⟩ where
  seen := by
    have hseen : ∀ frame ∈ (⟨a, pending⟩ : Frame α) :: rest, frame.node ∈ seen := by
      simpa using h.seen
    rw [List.forall_mem_cons]
    exact ⟨List.mem_cons_self, fun frame hframe => List.mem_cons_of_mem _ (hseen frame hframe)⟩
  nodup := by
    refine List.nodup_cons.mpr ⟨fun hmem => hb ?_, h.nodup⟩
    obtain ⟨frame, hframe, rfl⟩ := List.mem_map.mp hmem
    have hseen := h.seen
    simp only [List.forall_mem_cons] at hseen
    rcases List.mem_cons.mp hframe with rfl | hframe
    · exact hseen.1
    · exact hseen.2 frame hframe
  tried := by
    have htried := h.tried
    rw [List.forall_mem_cons] at htried
    rw [List.forall_mem_cons, List.forall_mem_cons]
    refine ⟨fun c hc => ?_, fun c hc => ?_, fun frame hframe c hc => ?_⟩
    · obtain ⟨others, hothers, hc⟩ := hc
      rw [hnext] at hothers
      cases hothers
      exact .inr hc
    · rcases htried.1 c hc with hseen | hpending
      · exact .inl (List.mem_cons_of_mem _ hseen)
      · rcases List.mem_cons.mp hpending with rfl | hpending
        · exact .inl List.mem_cons_self
        · exact .inr hpending
    · exact (htried.2 frame hframe c hc).imp_left (List.mem_cons_of_mem _)
  pending := by
    have hpending := h.pending
    simp only [List.forall_mem_cons] at hpending ⊢
    exact ⟨fun c hc => ⟨neighbours, hnext, hc⟩, hpending.1.2, hpending.2⟩
  linked := by
    have hpending := h.pending
    simp only [List.forall_mem_cons] at hpending
    simp only [List.map_cons, List.isChain_cons_cons]
    exact ⟨hpending.1.1, h.linked⟩

end Underway

namespace Finishes

theorem sublist (h : g.Finishes w out last) : (w.stack.map Frame.node).Sublist out := by
  induction h with
  | done seen => exact List.Sublist.refl _
  | finish _ ih => exact ih.cons_cons _
  | skip _ _ ih => exact ih
  | enter _ _ _ ih => exact (List.sublist_cons_self _ _).trans ih

theorem getLast?_eq (h : g.Finishes w out last) : out.getLast? = (w.stack.map Frame.node).getLast? := by
  induction h with
  | done seen => rfl
  | @finish seen out last a rest _ ih =>
      simp only [List.map_cons, List.getLast?_cons, ih]
  | skip _ _ ih => exact ih
  | enter _ _ _ ih =>
      rw [ih]
      simp only [List.map_cons, List.getLast?_cons_cons]

theorem mem_last (h : g.Finishes w out last) (hw : g.Underway w) {x : α} :
    x ∈ last ↔ x ∈ w.seen ∨ x ∈ out := by
  induction h with
  | done seen => simp
  | @finish seen out last a rest _ ih =>
      have ha : a ∈ seen := hw.seen _ List.mem_cons_self
      rw [ih hw.finish, List.mem_cons]
      constructor
      · rintro (h | h)
        · exact .inl h
        · exact .inr (.inr h)
      · rintro (h | rfl | h)
        · exact .inl h
        · exact .inl ha
        · exact .inr h
  | skip hb _ ih => exact ih (hw.skip hb)
  | @enter seen out last pending neighbours a b rest hb hnext hrest ih =>
      have hout : b ∈ out := hrest.sublist.mem List.mem_cons_self
      rw [ih (hw.enter hb hnext), List.mem_cons]
      constructor
      · rintro ((rfl | h) | h)
        · exact .inr hout
        · exact .inl h
        · exact .inr h
      · rintro (h | h)
        · exact .inl (.inr h)
        · exact .inr h

theorem nodup (h : g.Finishes w out last) (hw : g.Underway w) :
    out.Nodup ∧ ∀ x ∈ out, x ∈ w.stack.map Frame.node ∨ x ∉ w.seen := by
  induction h with
  | done seen => exact ⟨List.nodup_nil, fun x hx => absurd hx List.not_mem_nil⟩
  | @finish seen out last a rest _ ih =>
      obtain ⟨hnodup, hnew⟩ := ih hw.finish
      refine ⟨List.nodup_cons.mpr ⟨fun ha => ?_, hnodup⟩, fun x hx => ?_⟩
      · rcases hnew a ha with hstack | hseen
        · exact (List.nodup_cons.mp hw.nodup).1 hstack
        · exact hseen (hw.seen _ List.mem_cons_self)
      · rcases List.mem_cons.mp hx with rfl | hx
        · exact .inl List.mem_cons_self
        · exact (hnew x hx).imp_left (List.mem_cons_of_mem _)
  | skip hb _ ih => exact ih (hw.skip hb)
  | enter hb hnext _ ih =>
      obtain ⟨hnodup, hnew⟩ := ih (hw.enter hb hnext)
      refine ⟨hnodup, fun x hx => ?_⟩
      rcases hnew x hx with hstack | hseen
      · rcases List.mem_cons.mp hstack with rfl | hstack
        · exact .inr hb
        · exact .inl hstack
      · exact .inr fun h => hseen (List.mem_cons_of_mem _ h)

theorem closed {P : α → Prop} (h : g.Finishes w out last) (hw : g.Underway w)
    (hP : ∀ a b, P a → g.Arc a b → b ∉ w.seen → P b) (hstack : ∀ frame ∈ w.stack, P frame.node) :
    ∀ x ∈ out, P x := by
  induction h with
  | done seen => exact fun x hx => absurd hx List.not_mem_nil
  | finish _ ih =>
      simp only [List.forall_mem_cons] at hstack ⊢
      exact ⟨hstack.1, ih hw.finish hP hstack.2⟩
  | skip hb _ ih =>
      simp only [List.forall_mem_cons] at hstack
      exact ih (hw.skip hb) hP (List.forall_mem_cons.mpr hstack)
  | @enter seen out last pending neighbours a b rest hb hnext _ ih =>
      have harc : g.Arc a b := hw.pending _ List.mem_cons_self b List.mem_cons_self
      apply ih (hw.enter hb hnext)
      · intro c d hc hcd hd
        exact hP c d hc hcd fun hseen => hd (List.mem_cons_of_mem _ hseen)
      · simp only [List.forall_mem_cons] at hstack ⊢
        exact ⟨hP a b hstack.1 harc hb, hstack⟩

theorem complete (h : g.Finishes w out last) (hw : g.Underway w) {x y : α} (hx : x ∈ out)
    (harc : g.Arc x y) : y ∈ last := by
  induction h with
  | done seen => exact absurd hx List.not_mem_nil
  | @finish seen out last a rest hrest ih =>
      rcases List.mem_cons.mp hx with rfl | hx
      · have hseen := hw.tried _ List.mem_cons_self y harc
        simp only [List.not_mem_nil, or_false] at hseen
        exact (hrest.mem_last hw.finish).mpr (.inl hseen)
      · exact ih hw.finish hx
  | skip hb _ ih => exact ih (hw.skip hb) hx
  | enter hb hnext _ ih => exact ih (hw.enter hb hnext) hx

/-- A node that is finished is the first of the path, or it has been entered from a neighbour that is
finished later. -/
theorem entered (h : g.Finishes w out last) (hw : g.Underway w) {x : α} (hx : x ∈ out) :
    (w.stack.map Frame.node).getLast? = some x ∨ ∃ y, g.Arc y x ∧ [x, y].Sublist out := by
  induction h with
  | done seen => exact absurd hx List.not_mem_nil
  | @finish seen out last a rest hrest ih =>
      rcases List.mem_cons.mp hx with rfl | hx
      · rcases rest with _ | ⟨frame, rest⟩
        · exact .inl rfl
        · have hlinked := hw.linked
          simp only [List.map_cons, List.isChain_cons_cons] at hlinked
          refine .inr ⟨frame.node, hlinked.1, List.Sublist.cons_cons _ ?_⟩
          exact List.singleton_sublist.mpr (hrest.sublist.mem List.mem_cons_self)
      · rcases ih hw.finish hx with hlast | ⟨y, harc, hsub⟩
        · left
          rw [List.map_cons, List.getLast?_cons, hlast]
          rfl
        · exact .inr ⟨y, harc, hsub.cons _⟩
  | skip hb _ ih => exact ih (hw.skip hb) hx
  | enter hb hnext _ ih =>
      rcases ih (hw.enter hb hnext) hx with hlast | hy
      · left
        simpa only [List.map_cons, List.getLast?_cons_cons] using hlast
      · exact .inr hy

/-- An arc to a node that is finished later goes back: a way leads from there to its source. When the
source is finished, the target has been seen and is not finished, so it is on the path below. -/
theorem returns (h : g.Finishes w out last) (hw : g.Underway w) {x y : α}
    (hsub : [x, y].Sublist out) (harc : g.Arc x y) : Path g.Arc (· ∈ out) y x := by
  induction h with
  | done seen => cases hsub
  | @finish seen out last a rest hrest ih =>
      cases hsub with
      | cons _ hsub => exact (ih hw.finish hsub).mono fun _ hz => List.mem_cons_of_mem _ hz
      | cons_cons _ hy =>
          have hseen := hw.tried _ List.mem_cons_self y harc
          simp only [List.not_mem_nil, or_false] at hseen
          rcases (hrest.nodup hw.finish).2 y (List.singleton_sublist.mp hy) with hstack | hnew
          · apply path_of_isChain hw.linked
            · exact fun z hz => (hrest.sublist.cons_cons x).mem hz
            · exact List.mem_cons_of_mem _ hstack
          · exact absurd hseen hnew
  | skip hb _ ih => exact ih (hw.skip hb) hsub
  | enter hb hnext _ ih => exact ih (hw.enter hb hnext) hsub

end Finishes

variable [DecidableEq α]

theorem drain_eq (g : Graph α) (w : Walk α) :
    g.drain w = match g.pull w with
      | .error fault => .error fault
      | .ok none => .ok ([], w)
      | .ok (some (a, w')) =>
        match g.drain w' with
        | .error fault => .error fault
        | .ok (order, last) => .ok (a :: order, last) := by
  rw [drain]
  split
  · rename_i hpull
    rw [hpull]
  · rename_i hpull
    rw [hpull]
  · rename_i a w' hpull
    rcases hrest : g.drain w' with fault | ⟨order, last⟩
    · simp only [hpull, hrest]
    · simp only [hpull, hrest]

theorem pull_ne_none (h : w.stack ≠ []) : g.pull w ≠ .ok none := by
  fun_induction pull g w with
  | case1 => exact absurd rfl h
  | case2 => simp
  | case3 seen a b pending rest hb ih => exact ih (List.cons_ne_nil _ _)
  | case4 => simp
  | case5 seen a b pending rest hb neighbours hnext ih => exact ih (List.cons_ne_nil _ _)

theorem drain_of_pull_eq {v : Walk α} (h : g.pull w = g.pull v) (hw : w.stack ≠ []) :
    g.drain w = g.drain v := by
  have hnone := pull_ne_none (g := g) hw
  rw [drain_eq, drain_eq, ← h]
  rcases hpull : g.pull w with fault | _ | ⟨a, w'⟩
  · rfl
  · exact absurd hpull hnone
  · rfl

theorem Finishes.drain_eq_ok (h : g.Finishes w out last) : g.drain w = .ok (out, ⟨last, []⟩) := by
  induction h with
  | done seen => rw [drain_eq, pull]
  | finish hrest ih =>
      rw [drain_eq, pull]
      simp only [ih]
  | skip hb hrest ih =>
      rw [← ih]
      refine drain_of_pull_eq ?_ (List.cons_ne_nil _ _)
      rw [pull, dif_pos hb]
  | enter hb hnext hrest ih =>
      rw [← ih]
      refine drain_of_pull_eq ?_ (List.cons_ne_nil _ _)
      rw [pull, dif_neg hb]
      split <;> simp_all

theorem finishes_of_drain {final : Walk α} (h : g.drain w = .ok (out, final)) :
    g.Finishes w out final.seen := by
  induction hwork : g.work w using Nat.strong_induction_on generalizing w out with
  | _ n ih =>
  obtain ⟨seen, stack⟩ := w
  rcases stack with _ | ⟨⟨a, _ | ⟨b, pending⟩⟩, rest⟩
  · rw [drain_eq, pull] at h
    cases h
    exact .done seen
  · rw [drain_eq, pull] at h
    rcases hrest : g.drain ⟨seen, rest⟩ with fault | ⟨later, stop⟩
    · simp [hrest] at h
    · simp only [hrest, Except.ok.injEq, Prod.mk.injEq] at h
      obtain ⟨rfl, rfl⟩ := h
      exact .finish (ih _ (by simp [← hwork, work, stackWork, weigh]) hrest rfl)
  · rcases Classical.em (b ∈ seen) with hb | hb
    · have hpull : g.pull ⟨seen, ⟨a, b :: pending⟩ :: rest⟩ = g.pull ⟨seen, ⟨a, pending⟩ :: rest⟩ := by
        rw [pull, dif_pos hb]
      rw [drain_of_pull_eq hpull (List.cons_ne_nil _ _)] at h
      exact .skip hb (ih _ (by simp [← hwork, work, stackWork, weigh]) h rfl)
    · rcases hnext : g.next b with fault | neighbours
      · have hpull : g.pull ⟨seen, ⟨a, b :: pending⟩ :: rest⟩ = .error fault := by
          rw [pull, dif_neg hb]
          split <;> simp_all
        rw [drain_eq, hpull] at h
        cases h
      · have hpull : g.pull ⟨seen, ⟨a, b :: pending⟩ :: rest⟩ =
            g.pull ⟨b :: seen, ⟨b, neighbours⟩ :: ⟨a, pending⟩ :: rest⟩ := by
          rw [pull, dif_neg hb]
          split <;> simp_all
        rw [drain_of_pull_eq hpull (List.cons_ne_nil _ _)] at h
        refine .enter hb hnext (ih _ ?_ h rfl)
        have := unseenWork_cons hnext hb
        simp only [← hwork, work, stackWork, weigh, List.length_cons]
        omega

/-- A walk comes to its end if all nodes that it can meet have neighbours. -/
theorem exists_finishes {P : α → Prop}
    (hP : ∀ a, P a → ∃ neighbours, g.next a = .ok neighbours ∧ ∀ b ∈ neighbours, P b)
    (hw : ∀ frame ∈ w.stack, ∀ b ∈ frame.pending, P b) : ∃ out last, g.Finishes w out last := by
  induction hwork : g.work w using Nat.strong_induction_on generalizing w with
  | _ n ih =>
  obtain ⟨seen, stack⟩ := w
  rcases stack with _ | ⟨⟨a, _ | ⟨b, pending⟩⟩, rest⟩
  · exact ⟨[], seen, .done seen⟩
  · obtain ⟨out, last, hrest⟩ := @ih _ (by simp [← hwork, work, stackWork, weigh]) ⟨seen, rest⟩
      (fun frame hframe => hw frame (List.mem_cons_of_mem _ hframe)) rfl
    exact ⟨a :: out, last, .finish hrest⟩
  · simp only [List.forall_mem_cons] at hw
    obtain ⟨⟨hPb, hpending⟩, hframes⟩ := hw
    rcases Classical.em (b ∈ seen) with hb | hb
    · obtain ⟨out, last, hrest⟩ := @ih _ (by simp [← hwork, work, stackWork, weigh])
        ⟨seen, ⟨a, pending⟩ :: rest⟩ (List.forall_mem_cons.mpr ⟨hpending, hframes⟩) rfl
      exact ⟨out, last, .skip hb hrest⟩
    · obtain ⟨neighbours, hnext, hneighbours⟩ := hP b hPb
      have hlt : g.work ⟨b :: seen, ⟨b, neighbours⟩ :: ⟨a, pending⟩ :: rest⟩ < n := by
        have := unseenWork_cons hnext hb
        simp only [← hwork, work, stackWork, weigh, List.length_cons]
        omega
      obtain ⟨out, last, hrest⟩ := ih _ hlt (List.forall_mem_cons.mpr
        ⟨hneighbours, List.forall_mem_cons.mpr ⟨hpending, hframes⟩⟩) rfl
      exact ⟨out, last, .enter hb hnext hrest⟩

/-- A complete walk from a node: it finishes `post` and has then seen `last`, if the nodes in `seen` were
taken for explored. -/
structure Explores (g : Graph α) (start : α) (seen post last : List α) : Prop where
  nodup : post.Nodup
  mem_iff : ∀ x, x ∈ post ↔ Path g.Arc (· ∉ seen) start x
  mem_last : ∀ x, x ∈ last ↔ x ∈ seen ∨ x ∈ post
  getLast? : start ∉ seen → post.getLast? = some start
  entered : ∀ x ∈ post, x ≠ start → ∃ y, g.Arc y x ∧ [x, y].Sublist post
  returns : ∀ x y, [x, y].Sublist post → g.Arc x y → Path g.Arc (· ∈ post) y x

omit [DecidableEq α] in
theorem explores_nothing {start : α} (hstart : start ∈ seen) : g.Explores start seen [] seen where
  nodup := List.nodup_nil
  mem_iff x := ⟨fun hx => absurd hx List.not_mem_nil, fun hx => absurd hstart hx.first⟩
  mem_last x := by simp
  getLast? hnot := absurd hstart hnot
  entered x hx := absurd hx List.not_mem_nil
  returns x y hsub := by cases hsub

omit [DecidableEq α] in
theorem Finishes.explores {start : α} {neighbours : List α} (hnext : g.next start = .ok neighbours)
    (hstart : start ∉ seen) (h : g.Finishes ⟨start :: seen, [⟨start, neighbours⟩]⟩ out last) :
    g.Explores start seen out last := by
  have hw : g.Underway ⟨start :: seen, [⟨start, neighbours⟩]⟩ := .start hnext seen
  have hfirst : start ∈ out := h.sublist.mem List.mem_cons_self
  have hlast : ∀ x, x ∈ last ↔ x ∈ seen ∨ x ∈ out := by
    intro x
    rw [h.mem_last hw, List.mem_cons]
    constructor
    · rintro ((rfl | hx) | hx)
      · exact .inr hfirst
      · exact .inl hx
      · exact .inr hx
    · exact Or.imp_left .inr
  refine ⟨(h.nodup hw).1, fun x => ⟨?_, fun hx => ?_⟩, hlast, fun _ => h.getLast?_eq, ?_,
    fun x y => h.returns hw⟩
  · refine h.closed hw ?_ ?_ x
    · intro a b ha harc hb
      exact ha.step harc fun hseen => hb (List.mem_cons_of_mem _ hseen)
    · rw [List.forall_mem_singleton]
      exact .root hstart
  · induction hx with
    | root _ => exact hfirst
    | step _ harc hy ih => exact ((hlast _).mp (h.complete hw ih harc)).resolve_left hy
  · intro x hx hne
    rcases h.entered hw hx with hroot | hentered
    · exact absurd (Option.some.inj hroot).symm hne
    · exact hentered

theorem exists_walk {P : α → Prop} {start : α}
    (hP : ∀ a, P a → ∃ neighbours, g.next a = .ok neighbours ∧ ∀ b ∈ neighbours, P b)
    (hstart : P start) (seen : List α) :
    ∃ w post last, g.walkFrom start seen = .ok w ∧ g.drain w = .ok (post, ⟨last, []⟩) ∧
      g.Explores start seen post last := by
  rcases Classical.em (start ∈ seen) with hseen | hseen
  · refine ⟨⟨seen, []⟩, [], seen, ?_, (Finishes.done seen).drain_eq_ok, explores_nothing hseen⟩
    rw [walkFrom, if_pos hseen]
  · obtain ⟨neighbours, hnext, hneighbours⟩ := hP start hstart
    obtain ⟨post, last, hfinish⟩ :
        ∃ out last, g.Finishes ⟨start :: seen, [⟨start, neighbours⟩]⟩ out last :=
      exists_finishes hP (List.forall_mem_singleton.mpr hneighbours)
    refine ⟨⟨start :: seen, [⟨start, neighbours⟩]⟩, post, last, ?_, hfinish.drain_eq_ok,
      hfinish.explores hnext hseen⟩
    rw [walkFrom, if_neg hseen, hnext]
    rfl

theorem postOrder_of_drain {start : α} (hwalk : g.walkFrom start seen = .ok w)
    (hdrain : g.drain w = .ok (out, ⟨last, []⟩)) : g.postOrder start seen = .ok out := by
  rw [postOrder, hwalk, ok_bind, hdrain]
  rfl

/-- The post-order from a node. -/
structure IsPostOrder (g : Graph α) (start : α) (post : List α) : Prop where
  nodup : post.Nodup
  mem_iff : ∀ x, x ∈ post ↔ Reaches g.Arc start x
  getLast? : post.getLast? = some start
  entered : ∀ x ∈ post, x ≠ start → ∃ y, g.Arc y x ∧ [x, y].Sublist post

/-- The walk finishes what can be reached, if all of that has neighbours. -/
theorem exists_postOrder {start : α}
    (htotal : ∀ x, Reaches g.Arc start x → ∃ neighbours, g.next x = .ok neighbours) :
    ∃ post, g.postOrder start [] = .ok post ∧ g.IsPostOrder start post := by
  have hclosed : ∀ a, Reaches g.Arc start a →
      ∃ neighbours, g.next a = .ok neighbours ∧ ∀ b ∈ neighbours, Reaches g.Arc start b := by
    intro a ha
    obtain ⟨others, hothers⟩ := htotal a ha
    exact ⟨others, hothers, fun b hb => ha.step ⟨others, hothers, hb⟩⟩
  obtain ⟨w, post, last, hwalk, hdrain, hpost⟩ := exists_walk hclosed reaches_root []
  refine ⟨post, postOrder_of_drain hwalk hdrain, hpost.nodup, fun x => (hpost.mem_iff x).trans ?_,
    hpost.getLast? List.not_mem_nil, hpost.entered⟩
  exact ⟨fun h => h.mono fun _ _ => trivial, fun h => h.mono fun _ _ => List.not_mem_nil⟩

theorem start_of_postOrder {start : α} {post : List α} (h : g.postOrder start [] = .ok post) :
    (∃ neighbours, g.next start = .ok neighbours) ∧
      ∃ before, post.reverse = start :: before ∧ start ∉ before := by
  obtain ⟨w, hwalk, hdrain⟩ := bind_eq_ok.mp h
  rw [walkFrom, if_neg List.not_mem_nil] at hwalk
  obtain ⟨neighbours, hnext, hw⟩ := bind_eq_ok.mp hwalk
  cases hw
  obtain ⟨⟨out, last⟩, hrun, hout⟩ := bind_eq_ok.mp hdrain
  cases hout
  have hexplores := (finishes_of_drain hrun).explores hnext List.not_mem_nil
  obtain ⟨before, rfl⟩ := List.getLast?_eq_some_iff.mp (hexplores.getLast? List.not_mem_nil)
  refine ⟨⟨neighbours, hnext⟩, before.reverse, by simp, fun hstart => ?_⟩
  exact (List.nodup_append.mp hexplores.nodup).2.2 start (List.mem_reverse.mp hstart) start
    (List.mem_singleton_self start) rfl

omit [DecidableEq α] in
theorem path_after {a b x : α} {neighbours : List α} (hnext : g.next a = .ok neighbours)
    (h : Path g.Arc (· ∉ seen) b x) :
    x = a ∨ Path g.Arc (· ∉ a :: seen) b x ∨
      ∃ c ∈ neighbours, Path g.Arc (· ∉ a :: seen) c x := by
  have hcons : ∀ y, y ∉ seen ∧ y ≠ a → y ∉ a :: seen := by
    rintro y ⟨hseen, hne⟩ hmem
    rcases List.mem_cons.mp hmem with heq | hmem
    · exact hne heq
    · exact hseen hmem
  rcases h.after_last a with haround | heq | ⟨c, ⟨others, hothers, hc⟩, htail⟩
  · exact .inr (.inl (haround.mono hcons))
  · exact .inl heq
  · rw [hnext] at hothers
    cases hothers
    exact .inr (.inr ⟨c, hc, htail.mono hcons⟩)

/-- A flood adds what can be reached from the stack without passing what it started with, if all of
that has neighbours. -/
theorem exists_flood {P : α → Prop}
    (hP : ∀ a, P a → ∃ neighbours, g.next a = .ok neighbours ∧ ∀ b ∈ neighbours, P b)
    {stack : List α} (hstack : ∀ a ∈ stack, P a) (hseen : seen.Nodup) :
    ∃ all, g.flood stack seen = .ok all ∧ all.Nodup ∧
      ∀ x, x ∈ all ↔ x ∈ seen ∨ ∃ a ∈ stack, Path g.Arc (· ∉ seen) a x := by
  fun_induction flood g stack seen with
  | case1 seen => exact ⟨seen, rfl, hseen, fun x => by simp⟩
  | case2 a stack seen ha ih =>
      rw [List.forall_mem_cons] at hstack
      obtain ⟨all, hrun, hnodup, hmem⟩ := ih hstack.2 hseen
      refine ⟨all, hrun, hnodup, fun x => (hmem x).trans (or_congr_right ?_)⟩
      constructor
      · rintro ⟨b, hb, hpath⟩
        exact ⟨b, List.mem_cons_of_mem _ hb, hpath⟩
      · rintro ⟨b, hb, hpath⟩
        rcases List.mem_cons.mp hb with rfl | hb
        · exact absurd ha hpath.first
        · exact ⟨b, hb, hpath⟩
  | case3 a stack seen ha fault hnext =>
      obtain ⟨neighbours, hnext', -⟩ := hP a (hstack a List.mem_cons_self)
      rw [hnext] at hnext'
      cases hnext'
  | case4 a stack seen ha neighbours hnext ih =>
      simp only [List.unattach_reverse, List.unattach_attach] at ih
      rw [List.forall_mem_cons] at hstack
      obtain ⟨others, hothers, hneighbours⟩ := hP a hstack.1
      rw [hnext] at hothers
      cases hothers
      have hstack' : ∀ b ∈ neighbours.reverse ++ stack, P b := by
        intro b hb
        rcases List.mem_append.mp hb with hb | hb
        · exact hneighbours b (List.mem_reverse.mp hb)
        · exact hstack.2 b hb
      obtain ⟨all, hrun, hnodup, hmem⟩ := ih hstack' (List.nodup_cons.mpr ⟨ha, hseen⟩)
      have hwiden : ∀ y, y ∉ a :: seen → y ∉ seen := fun y hy h => hy (List.mem_cons_of_mem _ h)
      refine ⟨all, hrun, hnodup, fun x => (hmem x).trans ⟨?_, ?_⟩⟩
      · rintro (hx | ⟨b, hb, hpath⟩)
        · rcases List.mem_cons.mp hx with rfl | hx
          · exact .inr ⟨x, List.mem_cons_self, .root ha⟩
          · exact .inl hx
        · right
          have hpath := hpath.mono hwiden
          rcases List.mem_append.mp hb with hb | hb
          · refine ⟨a, List.mem_cons_self, hpath.head ha ?_⟩
            exact ⟨neighbours, hnext, List.mem_reverse.mp hb⟩
          · exact ⟨b, List.mem_cons_of_mem _ hb, hpath⟩
      · rintro (hx | ⟨b, hb, hpath⟩)
        · exact .inl (List.mem_cons_of_mem _ hx)
        · -- After its last visit to `a` the path evades `a` too, as the rest of the run asks.
          rcases path_after hnext hpath with rfl | hpath' | ⟨c, hc, hpath'⟩
          · exact .inl List.mem_cons_self
          · rcases List.mem_cons.mp hb with rfl | hb
            · exact absurd List.mem_cons_self hpath'.first
            · exact .inr ⟨b, List.mem_append_right _ hb, hpath'⟩
          · exact .inr ⟨c, List.mem_append_left _ (List.mem_reverse.mpr hc), hpath'⟩

end FlowGraph.Graph
