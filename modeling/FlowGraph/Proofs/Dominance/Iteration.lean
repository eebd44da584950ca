import FlowGraph.Proofs.PostDominance.Fresh

/-!
The iteration for dominator trees on an arbitrary rooted graph, moment by moment. What carries it is
that a table in the middle of a sweep has a candidate for everything before the node that is improved
next (`Partway`): so the two fingers always find a candidate to go up to, and each of them comes to an
earlier node.
-/

namespace FlowGraph

/-- `preds` lists for each node those that lead to it in `succs`, in any order, once or more often. -/
structure Mirrors (succs preds : Array (List Nat)) : Prop where
  size_eq : preds.size = succs.size
  mem_iff : ∀ m n : Nat, m ∈ preds[n]?.getD [] ↔ n ∈ succs[m]?.getD []

theorem lt_size_of_mem_row {rows : Array (List Nat)} {m n : Nat} (h : m ∈ rows[n]?.getD []) :
    n < rows.size := by
  by_contra hge
  rw [Array.getElem?_eq_none (Nat.le_of_not_lt hge)] at h
  exact absurd h List.not_mem_nil

namespace Mirrors

variable {succs preds : Array (List Nat)} {root : Nat}

theorem lt_of_reaches (h : Mirrors succs preds) (hroot : root < succs.size) {n : Nat}
    (hn : Reaches (Graph.ofTable succs).Arc root n) : n < preds.size := by
  cases hn with
  | root _ => exact h.size_eq ▸ hroot
  | step _ harc _ => exact lt_size_of_mem_row ((h.mem_iff _ _).mpr (Graph.arc_ofTable.mp harc))

theorem exists_isInput (h : Mirrors succs preds) (hroot : root < succs.size) :
    ∃ post, (Graph.ofTable succs).postOrder root [] = .ok post ∧
      Tree.IsInput (Graph.ofTable succs).Arc root post.reverse preds := by
  have htotal : ∀ n, Reaches (Graph.ofTable succs).Arc root n →
      ∃ neighbours, (Graph.ofTable succs).next n = .ok neighbours := by
    intro n hn
    have hlt : n < succs.size := h.size_eq ▸ h.lt_of_reaches hroot hn
    exact ⟨succs[n], by simp [Graph.ofTable, hlt]⟩
  obtain ⟨post, hpost, hisPost⟩ := Graph.exists_postOrder htotal
  refine ⟨post, hpost, hisPost.isInput (fun m n => ?_) (fun n => h.lt_of_reaches hroot)
    (fun m n harc => ?_)⟩
  · rw [h.mem_iff, Graph.arc_ofTable]
  · exact h.size_eq ▸ lt_size_of_mem_row (Graph.arc_ofTable.mp harc)

end Mirrors

namespace Tree

variable {R : Nat → Nat → Prop} {root : Nat} {order rest : List Nat} {preds : Array (List Nat)}
  {T U : Array (Option Nat)} {a b : Nat}

/-- A moment of the iteration: its table, and the nodes that are left of the sweep. -/
inductive Moment (root : Nat) (order : List Nat) (preds : Array (List Nat)) :
    Array (Option Nat) → List Nat → Prop
  | begin : Moment root order preds (start root preds.size) order.tail
  | improved {T U : Array (Option Nat)} {x : Nat} {rest : List Nat}
      (h : Moment root order preds T (x :: rest)) (hrun : improve order preds T x = .ok U) :
      Moment root order preds U rest
  | again {T : Array (Option Nat)} (h : Moment root order preds T []) :
      Moment root order preds T order.tail

namespace Moment

theorem partway (h : Moment root order preds T rest) (hin : IsInput R root order preds) :
    ∃ done, Partway R root order preds.size done rest T := by
  induction h with
  | begin => exact ⟨[root], (candidates_start hin).partway hin⟩
  | improved _ hrun ih =>
      obtain ⟨done, hdone⟩ := ih
      obtain ⟨V, hV, hnext⟩ := hdone.improve_eq_ok hin
      cases hrun.symm.trans hV
      exact ⟨_, hnext⟩
  | again _ ih =>
      obtain ⟨done, hdone⟩ := ih
      exact ⟨[root], hdone.toCandidates.partway hin⟩

theorem foldlM (h : Moment root order preds T rest)
    (hrun : rest.foldlM (improve order preds) T = .ok U) : Moment root order preds U [] := by
  induction rest generalizing T with
  | nil =>
      cases hrun
      exact h
  | cons x rest ih =>
      rw [List.foldlM_cons, bind_eq_ok] at hrun
      obtain ⟨V, hV, hrest⟩ := hrun
      exact ih (h.improved hV) hrest

theorem settle {sweeps : Nat} (h : Moment root order preds T order.tail)
    (hrun : settle order preds sweeps T = .ok U) :
    Moment root order preds U [] ∧ sweep order preds U = .ok U := by
  induction sweeps generalizing T with
  | zero => cases hrun
  | succ sweeps ih =>
      rw [Tree.settle, bind_eq_ok] at hrun
      obtain ⟨V, hV, hrest⟩ := hrun
      split at hrest
      · rename_i heq
        subst heq
        cases hrest
        exact ⟨h.foldlM hV, hV⟩
      · exact ih (h.foldlM hV).again hrest

end Moment

theorem common_mono {steps more w : Nat} (h : common order T steps a b = .ok w) (hle : steps ≤ more) :
    common order T more a b = .ok w := by
  induction steps generalizing a b more with
  | zero => cases h
  | succ steps ih =>
      obtain ⟨more, rfl⟩ : ∃ m, more = m + 1 := ⟨more - 1, by omega⟩
      have hle := Nat.le_of_succ_le_succ hle
      rw [common] at h ⊢
      split at h
      · rwa [if_pos ‹_›]
      · rw [if_neg ‹_›]
        split at h
        · rw [if_pos ‹_›]
          split at h
          · exact ih h hle
          · cases h
        · rw [if_neg ‹_›]
          split at h
          · exact ih h hle
          · cases h

/-- Two nodes that have candidates have a common ancestor, and it is found in fewer steps than they
have places before them. -/
theorem Candidates.exists_common (h : Candidates R root order preds.size T)
    (hin : IsInput R root order preds) (ha : ∃ p, link T a = some p) (hb : ∃ p, link T b = some p) :
    ∃ w, (∃ p, link T w = some p) ∧
      ∀ steps, order.idxOf a + order.idxOf b < steps → common order T steps a b = .ok w := by
  obtain ⟨w, hw, hlinked, -⟩ := h.common_eq_ok hin ha hb (Nat.lt_succ_self _)
  exact ⟨w, hlinked, fun steps hsteps => common_mono hw hsteps⟩

/-- The iteration ends on every rooted graph. On the way there every candidate stands before its node
and has a candidate itself, the next node can be improved, and the fingers meet from any two nodes with
candidates, with any number of steps that is large enough; likewise the end does not depend on how many
sweeps are allowed. -/
theorem iteration_progresses {succs preds : Array (List Nat)} {root : Nat}
    (h : Mirrors succs preds) (hroot : root < succs.size) :
    ∃ post, (Graph.ofTable succs).postOrder root [] = .ok post ∧ (∀ x ∈ post, x < preds.size) ∧
      (∀ T rest, Moment root post.reverse preds T rest →
        Candidates (Graph.ofTable succs).Arc root post.reverse preds.size T ∧
        (∀ x, rest.head? = some x → ∃ U, improve post.reverse preds T x = .ok U) ∧
        ∀ a b, (∃ p, link T a = some p) → (∃ p, link T b = some p) →
          ∃ w, (∃ p, link T w = some p) ∧ ∀ steps,
            post.reverse.idxOf a + post.reverse.idxOf b < steps →
              common post.reverse T steps a b = .ok w) ∧
      ∃ T, Moment root post.reverse preds T [] ∧ sweep post.reverse preds T = .ok T ∧
        (∀ sweeps, post.length + 1 < sweeps →
          settle post.reverse preds sweeps (start root preds.size) = .ok T) ∧
        ofOrder root post.reverse preds = .ok ⟨T, root⟩ := by
  obtain ⟨post, hpost, hin⟩ := h.exists_isInput hroot
  obtain ⟨T, -, hsettle⟩ := exists_settle hin
  have hcount := hin.lt_sweepCount
  obtain ⟨hmoment, hfixed⟩ := Moment.begin.settle (hsettle _ hcount)
  rw [List.length_reverse] at hsettle
  refine ⟨post, hpost, fun x hx => hin.bound x (List.mem_reverse.mpr hx), fun T rest hT => ?_,
    T, hmoment, hfixed, hsettle, ofOrder_of_settle (hsettle _ (List.length_reverse ▸ hcount))⟩
  obtain ⟨done, hpartway⟩ := hT.partway hin
  refine ⟨hpartway.toCandidates, fun x hx => ?_, fun a b => hpartway.toCandidates.exists_common hin⟩
  obtain ⟨after, rfl⟩ := List.head?_eq_some_iff.mp hx
  obtain ⟨U, hU, -⟩ := hpartway.improve_eq_ok hin
  exact ⟨U, hU⟩

/-- Two cycles that can be entered at three nodes. An arc stands twice, and 6 cannot be reached. -/
def tangle : Array (List Nat) := #[[1, 2], [3], [4, 5], [4], [3, 5], [4, 4], [3]]

def tangleSources : Array (List Nat) := #[[], [0], [0], [4, 6, 1], [5, 2, 3, 5], [2, 4], []]

theorem mirrors_tangle : Mirrors tangle tangleSources := by
  have hsources : ∀ n < 7, ∀ m ∈ tangleSources[n]?.getD [], n ∈ tangle[m]?.getD [] := by decide
  have htargets : ∀ m < 7, ∀ n ∈ tangle[m]?.getD [], m ∈ tangleSources[n]?.getD [] := by decide
  exact ⟨rfl, fun m n => ⟨fun h => hsources n (lt_size_of_mem_row h) m h,
    fun h => htargets m (lt_size_of_mem_row h) n h⟩⟩

/-- In the middle of the first sweep the candidate of 3 is 1, in the end it is the root. -/
theorem tangle_iteration_progresses :
    ∃ T U, Moment 0 [0, 2, 1, 3, 4, 5] tangleSources T [4, 5] ∧ link T 3 = some 1 ∧
      [0, 2, 1, 3, 4, 5].idxOf 1 < [0, 2, 1, 3, 4, 5].idxOf 3 ∧
      (∀ steps, 4 < steps → common [0, 2, 1, 3, 4, 5] T steps 3 2 = .ok 0) ∧
      sweep [0, 2, 1, 3, 4, 5] tangleSources U = .ok U ∧ link U 3 = some 0 ∧
      ofOrder 0 [0, 2, 1, 3, 4, 5] tangleSources = .ok ⟨U, 0⟩ := by
  obtain ⟨post, hpost, -, hmoments, U, -, hfixed, -, htree⟩ :=
    iteration_progresses mirrors_tangle (by decide : 0 < tangle.size)
  have hwalk : (Graph.ofTable tangle).postOrder 0 [] = .ok [5, 4, 3, 1, 2, 0] := by decide +kernel
  cases hpost.symm.trans hwalk
  have hmoment : Moment 0 [0, 2, 1, 3, 4, 5] tangleSources
      #[some 0, some 0, some 0, some 1, none, none, none] [4, 5] :=
    ((Moment.begin.improved rfl).improved rfl).improved rfl
  obtain ⟨hcandidates, -, hcommon⟩ := hmoments _ _ hmoment
  obtain ⟨w, -, hw⟩ := hcommon 3 2 ⟨1, rfl⟩ ⟨0, rfl⟩
  cases (hw 5 (by decide)).symm.trans (rfl : _ = Except.ok 0)
  have hend : ofOrder 0 [0, 2, 1, 3, 4, 5] tangleSources =
      .ok ⟨#[some 0, some 0, some 0, some 0, some 0, some 0, none], 0⟩ := by decide +kernel
  cases hend.symm.trans htree
  exact ⟨_, _, hmoment, rfl, hcandidates.before rfl (by decide), hw, hfixed, rfl, hend⟩

end Tree

end FlowGraph
