import FlowGraph.Proofs.Edit.Tracked
import FlowGraph.Proofs.History
import FlowGraph.Proofs.Loop.Fresh

namespace FlowGraph

/-- The changes of control flow that the analyses can follow. -/
inductive Reshape where
  | splitEdge (b : BlockId) (e : Nat)
  | splitCriticalEdge (b : BlockId) (e : Nat)
  | splitCriticalEdgeTo (source dest : BlockId)
  | splitEdgesTo (source dest : BlockId)
  | splitAllCriticalEdges
  | mergeWithSuccessor (b : BlockId)
  deriving DecidableEq, Repr

namespace Reshape

def apply (t : Tracked) : Reshape → Except Fault Tracked
  | splitEdge b e => return (← t.splitEdge b e).2
  | splitCriticalEdge b e => return (← t.splitCriticalEdge b e).2
  | splitCriticalEdgeTo source dest => return (← t.splitCriticalEdgeTo source dest).2
  | splitEdgesTo source dest => return (← t.splitEdgesTo source dest).2
  | splitAllCriticalEdges => return (← t.splitAllCriticalEdges).2
  | mergeWithSuccessor b => return (← t.mergeWithSuccessor b).2

/-- The change is asked of a live block, and of an edge that it has. -/
def InRange (f : Body) : Reshape → Prop
  | splitEdge b e => (f.target? ⟨b, e⟩).isSome = true
  | splitCriticalEdge b e => (f.target? ⟨b, e⟩).isSome = true
  | splitCriticalEdgeTo source _ => f.isLiveBlock source = true
  | splitEdgesTo source _ => f.isLiveBlock source = true
  | splitAllCriticalEdges => True
  | mergeWithSuccessor b => f.isLiveBlock b = true

def splits : Reshape → Bool
  | mergeWithSuccessor _ => false
  | _ => true

/-- The steps of which the change is made up. -/
def Does (f g : Body) (c : Reshape) : Prop :=
  if c.splits then Relation.ReflTransGen Body.SplitOnce f g
  else Relation.ReflTransGen Body.MergeOnce f g

def cost (f : Body) : Reshape → Nat
  | splitEdge _ _ => 1
  | splitCriticalEdge _ _ => 1
  | splitCriticalEdgeTo _ _ => 1
  | splitEdgesTo source _ => (f.edgesFrom source).length
  | splitAllCriticalEdges => f.edgeTargets.length
  | mergeWithSuccessor _ => 0

end Reshape

namespace Tracked

variable {start t t' : Tracked}

/-- A sequence of changes leads from the first tracked body to the second. -/
inductive Reshaped (start : Tracked) : Tracked → Prop
  | refl : Reshaped start start
  | step {t t' : Tracked} (c : Reshape) (ht : Reshaped start t) (hin : c.InRange t.body)
      (hrun : c.apply t = .ok t') : Reshaped start t'

theorem Splits.apply_cases {α : Type} {n : Nat} {x : Except Fault (α × Tracked)}
    (hx : Splits n t x) :
    (∃ t', (do return (← x).2 : Except Fault Tracked) = .ok t' ∧ t.Grows n t') ∨
      ∃ space, (do return (← x).2 : Except Fault Tracked) = .error (.idOverflow space) ∧
        ¬ t.body.HasRoom n := by
  rcases hx with ⟨a, t', rfl, hgrows⟩ | ⟨space, rfl, hroom⟩
  · exact .inl ⟨t', rfl, hgrows⟩
  · exact .inr ⟨space, rfl, hroom⟩

theorem Sound.grows_cases (ht : t.Sound) {c : Reshape} (hc : c.splits = true)
    (hin : c.InRange t.body) :
    (∃ t', c.apply t = .ok t' ∧ t.Grows (c.cost t.body) t') ∨
      ∃ space, c.apply t = .error (.idOverflow space) ∧ ¬ t.body.HasRoom (c.cost t.body) := by
  cases c with
  | splitEdge b e => exact (ht.splits_splitEdge hin).apply_cases
  | splitCriticalEdge b e => exact (ht.splits_splitCriticalEdge hin).apply_cases
  | splitCriticalEdgeTo source dest => exact (ht.splits_splitCriticalEdgeTo hin dest).apply_cases
  | splitEdgesTo source dest => exact (ht.splits_splitEdgesTo hin dest).apply_cases
  | splitAllCriticalEdges => exact ht.splits_splitAllCriticalEdges.apply_cases
  | mergeWithSuccessor b => cases hc

/-- A change that is in range keeps a tracked body sound, or lacks numbers for new blocks. -/
theorem Sound.apply_cases (ht : t.Sound) {c : Reshape} (hin : c.InRange t.body) :
    (∃ t', c.apply t = .ok t' ∧ t.Keeps t' ∧ c.Does t.body t'.body) ∨
      ∃ space, c.apply t = .error (.idOverflow space) ∧ ¬ t.body.HasRoom (c.cost t.body) := by
  rcases hc : c.splits with _ | _
  · cases c with
    | mergeWithSuccessor b =>
        obtain ⟨merged, t', hrun, hkeeps, hmerges⟩ := ht.exists_mergeWithSuccessor hin
        refine .inl ⟨t', ?_, hkeeps, hmerges⟩
        rw [Reshape.apply, hrun]
        rfl
    | _ => cases hc
  · rcases ht.grows_cases hc hin with ⟨t', hrun, hgrows⟩ | hfail
    · refine .inl ⟨t', hrun, hgrows.keeps, ?_⟩
      rw [Reshape.Does, if_pos hc]
      exact hgrows.splits
    · exact .inr hfail

/-- Every change of a sequence keeps the tracked body sound. -/
theorem Reshaped.keeps (h : Reshaped start t) (hstart : start.Sound) : start.Keeps t := by
  induction h with
  | refl => exact .refl hstart
  | step c _ hin hrun ih =>
      refine ih.trans ?_
      rcases ih.sound.apply_cases hin with ⟨next, hnext, hkeeps, -⟩ | ⟨space, hfail, -⟩
      · rw [hrun] at hnext
        cases hnext
        exact hkeeps
      · rw [hrun] at hfail
        cases hfail

theorem Sound.exists_dominators_agree (ht : t.Sound) (hsome : t.dominators.isSome = true) :
    ∃ d fresh, t.dominators = some d ∧ t.body.dominators = .ok fresh ∧ d.Agrees fresh := by
  obtain ⟨entry, hentry⟩ := ht.valid.exists_entry
  obtain ⟨d, hd⟩ := Option.isSome_iff_exists.mp hsome
  obtain ⟨fresh, hfresh, hrepresents⟩ := ht.consistent.exists_dominators hentry
  exact ⟨d, fresh, hd, hfresh, (ht.dominators hd hentry).agrees hrepresents⟩

theorem Sound.exists_loops_agree (ht : t.Sound) (hsome : t.loops.isSome = true) :
    ∃ forest d fresh, t.loops = some forest ∧ t.body.dominators = .ok d ∧
      t.body.loops d = .ok fresh ∧ forest.Agrees fresh ∧
      forest.staleness? t.body d = .ok none := by
  obtain ⟨entry, hentry⟩ := ht.valid.exists_entry
  obtain ⟨forest, hforest⟩ := Option.isSome_iff_exists.mp hsome
  obtain ⟨d, hd, hrepresents⟩ := ht.consistent.exists_dominators hentry
  obtain ⟨fresh, hfresh, hloops⟩ := ht.consistent.exists_loops hentry hrepresents
  have hstored := ht.loops hforest hentry
  exact ⟨forest, d, fresh, hforest, hd, hfresh, hstored.agrees hloops,
    hstored.staleness?_eq_none hloops hfresh⟩

end Tracked

namespace Body

variable {f : Body}

theorem Consistent.exists_analyses (hf : f.Consistent) (hv : f.Valid) :
    ∃ d forest, f.dominators = .ok d ∧ f.loops d = .ok forest := by
  obtain ⟨entry, hentry⟩ := hv.exists_entry
  obtain ⟨d, hd, hrepresents⟩ := hf.exists_dominators hentry
  obtain ⟨forest, hforest, -⟩ := hf.exists_loops hentry hrepresents
  exact ⟨d, forest, hd, hforest⟩

theorem Consistent.sound (hf : f.Consistent) (hv : f.Valid) {dominators : Option Dominators}
    {loops : Option LoopForest} (hdominators : ∀ d, dominators = some d → f.dominators = .ok d)
    (hloops : ∀ forest, loops = some forest →
      ∃ d, f.dominators = .ok d ∧ f.loops d = .ok forest) :
    (⟨f, dominators, loops⟩ : Tracked).Sound := by
  refine ⟨hf, hv, ?_, ?_⟩
  · intro d entry hd hentry
    obtain ⟨d', hd', hrepresents⟩ := hf.exists_dominators hentry
    cases hd'.symm.trans (hdominators d hd)
    exact hrepresents
  · intro forest entry hforest hentry
    obtain ⟨d, hd, hmade⟩ := hloops forest hforest
    obtain ⟨d', hd', hrepresents⟩ := hf.exists_dominators hentry
    cases hd'.symm.trans hd
    obtain ⟨forest', hforest', hloops'⟩ := hf.exists_loops hentry hrepresents
    cases hforest'.symm.trans hmade
    exact hloops'

end Body

/-- A stored dominator tree follows every sequence of changes. After each of them it answers as a new
tree, for all blocks, and the next change does not fail while there are numbers for the blocks that it
adds. -/
theorem WellBuilt.dominators_follow {f : Body} (hf : WellBuilt f)
    (hv : f.verify.run = .ok (.ok ())) :
    ∃ d, f.dominators = .ok d ∧
      ∀ loops, (∀ forest, loops = some forest → f.loops d = .ok forest) →
        ∀ t, Tracked.Reshaped ⟨f, some d, loops⟩ t →
          (∃ d' fresh, t.dominators = some d' ∧ t.body.dominators = .ok fresh ∧ d'.Agrees fresh) ∧
          ∀ c : Reshape, c.InRange t.body →
            (∃ t', c.apply t = .ok t') ∨
              ∃ space, c.apply t = .error (.idOverflow space) ∧
                ¬ t.body.HasRoom (c.cost t.body) := by
  have hvalid := hf.consistent.verify_iff.mp hv
  obtain ⟨d, -, hd, -⟩ := hf.consistent.exists_analyses hvalid
  refine ⟨d, hd, fun loops hloops t ht => ?_⟩
  have hdominators : ∀ other, some d = some other → f.dominators = .ok other := by
    rintro _ ⟨⟩
    exact hd
  have hkeeps := ht.keeps (hf.consistent.sound hvalid hdominators fun forest hforest =>
    ⟨d, hd, hloops forest hforest⟩)
  refine ⟨hkeeps.sound.exists_dominators_agree hkeeps.dominators, fun c hin => ?_⟩
  rcases hkeeps.sound.apply_cases hin with ⟨t', hrun, -⟩ | hfail
  · exact .inl ⟨t', hrun⟩
  · exact .inr hfail

/-- A loop around one block. -/
def smallLoop : Body := replayed loopHistory

theorem smallLoop_dominators_follow :
    ∃ d t d' fresh, smallLoop.dominators = .ok d ∧
      (Reshape.splitEdge ⟨1⟩ 0).apply ⟨smallLoop, some d, none⟩ = .ok t ∧
      t.dominators = some d' ∧ t.body.dominators = .ok fresh ∧ d'.Agrees fresh := by
  obtain ⟨d, hd, hfollow⟩ := WellBuilt.dominators_follow (wellBuilt_replayed loopHistory) (by cbv)
  have hin : (Reshape.splitEdge ⟨1⟩ 0).InRange smallLoop := by cbv
  have hnone : ∀ forest, none = some forest → smallLoop.loops d = .ok forest := by simp
  rcases (hfollow none hnone _ .refl).2 _ hin with ⟨t, ht⟩ | ⟨space, -, hroom⟩
  · obtain ⟨d', fresh, hd', hfresh, hagrees⟩ := (hfollow none hnone t (.step _ .refl hin ht)).1
    exact ⟨d, t, d', fresh, hd, ht, hd', hfresh, hagrees⟩
  · exact absurd (by cbv) hroom

/-- A stored loop forest follows every sequence of changes, also where cycles can be entered at
several places. After each of them it has the loops of a new forest and is not found stale, and the
next change does not fail while there are numbers for the blocks that it adds. -/
theorem WellBuilt.loops_follow {f : Body} (hf : WellBuilt f) (hv : f.verify.run = .ok (.ok ())) :
    ∃ d forest, f.dominators = .ok d ∧ f.loops d = .ok forest ∧
      ∀ dominators, (∀ d', dominators = some d' → f.dominators = .ok d') →
        ∀ t, Tracked.Reshaped ⟨f, dominators, some forest⟩ t →
          (∃ forest' d' fresh, t.loops = some forest' ∧ t.body.dominators = .ok d' ∧
            t.body.loops d' = .ok fresh ∧ forest'.Agrees fresh ∧
            forest'.staleness? t.body d' = .ok none) ∧
          ∀ c : Reshape, c.InRange t.body →
            (∃ t', c.apply t = .ok t') ∨
              ∃ space, c.apply t = .error (.idOverflow space) ∧
                ¬ t.body.HasRoom (c.cost t.body) := by
  have hvalid := hf.consistent.verify_iff.mp hv
  obtain ⟨d, forest, hd, hforest⟩ := hf.consistent.exists_analyses hvalid
  refine ⟨d, forest, hd, hforest, fun dominators hdominators t ht => ?_⟩
  have hloops : ∀ other, some forest = some other →
      ∃ d, f.dominators = .ok d ∧ f.loops d = .ok other := by
    rintro _ ⟨⟩
    exact ⟨d, hd, hforest⟩
  have hkeeps := ht.keeps (hf.consistent.sound hvalid hdominators hloops)
  refine ⟨hkeeps.sound.exists_loops_agree hkeeps.loops, fun c hin => ?_⟩
  rcases hkeeps.sound.apply_cases hin with ⟨t', hrun, -⟩ | hfail
  · exact .inl ⟨t', hrun⟩
  · exact .inr hfail

theorem smallLoop_loops_follow :
    ∃ d forest t forest', smallLoop.dominators = .ok d ∧ smallLoop.loops d = .ok forest ∧
      (Reshape.splitEdge ⟨1⟩ 0).apply ⟨smallLoop, some d, some forest⟩ = .ok t ∧
      t.loops = some forest' ∧ ∃ d' fresh, t.body.dominators = .ok d' ∧
        t.body.loops d' = .ok fresh ∧ forest'.Agrees fresh := by
  obtain ⟨d, forest, hd, hforest, hfollow⟩ :=
    WellBuilt.loops_follow (wellBuilt_replayed loopHistory) (by cbv)
  have hin : (Reshape.splitEdge ⟨1⟩ 0).InRange smallLoop := by cbv
  have hsame : ∀ d', some d = some d' → smallLoop.dominators = .ok d' := by
    rintro d' ⟨⟩
    exact hd
  rcases (hfollow (some d) hsame _ .refl).2 _ hin with ⟨t, ht⟩ | ⟨space, -, hroom⟩
  · obtain ⟨forest', d', fresh, hforest', hd', hfresh, hagrees, -⟩ :=
      (hfollow (some d) hsame t (.step _ .refl hin ht)).1
    exact ⟨d, forest, t, forest', hd, hforest, ht, hforest', d', fresh, hd', hfresh, hagrees⟩
  · exact absurd (by cbv) hroom

end FlowGraph
