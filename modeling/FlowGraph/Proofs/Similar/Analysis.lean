import FlowGraph.DeadEnd
import FlowGraph.Dominators.Backward
import FlowGraph.Loop.Boundary
import FlowGraph.Loop.Discovery
import FlowGraph.Proofs.History
import FlowGraph.Proofs.Similar.Utility

/-!
What is computed from bodies that are alike is the same: verification, uses, traversals, dominators,
loops and dead ends. Only one question reads a use list in its own order, whether a loop can be copied.
It stops at the first reader outside the loop, or faults at a reader that does not exist; in a
well-built body all readers exist, and the order does not show.
-/

namespace FlowGraph

/-- Whether all items of a list satisfy a condition does not depend on their order, if none of them
faults. -/
theorem allM_congr_perm {ε α : Type} {p : α → Except ε Bool} {l m : List α} (hperm : l.Perm m)
    (h : ∀ x ∈ l, ∃ c, p x = .ok c) : l.allM p = m.allM p := by
  let q : α → Bool := fun x => (p x).toOption.getD true
  have hq : ∀ x ∈ l, p x = .ok (q x) := by
    intro x hx
    obtain ⟨c, hc⟩ := h x hx
    simp [q, hc, Except.toOption]
  have hq' : ∀ x ∈ m, p x = .ok (q x) := fun x hx => hq x (hperm.mem_iff.mpr hx)
  rw [allM_eq_ok hq, allM_eq_ok hq', hperm.all_eq]

namespace Body

variable {f g : Body}

theorem UsesListed.exists_confinesReader (hf : f.UsesListed) (l : Loop) (concerns : Operation → Bool)
    {v : ValueId} {point : Point} (hpoint : point ∈ f.usersOf v) :
    ∃ c, l.confinesReader f concerns point = .ok c := by
  rcases point with i | b
  · have hread := hf.mem_usersOf.mp hpoint
    rcases hi : f.instr? i with _ | data
    · simp [operandsAt?, hi] at hread
    · exact ⟨_, by rw [Loop.confinesReader, instr_eq_ok.mpr hi]; rfl⟩
  · exact ⟨_, rfl⟩

namespace Alike

theorem fingerprint (h : f.Alike g) : f.fingerprint = g.fingerprint := by
  have hcounts : f.useIndex.users.map List.length = g.useIndex.users.map List.length := by
    refine Array.ext (by simp [h.uses.size]) fun n hn hn' => ?_
    have hlength := (h.uses.perm ⟨n⟩).length_eq
    rw [Array.size_map] at hn hn'
    simpa [UseIndex.usersOf, hn, hn'] using hlength
  obtain ⟨hname, hblocks, hlayout, hinstrs, hvalues⟩ := bare_eq_iff.mp h.bare
  rw [Body.fingerprint, Body.fingerprint, hname, hblocks, hlayout, hinstrs, hvalues, hcounts]

theorem verifyPreds (h : f.Alike g) (targets : List (BlockId × Edge)) (blocks : List BlockId) :
    f.verifyPreds targets blocks = g.verifyPreds targets blocks := by
  induction blocks generalizing targets with
  | nil => rfl
  | cons b rest ih => simp only [Body.verifyPreds, h.predecessors, ih]

theorem verifyUses (h : f.Alike g) (reads : List (ValueId × Point)) (vs : List ValueId) :
    f.verifyUses reads vs = g.verifyUses reads vs := by
  induction vs generalizing reads with
  | nil => rfl
  | cons v rest ih => simp only [Body.verifyUses, h.sortPoints_usersOf, ih]

theorem verify (h : f.Alike g) : f.verify = g.verify := by
  have hblocks : f.verifyBlock = g.verifyBlock := h.read fun f => f.verifyBlock
  have hentry : f.entry = g.entry := h.read fun f => f.entry
  have hedges : f.edgeTargets = g.edgeTargets := h.read fun f => f.edgeTargets
  have hreads : f.operandReads = g.operandReads := h.read fun f => f.operandReads
  have hdefined : f.definedIn = g.definedIn := h.read fun f => f.definedIn
  simp only [Body.verify, h.layout, hblocks, hentry, h.predecessors, h.verifyPreds, hedges,
    h.verifyUses, hreads, hdefined]

theorem assertValid (h : f.Alike g) : f.assertValid = g.assertValid := by
  have hname : f.name = g.name := h.read fun f => f.name
  rw [Body.assertValid, Body.assertValid, h.verify, hname]

theorem usesOf (h : f.Alike g) (v : ValueId) : f.usesOf v = g.usesOf v := by
  have hoperands : f.operandsAt = g.operandsAt := h.read fun f => f.operandsAt
  rw [Body.usesOf, Body.usesOf, h.readersOf v, hoperands]

theorem confines (h : f.Alike g) (hf : f.UsesListed) (l : Loop) (concerns : Operation → Bool)
    (result : Option ValueId) : l.confines f concerns result = l.confines g concerns result := by
  have hreader : l.confinesReader f concerns = l.confinesReader g concerns :=
    h.read fun f => l.confinesReader f concerns
  rcases result with _ | v
  · rfl
  · rw [Loop.confines, Loop.confines, ← hreader]
    exact allM_congr_perm (h.uses.perm v) fun point => hf.exists_confinesReader l concerns

theorem canDuplicate (h : f.Alike g) (hf : f.UsesListed) (l : Loop) (point : Point) :
    l.canDuplicate f point = l.canDuplicate g point := by
  rcases point with i | b
  · have hdefines : l.defines f = l.defines g := h.read fun f => l.defines f
    simp only [Loop.canDuplicate, Loop.canDuplicateInstr, h.instr i, h.confines hf, hdefines]
  · exact h.read fun f => l.canDuplicate f (.terminator b)

theorem pointPosition (h : f.Alike g) : f.pointPosition = g.pointPosition :=
  h.read fun f => f.pointPosition

theorem dominators (h : f.Alike g) :
    Agree (Dominators.Alike f.id g.id) f.dominators g.dominators := by
  refine .bind_eq (h.read fun f => f.entry) fun entry => ?_
  refine .bind_eq (h.read fun f => f.blockTable [] fun b =>
    return (← f.predecessors b).map fun e : Edge => e.block.index) fun preds => ?_
  refine .bind_eq (h.read fun f => f.reversePostOrderFrom entry []) fun order => ?_
  exact .bind_eq rfl fun tree => .result ⟨rfl, rfl⟩

end Alike

end Body

namespace Dominators.Alike

variable {f g : Body} {d e : Dominators} {i j : BodyId}

theorem requireOwner_left (hd : d.Alike f.id g.id e) : d.requireOwner f = .ok () := if_pos hd.1

theorem requireOwner_right (hd : d.Alike f.id g.id e) : e.requireOwner g = .ok () := by
  obtain ⟨-, rfl⟩ := hd
  exact if_pos rfl

theorem pointDominates (hd : d.Alike f.id g.id e) (h : f.Alike g) (a b : Point) :
    d.pointDominates f a b = e.pointDominates g a b := by
  rw [Dominators.pointDominates, Dominators.pointDominates, hd.requireOwner_left,
    hd.requireOwner_right, h.pointPosition]
  obtain ⟨-, rfl⟩ := hd
  rfl

theorem pointProperlyDominates (hd : d.Alike f.id g.id e) (h : f.Alike g) (a b : Point) :
    d.pointProperlyDominates f a b = e.pointProperlyDominates g a b := by
  rw [Dominators.pointProperlyDominates, Dominators.pointProperlyDominates, hd.pointDominates h]

theorem valueDominates (hd : d.Alike f.id g.id e) (h : f.Alike g) (v : ValueId) (point : Point) :
    d.valueDominates f v point = e.valueDominates g v point := by
  rw [Dominators.valueDominates, Dominators.valueDominates, h.value v, hd.requireOwner_left,
    hd.requireOwner_right, h.pointPosition]
  refine bind_congr fun data => ?_
  rcases data.origin with i | ⟨b, index, kind⟩
  · exact hd.pointDominates h _ _
  · obtain ⟨-, rfl⟩ := hd
    rfl

theorem valueProperlyDominates (hd : d.Alike f.id g.id e) (h : f.Alike g) (v : ValueId)
    (point : Point) : d.valueProperlyDominates f v point = e.valueProperlyDominates g v point := by
  simp only [Dominators.valueProperlyDominates, h.value v, hd.pointProperlyDominates h,
    hd.valueDominates h]

theorem staleness? (hd : d.Alike i j e) (h : f.Alike g) : d.staleness? f = e.staleness? g := by
  refine Agree.eq (h.dominators.bind fun fresh fresh' hfresh => .result ?_)
  obtain ⟨-, rfl⟩ := hd
  obtain ⟨-, rfl⟩ := hfresh
  rw [h.layout]
  rfl

theorem loops (hd : d.Alike i j e) (h : f.Alike g) : f.loops d = g.loops e := by
  obtain ⟨-, rfl⟩ := hd
  exact h.read fun f => f.loops d

theorem loopStaleness? (hd : d.Alike i j e) (h : f.Alike g) (forest : LoopForest) :
    forest.staleness? f d = forest.staleness? g e := by
  rw [LoopForest.staleness?, LoopForest.staleness?, hd.loops h, h.layout]

end Dominators.Alike

section PostDominators

variable {f g : Body} {d e : PostDominators} {i j : BodyId}

/-- The same tree, which belongs to body `i` on one side and to body `j` on the other. -/
def PostDominators.Alike (i j : BodyId) (d e : PostDominators) : Prop :=
  d.owner = i ∧ e = { d with owner := j }

theorem Body.Alike.postDominators (h : f.Alike g) :
    Agree (PostDominators.Alike f.id g.id) f.postDominators g.postDominators := by
  refine .bind_eq (h.read fun f => f.exitTable) fun table => ?_
  have hsize : f.blocks.size = g.blocks.size := h.read fun f => f.blocks.size
  rw [hsize]
  exact .bind_eq rfl fun order => .bind_eq rfl fun tree => .result ⟨rfl, rfl⟩

theorem PostDominators.Alike.staleness? (hd : d.Alike f.id g.id e) (h : f.Alike g) :
    d.staleness? f = e.staleness? g := by
  obtain ⟨howner, rfl⟩ := hd
  rw [PostDominators.staleness?, PostDominators.staleness?, if_neg (not_not.mpr howner),
    if_neg (not_not.mpr rfl)]
  refine Agree.eq (h.postDominators.bind fun fresh fresh' hfresh => .result ?_)
  obtain ⟨-, rfl⟩ := hfresh
  rw [h.layout]
  rfl

end PostDominators

end FlowGraph
