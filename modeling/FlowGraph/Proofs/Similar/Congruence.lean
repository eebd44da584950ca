import FlowGraph.Program
import FlowGraph.Proofs.Similar.Analysis

namespace FlowGraph

namespace Body

variable {f g : Body}

/-- Everything that is computed from either body is the same. Dominator trees record whose they are. -/
structure SameAnswers (f g : Body) : Prop where
  verify : f.verify.run = g.verify.run
  assertValid : f.assertValid = g.assertValid
  usesOf : ∀ v, f.usesOf v = g.usesOf v
  hasUses : ∀ v, f.hasUses v = g.hasUses v
  canDuplicate : ∀ (l : Loop) point, l.canDuplicate f point = l.canDuplicate g point
  /-- All traversals are of these two graphs. -/
  flow : f.flow = g.flow
  backflow : f.backflow = g.backflow
  blockOrder : f.blockOrder = g.blockOrder
  dominators : Agree (Dominators.Alike f.id g.id) f.dominators g.dominators
  pointDominates : ∀ {d e : Dominators}, d.Alike f.id g.id e → ∀ a b,
    d.pointDominates f a b = e.pointDominates g a b ∧
      d.pointProperlyDominates f a b = e.pointProperlyDominates g a b
  valueDominates : ∀ {d e : Dominators}, d.Alike f.id g.id e → ∀ v point,
    d.valueDominates f v point = e.valueDominates g v point ∧
      d.valueProperlyDominates f v point = e.valueProperlyDominates g v point
  staleDominators : ∀ {i j} {d e : Dominators}, d.Alike i j e → d.staleness? f = e.staleness? g
  postDominators : Agree (PostDominators.Alike f.id g.id) f.postDominators g.postDominators
  stalePostDominators : ∀ {d e : PostDominators}, d.Alike f.id g.id e →
    d.staleness? f = e.staleness? g
  loops : ∀ {i j} {d e : Dominators}, d.Alike i j e → f.loops d = g.loops e
  staleLoops : ∀ {i j} {d e : Dominators}, d.Alike i j e → ∀ forest : LoopForest,
    forest.staleness? f d = forest.staleness? g e
  loopEdges : ∀ l : Loop, l.latches f = l.latches g ∧ l.exitingBlocks f = l.exitingBlocks g ∧
    l.exitBlocks f = l.exitBlocks g ∧ l.preheader? f = l.preheader? g
  deadEnds : ∀ stored : DeadEnds, stored.compute f = stored.compute g ∧
    stored.deadEnds f = stored.deadEnds g ∧ ∀ b, stored.isDeadEnd f b = stored.isDeadEnd g b

/-- Every edit of either body faults alike, or returns the same and leaves bodies that are alike. -/
structure SameEdits (f g : Body) : Prop where
  createBlock : Agree (Paired Alike) f.createBlock g.createBlock
  createBlockAfter : ∀ b, Agree (Paired Alike) (f.createBlockAfter b) (g.createBlockAfter b)
  createBlockBefore : ∀ b, Agree (Paired Alike) (f.createBlockBefore b) (g.createBlockBefore b)
  setOwnership : ∀ v ownership, Agree Alike (f.setOwnership v ownership) (g.setOwnership v ownership)
  addPhi : ∀ b type ownership,
    Agree (Paired Alike) (f.addPhi b type ownership) (g.addPhi b type ownership)
  addFunctionArg : ∀ b type convention,
    Agree (Paired Alike) (f.addFunctionArg b type convention) (g.addFunctionArg b type convention)
  eraseArg : ∀ b index, Agree Alike (f.eraseArg b index) (g.eraseArg b index)
  appendInstr : ∀ b op, Agree (Paired Alike) (f.appendInstr b op) (g.appendInstr b op)
  insertInstr : ∀ b position op,
    Agree (Paired Alike) (f.insertInstr b position op) (g.insertInstr b position op)
  eraseInstr : ∀ i, Agree Alike (f.eraseInstr i) (g.eraseInstr i)
  setTerminator : ∀ b t, Agree (Paired Alike) (f.setTerminator b t) (g.setTerminator b t)
  setSuccessor : ∀ b e dest, Agree Alike (f.setSuccessor b e dest) (g.setSuccessor b e dest)
  setEdgeArgs : ∀ b e args, Agree (Paired Alike) (f.setEdgeArgs b e args) (g.setEdgeArgs b e args)
  replaceAllUses : ∀ old new, (f.replaceAllUses old new).Alike (g.replaceAllUses old new)
  splitBlock : ∀ b position, Agree (Paired Alike) (f.splitBlock b position) (g.splitBlock b position)
  mergeTarget : ∀ b, f.mergeTarget b = g.mergeTarget b
  mergeWithSuccessor : ∀ b,
    Agree (Agree (Paired Alike)) (f.mergeWithSuccessor b) (g.mergeWithSuccessor b)
  eraseBlock : ∀ b, Agree Alike (f.eraseBlock b) (g.eraseBlock b)
  redirect : ∀ b e dest keepArgs,
    Agree Alike (f.redirect b e dest keepArgs) (g.redirect b e dest keepArgs)
  redirectAll : ∀ b old new keepArgs,
    Agree Alike (f.redirectAll b old new keepArgs) (g.redirectAll b old new keepArgs)
  forwardedArgs : ∀ b e via,
    Agree (Paired Alike) (f.forwardedArgs b e via) (g.forwardedArgs b e via)
  isCriticalEdge : ∀ b e, f.isCriticalEdge b e = g.isCriticalEdge b e
  criticalEdges : f.criticalEdges = g.criticalEdges
  mergeBlocks : Agree (Paired Alike) f.mergeBlocks g.mergeBlocks
  erasePhi : ∀ b index clean, Agree Alike (f.erasePhi b index clean) (g.erasePhi b index clean)

namespace Alike

theorem sameAnswers (h : f.Alike g) (hf : f.UsesListed) : f.SameAnswers g where
  verify := congrArg ExceptT.run h.verify
  assertValid := h.assertValid
  usesOf := h.usesOf
  hasUses := h.hasUses
  canDuplicate := h.canDuplicate hf
  flow := h.read fun f => f.flow
  backflow := h.read fun f => f.backflow
  blockOrder := h.read fun f => f.blockOrder
  dominators := h.dominators
  pointDominates hd a b := ⟨hd.pointDominates h a b, hd.pointProperlyDominates h a b⟩
  valueDominates hd v point := ⟨hd.valueDominates h v point, hd.valueProperlyDominates h v point⟩
  staleDominators hd := hd.staleness? h
  postDominators := h.postDominators
  stalePostDominators hd := hd.staleness? h
  loops hd := hd.loops h
  staleLoops hd forest := hd.loopStaleness? h forest
  loopEdges l := ⟨h.read fun f => l.latches f, h.read fun f => l.exitingBlocks f,
    h.read fun f => l.exitBlocks f, h.read fun f => l.preheader? f⟩
  deadEnds stored := ⟨h.read fun f => stored.compute f, h.read fun f => stored.deadEnds f,
    fun b => h.read fun f => stored.isDeadEnd f b⟩

theorem sameEdits (h : f.Alike g) : f.SameEdits g where
  createBlock := h.createBlock
  createBlockAfter := h.createBlockAfter
  createBlockBefore := h.createBlockBefore
  setOwnership := h.setOwnership
  addPhi b type ownership := h.addArg b type ownership .phi
  addFunctionArg b type convention := h.addArg b type convention.ownership (.function convention)
  eraseArg := h.eraseArg
  appendInstr := h.appendInstr
  insertInstr := h.insertInstr
  eraseInstr := h.eraseInstr
  setTerminator := h.setTerminator
  setSuccessor := h.setSuccessor
  setEdgeArgs := h.setEdgeArgs
  replaceAllUses := h.replaceAllUses
  splitBlock := h.splitBlock
  mergeTarget := h.mergeTarget
  mergeWithSuccessor := h.mergeWithSuccessor
  eraseBlock := h.eraseBlock
  redirect := h.redirect
  redirectAll := h.redirectAll
  forwardedArgs := h.forwardedArgs
  isCriticalEdge := h.isCriticalEdge
  criticalEdges := h.criticalEdges
  mergeBlocks := h.mergeBlocks
  erasePhi := h.erasePhi

end Alike

theorem Alike.apply (h : f.Alike g) (edit : Edit) : Agree Alike (edit.apply f) (edit.apply g) := by
  cases edit with
  | createBlock => exact h.createBlock.bind fun _ _ h => .result h.2
  | createBlockAfter sibling => exact (h.createBlockAfter sibling).bind fun _ _ h => .result h.2
  | createBlockBefore sibling => exact (h.createBlockBefore sibling).bind fun _ _ h => .result h.2
  | addPhi b type ownership =>
      exact (h.addArg b type ownership .phi).bind fun _ _ h => .result h.2
  | addFunctionArg b type convention =>
      exact (h.addArg b type _ (.function convention)).bind fun _ _ h => .result h.2
  | eraseArg b index => exact h.eraseArg b index
  | appendInstr b op => exact (h.appendInstr b op).bind fun _ _ h => .result h.2
  | insertInstr b position op => exact (h.insertInstr b position op).bind fun _ _ h => .result h.2
  | eraseInstr i => exact h.eraseInstr i
  | setTerminator b t => exact (h.setTerminator b t).bind fun _ _ h => .result h.2
  | setSuccessor b e dest => exact h.setSuccessor b e dest
  | setEdgeArgs b e args => exact (h.setEdgeArgs b e args).bind fun _ _ h => .result h.2
  | replaceAllUses old new => exact .result (h.replaceAllUses old new)
  | setOwnership v ownership => exact h.setOwnership v ownership
  | splitBlock b position => exact (h.splitBlock b position).bind fun _ _ h => .result h.2
  | mergeWithSuccessor b =>
      refine (h.mergeWithSuccessor b).bind ?_
      rintro _ _ (refusal | hmerged)
      · exact .result h
      · exact .result hmerged.2
  | eraseBlock b => exact h.eraseBlock b

/-- Sequences of edits agree as the single edits do. -/
theorem Alike.history (h : f.Alike g) (edits : List Edit) :
    Agree Alike (edits.foldlM Edit.apply f) (edits.foldlM Edit.apply g) := by
  induction edits generalizing f g with
  | nil => exact .result h
  | cons edit rest ih =>
      rw [List.foldlM_cons, List.foldlM_cons]
      exact (h.apply edit).bind fun _ _ h => ih h

end Body

/-- Every change of control flow agrees, and keeps the analyses alike. -/
structure Tracked.SameEdits (i j : BodyId) (t u : Tracked) : Prop where
  splitEdge : ∀ b e, Agree (Paired (Alike i j)) (t.splitEdge b e) (u.splitEdge b e)
  splitCriticalEdge : ∀ b e,
    Agree (Paired (Alike i j)) (t.splitCriticalEdge b e) (u.splitCriticalEdge b e)
  splitCriticalEdgeTo : ∀ source dest,
    Agree (Paired (Alike i j)) (t.splitCriticalEdgeTo source dest) (u.splitCriticalEdgeTo source dest)
  splitEdgesTo : ∀ source dest,
    Agree (Paired (Alike i j)) (t.splitEdgesTo source dest) (u.splitEdgesTo source dest)
  splitAllCriticalEdges : Agree (Paired (Alike i j)) t.splitAllCriticalEdges u.splitAllCriticalEdges
  mergeWithSuccessor : ∀ b,
    Agree (Paired (Alike i j)) (t.mergeWithSuccessor b) (u.mergeWithSuccessor b)

theorem Tracked.Alike.sameEdits {i j : BodyId} {t u : Tracked} (h : t.Alike i j u) :
    t.SameEdits i j u where
  splitEdge := h.splitEdge
  splitCriticalEdge := h.splitCriticalEdge
  splitCriticalEdgeTo := h.splitCriticalEdgeTo
  splitEdgesTo := h.splitEdgesTo
  splitAllCriticalEdges := h.splitAllCriticalEdges
  mergeWithSuccessor := h.mergeWithSuccessor

theorem Agree.mapM_list {ε α β γ δ : Type} {r : α → β → Prop} {s : γ → δ → Prop} {xs : List α}
    {ys : List β} {k : α → Except ε γ} {l : β → Except ε δ} (h : List.Forall₂ r xs ys)
    (hk : ∀ a b, r a b → Agree s (k a) (l b)) : Agree (List.Forall₂ s) (xs.mapM k) (ys.mapM l) := by
  induction h with
  | nil => exact .result .nil
  | cons hab _ ih =>
      rw [List.mapM_cons, List.mapM_cons]
      exact (hk _ _ hab).bind fun _ _ hhead => ih.bind fun _ _ htail => .result (.cons hhead htail)

namespace Program

variable {p q : Program}

/-- The same number of bodies, which are alike one by one. -/
def Alike (p q : Program) : Prop := List.Forall₂ Body.Alike p.bodies q.bodies

namespace Alike

theorem sweep (h : p.Alike q) {edit : Body → Except Fault (Bool × Body)}
    (hedit : ∀ f g, f.Alike g → Agree (Paired Body.Alike) (edit f) (edit g)) :
    Agree (Paired Alike) (p.sweep edit) (q.sweep edit) := by
  refine (Agree.mapM_list h hedit).bind fun xs ys hresults => .result ⟨?_, ?_⟩
  · show xs.countP Prod.fst = ys.countP Prod.fst
    induction hresults with
    | nil => rfl
    | cons hab _ ih => rw [List.countP_cons, List.countP_cons, hab.1, ih]
  · show List.Forall₂ Body.Alike (xs.map Prod.snd) (ys.map Prod.snd)
    rw [List.forall₂_map_left_iff, List.forall₂_map_right_iff]
    exact hresults.imp fun _ _ hab => hab.2

theorem mergeBlocks (h : p.Alike q) : Agree (Paired Alike) p.mergeBlocks q.mergeBlocks :=
  h.sweep fun _ _ h => h.mergeBlocks

theorem splitCriticalEdges (h : p.Alike q) :
    Agree (Paired Alike) p.splitCriticalEdges q.splitCriticalEdges := by
  refine h.sweep fun f g h => ?_
  have htracked : Tracked.Alike f.id g.id { body := f } { body := g } := ⟨h, .none, rfl⟩
  exact htracked.splitAllCriticalEdges.bind fun _ _ h => .result ⟨h.1, h.2.body⟩

theorem deadEnds (h : p.Alike q) : p.deadEnds = q.deadEnds := by
  have hends : ∀ f g : Body, f.Alike g →
      Agree Eq (({} : DeadEnds).deadEnds f) (({} : DeadEnds).deadEnds g) := by
    intro f g h
    rw [show ({} : DeadEnds).deadEnds f = ({} : DeadEnds).deadEnds g from
      h.read fun f => ({} : DeadEnds).deadEnds f]
    exact .of_eq _
  have hmap := Agree.mapM_list h hends
  rw [List.forall₂_eq_eq_eq] at hmap
  exact hmap.eq

end Alike

end Program

/-- Similarity is an equivalence that compares everything but identities and orders of use lists. Of
similar bodies, one of which is well-built, all answers are the same, and all edits agree. -/
theorem Body.similar_congruence :
    Equivalence (fun f g : Body => f.similar g = true) ∧
    (∀ f g : Body, f.similar g = true ↔
      f.name = g.name ∧ f.blocks = g.blocks ∧ f.layout = g.layout ∧ f.instrs = g.instrs ∧
        f.values = g.values ∧ f.useIndex.users.size = g.useIndex.users.size ∧
        ∀ v, (f.usersOf v).Perm (g.usersOf v)) ∧
    (∀ f g : Body, WellBuilt f → f.similar g = true →
      f.fingerprint = g.fingerprint ∧ f.SameAnswers g ∧ f.SameEdits g ∧
      (∀ edits : List Edit, Agree Alike (edits.foldlM Edit.apply f) (edits.foldlM Edit.apply g)) ∧
      ∀ i j dominators dominators' loops,
        Option.Rel (Dominators.Alike i j) dominators dominators' →
          Tracked.SameEdits i j ⟨f, dominators, loops⟩ ⟨g, dominators', loops⟩) ∧
    ∀ p q : Program, p.Alike q → p.deadEnds = q.deadEnds ∧
      Agree (Paired Program.Alike) p.mergeBlocks q.mergeBlocks ∧
      Agree (Paired Program.Alike) p.splitCriticalEdges q.splitCriticalEdges := by
  refine ⟨⟨Alike.refl, Alike.symm, Alike.trans⟩, fun f g => ?_, fun f g hf h => ?_, fun p q h => ?_⟩
  · refine alike_iff.trans ?_
    rw [bare_eq_iff]
    constructor
    · rintro ⟨⟨hname, hblocks, hlayout, hinstrs, hvalues⟩, huses⟩
      exact ⟨hname, hblocks, hlayout, hinstrs, hvalues, huses.size, huses.perm⟩
    · rintro ⟨hname, hblocks, hlayout, hinstrs, hvalues, hsize, hperm⟩
      exact ⟨⟨hname, hblocks, hlayout, hinstrs, hvalues⟩, hsize, hperm⟩
  · have h : f.Alike g := h
    refine ⟨h.fingerprint, h.sameAnswers hf.consistent.uses, h.sameEdits, h.history, ?_⟩
    intro i j dominators dominators' loops hd
    exact Tracked.Alike.sameEdits ⟨h, hd, rfl⟩
  · exact ⟨h.deadEnds, h.mergeBlocks, h.splitCriticalEdges⟩

/-- The same body under another identity, with every use list in the opposite order. -/
def mirrored (f : Body) : Body :=
  { f with id := ⟨f.id.serial + 1⟩, useIndex := ⟨f.useIndex.users.map List.reverse⟩ }

/-- A loop around an access that is read inside the loop and ended outside. -/
def accessLoop : Body :=
  replayed [.createBlock, .createBlock, .createBlock,
    .addFunctionArg ⟨0⟩ .address .indirect,
    .appendInstr ⟨1⟩ (.beginAccess ⟨0⟩),
    .appendInstr ⟨1⟩ (.builtin "load" [⟨1⟩, ⟨0⟩] (some (.bool, .none)) true),
    .appendInstr ⟨2⟩ (.endAccess ⟨1⟩),
    .setTerminator ⟨0⟩ (.br ⟨1⟩ []),
    .setTerminator ⟨1⟩ (.condBr ⟨2⟩ ⟨1⟩ [] ⟨2⟩ []),
    .setTerminator ⟨2⟩ (.ret ⟨0⟩)]

theorem accessLoop_mirrored_congruence :
    (mirrored accessLoop).usersOf ⟨1⟩ = [.instr ⟨2⟩, .instr ⟨1⟩] ∧
      accessLoop.usersOf ⟨1⟩ = [.instr ⟨1⟩, .instr ⟨2⟩] ∧
      accessLoop.fingerprint = (mirrored accessLoop).fingerprint ∧
      accessLoop.SameAnswers (mirrored accessLoop) ∧ accessLoop.SameEdits (mirrored accessLoop) := by
  have hbuilt : WellBuilt accessLoop := wellBuilt_replayed _
  have hsimilar : accessLoop.similar (mirrored accessLoop) = true := by cbv
  obtain ⟨hprint, hanswers, hedits, -⟩ := Body.similar_congruence.2.2.1 _ _ hbuilt hsimilar
  exact ⟨by decide +kernel, by decide +kernel, hprint, hanswers, hedits⟩

end FlowGraph
