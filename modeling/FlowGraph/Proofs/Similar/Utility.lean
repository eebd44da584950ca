import FlowGraph.Edit.Merge
import FlowGraph.Edit.Phi
import FlowGraph.Edit.Split
import FlowGraph.Proofs.Similar.Edit

namespace FlowGraph

namespace Body

variable {f g : Body}

namespace Alike

theorem redirect (h : f.Alike g) (b : BlockId) (e : Nat) (dest : BlockId) (keepArgs : Bool) :
    Agree Alike (f.redirect b e dest keepArgs) (g.redirect b e dest keepArgs) := by
  rw [Body.redirect, Body.redirect]
  refine .ite (h.setSuccessor b e dest) ((h.setEdgeArgs b e []).bind_paired fun old f g h => ?_)
  exact h.setSuccessor b e dest

theorem redirectEach (h : f.Alike g) (b dest : BlockId) (keepArgs : Bool) (edges : List Nat) :
    Agree Alike (f.redirectEach b dest keepArgs edges) (g.redirectEach b dest keepArgs edges) := by
  induction edges generalizing f g with
  | nil => exact .result h
  | cons e rest ih => exact (h.redirect b e dest keepArgs).bind fun f g h => ih h

theorem redirectAll (h : f.Alike g) (b old new : BlockId) (keepArgs : Bool) :
    Agree Alike (f.redirectAll b old new keepArgs) (g.redirectAll b old new keepArgs) :=
  .bind_eq (h.successors b) fun _ => h.redirectEach b new keepArgs _

theorem copyAsPhis (h : f.Alike g) (b : BlockId) (vs : List ValueId) :
    Agree (Paired Alike) (f.copyAsPhis b vs) (g.copyAsPhis b vs) := by
  induction vs generalizing f g with
  | nil => exact .result ⟨rfl, h⟩
  | cons v rest ih =>
      refine .bind_eq (h.value v) fun data => ?_
      refine (h.addArg b data.type data.ownership .phi).bind_paired fun phi f g h => ?_
      refine (ih h).bind_paired fun phis f g h => ?_
      exact .result ⟨rfl, h⟩

theorem forwardedArgs (h : f.Alike g) (b : BlockId) (e : Nat) (via : BlockId) :
    Agree (Paired Alike) (f.forwardedArgs b e via) (g.forwardedArgs b e via) := by
  refine .bind_eq (h.read fun f => f.edgeArgs b e) ?_
  rintro (args | payload)
  · exact .result ⟨rfl, h⟩
  · refine .bind_eq (h.terminator b) fun t => .bind_eq rfl fun dest => ?_
    exact .bind_eq (h.block dest) fun data => h.copyAsPhis via data.args

theorem splitEdge (h : f.Alike g) (b : BlockId) (e : Nat) :
    Agree (Paired Alike) (f.splitEdge b e) (g.splitEdge b e) := by
  refine .bind_eq (h.terminator b) fun t => .bind_eq rfl fun dest => ?_
  refine (h.createBlockAfter b).bind_paired fun mid f g h => ?_
  refine (h.forwardedArgs b e mid).bind_paired fun args f g h => ?_
  refine (h.redirect b e mid false).bind fun f g h => ?_
  refine (h.setTerminator mid _).bind_paired fun old f g h => ?_
  exact .result ⟨rfl, h⟩

theorem isCriticalEdge (h : f.Alike g) (b : BlockId) (e : Nat) :
    f.isCriticalEdge b e = g.isCriticalEdge b e :=
  h.read fun f => f.isCriticalEdge b e

theorem criticalEdges (h : f.Alike g) : f.criticalEdges = g.criticalEdges :=
  h.read fun f => f.criticalEdges

theorem absorbChain (h : f.Alike g) (b : BlockId) :
    Agree (Paired Alike) (f.absorbChain b) (g.absorbChain b) := by
  induction hlen : f.liveBlocks.length using Nat.strongRecOn generalizing f g with
  | ind n ih =>
      rw [absorbChain_eq f, absorbChain_eq g]
      refine (h.mergeWithSuccessor b).bind_ok ?_
      rintro _ _ hmerge (refusal | @⟨⟨succ, f'⟩, ⟨_, g'⟩, ⟨rfl, h'⟩⟩)
      · exact .result ⟨rfl, h⟩
      · have hless := length_liveBlocks_lt_of_merge hmerge
        exact (ih _ (hlen ▸ hless) h' rfl).bind fun _ _ hlast => .result ⟨rfl, hlast.2⟩

theorem mergeEach (h : f.Alike g) (blocks : List BlockId) :
    Agree (Paired Alike) (f.mergeEach blocks) (g.mergeEach blocks) := by
  induction blocks generalizing f g with
  | nil => exact .result ⟨rfl, h⟩
  | cons b rest ih =>
      have hterm : ((f.block? b).bind (·.terminator)).isSome =
          ((g.block? b).bind (·.terminator)).isSome :=
        h.read fun f => ((f.block? b).bind (·.terminator)).isSome
      have hrest : ∀ x y : Bool × Body, Paired Alike x y → Agree (Paired Alike)
          (x.2.mergeEach rest >>= fun there => pure (x.1 || there.1, there.2))
          (y.2.mergeEach rest >>= fun there => pure (y.1 || there.1, there.2)) := by
        rintro ⟨here, f⟩ ⟨_, g⟩ ⟨rfl, h⟩
        refine (ih h).bind_paired fun there f g h => ?_
        exact .result ⟨rfl, h⟩
      rw [Body.mergeEach, Body.mergeEach, hterm]
      exact .ite ((h.absorbChain b).bind hrest) (.pure_bind (hrest (false, f) (false, g) ⟨rfl, h⟩))

theorem mergeBlocks (h : f.Alike g) : Agree (Paired Alike) f.mergeBlocks g.mergeBlocks := by
  rw [Body.mergeBlocks, Body.mergeBlocks, h.layout]
  exact h.mergeEach _

theorem dropOperands (h : f.Alike g) (index : Nat) (edges : List Edge) :
    Agree (Paired Alike) (f.dropOperands index edges) (g.dropOperands index edges) := by
  induction edges generalizing f g with
  | nil => exact .result ⟨rfl, h⟩
  | cons e rest ih =>
      rw [Body.dropOperands, Body.dropOperands, h.block e.block]
      rcases g.block e.block with fault | data
      · exact .fault fault
      dsimp only
      rcases data.terminator.bind (·.explicitArgs? e.index) with _ | args
      · exact ih h
      dsimp only
      rcases args[index]? with _ | v
      · exact .fault _
      dsimp only
      rcases (h.setEdgeArgs e.block e.index (args.eraseIdx index)).outcome with
        ⟨fault, hf, hg⟩ | ⟨⟨old, f'⟩, ⟨_, g'⟩, hf, hg, rfl, h'⟩
      · rw [hf, hg]
        exact .fault fault
      rw [hf, hg]
      dsimp only
      rcases (ih h').outcome with ⟨fault, hf, hg⟩ | ⟨⟨vs, f'⟩, ⟨_, g'⟩, hf, hg, rfl, h'⟩
      · rw [hf, hg]
        exact .fault fault
      · rw [hf, hg]
        exact .result ⟨rfl, h'⟩

theorem detachPhi (h : f.Alike g) (b : BlockId) (index : Nat) :
    Agree (Option.Rel (Paired Alike)) (f.detachPhi b index) (g.detachPhi b index) := by
  refine .bind_eq (h.predecessors b) fun incoming => ?_
  have hany : (incoming.anyM fun e => return (← f.edgeArgs e.block e.index).isImplicit) =
      incoming.anyM fun e => return (← g.edgeArgs e.block e.index).isImplicit :=
    h.read fun f => incoming.anyM fun e => return (← f.edgeArgs e.block e.index).isImplicit
  refine .bind_eq hany fun implicit => .ite (.result .none) ?_
  refine (h.dropOperands index incoming).bind_paired fun operands f g h => ?_
  exact (h.eraseArg b index).bind fun f g h => .result (.some ⟨rfl, h⟩)

theorem retire (h : f.Alike g) (v : ValueId) : Agree (Paired Alike) (f.retire v) (g.retire v) := by
  have hkept : Agree (Paired Alike) (.ok (([] : List ValueId), f) : Except Fault _) (.ok ([], g)) :=
    .result ⟨rfl, h⟩
  have hvalue : f.value? v = g.value? v := h.read fun f => f.value? v
  rw [Body.retire, Body.retire, hvalue, h.hasUses v]
  rcases g.value? v with _ | data
  · exact hkept
  refine .ite hkept ?_
  rcases data.origin with i | ⟨b, index, kind⟩
  · dsimp only
    rw [h.instr i]
    rcases g.instr i with fault | instr
    · exact .fault fault
    refine .ite hkept ?_
    rcases (h.eraseInstr i).outcome with ⟨fault, hf, hg⟩ | ⟨f', g', hf, hg, h'⟩
    · rw [hf, hg]
      exact .fault fault
    · rw [hf, hg]
      exact .result ⟨rfl, h'⟩
  · rcases kind with _ | convention
    · dsimp only
      rcases (h.detachPhi b index).outcome with ⟨fault, hf, hg⟩ | ⟨_, _, hf, hg, h'⟩
      · rw [hf, hg]
        exact .fault fault
      · rw [hf, hg]
        rcases h' with @⟨⟨operands, f'⟩, ⟨_, g'⟩, ⟨rfl, h'⟩⟩ | _
        · exact .result ⟨rfl, h'⟩
        · exact hkept
    · exact hkept

theorem cleanUp (h : f.Alike g) (stack : List ValueId) :
    Agree Alike (f.cleanUp stack) (g.cleanUp stack) := by
  induction hcount : f.slotCount + stack.length using Nat.strongRecOn generalizing f g stack with
  | ind n ih =>
      rcases stack with _ | ⟨v, rest⟩
      · rw [cleanUp_nil, cleanUp_nil]
        exact .result h
      rw [cleanUp_cons f, cleanUp_cons g]
      refine (h.retire v).bind_ok ?_
      rintro ⟨freed, f'⟩ ⟨_, g'⟩ hretire ⟨rfl, h'⟩
      have hslots := slotCount_retire hretire
      refine ih _ ?_ h' (freed.reverse ++ rest) rfl
      simp only [List.length_append, List.length_reverse, List.length_cons] at hcount ⊢
      omega

theorem erasePhi (h : f.Alike g) (b : BlockId) (index : Nat) (clean : Bool) :
    Agree Alike (f.erasePhi b index clean) (g.erasePhi b index clean) := by
  refine .bind_eq (h.read fun f => f.arg b index) fun v => .bind_eq (h.value v) fun data => .guard ?_
  refine (h.detachPhi b index).bind ?_
  rintro _ _ (@⟨⟨operands, f⟩, ⟨_, g⟩, ⟨rfl, h⟩⟩ | _)
  · exact .ite (h.cleanUp _) (.result h)
  · exact .fault _

end Alike

end Body

namespace Dominators

variable {i j : BodyId} {d e : Dominators}

/-- The same tree, which belongs to body `i` on one side and to body `j` on the other. -/
def Alike (i j : BodyId) (d e : Dominators) : Prop := d.owner = i ∧ e = { d with owner := j }

namespace Alike

theorem insert (h : d.Alike i j e) (b idom : BlockId) :
    Agree (Alike i j) (d.insert b idom) (e.insert b idom) := by
  obtain ⟨rfl, rfl⟩ := h
  exact .bind_eq rfl fun _ => .result ⟨rfl, rfl⟩

theorem reparent (h : d.Alike i j e) (b idom : BlockId) :
    Agree (Alike i j) (d.reparent b idom) (e.reparent b idom) := by
  obtain ⟨rfl, rfl⟩ := h
  exact .bind_eq rfl fun _ => .result ⟨rfl, rfl⟩

theorem erase (h : d.Alike i j e) (b : BlockId) : Alike i j (d.erase b) (e.erase b) := by
  obtain ⟨rfl, rfl⟩ := h
  exact ⟨rfl, rfl⟩

theorem map_erase {x y : Option Dominators} (h : Option.Rel (Alike i j) x y) (b : BlockId) :
    Option.Rel (Alike i j) (x.map (·.erase b)) (y.map (·.erase b)) := by
  cases h with
  | none => exact .none
  | some h => exact .some (h.erase b)

theorem isReachable (h : d.Alike i j e) (b : BlockId) : d.isReachable b = e.isReachable b := by
  obtain ⟨rfl, rfl⟩ := h
  rfl

theorem dominates (h : d.Alike i j e) (a b : BlockId) : d.dominates a b = e.dominates a b := by
  obtain ⟨rfl, rfl⟩ := h
  rfl

theorem afterSplit {f g : Body} (h : d.Alike i j e) (hbody : f.Alike g) (b mid dest : BlockId) :
    Agree (Alike i j) (d.afterSplit f b mid dest) (e.afterSplit g b mid dest) := by
  rw [Dominators.afterSplit, Dominators.afterSplit, h.isReachable b]
  refine .ite (.result h) ((h.insert mid b).bind fun d e h => ?_)
  refine .bind_eq (hbody.predecessors dest) fun incoming => ?_
  simp only [h.isReachable, h.dominates]
  exact .ite (h.reparent dest mid) (.result h)

end Alike

end Dominators

theorem Agree.mapM_option {ε α β γ δ : Type} {r : α → β → Prop} {s : γ → δ → Prop} {x : Option α}
    {y : Option β} {k : α → Except ε γ} {l : β → Except ε δ} (h : Option.Rel r x y)
    (hk : ∀ a b, r a b → Agree s (k a) (l b)) : Agree (Option.Rel s) (x.mapM k) (y.mapM l) := by
  cases h with
  | none => exact .result .none
  | some h => exact (hk _ _ h).bind fun _ _ h => .result (.some h)

namespace Tracked

variable {i j : BodyId} {t u : Tracked}

/-- Bodies that are alike, with dominator trees that are alike and the same loops. -/
structure Alike (i j : BodyId) (t u : Tracked) : Prop where
  body : t.body.Alike u.body
  dominators : Option.Rel (Dominators.Alike i j) t.dominators u.dominators
  loops : t.loops = u.loops

namespace Alike

theorem splitEdge (h : t.Alike i j u) (b : BlockId) (e : Nat) :
    Agree (Paired (Alike i j)) (t.splitEdge b e) (u.splitEdge b e) := by
  refine .bind_eq (h.body.terminator b) fun term => .bind_eq rfl fun dest => ?_
  refine (h.body.splitEdge b e).bind_paired fun mid f g hbody => ?_
  refine (Agree.mapM_option h.dominators fun d e hd => hd.afterSplit hbody b mid dest).bind ?_
  intro d e hd
  rw [h.loops]
  exact .bind_eq rfl fun loops => .result ⟨rfl, hbody, hd, rfl⟩

theorem splitCriticalEdge (h : t.Alike i j u) (b : BlockId) (e : Nat) :
    Agree (Paired (Alike i j)) (t.splitCriticalEdge b e) (u.splitCriticalEdge b e) := by
  refine .bind_eq (h.body.isCriticalEdge b e) fun critical => .ite ?_ (.result ⟨rfl, h⟩)
  refine (h.splitEdge b e).bind_paired fun mid t u h => ?_
  exact .result ⟨rfl, h⟩

theorem splitCriticalEdgeTo (h : t.Alike i j u) (source dest : BlockId) :
    Agree (Paired (Alike i j)) (t.splitCriticalEdgeTo source dest)
      (u.splitCriticalEdgeTo source dest) := by
  refine .bind_eq (h.body.successors source) fun succs => ?_
  have hcritical : t.body.isCriticalEdge source = u.body.isCriticalEdge source :=
    funext fun e => h.body.isCriticalEdge source e
  rw [hcritical]
  refine .bind_eq rfl ?_
  rintro (_ | e)
  · exact .result ⟨rfl, h⟩
  · refine (h.splitEdge source e).bind_paired fun mid t u h => ?_
    exact .result ⟨rfl, h⟩

theorem splitEach (h : t.Alike i j u) (b : BlockId) (edges : List Nat) :
    Agree (Paired (Alike i j)) (t.splitEach b edges) (u.splitEach b edges) := by
  induction edges generalizing t u with
  | nil => exact .result ⟨rfl, h⟩
  | cons e rest ih =>
      refine (h.splitEdge b e).bind_paired fun mid t u h => ?_
      refine (ih h).bind_paired fun mids t u h => ?_
      exact .result ⟨rfl, h⟩

theorem splitEdgesTo (h : t.Alike i j u) (source dest : BlockId) :
    Agree (Paired (Alike i j)) (t.splitEdgesTo source dest) (u.splitEdgesTo source dest) :=
  .bind_eq (h.body.successors source) fun _ => h.splitEach source _

theorem splitCriticalEach (h : t.Alike i j u) (b : BlockId) (edges : List Nat) :
    Agree (Paired (Alike i j)) (t.splitCriticalEach b edges) (u.splitCriticalEach b edges) := by
  induction edges generalizing t u with
  | nil => exact .result ⟨rfl, h⟩
  | cons e rest ih =>
      refine (h.splitCriticalEdge b e).bind_paired fun mid t u h => ?_
      refine (ih h).bind_paired fun changed t u h => ?_
      exact .result ⟨rfl, h⟩

theorem splitCriticalFrom (h : t.Alike i j u) (blocks : List BlockId) :
    Agree (Paired (Alike i j)) (t.splitCriticalFrom blocks) (u.splitCriticalFrom blocks) := by
  induction blocks generalizing t u with
  | nil => exact .result ⟨rfl, h⟩
  | cons b rest ih =>
      refine .bind_eq (h.body.successors b) fun succs => ?_
      refine (h.splitCriticalEach b _).bind_paired fun here t u h => ?_
      refine (ih h).bind_paired fun there t u h => ?_
      exact .result ⟨rfl, h⟩

theorem splitAllCriticalEdges (h : t.Alike i j u) :
    Agree (Paired (Alike i j)) t.splitAllCriticalEdges u.splitAllCriticalEdges := by
  rw [Tracked.splitAllCriticalEdges, Tracked.splitAllCriticalEdges, h.body.layout]
  exact h.splitCriticalFrom _

theorem mergeWithSuccessor (h : t.Alike i j u) (b : BlockId) :
    Agree (Paired (Alike i j)) (t.mergeWithSuccessor b) (u.mergeWithSuccessor b) := by
  refine (h.body.mergeWithSuccessor b).bind ?_
  rintro _ _ (refusal | @⟨⟨succ, f⟩, ⟨_, g⟩, ⟨rfl, hbody⟩⟩)
  · exact .result ⟨rfl, h⟩
  · dsimp only
    rw [h.loops]
    have hd := Dominators.Alike.map_erase h.dominators succ
    exact .bind_eq rfl fun loops => .result ⟨rfl, hbody, hd, rfl⟩

end Alike

end Tracked

end FlowGraph
