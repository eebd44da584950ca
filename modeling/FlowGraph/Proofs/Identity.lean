import FlowGraph.Proofs.Rework

namespace FlowGraph

/-- Whatever the computation returns satisfies `P`. -/
def Yields {ε α : Type} (P : α → Prop) (x : Except ε α) : Prop := ∀ a, x = .ok a → P a

namespace Yields

variable {ε α β γ : Type} {P : α → Prop} {Q : β → Prop} {x y : Except ε α} {k : α → Except ε β}

theorem pure {a : α} (h : P a) : Yields P (pure a : Except ε α) := by
  rintro b ⟨⟩
  exact h

theorem error (e : ε) : Yields P (.error e) := by
  intro a h
  cases h

theorem bind (hx : Yields P x) (hk : ∀ a, P a → Yields Q (k a)) : Yields Q (x >>= k) := by
  intro b h
  obtain ⟨a, ha, hb⟩ := bind_eq_ok.mp h
  exact hk a (hx a ha) b hb

theorem read (hk : ∀ a, Yields Q (k a)) : Yields Q (x >>= k) :=
  bind (P := fun _ => True) (fun _ _ => trivial) fun a _ => hk a

theorem pure_bind {a : α} (h : Yields Q (k a)) : Yields Q (Pure.pure a >>= k) := h

theorem guard {c : Prop} [Decidable c] {e : ε} {j : γ → Except ε α} (h : Yields P x) :
    Yields P (if c then .error e >>= j else x) := by
  split
  · exact .error e
  · exact h

theorem ite {c : Prop} [Decidable c] (hx : Yields P x) (hy : Yields P y) :
    Yields P (if c then x else y) := by
  split
  · exact hx
  · exact hy

theorem foldlM {step : α → γ → Except ε α} {items : List γ} {first : α}
    (hfirst : P first) (hstep : ∀ a c, P a → Yields P (step a c)) :
    Yields P (items.foldlM step first) := by
  induction items generalizing first with
  | nil => exact .pure hfirst
  | cons c items ih => exact .bind (hstep first c hfirst) fun a ha => ih ha

end Yields

namespace Body

variable {f : Body} {n : BodyId} {b c : BlockId} {v : ValueId} {i : InstrId} {e : Nat}

theorem id_allocBlock (h : f.id = n) : Yields (·.2.id = n) f.allocBlock :=
  .read fun _ => .pure h

theorem id_createBlock (h : f.id = n) : Yields (·.2.id = n) f.createBlock :=
  .bind (id_allocBlock h) fun _ h => .pure h

theorem id_createBlockAfter (h : f.id = n) : Yields (·.2.id = n) (f.createBlockAfter b) :=
  .read fun _ => .bind (id_allocBlock h) fun _ h => .pure h

theorem id_createBlockBefore (h : f.id = n) : Yields (·.2.id = n) (f.createBlockBefore b) :=
  .read fun _ => .bind (id_allocBlock h) fun _ h => .pure h

theorem id_allocValue (h : f.id = n) (value : Value) : Yields (·.2.id = n) (f.allocValue value) :=
  .read fun _ => .pure h

theorem id_eraseValue (h : f.id = n) (v : ValueId) : Yields (·.id = n) (f.eraseValue v) :=
  .ite (.pure h) (.error _)

theorem id_setOwnership (h : f.id = n) (ownership : Ownership) :
    Yields (·.id = n) (f.setOwnership v ownership) :=
  .read fun _ => .pure h

theorem id_addArg (h : f.id = n) (type : TypeId) (ownership : Ownership) (kind : ArgKind) :
    Yields (·.2.id = n) (f.addArg b type ownership kind) :=
  .read fun _ => .guard (.bind (id_allocValue h _) fun _ h => .pure h)

theorem id_renumberArgs (h : f.id = n) (start : Nat) (args : List ValueId) :
    Yields (·.id = n) (f.renumberArgs b start args) := by
  induction args generalizing f start with
  | nil => exact .pure h
  | cons v rest ih => exact .read fun _ => @ih (f.modifyValue v _) h (start + 1)

theorem id_eraseArg (h : f.id = n) (index : Nat) : Yields (·.id = n) (f.eraseArg b index) := by
  refine .read fun v => .guard (.bind (id_eraseValue (f := f.modifyBlock b _) h v) fun g h => ?_)
  exact .read fun _ => id_renumberArgs h index _

theorem id_insertInstr (h : f.id = n) (position : Nat) (op : Operation) :
    Yields (·.2.id = n) (f.insertInstr b position op) := by
  refine .read fun index => ?_
  rcases op.resultType? with _ | ⟨type, ownership⟩
  · exact .pure_bind (.read fun _ => .guard (.pure h))
  · exact .bind (id_allocValue h _) fun _ h => .pure_bind (.read fun _ => .guard (.pure h))

theorem id_appendInstr (h : f.id = n) (op : Operation) : Yields (·.2.id = n) (f.appendInstr b op) :=
  .read fun _ => id_insertInstr h _ op

theorem id_eraseInstr (h : f.id = n) : Yields (·.id = n) (f.eraseInstr i) := by
  refine .read fun data => ?_
  rcases data.result with _ | v
  · exact .pure_bind (.read fun _ => .pure h)
  · refine .guard (.bind (id_eraseValue (n := n) ?_ v) fun g h => .read fun _ => .pure h)
    exact h

theorem id_takeTerminator (h : f.id = n) : Yields (·.2.id = n) (f.takeTerminator b) := by
  refine .read fun data => ?_
  rcases data.terminator with _ | t
  · exact .pure h
  · refine .pure ?_
    rw [unlistEdges_eq]
    exact h

theorem id_setTerminator (h : f.id = n) (t : Terminator) :
    Yields (·.2.id = n) (f.setTerminator b t) := by
  refine .bind (id_takeTerminator h) fun _ h => .read fun _ => .pure ?_
  rw [listEdges_eq]
  exact h

theorem id_setSuccessor (h : f.id = n) : Yields (·.id = n) (f.setSuccessor b e c) :=
  .read fun _ => .read fun _ => .ite (.pure h)
    (.read fun _ => .read fun _ => .read fun _ => .pure h)

theorem id_setEdgeArgs (h : f.id = n) (args : List ValueId) :
    Yields (·.2.id = n) (f.setEdgeArgs b e args) := by
  refine .read fun data => ?_
  rcases data.terminator with _ | t
  · exact .pure h
  · dsimp only
    rcases t.explicitArgs? e with _ | old <;> exact .pure h

theorem id_replaceAllUses (f : Body) (old new : ValueId) : (f.replaceAllUses old new).id = f.id := by
  rcases Classical.em (old = new) with rfl | hne
  · rw [replaceAllUses, if_pos rfl]
  · rw [replaceAllUses_eq hne, substituteAll_eq]

theorem id_moveInstrs (h : f.id = n) (moved : List InstrId) :
    Yields (·.id = n) (f.moveInstrs b moved) := by
  induction moved generalizing f with
  | nil => exact .pure h
  | cons i rest ih => exact .read fun _ => @ih (f.modifyInstr i _) h

theorem id_moveTerminator (h : f.id = n) : Yields (·.id = n) (f.moveTerminator b c) := by
  refine .bind (id_takeTerminator h) ?_
  rintro ⟨_ | t, g⟩ h
  · exact .pure h
  · exact .bind (id_setTerminator h t) fun _ h => .pure h

theorem id_splitBlock (h : f.id = n) (position : Nat) :
    Yields (·.2.id = n) (f.splitBlock b position) := by
  refine .read fun data => .guard (.bind (id_createBlockAfter h) fun ⟨tail, g⟩ h => ?_)
  refine .bind (id_moveInstrs (f := g.modifyBlock b _) h _) fun g h => ?_
  refine .bind (id_moveTerminator (f := g.modifyBlock tail _) h) fun g h => ?_
  exact .bind (id_setTerminator h _) fun _ h => .pure h

theorem id_bindArgs (h : f.id = n) (args operands : List ValueId) :
    Yields (·.id = n) (f.bindArgs args operands) := by
  induction args generalizing f operands with
  | nil => exact .pure h
  | cons arg args ih =>
      rcases operands with _ | ⟨operand, operands⟩
      · exact .pure h
      · exact .bind (id_eraseValue ((id_replaceAllUses f arg operand).trans h) arg) fun _ h => ih h _

theorem id_absorb (h : f.id = n) (operands : List ValueId) :
    Yields (·.id = n) (f.absorb b c operands) := by
  refine .bind (id_takeTerminator h) fun ⟨_, g⟩ h => .read fun data => .guard ?_
  refine .bind (id_bindArgs (f := g.modifyBlock c _) h _ operands) fun g h => ?_
  refine .bind (id_moveInstrs (f := g.modifyBlock c _) h _) fun g h => ?_
  exact .bind (id_moveTerminator (f := g.modifyBlock b _) h) fun _ h => .pure h

/-- The body that a merge leaves behind; a refused merge leaves none. -/
def Merged (n : BodyId) : Except MergeRefusal (BlockId × Body) → Prop
  | .ok (_, g) => g.id = n
  | .error _ => True

theorem id_mergeWithSuccessor (h : f.id = n) : Yields (Merged n) (f.mergeWithSuccessor b) := by
  refine .read fun target => ?_
  rcases target with _ | ⟨succ, operands⟩
  · exact .pure trivial
  · exact .bind (id_absorb h operands) fun _ h => .pure h

theorem id_eraseInstrs (h : f.id = n) (gone : List InstrId) :
    Yields (·.id = n) (f.eraseInstrs gone) := by
  induction gone generalizing f with
  | nil => exact .pure h
  | cons i rest ih =>
      refine .read fun data => ?_
      rcases data.result with _ | v
      · exact .pure_bind (ih h)
      · refine .bind (id_eraseValue (n := n) ?_ v) fun g h => ih h
        exact h

theorem id_eraseBlock (h : f.id = n) : Yields (·.id = n) (f.eraseBlock b) := by
  refine .read fun data => .guard (.bind (id_takeTerminator h) fun ⟨_, g⟩ h => .read fun data => ?_)
  refine .bind (P := (·.id = n)) (.foldlM h fun g v h => id_eraseValue h v) fun g h => ?_
  exact .bind (id_eraseInstrs h _) fun _ h => .pure h

end Body

theorem Edit.id_apply {f : Body} {n : BodyId} (h : f.id = n) (edit : Edit) :
    Yields (·.id = n) (edit.apply f) := by
  cases edit with
  | createBlock => exact .bind (Body.id_createBlock h) fun _ h => .pure h
  | createBlockAfter sibling => exact .bind (Body.id_createBlockAfter h) fun _ h => .pure h
  | createBlockBefore sibling => exact .bind (Body.id_createBlockBefore h) fun _ h => .pure h
  | addPhi b type ownership => exact .bind (Body.id_addArg h type _ _) fun _ h => .pure h
  | addFunctionArg b type convention => exact .bind (Body.id_addArg h type _ _) fun _ h => .pure h
  | eraseArg b index => exact Body.id_eraseArg h index
  | appendInstr b op => exact .bind (Body.id_appendInstr h op) fun _ h => .pure h
  | insertInstr b position op => exact .bind (Body.id_insertInstr h position op) fun _ h => .pure h
  | eraseInstr i => exact Body.id_eraseInstr h
  | setTerminator b t => exact .bind (Body.id_setTerminator h t) fun _ h => .pure h
  | setSuccessor b e dest => exact Body.id_setSuccessor h
  | setEdgeArgs b e args => exact .bind (Body.id_setEdgeArgs h args) fun _ h => .pure h
  | replaceAllUses old new => exact .pure ((Body.id_replaceAllUses f old new).trans h)
  | setOwnership v ownership => exact Body.id_setOwnership h ownership
  | splitBlock b position => exact .bind (Body.id_splitBlock h position) fun _ h => .pure h
  | mergeWithSuccessor b =>
      refine .bind (Body.id_mergeWithSuccessor h) ?_
      rintro (refusal | ⟨succ, g⟩) hmerged
      · exact .pure h
      · exact .pure hmerged
  | eraseBlock b => exact Body.id_eraseBlock h

namespace Body

variable {f : Body} {n : BodyId} {b c : BlockId} {e : Nat}

theorem id_redirect (h : f.id = n) (keepArgs : Bool) : Yields (·.id = n) (f.redirect b e c keepArgs) :=
  .ite (id_setSuccessor h) (.bind (id_setEdgeArgs h []) fun _ h => id_setSuccessor h)

theorem id_redirectEach (h : f.id = n) (keepArgs : Bool) (edges : List Nat) :
    Yields (·.id = n) (f.redirectEach b c keepArgs edges) := by
  induction edges generalizing f with
  | nil => exact .pure h
  | cons e rest ih => exact .bind (id_redirect h keepArgs) fun _ h => ih h

theorem id_redirectAll (h : f.id = n) (old : BlockId) (keepArgs : Bool) :
    Yields (·.id = n) (f.redirectAll b old c keepArgs) :=
  .read fun _ => id_redirectEach h keepArgs _

theorem id_copyAsPhis (h : f.id = n) (vs : List ValueId) : Yields (·.2.id = n) (f.copyAsPhis b vs) := by
  induction vs generalizing f with
  | nil => exact .pure h
  | cons v rest ih =>
      exact .read fun _ => .bind (id_addArg h _ _ _) fun _ h => .bind (ih h) fun _ h => .pure h

theorem id_forwardedArgs (h : f.id = n) : Yields (·.2.id = n) (f.forwardedArgs b e c) := by
  refine .read fun args => ?_
  rcases args with args | kind
  · exact .pure h
  · exact .read fun _ => .read fun _ => .read fun _ => id_copyAsPhis h _

theorem id_splitEdge (h : f.id = n) : Yields (·.2.id = n) (f.splitEdge b e) := by
  refine .read fun _ => .read fun _ => .bind (id_createBlockAfter h) fun _ h => ?_
  refine .bind (id_forwardedArgs h) fun _ h => .bind (id_redirect h false) fun _ h => ?_
  exact .bind (id_setTerminator h _) fun _ h => .pure h

theorem id_absorbChain (h : f.id = n) : Yields (·.2.id = n) (f.absorbChain b) := by
  fun_induction absorbChain f b with
  | case1 f fault hmerge => exact .error fault
  | case2 f refusal hmerge => exact .pure h
  | case3 f succ g hmerge fault hrest ih => exact .error fault
  | case4 f succ g hmerge merged last hrest ih =>
      have hlast := ih (id_mergeWithSuccessor h _ hmerge) (merged, last) hrest
      exact .pure hlast

theorem id_mergeEach (h : f.id = n) (blocks : List BlockId) :
    Yields (·.2.id = n) (f.mergeEach blocks) := by
  induction blocks generalizing f with
  | nil => exact .pure h
  | cons b rest ih =>
      refine .ite (.bind (id_absorbChain h) fun _ h => ?_) (.pure_bind ?_)
      · exact .bind (ih h) fun _ h => .pure h
      · exact .bind (ih h) fun _ h => .pure h

theorem id_dropOperands (h : f.id = n) (index : Nat) (edges : List Edge) :
    Yields (·.2.id = n) (f.dropOperands index edges) := by
  fun_induction dropOperands f index edges with
  | case1 => exact .pure h
  | case2 => exact .error _
  | case3 f e rest data hb hnone ih => exact ih h
  | case4 => exact .error _
  | case5 => exact .error _
  | case6 => exact .error _
  | case7 f e rest data hb args hargs v hv old g hset vs last hrest ih =>
      have hlast := ih (id_setEdgeArgs h _ _ hset) (vs, last) hrest
      exact .pure hlast

/-- The body that is left if a phi was detached. -/
def Detached (n : BodyId) (result : Option (List ValueId × Body)) : Prop :=
  ∀ operands g, result = some (operands, g) → g.id = n

theorem id_detachPhi (h : f.id = n) (index : Nat) : Yields (Detached n) (f.detachPhi b index) := by
  refine .read fun incoming => .read fun isImplicit => .ite (.pure fun _ _ h => by cases h) ?_
  refine .bind (id_dropOperands h index incoming) fun _ h => .bind (id_eraseArg h index) fun g h => ?_
  refine .pure ?_
  rintro operands g ⟨⟩
  exact h

theorem id_retire (h : f.id = n) (v : ValueId) : Yields (·.2.id = n) (f.retire v) := by
  unfold retire
  split
  · exact .pure h
  refine .ite (.pure h) ?_
  split
  · split
    · exact .error _
    refine .ite (.pure h) ?_
    split
    · exact .error _
    · rename_i herase
      exact .pure (id_eraseInstr h _ herase)
  · split
    · exact .error _
    · rename_i hdetach
      exact .pure (id_detachPhi h _ _ hdetach _ _ rfl)
    · exact .pure h
  · exact .pure h

theorem id_cleanUp (h : f.id = n) (stack : List ValueId) : Yields (·.id = n) (f.cleanUp stack) := by
  fun_induction cleanUp f stack with
  | case1 f => exact .pure h
  | case2 f v rest fault hretire => exact .error fault
  | case3 f v rest freed g hretire ih => exact ih (id_retire h v _ hretire)

theorem id_erasePhi (h : f.id = n) (index : Nat) (clean : Bool) :
    Yields (·.id = n) (f.erasePhi b index clean) := by
  refine .read fun v => .read fun data => .guard (.bind (id_detachPhi h index) ?_)
  rintro (_ | ⟨operands, g⟩) hdetached
  · exact .error _
  · have h := hdetached operands g rfl
    exact .ite (id_cleanUp h _) (.pure h)

end Body

namespace Dominators

variable {d : Dominators} {o : BodyId} {b c : BlockId}

theorem owner_insert (h : d.owner = o) : Yields (·.owner = o) (d.insert b c) := .read fun _ => .pure h

theorem owner_reparent (h : d.owner = o) : Yields (·.owner = o) (d.reparent b c) :=
  .read fun _ => .pure h

theorem owner_afterSplit (h : d.owner = o) (f : Body) (mid : BlockId) :
    Yields (·.owner = o) (d.afterSplit f b mid c) :=
  .ite (.pure h) (.bind (owner_insert h) fun _ h => .read fun _ => .ite (owner_reparent h) (.pure h))

end Dominators

namespace Tracked

variable {t : Tracked} {n : BodyId} {o : Option BodyId} {b c : BlockId} {e : Nat}

/-- The body has the identity `n`, and the tree was made for `o`. -/
structure Belongs (n : BodyId) (o : Option BodyId) (t : Tracked) : Prop where
  body : t.body.id = n
  tree : t.dominators.map (·.owner) = o

namespace Belongs

variable (h : t.Belongs n o)
include h

theorem splitEdge : Yields (fun r => r.2.Belongs n o) (t.splitEdge b e) := by
  refine .read fun _ => .read fun dest => .bind (Body.id_splitEdge h.body) fun r hbody => ?_
  have htree : Yields (fun d : Option Dominators => d.map (·.owner) = o)
      (t.dominators.mapM fun d => d.afterSplit r.2 b r.1 dest) := by
    obtain rfl := h.tree
    rcases t.dominators with _ | d
    · exact .pure rfl
    · exact .bind (Dominators.owner_afterSplit rfl _ _) fun _ h => .pure (congrArg some h)
  exact .bind htree fun _ htree => .read fun _ => .pure ⟨hbody, htree⟩

theorem splitCriticalEdge : Yields (fun r => r.2.Belongs n o) (t.splitCriticalEdge b e) :=
  .read fun _ => .ite (.bind h.splitEdge fun _ h => .pure h) (.pure h)

theorem splitCriticalEdgeTo : Yields (fun r => r.2.Belongs n o) (t.splitCriticalEdgeTo b c) := by
  refine .read fun _ => .read fun found => ?_
  rcases found with _ | e
  · exact .pure h
  · exact .bind h.splitEdge fun _ h => .pure h

theorem splitEdgesTo : Yields (fun r => r.2.Belongs n o) (t.splitEdgesTo b c) := by
  refine .read fun succs => ?_
  induction Body.edgesTo c succs generalizing t with
  | nil => exact .pure h
  | cons e rest ih => exact .bind h.splitEdge fun _ h => .bind (ih h) fun _ h => .pure h

theorem splitCriticalEach (edges : List Nat) :
    Yields (fun r => r.2.Belongs n o) (t.splitCriticalEach b edges) := by
  induction edges generalizing t with
  | nil => exact .pure h
  | cons e rest ih => exact .bind h.splitCriticalEdge fun _ h => .bind (ih h) fun _ h => .pure h

theorem splitCriticalFrom (blocks : List BlockId) :
    Yields (fun r => r.2.Belongs n o) (t.splitCriticalFrom blocks) := by
  induction blocks generalizing t with
  | nil => exact .pure h
  | cons b rest ih =>
      exact .read fun _ => .bind (h.splitCriticalEach _) fun _ h => .bind (ih h) fun _ h => .pure h

theorem mergeWithSuccessor : Yields (fun r => r.2.Belongs n o) (t.mergeWithSuccessor b) := by
  refine .bind (Body.id_mergeWithSuccessor h.body) ?_
  rintro (refusal | ⟨succ, g⟩) hmerged
  · exact .pure h
  · refine .read fun loops => .pure ⟨hmerged, ?_⟩
    rw [Option.map_map]
    exact h.tree

/-- Every change of control flow keeps the identities of the body and of the tree that follows it. -/
theorem apply (c : Reshape) : Yields (Belongs n o) (c.apply t) := by
  cases c with
  | splitEdge b e => exact .bind h.splitEdge fun _ h => .pure h
  | splitCriticalEdge b e => exact .bind h.splitCriticalEdge fun _ h => .pure h
  | splitCriticalEdgeTo source dest => exact .bind h.splitCriticalEdgeTo fun _ h => .pure h
  | splitEdgesTo source dest => exact .bind h.splitEdgesTo fun _ h => .pure h
  | splitAllCriticalEdges => exact .bind (h.splitCriticalFrom _) fun _ h => .pure h
  | mergeWithSuccessor b => exact .bind h.mergeWithSuccessor fun _ h => .pure h

end Belongs

end Tracked

end FlowGraph
