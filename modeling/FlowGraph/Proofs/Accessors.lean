import FlowGraph.Proofs.Outcome
import FlowGraph.Proofs.Terminator

namespace FlowGraph

/-- The same operation, reading other values. -/
inductive Operation.SameShape : Operation → Operation → Prop
  | literal (type : TypeId) (value : Literal) :
      SameShape (.literal type value) (.literal type value)
  | builtin (name : String) {args args' : List ValueId} (result : Option (TypeId × Ownership))
      (sideEffects : Bool) (hargs : args'.length = args.length) :
      SameShape (.builtin name args result sideEffects) (.builtin name args' result sideEffects)
  | apply (callee : String) {args args' : List ValueId} (type : TypeId)
      (hargs : args'.length = args.length) :
      SameShape (.apply callee args type) (.apply callee args' type)
  | copy (v w : ValueId) (type : TypeId) : SameShape (.copy v type) (.copy w type)
  | destroy (v w : ValueId) : SameShape (.destroy v) (.destroy w)
  | beginBorrow (v w : ValueId) (type : TypeId) :
      SameShape (.beginBorrow v type) (.beginBorrow w type)
  | endBorrow (v w : ValueId) : SameShape (.endBorrow v) (.endBorrow w)
  | allocStack (type : TypeId) : SameShape (.allocStack type) (.allocStack type)
  | deallocStack (v w : ValueId) : SameShape (.deallocStack v) (.deallocStack w)
  | beginAccess (v w : ValueId) : SameShape (.beginAccess v) (.beginAccess w)
  | endAccess (v w : ValueId) : SameShape (.endAccess v) (.endAccess w)
  | beginApply (callee : String) {args args' : List ValueId} (hargs : args'.length = args.length) :
      SameShape (.beginApply callee args) (.beginApply callee args')
  | endApply (v w : ValueId) : SameShape (.endApply v) (.endApply w)
  | abortApply (v w : ValueId) : SameShape (.abortApply v) (.abortApply w)
  | openExistential (v w : ValueId) (type : TypeId) :
      SameShape (.openExistential v type) (.openExistential w type)
  | foreignMethod (v w : ValueId) (member : String) (type : TypeId) :
      SameShape (.foreignMethod v member type) (.foreignMethod w member type)

/-- The same terminator with the same targets, reading other values. -/
inductive Terminator.SameShape : Terminator → Terminator → Prop
  | br (dest : BlockId) {args args' : List ValueId} (hargs : args'.length = args.length) :
      SameShape (.br dest args) (.br dest args')
  | condBr (v w : ValueId) (trueDest falseDest : BlockId)
      {trueArgs trueArgs' falseArgs falseArgs' : List ValueId}
      (htrue : trueArgs'.length = trueArgs.length) (hfalse : falseArgs'.length = falseArgs.length) :
      SameShape (.condBr v trueDest trueArgs falseDest falseArgs)
        (.condBr w trueDest trueArgs' falseDest falseArgs')
  | switchValue (v w : ValueId) (cases : List (Int × BlockId)) (default : Option BlockId) :
      SameShape (.switchValue v cases default) (.switchValue w cases default)
  | switchEnum (v w : ValueId) (cases : List (Nat × BlockId)) (default : Option BlockId) :
      SameShape (.switchEnum v cases default) (.switchEnum w cases default)
  | checkedCast (v w : ValueId) (target : TypeId) (success failure : BlockId) :
      SameShape (.checkedCast v target success failure) (.checkedCast w target success failure)
  | tryApply (callee : String) {args args' : List ValueId} (normal error : BlockId)
      (hargs : args'.length = args.length) :
      SameShape (.tryApply callee args normal error) (.tryApply callee args' normal error)
  | dynamicMethodBr (v w : ValueId) (member : String) (hasMethod noMethod : BlockId) :
      SameShape (.dynamicMethodBr v member hasMethod noMethod)
        (.dynamicMethodBr w member hasMethod noMethod)
  | yieldTo {values values' : List ValueId} (resume cancel : BlockId)
      (hvalues : values'.length = values.length) :
      SameShape (.yieldTo values resume cancel) (.yieldTo values' resume cancel)
  | ret (v w : ValueId) : SameShape (.ret v) (.ret w)
  | throwing (v w : ValueId) : SameShape (.throwing v) (.throwing w)
  | unwind : SameShape .unwind .unwind
  | unreachable : SameShape .unreachable .unreachable

theorem Operation.sameShape_mapOperands (op : Operation) (g : ValueId → ValueId) :
    op.SameShape (op.mapOperands g) := by
  cases op <;> constructor
  all_goals exact List.length_map g

/-- Rewriting operands is all that leads to an operation of the same shape with those operands. -/
theorem Operation.eq_mapOperands_iff {op new : Operation} {g : ValueId → ValueId} :
    new = op.mapOperands g ↔ op.SameShape new ∧ new.operands = op.operands.map g := by
  constructor
  · rintro rfl
    exact ⟨op.sameShape_mapOperands g, op.operands_mapOperands g⟩
  · rintro ⟨hshape, hoperands⟩
    cases hshape <;> simp_all [operands, mapOperands]

namespace Terminator

variable {t u : Terminator} {e : Nat} {dest : BlockId} {g : ValueId → ValueId}

theorem sameShape_mapOperands (t : Terminator) (g : ValueId → ValueId) :
    t.SameShape (t.mapOperands g) := by
  cases t <;> constructor
  all_goals exact List.length_map g

theorem eq_mapOperands_iff :
    u = t.mapOperands g ↔ t.SameShape u ∧ u.operands = t.operands.map g := by
  constructor
  · rintro rfl
    exact ⟨t.sameShape_mapOperands g, t.operands_mapOperands g⟩
  · rintro ⟨hshape, hoperands⟩
    cases hshape with
    | condBr v w trueDest falseDest htrue hfalse =>
        -- The two lists of the edges come apart by their lengths.
        simp only [operands, List.cons_append, List.map_cons, List.map_append, List.cons.injEq]
          at hoperands
        obtain ⟨rfl, hlists⟩ := hoperands
        obtain ⟨rfl, rfl⟩ := List.append_inj hlists (by rw [htrue, List.length_map])
        rfl
    | _ => simp_all [operands, mapOperands]

theorem operands_eq (t : Terminator) : t.operands =
    t.ownOperands ++ (List.range t.numEdges).flatMap fun e => (t.explicitArgs? e).getD [] := by
  have himplicit : ∀ t : Terminator, (∀ e, t.explicitArgs? e = none) →
      (List.range t.numEdges).flatMap (fun e => (t.explicitArgs? e).getD []) = [] := by
    intro t ht
    simp [ht]
  cases t with
  | br dest args => simp [operands, ownOperands, numEdges, explicitArgs?]
  | condBr cond trueDest trueArgs falseDest falseArgs =>
      simp [operands, ownOperands, numEdges, explicitArgs?, List.range_succ]
  | _ => rw [himplicit _ fun e => rfl, List.append_nil]; rfl

theorem kindName_retarget (t : Terminator) (e : Nat) (dest : BlockId) :
    (t.retarget e dest).kindName = t.kindName := by
  cases t <;> rfl

theorem retarget_retarget {old : BlockId} (hold : t.successors[e]? = some old) (dest : BlockId) :
    (t.retarget e dest).retarget e old = t := by
  rw [retarget, retarget, mapEdges_mapEdges]
  refine (mapEdges_congr (fun k dest hdest => ?_) fun _ _ _ => rfl).trans t.mapEdges_id
  split
  · rename_i heq
    subst heq
    exact Option.some.inj (hold.symm.trans hdest)
  · rfl

theorem exists_of_lt (h : e < t.successors.length) (dest : BlockId) :
    ∃ old args, t.successors[e]? = some old ∧ t.successor e = .ok old ∧ t.edgeArgs e = .ok args ∧
      t.setSuccessor e dest = .ok (t.retarget e dest) := by
  have hold := List.getElem?_eq_getElem h
  obtain ⟨args, hargs⟩ : ∃ args, t.edgeArgs? e = some args := by
    rw [← Option.isSome_iff_exists, isSome_edgeArgs?, hold]
    rfl
  exact ⟨_, args, hold, successor_eq_ok.mpr hold, edgeArgs_eq_ok.mpr hargs,
    setSuccessor_of_lt h dest⟩

theorem fails_of_le (h : t.successors.length ≤ e) (dest : BlockId) :
    t.successor e = .error (.noSuccessor t e) ∧ t.edgeArgs e = .error (.noEdge t e) ∧
      t.setSuccessor e dest = .error (t.missingEdge e) := by
  have hnone := List.getElem?_eq_none h
  have hargs : t.edgeArgs? e = none := by
    rw [← Option.isNone_iff_eq_none, ← Option.not_isSome, isSome_edgeArgs?, hnone]
    rfl
  exact ⟨by rw [successor, hnone], by rw [edgeArgs, hargs], setSuccessor_of_le h dest⟩

theorem edgeArgs_withEdgeArgs_eq_ok {args : List ValueId} {k : Nat} {given : EdgeArgs} :
    (t.withEdgeArgs e args).edgeArgs k = .ok given ↔
      if k = e ∧ (t.explicitArgs? e).isSome then given = .explicit args
      else t.edgeArgs k = .ok given := by
  rw [edgeArgs_eq_ok, edgeArgs_eq_ok]
  rcases hold : t.explicitArgs? e with _ | old
  · rw [withEdgeArgs_of_none hold, if_neg (by simp)]
  · rw [edgeArgs?_withEdgeArgs hold]
    rcases Nat.decEq k e with hne | rfl
    · rw [if_neg hne, if_neg (fun h => hne h.1)]
    · simp [eq_comm]

end Terminator

/-- The accessors agree. A terminator has as many edges as successors. The three functions of an edge
fail together, past the last edge. Else leading the edge to `dest` changes entry `e` of the
successors only, and can be undone. The operands of an edge can be had and exchanged exactly if the
edge is explicit. The operands are the own ones, then those of the explicit edges in order. Operands
of terminators and operations are rewritten within the shape. -/
theorem Terminator.accessors_agree (t : Terminator) (op : Operation) (e : Nat) (dest : BlockId)
    (g : ValueId → ValueId) :
    t.numEdges = t.successors.length ∧
    (t.successors.length ≤ e ∧ t.successor e = .error (.noSuccessor t e) ∧
        t.edgeArgs e = .error (.noEdge t e) ∧ t.setSuccessor e dest = .error (t.missingEdge e) ∨
      e < t.successors.length ∧ ∃ old args u, t.successors[e]? = some old ∧
        t.successor e = .ok old ∧ t.edgeArgs e = .ok args ∧ t.setSuccessor e dest = .ok u ∧
        u.successors = t.successors.set e dest ∧ u.operands = t.operands ∧
        (∀ k given, u.edgeArgs k = .ok given ↔ t.edgeArgs k = .ok given) ∧
        u.kindName = t.kindName ∧ u.setSuccessor e old = .ok t) ∧
    (∀ args, t.explicitArgs? e = some args ↔ t.edgeArgs e = .ok (.explicit args)) ∧
    (∀ args k given, (t.withEdgeArgs e args).edgeArgs k = .ok given ↔
      if k = e ∧ (t.explicitArgs? e).isSome then given = .explicit args
      else t.edgeArgs k = .ok given) ∧
    t.operands =
      t.ownOperands ++ ((List.range t.numEdges).flatMap fun e => (t.explicitArgs? e).getD []) ∧
    (∀ u, u = t.mapOperands g ↔ t.SameShape u ∧ u.operands = t.operands.map g) ∧
    (t.mapOperands g).successors = t.successors ∧
    (∀ new, new = op.mapOperands g ↔ op.SameShape new ∧ new.operands = op.operands.map g) ∧
    (op.mapOperands g).resultType? = op.resultType? := by
  refine ⟨t.length_successors.symm, ?_, fun args => ?_,
    fun args k given => edgeArgs_withEdgeArgs_eq_ok, t.operands_eq, fun u => eq_mapOperands_iff,
    t.successors_mapOperands g, fun new => Operation.eq_mapOperands_iff,
    op.resultType?_mapOperands g⟩
  · rcases Nat.lt_or_ge e t.successors.length with hlt | hge
    · obtain ⟨old, args, hold, hsuccessor, hargs, hset⟩ := exists_of_lt hlt dest
      refine .inr ⟨hlt, old, args, _, hold, hsuccessor, hargs, hset, t.successors_retarget e dest,
        t.operands_retarget e dest, fun k given => ?_, t.kindName_retarget e dest, ?_⟩
      · rw [edgeArgs_eq_ok, edgeArgs_eq_ok, edgeArgs?_retarget]
      · have hback : e < (t.retarget e dest).successors.length := by
          rw [successors_retarget, List.length_set]
          exact hlt
        rw [setSuccessor_of_lt hback, retarget_retarget hold]
    · exact .inl ⟨hge, fails_of_le hge dest⟩
  · rw [edgeArgs_eq_ok, edgeArgs?_eq_explicit]

end FlowGraph
