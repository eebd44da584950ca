import FlowGraph.Fault
import FlowGraph.Operation

namespace FlowGraph

theorem map_eq_self {g : ValueId → ValueId} {l : List ValueId} (h : ∀ v ∈ l, g v = v) :
    l.map g = l :=
  (List.map_congr_left h).trans (List.map_id l)

/-- What an edge delivers after the operands that it carries have been exchanged. -/
def EdgeArgs.mapArgs (load : List ValueId → List ValueId) : EdgeArgs → EdgeArgs
  | .explicit args => .explicit (load args)
  | .implicit payload => .implicit payload

namespace Terminator

theorem edgeArgs?_eq_explicit {t : Terminator} {e : Nat} {args : List ValueId} :
    t.edgeArgs? e = some (.explicit args) ↔ t.explicitArgs? e = some args := by
  unfold edgeArgs? explicitArgs?
  cases t <;>
  rcases e with _ | _ | e <;> simp
  all_goals grind

theorem isSome_edgeArgs? (t : Terminator) (e : Nat) :
    (t.edgeArgs? e).isSome = (t.successors[e]?).isSome := by
  cases t
  case switchValue operand cases default =>
    rcases default with _ | dest <;> simp [edgeArgs?, successors] <;> grind
  case switchEnum operand cases default =>
    rcases default with _ | dest <;> simp [edgeArgs?, successors] <;> grind
  all_goals
    rcases e with _ | _ | e <;> rfl

theorem mem_operands_of_explicitArgs? {t : Terminator} {e : Nat} {args : List ValueId}
    (h : t.explicitArgs? e = some args) {v : ValueId} (hv : v ∈ args) : v ∈ t.operands := by
  unfold explicitArgs? at h
  split at h <;> simp only [Option.some.injEq, reduceCtorEq] at h
  all_goals
    subst h
    simp [operands, hv]

theorem mem_operands_iff {t : Terminator} {v : ValueId} :
    v ∈ t.operands ↔
      v ∈ t.ownOperands ∨ ∃ e args, t.explicitArgs? e = some args ∧ v ∈ args := by
  constructor
  · intro hv
    cases t with
    | br dest args => exact .inr ⟨0, args, rfl, hv⟩
    | condBr cond trueDest trueArgs falseDest falseArgs =>
        rcases List.mem_append.mp hv with hv | hv
        · rcases List.mem_cons.mp hv with rfl | hv
          · exact .inl List.mem_cons_self
          · exact .inr ⟨0, trueArgs, rfl, hv⟩
        · exact .inr ⟨1, falseArgs, rfl, hv⟩
    | _ => exact .inl hv
  · rintro (hv | ⟨e, args, hargs, hv⟩)
    · cases t with
      | br dest args => cases hv
      | condBr cond trueDest trueArgs falseDest falseArgs =>
          cases List.mem_singleton.mp hv
          exact List.mem_cons_self
      | _ => exact hv
    · exact mem_operands_of_explicitArgs? hargs hv

theorem mapOperands_eq_self {t : Terminator} {g : ValueId → ValueId}
    (h : ∀ v ∈ t.operands, g v = v) : t.mapOperands g = t := by
  cases t <;> simp_all [mapOperands, operands, map_eq_self]

theorem mapOperands_id (t : Terminator) : t.mapOperands (fun v => v) = t :=
  mapOperands_eq_self fun _ _ => rfl

/-- Lead the edges elsewhere and exchange the operands that they carry, each edge by its number. -/
def mapEdges (lead : Nat → BlockId → BlockId) (load : Nat → List ValueId → List ValueId) :
    Terminator → Terminator
  | br dest args => br (lead 0 dest) (load 0 args)
  | condBr cond trueDest trueArgs falseDest falseArgs =>
    condBr cond (lead 0 trueDest) (load 0 trueArgs) (lead 1 falseDest) (load 1 falseArgs)
  | switchValue operand cases default =>
    switchValue operand (cases.mapIdx fun e c => (c.1, lead e c.2)) (default.map (lead cases.length))
  | switchEnum operand cases default =>
    switchEnum operand (cases.mapIdx fun e c => (c.1, lead e c.2)) (default.map (lead cases.length))
  | checkedCast operand target success failure =>
    checkedCast operand target (lead 0 success) (lead 1 failure)
  | tryApply callee args normal error => tryApply callee args (lead 0 normal) (lead 1 error)
  | dynamicMethodBr operand member hasMethod noMethod =>
    dynamicMethodBr operand member (lead 0 hasMethod) (lead 1 noMethod)
  | yieldTo values resume cancel => yieldTo values (lead 0 resume) (lead 1 cancel)
  | ret value => ret value
  | throwing value => throwing value
  | unwind => unwind
  | unreachable => unreachable

section MapEdges

variable (t : Terminator) (lead lead' : Nat → BlockId → BlockId)
  (load load' : Nat → List ValueId → List ValueId)

theorem mapEdges_mapEdges :
    (t.mapEdges lead load).mapEdges lead' load' =
      t.mapEdges (fun e dest => lead' e (lead e dest)) fun e args => load' e (load e args) := by
  cases t <;> simp [mapEdges, Function.comp_def]

@[simp] theorem ownOperands_mapEdges : (t.mapEdges lead load).ownOperands = t.ownOperands := by
  cases t <;> rfl

@[simp] theorem numEdges_mapEdges : (t.mapEdges lead load).numEdges = t.numEdges := by
  cases t <;> simp [mapEdges, numEdges]

theorem getElem?_mapCases {κ : Type} (cases : List (κ × BlockId)) (default : Option BlockId)
    (e : Nat) :
    ((cases.mapIdx fun e c => (c.1, lead e c.2)).map Prod.snd ++
        (default.map (lead cases.length)).toList)[e]? =
      ((cases.map Prod.snd ++ default.toList)[e]?).map (lead e) := by
  rcases Nat.lt_trichotomy e cases.length with hlt | rfl | hgt
  · rw [List.getElem?_append_left (by simpa using hlt), List.getElem?_append_left (by simpa using hlt)]
    simp [hlt]
  · rw [List.getElem?_append_right (by simp), List.getElem?_append_right (by simp)]
    rcases default with _ | dest <;> simp
  · rw [List.getElem?_eq_none, List.getElem?_eq_none]
    · rfl
    · rcases default with _ | dest <;> simp <;> omega
    · rcases default with _ | dest <;> simp <;> omega

theorem getElem?_successors_mapEdges (e : Nat) :
    (t.mapEdges lead load).successors[e]? = (t.successors[e]?).map (lead e) := by
  cases t
  case switchValue operand cases default => exact getElem?_mapCases lead cases default e
  case switchEnum operand cases default => exact getElem?_mapCases lead cases default e
  all_goals
    rcases e with _ | _ | e <;> rfl

theorem edgeArgs?_mapEdges (e : Nat) :
    (t.mapEdges lead load).edgeArgs? e = (t.edgeArgs? e).map (·.mapArgs (load e)) := by
  cases t
  case switchValue operand cases default =>
    simp only [mapEdges, edgeArgs?, List.length_mapIdx, Option.isSome_map]
    split <;> rfl
  case switchEnum operand cases default =>
    simp only [mapEdges, edgeArgs?, List.length_mapIdx, Option.isSome_map]
    split
    · rfl
    · split <;> rfl
  all_goals
    rcases e with _ | _ | e <;> rfl

variable {t lead lead' load load'}

theorem mapCases_congr {κ : Type} {cases : List (κ × BlockId)} {default : Option BlockId}
    (h : ∀ e dest, (cases.map Prod.snd ++ default.toList)[e]? = some dest →
      lead e dest = lead' e dest) :
    (cases.mapIdx fun e c => (c.1, lead e c.2)) = (cases.mapIdx fun e c => (c.1, lead' e c.2)) ∧
      default.map (lead cases.length) = default.map (lead' cases.length) := by
  constructor
  · apply List.ext_getElem?
    intro e
    rw [List.getElem?_mapIdx, List.getElem?_mapIdx]
    rcases hc : cases[e]? with _ | c
    · rfl
    · have hlt := (List.getElem?_eq_some_iff.mp hc).1
      have hdest := h e c.2 (by rw [List.getElem?_append_left (by simpa using hlt)]; simp [hc])
      simp only [Option.map_some, hdest]
  · rcases default with _ | dest
    · rfl
    · have hdest := h cases.length dest (by rw [List.getElem?_append_right (by simp)]; simp)
      simp only [Option.map_some, hdest]

theorem mapEdges_congr
    (hlead : ∀ e dest, t.successors[e]? = some dest → lead e dest = lead' e dest)
    (hload : ∀ e args, t.edgeArgs? e = some (.explicit args) → load e args = load' e args) :
    t.mapEdges lead load = t.mapEdges lead' load' := by
  cases t with
  | br dest args => simp only [mapEdges, hlead 0 dest rfl, hload 0 args rfl]
  | condBr cond trueDest trueArgs falseDest falseArgs =>
      simp only [mapEdges, hlead 0 trueDest rfl, hload 0 trueArgs rfl, hlead 1 falseDest rfl,
        hload 1 falseArgs rfl]
  | switchValue operand cases default =>
      obtain ⟨hcases, hdefault⟩ := mapCases_congr hlead
      simp only [mapEdges, hcases, hdefault]
  | switchEnum operand cases default =>
      obtain ⟨hcases, hdefault⟩ := mapCases_congr hlead
      simp only [mapEdges, hcases, hdefault]
  | checkedCast operand target success failure =>
      simp only [mapEdges, hlead 0 success rfl, hlead 1 failure rfl]
  | tryApply callee args normal error =>
      simp only [mapEdges, hlead 0 normal rfl, hlead 1 error rfl]
  | dynamicMethodBr operand member hasMethod noMethod =>
      simp only [mapEdges, hlead 0 hasMethod rfl, hlead 1 noMethod rfl]
  | yieldTo values resume cancel => simp only [mapEdges, hlead 0 resume rfl, hlead 1 cancel rfl]
  | _ => rfl

theorem mem_operands_of_mapEdges {v : ValueId}
    (hv : v ∈ (t.mapEdges lead load).operands) (hload : ∀ e args, v ∈ load e args → v ∈ args) :
    v ∈ t.operands := by
  rw [mem_operands_iff] at hv ⊢
  rcases hv with hv | ⟨e, args, hargs, hv⟩
  · rw [ownOperands_mapEdges] at hv
    exact .inl hv
  · rw [← edgeArgs?_eq_explicit, edgeArgs?_mapEdges, Option.map_eq_some_iff] at hargs
    obtain ⟨old | payload, hold, heq⟩ := hargs
    · cases heq
      exact .inr ⟨e, old, edgeArgs?_eq_explicit.mp hold, hload e old hv⟩
    · cases heq

theorem mapEdges_id (t : Terminator) : t.mapEdges (fun _ dest => dest) (fun _ args => args) = t := by
  cases t
  case switchValue operand cases default => simp [mapEdges, List.mapIdx_eq_iff]
  case switchEnum operand cases default => simp [mapEdges, List.mapIdx_eq_iff]
  all_goals rfl

end MapEdges

/-- The terminator with edge `e` led to `dest`; without such an edge nothing changes. -/
def retarget (t : Terminator) (e : Nat) (dest : BlockId) : Terminator :=
  t.mapEdges (fun k old => if k = e then dest else old) fun _ args => args

theorem modify_eq_mapIdx {κ : Type} (cases : List (κ × BlockId)) (e : Nat) (dest : BlockId) :
    (cases.modify e fun c => (c.1, dest)) =
      cases.mapIdx fun k c => (c.1, if k = e then dest else c.2) := by
  apply List.ext_getElem?
  intro k
  rw [List.getElem?_mapIdx, List.getElem?_modify]
  rcases Nat.decEq k e with hk | rfl
  · rcases cases[k]? with _ | c <;> simp [hk, Ne.symm hk]
  · simp

theorem setCase_of_lt {κ : Type} {cases : List (κ × BlockId)} {default : Option BlockId} {e : Nat}
    (h : e < (cases.map Prod.snd ++ default.toList).length) (dest : BlockId) :
    setCase cases default e dest =
      .ok (cases.mapIdx fun k c => (c.1, if k = e then dest else c.2),
        default.map fun old => if cases.length = e then dest else old) := by
  rw [← modify_eq_mapIdx]
  unfold setCase
  split
  · rename_i hlt
    simp [Nat.ne_of_gt hlt]
  · rename_i hge
    rw [List.modify_eq_self (Nat.le_of_not_lt hge)]
    rcases default with _ | old
    · simp at h
      omega
    · have heq : e = cases.length := by
        simp at h
        omega
      simp [heq]

theorem setCase_of_le {κ : Type} {cases : List (κ × BlockId)} {default : Option BlockId} {e : Nat}
    (h : (cases.map Prod.snd ++ default.toList).length ≤ e) (dest : BlockId) :
    setCase cases default e dest = .error (.noCase e cases.length) := by
  unfold setCase
  rcases default with _ | old
  · simp at h
    rw [if_neg (Nat.not_lt_of_ge h)]
  · simp at h
    rw [if_neg (by omega)]
    exact if_neg (by omega)

theorem setSuccessor_of_lt {t : Terminator} {e : Nat} (h : e < t.successors.length)
    (dest : BlockId) : t.setSuccessor e dest = .ok (t.retarget e dest) := by
  cases t
  case switchValue operand cases default => rw [setSuccessor, setCase_of_lt h]; rfl
  case switchEnum operand cases default => rw [setSuccessor, setCase_of_lt h]; rfl
  case br dest' args =>
    rcases e with _ | e
    · rfl
    · simp [successors] at h
  case ret | throwing | unwind | unreachable => cases h
  all_goals
    rcases e with _ | _ | e
    · rfl
    · rfl
    · simp only [successors, List.length_cons, List.length_nil] at h
      omega

/-- What is said about an edge that there is not when it is to be led elsewhere. -/
def missingEdge : Terminator → Nat → Fault
  | switchValue _ cases _, e => .noCase e cases.length
  | switchEnum _ cases _, e => .noCase e cases.length
  | t, e => .noEdge t e

theorem setSuccessor_of_le {t : Terminator} {e : Nat} (h : t.successors.length ≤ e)
    (dest : BlockId) : t.setSuccessor e dest = .error (t.missingEdge e) := by
  cases t
  case switchValue operand cases default => rw [setSuccessor, setCase_of_le h]; rfl
  case switchEnum operand cases default => rw [setSuccessor, setCase_of_le h]; rfl
  case br dest' args =>
    rcases e with _ | e
    · cases h
    · rfl
  case ret | throwing | unwind | unreachable => rfl
  all_goals
    rcases e with _ | _ | e
    · cases h
    · simp [successors] at h
    · rfl

theorem withEdgeArgs_eq_mapEdges (t : Terminator) (e : Nat) (args : List ValueId) :
    t.withEdgeArgs e args =
      t.mapEdges (fun _ dest => dest) fun k old => if k = e then args else old := by
  cases t
  case br dest old => rcases e with _ | e <;> rfl
  case condBr cond trueDest trueArgs falseDest falseArgs => rcases e with _ | _ | e <;> rfl
  all_goals exact (mapEdges_id _).symm

theorem successors_retarget (t : Terminator) (e : Nat) (dest : BlockId) :
    (t.retarget e dest).successors = t.successors.set e dest := by
  apply List.ext_getElem?
  intro k
  rw [retarget, getElem?_successors_mapEdges, List.getElem?_set]
  rcases Nat.decEq k e with hne | rfl
  · simp [hne, Ne.symm hne]
  · rcases Nat.lt_or_ge k t.successors.length with hlt | hge
    · simp [hlt]
    · simp [Nat.not_lt_of_ge hge]

theorem operands_retarget (t : Terminator) (e : Nat) (dest : BlockId) :
    (t.retarget e dest).operands = t.operands := by
  cases t <;> rfl

theorem edgeArgs?_retarget (t : Terminator) (e k : Nat) (dest : BlockId) :
    (t.retarget e dest).edgeArgs? k = t.edgeArgs? k := by
  rw [retarget, edgeArgs?_mapEdges]
  rcases t.edgeArgs? k with _ | _ | _ <;> rfl

theorem successors_withEdgeArgs (t : Terminator) (e : Nat) (args : List ValueId) :
    (t.withEdgeArgs e args).successors = t.successors := by
  unfold withEdgeArgs
  split <;> rfl

theorem ownOperands_withEdgeArgs (t : Terminator) (e : Nat) (args : List ValueId) :
    (t.withEdgeArgs e args).ownOperands = t.ownOperands := by
  unfold withEdgeArgs
  split <;> rfl

theorem withEdgeArgs_of_none {t : Terminator} {e : Nat} {args : List ValueId}
    (h : t.explicitArgs? e = none) : t.withEdgeArgs e args = t := by
  unfold withEdgeArgs
  split
  · simp [explicitArgs?] at h
  · simp [explicitArgs?] at h
  · simp [explicitArgs?] at h
  · rfl

theorem edgeArgs?_withEdgeArgs {t : Terminator} {e : Nat} {old : List ValueId}
    (h : t.explicitArgs? e = some old) (args : List ValueId) (k : Nat) :
    (t.withEdgeArgs e args).edgeArgs? k =
      if k = e then some (.explicit args) else t.edgeArgs? k := by
  unfold explicitArgs? at h
  split at h <;> simp only [Option.some.injEq, reduceCtorEq] at h
  all_goals rcases k with _ | _ | k <;> rfl

theorem count_operands_withEdgeArgs {t : Terminator} {e : Nat} {old : List ValueId}
    (h : t.explicitArgs? e = some old) (args : List ValueId) (v : ValueId) :
    (t.withEdgeArgs e args).operands.count v + old.count v =
      t.operands.count v + args.count v := by
  unfold explicitArgs? at h
  split at h <;> simp only [Option.some.injEq, reduceCtorEq] at h
  all_goals
    subst h
    simp only [withEdgeArgs, operands, List.cons_append, List.count_cons, List.count_append]
    omega

theorem mem_operands_withEdgeArgs {t : Terminator} {e : Nat} {args : List ValueId} {v : ValueId}
    (h : v ∈ (t.withEdgeArgs e args).operands) : v ∈ t.operands ∨ v ∈ args := by
  rcases hold : t.explicitArgs? e with _ | old
  · rw [withEdgeArgs_of_none hold] at h
    exact .inl h
  · have hcount := count_operands_withEdgeArgs hold args v
    rw [← List.count_pos_iff] at h
    rw [← List.count_pos_iff, ← List.count_pos_iff]
    omega

end Terminator

theorem Operation.mapOperands_eq_self {op : Operation} {g : ValueId → ValueId}
    (h : ∀ v ∈ op.operands, g v = v) : op.mapOperands g = op := by
  cases op <;> simp_all [mapOperands, operands, map_eq_self]

theorem Operation.mapOperands_id (op : Operation) : op.mapOperands (fun v => v) = op :=
  mapOperands_eq_self fun _ _ => rfl

end FlowGraph
