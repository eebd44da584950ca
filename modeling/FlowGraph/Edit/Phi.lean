import FlowGraph.Body.Edges
import FlowGraph.Body.Build

/-!
Erasing a phi together with the operand that each incoming edge delivers for it. If asked, the
values that lose their last reader are erased too: an instruction without side effects goes and
its operands are looked at next, a phi goes like the first one.

Each value that is looked at after the first ones stood in an operand slot that is gone, so the
number of operand slots bounds the work.
-/

namespace FlowGraph

namespace Body

/-- The number of operand slots of all live instructions and terminators. -/
def slotCount (f : Body) : Nat :=
  f.instrs.total (fun i => i.op.operands.length) +
    f.blocks.total (fun b => (b.terminator.map (·.operands.length)).getD 0)

/-- Remove operand number `index` from each of the given edges, and return those operands.
Implicit edges have none. -/
def dropOperands (f : Body) (index : Nat) : List Edge → Except Fault (List ValueId × Body)
  | [] => .ok ([], f)
  | e :: rest =>
    match f.block e.block with
    | .error fault => .error fault
    | .ok data =>
      match data.terminator.bind (·.explicitArgs? e.index) with
      | none => f.dropOperands index rest
      | some args =>
        match args[index]? with
        | none => .error .outOfBounds
        | some v =>
          match f.setEdgeArgs e.block e.index (args.eraseIdx index) with
          | .error fault => .error fault
          | .ok (_, g) =>
            match g.dropOperands index rest with
            | .error fault => .error fault
            | .ok (vs, last) => .ok (v :: vs, last)

/-- Remove phi number `index` of `b` and its operands on the incoming edges, which are returned.
If an incoming edge is implicit nothing is changed. -/
def detachPhi (f : Body) (b : BlockId) (index : Nat) :
    Except Fault (Option (List ValueId × Body)) := do
  let incoming ← f.predecessors b
  if ← incoming.anyM fun e => return (← f.edgeArgs e.block e.index).isImplicit then return none
  let (operands, f) ← f.dropOperands index incoming
  return some (operands, ← f.eraseArg b index)

/-- Erase `v` if nothing reads it and nothing else depends on it. Returns the values that lost a
reader. -/
def retire (f : Body) (v : ValueId) : Except Fault (List ValueId × Body) :=
  match f.value? v with
  | none => .ok ([], f)
  | some data =>
    if f.hasUses v then .ok ([], f)
    else
      match data.origin with
      | .result i =>
        match f.instr i with
        | .error fault => .error fault
        | .ok instr =>
          if instr.op.hasSideEffects then .ok ([], f)
          else
            match f.eraseInstr i with
            | .error fault => .error fault
            | .ok g => .ok (instr.op.operands, g)
      | .argument b index .phi =>
        match f.detachPhi b index with
        | .error fault => .error fault
        | .ok (some (operands, g)) => .ok (operands, g)
        | .ok none => .ok ([], f)
      | .argument _ _ (.function _) => .ok ([], f)

theorem length_operands_withEdgeArgs {t : Terminator} {e : Nat} {old : List ValueId}
    (args : List ValueId) (h : t.explicitArgs? e = some old) :
    (t.withEdgeArgs e args).operands.length + old.length = t.operands.length + args.length := by
  unfold Terminator.explicitArgs? at h
  split at h <;> simp only [Option.some.injEq, reduceCtorEq] at h
  all_goals
    subst h
    simp only [Terminator.withEdgeArgs, Terminator.operands, List.cons_append, List.length_cons,
      List.length_append]
    omega

theorem slotCount_modifyBlock {f : Body} (b : BlockId) (g : Block → Block)
    (h : ∀ data, (g data).terminator = data.terminator) :
    (f.modifyBlock b g).slotCount = f.slotCount := by
  have := Arena.total_modify_of_eq (a := f.blocks) b.index
    (fun data => (data.terminator.map (·.operands.length)).getD 0) g (fun data => by rw [h])
  simp only [slotCount, modifyBlock, this]

theorem slotCount_setEdgeArgs {f g : Body} {b : BlockId} {e : Nat} {args old : List ValueId}
    {data : Block} {result : Option (List ValueId)} (hb : f.block b = .ok data)
    (hold : data.terminator.bind (·.explicitArgs? e) = some old)
    (h : f.setEdgeArgs b e args = .ok (result, g)) :
    g.slotCount + old.length = f.slotCount + args.length := by
  obtain ⟨t, ht, hargs⟩ := Option.bind_eq_some_iff.1 hold
  simp only [setEdgeArgs, hb, bind, Except.bind, ht, hargs] at h
  cases h
  have htotal := Arena.total_modify (fun data : Block =>
    (data.terminator.map (·.operands.length)).getD 0)
    (fun data => { data with terminator := some (t.withEdgeArgs e args) }) (block_eq_ok.1 hb)
  have hlen := length_operands_withEdgeArgs args hargs
  simp only [ht, Option.map_some, Option.getD_some] at htotal
  simp only [slotCount, modifyBlock]
  omega

theorem slotCount_dropOperands {f g : Body} {index : Nat} {edges : List Edge}
    {operands : List ValueId} (h : f.dropOperands index edges = .ok (operands, g)) :
    g.slotCount + operands.length = f.slotCount := by
  fun_induction dropOperands f index edges generalizing operands g with
  | case1 => cases h; simp
  | case2 => cases h
  | case3 f e rest data hb hnone ih => exact ih h
  | case4 => cases h
  | case5 => cases h
  | case6 => cases h
  | case7 f e rest data hb args hargs v hv result g₁ hset vs last hrest ih =>
    cases h
    have hstep := slotCount_setEdgeArgs hb hargs hset
    have htail := ih hrest
    have hlt := (List.getElem?_eq_some_iff.1 hv).1
    have hlen := List.length_eraseIdx_of_lt hlt
    simp only [List.length_cons]
    omega

theorem slotCount_renumberArgs {f g : Body} {b : BlockId} {start : Nat} {args : List ValueId}
    (h : f.renumberArgs b start args = .ok g) : g.slotCount = f.slotCount := by
  induction args generalizing f start with
  | nil => cases h; rfl
  | cons v rest ih =>
    unfold renumberArgs at h
    cases hv : f.value v with
    | error fault => simp [hv, bind, Except.bind] at h
    | ok data =>
      simp only [hv, bind, Except.bind] at h
      exact (ih h).trans rfl

theorem slotCount_eraseValue {f g : Body} {v : ValueId} (h : f.eraseValue v = .ok g) :
    g.slotCount = f.slotCount := by
  unfold eraseValue at h
  split at h
  · cases h; rfl
  · cases h

theorem slotCount_eraseArg {f g : Body} {b : BlockId} {index : Nat}
    (h : f.eraseArg b index = .ok g) : g.slotCount = f.slotCount := by
  unfold eraseArg at h
  cases hv : f.arg b index with
  | error fault => simp [hv, bind, Except.bind] at h
  | ok v =>
    simp only [hv, bind, Except.bind] at h
    split at h
    · cases h
    · cases herase : (f.modifyBlock b fun data =>
          { data with args := data.args.eraseIdx index }).eraseValue v with
      | error fault => simp [herase] at h
      | ok f₁ =>
        simp only [herase] at h
        cases hb : f₁.block b with
        | error fault => simp [hb] at h
        | ok data =>
          simp only [hb] at h
          rw [slotCount_renumberArgs h, slotCount_eraseValue herase]
          exact slotCount_modifyBlock b _ fun _ => rfl

theorem slotCount_detachPhi {f g : Body} {b : BlockId} {index : Nat} {operands : List ValueId}
    (h : f.detachPhi b index = .ok (some (operands, g))) :
    g.slotCount + operands.length = f.slotCount := by
  unfold detachPhi at h
  cases hpreds : f.predecessors b with
  | error fault => simp [hpreds, bind, Except.bind] at h
  | ok incoming =>
    simp only [hpreds, bind, Except.bind] at h
    split at h
    · cases h
    · split at h
      · cases h
      · simp only [pure, Except.pure] at h
        cases hdrop : f.dropOperands index incoming with
        | error fault => simp [hdrop] at h
        | ok result =>
          obtain ⟨values, f₁⟩ := result
          simp only [hdrop] at h
          cases herase : f₁.eraseArg b index with
          | error fault => simp [herase] at h
          | ok f₂ =>
            simp only [herase] at h
            cases h
            rw [slotCount_eraseArg herase]
            exact slotCount_dropOperands hdrop

theorem slotCount_eraseInstr {f g : Body} {i : InstrId} {data : Instr}
    (hi : f.instr i = .ok data) (h : f.eraseInstr i = .ok g) :
    g.slotCount + data.op.operands.length = f.slotCount := by
  have hget : f.instrs.get? i.index = some data := by
    unfold instr instr? at hi
    cases hslot : f.instrs.get? i.index with
    | none => simp [hslot] at hi
    | some other => simpa [hslot] using hi
  have hinstr := Arena.total_erase (fun i : Instr => i.op.operands.length) hget
  have key : ∀ f₁ : Body, f₁.instrs = f.instrs → f₁.blocks = f.blocks →
      ∀ f₂, (do
        let _ ← f₁.block data.block
        let f₂ := f₁.modifyBlock data.block fun blk =>
          { blk with instrs := blk.instrs.filter (· ≠ i) }
        return { f₂ with instrs := f₂.instrs.erase i.index } : Except Fault Body) = .ok f₂ →
      f₂.slotCount + data.op.operands.length = f.slotCount := by
    intro f₁ hinstrs hblocks f₂ h₂
    cases hb : f₁.block data.block with
    | error fault => simp [hb, bind, Except.bind] at h₂
    | ok blk =>
      simp only [hb, bind, Except.bind] at h₂
      cases h₂
      have hmod := slotCount_modifyBlock (f := f₁) data.block
        (fun blk => { blk with instrs := blk.instrs.filter (· ≠ i) }) fun _ => rfl
      simp only [slotCount, modifyBlock, hinstrs, hblocks] at hmod ⊢
      omega
  unfold eraseInstr at h
  simp only [hi, bind, Except.bind] at h
  cases hresult : data.result with
  | none =>
    simp only [hresult, pure, Except.pure] at h
    exact key { f with useIndex := f.useIndex.unlink (.instr i) data.op.operands } rfl rfl g h
  | some v =>
    simp only [hresult] at h
    by_cases huses : hasUses { f with useIndex := f.useIndex.unlink (.instr i) data.op.operands } v
    · simp [huses] at h
    · simp only [huses, Bool.false_eq_true, if_false] at h
      unfold eraseValue at h
      by_cases hv : v.index < f.values.size
      · simp only [hv, if_true] at h
        exact key { f with
          useIndex := f.useIndex.unlink (.instr i) data.op.operands
          values := f.values.erase v.index } rfl rfl g h
      · simp [hv] at h

theorem slotCount_retire {f g : Body} {v : ValueId} {freed : List ValueId}
    (h : f.retire v = .ok (freed, g)) : g.slotCount + freed.length = f.slotCount := by
  unfold retire at h
  split at h
  · cases h; simp
  · split at h
    · cases h; simp
    · split at h
      · split at h
        · cases h
        · rename_i instr hi
          split at h
          · cases h; simp
          · split at h
            · cases h
            · rename_i g₁ herase
              cases h
              exact slotCount_eraseInstr hi herase
      · split at h
        · cases h
        · rename_i operands g₁ hdetach
          cases h
          exact slotCount_detachPhi hdetach
        · cases h; simp
      · cases h; simp

/-- Retire the values on the stack and, in turn, those that lose a reader by it. -/
def cleanUp (f : Body) (stack : List ValueId) : Except Fault Body :=
  match stack with
  | [] => .ok f
  | v :: rest =>
    match _hretire : f.retire v with
    | .error fault => .error fault
    | .ok (freed, g) => g.cleanUp (freed.reverse ++ rest)
termination_by f.slotCount + stack.length
decreasing_by
  have := slotCount_retire ‹f.retire v = .ok (freed, g)›
  simp
  omega

theorem cleanUp_nil (f : Body) : f.cleanUp [] = .ok f := by
  rw [cleanUp]

theorem cleanUp_cons (f : Body) (v : ValueId) (rest : List ValueId) : f.cleanUp (v :: rest) = (do
    let (freed, g) ← f.retire v
    g.cleanUp (freed.reverse ++ rest)) := by
  rw [cleanUp]
  split
  · rename_i hretire
    rw [hretire]
    rfl
  · rename_i hretire
    rw [hretire]
    rfl

/-- Erase phi number `index` of `b` with its operands on the incoming edges, all of which have to
be explicit. Nothing but those edges may read it. With `clean` the values that nothing reads any
more go too. -/
def erasePhi (f : Body) (b : BlockId) (index : Nat) (clean : Bool) : Except Fault Body := do
  let v ← f.arg b index
  if !(← f.value v).origin.isPhi then .error (.notPhi b index v)
  match ← f.detachPhi b index with
  | none => .error (.implicitPhi b index)
  | some (operands, f) => if clean then f.cleanUp operands.reverse else return f

end Body

end FlowGraph
