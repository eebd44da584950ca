import FlowGraph.Body.Build
import FlowGraph.Proofs.Consistency.Edges

namespace FlowGraph.Body

variable {f g : Body} {b c : BlockId} {data : Block}

theorem blockId_ext {b c : BlockId} : b.index = c.index ↔ b = c := by
  rcases b with ⟨_⟩
  rcases c with ⟨_⟩
  simp

theorem instrId_ext {i j : InstrId} : i.index = j.index ↔ i = j := by
  rcases i with ⟨_⟩
  rcases j with ⟨_⟩
  simp

/-- The body with a new empty block and the given layout. -/
def withBlock (f : Body) (layout : List BlockId) : Body :=
  { f with blocks := f.blocks.alloc {}, layout }

def nextBlock (f : Body) : BlockId := ⟨f.blocks.size⟩

def nextValue (f : Body) : ValueId := ⟨f.values.size⟩

def nextInstr (f : Body) : InstrId := ⟨f.instrs.size⟩

theorem block?_nextBlock (f : Body) : f.block? f.nextBlock = none :=
  Arena.get?_eq_none_of_size_le (Nat.le_refl _)

theorem value?_nextValue (f : Body) : f.value? f.nextValue = none :=
  Arena.get?_eq_none_of_size_le (Nat.le_refl _)

theorem instr?_nextInstr (f : Body) : f.instr? f.nextInstr = none :=
  Arena.get?_eq_none_of_size_le (Nat.le_refl _)

theorem block?_withBlock (f : Body) (layout : List BlockId) (c : BlockId) :
    (f.withBlock layout).block? c = if c = f.nextBlock then some {} else f.block? c := by
  refine (Arena.get?_alloc f.blocks {} c.index).trans ?_
  simp only [← blockId_ext]
  rfl

theorem terminator?_withBlock (f : Body) (layout : List BlockId) (c : BlockId) :
    (f.withBlock layout).terminator? c = f.terminator? c := by
  rw [terminator?, block?_withBlock, terminator?]
  split
  · rename_i hc
    rw [hc, block?_nextBlock]
    rfl
  · rfl

theorem isLiveBlock_withBlock (f : Body) (layout : List BlockId) (c : BlockId) :
    (f.withBlock layout).isLiveBlock c = true ↔ c = f.nextBlock ∨ f.isLiveBlock c = true := by
  rw [isLiveBlock, block?_withBlock]
  split <;> simp [isLiveBlock, *]

theorem not_isLiveBlock_nextBlock (f : Body) : ¬ f.isLiveBlock f.nextBlock = true := by
  rw [isLiveBlock, block?_nextBlock]
  exact Bool.false_ne_true

section WithBlock

variable {layout : List BlockId}

theorem LayoutListed.withBlock (h : f.LayoutListed)
    (hlayout : layout.Perm (f.nextBlock :: f.layout)) : (f.withBlock layout).LayoutListed := by
  refine ⟨?_, ?_⟩
  · refine hlayout.nodup_iff.mpr (List.nodup_cons.mpr ?_)
    exact ⟨fun hmem => f.not_isLiveBlock_nextBlock ((h.mem_iff _).mp hmem), h.nodup⟩
  · intro c
    rw [isLiveBlock_withBlock, ← h.mem_iff]
    exact hlayout.mem_iff.trans List.mem_cons

theorem EdgesListed.withBlock (h : f.EdgesListed) : (f.withBlock layout).EdgesListed := by
  refine ⟨?_, ?_⟩
  · intro c preds hc e
    rw [target?_congr (terminator?_withBlock f layout)]
    rw [preds?, block?_withBlock] at hc
    split at hc
    · rename_i hnew
      cases hc
      rw [if_neg fun htarget => f.not_isLiveBlock_nextBlock (hnew ▸ h.live_target htarget)]
      rfl
    · exact h.count_preds hc e
  · intro e c hc
    rw [target?_congr (terminator?_withBlock f layout)] at hc
    exact (isLiveBlock_withBlock f layout c).mpr (.inr (h.live_target hc))

theorem InstrsListed.withBlock (h : f.InstrsListed) : (f.withBlock layout).InstrsListed := by
  refine ⟨?_, ?_⟩
  · intro c instrs hc i
    rw [instrs?, block?_withBlock] at hc
    split at hc
    · rename_i hnew
      cases hc
      change 0 = if f.holder? i = some c then 1 else 0
      rw [if_neg fun hholder => f.not_isLiveBlock_nextBlock (hnew ▸ h.live_holder hholder)]
    · exact h.count_instrs hc i
  · intro i c hi
    exact (isLiveBlock_withBlock f layout c).mpr (.inr (h.live_holder hi))

theorem ArgsListed.withBlock (h : f.ArgsListed) : (f.withBlock layout).ArgsListed := by
  refine ⟨?_, ?_⟩
  · intro c args hc index v
    rw [args?, block?_withBlock] at hc
    split at hc
    · rename_i hnew
      cases hc
      refine iff_of_false (by simp) ?_
      rintro ⟨kind, hv⟩
      exact f.not_isLiveBlock_nextBlock (hnew ▸ h.live_block hv)
    · exact h.getElem?_args hc index v
  · intro v c index kind hv
    exact (isLiveBlock_withBlock f layout c).mpr (.inr (h.live_block hv))

theorem Consistent.withBlock (h : f.Consistent)
    (hlayout : layout.Perm (f.nextBlock :: f.layout)) : (f.withBlock layout).Consistent :=
  ⟨h.layout.withBlock hlayout, h.edges.withBlock, h.instrs.withBlock, h.args.withBlock, h.results,
    h.uses.congr rfl rfl (operandsAt?_congr (terminator?_withBlock f layout) fun _ => rfl)⟩

end WithBlock

theorem allocBlock_eq_ok :
    f.allocBlock = .ok (b, g) ↔
      f.blocks.size < slotLimit ∧ b = f.nextBlock ∧ g = f.withBlock f.layout := by
  simp only [allocBlock, bind_eq_ok, checked_eq_ok, pure_eq_ok, Prod.mk.injEq]
  constructor
  · rintro ⟨_, ⟨hlt, rfl⟩, rfl, rfl⟩
    exact ⟨hlt, rfl, rfl⟩
  · rintro ⟨hlt, rfl, rfl⟩
    exact ⟨_, ⟨hlt, rfl⟩, rfl, rfl⟩

theorem layoutPosition_eq_ok {position : Nat} :
    f.layoutPosition b = .ok position ↔ f.layout.idxOf? b = some position := by
  unfold layoutPosition
  rcases f.layout.idxOf? b with _ | n <;> simp

theorem allocBlock_arrange_eq_ok (arrange : BlockId → List BlockId → List BlockId) :
    (do
      let (new, f) ← f.allocBlock
      return (new, { f with layout := arrange new f.layout })) = Except.ok (b, g) ↔
      f.blocks.size < slotLimit ∧ b = f.nextBlock ∧
        g = f.withBlock (arrange f.nextBlock f.layout) := by
  simp only [bind_eq_ok, Prod.exists, allocBlock_eq_ok, pure_eq_ok, Prod.mk.injEq]
  constructor
  · rintro ⟨_, _, ⟨hlt, rfl, rfl⟩, rfl, rfl⟩
    exact ⟨hlt, rfl, rfl⟩
  · rintro ⟨hlt, rfl, rfl⟩
    exact ⟨_, _, ⟨hlt, rfl, rfl⟩, rfl, rfl⟩

theorem createBlock_eq_ok :
    f.createBlock = .ok (b, g) ↔
      f.blocks.size < slotLimit ∧ b = f.nextBlock ∧
        g = f.withBlock (f.layout ++ [f.nextBlock]) :=
  allocBlock_arrange_eq_ok fun new layout => layout ++ [new]

theorem createBlockAfter_eq_ok {sibling : BlockId} :
    f.createBlockAfter sibling = .ok (b, g) ↔
      ∃ position, f.layout.idxOf? sibling = some position ∧ f.blocks.size < slotLimit ∧
        b = f.nextBlock ∧ g = f.withBlock (f.layout.insertIdx (position + 1) f.nextBlock) := by
  rw [createBlockAfter, bind_eq_ok]
  refine exists_congr fun position => and_congr layoutPosition_eq_ok ?_
  exact allocBlock_arrange_eq_ok fun new layout => layout.insertIdx (position + 1) new

theorem createBlockBefore_eq_ok {sibling : BlockId} :
    f.createBlockBefore sibling = .ok (b, g) ↔
      ∃ position, f.layout.idxOf? sibling = some position ∧ f.blocks.size < slotLimit ∧
        b = f.nextBlock ∧ g = f.withBlock (f.layout.insertIdx position f.nextBlock) := by
  rw [createBlockBefore, bind_eq_ok]
  refine exists_congr fun position => and_congr layoutPosition_eq_ok ?_
  exact allocBlock_arrange_eq_ok fun new layout => layout.insertIdx position new

theorem Consistent.createBlock (h : f.Consistent) (hcreate : f.createBlock = .ok (b, g)) :
    g.Consistent := by
  obtain ⟨-, -, rfl⟩ := createBlock_eq_ok.mp hcreate
  exact h.withBlock (List.perm_append_singleton _ _)

theorem Consistent.createBlockAfter {sibling : BlockId} (h : f.Consistent)
    (hcreate : f.createBlockAfter sibling = .ok (b, g)) : g.Consistent := by
  obtain ⟨position, hposition, -, -, rfl⟩ := createBlockAfter_eq_ok.mp hcreate
  have hlt := (List.idxOf?_eq_some_iff.mp hposition).1
  exact h.withBlock (List.perm_insertIdx _ _ hlt)

theorem Consistent.createBlockBefore {sibling : BlockId} (h : f.Consistent)
    (hcreate : f.createBlockBefore sibling = .ok (b, g)) : g.Consistent := by
  obtain ⟨position, hposition, -, -, rfl⟩ := createBlockBefore_eq_ok.mp hcreate
  have hlt := (List.idxOf?_eq_some_iff.mp hposition).1
  exact h.withBlock (List.perm_insertIdx _ _ (Nat.le_of_lt hlt))

/-- The body with a new value that nothing reads. -/
def withValue (f : Body) (value : Value) : Body :=
  { f with values := f.values.alloc value, useIndex := f.useIndex.addValue }

theorem allocValue_eq_ok {value : Value} {v : ValueId} :
    f.allocValue value = .ok (v, g) ↔
      f.values.size < slotLimit ∧ v = f.nextValue ∧ g = f.withValue value := by
  simp only [allocValue, bind_eq_ok, checked_eq_ok, pure_eq_ok, Prod.mk.injEq]
  constructor
  · rintro ⟨_, ⟨hlt, rfl⟩, rfl, rfl⟩
    exact ⟨hlt, rfl, rfl⟩
  · rintro ⟨hlt, rfl, rfl⟩
    exact ⟨_, ⟨hlt, rfl⟩, rfl, rfl⟩

theorem value?_withValue (f : Body) (value : Value) (v : ValueId) :
    (f.withValue value).value? v = if v = f.nextValue then some value else f.value? v := by
  refine (Arena.get?_alloc f.values value v.index).trans ?_
  simp only [← UseIndex.ext_index]
  rfl

theorem origin?_withValue (f : Body) (value : Value) (v : ValueId) :
    (f.withValue value).origin? v =
      if v = f.nextValue then some value.origin else f.origin? v := by
  rw [origin?, value?_withValue, origin?]
  split <;> rfl

theorem origin?_nextValue (f : Body) : f.origin? f.nextValue = none := by
  rw [origin?, value?_nextValue]
  rfl

theorem UsesListed.withValue (h : f.UsesListed) (value : Value) :
    (f.withValue value).UsesListed where
  size_users := by
    change f.useIndex.addValue.users.size = (f.values.alloc value).size
    rw [UseIndex.size_addValue, Arena.size_alloc, h.size_users]
  allocated := by
    intro point v hv
    change v.index < (f.values.alloc value).size
    rw [Arena.size_alloc]
    exact Nat.lt_succ_of_lt (@h.allocated point v hv)
  count_users v point := by
    change (f.useIndex.addValue.usersOf v).count point = (f.operandsAt? point).count v
    rw [UseIndex.usersOf_addValue]
    exact h.count_users v point

theorem addArg_eq_ok {type : TypeId} {ownership : Ownership} {kind : ArgKind} {v : ValueId} :
    f.addArg b type ownership kind = .ok (v, g) ↔
      ∃ data, f.block? b = some data ∧ data.args.length < slotLimit ∧
        f.values.size < slotLimit ∧ v = f.nextValue ∧
        g = (f.withValue { type, ownership, origin := .argument b data.args.length kind }).modifyBlock
          b fun data => { data with args := data.args ++ [f.nextValue] } := by
  simp only [addArg, bind_eq_ok, block_eq_ok, guard_eq_ok, Prod.exists, allocValue_eq_ok,
    pure_eq_ok, Prod.mk.injEq, Nat.not_le]
  refine exists_congr fun data => and_congr_right fun _ => and_congr_right fun _ => ?_
  constructor
  · rintro ⟨_, _, ⟨hlt, rfl, rfl⟩, rfl, rfl⟩
    exact ⟨hlt, rfl, rfl⟩
  · rintro ⟨hlt, rfl, rfl⟩
    exact ⟨_, _, ⟨hlt, rfl, rfl⟩, rfl, rfl⟩

theorem ArgsListed.append {old : List ValueId} {v : ValueId} {kind : ArgKind} (h : f.ArgsListed)
    (hb : f.args? b = some old) (hfresh : f.origin? v = none)
    (hargs : ∀ c, g.args? c = if c = b then some (old ++ [v]) else f.args? c)
    (horigin : ∀ w, g.origin? w =
      if w = v then some (.argument b old.length kind) else f.origin? w) : g.ArgsListed := by
  have hplace : ∀ w c index, (∃ k, g.origin? w = some (.argument c index k)) ↔
      (∃ k, f.origin? w = some (.argument c index k)) ∨ w = v ∧ c = b ∧ index = old.length := by
    intro w c index
    rw [horigin]
    split
    · rename_i hw
      rw [hw, hfresh]
      simp [eq_comm]
    · rename_i hw
      simp [hw]
  refine ⟨?_, ?_⟩
  · intro c args hc index w
    rw [hplace]
    rw [hargs] at hc
    split at hc
    · rename_i hcb
      cases hc
      subst hcb
      rw [← h.getElem?_args hb index w, List.getElem?_append]
      split
      · rename_i hlt
        simp [Nat.ne_of_lt hlt]
      · rename_i hge
        rw [List.getElem?_eq_none (Nat.le_of_not_lt hge), List.getElem?_singleton]
        grind
    · rename_i hcb
      rw [h.getElem?_args hc]
      simp [hcb]
  · intro w c index k hw
    rw [← isSome_args?, hargs]
    rcases (hplace w c index).mp ⟨k, hw⟩ with ⟨k', hk'⟩ | ⟨-, rfl, -⟩
    · split
      · rfl
      · rw [isSome_args?]
        exact h.live_block hk'
    · rw [if_pos rfl]
      rfl

theorem Consistent.addArg {type : TypeId} {ownership : Ownership} {kind : ArgKind} {v : ValueId}
    (h : f.Consistent) (hadd : f.addArg b type ownership kind = .ok (v, g)) : g.Consistent := by
  obtain ⟨data, hb, -, -, -, rfl⟩ := addArg_eq_ok.mp hadd
  generalize hvalue : ({ type, ownership, origin := .argument b data.args.length kind } : Value) =
    value
  have horigin : ∀ w, (f.withValue value).origin? w =
      if w = f.nextValue then some (.argument b data.args.length kind) else f.origin? w := by
    intro w
    rw [origin?_withValue, ← hvalue]
  have hterm := fun c => terminator?_modifyBlock (f.withValue value) b c
    (g := fun data => { data with args := data.args ++ [f.nextValue] }) fun _ => rfl
  refine ⟨?_, ?_, ?_, ?_, ?_, ?_⟩
  · exact h.layout.congr rfl fun c => isLiveBlock_modifyBlock _ _ _ _
  · exact h.edges.congr (fun c => preds?_modifyBlock _ _ _ fun _ => rfl) (target?_congr hterm)
  · exact h.instrs.congr (fun c => instrs?_modifyBlock _ _ _ fun _ => rfl) fun _ => rfl
  · refine h.args.append (args?_of hb) (origin?_nextValue f) (fun c => ?_) horigin
    rw [args?, block?_modifyBlock_of (f.withValue value) b c hb]
    split <;> rfl
  · intro i w
    change f.result? i = some w ↔ (f.withValue value).origin? w = some (.result i)
    rw [horigin, h.results]
    split
    · rename_i hw
      subst hw
      simp [origin?_nextValue]
    · rfl
  · exact (h.uses.withValue value).congr rfl rfl (operandsAt?_congr hterm fun _ => rfl)

theorem Consistent.setOwnership {v : ValueId} {ownership : Ownership} (h : f.Consistent)
    (hset : f.setOwnership v ownership = .ok g) : g.Consistent := by
  simp only [Body.setOwnership, bind_eq_ok, value_eq_ok, pure_eq_ok] at hset
  obtain ⟨value, -, rfl⟩ := hset
  have horigin : ∀ w, (f.modifyValue v fun data => { data with ownership }).origin? w =
      f.origin? w := by
    intro w
    rw [origin?, value?_modifyValue, origin?]
    split
    · rcases f.value? w with _ | value <;> rfl
    · rfl
  exact ⟨h.layout.congr rfl fun _ => rfl, h.edges.congr (fun _ => rfl) fun _ => rfl,
    h.instrs.congr (fun _ => rfl) fun _ => rfl, h.args.congr (fun _ => rfl) horigin,
    h.results.congr (fun _ => rfl) horigin,
    h.uses.congr rfl (Arena.size_modify _ _ _) fun _ => rfl⟩

/-- The body after the given arguments of `b` have recorded their positions, of which the first is
number `start`. -/
def placeArgs (f : Body) (b : BlockId) : Nat → List ValueId → Body
  | _, [] => f
  | start, v :: rest =>
    (f.modifyValue v fun data => { data with origin := data.origin.placeAt b start }).placeArgs b
      (start + 1) rest

theorem placeArgs_eq (f : Body) (b : BlockId) (start : Nat) (args : List ValueId) :
    f.placeArgs b start args = { f with values := (f.placeArgs b start args).values } := by
  induction args generalizing f start with
  | nil => rfl
  | cons v rest ih =>
      rw [placeArgs, ih]
      rfl

theorem size_values_placeArgs (f : Body) (b : BlockId) (start : Nat) (args : List ValueId) :
    (f.placeArgs b start args).values.size = f.values.size := by
  induction args generalizing f start with
  | nil => rfl
  | cons v rest ih =>
      rw [placeArgs, ih]
      exact Arena.size_modify _ _ _

theorem isLiveValue_modifyValue (f : Body) (v w : ValueId) (g : Value → Value) :
    (f.modifyValue v g).isLiveValue w = f.isLiveValue w := by
  rw [isLiveValue, value?_modifyValue, isLiveValue]
  split <;> simp

theorem isLiveValue_iff {v : ValueId} :
    f.isLiveValue v = true ↔ ∃ value, f.value? v = some value :=
  Option.isSome_iff_exists

theorem renumberArgs_eq_ok {start : Nat} {args : List ValueId} :
    f.renumberArgs b start args = .ok g ↔
      (∀ v ∈ args, f.isLiveValue v = true) ∧ g = f.placeArgs b start args := by
  induction args generalizing f start with
  | nil =>
      constructor
      · rintro ⟨⟩
        exact ⟨fun _ hv => (List.not_mem_nil hv).elim, rfl⟩
      · rintro ⟨-, rfl⟩
        rfl
  | cons v rest ih =>
      simp only [renumberArgs, bind_eq_ok, value_eq_ok, ih, isLiveValue_modifyValue,
        List.forall_mem_cons, isLiveValue_iff, placeArgs, and_assoc]
      constructor
      · rintro ⟨value, hv, hrest, rfl⟩
        exact ⟨⟨value, hv⟩, hrest, rfl⟩
      · rintro ⟨⟨value, hv⟩, hrest, rfl⟩
        exact ⟨value, hv, hrest, rfl⟩

theorem value?_placeArgs_of_notMem {start : Nat} {args : List ValueId} {w : ValueId}
    (hw : w ∉ args) : (f.placeArgs b start args).value? w = f.value? w := by
  induction args generalizing f start with
  | nil => rfl
  | cons v rest ih =>
      rw [List.mem_cons, not_or] at hw
      rw [placeArgs, ih hw.2, value?_modifyValue, if_neg hw.1]

theorem value?_placeArgs_of_getElem? {start k : Nat} {args : List ValueId} {w : ValueId}
    (hnodup : args.Nodup) (hw : args[k]? = some w) :
    (f.placeArgs b start args).value? w =
      (f.value? w).map fun data =>
        { data with origin := data.origin.placeAt b (start + k) } := by
  induction args generalizing f start k with
  | nil => simp at hw
  | cons v rest ih =>
      obtain ⟨hv, hnodup⟩ := List.nodup_cons.mp hnodup
      rw [placeArgs]
      rcases k with _ | k
      · rw [List.getElem?_cons_zero, Option.some.injEq] at hw
        subst hw
        rw [value?_placeArgs_of_notMem hv, value?_modifyValue, if_pos rfl]
        rfl
      · rw [List.getElem?_cons_succ] at hw
        have hne : w ≠ v := by
          rintro rfl
          exact hv (List.mem_of_getElem? hw)
        rw [ih hnodup hw, value?_modifyValue, if_neg hne, Nat.add_assoc, Nat.add_comm 1 k]

/-- The body without argument number `index` of `b`, which is `v`; the later arguments have not
moved up yet. -/
def withoutArg (f : Body) (b : BlockId) (index : Nat) (v : ValueId) : Body :=
  { f.modifyBlock b fun data => { data with args := data.args.eraseIdx index } with
    values := f.values.erase v.index }

theorem value?_withoutArg (f : Body) (b : BlockId) (index : Nat) (v w : ValueId) :
    (f.withoutArg b index v).value? w = if w = v then none else f.value? w := by
  refine (Arena.get?_erase f.values v.index w.index).trans ?_
  simp only [UseIndex.ext_index]
  rfl

/-- The body without argument number `index` of `b`, which is `v`; the later arguments have moved up. -/
def argErased (f : Body) (b : BlockId) (index : Nat) (v : ValueId) (later : List ValueId) : Body :=
  (f.withoutArg b index v).placeArgs b index later

section ArgErased

variable (f : Body) (b : BlockId) (index : Nat) (v : ValueId) (later : List ValueId)

theorem argErased_eq :
    f.argErased b index v later =
      { f.modifyBlock b fun data => { data with args := data.args.eraseIdx index } with
        values := (f.argErased b index v later).values } :=
  placeArgs_eq _ b index later

theorem terminator?_argErased (c : BlockId) :
    (f.argErased b index v later).terminator? c = f.terminator? c := by
  rw [argErased_eq]
  exact terminator?_modifyBlock f b c fun _ => rfl

theorem instr?_argErased (i : InstrId) : (f.argErased b index v later).instr? i = f.instr? i := by
  rw [argErased_eq]
  rfl

theorem block?_argErased (c : BlockId) :
    (f.argErased b index v later).block? c =
      (f.block? c).map fun data =>
        { data with args := if c = b then data.args.eraseIdx index else data.args } := by
  rw [argErased_eq]
  refine (block?_modifyBlock f b c _).trans ?_
  split
  · rfl
  · rcases f.block? c with _ | data <;> rfl

theorem args?_argErased (c : BlockId) :
    (f.argErased b index v later).args? c =
      if c = b then (f.args? c).map (·.eraseIdx index) else f.args? c := by
  rw [args?, block?_argErased, args?]
  split
  · rw [Option.map_map, Option.map_map]
    rfl
  · rw [Option.map_map]
    rfl

theorem size_values_argErased : (f.argErased b index v later).values.size = f.values.size :=
  (size_values_placeArgs _ b index later).trans (Arena.size_erase _ _)

end ArgErased

theorem eraseArg_eq_ok {index : Nat} :
    f.eraseArg b index = .ok g ↔
      ∃ data v, f.block? b = some data ∧ data.args[index]? = some v ∧ f.hasUses v = false ∧
        v.index < f.values.size ∧
        (∀ w ∈ data.args.drop (index + 1), (f.withoutArg b index v).isLiveValue w = true) ∧
        g = f.argErased b index v (data.args.drop (index + 1)) := by
  have hdrop : ∀ args : List ValueId,
      (args.eraseIdx index).drop index = args.drop (index + 1) := by
    intro args
    apply List.ext_getElem?
    intro k
    simp only [List.getElem?_drop, List.getElem?_eraseIdx]
    rw [if_neg (by omega)]
    congr 1
    omega
  simp only [eraseArg, bind_eq_ok, arg_eq_ok, guard_eq_ok, Bool.not_eq_true, eraseValue,
    block_eq_ok, renumberArgs_eq_ok]
  constructor
  · rintro ⟨v, ⟨data, hb, hv⟩, huses, body, hbody, data', hb', hlive, rfl⟩
    split at hbody
    · rename_i hlt
      cases hbody
      have hb'' := block?_modifyBlock_of f b b hb
        fun data => { data with args := data.args.eraseIdx index }
      rw [if_pos rfl] at hb''
      have hdata : data' = { data with args := data.args.eraseIdx index } :=
        Option.some.inj (hb'.symm.trans hb'')
      subst hdata
      rw [hdrop] at hlive
      refine ⟨data, v, hb, hv, huses, hlt, hlive, ?_⟩
      rw [hdrop]
      rfl
    · cases hbody
  · rintro ⟨data, v, hb, hv, huses, hlt, hlive, rfl⟩
    have hb' := block?_modifyBlock_of f b b hb
      fun data => { data with args := data.args.eraseIdx index }
    rw [if_pos rfl] at hb'
    refine ⟨v, ⟨data, hb, hv⟩, huses, _, if_pos hlt, _, hb', ?_, ?_⟩
    · rw [hdrop]
      exact hlive
    · rw [hdrop]
      rfl

/-- The origin of a value after argument number `index` of `b` is gone: later arguments of `b` have
moved up. -/
def closeGap (b : BlockId) (index : Nat) : Origin → Origin
  | .argument c position kind =>
    if c = b ∧ index < position then .argument c (position - 1) kind
    else .argument c position kind
  | .result i => .result i

theorem closeGap_eq_argument {index position : Nat} {origin : Origin} {kind : ArgKind}
    (hother : ∀ k, origin ≠ .argument b index k) :
    closeGap b index origin = .argument c position kind ↔
      origin = .argument c (if c = b ∧ index ≤ position then position + 1 else position) kind := by
  rcases origin with i | ⟨d, n, k⟩
  · simp [closeGap]
  · have hn : ¬ (d = b ∧ n = index) := by
      rintro ⟨rfl, rfl⟩
      exact hother k rfl
    simp only [closeGap]
    grind

theorem closeGap_eq_result {index : Nat} {origin : Origin} {i : InstrId} :
    closeGap b index origin = .result i ↔ origin = .result i := by
  rcases origin with j | ⟨d, n, k⟩
  · rfl
  · simp only [closeGap]
    split <;> simp

theorem ArgsListed.value?_argErased {index : Nat} {v : ValueId} (h : f.ArgsListed)
    (hb : f.block? b = some data) (hv : data.args[index]? = some v) (w : ValueId) :
    (f.argErased b index v (data.args.drop (index + 1))).value? w =
      if w = v then none
      else (f.value? w).map fun value => { value with origin := closeGap b index value.origin } := by
  have hnodup := h.nodup_args (args?_of hb)
  have hargs := h.getElem?_args (args?_of hb)
  rcases Classical.em (w ∈ data.args.drop (index + 1)) with hmem | hnot
  · obtain ⟨k, hk⟩ := List.mem_iff_getElem?.mp hmem
    have hk' := hk
    rw [List.getElem?_drop] at hk'
    obtain ⟨kind, hkind⟩ := (hargs _ _).mp hk'
    have hne : w ≠ v := by
      rintro rfl
      obtain ⟨kind', hkind'⟩ := (hargs _ _).mp hv
      rw [hkind, Option.some.injEq, Origin.argument.injEq] at hkind'
      omega
    obtain ⟨value, hvalue, horigin⟩ := origin?_eq_some.mp hkind
    rw [argErased, value?_placeArgs_of_getElem? hnodup.drop hk, value?_withoutArg, if_neg hne,
      if_neg hne, hvalue]
    simp only [Option.map_some, horigin, Origin.placeAt, closeGap, true_and]
    rw [if_pos (by omega)]
    congr 3
    omega
  · rw [argErased, value?_placeArgs_of_notMem hnot, value?_withoutArg]
    split
    · rfl
    · rcases hvalue : f.value? w with _ | ⟨type, ownership, i | ⟨c, position, kind⟩⟩
      · rfl
      · rfl
      · rw [Option.map_some, closeGap, if_neg]
        rintro ⟨rfl, hlt⟩
        have hw := (hargs position w).mpr ⟨kind, origin?_eq_some.mpr ⟨_, hvalue, rfl⟩⟩
        refine hnot (List.mem_iff_getElem?.mpr ⟨position - (index + 1), ?_⟩)
        rw [List.getElem?_drop, show index + 1 + (position - (index + 1)) = position by omega]
        exact hw

theorem ArgsListed.origin?_argErased {index : Nat} {v : ValueId} (h : f.ArgsListed)
    (hb : f.block? b = some data) (hv : data.args[index]? = some v) (w : ValueId) :
    (f.argErased b index v (data.args.drop (index + 1))).origin? w =
      if w = v then none else (f.origin? w).map (closeGap b index) := by
  rw [origin?, h.value?_argErased hb hv, origin?]
  split
  · rfl
  · rw [Option.map_map, Option.map_map]
    rfl

theorem ArgsListed.eraseIdx {index : Nat} {v : ValueId} {old : List ValueId} (h : f.ArgsListed)
    (hb : f.args? b = some old) (hv : old[index]? = some v)
    (hargs : ∀ c, g.args? c = if c = b then (f.args? c).map (·.eraseIdx index) else f.args? c)
    (horigin : ∀ w, g.origin? w = if w = v then none else (f.origin? w).map (closeGap b index)) :
    g.ArgsListed := by
  have hplace := h.getElem?_args hb
  obtain ⟨kindAt, hvAt⟩ := (hplace index v).mp hv
  have hclose : ∀ {w c position kind}, g.origin? w = some (.argument c position kind) ↔
      w ≠ v ∧ f.origin? w =
        some (.argument c (if c = b ∧ index ≤ position then position + 1 else position) kind) := by
    intro w c position kind
    rw [horigin]
    split
    · rename_i hw
      simp [hw]
    · rename_i hw
      rcases hwo : f.origin? w with _ | origin
      · simp
      · rw [Option.map_some, Option.some.injEq, Option.some.injEq, closeGap_eq_argument]
        · simp [hw]
        · rintro k rfl
          have := (hplace index w).mpr ⟨k, hwo⟩
          rw [hv, Option.some.injEq] at this
          exact hw this.symm
  refine ⟨?_, ?_⟩
  · intro c args hc position w
    -- The position that is asked for is one that the lost argument did not have.
    have hother : ∀ {kind}, f.origin? w = some (.argument c
        (if c = b ∧ index ≤ position then position + 1 else position) kind) → w ≠ v := by
      rintro kind hw rfl
      rw [hvAt, Option.some.injEq, Origin.argument.injEq] at hw
      grind
    simp only [hclose, and_iff_right_of_imp hother]
    rw [hargs] at hc
    split at hc
    · rename_i hcb
      subst hcb
      rw [hb] at hc
      cases hc
      rw [List.getElem?_eraseIdx]
      split
      · rename_i hlt
        rw [hplace, if_neg fun hand => Nat.not_le_of_lt hlt hand.2]
      · rename_i hge
        rw [hplace, if_pos ⟨rfl, Nat.le_of_not_lt hge⟩]
    · rename_i hcb
      rw [h.getElem?_args hc, if_neg fun hand => hcb hand.1]
  · intro w c position kind hw
    have hlive := h.live_block (hclose.mp hw).2
    rw [← isSome_args?] at hlive
    rw [← isSome_args?, hargs]
    split
    · rwa [Option.isSome_map]
    · exact hlive

theorem Consistent.eraseArg {index : Nat} (h : f.Consistent)
    (herase : f.eraseArg b index = .ok g) : g.Consistent := by
  obtain ⟨data, v, hb, hv, -, -, -, rfl⟩ := eraseArg_eq_ok.mp herase
  have horigin := h.args.origin?_argErased hb hv
  have hterm := terminator?_argErased f b index v (data.args.drop (index + 1))
  have hinstr := instr?_argErased f b index v (data.args.drop (index + 1))
  refine ⟨?_, ?_, ?_, ?_, ?_, ?_⟩
  · refine h.layout.congr (by rw [argErased_eq]; rfl) fun c => ?_
    rw [argErased_eq]
    exact isLiveBlock_modifyBlock f b c _
  · refine h.edges.congr (fun c => ?_) (target?_congr hterm)
    rw [argErased_eq]
    exact preds?_modifyBlock f b c fun _ => rfl
  · refine h.instrs.congr (fun c => ?_) fun i => by rw [holder?, hinstr, holder?]
    rw [argErased_eq]
    exact instrs?_modifyBlock f b c fun _ => rfl
  · exact h.args.eraseIdx (args?_of hb) hv (args?_argErased f b index v _) horigin
  · obtain ⟨kindAt, hvAt⟩ := (h.args.getElem?_args (args?_of hb) index v).mp hv
    intro i w
    rw [result?, hinstr, ← result?, h.results, horigin]
    split
    · rename_i hw
      subst hw
      simp [hvAt]
    · simp only [Option.map_eq_some_iff, closeGap_eq_result, exists_eq_right]
  · refine h.uses.congr (by rw [argErased_eq]; rfl) (size_values_argErased f b index v _)
      (operandsAt?_congr hterm fun i => ?_)
    rw [operation?, hinstr, operation?]

end FlowGraph.Body
