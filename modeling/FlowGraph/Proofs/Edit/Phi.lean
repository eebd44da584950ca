import FlowGraph.Edit.Phi
import FlowGraph.Proofs.Consistency.Uses
import FlowGraph.Proofs.Edit.Rewired
import FlowGraph.Proofs.Validity

namespace FlowGraph

/-- What is left of a delivery without operand number `index`. -/
def EdgeArgs.without (given : EdgeArgs) (index : Nat) : EdgeArgs :=
  given.mapArgs (·.eraseIdx index)

namespace Terminator

/-- The terminator after some of its edges have lost operand number `index`. -/
def dropOperand (t : Terminator) (index : Nat) (on : Nat → Prop) [DecidablePred on] : Terminator :=
  t.mapEdges (fun _ dest => dest) fun e args => if on e then args.eraseIdx index else args

variable {t : Terminator} {index : Nat} {on on' : Nat → Prop} [DecidablePred on]
  [DecidablePred on']

@[simp] theorem successors_dropOperand : (t.dropOperand index on).successors = t.successors := by
  apply List.ext_getElem?
  intro e
  rw [dropOperand, getElem?_successors_mapEdges, Option.map_id']

@[simp] theorem ownOperands_dropOperand :
    (t.dropOperand index on).ownOperands = t.ownOperands :=
  ownOperands_mapEdges ..

theorem edgeArgs?_dropOperand (e : Nat) :
    (t.dropOperand index on).edgeArgs? e =
      if on e then (t.edgeArgs? e).map (·.without index) else t.edgeArgs? e := by
  rw [dropOperand, edgeArgs?_mapEdges]
  rcases Classical.em (on e) with h | h
  · simp only [h, if_true]
    rfl
  · simp only [h, if_false]
    rcases t.edgeArgs? e with _ | _ | _ <;> rfl

theorem dropOperand_congr (h : ∀ e, on e ↔ on' e) :
    t.dropOperand index on = t.dropOperand index on' :=
  mapEdges_congr (fun _ _ _ => rfl) fun e _ _ => if_congr (h e) rfl rfl

theorem dropOperand_of_not (h : ∀ e, ¬ on e) : t.dropOperand index on = t := by
  refine (mapEdges_congr (fun _ _ _ => rfl) fun e _ _ => ?_).trans (mapEdges_id t)
  exact if_neg (h e)

theorem dropOperand_dropOperand (h : ∀ e, on e → ¬ on' e) :
    (t.dropOperand index on).dropOperand index on' =
      t.dropOperand index fun e => on e ∨ on' e := by
  rw [dropOperand, dropOperand, mapEdges_mapEdges]
  refine mapEdges_congr (fun _ _ _ => rfl) fun e args _ => ?_
  rcases Classical.em (on e) with he | he
  · simp only [he, h e he, if_true, if_false, true_or]
  · simp only [he, if_false, false_or]

end Terminator

namespace Body

variable {f g h : Body} {b : BlockId} {data : Block} {index : Nat} {v w : ValueId} {x : Edge}
  {edges : List Edge}

theorem Valid.exists_edgeArgs? (hv : f.Valid) {s : BlockId} (hx : f.target? x = some s) :
    ∃ given taken, f.edgeArgs? x = some given ∧ f.args? s = some taken ∧
      given.fits taken.length = true := by
  obtain ⟨t, ht, hs⟩ := target?_eq_some.mp hx
  obtain ⟨given, taken, hgiven, htaken, hfits⟩ := hv.delivers ht hs
  exact ⟨given, taken, edgeArgs?_eq_some.mpr ⟨t, ht, hgiven⟩, htaken, hfits⟩

/-- All that the block takes is delivered by operands. -/
def ExplicitlyFed (f : Body) (b : BlockId) : Prop :=
  ∀ x, f.target? x = some b → ∃ args, f.edgeArgs? x = some (.explicit args)

/-- Every slot that reads `v` is number `index` of an edge to `b`. -/
structure FeedsItself (f : Body) (b : BlockId) (index : Nat) (v : ValueId) : Prop where
  instr : ∀ i, v ∉ f.operandsAt? (.instr i)
  own : ∀ c, v ∉ f.ownOperands c
  edge : ∀ {x args k}, f.edgeArgs? x = some (.explicit args) → args[k]? = some v →
    k = index ∧ f.target? x = some b

theorem Unread.feedsItself (hunread : f.Unread v) (b : BlockId) (index : Nat) :
    f.FeedsItself b index v where
  instr i := hunread (.instr i)
  own c hmem := hunread (.terminator c) (mem_operandsAt?_terminator.mpr (.inl hmem))
  edge hargs hget := absurd
    (mem_operandsAt?_terminator.mpr (.inr ⟨_, _, hargs, List.mem_of_getElem? hget⟩))
    (hunread (.terminator _))

/-- The body `g` reads what `f` reads, but for operand number `index` of some edges. -/
structure Unloads (f g : Body) (index : Nat) (on : Edge → Prop) [DecidablePred on] : Prop where
  terminator : ∀ c, g.terminator? c =
    (f.terminator? c).map fun t => t.dropOperand index fun e => on ⟨c, e⟩
  instr : ∀ i, g.operandsAt? (.instr i) = f.operandsAt? (.instr i)

namespace Unloads

variable {on : Edge → Prop} [DecidablePred on]

theorem target (hu : f.Unloads g index on) (x : Edge) : g.target? x = f.target? x := by
  rw [target?, hu.terminator, target?]
  rcases f.terminator? x.block with _ | t
  · rfl
  · simp only [Option.map_some, Option.bind_some, Terminator.successors_dropOperand]

theorem own (hu : f.Unloads g index on) (c : BlockId) : g.ownOperands c = f.ownOperands c := by
  rw [ownOperands, hu.terminator, ownOperands]
  rcases f.terminator? c with _ | t
  · rfl
  · simp only [Option.map_some, Terminator.ownOperands_dropOperand]

theorem edgeArgs (hu : f.Unloads g index on) (x : Edge) :
    g.edgeArgs? x = if on x then (f.edgeArgs? x).map (·.without index) else f.edgeArgs? x := by
  rw [edgeArgs?, hu.terminator, edgeArgs?]
  rcases f.terminator? x.block with _ | t
  · simp
  · exact Terminator.edgeArgs?_dropOperand x.index

theorem edgeArgs?_eq_explicit (hu : f.Unloads g index on) {args : List ValueId} :
    g.edgeArgs? x = some (.explicit args) ↔
      ∃ old, f.edgeArgs? x = some (.explicit old) ∧
        args = if on x then old.eraseIdx index else old := by
  rw [hu.edgeArgs]
  rcases Classical.em (on x) with hx | hx
  · simp only [hx, if_true, Option.map_eq_some_iff]
    constructor
    · rintro ⟨old | payload, hold, heq⟩
      · cases heq
        exact ⟨old, hold, rfl⟩
      · cases heq
    · rintro ⟨old, hold, rfl⟩
      exact ⟨.explicit old, hold, rfl⟩
  · simp only [hx, if_false, exists_eq_right']

theorem edgeArgs?_eq_implicit (hu : f.Unloads g index on) {payload : Payload} :
    g.edgeArgs? x = some (.implicit payload) ↔ f.edgeArgs? x = some (.implicit payload) := by
  rw [hu.edgeArgs]
  split
  · rcases f.edgeArgs? x with _ | old | other <;> simp [EdgeArgs.without, EdgeArgs.mapArgs]
  · rfl

theorem mem_operandsAt? (hu : f.Unloads g index on) {point : Point}
    (hmem : v ∈ g.operandsAt? point) : v ∈ f.operandsAt? point := by
  cases point with
  | instr i => rwa [hu.instr] at hmem
  | terminator c =>
      rw [mem_operandsAt?_terminator, hu.own] at hmem
      rw [mem_operandsAt?_terminator]
      refine hmem.imp_right ?_
      rintro ⟨k, args, hargs, hv⟩
      obtain ⟨old, hold, rfl⟩ := hu.edgeArgs?_eq_explicit.mp hargs
      refine ⟨k, old, hold, ?_⟩
      split at hv
      · exact List.mem_of_mem_eraseIdx hv
      · exact hv

theorem exists_slot (hu : f.Unloads g index on) (hunread : g.Unread w) {point : Point}
    (hmem : w ∈ f.operandsAt? point) :
    ∃ x args, on x ∧ f.edgeArgs? x = some (.explicit args) ∧ args[index]? = some w := by
  cases point with
  | instr i => exact absurd (hu.instr i ▸ hmem) (hunread (.instr i))
  | terminator c =>
      rcases mem_operandsAt?_terminator.mp hmem with hown | ⟨e, args, hargs, hw⟩
      · rw [← hu.own] at hown
        exact absurd (mem_operandsAt?_terminator.mpr (.inl hown)) (hunread _)
      · have hleft := hunread (.terminator c)
        rw [mem_operandsAt?_terminator, not_or, not_exists] at hleft
        have hgone : w ∉ if on ⟨c, e⟩ then args.eraseIdx index else args := fun hmem =>
          hleft.2 e ⟨_, hu.edgeArgs?_eq_explicit.mpr ⟨args, hargs, rfl⟩, hmem⟩
        split at hgone
        · rename_i hon
          obtain ⟨k, hk⟩ := List.mem_iff_getElem?.mp hw
          refine ⟨⟨c, e⟩, args, hon, hargs, ?_⟩
          rcases Nat.decEq k index with hne | rfl
          · exact absurd (List.mem_eraseIdx_iff_getElem?.mpr ⟨k, hne, hk⟩) hgone
          · exact hk
        · exact absurd hw hgone

/-- Nothing reads a phi without the operands that are delivered for it exactly if it only feeds
itself. -/
theorem unread_iff (hu : f.Unloads g index on) (hon : ∀ x, on x ↔ f.target? x = some b) :
    g.Unread v ↔ f.FeedsItself b index v := by
  constructor
  · intro hunread
    refine ⟨fun i => hu.instr i ▸ hunread (.instr i), fun c hown => ?_, ?_⟩
    · rw [← hu.own] at hown
      exact hunread _ (mem_operandsAt?_terminator.mpr (.inl hown))
    · intro x args k hargs hget
      have hgone : v ∉ if on x then args.eraseIdx index else args := fun hmem =>
        hunread (.terminator x.block) (mem_operandsAt?_terminator.mpr
          (.inr ⟨x.index, _, hu.edgeArgs?_eq_explicit.mpr ⟨args, hargs, rfl⟩, hmem⟩))
      split at hgone
      · rename_i hx
        refine ⟨?_, (hon x).mp hx⟩
        rcases Nat.decEq k index with hne | heq
        · exact absurd (List.mem_eraseIdx_iff_getElem?.mpr ⟨k, hne, hget⟩) hgone
        · exact heq
      · exact absurd (List.mem_of_getElem? hget) hgone
  · rintro hself (i | c)
    · rw [hu.instr]
      exact hself.instr i
    · rw [mem_operandsAt?_terminator, not_or, hu.own]
      refine ⟨hself.own c, ?_⟩
      rintro ⟨e, args, hargs, hv⟩
      obtain ⟨old, hold, rfl⟩ := hu.edgeArgs?_eq_explicit.mp hargs
      split at hv
      · obtain ⟨k, hne, hget⟩ := List.mem_eraseIdx_iff_getElem?.mp hv
        exact hne (hself.edge hold hget).1
      · rename_i hnot
        obtain ⟨k, hget⟩ := List.mem_iff_getElem?.mp hv
        exact hnot ((hon _).mpr (hself.edge hold hget).2)

end Unloads

/-- The body `g` is `f` after the given edges have lost operand number `index`. -/
structure Dropped (f g : Body) (index : Nat) (edges : List Edge) : Prop where
  consistent : g.Consistent
  rewired : f.Rewired g
  block : ∀ c, g.block? c = (f.block? c).map fun data =>
    { data with
      terminator := data.terminator.map fun t => t.dropOperand index fun e => ⟨c, e⟩ ∈ edges }

theorem Dropped.unloads (hd : f.Dropped g index edges) : f.Unloads g index (· ∈ edges) where
  terminator c := by
    rw [terminator?, hd.block, terminator?]
    rcases f.block? c with _ | data <;> rfl
  instr := hd.rewired.operandsAt?_instr

theorem Dropped.nil (hf : f.Consistent) (index : Nat) : f.Dropped f index [] := by
  refine ⟨hf, .refl f, fun c => ?_⟩
  rcases f.block? c with _ | ⟨args, instrs, _ | t, preds⟩
  · rfl
  · rfl
  · simp only [Option.map_some, Terminator.dropOperand_of_not fun _ => List.not_mem_nil]

theorem Dropped.cons (hfirst : f.Dropped g index [x]) (hrest : g.Dropped h index edges)
    (hx : x ∉ edges) : f.Dropped h index (x :: edges) := by
  refine ⟨hrest.consistent, hfirst.rewired.trans hrest.rewired, fun c => ?_⟩
  rw [hrest.block, hfirst.block]
  rcases f.block? c with _ | ⟨args, instrs, _ | t, preds⟩
  · rfl
  · rfl
  · refine congrArg (fun t => some (Block.mk args instrs (some t) preds)) ?_
    refine (Terminator.dropOperand_dropOperand fun e he => ?_).trans
      (Terminator.dropOperand_congr fun e => ?_)
    · rw [List.mem_singleton.mp he]
      exact hx
    · rw [List.mem_singleton, List.mem_cons]

theorem Consistent.exists_dropOperand (hf : f.Consistent) {args : List ValueId}
    (hx : f.edgeArgs? x = some (.explicit args)) (index : Nat) :
    ∃ g, f.setEdgeArgs x.block x.index (args.eraseIdx index) = .ok (some args, g) ∧
      f.Dropped g index [x] := by
  obtain ⟨t, ht, hgiven⟩ := edgeArgs?_eq_some.mp hx
  have hargs := Terminator.edgeArgs?_eq_explicit.mp hgiven
  have halloc : ∀ v ∈ args.eraseIdx index, v.index < f.values.size := by
    intro v hv
    refine @hf.uses.allocated (.terminator x.block) v ?_
    exact mem_operandsAt?_terminator.mpr (.inr ⟨x.index, args, hx, List.mem_of_mem_eraseIdx hv⟩)
  obtain ⟨g, hrun, hg, hsame, -, hblock⟩ := hf.exists_setEdgeArgs ht x.index _ halloc
  rw [hargs] at hrun
  refine ⟨g, hrun, hg, hsame, fun c => ?_⟩
  rw [hblock]
  rcases hc : f.block? c with _ | data
  · rfl
  · simp only [Option.map_some]
    congr 2
    split
    · rename_i heq
      subst heq
      rw [← terminator?_of hc, ht, Option.map_some, Terminator.withEdgeArgs_eq_mapEdges]
      refine congrArg some (Terminator.mapEdges_congr (fun _ _ _ => rfl) fun e old hold => ?_)
      -- Only edge `x` is changed, and what it carries is known.
      rcases Nat.decEq e x.index with hne | rfl
      · rw [if_neg hne, if_neg]
        intro hmem
        exact hne (congrArg Edge.index (List.mem_singleton.mp hmem))
      · cases hgiven.symm.trans hold
        rw [if_pos rfl, if_pos List.mem_cons_self]
    · rename_i hne
      rcases data.terminator with _ | t
      · rfl
      · rw [Option.map_some, Terminator.dropOperand_of_not]
        intro e hmem
        exact hne (congrArg Edge.block (List.mem_singleton.mp hmem))

theorem Consistent.exists_dropOperands (hf : f.Consistent) (hnodup : edges.Nodup)
    (hedges : ∀ x ∈ edges, ∃ args, f.edgeArgs? x = some (.explicit args) ∧ index < args.length) :
    ∃ freed g, f.dropOperands index edges = .ok (freed, g) ∧ f.Dropped g index edges ∧
      ∀ x ∈ edges, ∀ args w, f.edgeArgs? x = some (.explicit args) → args[index]? = some w →
        w ∈ freed := by
  induction edges generalizing f with
  | nil => exact ⟨[], f, rfl, .nil hf index, fun x hx => absurd hx List.not_mem_nil⟩
  | cons x rest ih =>
      obtain ⟨hx, hnodup⟩ := List.nodup_cons.mp hnodup
      rw [List.forall_mem_cons] at hedges
      obtain ⟨⟨args, hargs, hlt⟩, hrest⟩ := hedges
      obtain ⟨g, hset, hdrop⟩ := hf.exists_dropOperand hargs index
      have hother : ∀ y ∈ rest, g.edgeArgs? y = f.edgeArgs? y := by
        intro y hy
        have hne : y ≠ x := fun heq => hx (heq ▸ hy)
        rw [hdrop.unloads.edgeArgs, if_neg fun hmem => hne (List.mem_singleton.mp hmem)]
      obtain ⟨freed, last, hrun, hdropped, hfreed⟩ := ih hdrop.consistent hnodup
        fun y hy => hother y hy ▸ hrest y hy
      obtain ⟨t, ht, hgiven⟩ := edgeArgs?_eq_some.mp hargs
      obtain ⟨data, hdata, hterm⟩ := terminator?_eq_some.mp ht
      refine ⟨args[index] :: freed, last, ?_, hdrop.cons hdropped hx, ?_⟩
      · simp only [dropOperands, block_eq_ok.mpr hdata, hterm, Option.bind_some,
          Terminator.edgeArgs?_eq_explicit.mp hgiven, List.getElem?_eq_getElem hlt, hset, hrun]
      · rw [List.forall_mem_cons]
        constructor
        · intro args' w hargs' hw
          cases hargs.symm.trans hargs'
          rw [List.getElem?_eq_getElem hlt, Option.some.injEq] at hw
          exact hw ▸ List.mem_cons_self
        · intro y hy args' w hargs' hw
          rw [← hother y hy] at hargs'
          exact List.mem_cons_of_mem _ (hfreed y hy args' w hargs' hw)

/-- The body `g` is `f` without argument number `index` of `b`, which is `v`. -/
structure ArgErased (f g : Body) (b : BlockId) (index : Nat) (v : ValueId) : Prop where
  consistent : g.Consistent
  id : g.id = f.id
  name : g.name = f.name
  layout : g.layout = f.layout
  instrs : g.instrs = f.instrs
  block : ∀ c, g.block? c = (f.block? c).map fun data =>
    { data with args := if c = b then data.args.eraseIdx index else data.args }
  value : ∀ w, g.value? w =
    if w = v then none
    else (f.value? w).map fun value => { value with origin := closeGap b index value.origin }

theorem Consistent.eraseArg_argErased (hf : f.Consistent) (hb : f.block? b = some data)
    (hv : data.args[index]? = some v) (herase : f.eraseArg b index = .ok g) :
    f.Unread v ∧ f.ArgErased g b index v := by
  have hg := hf.eraseArg herase
  obtain ⟨data', v', hb', hv', huses, -, -, rfl⟩ := eraseArg_eq_ok.mp herase
  cases hb.symm.trans hb'
  cases hv.symm.trans hv'
  refine ⟨hf.uses.unread_iff.mpr huses, hg, ?_, ?_, ?_, ?_, block?_argErased f b index v _,
    hf.args.value?_argErased hb hv⟩
  all_goals
    rw [argErased_eq]
    rfl

theorem Consistent.isLiveValue_of_mem_args (hf : f.Consistent) (hb : f.block? b = some data)
    (hv : v ∈ data.args) : f.isLiveValue v = true := by
  obtain ⟨position, kind, horigin⟩ := (hf.args.mem_args (args?_of hb)).mp hv
  rw [← isSome_origin?, horigin, Option.isSome_some]

theorem Consistent.exists_eraseArg (hf : f.Consistent) (hb : f.block? b = some data)
    (hv : data.args[index]? = some v) (hunread : f.Unread v) : ∃ g, f.eraseArg b index = .ok g := by
  have hlater : ∀ w ∈ data.args.drop (index + 1), (f.withoutArg b index v).isLiveValue w = true := by
    intro w hw
    have hne : w ≠ v := by
      rintro rfl
      obtain ⟨hlt, hget⟩ := List.getElem?_eq_some_iff.mp hv
      have hnodup := (hf.args.nodup_args (args?_of hb)).drop (i := index)
      rw [List.drop_eq_getElem_cons hlt, hget] at hnodup
      exact (List.nodup_cons.mp hnodup).1 hw
    rw [isLiveValue, value?_withoutArg, if_neg hne]
    exact hf.isLiveValue_of_mem_args hb (List.mem_of_mem_drop hw)
  have hlt := lt_size_of_isLiveValue (hf.isLiveValue_of_mem_args hb (List.mem_of_getElem? hv))
  exact ⟨_, eraseArg_eq_ok.mpr
    ⟨data, v, hb, hv, hf.uses.unread_iff.mp hunread, hlt, hlater, rfl⟩⟩

/-- The body `g` is `f` without phi number `index` of `b`, which is `v`, and without its operands on
the edges to `b`. -/
structure PhiErased (f g : Body) (b : BlockId) (index : Nat) (v : ValueId) : Prop where
  consistent : g.Consistent
  id : g.id = f.id
  name : g.name = f.name
  layout : g.layout = f.layout
  instrs : g.instrs = f.instrs
  block : ∀ c, g.block? c = (f.block? c).map fun data =>
    { data with
      args := if c = b then data.args.eraseIdx index else data.args
      terminator := data.terminator.map fun t =>
        t.dropOperand index fun e => t.successors[e]? = some b }
  value : ∀ w, g.value? w =
    if w = v then none
    else (f.value? w).map fun value => { value with origin := closeGap b index value.origin }

theorem Dropped.phiErased (hd : f.Dropped g index edges) (he : g.ArgErased h b index v)
    (hedges : ∀ x, x ∈ edges ↔ f.target? x = some b) : f.PhiErased h b index v where
  consistent := he.consistent
  id := he.id.trans hd.rewired.id
  name := he.name.trans hd.rewired.name
  layout := he.layout.trans hd.rewired.layout
  instrs := he.instrs.trans hd.rewired.instrs
  block c := by
    rw [he.block, hd.block]
    rcases hc : f.block? c with _ | ⟨args, instrs, _ | t, preds⟩
    · rfl
    · rfl
    · simp only [Option.map_some]
      congr 3
      refine Terminator.dropOperand_congr fun e => ?_
      rw [hedges, target?_of hc]
      rfl
  value w := by
    rw [he.value, hd.rewired.value?]

namespace PhiErased

theorem unloads (he : f.PhiErased g b index v) :
    f.Unloads g index fun x => f.target? x = some b where
  terminator c := by
    rw [terminator?, he.block, terminator?]
    rcases hc : f.block? c with _ | ⟨args, instrs, _ | t, preds⟩
    · rfl
    · rfl
    · simp only [Option.map_some, Option.bind_some]
      refine congrArg some (Terminator.dropOperand_congr fun e => ?_)
      rw [target?_of hc]
      rfl
  instr i := by
    rw [operandsAt?, instr?, he.instrs, operandsAt?, instr?]

theorem args (he : f.PhiErased g b index v) (c : BlockId) :
    g.args? c = if c = b then (f.args? c).map (·.eraseIdx index) else f.args? c := by
  rw [args?, he.block, args?, Option.map_map]
  split
  · rw [Option.map_map]
    rfl
  · rfl

theorem isLiveBlock (he : f.PhiErased g b index v) (c : BlockId) :
    g.isLiveBlock c = f.isLiveBlock c :=
  isLiveBlock_mapBlocks he.block c

theorem isLiveValue (he : f.PhiErased g b index v) (hne : w ≠ v) :
    g.isLiveValue w = f.isLiveValue w := by
  rw [Body.isLiveValue, he.value, if_neg hne, Option.isSome_map, Body.isLiveValue]

theorem origin (he : f.PhiErased g b index v) (hne : w ≠ v) :
    g.origin? w = (f.origin? w).map (closeGap b index) := by
  rw [origin?, he.value, if_neg hne, Option.map_map, origin?, Option.map_map]
  rfl

theorem exists_argument (he : f.PhiErased g b index v) (hne : w ≠ v) {c : BlockId} {position : Nat}
    {kind : ArgKind} (hw : f.origin? w = some (.argument c position kind)) :
    ∃ position', g.origin? w = some (.argument c position' kind) := by
  rw [he.origin hne, hw, Option.map_some, closeGap]
  split
  · exact ⟨_, rfl⟩
  · exact ⟨_, rfl⟩

theorem delivers (he : f.PhiErased g b index v) (hv : f.Valid) (hb : f.ExplicitlyFed b)
    {c s : BlockId} {t : Terminator} {e : Nat} (ht : g.terminator? c = some t)
    (hs : t.successors[e]? = some s) : g.Delivers t e s := by
  have htarget : f.target? ⟨c, e⟩ = some s := by
    rw [← he.unloads.target]
    exact target?_eq_some.mpr ⟨t, ht, hs⟩
  have hleft : g.edgeArgs? ⟨c, e⟩ = t.edgeArgs? e := by
    rw [edgeArgs?, ht]
    rfl
  obtain ⟨given, wanted, hgiven, hwanted, hfits⟩ := hv.exists_edgeArgs? htarget
  rw [Delivers, ← hleft, he.unloads.edgeArgs, he.args, hgiven, htarget, hwanted]
  rcases Classical.em (s = b) with rfl | hne
  · obtain ⟨args, hargs⟩ := hb _ htarget
    cases hgiven.symm.trans hargs
    rw [if_pos rfl, if_pos rfl]
    refine ⟨_, _, rfl, rfl, beq_iff_eq.mpr ?_⟩
    have hlength : args.length = wanted.length := beq_iff_eq.mp hfits
    rw [List.length_eraseIdx, List.length_eraseIdx, hlength]
  · rw [if_neg fun heq => hne (Option.some.inj heq), if_neg hne]
    exact ⟨given, wanted, rfl, rfl, hfits⟩

theorem valid (he : f.PhiErased g b index v) (hv : f.Valid) (hb : f.ExplicitlyFed b)
    (hself : f.FeedsItself b index v) : g.Valid where
  nonempty := he.layout ▸ hv.nonempty
  terminated := by
    intro c hc
    obtain ⟨t, ht⟩ := hv.terminated ((he.isLiveBlock c).symm.trans hc)
    rw [he.unloads.terminator, ht]
    exact ⟨_, rfl⟩
  delivers := he.delivers hv hb
  live_operands := by
    intro point w hw
    have hne : w ≠ v := by
      rintro rfl
      exact (he.unloads.unread_iff fun _ => Iff.rfl).mpr hself point hw
    rw [he.isLiveValue hne]
    exact hv.live_operands (he.unloads.mem_operandsAt? hw)
  entry_free := by
    intro c x hc
    rw [he.unloads.target]
    rw [entry_eq_ok, he.layout, ← entry_eq_ok] at hc
    exact hv.entry_free hc

end PhiErased

/-- If no edge to its block is implicit, detaching a phi is to drop its operands, which are returned, and
then to erase it. -/
theorem Consistent.detachPhi_cases (hf : f.Consistent) (hv : f.Valid) (hb : f.block? b = some data)
    (hlt : index < data.args.length) :
    (f.detachPhi b index = .ok none ∧
        ∃ x payload, f.target? x = some b ∧ f.edgeArgs? x = some (.implicit payload)) ∨
      f.ExplicitlyFed b ∧ ∃ freed g, f.Dropped g index data.preds ∧
        (f.detachPhi b index = do return some (freed, ← g.eraseArg b index)) ∧
        ∀ x args w, f.target? x = some b → f.edgeArgs? x = some (.explicit args) →
          args[index]? = some w → w ∈ freed := by
  have hedges : ∀ x, x ∈ data.preds ↔ f.target? x = some b := fun x =>
    hf.edges.mem_preds (preds?_of hb)
  have hgiven : ∀ x ∈ data.preds, ∃ given, f.edgeArgs? x = some given ∧
      given.fits data.args.length = true := by
    intro x hx
    obtain ⟨given, taken, hgiven, htaken, hfits⟩ := hv.exists_edgeArgs? ((hedges x).mp hx)
    cases (args?_of hb).symm.trans htaken
    exact ⟨given, hgiven, hfits⟩
  have hany : data.preds.anyM (fun x => do
      return (← f.edgeArgs x.block x.index).isImplicit : Edge → Except Fault Bool) =
        .ok (data.preds.any fun x => (f.edgeArgs? x).any (·.isImplicit)) := by
    refine anyM_eq_ok fun x hx => ?_
    obtain ⟨given, hgiven, -⟩ := hgiven x hx
    rw [edgeArgs_eq_ok.mpr hgiven, hgiven]
    rfl
  rw [detachPhi, predecessors_eq_ok.mpr ⟨data, hb, rfl⟩, ok_bind, hany, ok_bind]
  rcases himplicit : data.preds.any fun x => (f.edgeArgs? x).any (·.isImplicit) with _ | _
  · right
    have hexplicit : ∀ x ∈ data.preds, ∃ args, f.edgeArgs? x = some (.explicit args) ∧
        index < args.length := by
      intro x hx
      have hnot := List.any_eq_false.mp himplicit x hx
      obtain ⟨given, hgiven, hfits⟩ := hgiven x hx
      rw [hgiven] at hnot
      rcases given with args | payload
      · exact ⟨args, hgiven, beq_iff_eq.mp hfits ▸ hlt⟩
      · exact absurd rfl hnot
    obtain ⟨freed, g, hdrop, hd, hfreed⟩ :=
      hf.exists_dropOperands (hf.edges.nodup_preds (preds?_of hb)) hexplicit
    refine ⟨fun x hx => (hexplicit x ((hedges x).mpr hx)).imp fun _ h => h.1, freed, g, hd, ?_,
      fun x args w hx => hfreed x ((hedges x).mpr hx) args w⟩
    simp only [himplicit, Bool.false_eq_true, if_false, hdrop, ok_bind]
  · left
    obtain ⟨x, hx, hpayload⟩ := List.any_eq_true.mp himplicit
    obtain ⟨given, hgiven, -⟩ := hgiven x hx
    refine ⟨if_pos himplicit, x, ?_⟩
    rw [hgiven] at hpayload ⊢
    rcases given with args | payload
    · cases hpayload
    · exact ⟨payload, (hedges x).mp hx, rfl⟩

theorem Consistent.exists_detachPhi (hf : f.Consistent) (hv : f.Valid)
    (hphi : f.origin? v = some (.argument b index .phi)) (hself : f.FeedsItself b index v) :
    (f.detachPhi b index = .ok none ∧
        ∃ x payload, f.target? x = some b ∧ f.edgeArgs? x = some (.implicit payload)) ∨
      f.ExplicitlyFed b ∧ ∃ freed g, f.detachPhi b index = .ok (some (freed, g)) ∧
        f.PhiErased g b index v ∧
        ∀ x args w, f.target? x = some b → f.edgeArgs? x = some (.explicit args) →
          args[index]? = some w → w ∈ freed := by
  obtain ⟨data, hb⟩ := isLiveBlock_iff.mp (hf.args.live_block hphi)
  have hget := (hf.args.getElem?_args (args?_of hb) index v).mpr ⟨_, hphi⟩
  rcases hf.detachPhi_cases hv hb (List.getElem?_eq_some_iff.mp hget).1 with
    hnone | ⟨hexplicit, freed, g, hd, hrun, hfreed⟩
  · exact .inl hnone
  · have hedges := fun x => hf.edges.mem_preds (preds?_of hb) (e := x)
    obtain ⟨other, hother, hsame⟩ := args?_eq_some.mp ((hd.rewired.args b).trans (args?_of hb))
    have hget := hsame ▸ hget
    obtain ⟨last, herase⟩ :=
      hd.consistent.exists_eraseArg hother hget ((hd.unloads.unread_iff hedges).mpr hself)
    have he := (hd.consistent.eraseArg_argErased hother hget herase).2
    refine .inr ⟨hexplicit, freed, last, ?_, hd.phiErased he hedges, hfreed⟩
    rw [hrun, herase]
    rfl

theorem Consistent.feedsItself_of_detachPhi (hf : f.Consistent) (hv : f.Valid)
    (hb : f.block? b = some data) (hget : data.args[index]? = some v) {freed : List ValueId}
    (hrun : f.detachPhi b index = .ok (some (freed, g))) :
    f.ExplicitlyFed b ∧ f.FeedsItself b index v := by
  rcases hf.detachPhi_cases hv hb (List.getElem?_eq_some_iff.mp hget).1 with
    ⟨hnone, -⟩ | ⟨hexplicit, freed', g', hd, hdetach, -⟩
  · cases hrun.symm.trans hnone
  · have hedges := fun x => hf.edges.mem_preds (preds?_of hb) (e := x)
    obtain ⟨other, hother, hsame⟩ := args?_eq_some.mp ((hd.rewired.args b).trans (args?_of hb))
    obtain ⟨last, herase, -⟩ := bind_eq_ok.mp (hdetach.symm.trans hrun)
    have hunread := (hd.consistent.eraseArg_argErased hother (hsame ▸ hget) herase).1
    exact ⟨hexplicit, (hd.unloads.unread_iff hedges).mp hunread⟩

end Body

end FlowGraph
