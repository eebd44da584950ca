import Mathlib.Algebra.GroupWithZero.Nat
import FlowGraph.Edit.Split
import FlowGraph.Proofs.Edit.Rewired

/-!
Putting blocks on edges of a consistent body. The body may still be under construction: blocks may
lack a terminator, and edges need not deliver what their targets take. A block on an explicit edge
passes on the operands of the edge. A block on an implicit edge gets a phi for each argument of the
target, and passes these on.

`SplitOn` describes the body with blocks on any number of edges, whatever the order in which they
were put there.
-/

namespace FlowGraph.Body

variable {f g h : Body} {b dest : BlockId} {x y : Edge} {edges : List Edge} {v : ValueId}

def carried (f : Body) (x : Edge) : List ValueId :=
  match f.edgeArgs? x with
  | some (.explicit args) => args
  | _ => []

/-- The values that a block on an edge has to copy as phis: the arguments of the target, if the edge
is implicit. -/
def copied (f : Body) (x : Edge) : List ValueId :=
  match f.edgeArgs? x with
  | some (.implicit _) => ((f.target? x).bind f.args?).getD []
  | _ => []

/-- The phis of the block on edge `x`, where `phi x j` is number `j` of them. -/
def phisOn (f : Body) (phi : Edge → Nat → ValueId) (x : Edge) : List ValueId :=
  (List.range (f.copied x).length).map (phi x)

/-- There are numbers for blocks on the given edges and for their phis. -/
def HasRoomFor (f : Body) (edges : List Edge) : Prop :=
  f.blocks.size + edges.length ≤ slotLimit ∧
    f.values.size + (edges.map fun x => (f.copied x).length).sum ≤ slotLimit

/-- Where edge `e` of `b` leads once blocks stand on the given edges. -/
def leadVia (edges : List Edge) (mid : Edge → BlockId) (b : BlockId) (e : Nat) (dest : BlockId) :
    BlockId :=
  if ⟨b, e⟩ ∈ edges then mid ⟨b, e⟩ else dest

/-- What edge `e` of `b` carries once blocks stand on the given edges. -/
def unload (edges : List Edge) (b : BlockId) (e : Nat) (args : List ValueId) : List ValueId :=
  if ⟨b, e⟩ ∈ edges then [] else args

/-- The body `g` is `f` with a block `mid x` on each of the given edges `x`, which has the phis
`phi x j`. -/
structure SplitOn (f g : Body) (edges : List Edge) (mid : Edge → BlockId)
    (phi : Edge → Nat → ValueId) : Prop where
  consistent : g.Consistent
  id : g.id = f.id
  name : g.name = f.name
  nodup : edges.Nodup
  edge : ∀ x ∈ edges, (f.target? x).isSome = true
  /-- The new blocks stand behind the blocks that the edges come from. -/
  layout : ∃ behind : BlockId → List BlockId,
    g.layout = f.layout.flatMap (fun b => b :: behind b) ∧
      ∀ b, (behind b).Perm ((edges.filter (·.block = b)).map mid)
  size_blocks : g.blocks.size = f.blocks.size + edges.length
  size_values : g.values.size = f.values.size + (edges.map fun x => (f.copied x).length).sum
  mid_mem : ∀ c, (∃ x ∈ edges, mid x = c) ↔ f.blocks.size ≤ c.index ∧ c.index < g.blocks.size
  mid_inj : ∀ x ∈ edges, ∀ y ∈ edges, mid x = mid y → x = y
  phi_mem : ∀ v, (∃ x ∈ edges, ∃ j < (f.copied x).length, phi x j = v) ↔
    f.values.size ≤ v.index ∧ v.index < g.values.size
  terminators : ∀ b, b.index < f.blocks.size →
    g.terminator? b = (f.terminator? b).map (·.mapEdges (leadVia edges mid b) (unload edges b))
  args : ∀ b, b.index < f.blocks.size → g.args? b = f.args? b
  lists : ∀ b, b.index < f.blocks.size → g.instrs? b = f.instrs? b
  instrs : g.instrs = f.instrs
  values : ∀ v, v.index < f.values.size → g.value? v = f.value? v
  /-- The new blocks lead on to the old targets. -/
  leads : ∀ x ∈ edges, g.terminator? (mid x) =
    (f.target? x).map fun dest => .br dest (f.carried x ++ f.phisOn phi x)
  takes : ∀ x ∈ edges, g.args? (mid x) = some (f.phisOn phi x)
  empty : ∀ x ∈ edges, g.instrs? (mid x) = some []
  copies : ∀ x ∈ edges, ∀ j v, (f.copied x)[j]? = some v → g.value? (phi x j) =
    (f.value? v).map fun data => { data with origin := .argument (mid x) j .phi }

def nextValues (f : Body) (n : Nat) : List ValueId :=
  (List.range n).map fun j => ⟨f.values.size + j⟩

/-- The body `g` is `f` with the next block, which is still open and takes copies of the values `done`
as phis. -/
structure Opened (f g : Body) (layout : List BlockId) (done : List ValueId) : Prop where
  consistent : g.Consistent
  id : g.id = f.id
  name : g.name = f.name
  layout : g.layout = layout
  terminators : ∀ c, g.terminator? c = f.terminator? c
  args : ∀ c, g.args? c = if c = f.nextBlock then some (f.nextValues done.length) else f.args? c
  lists : ∀ c, g.instrs? c = if c = f.nextBlock then some [] else f.instrs? c
  preds : ∀ c, g.preds? c = if c = f.nextBlock then some [] else f.preds? c
  instrs : g.instrs = f.instrs
  values : ∀ v, v.index < f.values.size → g.value? v = f.value? v
  copies : ∀ j v, done[j]? = some v → g.value? ⟨f.values.size + j⟩ =
    (f.value? v).map fun data => { data with origin := .argument f.nextBlock j .phi }
  size_blocks : g.blocks.size = f.blocks.size + 1
  size_values : g.values.size = f.values.size + done.length

section Opened

variable {layout : List BlockId} {done : List ValueId} {data : Value}

theorem Consistent.opened (hf : f.Consistent) (hperm : layout.Perm (f.nextBlock :: f.layout)) :
    f.Opened (f.withBlock layout) layout [] := by
  refine ⟨hf.withBlock hperm, rfl, rfl, rfl, terminator?_withBlock f _, fun c => ?_, fun c => ?_,
    fun c => ?_, rfl, fun _ _ => rfl, fun j v hj => absurd hj (by simp), Arena.size_alloc _ _, rfl⟩
  · rw [args?, block?_withBlock, args?]
    split <;> rfl
  · rw [instrs?, block?_withBlock, instrs?]
    split <;> rfl
  · rw [preds?, block?_withBlock, preds?]
    split <;> rfl

theorem Opened.addPhi_cases (ho : f.Opened g layout done) (hv : f.value? v = some data)
    (hshort : done.length < slotLimit) :
    (∃ g', g.addPhi f.nextBlock data.type data.ownership = .ok (⟨f.values.size + done.length⟩, g') ∧
        f.values.size + done.length < slotLimit ∧ f.Opened g' layout (done ++ [v])) ∨
      g.addPhi f.nextBlock data.type data.ownership = .error (.idOverflow .value) ∧
        slotLimit ≤ f.values.size + done.length := by
  obtain ⟨blk, hblk, hargs⟩ := args?_eq_some.mp ((ho.args f.nextBlock).trans (if_pos rfl))
  have hlength : blk.args.length = done.length := by simp [hargs, nextValues]
  have hnext : g.nextValue = ⟨f.values.size + done.length⟩ := by rw [nextValue, ho.size_values]
  rcases Nat.lt_or_ge g.values.size slotLimit with hlt | hge
  · left
    have hadd : g.addArg f.nextBlock data.type data.ownership .phi = .ok (g.nextValue, _) :=
      addArg_eq_ok.mpr ⟨blk, hblk, hlength ▸ hshort, hlt, rfl, rfl⟩
    have hvalue : ∀ w, (g.withValue ⟨data.type, data.ownership,
        .argument f.nextBlock blk.args.length .phi⟩).value? w =
        if w = ⟨f.values.size + done.length⟩ then
          some ⟨data.type, data.ownership, .argument f.nextBlock done.length .phi⟩
        else g.value? w := by
      intro w
      rw [value?_withValue, hnext, hlength]
    rw [hnext] at hadd
    exact ⟨_, hadd, ho.size_values ▸ hlt, {
      consistent := ho.consistent.addArg hadd
      id := ho.id
      name := ho.name
      layout := ho.layout
      terminators := fun c => by
        rw [← ho.terminators c]
        exact terminator?_modifyBlock _ _ _ fun _ => rfl
      args := fun c => by
        rw [args?, block?_modifyBlock_of (g.withValue _) f.nextBlock c hblk]
        split
        · simp [nextValues, hargs, List.range_succ]
        · rename_i hc
          change g.args? c = _
          rw [ho.args, if_neg hc]
      lists := fun c => by
        rw [← ho.lists c]
        exact instrs?_modifyBlock _ _ _ fun _ => rfl
      preds := fun c => by
        rw [← ho.preds c]
        exact preds?_modifyBlock _ _ _ fun _ => rfl
      instrs := ho.instrs
      values := fun w hw => by
        refine (hvalue w).trans ?_
        rw [if_neg, ho.values w hw]
        rintro rfl
        exact Nat.not_lt.mpr (Nat.le_add_right _ _) hw
      copies := fun j w hj => by
        refine (hvalue _).trans ?_
        rcases Nat.lt_trichotomy j done.length with hlt | rfl | hgt
        · rw [List.getElem?_append_left hlt] at hj
          rw [if_neg (by simpa using Nat.ne_of_lt hlt), ho.copies j w hj]
        · rw [List.getElem?_concat_length] at hj
          cases hj
          rw [if_pos rfl, hv]
          rfl
        · rw [List.getElem?_eq_none (by rw [List.length_append]; exact hgt)] at hj
          cases hj
      size_blocks := by
        rw [size_modifyBlock]
        exact ho.size_blocks
      size_values := by
        change (g.values.alloc _).size = _
        rw [Arena.size_alloc, ho.size_values, List.length_append]
        rfl }⟩
  · right
    refine ⟨?_, ho.size_values ▸ hge⟩
    rw [addPhi, addArg, block_eq_ok.mpr hblk, ok_bind, hlength, if_neg (Nat.not_le.mpr hshort),
      allocValue, IdSpace.checked, if_neg (Nat.not_lt.mpr hge)]
    rfl

theorem Opened.copyAsPhis_cases (ho : f.Opened g layout done) {rest : List ValueId}
    (hlive : ∀ v ∈ rest, f.isLiveValue v = true) (hshort : done.length < slotLimit) :
    (∃ g', g.copyAsPhis f.nextBlock rest =
          .ok ((List.range' done.length rest.length).map fun j => ⟨f.values.size + j⟩, g') ∧
        f.Opened g' layout (done ++ rest)) ∨
      g.copyAsPhis f.nextBlock rest = .error (.idOverflow .value) ∧
        slotLimit < f.values.size + (done ++ rest).length := by
  induction rest generalizing g done with
  | nil => exact .inl ⟨g, rfl, by rwa [List.append_nil]⟩
  | cons v rest ih =>
      rw [List.forall_mem_cons] at hlive
      obtain ⟨data, hdata⟩ := Option.isSome_iff_exists.mp hlive.1
      have hlt := lt_size_of_isLiveValue hlive.1
      rw [copyAsPhis, value_eq_ok.mpr ((ho.values v hlt).trans hdata), ok_bind]
      rcases ho.addPhi_cases hdata hshort with ⟨g', hadd, hroom, ho'⟩ | ⟨hadd, hfull⟩
      · rw [hadd, ok_bind]
        -- `v` has a number itself, so there are more values than phis.
        have hshort' : (done ++ [v]).length < slotLimit := by
          rw [List.length_append, List.length_singleton]
          omega
        rcases ih ho' hlive.2 hshort' with ⟨last, hrest, hlast⟩ | ⟨hrest, hfull⟩
        · left
          refine ⟨last, ?_, by simpa using hlast⟩
          simp only [hrest, ok_bind]
          simp [List.range'_succ, pure, Except.pure]
        · right
          refine ⟨?_, by simpa using hfull⟩
          simp only [hrest]
          rfl
      · right
        rw [hadd]
        refine ⟨rfl, ?_⟩
        simp only [List.length_append, List.length_cons]
        omega

end Opened

theorem Opened.forwardedArgs_cases {layout : List BlockId} (ho : f.Opened g layout [])
    (hf : f.Consistent) (hx : f.target? x = some dest) :
    (∃ g', g.forwardedArgs x.block x.index f.nextBlock =
          .ok (f.carried x ++ f.nextValues (f.copied x).length, g') ∧
        f.Opened g' layout (f.copied x)) ∨
      g.forwardedArgs x.block x.index f.nextBlock = .error (.idOverflow .value) ∧
        slotLimit < f.values.size + (f.copied x).length := by
  obtain ⟨t, ht, hdest⟩ := target?_eq_some.mp hx
  obtain ⟨given, hgiven⟩ := Option.isSome_iff_exists.mp
    ((f.isSome_edgeArgs? x).trans (Option.isSome_iff_exists.mpr ⟨dest, hx⟩))
  have hsame : g.edgeArgs? x = some given := by rw [edgeArgs?, ho.terminators, ← hgiven, edgeArgs?]
  rw [forwardedArgs, edgeArgs_eq_ok.mpr hsame, ok_bind, carried, copied, hgiven]
  rcases given with args | payload
  · left
    refine ⟨g, ?_, ho⟩
    simp [nextValues, pure, Except.pure]
  · have hlive := hf.edges.live_target hx
    obtain ⟨data, hdata⟩ := isLiveBlock_iff.mp hlive
    have hne : dest ≠ f.nextBlock := by
      rintro rfl
      exact f.not_isLiveBlock_nextBlock hlive
    have hargs := ho.args dest
    rw [if_neg hne, args?_of hdata] at hargs
    obtain ⟨data', hdata', hsame'⟩ := args?_eq_some.mp hargs
    have hterm : g.terminator x.block = .ok t :=
      terminator_eq_ok.mpr (terminator?_eq_some.mp ((ho.terminators x.block).trans ht))
    have hliveArgs : ∀ v ∈ data.args, f.isLiveValue v = true := by
      intro v hv
      obtain ⟨index, kind, horigin⟩ := (hf.args.mem_args (args?_of hdata)).mp hv
      rw [← isSome_origin?, horigin]
      rfl
    simp only [hterm, ok_bind, Terminator.successor_eq_ok.mpr hdest, block_eq_ok.mpr hdata', hsame', hx,
      args?_of hdata, Option.bind_some, Option.getD_some, List.nil_append]
    rcases ho.copyAsPhis_cases hliveArgs (by decide) with ⟨g', hcopy, ho'⟩ | ⟨hcopy, hfull⟩
    · exact .inl ⟨g', by rw [hcopy, nextValues, List.range_eq_range']; rfl, ho'⟩
    · exact .inr ⟨hcopy, hfull⟩

theorem insertIdx_idxOf_eq_flatMap {layout : List BlockId} (hnodup : layout.Nodup) {position : Nat}
    (hposition : layout.idxOf? b = some position) (mid : BlockId) :
    layout.insertIdx (position + 1) mid =
      layout.flatMap fun c => c :: if c = b then [mid] else [] := by
  induction layout generalizing position with
  | nil => simp at hposition
  | cons c rest ih =>
      obtain ⟨hc, hrest⟩ := List.nodup_cons.mp hnodup
      rw [List.insertIdx_succ_cons, List.flatMap_cons, List.cons_append]
      rw [List.idxOf?_cons] at hposition
      rcases Classical.em (c = b) with rfl | hne
      · simp only [beq_self_eq_true, if_true, Option.some.injEq] at hposition
        have hothers : ∀ d ∈ rest, (d :: if d = c then [mid] else []) = [d] := by
          intro d hd
          rw [if_neg]
          rintro rfl
          exact hc hd
        rw [← hposition, List.insertIdx_zero, if_pos rfl, List.flatMap_congr hothers,
          List.flatMap_singleton']
        rfl
      · simp only [beq_iff_eq, hne, if_false, Option.map_eq_some_iff] at hposition
        obtain ⟨before, hbefore, rfl⟩ := hposition
        rw [if_neg hne, ih hrest hbefore]
        rfl

theorem LayoutListed.createBlockAfter_cases (hf : f.LayoutListed) (hb : f.isLiveBlock b = true) :
    (∃ layout, f.createBlockAfter b = .ok (f.nextBlock, f.withBlock layout) ∧
        layout.Perm (f.nextBlock :: f.layout) ∧ layout.head? = f.layout.head? ∧
        layout = f.layout.flatMap fun c => c :: if c = b then [f.nextBlock] else []) ∨
      f.createBlockAfter b = .error (.idOverflow .block) ∧ slotLimit ≤ f.blocks.size := by
  have hmem := (hf.mem_iff b).mpr hb
  obtain ⟨position, hposition⟩ := Option.isSome_iff_exists.mp (List.isSome_idxOf?.mpr hmem)
  rcases Nat.lt_or_ge f.blocks.size slotLimit with hlt | hge
  · left
    refine ⟨_, createBlockAfter_eq_ok.mpr ⟨position, hposition, hlt, rfl, rfl⟩, ?_, ?_, ?_⟩
    · exact List.perm_insertIdx _ _ (List.idxOf?_eq_some_iff.mp hposition).1
    · obtain ⟨first, rest, hlayout⟩ := List.exists_cons_of_ne_nil (List.ne_nil_of_mem hmem)
      rw [hlayout]
      rfl
    · exact insertIdx_idxOf_eq_flatMap hf.nodup hposition f.nextBlock
  · right
    rw [createBlockAfter, layoutPosition_eq_ok.mpr hposition, ok_bind, allocBlock, IdSpace.checked,
      if_neg (Nat.not_lt.mpr hge)]
    exact ⟨rfl, hge⟩

theorem mapEdges_via_of_notMem {mid : Edge → BlockId} (t : Terminator)
    (hb : ∀ e, ⟨b, e⟩ ∉ edges) : t.mapEdges (leadVia edges mid b) (unload edges b) = t := by
  have hlead : leadVia edges mid b = fun _ dest => dest := by
    funext e dest
    exact if_neg (hb e)
  have hunload : unload edges b = fun _ args => args := by
    funext e args
    exact if_neg (hb e)
  rw [hlead, hunload, Terminator.mapEdges_id]

theorem leadVia_singleton (x : Edge) (mid : Edge → BlockId) :
    leadVia [x] mid x.block = fun e dest => if e = x.index then mid x else dest := by
  obtain ⟨b, k⟩ := x
  funext e dest
  simp only [leadVia, List.mem_singleton, Edge.mk.injEq, true_and]
  split
  · subst e
    rfl
  · rfl

theorem unload_singleton (x : Edge) :
    unload [x] x.block = fun e args => if e = x.index then [] else args := by
  obtain ⟨b, k⟩ := x
  funext e args
  simp only [unload, List.mem_singleton, Edge.mk.injEq, true_and]

theorem reroute_eq_mapEdges (t : Terminator) (x : Edge) (mid : BlockId) :
    (t.withEdgeArgs x.index []).retarget x.index mid =
      t.mapEdges (leadVia [x] (fun _ => mid) x.block) (unload [x] x.block) := by
  rw [Terminator.retarget, Terminator.withEdgeArgs_eq_mapEdges,
    Terminator.mapEdges_mapEdges, leadVia_singleton, unload_singleton]

theorem mem_operandsAt?_of_mem_carried (hv : v ∈ f.carried x) :
    v ∈ f.operandsAt? (.terminator x.block) := by
  refine mem_operandsAt?_terminator.mpr (.inr ?_)
  unfold carried at hv
  split at hv
  · rename_i args hargs
    exact ⟨x.index, args, hargs, hv⟩
  · cases hv

theorem Opened.isLiveBlock_iff {layout : List BlockId} {done : List ValueId}
    (ho : f.Opened g layout done) (c : BlockId) :
    g.isLiveBlock c = true ↔ c = f.nextBlock ∨ f.isLiveBlock c = true := by
  rw [← isSome_args?, ho.args, ← isSome_args?]
  split <;> simp [*]

theorem Opened.splitOn {layout : List BlockId} {last : Body} {t : Terminator}
    (ho : f.Opened g layout (f.copied x)) (ht : f.terminator? x.block = some t)
    (hdest : t.successors[x.index]? = some dest)
    (hlayout : layout =
      f.layout.flatMap fun c => c :: if c = x.block then [f.nextBlock] else [])
    (hlast : last.Consistent) (hsame : g.Rewired last)
    (hterm : ∀ c, last.terminator? c =
      if c = f.nextBlock then
        some (.br dest (f.carried x ++ f.nextValues (f.copied x).length))
      else if c = x.block then
        some ((t.withEdgeArgs x.index []).retarget x.index f.nextBlock)
      else f.terminator? c) :
    f.SplitOn last [x] (fun _ => f.nextBlock) fun _ j => ⟨f.values.size + j⟩ := by
  have hx : f.target? x = some dest := target?_eq_some.mpr ⟨t, ht, hdest⟩
  have hold : ∀ c : BlockId, c.index < f.blocks.size → c ≠ f.nextBlock := by
    rintro c hc rfl
    exact Nat.lt_irrefl _ hc
  exact {
    consistent := hlast
    id := hsame.id.trans ho.id
    name := hsame.name.trans ho.name
    nodup := List.nodup_singleton x
    edge := fun y hy => by
      rw [List.mem_singleton.mp hy, hx]
      rfl
    layout := by
      refine ⟨_, (hsame.layout.trans ho.layout).trans hlayout, fun c => ?_⟩
      rcases Classical.em (x.block = c) with rfl | hc
      · simp
      · simp [hc, Ne.symm hc]
    size_blocks := hsame.size.trans ho.size_blocks
    size_values := by
      rw [hsame.values, ho.size_values]
      simp
    mid_mem := fun c => by
      rw [hsame.size, ho.size_blocks]
      simp only [List.mem_singleton, exists_eq_left, ← blockId_ext, nextBlock]
      omega
    mid_inj := fun y hy z hz _ => by
      rw [List.mem_singleton.mp hy, List.mem_singleton.mp hz]
    phi_mem := fun v => by
      rw [hsame.values, ho.size_values]
      constructor
      · rintro ⟨y, hy, j, hj, rfl⟩
        rw [List.mem_singleton.mp hy] at hj
        exact ⟨Nat.le_add_right _ _, Nat.add_lt_add_left hj _⟩
      · rintro ⟨hle, hlt⟩
        refine ⟨x, List.mem_singleton_self x, v.index - f.values.size, by omega, ?_⟩
        rw [← UseIndex.ext_index]
        exact Nat.add_sub_of_le hle
    terminators := fun c hc => by
      rw [hterm, if_neg (hold c hc)]
      rcases Classical.em (c = x.block) with rfl | hcb
      · rw [if_pos rfl, ht, reroute_eq_mapEdges]
        rfl
      · rw [if_neg hcb]
        rcases f.terminator? c with _ | u
        · rfl
        · rw [Option.map_some, mapEdges_via_of_notMem u]
          intro e he
          exact hcb (congrArg Edge.block (List.mem_singleton.mp he))
    args := fun c hc => by
      rw [hsame.args, ho.args, if_neg (hold c hc)]
    lists := fun c hc => by
      rw [hsame.lists, ho.lists, if_neg (hold c hc)]
    instrs := hsame.instrs.trans ho.instrs
    values := fun v hv => by
      rw [hsame.value?, ho.values v hv]
    leads := fun y hy => by
      rw [hterm, if_pos rfl, List.mem_singleton.mp hy, hx]
      rfl
    takes := fun y hy => by
      rw [hsame.args, ho.args, if_pos rfl, List.mem_singleton.mp hy]
      rfl
    empty := fun y _ => by
      rw [hsame.lists, ho.lists, if_pos rfl]
    copies := fun y hy j v hv => by
      rw [List.mem_singleton.mp hy] at hv
      rw [hsame.value?, ho.copies j v hv] }

/-- The incoming edges of `c` once a block `mid` stands on an edge that led to `dest`. -/
def predsVia (x : Edge) (dest mid c : BlockId) (preds : List Edge) : List Edge :=
  if c = dest then preds.filter (· ≠ x) ++ [⟨mid, 0⟩] else preds

theorem EdgesListed.filter_block_ne_nextBlock (h : f.EdgesListed) {preds edges : List Edge}
    (hpreds : f.preds? c = some preds) (hsub : edges.Sublist preds) :
    edges.filter (·.block ≠ f.nextBlock) = edges := by
  refine List.filter_eq_self.mpr fun y hy => decide_eq_true ?_
  obtain ⟨u, hu, -⟩ := target?_eq_some.mp ((h.mem_preds hpreds).mp (hsub.subset hy))
  obtain ⟨data, hdata, -⟩ := terminator?_eq_some.mp hu
  intro heq
  exact f.not_isLiveBlock_nextBlock (heq ▸ isLiveBlock_of hdata)

theorem Opened.exists_splitOn {layout : List BlockId} (ho : f.Opened g layout (f.copied x))
    (hf : f.Consistent) (hx : f.target? x = some dest)
    (hlayout : layout =
      f.layout.flatMap fun c => c :: if c = x.block then [f.nextBlock] else []) :
    ∃ g' last old, g.redirect x.block x.index f.nextBlock false = .ok g' ∧
      g'.setTerminator f.nextBlock (.br dest (f.carried x ++ f.nextValues (f.copied x).length)) =
        .ok (old, last) ∧
      f.SplitOn last [x] (fun _ => f.nextBlock) (fun _ j => ⟨f.values.size + j⟩) ∧
      ∀ c, c ≠ f.nextBlock →
        last.preds? c = (f.preds? c).map (predsVia x dest f.nextBlock c) := by
  obtain ⟨t, ht, hdest⟩ := target?_eq_some.mp hx
  have hlive := hf.edges.live_target hx
  have hne : dest ≠ f.nextBlock := by
    rintro rfl
    exact f.not_isLiveBlock_nextBlock hlive
  have hopen := (ho.isLiveBlock_iff f.nextBlock).mpr (.inl rfl)
  obtain ⟨g₁, hrun₁, hg₁, hsame₁, hterm₁, hblock₁⟩ := ho.consistent.exists_setEdgeArgs
    ((ho.terminators x.block).trans ht) x.index [] fun v hv => absurd hv List.not_mem_nil
  obtain ⟨g₂, hrun₂, hg₂, hsame₂, hterm₂, hpreds₂⟩ := hg₁.exists_setSuccessor
    ((hterm₁ x.block).trans (if_pos rfl))
    ((congrArg (·[x.index]?) (Terminator.successors_withEdgeArgs t x.index [])).trans hdest)
    f.nextBlock hne ((hsame₁.isLiveBlock _).trans hopen)
  have hsame := hsame₁.trans hsame₂
  have halloc : ∀ v ∈ f.carried x ++ f.nextValues (f.copied x).length,
      v.index < g₂.values.size := by
    intro v hv
    rw [hsame.values, ho.size_values]
    rcases List.mem_append.mp hv with hv | hv
    · exact Nat.lt_add_right _ (hf.uses.allocated (mem_operandsAt?_of_mem_carried hv))
    · obtain ⟨j, hj, rfl⟩ := List.mem_map.mp hv
      exact Nat.add_lt_add_left (List.mem_range.mp hj) _
  obtain ⟨g₃, hrun₃, hg₃, hsame₃, hterm₃, hpreds₃⟩ := hg₂.exists_setTerminator
    ((hsame.isLiveBlock _).trans hopen)
    (.br dest (f.carried x ++ f.nextValues (f.copied x).length))
    (fun s hs => by
      rw [List.mem_singleton.mp hs, hsame.isLiveBlock]
      exact (ho.isLiveBlock_iff dest).mpr (.inr hlive)) halloc
  refine ⟨g₂, g₃, _, ?_, hrun₃, ho.splitOn ht hdest hlayout hg₃ (hsame.trans hsame₃) fun c => ?_,
    fun c hc => ?_⟩
  · rw [redirect, if_neg Bool.false_ne_true, hrun₁, ok_bind]
    exact hrun₂
  · rw [hterm₃, hterm₂, hterm₁, ho.terminators]
    split
    · rfl
    · split <;> rfl
  · rw [hpreds₃, hpreds₂, preds?_mapBlocks hblock₁ fun _ _ => rfl,
      (ho.preds c).trans (if_neg hc), Option.map_map]
    refine Option.map_congr fun preds hpreds => ?_
    simp only [Function.comp_apply, hc, if_false, List.append_nil, Terminator.successors, predsVia]
    rw [arrivals_singleton]
    split
    · rw [hf.edges.filter_block_ne_nextBlock hpreds List.filter_sublist]
    · rw [hf.edges.filter_block_ne_nextBlock hpreds (.refl _), List.append_nil]

/-- A block can be put on every edge of a consistent body, unless the numbers are used up. -/
theorem Consistent.splitEdge_cases (hf : f.Consistent) (hx : f.target? x = some dest) :
    (∃ g, f.splitEdge x.block x.index = .ok (f.nextBlock, g) ∧
        f.SplitOn g [x] (fun _ => f.nextBlock) (fun _ j => ⟨f.values.size + j⟩) ∧
        ∀ c, c ≠ f.nextBlock →
          g.preds? c = (f.preds? c).map (predsVia x dest f.nextBlock c)) ∨
      ∃ space, f.splitEdge x.block x.index = .error (.idOverflow space) ∧ ¬ f.HasRoomFor [x] := by
  obtain ⟨t, ht, hdest⟩ := target?_eq_some.mp hx
  obtain ⟨data, hdata, hterm⟩ := terminator?_eq_some.mp ht
  rw [splitEdge, terminator_eq_ok.mpr ⟨data, hdata, hterm⟩, ok_bind,
    Terminator.successor_eq_ok.mpr hdest, ok_bind]
  rcases hf.layout.createBlockAfter_cases (isLiveBlock_of hdata) with
    ⟨layout, hcreate, hperm, -, hlayout⟩ | ⟨hcreate, hfull⟩
  · rw [hcreate]
    rcases (hf.opened hperm).forwardedArgs_cases hf hx with ⟨g, hforward, ho⟩ | ⟨hforward, hfull⟩
    · left
      obtain ⟨g', last, old, hredirect, hset, hsplit⟩ := ho.exists_splitOn hf hx hlayout
      refine ⟨last, ?_, hsplit⟩
      simp only [ok_bind, hforward, hredirect, hset]
      rfl
    · right
      refine ⟨.value, ?_, fun hroom => Nat.not_le.mpr hfull ?_⟩
      · simp only [ok_bind, hforward]
        rfl
      · simpa using hroom.2
  · right
    rw [hcreate]
    exact ⟨.block, rfl, fun hroom => Nat.not_succ_le_self _ (Nat.le_trans hroom.1 hfull)⟩

theorem Consistent.isLiveValue_of_mem_copied (hf : f.Consistent) (hv : v ∈ f.copied x) :
    f.isLiveValue v = true := by
  unfold copied at hv
  split at hv
  · rcases htarget : f.target? x with _ | dest
    · rw [htarget] at hv
      cases hv
    · obtain ⟨data, hdata⟩ := isLiveBlock_iff.mp (hf.edges.live_target htarget)
      rw [htarget, Option.bind_some, args?_of hdata] at hv
      obtain ⟨index, kind, horigin⟩ := (hf.args.mem_args (args?_of hdata)).mp hv
      rw [← isSome_origin?, horigin]
      rfl
  · cases hv

theorem lt_size_of_target? (hx : (f.target? x).isSome = true) : x.block.index < f.blocks.size := by
  obtain ⟨dest, hdest⟩ := Option.isSome_iff_exists.mp hx
  obtain ⟨t, ht, -⟩ := target?_eq_some.mp hdest
  obtain ⟨data, hdata, -⟩ := terminator?_eq_some.mp ht
  exact lt_size_of_isLiveBlock (isLiveBlock_of hdata)

theorem Consistent.splitOn_nil (hf : f.Consistent) (mid : Edge → BlockId)
    (phi : Edge → Nat → ValueId) : f.SplitOn f [] mid phi := by
  refine ⟨hf, rfl, rfl, List.nodup_nil, fun x hx => absurd hx List.not_mem_nil,
    ⟨fun _ => [], (List.flatMap_singleton' _).symm, fun b => .nil⟩, rfl, rfl, fun c => ?_,
    fun x hx => absurd hx List.not_mem_nil, fun v => ?_, fun b hb => ?_, fun b hb => rfl,
    fun b hb => rfl, rfl, fun v hv => rfl, fun x hx => absurd hx List.not_mem_nil,
    fun x hx => absurd hx List.not_mem_nil, fun x hx => absurd hx List.not_mem_nil,
    fun x hx => absurd hx List.not_mem_nil⟩
  · simp only [List.not_mem_nil, false_and, exists_false, false_iff]
    omega
  · simp only [List.not_mem_nil, false_and, exists_false, false_iff]
    omega
  · rcases f.terminator? b with _ | t
    · rfl
    · rw [Option.map_some, mapEdges_via_of_notMem t fun e => List.not_mem_nil]

namespace SplitOn

variable {mid : Edge → BlockId} {phi : Edge → Nat → ValueId} (hs : f.SplitOn g edges mid phi)
include hs

theorem target?_old (hx : x.block.index < f.blocks.size) :
    g.target? x = (f.target? x).map (leadVia edges mid x.block x.index) := by
  rw [target?, hs.terminators _ hx, target?]
  rcases f.terminator? x.block with _ | t
  · rfl
  · exact t.getElem?_successors_mapEdges _ _ x.index

theorem edgeArgs?_old (hx : x.block.index < f.blocks.size) :
    g.edgeArgs? x = (f.edgeArgs? x).map (·.mapArgs (unload edges x.block x.index)) := by
  rw [edgeArgs?, hs.terminators _ hx, edgeArgs?]
  rcases f.terminator? x.block with _ | t
  · rfl
  · exact t.edgeArgs?_mapEdges _ _ x.index

theorem target?_of_mem (hx : x ∈ edges) : g.target? x = some (mid x) := by
  obtain ⟨dest, hdest⟩ := Option.isSome_iff_exists.mp (hs.edge x hx)
  rw [hs.target?_old (lt_size_of_target? (hs.edge x hx)), hdest]
  exact congrArg some (if_pos hx)

theorem target?_of_notMem (hx : x ∉ edges) (hold : x.block.index < f.blocks.size) :
    g.target? x = f.target? x := by
  rw [hs.target?_old hold]
  rcases f.target? x with _ | dest
  · rfl
  · exact congrArg some (if_neg hx)

theorem edgeArgs?_of_notMem (hx : x ∉ edges) (hold : x.block.index < f.blocks.size) :
    g.edgeArgs? x = f.edgeArgs? x := by
  rw [hs.edgeArgs?_old hold]
  rcases f.edgeArgs? x with _ | args | payload
  · rfl
  · exact congrArg (some ∘ EdgeArgs.explicit) (if_neg hx)
  · rfl

theorem target?_mid (hx : x ∈ edges) (k : Nat) :
    g.target? ⟨mid x, k⟩ = if k = 0 then f.target? x else none := by
  rw [target?, hs.leads x hx]
  rcases f.target? x with _ | dest
  · split <;> rfl
  · rcases k with _ | k <;> rfl

theorem lt_mid (hx : x ∈ edges) : f.blocks.size ≤ (mid x).index ∧ (mid x).index < g.blocks.size :=
  (hs.mid_mem _).mp ⟨x, hx, rfl⟩

theorem lt_phi (hx : x ∈ edges) {j : Nat} (hj : j < (f.copied x).length) :
    f.values.size ≤ (phi x j).index ∧ (phi x j).index < g.values.size :=
  (hs.phi_mem _).mp ⟨x, hx, j, hj, rfl⟩

theorem block_cases (c : BlockId) :
    c.index < f.blocks.size ∨ (∃ x ∈ edges, mid x = c) ∨
      (∀ x ∈ edges, c ≠ mid x) ∧ f.block? c = none ∧ g.block? c = none := by
  rcases Nat.lt_or_ge c.index f.blocks.size with hold | hge
  · exact .inl hold
  · rcases Nat.lt_or_ge c.index g.blocks.size with hnew | hge'
    · exact .inr (.inl ((hs.mid_mem c).mpr ⟨hge, hnew⟩))
    · refine .inr (.inr ⟨?_, Arena.get?_eq_none_of_size_le hge, Arena.get?_eq_none_of_size_le hge'⟩)
      rintro x hx rfl
      exact Nat.not_lt.mpr hge' (hs.lt_mid hx).2

theorem ne_mid (hc : b.index < f.blocks.size) (hx : x ∈ edges) : b ≠ mid x := by
  rintro rfl
  exact Nat.not_lt.mpr (hs.lt_mid hx).1 hc

theorem entry {c : BlockId} : g.entry = .ok c ↔ f.entry = .ok c := by
  obtain ⟨behind, hlayout, -⟩ := hs.layout
  rw [entry_eq_ok_iff_head?, entry_eq_ok_iff_head?, hlayout]
  rcases f.layout with _ | ⟨first, rest⟩ <;> rfl

theorem isLiveValue_of_mem_phisOn (hf : f.Consistent) (hx : x ∈ edges) (hv : v ∈ f.phisOn phi x) :
    g.isLiveValue v = true := by
  obtain ⟨j, hj, rfl⟩ := List.mem_map.mp hv
  have hget := List.getElem?_eq_getElem (List.mem_range.mp hj)
  rw [isLiveValue, hs.copies x hx j _ hget, Option.isSome_map]
  exact hf.isLiveValue_of_mem_copied (List.mem_of_getElem? hget)

/-- The other edges carry what they carried, and blocks on them would copy what they would have
copied. -/
theorem carried_of_notMem (hx : x ∉ edges) (hedge : (f.target? x).isSome = true) :
    g.carried x = f.carried x := by
  rw [carried, hs.edgeArgs?_of_notMem hx (lt_size_of_target? hedge), carried]

theorem copied_of_notMem (hf : f.Consistent) (hx : x ∉ edges)
    (hedge : (f.target? x).isSome = true) : g.copied x = f.copied x := by
  have hold := lt_size_of_target? hedge
  obtain ⟨dest, hdest⟩ := Option.isSome_iff_exists.mp hedge
  rw [copied, hs.edgeArgs?_of_notMem hx hold, hs.target?_of_notMem hx hold, copied, hdest,
    Option.bind_some, Option.bind_some,
    hs.args dest (lt_size_of_isLiveBlock (hf.edges.live_target hdest))]

end SplitOn

/-- The first of two assignments on the given edges, the second on all others. -/
def onEdges {α : Type} (edges : List Edge) (m m' : Edge → α) (x : Edge) : α :=
  if x ∈ edges then m x else m' x

theorem onEdges_of_mem {α : Type} {m m' : Edge → α} (hx : x ∈ edges) : onEdges edges m m' x = m x :=
  if_pos hx

theorem onEdges_of_notMem {α : Type} {m m' : Edge → α} (hx : x ∉ edges) :
    onEdges edges m m' x = m' x :=
  if_neg hx

theorem exists_mem_append_onEdges {α : Type} {edges' : List Edge} {m m' : Edge → α}
    (hnew : ∀ x ∈ edges', x ∉ edges) {P : Edge → α → Prop} :
    (∃ x ∈ edges ++ edges', P x (onEdges edges m m' x)) ↔
      (∃ x ∈ edges, P x (m x)) ∨ ∃ x ∈ edges', P x (m' x) := by
  constructor
  · rintro ⟨x, hx, h⟩
    rcases List.mem_append.mp hx with hx | hx
    · rw [onEdges_of_mem hx] at h
      exact .inl ⟨x, hx, h⟩
    · rw [onEdges_of_notMem (hnew x hx)] at h
      exact .inr ⟨x, hx, h⟩
  · rintro (⟨x, hx, h⟩ | ⟨x, hx, h⟩)
    · exact ⟨x, List.mem_append_left _ hx, by rwa [onEdges_of_mem hx]⟩
    · exact ⟨x, List.mem_append_right _ hx, by rwa [onEdges_of_notMem (hnew x hx)]⟩

theorem flatMap_behind {layout : List BlockId} {behind behind' : BlockId → List BlockId}
    (hbehind : ∀ b ∈ layout, ∀ c ∈ behind b, behind' c = []) :
    (layout.flatMap fun b => b :: behind b).flatMap (fun b => b :: behind' b) =
      layout.flatMap fun b => b :: (behind' b ++ behind b) := by
  rw [List.flatMap_assoc]
  refine List.flatMap_congr fun b hb => ?_
  rw [List.flatMap_cons, List.cons_append]
  congr 2
  calc (behind b).flatMap (fun c => c :: behind' c)
      = (behind b).flatMap (fun c => [c]) :=
        List.flatMap_congr fun c hc => by rw [hbehind b hb c hc]
    _ = behind b := List.flatMap_singleton' _

namespace SplitOn

variable {edges' : List Edge} {mid mid' : Edge → BlockId} {phi phi' : Edge → Nat → ValueId}
  (hs : f.SplitOn g edges mid phi) (hs' : g.SplitOn h edges' mid' phi')
  (hnew : ∀ x ∈ edges', x ∉ edges)

theorem notMem_of_mid (hs : f.SplitOn g edges mid phi)
    (hedge : ∀ x ∈ edges', (f.target? x).isSome = true) (hx : x ∈ edges) (e : Nat) :
    (⟨mid x, e⟩ : Edge) ∉ edges' := by
  intro hmem
  exact Nat.not_lt.mpr (hs.lt_mid hx).1 (lt_size_of_target? (hedge _ hmem))

include hs hs' hnew

theorem layout_trans (hedge : ∀ x ∈ edges', (f.target? x).isSome = true) :
    ∃ behind : BlockId → List BlockId, h.layout = f.layout.flatMap (fun b => b :: behind b) ∧
      ∀ b, (behind b).Perm
        (((edges ++ edges').filter (·.block = b)).map (onEdges edges mid mid')) := by
  obtain ⟨behind, hlayout, hperm⟩ := hs.layout
  obtain ⟨behind', hlayout', hperm'⟩ := hs'.layout
  refine ⟨fun b => behind' b ++ behind b, ?_, fun b => ?_⟩
  · rw [hlayout', hlayout, flatMap_behind]
    intro b hb c hc
    obtain ⟨x, hx, rfl⟩ := List.mem_map.mp ((hperm b).mem_iff.mp hc)
    refine List.perm_nil.mp ((hperm' (mid x)).trans ?_)
    rw [List.filter_eq_nil_iff.mpr, List.map_nil]
    rintro ⟨c, e⟩ hy heq
    cases of_decide_eq_true heq
    exact hs.notMem_of_mid hedge (List.mem_of_mem_filter hx) e hy
  · rw [List.filter_append, List.map_append]
    refine List.perm_append_comm.trans (List.Perm.append ?_ ?_)
    · refine (hperm b).trans (List.Perm.of_eq (List.map_congr_left fun x hx => ?_))
      rw [onEdges_of_mem (List.mem_of_mem_filter hx)]
    · refine (hperm' b).trans (List.Perm.of_eq (List.map_congr_left fun x hx => ?_))
      rw [onEdges_of_notMem (hnew x (List.mem_of_mem_filter hx))]

theorem mid_inj_trans (hx : x ∈ edges ++ edges') (hy : y ∈ edges ++ edges')
    (hxy : onEdges edges mid mid' x = onEdges edges mid mid' y) : x = y := by
  have hdisjoint : ∀ x ∈ edges, ∀ y ∈ edges', mid x ≠ mid' y := by
    intro x hx y hy heq
    have hlt := (hs.lt_mid hx).2
    rw [heq] at hlt
    exact absurd hlt (Nat.not_lt.mpr (hs'.lt_mid hy).1)
  rcases List.mem_append.mp hx with hx | hx <;> rcases List.mem_append.mp hy with hy | hy
  · rw [onEdges_of_mem hx, onEdges_of_mem hy] at hxy
    exact hs.mid_inj x hx y hy hxy
  · rw [onEdges_of_mem hx, onEdges_of_notMem (hnew y hy)] at hxy
    exact absurd hxy (hdisjoint x hx y hy)
  · rw [onEdges_of_notMem (hnew x hx), onEdges_of_mem hy] at hxy
    exact absurd hxy.symm (hdisjoint y hy x hx)
  · rw [onEdges_of_notMem (hnew x hx), onEdges_of_notMem (hnew y hy)] at hxy
    exact hs'.mid_inj x hx y hy hxy

theorem terminators_trans (hb : b.index < f.blocks.size) :
    h.terminator? b = (f.terminator? b).map
      (·.mapEdges (leadVia (edges ++ edges') (onEdges edges mid mid') b)
        (unload (edges ++ edges') b)) := by
  have hb' : b.index < g.blocks.size := hs.size_blocks ▸ Nat.lt_add_right _ hb
  rw [hs'.terminators b hb', hs.terminators b hb, Option.map_map]
  congr 1
  funext t
  rw [Function.comp_apply, Terminator.mapEdges_mapEdges]
  congr 1
  · funext e dest
    rcases Classical.em ((⟨b, e⟩ : Edge) ∈ edges') with hx' | hx'
    · simp [leadVia, hx', onEdges_of_notMem (hnew _ hx')]
    · rcases Classical.em ((⟨b, e⟩ : Edge) ∈ edges) with hx | hx
      · simp [leadVia, hx', hx, onEdges_of_mem hx]
      · simp [leadVia, hx', hx]
  · funext e args
    rcases Classical.em ((⟨b, e⟩ : Edge) ∈ edges') with hx' | hx' <;> simp [unload, hx']

/-- Blocks on some edges, and then blocks on other edges of the first body. -/
theorem trans (hf : f.Consistent) (hedge : ∀ x ∈ edges', (f.target? x).isSome = true) :
    f.SplitOn h (edges ++ edges') (onEdges edges mid mid') (onEdges edges phi phi') := by
  have hcopied : ∀ x ∈ edges', g.copied x = f.copied x := fun x hx =>
    hs.copied_of_notMem hf (hnew x hx) (hedge x hx)
  have hphis : ∀ x ∈ edges, f.phisOn (onEdges edges phi phi') x = f.phisOn phi x := by
    intro x hx
    rw [phisOn, onEdges_of_mem hx, phisOn]
  have hphis' : ∀ x ∈ edges', f.phisOn (onEdges edges phi phi') x = g.phisOn phi' x := by
    intro x hx
    rw [phisOn, onEdges_of_notMem (hnew x hx), phisOn, hcopied x hx]
  have hold : ∀ b : BlockId, b.index < f.blocks.size → b.index < g.blocks.size := fun b hb =>
    hs.size_blocks ▸ Nat.lt_add_right _ hb
  have holdValue : ∀ v : ValueId, v.index < f.values.size → v.index < g.values.size := fun v hv =>
    hs.size_values ▸ Nat.lt_add_right _ hv
  exact {
    consistent := hs'.consistent
    id := hs'.id.trans hs.id
    name := hs'.name.trans hs.name
    nodup := List.nodup_append.mpr
      ⟨hs.nodup, hs'.nodup, fun x hx y hy hxy => hnew y hy (hxy ▸ hx)⟩
    edge := fun x hx => (List.mem_append.mp hx).elim (hs.edge x) (hedge x)
    layout := hs.layout_trans hs' hnew hedge
    size_blocks := by
      rw [hs'.size_blocks, hs.size_blocks, List.length_append, Nat.add_assoc]
    size_values := by
      rw [hs'.size_values, hs.size_values, List.map_append, List.sum_append, Nat.add_assoc]
      rw [List.map_congr_left fun x hx => congrArg List.length (hcopied x hx)]
    mid_mem := fun c => by
      rw [exists_mem_append_onEdges hnew (P := fun _ d => d = c), hs.mid_mem, hs'.mid_mem,
        hs'.size_blocks, hs.size_blocks]
      omega
    mid_inj := fun x hx y hy => hs.mid_inj_trans hs' hnew hx hy
    phi_mem := fun v => by
      have hsecond : (∃ x ∈ edges', ∃ j < (f.copied x).length, phi' x j = v) ↔
          ∃ x ∈ edges', ∃ j < (g.copied x).length, phi' x j = v := by
        refine exists_congr fun x => and_congr_right fun hx => ?_
        rw [hcopied x hx]
      rw [exists_mem_append_onEdges hnew
          (P := fun x (p : Nat → ValueId) => ∃ j < (f.copied x).length, p j = v),
        hsecond, hs.phi_mem, hs'.phi_mem, hs'.size_values, hs.size_values]
      omega
    terminators := fun b hb => hs.terminators_trans hs' hnew hb
    args := fun b hb => (hs'.args b (hold b hb)).trans (hs.args b hb)
    lists := fun b hb => (hs'.lists b (hold b hb)).trans (hs.lists b hb)
    instrs := hs'.instrs.trans hs.instrs
    values := fun v hv => (hs'.values v (holdValue v hv)).trans (hs.values v hv)
    leads := fun x hx => by
      rcases List.mem_append.mp hx with hx | hx
      · -- A block of the first step is not the source of an edge of the second.
        rw [onEdges_of_mem hx, hs'.terminators _ (hs.lt_mid hx).2, hs.leads x hx, hphis x hx]
        rcases f.target? x with _ | dest
        · rfl
        · rw [Option.map_some, Option.map_some,
            mapEdges_via_of_notMem _ (hs.notMem_of_mid hedge hx)]
      · rw [onEdges_of_notMem (hnew x hx), hs'.leads x hx, hphis' x hx,
          hs.carried_of_notMem (hnew x hx) (hedge x hx),
          hs.target?_of_notMem (hnew x hx) (lt_size_of_target? (hedge x hx))]
    takes := fun x hx => by
      rcases List.mem_append.mp hx with hx | hx
      · rw [onEdges_of_mem hx, hs'.args _ (hs.lt_mid hx).2, hs.takes x hx, hphis x hx]
      · rw [onEdges_of_notMem (hnew x hx), hs'.takes x hx, hphis' x hx]
    empty := fun x hx => by
      rcases List.mem_append.mp hx with hx | hx
      · rw [onEdges_of_mem hx, hs'.lists _ (hs.lt_mid hx).2, hs.empty x hx]
      · rw [onEdges_of_notMem (hnew x hx), hs'.empty x hx]
    copies := fun x hx j v hv => by
      have hlt : j < (f.copied x).length := (List.getElem?_eq_some_iff.mp hv).1
      rcases List.mem_append.mp hx with hx | hx
      · rw [onEdges_of_mem hx, onEdges_of_mem hx, hs'.values _ (hs.lt_phi hx hlt).2,
          hs.copies x hx j v hv]
      · have hlive := hf.isLiveValue_of_mem_copied (List.mem_of_getElem? hv)
        rw [onEdges_of_notMem (hnew x hx), onEdges_of_notMem (hnew x hx),
          hs'.copies x hx j v (hcopied x hx ▸ hv), hs.values v (lt_size_of_isLiveValue hlive)] }

end SplitOn

end FlowGraph.Body
