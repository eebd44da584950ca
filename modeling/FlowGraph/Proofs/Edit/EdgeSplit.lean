import FlowGraph.Proofs.Edit.Critical

/-!
All that putting a block on one edge does to a body. `SplitOn` speaks of any number of edges, and so
cannot say in which order the blocks list their incoming edges; for one edge nothing is left open.
-/

namespace FlowGraph

namespace Body

variable {f g : Body} {x : Edge} {dest mid : BlockId}

theorem block?_of_views {b : BlockId} {data : Block} (hargs : f.args? b = some data.args)
    (hinstrs : f.instrs? b = some data.instrs) (hterm : f.terminator? b = data.terminator)
    (hpreds : f.preds? b = some data.preds) : f.block? b = some data := by
  obtain ⟨other, hb, hsame⟩ := args?_eq_some.mp hargs
  rw [instrs?_of hb, Option.some.injEq] at hinstrs
  rw [terminator?_of hb] at hterm
  rw [preds?_of hb, Option.some.injEq] at hpreds
  rcases other with ⟨args, instrs, terminator, preds⟩
  rcases data with ⟨args', instrs', terminator', preds'⟩
  subst hsame hinstrs hterm hpreds
  exact hb

/-- What becomes of an old block `c` when a block `mid` is put on edge `x`, which led to `dest`. The edge
leads to `mid` and carries nothing, and `dest` lists the edge from `mid` instead, behind its other
incoming edges. -/
def blockVia (x : Edge) (dest mid c : BlockId) (data : Block) : Block :=
  { data with
    terminator := if c = x.block then
        data.terminator.map (·.mapEdges (fun e s => if e = x.index then mid else s)
          fun e args => if e = x.index then [] else args)
      else data.terminator
    preds := predsVia x dest mid c data.preds }

/-- The body `g` is `f` with a block `mid` on edge `x`, which led to `dest`. -/
structure EdgeSplit (f g : Body) (x : Edge) (dest mid : BlockId) : Prop where
  id : g.id = f.id
  name : g.name = f.name
  layout : ∃ before after, f.layout = before ++ x.block :: after ∧
    g.layout = before ++ x.block :: mid :: after
  size_blocks : g.blocks.size = f.blocks.size + 1
  /-- The operands of an explicit edge go on from the new block. -/
  explicit : ∀ args, f.edgeArgs? x = some (.explicit args) →
    g.block? mid = some { terminator := some (.br dest args), preds := [x] } ∧
      g.values.size = f.values.size
  /-- On an implicit edge the new block takes what the target takes, and passes it on. -/
  implicit : ∀ payload, f.edgeArgs? x = some (.implicit payload) → ∃ taken, f.args? dest = some taken ∧
    g.block? mid = some {
      args := f.nextValues taken.length
      terminator := some (.br dest (f.nextValues taken.length))
      preds := [x] } ∧
    g.values.size = f.values.size + taken.length ∧
    ∀ j v, taken[j]? = some v → ∃ value, f.value? v = some value ∧
      g.value? ⟨f.values.size + j⟩ = some { value with origin := .argument mid j .phi }
  blocks : ∀ c, c ≠ mid → g.block? c = (f.block? c).map (blockVia x dest mid c)
  instrs : g.instrs = f.instrs
  values : ∀ v, v.index < f.values.size → g.value? v = f.value? v

namespace SplitOn

variable {phi : Edge → Nat → ValueId} (hs : f.SplitOn g [x] (fun _ => mid) phi)
include hs

theorem exists_layout_eq (hf : f.Consistent) :
    ∃ before after, f.layout = before ++ x.block :: after ∧
      g.layout = before ++ x.block :: mid :: after := by
  obtain ⟨behind, hlayout, hbehind⟩ := hs.layout
  obtain ⟨dest, hdest⟩ := Option.isSome_iff_exists.mp (hs.edge x (List.mem_singleton_self x))
  obtain ⟨t, ht, -⟩ := target?_eq_some.mp hdest
  obtain ⟨data, hdata, -⟩ := terminator?_eq_some.mp ht
  obtain ⟨before, after, hsplit⟩ :=
    List.append_of_mem ((hf.layout.mem_iff x.block).mpr (isLiveBlock_of hdata))
  have hnodup := hf.layout.nodup
  rw [hsplit, List.nodup_append, List.nodup_cons] at hnodup
  obtain ⟨-, ⟨hafter, -⟩, hdisjoint⟩ := hnodup
  have hown : behind x.block = [mid] := by
    have hperm := hbehind x.block
    rw [List.filter_cons_of_pos (by simp)] at hperm
    exact List.perm_singleton.mp hperm
  have hother : ∀ c, c ≠ x.block → behind c = [] := by
    intro c hc
    have hperm := hbehind c
    rw [List.filter_cons_of_neg (by simpa using Ne.symm hc)] at hperm
    exact hperm.eq_nil
  have hkeep : ∀ l : List BlockId, x.block ∉ l → l.flatMap (fun c => c :: behind c) = l := by
    intro l hl
    rw [List.flatMap_congr (g := fun c => [c]) fun c hc => ?_, List.flatMap_singleton']
    rw [hother c fun heq => hl (heq ▸ hc)]
  refine ⟨before, after, hsplit, ?_⟩
  rw [hlayout, hsplit, List.flatMap_append, List.flatMap_cons, hown, hkeep after hafter,
    hkeep before fun hmem => hdisjoint _ hmem _ List.mem_cons_self rfl]
  rfl

theorem block?_mid (hf : f.Consistent) (hx : f.target? x = some dest) :
    g.block? mid = some {
      args := f.phisOn phi x
      terminator := some (.br dest (f.carried x ++ f.phisOn phi x))
      preds := [x] } := by
  have hmem := List.mem_singleton_self x
  refine block?_of_views (hs.takes x hmem) (hs.empty x hmem) ?_ (hs.preds?_mid hf hmem)
  rw [hs.leads x hmem, hx]
  rfl

theorem block?_old
    (hpreds : ∀ c, c ≠ mid → g.preds? c = (f.preds? c).map (predsVia x dest mid c)) {c : BlockId}
    (hc : c ≠ mid) : g.block? c = (f.block? c).map (blockVia x dest mid c) := by
  rcases hs.block_cases c with hold | ⟨y, hy, hmid⟩ | ⟨-, hfc, hgc⟩
  · rcases hdata : f.block? c with _ | data
    · have hdead : g.args? c = none := by rw [hs.args c hold, args?, hdata]; rfl
      rw [args?, Option.map_eq_none_iff] at hdead
      rw [hdead]
      rfl
    · have hargs : g.args? c = some data.args := (hs.args c hold).trans (args?_of hdata)
      have hinstrs : g.instrs? c = some data.instrs := (hs.lists c hold).trans (instrs?_of hdata)
      refine block?_of_views hargs hinstrs ?_ ?_
      · rw [hs.terminators c hold, terminator?_of hdata, blockVia]
        rcases Classical.em (c = x.block) with rfl | hne
        · rw [leadVia_singleton, unload_singleton, if_pos rfl]
        · rw [if_neg hne]
          rcases data.terminator with _ | t
          · rfl
          · rw [Option.map_some, mapEdges_via_of_notMem t]
            intro e he
            exact hne (congrArg Edge.block (List.mem_singleton.mp he))
      · rw [hpreds c hc, preds?_of hdata]
        rfl
  · exact absurd hmid.symm hc
  · rw [hfc, hgc]
    rfl

/-- The blocks on a single edge and the order of the incoming edges make up the whole body. -/
theorem edgeSplit (hf : f.Consistent) (hx : f.target? x = some dest)
    (hphi : ∀ j, phi x j = ⟨f.values.size + j⟩)
    (hpreds : ∀ c, c ≠ mid → g.preds? c = (f.preds? c).map (predsVia x dest mid c)) :
    f.EdgeSplit g x dest mid where
  id := hs.id
  name := hs.name
  layout := hs.exists_layout_eq hf
  size_blocks := hs.size_blocks
  explicit := by
    intro args hargs
    have hblock := hs.block?_mid hf hx
    have hsize := hs.size_values
    simp only [carried, copied, phisOn, hargs, List.length_nil, List.range_zero, List.map_nil,
      List.append_nil, List.map_cons, List.sum_cons, List.sum_nil] at hblock hsize
    exact ⟨hblock, hsize⟩
  implicit := by
    intro payload hargs
    obtain ⟨taken, htaken⟩ := Option.isSome_iff_exists.mp
      ((f.isSome_args? dest).trans (hf.edges.live_target hx))
    have hcopied : f.copied x = taken := by
      simp only [copied, hargs, hx, Option.bind_some, htaken, Option.getD_some]
    have hphis : f.phisOn phi x = f.nextValues taken.length := by
      rw [phisOn, hcopied, nextValues]
      exact List.map_congr_left fun j _ => hphi j
    have hblock := hs.block?_mid hf hx
    have hsize := hs.size_values
    simp only [carried, hargs, hphis, List.nil_append] at hblock
    simp only [hcopied, List.map_cons, List.map_nil, List.sum_cons, List.sum_nil, Nat.add_zero]
      at hsize
    refine ⟨taken, htaken, hblock, hsize, fun j v hj => ?_⟩
    rw [← hcopied] at hj
    obtain ⟨value, hvalue⟩ := Option.isSome_iff_exists.mp
      (hf.isLiveValue_of_mem_copied (List.mem_of_getElem? hj))
    refine ⟨value, hvalue, ?_⟩
    rw [← hphi, hs.copies x (List.mem_singleton_self x) j v hj, hvalue]
    rfl
  blocks := fun c => hs.block?_old hpreds
  instrs := hs.instrs
  values := hs.values

end SplitOn

end Body

/-- Putting a block on an edge of a well-built body succeeds while there are numbers for the block and its
phis, changes the body as `EdgeSplit` says, and leaves all else alone, whichever analyses are carried
along. -/
theorem WellBuilt.splitEdge_exact {f : Body} (hf : WellBuilt f) {b dest : BlockId} {e : Nat}
    {term : Terminator} (hterm : f.terminator? b = some term)
    (hdest : term.successors[e]? = some dest) (hroom : f.HasRoomFor [⟨b, e⟩]) :
    ∃ g, f.splitEdge b e = .ok (⟨f.blocks.size⟩, g) ∧
      (Tracked.bare f).splitEdge b e = .ok (⟨f.blocks.size⟩, .bare g) ∧
      f.EdgeSplit g ⟨b, e⟩ dest ⟨f.blocks.size⟩ ∧
      ∀ (t t' : Tracked) (mid : BlockId), t.body = f → t.splitEdge b e = .ok (mid, t') →
        mid = ⟨f.blocks.size⟩ ∧ t'.body = g := by
  have hx : f.target? ⟨b, e⟩ = some dest := Body.target?_eq_some.mpr ⟨term, hterm, hdest⟩
  rcases hf.consistent.splitEdge_cases hx with ⟨g, hrun, hs, hpreds⟩ | ⟨space, -, hfull⟩
  · have hbare := Tracked.bare_splitEdge (Option.isSome_iff_exists.mpr ⟨dest, hx⟩) hrun
    refine ⟨g, hrun, hbare, hs.edgeSplit hf.consistent hx (fun _ => rfl) hpreds, ?_⟩
    rintro t t' mid rfl ht
    have hsame := (Tracked.bare_of_splitEdge ht).symm.trans hbare
    simp only [Except.ok.injEq, Prod.mk.injEq, Tracked.bare, Tracked.mk.injEq, and_true] at hsame
    exact hsame
  · exact absurd hroom hfull

/-- A block whose case and default both lead back to it. -/
def selfSwitch : Body :=
  replayed [.createBlock, .createBlock,
    .addFunctionArg ⟨0⟩ .int .owned, .addPhi ⟨1⟩ .int .owned,
    .setTerminator ⟨0⟩ (.br ⟨1⟩ [⟨0⟩]),
    .setTerminator ⟨1⟩ (.switchEnum ⟨1⟩ [(0, ⟨1⟩)] (some ⟨1⟩))]

theorem selfSwitch_splitEdge_exact :
    ∃ g, selfSwitch.splitEdge ⟨1⟩ 1 = .ok (⟨2⟩, g) ∧
      g.block? ⟨1⟩ = some {
        args := [⟨1⟩]
        terminator := some (.switchEnum ⟨1⟩ [(0, ⟨1⟩)] (some ⟨2⟩))
        preds := [⟨⟨0⟩, 0⟩, ⟨⟨1⟩, 0⟩, ⟨⟨2⟩, 0⟩] } ∧
      g.block? ⟨2⟩ = some {
        args := [⟨2⟩]
        terminator := some (.br ⟨1⟩ [⟨2⟩])
        preds := [⟨⟨1⟩, 1⟩] } ∧
      g.value? ⟨2⟩ = some ⟨.int, .owned, .argument ⟨2⟩ 0 .phi⟩ := by
  have hf : WellBuilt selfSwitch := wellBuilt_replayed _
  have hterm : selfSwitch.terminator? ⟨1⟩ = some (.switchEnum ⟨1⟩ [(0, ⟨1⟩)] (some ⟨1⟩)) := by cbv
  have hblock : selfSwitch.block? ⟨1⟩ = some {
      args := [⟨1⟩]
      terminator := some (.switchEnum ⟨1⟩ [(0, ⟨1⟩)] (some ⟨1⟩))
      preds := [⟨⟨0⟩, 0⟩, ⟨⟨1⟩, 0⟩, ⟨⟨1⟩, 1⟩] } := by cbv
  obtain ⟨g, hrun, -, hg, -⟩ := WellBuilt.splitEdge_exact (e := 1) hf hterm rfl ⟨by cbv, by cbv⟩
  obtain ⟨taken, htaken, hmid, -, hphis⟩ := hg.implicit .none (by cbv)
  have hown : selfSwitch.args? ⟨1⟩ = some [⟨1⟩] := by cbv
  cases hown.symm.trans htaken
  obtain ⟨value, hvalue, hphi⟩ := hphis 0 ⟨1⟩ rfl
  have hold : selfSwitch.value? ⟨1⟩ = some ⟨.int, .owned, .argument ⟨1⟩ 0 .phi⟩ := by cbv
  cases hold.symm.trans hvalue
  refine ⟨g, hrun, ?_, hmid, hphi⟩
  rw [hg.blocks ⟨1⟩ (by decide), hblock]
  decide

end FlowGraph
