import Mathlib.Algebra.Order.BigOperators.Group.List
import Mathlib.Algebra.Order.Group.Nat
import FlowGraph.Proofs.Edit.Interpose
import FlowGraph.Proofs.History

/-!
Putting a block on every critical edge. A block on one edge makes no other edge critical and leaves no
other edge uncritical, so what is split does not depend on what has been split before: the edges that
get a block are the edges that were critical at the start.
-/

namespace FlowGraph

namespace Body

variable {f g : Body} {b dest : BlockId} {x y : Edge} {edges edges' : List Edge} {t : Terminator}
  {mid : Edge → BlockId} {phi : Edge → Nat → ValueId}

/-- Whether an edge is critical; a missing edge is not. -/
def isCritical (f : Body) (x : Edge) : Bool :=
  match f.isCriticalEdge x.block x.index with
  | .ok critical => critical
  | .error _ => false

/-- The edges of the blocks of the layout. -/
def edgeList (f : Body) : List Edge := f.edgeTargets.map Prod.snd

theorem mem_edgeList (hf : f.LayoutListed) : x ∈ f.edgeList ↔ (f.target? x).isSome = true := by
  rw [edgeList, Option.isSome_iff_exists]
  constructor
  · intro hx
    obtain ⟨⟨dest, y⟩, hmem, rfl⟩ := List.mem_map.mp hx
    have hcount := count_edgeTargets hf dest y
    have hpos := List.count_pos_iff.mpr hmem
    split at hcount
    · exact ⟨dest, ‹_›⟩
    · omega
  · rintro ⟨dest, hdest⟩
    refine List.mem_map.mpr ⟨(dest, x), List.count_pos_iff.mp ?_, rfl⟩
    rw [count_edgeTargets hf, if_pos hdest]
    exact Nat.one_pos

theorem nodup_edgeList (hf : f.LayoutListed) : f.edgeList.Nodup := by
  have htarget : ∀ p ∈ f.edgeTargets, f.target? p.2 = some p.1 := by
    rintro ⟨dest, y⟩ hmem
    have hcount := count_edgeTargets hf dest y
    have hpos := List.count_pos_iff.mpr hmem
    split at hcount
    · assumption
    · omega
  refine List.Nodup.map_on ?_ ?_
  · intro p hp q hq heq
    have hsame := htarget p hp
    rw [heq, htarget q hq] at hsame
    exact Prod.ext (Option.some.inj hsame).symm heq
  · rw [List.nodup_iff_count_le_one]
    rintro ⟨dest, y⟩
    rw [count_edgeTargets hf]
    split <;> omega

theorem isCriticalEdge_of (ht : f.terminator? x.block = some t)
    (hdest : t.successors[x.index]? = some dest) {preds : List Edge}
    (hpreds : f.preds? dest = some preds) :
    f.isCriticalEdge x.block x.index = .ok (decide (1 < t.numEdges) && decide (1 < preds.length)) := by
  rw [isCriticalEdge, terminator_eq_ok.mpr (terminator?_eq_some.mp ht), ok_bind,
    Terminator.successor_eq_ok.mpr hdest, ok_bind,
    predecessors_eq_ok.mpr (preds?_eq_some.mp hpreds), ok_bind]
  rcases Nat.lt_or_ge 1 t.numEdges with hlt | hge
  · rw [if_neg (Nat.not_le.mpr hlt), decide_eq_true hlt, Bool.true_and]
    rfl
  · rw [if_pos hge, decide_eq_false (Nat.not_lt.mpr hge), Bool.false_and]
    rfl

theorem Consistent.isCriticalEdge_eq (hf : f.Consistent) (hx : (f.target? x).isSome = true) :
    f.isCriticalEdge x.block x.index = .ok (f.isCritical x) := by
  obtain ⟨dest, hdest⟩ := Option.isSome_iff_exists.mp hx
  obtain ⟨t, ht, hs⟩ := target?_eq_some.mp hdest
  obtain ⟨data, hdata⟩ := isLiveBlock_iff.mp (hf.edges.live_target hdest)
  rw [isCritical, isCriticalEdge_of ht hs (preds?_of hdata)]

theorem isSome_target?_of_isCriticalEdge (hx : f.isCriticalEdge x.block x.index = .ok true) :
    (f.target? x).isSome = true := by
  simp only [isCriticalEdge, bind_eq_ok] at hx
  obtain ⟨t, ht, hx⟩ := hx
  split at hx
  · cases hx
  · obtain ⟨dest, hdest, -⟩ := bind_eq_ok.mp hx
    rw [Option.isSome_iff_exists]
    exact ⟨dest, target?_eq_some.mpr ⟨t, terminator?_eq_some.mpr (terminator_eq_ok.mp ht),
      Terminator.successor_eq_ok.mp hdest⟩⟩

theorem isCritical_iff : f.isCritical x = true ↔ f.isCriticalEdge x.block x.index = .ok true := by
  unfold isCritical
  rcases f.isCriticalEdge x.block x.index with fault | critical <;> simp

theorem Consistent.isCritical_iff (hf : f.Consistent) :
    f.isCritical x = true ↔ ∃ t dest preds, f.terminator? x.block = some t ∧
      f.target? x = some dest ∧ f.preds? dest = some preds ∧ 1 < t.numEdges ∧ 1 < preds.length := by
  have hvalue : ∀ {t dest preds}, f.terminator? x.block = some t → f.target? x = some dest →
      f.preds? dest = some preds →
      f.isCritical x = (decide (1 < t.numEdges) && decide (1 < preds.length)) := by
    intro t dest preds ht hdest hpreds
    obtain ⟨u, hu, hs⟩ := target?_eq_some.mp hdest
    cases ht.symm.trans hu
    rw [isCritical, isCriticalEdge_of ht hs hpreds]
  constructor
  · intro hx
    obtain ⟨dest, hdest⟩ := Option.isSome_iff_exists.mp
      (isSome_target?_of_isCriticalEdge (Body.isCritical_iff.mp hx))
    obtain ⟨t, ht, -⟩ := target?_eq_some.mp hdest
    obtain ⟨data, hdata⟩ := isLiveBlock_iff.mp (hf.edges.live_target hdest)
    rw [hvalue ht hdest (preds?_of hdata), Bool.and_eq_true] at hx
    exact ⟨t, dest, data.preds, ht, hdest, preds?_of hdata, of_decide_eq_true hx.1,
      of_decide_eq_true hx.2⟩
  · rintro ⟨t, dest, preds, ht, hdest, hpreds, hedges, hlength⟩
    rw [hvalue ht hdest hpreds, decide_eq_true hedges, decide_eq_true hlength]
    rfl

/-- The edge by which the target of `x` is reached once blocks stand on the given edges. -/
def hop (edges : List Edge) (mid : Edge → BlockId) (x : Edge) : Edge :=
  if x ∈ edges then ⟨mid x, 0⟩ else x

namespace SplitOn

variable (hs : f.SplitOn g edges mid phi)
include hs

theorem target?_eq_some_iff :
    g.target? y = some dest ↔ y ∈ edges ∧ mid y = dest ∨ y ∉ edges ∧ f.target? y = some dest ∨
      ∃ x ∈ edges, y = ⟨mid x, 0⟩ ∧ f.target? x = some dest := by
  constructor
  · intro hy
    rcases Classical.em (y ∈ edges) with hmem | hmem
    · rw [hs.target?_of_mem hmem] at hy
      exact .inl ⟨hmem, Option.some.inj hy⟩
    · rcases hs.block_cases y.block with hold | ⟨x, hx, hmid⟩ | ⟨-, -, hnone⟩
      · rw [hs.target?_of_notMem hmem hold] at hy
        exact .inr (.inl ⟨hmem, hy⟩)
      · obtain ⟨c, k⟩ := y
        cases hmid
        rw [hs.target?_mid hx] at hy
        split at hy
        · rename_i hk
          exact .inr (.inr ⟨x, hx, by rw [hk], hy⟩)
        · cases hy
      · rw [Body.target?, terminator?, hnone] at hy
        cases hy
  · rintro (⟨hmem, rfl⟩ | ⟨hmem, hy⟩ | ⟨x, hx, rfl, hdest⟩)
    · exact hs.target?_of_mem hmem
    · rw [hs.target?_of_notMem hmem (lt_size_of_target? (hy ▸ rfl)), hy]
    · rw [hs.target?_mid hx, if_pos rfl, hdest]

theorem hop_inj (hx : (f.target? x).isSome = true) (hy : (f.target? y).isSome = true)
    (heq : hop edges mid x = hop edges mid y) : x = y := by
  have hne : ∀ x y, (f.target? x).isSome = true → y ∈ edges → x ≠ ⟨mid y, 0⟩ := by
    rintro x y hx hy rfl
    exact Nat.not_lt.mpr (hs.lt_mid hy).1 (lt_size_of_target? hx)
  unfold hop at heq
  split at heq <;> split at heq
  · rename_i hx hy
    exact hs.mid_inj x hx y hy (congrArg Edge.block heq)
  · rename_i hx' hy'
    exact absurd heq.symm (hne y x hy hx')
  · rename_i hx' hy'
    exact absurd heq (hne x y hx hy')
  · exact heq

theorem perm_preds (hf : f.Consistent) {preds preds' : List Edge} (hb : f.preds? b = some preds)
    (hb' : g.preds? b = some preds') : preds'.Perm (preds.map (hop edges mid)) := by
  have hold : b.index < f.blocks.size := by
    obtain ⟨data, hdata, -⟩ := preds?_eq_some.mp hb
    exact lt_size_of_isLiveBlock (isLiveBlock_of hdata)
  have hedge : ∀ x ∈ preds, (f.target? x).isSome = true := by
    intro x hx
    rw [(hf.edges.mem_preds hb).mp hx]
    rfl
  rw [List.perm_ext_iff_of_nodup (hs.consistent.edges.nodup_preds hb')
    ((hf.edges.nodup_preds hb).map_on fun x hx y hy => hs.hop_inj (hedge x hx) (hedge y hy))]
  intro y
  rw [hs.consistent.edges.mem_preds hb', hs.target?_eq_some_iff, List.mem_map]
  simp only [hf.edges.mem_preds hb]
  constructor
  · rintro (⟨hmem, hmid⟩ | ⟨hmem, hy⟩ | ⟨x, hx, rfl, hdest⟩)
    · exact absurd hmid.symm (hs.ne_mid hold hmem)
    · exact ⟨y, hy, if_neg hmem⟩
    · exact ⟨x, hdest, if_pos hx⟩
  · rintro ⟨x, hx, rfl⟩
    unfold hop
    split
    · rename_i hmem
      exact .inr (.inr ⟨x, hmem, rfl, hx⟩)
    · rename_i hmem
      exact .inr (.inl ⟨hmem, hx⟩)

theorem preds?_mid (hf : f.Consistent) (hx : x ∈ edges) : g.preds? (mid x) = some [x] := by
  have htarget := hs.target?_of_mem hx
  obtain ⟨data, hdata⟩ := isLiveBlock_iff.mp (hs.consistent.edges.live_target htarget)
  have hpreds := preds?_of hdata
  have hdead : ∀ y, f.target? y ≠ some (mid x) := by
    intro y hy
    exact hs.ne_mid (lt_size_of_isLiveBlock (hf.edges.live_target hy)) hx rfl
  rw [hpreds, Option.some.injEq, ← List.perm_singleton,
    List.perm_ext_iff_of_nodup (hs.consistent.edges.nodup_preds hpreds) (List.nodup_singleton x)]
  intro y
  rw [hs.consistent.edges.mem_preds hpreds, hs.target?_eq_some_iff, List.mem_singleton]
  constructor
  · rintro (⟨hmem, hmid⟩ | ⟨-, hy⟩ | ⟨z, -, -, hz⟩)
    · exact hs.mid_inj y hmem x hx hmid
    · exact absurd hy (hdead y)
    · exact absurd hz (hdead z)
  · rintro rfl
    exact .inl ⟨hx, rfl⟩

theorem perm_layout (hf : f.Consistent) : g.layout.Perm (f.layout ++ edges.map mid) := by
  have hnodup : (f.layout ++ edges.map mid).Nodup := by
    refine List.nodup_append.mpr ⟨hf.layout.nodup, hs.nodup.map_on hs.mid_inj, ?_⟩
    rintro c hc _ hd rfl
    obtain ⟨x, hx, rfl⟩ := List.mem_map.mp hd
    exact hs.ne_mid (lt_size_of_isLiveBlock ((hf.layout.mem_iff _).mp hc)) hx rfl
  rw [List.perm_ext_iff_of_nodup hs.consistent.layout.nodup hnodup]
  intro c
  rw [hs.consistent.layout.mem_iff, List.mem_append, hf.layout.mem_iff, List.mem_map,
    ← isSome_args?, ← isSome_args?]
  rcases hs.block_cases c with hold | ⟨x, hx, rfl⟩ | ⟨hne, hnone, hnone'⟩
  · rw [hs.args c hold]
    refine (or_iff_left ?_).symm
    rintro ⟨x, hx, rfl⟩
    exact hs.ne_mid hold hx rfl
  · rw [hs.takes x hx]
    exact iff_of_true rfl (.inr ⟨x, hx, rfl⟩)
  · refine iff_of_false (by simp [args?, hnone']) ?_
    rintro (hlive | ⟨x, hx, rfl⟩)
    · simp [args?, hnone] at hlive
    · exact hne x hx rfl

/-- The critical edges after a split are the critical edges on which no block was put. -/
theorem isCritical_iff (hf : f.Consistent) :
    g.isCritical y = true ↔ y ∉ edges ∧ f.isCritical y = true := by
  rw [hs.consistent.isCritical_iff, hf.isCritical_iff]
  constructor
  · rintro ⟨t', dest, preds', ht', hdest, hpreds', hedges, hlength⟩
    rcases hs.target?_eq_some_iff.mp hdest with
      ⟨hmem, rfl⟩ | ⟨hmem, hy⟩ | ⟨x, hx, rfl, -⟩
    · rw [hs.preds?_mid hf hmem] at hpreds'
      cases hpreds'
      exact absurd hlength (Nat.lt_irrefl 1)
    · obtain ⟨t, ht, -⟩ := target?_eq_some.mp hy
      obtain ⟨data, hdata⟩ := isLiveBlock_iff.mp (hf.edges.live_target hy)
      rw [hs.terminators _ (lt_size_of_target? (hy ▸ rfl)), ht] at ht'
      cases ht'
      refine ⟨hmem, t, dest, data.preds, ht, hy, preds?_of hdata, by simpa using hedges, ?_⟩
      simpa [(hs.perm_preds hf (preds?_of hdata) hpreds').length_eq] using hlength
    · obtain ⟨u, hu⟩ := Option.isSome_iff_exists.mp (hs.edge x hx)
      rw [hs.leads x hx, hu] at ht'
      cases ht'
      exact absurd hedges (Nat.lt_irrefl 1)
  · rintro ⟨hmem, t, dest, preds, ht, hdest, hpreds, hedges, hlength⟩
    have hold := lt_size_of_target? (f := f) (x := y) (hdest ▸ rfl)
    have hdest' : g.target? y = some dest := (hs.target?_of_notMem hmem hold).trans hdest
    obtain ⟨data, hdata⟩ := isLiveBlock_iff.mp (hs.consistent.edges.live_target hdest')
    have ht' := hs.terminators y.block hold
    rw [ht, Option.map_some] at ht'
    refine ⟨_, dest, data.preds, ht', hdest', preds?_of hdata, ?_, ?_⟩
    · simpa using hedges
    · simpa [(hs.perm_preds hf hpreds (preds?_of hdata)).length_eq] using hlength

end SplitOn

theorem edgesFrom_of {data : Block} (hdata : f.block? b = some data) :
    (f.edgesFrom b).map Prod.snd = (List.range data.successors.length).map (Edge.mk b) := by
  rw [edgesFrom, hdata, List.map_map, List.range_eq_range', ← List.zipIdx_map_snd, List.map_map]
  rfl

theorem Consistent.criticalEdges_eq (hf : f.Consistent) :
    f.criticalEdges = .ok (f.edgeList.filter f.isCritical) := by
  have hblock : ∀ b ∈ f.layout, (do
      let edges := (← f.successors b).zipIdx.map Prod.snd
      return (← edges.filterM (f.isCriticalEdge b)).map (Edge.mk b)) =
        .ok (((f.edgesFrom b).map Prod.snd).filter f.isCritical) := by
    intro b hb
    obtain ⟨data, hdata⟩ := isLiveBlock_iff.mp ((hf.layout.mem_iff b).mp hb)
    have hcritical : ∀ e ∈ List.range data.successors.length,
        f.isCriticalEdge b e = .ok (f.isCritical ⟨b, e⟩) := by
      intro e he
      refine hf.isCriticalEdge_eq (x := ⟨b, e⟩) ?_
      rw [target?_of hdata]
      simpa using he
    rw [successors_eq_ok.mpr ⟨data, hdata, rfl⟩, ok_bind]
    simp only [List.zipIdx_map_snd, ← List.range_eq_range', filterM_eq_ok hcritical, ok_bind]
    rw [edgesFrom_of hdata, List.filter_map]
    rfl
  rw [criticalEdges, mapM_eq_ok hblock, ok_bind, edgeList, edgeTargets, List.map_flatMap,
    List.filter_flatMap, List.flatMap]
  rfl

theorem HasRoomFor.mono (hroom : f.HasRoomFor edges') (hsub : edges.Sublist edges') :
    f.HasRoomFor edges := by
  have hlength := hsub.length_le
  have hsum := (hsub.map fun x => (f.copied x).length).sum_le_sum fun _ _ => Nat.zero_le _
  obtain ⟨hblocks, hvalues⟩ := hroom
  constructor <;> omega

theorem SplitOn.hasRoomFor (hs : f.SplitOn g edges mid phi) (hf : f.Consistent) (hx : x ∉ edges)
    (hedge : (f.target? x).isSome = true) (hroom : f.HasRoomFor (edges ++ [x])) :
    g.HasRoomFor [x] := by
  obtain ⟨hblocks, hvalues⟩ := hroom
  simp only [List.length_append, List.map_append, List.sum_append, List.length_singleton,
    List.map_cons, List.map_nil, List.sum_singleton] at hblocks hvalues
  simp only [HasRoomFor, hs.size_blocks, hs.size_values, hs.copied_of_notMem hf hx hedge,
    List.length_singleton, List.map_cons, List.map_nil, List.sum_singleton]
  omega

theorem SplitOn.exists_splitEdge (hs : f.SplitOn g edges mid phi) (hf : f.Consistent)
    (hx : x ∉ edges) (hedge : (f.target? x).isSome = true)
    (hroom : f.HasRoomFor (edges ++ [x])) :
    ∃ g' mid' phi', g.splitEdge x.block x.index = .ok (g.nextBlock, g') ∧
      f.SplitOn g' (edges ++ [x]) mid' phi' := by
  obtain ⟨dest, hdest⟩ := Option.isSome_iff_exists.mp hedge
  have hdest' := (hs.target?_of_notMem hx (lt_size_of_target? hedge)).trans hdest
  rcases hs.consistent.splitEdge_cases hdest' with ⟨g', hrun, hs', -⟩ | ⟨space, -, hfull⟩
  · refine ⟨g', _, _, hrun, hs.trans hs' (fun y hy => ?_) hf fun y hy => ?_⟩
    · rwa [List.mem_singleton.mp hy]
    · rwa [List.mem_singleton.mp hy]
  · exact absurd (hs.hasRoomFor hf hx hedge hroom) hfull

theorem SplitOn.exists_successors (hs : f.SplitOn g edges mid phi) {b : BlockId} {data : Block}
    (hb : f.block? b = some data) :
    ∃ successors, g.successors b = .ok successors ∧
      successors.length = data.successors.length := by
  have hold := lt_size_of_isLiveBlock (isLiveBlock_of hb)
  obtain ⟨data', hb', -⟩ := args?_eq_some.mp ((hs.args b hold).trans (args?_of hb))
  refine ⟨data'.successors, successors_eq_ok.mpr ⟨data', hb', rfl⟩, ?_⟩
  have hterm := hs.terminators b hold
  rw [terminator?_of hb', terminator?_of hb] at hterm
  rw [Block.successors, hterm, Block.successors]
  rcases data.terminator with _ | term
  · rfl
  · simp [Terminator.length_successors]

end Body

namespace Tracked

variable {t t' : Tracked} {f g : Body} {b : BlockId} {e : Nat} {x : Edge} {edges : List Edge}
  {mid : Edge → BlockId} {phi : Edge → Nat → ValueId}

def bare (f : Body) : Tracked := { body := f }

theorem bare_splitEdge {m : BlockId} (hx : (f.target? x).isSome = true)
    (hrun : f.splitEdge x.block x.index = .ok (m, g)) :
    (bare f).splitEdge x.block x.index = .ok (m, bare g) := by
  obtain ⟨dest, hdest⟩ := Option.isSome_iff_exists.mp hx
  obtain ⟨term, hterm, hs⟩ := Body.target?_eq_some.mp hdest
  rw [splitEdge, bare, Body.terminator_eq_ok.mpr (Body.terminator?_eq_some.mp hterm), ok_bind,
    Terminator.successor_eq_ok.mpr hs, ok_bind, hrun, ok_bind]
  rfl

/-- Put a new block on those of the given edges that are critical when their turn comes. -/
def splitCriticalOn (t : Tracked) : List Edge → Except Fault (Bool × Tracked)
  | [] => .ok (false, t)
  | x :: rest => do
    let (mid, t) ← t.splitCriticalEdge x.block x.index
    let (changed, t) ← t.splitCriticalOn rest
    return (mid.isSome || changed, t)

theorem splitCriticalEach_eq (t : Tracked) (b : BlockId) (numbers : List Nat) :
    t.splitCriticalEach b numbers = t.splitCriticalOn (numbers.map (Edge.mk b)) := by
  induction numbers generalizing t with
  | nil => rfl
  | cons e rest ih =>
      rw [splitCriticalEach, List.map_cons, splitCriticalOn]
      simp only [ih]

theorem exists_splitCriticalEdge (hf : f.Consistent) (hs : f.SplitOn g edges mid phi)
    (hx : x ∉ edges) (hedge : (f.target? x).isSome = true)
    (hroom : f.HasRoomFor (edges ++ [x].filter f.isCritical)) :
    ∃ made g' mid' phi',
      (bare g).splitCriticalEdge x.block x.index = .ok (made, bare g') ∧
        made.isSome = f.isCritical x ∧
        f.SplitOn g' (edges ++ [x].filter f.isCritical) mid' phi' := by
  have hedge' : (g.target? x).isSome = true := by
    rwa [hs.target?_of_notMem hx (Body.lt_size_of_target? hedge)]
  have hsame : g.isCritical x = f.isCritical x := by
    rw [Bool.eq_iff_iff, hs.isCritical_iff hf]
    exact and_iff_right hx
  have hturn : (bare g).body.isCriticalEdge x.block x.index = .ok (f.isCritical x) :=
    hsame ▸ hs.consistent.isCriticalEdge_eq hedge'
  rw [splitCriticalEdge, hturn, ok_bind]
  rcases hcritical : f.isCritical x with _ | _
  · refine ⟨none, g, mid, phi, rfl, rfl, ?_⟩
    rwa [List.filter_cons_of_neg (by simp [hcritical]), List.filter_nil, List.append_nil]
  · have hone : [x].filter f.isCritical = [x] := by simp [hcritical]
    rw [hone] at hroom ⊢
    obtain ⟨g', mid', phi', hrun, hs'⟩ := hs.exists_splitEdge hf hx hedge hroom
    refine ⟨some g.nextBlock, g', mid', phi', ?_, rfl, hs'⟩
    rw [if_pos rfl, bare_splitEdge hedge' hrun]
    rfl

theorem nodup_filter_middle {first second third : List Edge}
    (h : (first ++ second ++ third).Nodup) (p : Edge → Bool) :
    (first ++ second.filter p ++ third).Nodup :=
  h.sublist (((List.Sublist.refl first).append List.filter_sublist).append (.refl third))

/-- All turns: the edges that get a block are those that were critical at the start. -/
theorem exists_splitCriticalOn (hf : f.Consistent) (hs : f.SplitOn g edges mid phi)
    {visit : List Edge} (hnodup : (edges ++ visit).Nodup)
    (hedge : ∀ x ∈ visit, (f.target? x).isSome = true)
    (hroom : f.HasRoomFor (edges ++ visit.filter f.isCritical)) :
    ∃ g' mid' phi', (bare g).splitCriticalOn visit = .ok (visit.any f.isCritical, bare g') ∧
      f.SplitOn g' (edges ++ visit.filter f.isCritical) mid' phi' := by
  induction visit generalizing g edges mid phi with
  | nil => exact ⟨g, mid, phi, rfl, by rwa [List.filter_nil, List.append_nil]⟩
  | cons x rest ih =>
      rw [List.forall_mem_cons] at hedge
      have hx : x ∉ edges := fun hmem =>
        (List.nodup_append.mp hnodup).2.2 x hmem x List.mem_cons_self rfl
      have hfilter : edges ++ (x :: rest).filter f.isCritical =
          edges ++ [x].filter f.isCritical ++ rest.filter f.isCritical := by
        rw [← List.singleton_append, List.filter_append, List.append_assoc]
      rw [hfilter] at hroom ⊢
      obtain ⟨made, g', mid', phi', hrun, hmade, hs'⟩ := exists_splitCriticalEdge hf hs hx hedge.1
        (hroom.mono (List.sublist_append_left _ _))
      rw [← List.singleton_append, ← List.append_assoc] at hnodup
      obtain ⟨last, mid'', phi'', hrest, hlast⟩ :=
        ih hs' (nodup_filter_middle hnodup f.isCritical) hedge.2 hroom
      refine ⟨last, mid'', phi'', ?_, hlast⟩
      rw [splitCriticalOn, hrun, ok_bind]
      simp only [hrest, ok_bind, hmade]
      rfl

theorem exists_splitCriticalFrom (hf : f.Consistent) (hs : f.SplitOn g edges mid phi)
    {blocks : List BlockId} (hlive : ∀ b ∈ blocks, f.isLiveBlock b = true)
    (hnodup : (edges ++ (blocks.flatMap f.edgesFrom).map Prod.snd).Nodup)
    (hroom : f.HasRoomFor
      (edges ++ ((blocks.flatMap f.edgesFrom).map Prod.snd).filter f.isCritical)) :
    ∃ g' mid' phi', (bare g).splitCriticalFrom blocks =
        .ok (((blocks.flatMap f.edgesFrom).map Prod.snd).any f.isCritical, bare g') ∧
      f.SplitOn g' (edges ++ ((blocks.flatMap f.edgesFrom).map Prod.snd).filter f.isCritical) mid'
        phi' := by
  induction blocks generalizing g edges mid phi with
  | nil => exact ⟨g, mid, phi, rfl, by simpa using hs⟩
  | cons b rest ih =>
      rw [List.forall_mem_cons] at hlive
      obtain ⟨data, hdata⟩ := Body.isLiveBlock_iff.mp hlive.1
      obtain ⟨successors, hsuccessors, hlength⟩ := hs.exists_successors hdata
      rw [List.flatMap_cons, List.map_append, ← List.append_assoc] at hnodup
      rw [List.flatMap_cons, List.map_append, List.filter_append, ← List.append_assoc] at hroom
      rw [List.flatMap_cons, List.map_append, List.filter_append, ← List.append_assoc, List.any_append]
      have hedge : ∀ x ∈ (f.edgesFrom b).map Prod.snd, (f.target? x).isSome = true := by
        intro x hx
        rw [Body.edgesFrom_of hdata] at hx
        obtain ⟨e, he, rfl⟩ := List.mem_map.mp hx
        rw [Body.target?_of hdata]
        simpa using he
      obtain ⟨g', mid', phi', hrun, hs'⟩ := exists_splitCriticalOn hf hs
        (List.nodup_append.mp hnodup).1 hedge (hroom.mono (List.sublist_append_left _ _))
      obtain ⟨last, mid'', phi'', hrest, hlast⟩ :=
        ih hs' hlive.2 (nodup_filter_middle hnodup f.isCritical) hroom
      refine ⟨last, mid'', phi'', ?_, hlast⟩
      rw [Body.edgesFrom_of hdata, ← hlength, ← splitCriticalEach_eq] at hrun
      rw [splitCriticalFrom, bare, hsuccessors, ok_bind]
      change (bare g).splitCriticalEach b _ >>= _ = _
      rw [hrun, ok_bind]
      simp only [hrest, ok_bind]
      rw [Body.edgesFrom_of hdata, ← hlength]
      rfl

section Uncritical

variable (ht : t.body.Consistent) (hnone : ∀ x, t.body.isCritical x = false)
include ht hnone

theorem splitCriticalOn_of_uncritical {visit : List Edge}
    (hedge : ∀ x ∈ visit, (t.body.target? x).isSome = true) :
    t.splitCriticalOn visit = .ok (false, t) := by
  induction visit with
  | nil => rfl
  | cons x rest ih =>
      rw [List.forall_mem_cons] at hedge
      have hturn : t.splitCriticalEdge x.block x.index = .ok (none, t) := by
        rw [splitCriticalEdge, ht.isCriticalEdge_eq hedge.1, hnone, ok_bind]
        rfl
      rw [splitCriticalOn, hturn, ok_bind]
      simp only [ih hedge.2, ok_bind]
      rfl

theorem splitCriticalFrom_of_uncritical {blocks : List BlockId}
    (hlive : ∀ b ∈ blocks, t.body.isLiveBlock b = true) :
    t.splitCriticalFrom blocks = .ok (false, t) := by
  induction blocks with
  | nil => rfl
  | cons b rest ih =>
      rw [List.forall_mem_cons] at hlive
      obtain ⟨data, hdata⟩ := Body.isLiveBlock_iff.mp hlive.1
      have hedge : ∀ x ∈ (List.range data.successors.length).map (Edge.mk b),
          (t.body.target? x).isSome = true := by
        intro x hx
        obtain ⟨e, he, rfl⟩ := List.mem_map.mp hx
        rw [Body.target?_of hdata]
        simpa using he
      have hturns := splitCriticalOn_of_uncritical ht hnone hedge
      rw [← splitCriticalEach_eq] at hturns
      rw [splitCriticalFrom, Body.successors_eq_ok.mpr ⟨data, hdata, rfl⟩, ok_bind]
      simp only [hturns, ok_bind, ih hlive.2]
      rfl

end Uncritical

theorem bare_of_splitEdge {m : BlockId} (hrun : t.splitEdge b e = .ok (m, t')) :
    (bare t.body).splitEdge b e = .ok (m, bare t'.body) := by
  simp only [splitEdge, bind_eq_ok] at hrun
  obtain ⟨term, hterm, dest, hdest, ⟨m', g⟩, hsplit, d, -, forest, -, hret⟩ := hrun
  cases hret
  rw [splitEdge, bare, hterm, ok_bind, hdest, ok_bind, hsplit, ok_bind]
  rfl

theorem bare_of_splitCriticalEdge {made : Option BlockId}
    (hrun : t.splitCriticalEdge b e = .ok (made, t')) :
    (bare t.body).splitCriticalEdge b e = .ok (made, bare t'.body) := by
  simp only [splitCriticalEdge, bind_eq_ok] at hrun
  obtain ⟨critical, hcritical, hrun⟩ := hrun
  rw [splitCriticalEdge, show (bare t.body).body = t.body from rfl, hcritical, ok_bind]
  rcases critical with _ | _
  · cases hrun
    rfl
  · obtain ⟨⟨m, t''⟩, hsplit, hret⟩ := bind_eq_ok.mp hrun
    cases hret
    rw [if_pos rfl, bare_of_splitEdge hsplit]
    rfl

theorem bare_of_splitCriticalOn {visit : List Edge} {changed : Bool}
    (hrun : t.splitCriticalOn visit = .ok (changed, t')) :
    (bare t.body).splitCriticalOn visit = .ok (changed, bare t'.body) := by
  induction visit generalizing t changed with
  | nil =>
      cases hrun
      rfl
  | cons x rest ih =>
      simp only [splitCriticalOn, bind_eq_ok] at hrun
      obtain ⟨⟨made, t''⟩, hturn, ⟨later, last⟩, hrest, hret⟩ := hrun
      cases hret
      rw [splitCriticalOn, bare_of_splitCriticalEdge hturn, ok_bind]
      simp only [ih hrest, ok_bind]
      rfl

/-- Analyses can stop a run, but they do not change what it does to the body. -/
theorem bare_of_splitCriticalFrom {blocks : List BlockId} {changed : Bool}
    (hrun : t.splitCriticalFrom blocks = .ok (changed, t')) :
    (bare t.body).splitCriticalFrom blocks = .ok (changed, bare t'.body) := by
  induction blocks generalizing t changed with
  | nil =>
      cases hrun
      rfl
  | cons b rest ih =>
      simp only [splitCriticalFrom, splitCriticalEach_eq, bind_eq_ok] at hrun
      obtain ⟨successors, hsuccessors, ⟨here, t''⟩, hturns, ⟨there, last⟩, hrest, hret⟩ := hrun
      cases hret
      rw [splitCriticalFrom, show (bare t.body).body = t.body from rfl, hsuccessors, ok_bind]
      simp only [splitCriticalEach_eq, bare_of_splitCriticalOn hturns, ok_bind, ih hrest]
      rfl

end Tracked

/-- Blocks are put on the critical edges and on no others: one on each, if there are numbers for them.
Afterwards no edge is critical, and asking again changes nothing. Analyses that are to be kept in step
do not change what becomes of the body. -/
theorem WellBuilt.splitAllCriticalEdges_exact {f : Body} (hf : WellBuilt f) :
    ∃ critical, f.criticalEdges = .ok critical ∧ critical.Nodup ∧
      (∀ x, x ∈ critical ↔ f.isCriticalEdge x.block x.index = .ok true) ∧
      (f.HasRoomFor critical → ∃ g mid phi,
        (Tracked.bare f).splitAllCriticalEdges = .ok (!critical.isEmpty, .bare g) ∧
        f.SplitOn g critical mid phi ∧ g.layout.Perm (f.layout ++ critical.map mid) ∧
        (∀ x, (g.target? x).isSome = true → g.isCriticalEdge x.block x.index = .ok false) ∧
        (∀ t : Tracked, t.body = g → t.splitAllCriticalEdges = .ok (false, t)) ∧
        ∀ (t t' : Tracked) (changed : Bool), t.body = f →
          t.splitAllCriticalEdges = .ok (changed, t') →
            changed = !critical.isEmpty ∧ t'.body = g) := by
  have hc := hf.consistent
  have hmem : ∀ x, x ∈ f.edgeList.filter f.isCritical ↔
      f.isCriticalEdge x.block x.index = .ok true := by
    intro x
    rw [List.mem_filter, Body.mem_edgeList hc.layout, Body.isCritical_iff]
    exact and_iff_right_of_imp Body.isSome_target?_of_isCriticalEdge
  refine ⟨_, hc.criticalEdges_eq, (Body.nodup_edgeList hc.layout).filter _, hmem, fun hroom => ?_⟩
  obtain ⟨g, mid, phi, hrun, hs⟩ := Tracked.exists_splitCriticalFrom hc
    (hc.splitOn_nil (fun _ => ⟨0⟩) fun _ _ => ⟨0⟩) (fun b hb => (hc.layout.mem_iff b).mp hb)
    (Body.nodup_edgeList hc.layout) hroom
  have hflag : f.edgeList.any f.isCritical = !(f.edgeList.filter f.isCritical).isEmpty := by
    rw [Bool.eq_iff_iff]
    simp [List.filter_eq_nil_iff]
  have hrun : (Tracked.bare f).splitAllCriticalEdges =
      .ok (!(f.edgeList.filter f.isCritical).isEmpty, .bare g) := hflag ▸ hrun
  have hnone : ∀ x, g.isCritical x = false := by
    intro x
    rw [Bool.eq_false_iff, ne_eq, hs.isCritical_iff hc]
    rintro ⟨hx, hcritical⟩
    exact hx ((hmem x).mpr (Body.isCritical_iff.mp hcritical))
  refine ⟨g, mid, phi, hrun, hs, hs.perm_layout hc, fun x hx => ?_, ?_, ?_⟩
  · rw [hs.consistent.isCriticalEdge_eq hx, hnone]
  · rintro t rfl
    exact Tracked.splitCriticalFrom_of_uncritical hs.consistent hnone fun b hb =>
      (hs.consistent.layout.mem_iff b).mp hb
  · rintro t t' changed rfl hrun'
    cases hrun.symm.trans (Tracked.bare_of_splitCriticalFrom hrun')
    exact ⟨rfl, rfl⟩

/-- A call that may throw, whose error edge and whose normal path meet in a block without
terminator. -/
def openCall : Body :=
  replayed [.createBlock, .createBlock, .createBlock,
    .addFunctionArg ⟨0⟩ .int .guaranteed, .addPhi ⟨1⟩ .error .owned, .addPhi ⟨2⟩ .error .owned,
    .setTerminator ⟨0⟩ (.tryApply "work" [⟨0⟩] ⟨1⟩ ⟨2⟩), .setTerminator ⟨1⟩ (.br ⟨2⟩ [⟨1⟩])]

theorem openCall_splitAllCriticalEdges_exact :
    ∃ g mid phi, (Tracked.bare openCall).splitAllCriticalEdges = .ok (true, .bare g) ∧
      openCall.SplitOn g [⟨⟨0⟩, 1⟩] mid phi ∧
      ∀ x, (g.target? x).isSome = true → g.isCriticalEdge x.block x.index = .ok false := by
  obtain ⟨critical, hcritical, -, -, hsplit⟩ :=
    WellBuilt.splitAllCriticalEdges_exact (wellBuilt_replayed _ : WellBuilt openCall)
  have hone : openCall.criticalEdges = .ok [⟨⟨0⟩, 1⟩] := by cbv
  cases hone.symm.trans hcritical
  obtain ⟨g, mid, phi, hrun, hs, -, hnone, -⟩ := hsplit ⟨by cbv, by cbv⟩
  exact ⟨g, mid, phi, hrun, hs, hnone⟩

end FlowGraph
