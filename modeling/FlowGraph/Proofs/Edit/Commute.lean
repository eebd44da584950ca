import Mathlib.Algebra.Group.End
import Mathlib.Logic.Equiv.Set
import FlowGraph.Proofs.Edit.Critical

/-!
Putting blocks on edges in different orders. The order decides which numbers the new blocks and their
phis get, how the new blocks behind one block follow each other, and the order inside the lists of
incoming edges and of readers. Nothing else depends on it.
-/

namespace FlowGraph

/-- Two assignments of names to the same things, by which the same names are used up, differ by a
permutation of all names. -/
theorem exists_perm_extending {α γ : Type} {s : Set α} {m m' : α → γ} (hm : Set.InjOn m s)
    (hm' : Set.InjOn m' s) (himage : m' '' s = m '' s) :
    ∃ π : Equiv.Perm γ, (∀ x ∈ s, π (m x) = m' x) ∧ ∀ y, y ∉ m '' s → π y = y := by
  classical
  let first := Equiv.Set.imageOfInjOn m s hm
  let second := Equiv.Set.imageOfInjOn m' s hm'
  let exchange : Equiv.Perm {y // y ∈ m '' s} := first.symm.trans (second.trans (Equiv.setCongr himage))
  refine ⟨Equiv.Perm.ofSubtype exchange, fun x hx => ?_, fun y hy => ?_⟩
  · rw [Equiv.Perm.ofSubtype_apply_of_mem exchange (Set.mem_image_of_mem m hx)]
    have hback : first.symm ⟨m x, Set.mem_image_of_mem m hx⟩ = ⟨x, hx⟩ :=
      first.symm_apply_eq.mpr rfl
    change ((Equiv.setCongr himage) (second (first.symm ⟨m x, _⟩)) : γ) = m' x
    rw [hback]
    rfl
  · exact Equiv.Perm.ofSubtype_apply_of_not_mem exchange hy

def Edge.rename (β : BlockId → BlockId) (x : Edge) : Edge := ⟨β x.block, x.index⟩

def Point.rename (β : BlockId → BlockId) : Point → Point
  | .instr i => .instr i
  | .terminator b => .terminator (β b)

def Value.rename (β : BlockId → BlockId) (value : Value) : Value :=
  match value.origin with
  | .result _ => value
  | .argument b index kind => { value with origin := .argument (β b) index kind }

def Terminator.rename (β : BlockId → BlockId) (ν : ValueId → ValueId) (t : Terminator) : Terminator :=
  (t.mapOperands ν).mapEdges (fun _ dest => β dest) fun _ args => args

theorem Edge.rename_injective {β : BlockId → BlockId} (hβ : Function.Injective β) :
    Function.Injective (Edge.rename β) := by
  rintro ⟨b, e⟩ ⟨c, k⟩ h
  simp only [rename, Edge.mk.injEq] at h
  rw [hβ h.1, h.2]

theorem Point.rename_injective {β : BlockId → BlockId} (hβ : Function.Injective β) :
    Function.Injective (Point.rename β) := by
  rintro (i | b) (j | c) h
  · exact h
  · cases h
  · cases h
  · rw [hβ (Point.terminator.inj h)]

theorem Terminator.operands_rename (β : BlockId → BlockId) (ν : ValueId → ValueId) (t : Terminator) :
    (t.rename β ν).operands = t.operands.map ν := by
  rw [rename, ← operands_mapOperands]
  cases t <;> rfl

theorem Terminator.getElem?_successors_rename (β : BlockId → BlockId) (ν : ValueId → ValueId)
    (t : Terminator) (e : Nat) : (t.rename β ν).successors[e]? = (t.successors[e]?).map β := by
  rw [rename, getElem?_successors_mapEdges, successors_mapOperands]

namespace Body

variable {f g g' : Body} {β : Equiv.Perm BlockId} {ν : Equiv.Perm ValueId}

/-- The bodies `g` and `g'`, both of which extend `f`, are the same up to the names of the new blocks
and values, the order of new blocks that stand together, and the order inside the two indexes. -/
structure AlikeOver (f g g' : Body) (β : Equiv.Perm BlockId) (ν : Equiv.Perm ValueId) : Prop where
  id : g'.id = g.id
  name : g'.name = g.name
  old_block : ∀ b, b.index < f.blocks.size → β b = b
  old_value : ∀ v, v.index < f.values.size → ν v = v
  size_blocks : g'.blocks.size = g.blocks.size
  size_values : g'.values.size = g.values.size
  layout : ∃ behind behind' : BlockId → List BlockId,
    g.layout = f.layout.flatMap (fun b => b :: behind b) ∧
      g'.layout = f.layout.flatMap (fun b => b :: behind' b) ∧
      ∀ b, (behind' b).Perm ((behind b).map β)
  args : ∀ b, g'.args? (β b) = (g.args? b).map (·.map ν)
  lists : ∀ b, g'.instrs? (β b) = g.instrs? b
  terminators : ∀ b, g'.terminator? (β b) = (g.terminator? b).map (·.rename β ν)
  instrs : g'.instrs = g.instrs
  values : ∀ v, g'.value? (ν v) = (g.value? v).map (·.rename β)
  preds : ∀ {b preds}, g.preds? b = some preds →
    ∃ preds', g'.preds? (β b) = some preds' ∧ preds'.Perm (preds.map (·.rename β))
  users : ∀ v, (g'.usersOf (ν v)).Perm ((g.usersOf v).map (·.rename β))

theorem Consistent.perm_preds_rename (hg : g.Consistent) (hg' : g'.Consistent)
    (hargs : ∀ b, g'.args? (β b) = (g.args? b).map (·.map ν))
    (hterm : ∀ b, g'.terminator? (β b) = (g.terminator? b).map (·.rename β ν)) {b : BlockId}
    {preds : List Edge} (hb : g.preds? b = some preds) :
    ∃ preds', g'.preds? (β b) = some preds' ∧ preds'.Perm (preds.map (·.rename β)) := by
  have htarget : ∀ x : Edge, g'.target? (x.rename β) = (g.target? x).map β := by
    intro x
    rw [target?, Edge.rename, hterm, target?]
    rcases g.terminator? x.block with _ | t
    · rfl
    · exact t.getElem?_successors_rename β ν x.index
  obtain ⟨data, hdata, rfl⟩ := preds?_eq_some.mp hb
  have hlive := hargs b
  rw [args?_of hdata] at hlive
  obtain ⟨data', hdata', -⟩ := args?_eq_some.mp hlive
  refine ⟨data'.preds, preds?_of hdata', ?_⟩
  rw [List.perm_ext_iff_of_nodup (hg'.edges.nodup_preds (preds?_of hdata'))
    ((hg.edges.nodup_preds hb).map (Edge.rename_injective β.injective))]
  intro y
  obtain ⟨x, rfl⟩ : ∃ x : Edge, x.rename β = y :=
    ⟨⟨β.symm y.block, y.index⟩, by rw [Edge.rename, Equiv.apply_symm_apply]⟩
  rw [hg'.edges.mem_preds (preds?_of hdata'), htarget,
    List.mem_map_of_injective (Edge.rename_injective β.injective), hg.edges.mem_preds hb]
  rcases g.target? x with _ | c
  · simp
  · simp

theorem Consistent.perm_users_rename (hg : g.Consistent) (hg' : g'.Consistent)
    (hoperands : ∀ point, g'.operandsAt? (point.rename β) = (g.operandsAt? point).map ν) (v : ValueId) :
    (g'.usersOf (ν v)).Perm ((g.usersOf v).map (·.rename β)) := by
  rw [List.perm_iff_count]
  intro point'
  obtain ⟨point, rfl⟩ : ∃ point : Point, point.rename β = point' := by
    rcases point' with i | b
    · exact ⟨.instr i, rfl⟩
    · exact ⟨.terminator (β.symm b), by rw [Point.rename, Equiv.apply_symm_apply]⟩
  calc (g'.usersOf (ν v)).count (point.rename β)
      = (g'.operandsAt? (point.rename β)).count (ν v) := hg'.uses.count_users _ _
    _ = ((g.operandsAt? point).map ν).count (ν v) := by rw [hoperands]
    _ = (g.operandsAt? point).count v := List.count_map_of_injective _ _ ν.injective _
    _ = (g.usersOf v).count point := (hg.uses.count_users _ _).symm
    _ = ((g.usersOf v).map (·.rename β)).count (point.rename β) :=
      (List.count_map_of_injective _ _ (Point.rename_injective β.injective) _).symm

theorem mem_of_mem_unload {edges : List Edge} {b : BlockId} {e : Nat} {args : List ValueId}
    {v : ValueId} (hv : v ∈ unload edges b e args) : v ∈ args := by
  unfold unload at hv
  split at hv
  · cases hv
  · exact hv

/-- The renamings take the blocks and phis of one split to those of the other, and leave all other names
alone. -/
structure Matches (f : Body) (edges : List Edge) (mid mid' : Edge → BlockId)
    (phi phi' : Edge → Nat → ValueId) (β : Equiv.Perm BlockId) (ν : Equiv.Perm ValueId) : Prop where
  new_block : ∀ x ∈ edges, β (mid x) = mid' x
  new_value : ∀ x ∈ edges, ∀ j < (f.copied x).length, ν (phi x j) = phi' x j
  other_block : ∀ b, (∀ x ∈ edges, b ≠ mid x) → β b = b
  other_value : ∀ v, (∀ x ∈ edges, ∀ j < (f.copied x).length, v ≠ phi x j) → ν v = v

namespace SplitOn

variable {edges edges' : List Edge} {mid mid' : Edge → BlockId} {phi phi' : Edge → Nat → ValueId}
  {x y : Edge} {b : BlockId} {v : ValueId} {j k : Nat}

theorem origin?_phi (hs : f.SplitOn g edges mid phi) (hf : f.Consistent) (hx : x ∈ edges)
    (hj : j < (f.copied x).length) : g.origin? (phi x j) = some (.argument (mid x) j .phi) := by
  have hget := List.getElem?_eq_getElem hj
  obtain ⟨data, hdata⟩ := Option.isSome_iff_exists.mp
    (hf.isLiveValue_of_mem_copied (List.mem_of_getElem? hget))
  rw [origin?, hs.copies x hx j _ hget, hdata]
  rfl

theorem phi_inj (hs : f.SplitOn g edges mid phi) (hf : f.Consistent) (hx : x ∈ edges)
    (hj : j < (f.copied x).length) (hy : y ∈ edges) (hk : k < (f.copied y).length)
    (heq : phi x j = phi y k) : x = y ∧ j = k := by
  have horigin := hs.origin?_phi hf hx hj
  rw [heq, hs.origin?_phi hf hy hk] at horigin
  simp only [Option.some.injEq, Origin.argument.injEq, and_true] at horigin
  exact ⟨(hs.mid_inj y hy x hx horigin.1).symm, horigin.2.symm⟩

theorem size_eq (hs : f.SplitOn g edges mid phi) (hs' : f.SplitOn g' edges' mid' phi')
    (hperm : edges'.Perm edges) :
    g'.blocks.size = g.blocks.size ∧ g'.values.size = g.values.size := by
  rw [hs.size_blocks, hs'.size_blocks, hs.size_values, hs'.size_values, hperm.length_eq,
    (hperm.map fun x => (f.copied x).length).sum_eq]
  exact ⟨rfl, rfl⟩

theorem exists_matches (hf : f.Consistent) (hs : f.SplitOn g edges mid phi)
    (hs' : f.SplitOn g' edges' mid' phi') (hperm : edges'.Perm edges) :
    ∃ β ν, f.Matches edges mid mid' phi phi' β ν := by
  obtain ⟨hblocks, hvalues⟩ := hs.size_eq hs' hperm
  have hmem : ∀ x, x ∈ edges → x ∈ edges' := fun x => hperm.mem_iff.mpr
  -- Both use up the same numbers, for their blocks and for their phis.
  have hmids : mid' '' {x | x ∈ edges} = mid '' {x | x ∈ edges} := by
    ext c
    have hrange := hs'.mid_mem c
    rw [hblocks, ← hs.mid_mem c] at hrange
    simp only [hperm.mem_iff] at hrange
    exact hrange
  let slots : Set (Edge × Nat) := {p | p.1 ∈ edges ∧ p.2 < (f.copied p.1).length}
  have hslots : ∀ (name : Edge → Nat → ValueId) (v : ValueId),
      v ∈ (fun p : Edge × Nat => name p.1 p.2) '' slots ↔
        ∃ x ∈ edges, ∃ j < (f.copied x).length, name x j = v := by
    intro name v
    constructor
    · rintro ⟨⟨x, j⟩, ⟨hx, hj⟩, rfl⟩
      exact ⟨x, hx, j, hj, rfl⟩
    · rintro ⟨x, hx, j, hj, rfl⟩
      exact ⟨(x, j), ⟨hx, hj⟩, rfl⟩
  have hphis : (fun p : Edge × Nat => phi' p.1 p.2) '' slots =
      (fun p : Edge × Nat => phi p.1 p.2) '' slots := by
    ext v
    have hrange := hs'.phi_mem v
    rw [hvalues, ← hs.phi_mem v] at hrange
    rw [hslots, hslots, ← hrange]
    simp only [hperm.mem_iff]
  obtain ⟨β, hnew, hother⟩ := exists_perm_extending (fun x hx y hy => hs.mid_inj x hx y hy)
    (fun x hx y hy => hs'.mid_inj x (hmem x hx) y (hmem y hy)) hmids
  obtain ⟨ν, hnew', hother'⟩ := exists_perm_extending
    (fun p hp q hq heq => Prod.ext_iff.mpr (hs.phi_inj hf hp.1 hp.2 hq.1 hq.2 heq))
    (fun p hp q hq heq =>
      Prod.ext_iff.mpr (hs'.phi_inj hf (hmem _ hp.1) hp.2 (hmem _ hq.1) hq.2 heq)) hphis
  refine ⟨β, ν, hnew, fun x hx j hj => hnew' (x, j) ⟨hx, hj⟩, fun b hb => hother b ?_,
    fun v hv => hother' v ?_⟩
  · rintro ⟨x, hx, rfl⟩
    exact hb x hx rfl
  · rintro ⟨⟨x, j⟩, ⟨hx, hj⟩, rfl⟩
    exact hv x hx j hj rfl

end SplitOn

namespace Matches

variable {edges edges' : List Edge} {mid mid' : Edge → BlockId} {phi phi' : Edge → Nat → ValueId}
  {x : Edge} {b : BlockId} {v : ValueId} (hm : f.Matches edges mid mid' phi phi' β ν)
  (hs : f.SplitOn g edges mid phi)
include hm

theorem map_phisOn (hx : x ∈ edges) : (f.phisOn phi x).map ν = f.phisOn phi' x := by
  rw [phisOn, List.map_map, phisOn]
  exact List.map_congr_left fun j hj => hm.new_value x hx j (List.mem_range.mp hj)

include hs

theorem old_block (hb : b.index < f.blocks.size) : β b = b :=
  hm.other_block b fun _ hx => hs.ne_mid hb hx

theorem old_value (hv : v.index < f.values.size) : ν v = v := by
  refine hm.other_value v fun x hx j hj heq => ?_
  rw [heq] at hv
  exact Nat.not_lt.mpr (hs.lt_phi hx hj).1 hv

theorem map_old_values {l : List ValueId} (hl : ∀ v ∈ l, v.index < f.values.size) : l.map ν = l :=
  map_eq_self fun v hv => hm.old_value hs (hl v hv)

variable (hs' : f.SplitOn g' edges' mid' phi') (hperm : edges'.Perm edges)
include hs' hperm

theorem block_cases (b : BlockId) :
    b.index < f.blocks.size ∧ β b = b ∨ (∃ x ∈ edges, mid x = b ∧ β b = mid' x) ∨
      β b = b ∧ g.block? b = none ∧ g'.block? b = none := by
  rcases Nat.lt_or_ge b.index f.blocks.size with hold | hge
  · exact .inl ⟨hold, hm.old_block hs hold⟩
  · rcases Nat.lt_or_ge b.index g.blocks.size with hlt | hge'
    · obtain ⟨x, hx, rfl⟩ := (hs.mid_mem b).mpr ⟨hge, hlt⟩
      exact .inr (.inl ⟨x, hx, rfl, hm.new_block x hx⟩)
    · refine .inr (.inr ⟨hm.other_block b ?_, Arena.get?_eq_none_of_size_le hge',
        Arena.get?_eq_none_of_size_le ?_⟩)
      · rintro x hx rfl
        exact Nat.not_lt.mpr hge' (hs.lt_mid hx).2
      · rw [(hs.size_eq hs' hperm).1]
        exact hge'

theorem args?_eq (hf : f.Consistent) (b : BlockId) : g'.args? (β b) = (g.args? b).map (·.map ν) := by
  have hmem : ∀ {x}, x ∈ edges → x ∈ edges' := hperm.mem_iff.mpr
  rcases hm.block_cases hs hs' hperm b with ⟨hold, hb⟩ | ⟨x, hx, rfl, hb⟩ | ⟨hb, hnone, hnone'⟩
  · rw [hb, hs'.args b hold, hs.args b hold]
    rcases hargs : f.args? b with _ | args
    · rfl
    · rw [Option.map_some, hm.map_old_values hs]
      intro v hv
      obtain ⟨index, kind, horigin⟩ := (hf.args.mem_args hargs).mp hv
      refine lt_size_of_isLiveValue ?_
      rw [← isSome_origin?, horigin]
      rfl
  · rw [hb, hs'.takes x (hmem hx), hs.takes x hx, Option.map_some, hm.map_phisOn hx]
  · rw [hb, args?, hnone', args?, hnone]
    rfl

theorem instrs?_eq (b : BlockId) : g'.instrs? (β b) = g.instrs? b := by
  rcases hm.block_cases hs hs' hperm b with ⟨hold, hb⟩ | ⟨x, hx, rfl, hb⟩ | ⟨hb, hnone, hnone'⟩
  · rw [hb, hs'.lists b hold, hs.lists b hold]
  · rw [hb, hs'.empty x (hperm.mem_iff.mpr hx), hs.empty x hx]
  · rw [hb, instrs?, hnone', instrs?, hnone]

theorem terminator?_eq (hf : f.Consistent) (b : BlockId) :
    g'.terminator? (β b) = (g.terminator? b).map (·.rename β ν) := by
  have hmem : ∀ {x}, x ∈ edges' ↔ x ∈ edges := hperm.mem_iff
  have hlive : ∀ {x dest}, f.target? x = some dest → β dest = dest := fun hx =>
    hm.old_block hs (lt_size_of_isLiveBlock (hf.edges.live_target hx))
  rcases hm.block_cases hs hs' hperm b with ⟨hold, hb⟩ | ⟨x, hx, rfl, hb⟩ | ⟨hb, hnone, hnone'⟩
  · rw [hb, hs'.terminators b hold, hs.terminators b hold]
    rcases hterm : f.terminator? b with _ | t
    · rfl
    · have hoperands : (t.mapEdges (leadVia edges mid b) (unload edges b)).mapOperands ν =
          t.mapEdges (leadVia edges mid b) (unload edges b) := by
        refine Terminator.mapOperands_eq_self fun v hv => hm.old_value hs ?_
        refine @hf.uses.allocated (.terminator b) v ?_
        rw [operandsAt?_terminator, hterm]
        exact Terminator.mem_operands_of_mapEdges hv fun e args => mem_of_mem_unload
      rw [Option.map_some, Option.map_some, Option.map_some, Terminator.rename, hoperands,
        Terminator.mapEdges_mapEdges]
      refine congrArg some (Terminator.mapEdges_congr (fun e dest hdest => ?_) fun e args _ => ?_)
      · unfold leadVia
        split
        · rename_i hx
          rw [if_pos (hmem.mp hx), hm.new_block _ (hmem.mp hx)]
        · rename_i hx
          rw [if_neg fun hx' => hx (hmem.mpr hx')]
          have htarget : f.target? ⟨b, e⟩ = some dest := target?_eq_some.mpr ⟨t, hterm, hdest⟩
          exact (hlive htarget).symm
      · simp only [unload, hmem]
  · rw [hb, hs'.leads x (hmem.mpr hx), hs.leads x hx]
    rcases hdest : f.target? x with _ | dest
    · rfl
    · have hcarried : (f.carried x).map ν = f.carried x := hm.map_old_values hs fun v hv =>
        hf.uses.allocated (mem_operandsAt?_of_mem_carried hv)
      simp only [Option.map_some, Terminator.rename, Terminator.mapOperands, Terminator.mapEdges,
        List.map_append, hcarried, hm.map_phisOn hx, hlive hdest]
  · rw [hb, terminator?, hnone', terminator?, hnone]
    rfl

theorem value?_eq (hf : f.Consistent) (v : ValueId) :
    g'.value? (ν v) = (g.value? v).map (·.rename β) := by
  rcases Nat.lt_or_ge v.index f.values.size with hold | hge
  · rw [hm.old_value hs hold, hs'.values v hold, hs.values v hold]
    rcases hvalue : f.value? v with _ | ⟨type, ownership, i | ⟨b, index, kind⟩⟩
    · rfl
    · rfl
    · have hlive : f.isLiveBlock b = true := by
        refine @hf.args.live_block v b index kind ?_
        rw [origin?, hvalue]
        rfl
      simp only [Option.map_some, Value.rename, hm.old_block hs (lt_size_of_isLiveBlock hlive)]
  · rcases Nat.lt_or_ge v.index g.values.size with hlt | hge'
    · obtain ⟨x, hx, j, hj, rfl⟩ := (hs.phi_mem v).mpr ⟨hge, hlt⟩
      have hget := List.getElem?_eq_getElem hj
      rw [hm.new_value x hx j hj, hs'.copies x (hperm.mem_iff.mpr hx) j _ hget,
        hs.copies x hx j _ hget, Option.map_map, ← hm.new_block x hx]
      rfl
    · have hsize := (hs.size_eq hs' hperm).2
      rw [hm.other_value v, value?, Arena.get?_eq_none_of_size_le (hsize ▸ hge'), value?,
        Arena.get?_eq_none_of_size_le hge']
      · rfl
      · rintro x hx j hj rfl
        exact Nat.not_lt.mpr hge' (hs.lt_phi hx hj).2

theorem operandsAt?_eq (hf : f.Consistent) (point : Point) :
    g'.operandsAt? (point.rename β) = (g.operandsAt? point).map ν := by
  rcases point with i | b
  · have hsame : ∀ k : Body, k.instrs = f.instrs →
        k.operandsAt? (.instr i) = f.operandsAt? (.instr i) := by
      intro k hk
      rw [operandsAt?, instr?, hk]
      rfl
    rw [Point.rename, hsame g' hs'.instrs, hsame g hs.instrs]
    exact (hm.map_old_values hs fun v hv => hf.uses.allocated hv).symm
  · rw [Point.rename, operandsAt?_terminator, hm.terminator?_eq hs hs' hperm hf,
      operandsAt?_terminator]
    rcases g.terminator? b with _ | t
    · rfl
    · exact t.operands_rename β ν

theorem alikeOver (hf : f.Consistent) : f.AlikeOver g g' β ν where
  id := hs'.id.trans hs.id.symm
  name := hs'.name.trans hs.name.symm
  old_block b := hm.old_block hs
  old_value v := hm.old_value hs
  size_blocks := (hs.size_eq hs' hperm).1
  size_values := (hs.size_eq hs' hperm).2
  layout := by
    obtain ⟨behind, hlayout, hbehind⟩ := hs.layout
    obtain ⟨behind', hlayout', hbehind'⟩ := hs'.layout
    refine ⟨behind, behind', hlayout, hlayout', fun b => ?_⟩
    refine (hbehind' b).trans (((hperm.filter _).map mid').trans ?_)
    refine List.Perm.trans (List.Perm.of_eq ?_) ((hbehind b).map β).symm
    rw [List.map_map]
    exact List.map_congr_left fun x hx => (hm.new_block x (List.mem_of_mem_filter hx)).symm
  args := hm.args?_eq hs hs' hperm hf
  lists := hm.instrs?_eq hs hs' hperm
  terminators := hm.terminator?_eq hs hs' hperm hf
  instrs := hs'.instrs.trans hs.instrs.symm
  values := hm.value?_eq hs hs' hperm hf
  preds := hs.consistent.perm_preds_rename hs'.consistent (hm.args?_eq hs hs' hperm hf)
    (hm.terminator?_eq hs hs' hperm hf)
  users := hs.consistent.perm_users_rename hs'.consistent (hm.operandsAt?_eq hs hs' hperm hf)

end Matches

theorem HasRoomFor.perm {edges edges' : List Edge} (hroom : f.HasRoomFor edges)
    (hperm : edges'.Perm edges) : f.HasRoomFor edges' := by
  rwa [HasRoomFor, hperm.length_eq, (hperm.map fun x => (f.copied x).length).sum_eq]

theorem SplitOn.exists_alikeOver {edges edges' : List Edge} {mid mid' : Edge → BlockId}
    {phi phi' : Edge → Nat → ValueId} (hf : f.Consistent) (hs : f.SplitOn g edges mid phi)
    (hs' : f.SplitOn g' edges' mid' phi') (hperm : edges'.Perm edges) :
    ∃ β ν, f.AlikeOver g g' β ν := by
  obtain ⟨β, ν, hm⟩ := hs.exists_matches hf hs' hperm
  exact ⟨β, ν, hm.alikeOver hs hs' hperm hf⟩

/-- Put a new block on each of the given edges, one after the other. -/
def splitEdges (f : Body) (edges : List Edge) : Except Fault Body :=
  edges.foldlM (fun g x => return (← g.splitEdge x.block x.index).2) f

theorem Consistent.exists_splitEdges (hf : f.Consistent) {edges : List Edge} (hnodup : edges.Nodup)
    (hedge : ∀ x ∈ edges, (f.target? x).isSome = true) (hroom : f.HasRoomFor edges) :
    ∃ g, f.splitEdges edges = .ok g ∧ ∃ mid phi, f.SplitOn g edges mid phi := by
  refine exists_foldlM (P := fun done g => ∃ mid phi, f.SplitOn g done mid phi)
    ⟨fun _ => ⟨0⟩, fun _ _ => ⟨0⟩, hf.splitOn_nil _ _⟩ ?_
  rintro done x rest g rfl ⟨mid, phi, hs⟩
  have hx : x ∉ done := fun hmem =>
    (List.nodup_append.mp hnodup).2.2 x hmem x List.mem_cons_self rfl
  have hprefix : (done ++ [x]).Sublist (done ++ x :: rest) := by simp
  obtain ⟨g', mid', phi', hrun, hs'⟩ := hs.exists_splitEdge hf hx (hedge x (by simp))
    (hroom.mono hprefix)
  refine ⟨g', ?_, mid', phi', hs'⟩
  rw [hrun]
  rfl

end Body

/-- Blocks can be put on edges in any order: up to the names of what is new, the order of new blocks
that stand together and the order inside the indexes, the outcome is the same. In particular it does not
matter in which order the edges are visited when blocks are put on the critical ones. -/
theorem WellBuilt.splitEdges_comm {f : Body} (hf : WellBuilt f) :
    (∀ edges edges' : List Edge, edges.Nodup → (∀ x ∈ edges, (f.target? x).isSome = true) →
      f.HasRoomFor edges → edges'.Perm edges →
        ∃ g g' β ν, f.splitEdges edges = .ok g ∧ f.splitEdges edges' = .ok g' ∧
          f.AlikeOver g g' β ν) ∧
    ∀ visit critical : List Edge, visit.Perm f.edgeList → f.criticalEdges = .ok critical →
      f.HasRoomFor critical →
        ∃ g g' β ν changed, (Tracked.bare f).splitCriticalOn visit = .ok (changed, .bare g) ∧
          (Tracked.bare f).splitAllCriticalEdges = .ok (changed, .bare g') ∧
          f.AlikeOver g g' β ν := by
  have hc := hf.consistent
  constructor
  · intro edges edges' hnodup hedge hroom hperm
    obtain ⟨g, hrun, mid, phi, hs⟩ := hc.exists_splitEdges hnodup hedge hroom
    obtain ⟨g', hrun', mid', phi', hs'⟩ := hc.exists_splitEdges (hperm.nodup_iff.mpr hnodup)
      (fun x hx => hedge x (hperm.mem_iff.mp hx)) (hroom.perm hperm)
    obtain ⟨β, ν, halike⟩ := hs.exists_alikeOver hc hs' hperm
    exact ⟨g, g', β, ν, hrun, hrun', halike⟩
  · intro visit critical hvisit hcritical hroom
    cases hc.criticalEdges_eq.symm.trans hcritical
    have hstart := hc.splitOn_nil (fun _ => ⟨0⟩) fun _ _ => ⟨0⟩
    have hnodup := Body.nodup_edgeList hc.layout
    obtain ⟨g, mid, phi, hrun, hs⟩ := Tracked.exists_splitCriticalOn hc hstart
      (hvisit.nodup_iff.mpr hnodup)
      (fun x hx => (Body.mem_edgeList hc.layout).mp (hvisit.mem_iff.mp hx))
      (hroom.perm (hvisit.filter _))
    obtain ⟨g', mid', phi', hrun', hs'⟩ := Tracked.exists_splitCriticalFrom hc hstart
      (fun b hb => (hc.layout.mem_iff b).mp hb) hnodup hroom
    obtain ⟨β, ν, halike⟩ := hs.exists_alikeOver hc hs' (hvisit.filter _).symm
    refine ⟨g, g', β, ν, _, hrun, ?_, halike⟩
    rw [hvisit.any_eq]
    exact hrun'

theorem openCall_splitEdges_comm :
    ∃ g g' β ν, openCall.splitEdges [⟨⟨0⟩, 0⟩, ⟨⟨0⟩, 1⟩, ⟨⟨1⟩, 0⟩] = .ok g ∧
      openCall.splitEdges [⟨⟨1⟩, 0⟩, ⟨⟨0⟩, 1⟩, ⟨⟨0⟩, 0⟩] = .ok g' ∧
      openCall.AlikeOver g g' β ν := by
  have hedge : ∀ x ∈ ([⟨⟨0⟩, 0⟩, ⟨⟨0⟩, 1⟩, ⟨⟨1⟩, 0⟩] : List Edge),
      (openCall.target? x).isSome = true := by
    simp only [List.forall_mem_cons]
    exact ⟨by cbv, by cbv, by cbv, by simp⟩
  obtain ⟨hcomm, -⟩ := WellBuilt.splitEdges_comm (wellBuilt_replayed _ : WellBuilt openCall)
  exact hcomm _ _ (by decide) hedge ⟨by cbv, by cbv⟩ (by decide)

end FlowGraph
