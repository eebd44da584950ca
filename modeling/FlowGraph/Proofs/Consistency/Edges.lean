import FlowGraph.Body.Edges
import FlowGraph.Proofs.Consistency.Basic
import FlowGraph.Proofs.Terminator

namespace FlowGraph.Body

variable {f g : Body} {b c : BlockId} {data : Block} {t : Terminator}

section MapBlocks

variable {φ : BlockId → Block → Block} (h : ∀ c, g.block? c = (f.block? c).map (φ c))
include h

theorem isLiveBlock_mapBlocks (c : BlockId) : g.isLiveBlock c = f.isLiveBlock c := by
  simp [isLiveBlock, h]

theorem args?_mapBlocks (hφ : ∀ c data, (φ c data).args = data.args) (c : BlockId) :
    g.args? c = f.args? c := by
  simp [args?, h, Function.comp_def, hφ]

theorem instrs?_mapBlocks (hφ : ∀ c data, (φ c data).instrs = data.instrs) (c : BlockId) :
    g.instrs? c = f.instrs? c := by
  simp [instrs?, h, Function.comp_def, hφ]

theorem preds?_mapBlocks (hφ : ∀ c data, (φ c data).preds = data.preds) (c : BlockId) :
    g.preds? c = f.preds? c := by
  simp [preds?, h, Function.comp_def, hφ]

theorem terminator?_mapBlocks
    (hφ : ∀ c data, (φ c data).terminator = if c = b then some t else data.terminator)
    (hb : f.isLiveBlock b = true) (c : BlockId) :
    g.terminator? c = if c = b then some t else f.terminator? c := by
  obtain ⟨data, hb⟩ := isLiveBlock_iff.mp hb
  rw [terminator?, h, terminator?]
  split
  · rename_i hc
    simp [hc, hb, hφ]
  · rename_i hc
    rcases f.block? c with _ | other
    · rfl
    · simp [hφ, hc]

end MapBlocks

theorem unlistEdges_eq (f : Body) (b : BlockId) (targets : List BlockId) :
    f.unlistEdges b targets = { f with blocks := (f.unlistEdges b targets).blocks } := by
  unfold unlistEdges
  induction targets generalizing f with
  | nil => rfl
  | cons s rest ih =>
      rw [List.foldl_cons, ih]
      rfl

theorem listEdges_eq (f : Body) (b : BlockId) (e : Nat) (targets : List BlockId) :
    f.listEdges b e targets = { f with blocks := (f.listEdges b e targets).blocks } := by
  induction targets generalizing f e with
  | nil => rfl
  | cons s rest ih =>
      rw [listEdges, ih]
      rfl

theorem block?_unlistEdges (f : Body) (b : BlockId) (targets : List BlockId) (c : BlockId) :
    (f.unlistEdges b targets).block? c =
      if c ∈ targets then
        (f.block? c).map fun data => { data with preds := data.preds.filter (·.block ≠ b) }
      else f.block? c := by
  induction targets generalizing f with
  | nil => rfl
  | cons s rest ih =>
      change ((f.modifyBlock s _).unlistEdges b rest).block? c = _
      rw [ih, block?_modifyBlock]
      rcases Classical.em (c = s) with rfl | hne
      · simp [Function.comp_def]
      · simp [hne]

/-- The edges of `b` that lead to `c`, if `b` has the given successors from number `e` on. -/
def arrivals (b : BlockId) (e : Nat) (targets : List BlockId) (c : BlockId) : List Edge :=
  ((targets.zipIdx e).filter (·.1 = c)).map fun slot => ⟨b, slot.2⟩

theorem count_arrivals (b : BlockId) (e : Nat) (targets : List BlockId) (c : BlockId) (x : Edge) :
    (arrivals b e targets c).count x =
      if x.block = b ∧ e ≤ x.index ∧ targets[x.index - e]? = some c then 1 else 0 := by
  induction targets generalizing e with
  | nil => simp [arrivals]
  | cons s rest ih =>
      have hstep : arrivals b e (s :: rest) c =
          (if s = c then [⟨b, e⟩] else []) ++ arrivals b (e + 1) rest c := by
        simp only [arrivals, List.zipIdx_cons, List.filter_cons, decide_eq_true_eq]
        split <;> simp
      have hhead : ((if s = c then [⟨b, e⟩] else [] : List Edge)).count x =
          if x.block = b ∧ x.index = e ∧ s = c then 1 else 0 := by
        rcases x with ⟨xb, xe⟩
        split <;> simp [List.count_singleton, *]
        grind
      rw [hstep, List.count_append, hhead, ih]
      rcases Nat.lt_trichotomy x.index e with hlt | heq | hgt
      · simp [Nat.ne_of_lt hlt, Nat.not_le.mpr hlt, Nat.not_le.mpr (Nat.lt_succ_of_lt hlt)]
      · subst heq
        have hlater : ¬ (x.block = b ∧ x.index + 1 ≤ x.index ∧
            rest[x.index - (x.index + 1)]? = some c) := fun h => Nat.not_succ_le_self _ h.2.1
        rw [if_neg hlater]
        simp
      · obtain ⟨k, hk⟩ : ∃ k, x.index = e + 1 + k := ⟨x.index - (e + 1), by omega⟩
        simp [hk, show e + 1 + k ≠ e by omega, show e ≤ e + 1 + k by omega,
          show e + 1 + k - e = k + 1 by omega]

theorem arrivals_singleton (b : BlockId) (e : Nat) (s c : BlockId) :
    arrivals b e [s] c = if c = s then [⟨b, e⟩] else [] := by
  rcases Classical.em (c = s) with rfl | hne
  · simp [arrivals]
  · simp [arrivals, hne, Ne.symm hne]

theorem block?_listEdges (f : Body) (b : BlockId) (e : Nat) (targets : List BlockId)
    (c : BlockId) :
    (f.listEdges b e targets).block? c =
      (f.block? c).map fun data =>
        { data with preds := data.preds ++ arrivals b e targets c } := by
  induction targets generalizing f e with
  | nil => simp [listEdges, arrivals]
  | cons s rest ih =>
      rw [listEdges, ih, block?_modifyBlock]
      rcases Classical.em (s = c) with rfl | hne
      · simp [Function.comp_def, arrivals]
      · simp [Ne.symm hne, hne, arrivals]

/-- The body after `b` has let go of its terminator, which is given. -/
def detach (f : Body) (b : BlockId) : Option Terminator → Body
  | none => f
  | some t =>
    { f.modifyBlock b fun data => { data with terminator := none } with
      useIndex := f.useIndex.unlink (.terminator b) t.operands }.unlistEdges b t.successors

theorem takeTerminator_eq_ok {taken : Option Terminator} :
    f.takeTerminator b = .ok (taken, g) ↔
      ∃ data, f.block? b = some data ∧ taken = data.terminator ∧ g = f.detach b data.terminator := by
  unfold takeTerminator
  simp only [bind_eq_ok, block_eq_ok]
  refine exists_congr fun data => and_congr_right fun _ => ?_
  rcases data.terminator with _ | t
  · rw [pure_eq_ok, Prod.mk.injEq]
    exact and_congr eq_comm eq_comm
  · rw [pure_eq_ok, Prod.mk.injEq]
    exact and_congr eq_comm eq_comm

theorem EdgesListed.block?_detach (h : f.EdgesListed) (hb : f.block? b = some data)
    (c : BlockId) :
    (f.detach b data.terminator).block? c =
      (f.block? c).map fun other =>
        { other with
          terminator := if c = b then none else other.terminator
          preds := other.preds.filter (·.block ≠ b) } := by
  have hkeep : ∀ {other : Block}, f.block? c = some other →
      (∀ e : Edge, e.block = b → f.target? e ≠ some c) →
      other.preds.filter (·.block ≠ b) = other.preds := by
    intro other hc hnone
    rw [List.filter_eq_self]
    intro e he
    simp only [decide_eq_true_eq]
    intro heb
    exact hnone e heb ((h.mem_preds (preds?_of hc)).mp he)
  rcases ht : data.terminator with _ | t
  · change f.block? c = _
    rcases hc : f.block? c with _ | other
    · rfl
    · have hpreds := hkeep hc fun e heb htarget => by
        rw [target?, heb, terminator?_of hb, ht] at htarget
        cases htarget
      have hterm : (if c = b then none else other.terminator) = other.terminator := by
        split
        · rename_i hcb
          subst hcb
          rw [hc, Option.some.injEq] at hb
          rw [hb, ht]
        · rfl
      simp only [Option.map_some, hpreds, hterm]
  · rw [detach, block?_unlistEdges]
    change (if c ∈ t.successors then
        ((f.modifyBlock b fun data => { data with terminator := none }).block? c).map _
      else (f.modifyBlock b fun data => { data with terminator := none }).block? c) = _
    rw [block?_modifyBlock]
    rcases hc : f.block? c with _ | other
    · simp
    · split
      · split <;> simp [*]
      · rename_i hmem
        have hpreds := hkeep hc fun e heb htarget => by
          rw [target?, heb, terminator?_of hb, ht] at htarget
          exact hmem (List.mem_of_getElem? htarget)
        simp only [Option.map_some, hpreds]
        split <;> rfl

theorem detach_eq (f : Body) (b : BlockId) (t : Option Terminator) :
    f.detach b t =
      { f with
        blocks := (f.detach b t).blocks
        useIndex := f.useIndex.unlink (.terminator b) ((t.map (·.operands)).getD []) } := by
  rcases t with _ | t
  · rfl
  · rw [detach, unlistEdges_eq]
    rfl

theorem EdgesListed.terminator?_detach (h : f.EdgesListed) (hb : f.block? b = some data)
    (c : BlockId) :
    (f.detach b data.terminator).terminator? c = if c = b then none else f.terminator? c := by
  rw [terminator?, h.block?_detach hb, terminator?]
  rcases f.block? c with _ | other
  · simp
  · split <;> simp [*]

theorem EdgesListed.preds?_detach (h : f.EdgesListed) (hb : f.block? b = some data)
    (c : BlockId) :
    (f.detach b data.terminator).preds? c = (f.preds? c).map (List.filter (·.block ≠ b)) := by
  rw [preds?, h.block?_detach hb, preds?]
  rcases f.block? c with _ | other <;> rfl

theorem EdgesListed.target?_detach (h : f.EdgesListed) (hb : f.block? b = some data)
    (e : Edge) :
    (f.detach b data.terminator).target? e = if e.block = b then none else f.target? e := by
  rw [target?, h.terminator?_detach hb, target?]
  split <;> rfl

theorem count_filter_ite {α : Type} [DecidableEq α] (p : α → Bool) (l : List α) (x : α) :
    (l.filter p).count x = if p x then l.count x else 0 := by
  split
  · rename_i hp
    exact List.count_filter hp
  · rename_i hp
    rw [List.count_eq_zero]
    simp [hp]

theorem EdgesListed.detach (h : f.EdgesListed) (hb : f.block? b = some data) :
    (f.detach b data.terminator).EdgesListed where
  count_preds := by
    intro c preds hc e
    rw [h.preds?_detach hb, Option.map_eq_some_iff] at hc
    obtain ⟨before, hbefore, rfl⟩ := hc
    rw [h.target?_detach hb, count_filter_ite, h.count_preds hbefore]
    grind
  live_target := by
    intro e c hc
    rw [h.target?_detach hb] at hc
    rw [isLiveBlock_mapBlocks (h.block?_detach hb)]
    split at hc
    · cases hc
    · exact h.live_target hc

theorem UsesListed.detach (h : f.UsesListed) (hedges : f.EdgesListed)
    (hb : f.block? b = some data) : (f.detach b data.terminator).UsesListed := by
  have hoperands : ∀ point, (f.detach b data.terminator).operandsAt? point =
      if point = .terminator b then [] else f.operandsAt? point := by
    rintro (i | c)
    · rw [detach_eq]
      rfl
    · rw [operandsAt?_terminator, hedges.terminator?_detach hb, operandsAt?_terminator]
      simp only [Point.terminator.injEq]
      split <;> rfl
  have hown : f.operandsAt? (.terminator b) = (data.terminator.map (·.operands)).getD [] := by
    rw [operandsAt?_terminator, terminator?_of hb]
  refine ⟨?_, ?_, ?_⟩
  · rw [detach_eq]
    exact (UseIndex.size_unlink _ _ _).trans h.size_users
  · intro point v hv
    rw [hoperands] at hv
    rw [detach_eq]
    split at hv
    · cases hv
    · exact h.allocated hv
  · intro v point
    rw [hoperands, detach_eq]
    change ((f.useIndex.unlink _ _).usersOf v).count point = _
    rw [UseIndex.count_unlink, ← hown]
    change (f.usersOf v).count point - _ = _
    rw [h.count_users]
    split
    · rename_i hpoint
      subst hpoint
      simp
    · simp

theorem Consistent.of_mapBlocks (h : f.Consistent) {φ : BlockId → Block → Block}
    (hblocks : ∀ c, g.block? c = (f.block? c).map (φ c))
    (hargs : ∀ c data, (φ c data).args = data.args)
    (hinstrs : ∀ c data, (φ c data).instrs = data.instrs)
    (hrest : g = { f with blocks := g.blocks, useIndex := g.useIndex })
    (hedges : g.EdgesListed) (huses : g.UsesListed) : g.Consistent := by
  have hinstr : ∀ i, g.instr? i = f.instr? i := fun i => by
    rw [hrest]
    rfl
  have horigin : ∀ v, g.origin? v = f.origin? v := fun v => by
    rw [hrest]
    rfl
  refine ⟨?_, hedges, ?_, ?_, ?_, huses⟩
  · exact h.layout.congr (by rw [hrest]) (isLiveBlock_mapBlocks hblocks)
  · exact h.instrs.congr (instrs?_mapBlocks hblocks hinstrs)
      fun i => by rw [holder?, hinstr, holder?]
  · exact h.args.congr (args?_mapBlocks hblocks hargs) horigin
  · exact h.results.congr (fun i => by rw [result?, hinstr, result?]) horigin

theorem Consistent.detach (h : f.Consistent) (hb : f.block? b = some data) :
    (f.detach b data.terminator).Consistent :=
  h.of_mapBlocks (h.edges.block?_detach hb) (fun _ _ => rfl) (fun _ _ => rfl)
    (by rw [detach_eq]) (h.edges.detach hb) (h.uses.detach h.edges hb)

theorem isLiveBlock_detach (f : Body) (b : BlockId) (t : Option Terminator) (c : BlockId) :
    (f.detach b t).isLiveBlock c = f.isLiveBlock c := by
  rcases t with _ | t
  · rfl
  · have hmod := isLiveBlock_modifyBlock f b c fun data => { data with terminator := none }
    rw [isLiveBlock, Body.detach, block?_unlistEdges]
    split
    · rw [Option.isSome_map]
      exact hmod
    · exact hmod

/-- The body after `b`, which has no terminator, has taken `t`. -/
def attach (f : Body) (b : BlockId) (t : Terminator) : Body :=
  let f := f.listEdges b 0 t.successors
  { f with useIndex := f.useIndex.link (.terminator b) t.operands }.modifyBlock b
    fun data => { data with terminator := some t }

theorem setTerminator_eq_ok {old : Option Terminator} :
    f.setTerminator b t = .ok (old, g) ↔
      ∃ data, f.block? b = some data ∧ old = data.terminator ∧
        (∀ s ∈ t.successors, f.isLiveBlock s = true) ∧
        g = (f.detach b data.terminator).attach b t := by
  unfold setTerminator
  simp only [bind_eq_ok, Prod.exists, takeTerminator_eq_ok, forM_eq_ok, block_eq_ok, pure_eq_ok,
    Prod.mk.injEq]
  constructor
  · rintro ⟨taken, body, ⟨data, hb, rfl, rfl⟩, _, hlive, rfl, rfl⟩
    refine ⟨data, hb, rfl, fun s hs => ?_, rfl⟩
    obtain ⟨other, hother, -⟩ := hlive s hs
    rw [← isLiveBlock_detach f b data.terminator s]
    exact isLiveBlock_of hother
  · rintro ⟨data, hb, rfl, hlive, rfl⟩
    refine ⟨_, _, ⟨data, hb, rfl, rfl⟩, (), fun s hs => ?_, rfl, rfl⟩
    have hs := hlive s hs
    rw [← isLiveBlock_detach f b data.terminator s] at hs
    obtain ⟨other, hother⟩ := isLiveBlock_iff.mp hs
    exact ⟨other, hother, trivial⟩

theorem block?_attach (f : Body) (b : BlockId) (t : Terminator) (c : BlockId) :
    (f.attach b t).block? c =
      (f.block? c).map fun data =>
        { data with
          terminator := if c = b then some t else data.terminator
          preds := data.preds ++ arrivals b 0 t.successors c } := by
  rw [attach, block?_modifyBlock]
  change (if c = b then ((f.listEdges b 0 t.successors).block? c).map _
    else (f.listEdges b 0 t.successors).block? c) = _
  rw [block?_listEdges]
  split <;> simp [*, Function.comp_def]

theorem attach_eq (f : Body) (b : BlockId) (t : Terminator) :
    f.attach b t =
      { f with
        blocks := (f.attach b t).blocks
        useIndex := f.useIndex.link (.terminator b) t.operands } := by
  rw [attach, listEdges_eq]
  rfl

theorem terminator?_attach (hb : f.isLiveBlock b = true) (t : Terminator) (c : BlockId) :
    (f.attach b t).terminator? c = if c = b then some t else f.terminator? c :=
  terminator?_mapBlocks (block?_attach f b t) (fun _ _ => rfl) hb c

theorem preds?_attach (f : Body) (b : BlockId) (t : Terminator) (c : BlockId) :
    (f.attach b t).preds? c = (f.preds? c).map (· ++ arrivals b 0 t.successors c) := by
  rw [preds?, block?_attach, preds?]
  rcases f.block? c with _ | other <;> rfl

theorem target?_attach (hb : f.isLiveBlock b = true) (t : Terminator) (e : Edge) :
    (f.attach b t).target? e =
      if e.block = b then t.successors[e.index]? else f.target? e := by
  rw [target?, terminator?_attach hb, target?]
  split <;> rfl

theorem EdgesListed.attach (h : f.EdgesListed) (hb : f.block? b = some data)
    (hnone : data.terminator = none) (hlive : ∀ s ∈ t.successors, f.isLiveBlock s = true) :
    (f.attach b t).EdgesListed := by
  have hfree : ∀ e : Edge, e.block = b → f.target? e = none := by
    intro e he
    rw [target?, he, terminator?_of hb, hnone]
    rfl
  refine ⟨?_, ?_⟩
  · intro c preds hc e
    rw [preds?_attach, Option.map_eq_some_iff] at hc
    obtain ⟨before, hbefore, rfl⟩ := hc
    rw [target?_attach (isLiveBlock_of hb), List.count_append, h.count_preds hbefore,
      count_arrivals]
    grind
  · intro e c hc
    rw [target?_attach (isLiveBlock_of hb)] at hc
    rw [isLiveBlock_mapBlocks (block?_attach f b t)]
    split at hc
    · exact hlive c (List.mem_of_getElem? hc)
    · exact h.live_target hc

theorem operandsAt?_attach (hb : f.isLiveBlock b = true) (t : Terminator) (point : Point) :
    (f.attach b t).operandsAt? point =
      if point = .terminator b then t.operands else f.operandsAt? point := by
  rcases point with i | c
  · rw [attach_eq]
    rfl
  · rw [operandsAt?_terminator, terminator?_attach hb, operandsAt?_terminator]
    simp only [Point.terminator.injEq]
    split <;> rfl

theorem UsesListed.attach (h : f.UsesListed) (hb : f.block? b = some data)
    (hnone : data.terminator = none) (halloc : ∀ v ∈ t.operands, v.index < f.values.size) :
    (f.attach b t).UsesListed := by
  have hoperands := operandsAt?_attach (isLiveBlock_of hb) t
  have hown : f.operandsAt? (.terminator b) = [] := by
    rw [operandsAt?_terminator, terminator?_of hb, hnone]
    rfl
  refine ⟨?_, ?_, ?_⟩
  · rw [attach_eq]
    exact (UseIndex.size_link _ _ _).trans h.size_users
  · intro point v hv
    rw [hoperands] at hv
    rw [attach_eq]
    split at hv
    · exact halloc v hv
    · exact h.allocated hv
  · intro v point
    rw [hoperands, attach_eq]
    change ((f.useIndex.link _ _).usersOf v).count point = _
    rw [UseIndex.count_link]
    change (f.usersOf v).count point + _ = _
    rw [h.count_users, h.size_users]
    split
    · rename_i hpoint
      obtain ⟨rfl, _⟩ := hpoint
      simp [hown]
    · rename_i hpoint
      split
      · rename_i heq
        subst heq
        have hv : v ∉ t.operands := fun hv => hpoint ⟨rfl, halloc v hv⟩
        rw [hown, List.count_eq_zero.mpr hv]
        rfl
      · rfl

theorem Consistent.attach (h : f.Consistent) (hb : f.block? b = some data)
    (hnone : data.terminator = none) (hlive : ∀ s ∈ t.successors, f.isLiveBlock s = true)
    (halloc : ∀ v ∈ t.operands, v.index < f.values.size) : (f.attach b t).Consistent :=
  h.of_mapBlocks (block?_attach f b t) (fun _ _ => rfl) (fun _ _ => rfl) (by rw [attach_eq])
    (h.edges.attach hb hnone hlive) (h.uses.attach hb hnone halloc)

theorem Consistent.setTerminator {old : Option Terminator} (h : f.Consistent)
    (halloc : ∀ v ∈ t.operands, v.index < f.values.size)
    (hset : f.setTerminator b t = .ok (old, g)) : g.Consistent := by
  obtain ⟨data, hb, -, hlive, rfl⟩ := setTerminator_eq_ok.mp hset
  have hdetached := h.edges.block?_detach hb b
  rw [hb, Option.map_some] at hdetached
  refine (h.detach hb).attach hdetached (if_pos rfl) (fun s hs => ?_) (fun v hv => ?_)
  · rw [isLiveBlock_detach]
    exact hlive s hs
  · rw [detach_eq]
    exact halloc v hv

/-- The body after edge `e` of `b`, whose terminator `t` led it to `old`, was led to `dest`. -/
def retarget (f : Body) (b : BlockId) (t : Terminator) (e : Nat) (old dest : BlockId) : Body :=
  let f := f.modifyBlock old fun data => { data with preds := data.preds.filter (· ≠ ⟨b, e⟩) }
  let f := f.modifyBlock dest fun data => { data with preds := data.preds ++ [⟨b, e⟩] }
  f.modifyBlock b fun data => { data with terminator := some (t.retarget e dest) }

theorem setSuccessor_eq_ok {e : Nat} {dest : BlockId} :
    f.setSuccessor b e dest = .ok g ↔
      ∃ t old, f.terminator? b = some t ∧ t.successors[e]? = some old ∧
        (old = dest ∧ g = f ∨
          old ≠ dest ∧ f.isLiveBlock old = true ∧ f.isLiveBlock dest = true ∧
            g = f.retarget b t e old dest) := by
  unfold setSuccessor
  simp only [bind_eq_ok, terminator_eq_ok, Terminator.successor_eq_ok, terminator?_eq_some]
  refine exists_congr fun t => ?_
  have hset : ∀ {old}, t.successors[e]? = some old →
      t.setSuccessor e dest = .ok (t.retarget e dest) := by
    intro old hold
    exact Terminator.setSuccessor_of_lt (List.getElem?_eq_some_iff.mp hold).1 dest
  constructor
  · rintro ⟨hterm, old, hold, hrest⟩
    refine ⟨old, hterm, hold, ?_⟩
    split at hrest
    · rename_i heq
      exact .inl ⟨heq, (pure_eq_ok.mp hrest).symm⟩
    · rename_i hne
      simp only [hset hold, ok_bind, bind_eq_ok, block_eq_ok, pure_eq_ok] at hrest
      obtain ⟨oldData, hoData, destData, hdData, rfl⟩ := hrest
      refine .inr ⟨hne, isLiveBlock_of hoData, ?_, rfl⟩
      exact (isLiveBlock_modifyBlock f old dest _).symm.trans (isLiveBlock_of hdData)
  · rintro ⟨old, hterm, hold, ⟨heq, rfl⟩ | ⟨hne, holdLive, hdestLive, rfl⟩⟩
    · refine ⟨hterm, old, hold, ?_⟩
      rw [if_pos heq]
      rfl
    · refine ⟨hterm, old, hold, ?_⟩
      obtain ⟨oldData, hoData⟩ := isLiveBlock_iff.mp holdLive
      rw [← isLiveBlock_modifyBlock f old dest
        fun data => { data with preds := data.preds.filter (· ≠ ⟨b, e⟩) }] at hdestLive
      obtain ⟨destData, hdData⟩ := isLiveBlock_iff.mp hdestLive
      rw [if_neg hne]
      simp only [hset hold, ok_bind, bind_eq_ok, block_eq_ok, pure_eq_ok]
      exact ⟨oldData, hoData, destData, hdData, rfl⟩

theorem block?_retarget (f : Body) (b : BlockId) (t : Terminator) (e : Nat) (old dest : BlockId)
    (c : BlockId) :
    (f.retarget b t e old dest).block? c =
      (f.block? c).map fun data =>
        { data with
          terminator := if c = b then some (t.retarget e dest) else data.terminator
          preds := (if c = old then data.preds.filter (· ≠ ⟨b, e⟩) else data.preds) ++
            if c = dest then [⟨b, e⟩] else [] } := by
  rw [retarget, block?_modifyBlock, block?_modifyBlock, block?_modifyBlock]
  rcases f.block? c with _ | data
  · simp
  · split <;> split <;> split <;> simp [*]

theorem terminator?_retarget {e : Nat} {old dest : BlockId} (ht : f.terminator? b = some t)
    (c : BlockId) :
    (f.retarget b t e old dest).terminator? c =
      if c = b then some (t.retarget e dest) else f.terminator? c := by
  obtain ⟨data, hb, -⟩ := terminator?_eq_some.mp ht
  exact terminator?_mapBlocks (block?_retarget f b t e old dest) (fun _ _ => rfl)
    (isLiveBlock_of hb) c

theorem target?_retarget {e : Nat} {old dest : BlockId} (ht : f.terminator? b = some t)
    (hold : t.successors[e]? = some old) (x : Edge) :
    (f.retarget b t e old dest).target? x = if x = ⟨b, e⟩ then some dest else f.target? x := by
  have hlt := (List.getElem?_eq_some_iff.mp hold).1
  rcases x with ⟨xb, xe⟩
  rw [target?, terminator?_retarget ht, target?]
  simp only [Edge.mk.injEq]
  split
  · rename_i hxb
    subst hxb
    simp only [Option.bind_some, Terminator.successors_retarget, List.getElem?_set, ht]
    grind
  · rename_i hxb
    simp [hxb]

theorem EdgesListed.retarget {e : Nat} {old dest : BlockId} (h : f.EdgesListed)
    (ht : f.terminator? b = some t) (hold : t.successors[e]? = some old)
    (hdest : f.isLiveBlock dest = true) (hne : old ≠ dest) :
    (f.retarget b t e old dest).EdgesListed := by
  have htarget : f.target? ⟨b, e⟩ = some old := target?_eq_some.mpr ⟨t, ht, hold⟩
  refine ⟨?_, ?_⟩
  · intro c preds hc x
    rw [preds?, block?_retarget, Option.map_map, Option.map_eq_some_iff] at hc
    obtain ⟨data, hdata, rfl⟩ := hc
    have hcount := h.count_preds (preds?_of hdata) x
    rw [target?_retarget ht hold]
    simp only [Function.comp_apply, List.count_append]
    rw [show (if c = old then data.preds.filter (· ≠ ⟨b, e⟩) else data.preds).count x =
        if c = old ∧ x = ⟨b, e⟩ then 0 else data.preds.count x by
      split <;> simp [count_filter_ite, *]]
    rw [hcount]
    grind
  · intro x c hx
    rw [target?_retarget ht hold] at hx
    rw [isLiveBlock_mapBlocks (block?_retarget f b t e old dest)]
    split at hx
    · cases hx
      exact hdest
    · exact h.live_target hx

theorem retarget_eq (f : Body) (b : BlockId) (t : Terminator) (e : Nat) (old dest : BlockId) :
    f.retarget b t e old dest = { f with blocks := (f.retarget b t e old dest).blocks } := rfl

theorem operandsAt?_retarget {e : Nat} {old dest : BlockId} (ht : f.terminator? b = some t)
    (point : Point) :
    (f.retarget b t e old dest).operandsAt? point = f.operandsAt? point := by
  rcases point with i | c
  · rfl
  · rw [operandsAt?_terminator, terminator?_retarget ht, operandsAt?_terminator]
    split
    · rename_i hc
      subst hc
      simp [ht, Terminator.operands_retarget]
    · rfl

theorem Consistent.setSuccessor {e : Nat} {dest : BlockId} (h : f.Consistent)
    (hset : f.setSuccessor b e dest = .ok g) : g.Consistent := by
  obtain ⟨t, old, ht, hold, ⟨-, rfl⟩ | ⟨hne, -, hdest, rfl⟩⟩ := setSuccessor_eq_ok.mp hset
  · exact h
  · exact h.of_mapBlocks (block?_retarget f b t e old dest) (fun _ _ => rfl) (fun _ _ => rfl)
      (retarget_eq f b t e old dest) (h.edges.retarget ht hold hdest hne)
      (h.uses.congr rfl rfl (operandsAt?_retarget ht))

/-- The body after edge `e` of `b` got the operands `args` for the operands `old` that its
terminator `t` had there. -/
def exchangeArgs (f : Body) (b : BlockId) (t : Terminator) (e : Nat) (old args : List ValueId) :
    Body :=
  { f.modifyBlock b fun data => { data with terminator := some (t.withEdgeArgs e args) } with
    useIndex := (f.useIndex.unlink (.terminator b) old).link (.terminator b) args }

theorem setEdgeArgs_eq_ok {e : Nat} {args : List ValueId} {result : Option (List ValueId)} :
    f.setEdgeArgs b e args = .ok (result, g) ↔
      f.isLiveBlock b = true ∧ result = (f.terminator? b).bind (·.explicitArgs? e) ∧
        (result = none ∧ g = f ∨
          ∃ t old, f.terminator? b = some t ∧ result = some old ∧
            g = f.exchangeArgs b t e old args) := by
  unfold setEdgeArgs
  simp only [bind_eq_ok, block_eq_ok]
  constructor
  · rintro ⟨data, hb, hrest⟩
    refine ⟨isLiveBlock_of hb, ?_⟩
    rw [terminator?_of hb]
    rcases ht : data.terminator with _ | t
    · rw [ht, pure_eq_ok, Prod.mk.injEq] at hrest
      obtain ⟨rfl, rfl⟩ := hrest
      exact ⟨rfl, .inl ⟨rfl, rfl⟩⟩
    · rw [ht] at hrest
      rcases hold : t.explicitArgs? e with _ | old
      · simp only [hold, pure_eq_ok, Prod.mk.injEq] at hrest
        obtain ⟨rfl, rfl⟩ := hrest
        exact ⟨hold.symm, .inl ⟨rfl, rfl⟩⟩
      · simp only [hold, pure_eq_ok, Prod.mk.injEq] at hrest
        obtain ⟨rfl, rfl⟩ := hrest
        exact ⟨hold.symm, .inr ⟨t, old, rfl, rfl, rfl⟩⟩
  · rintro ⟨hlive, hresult, hrest⟩
    obtain ⟨data, hb⟩ := isLiveBlock_iff.mp hlive
    refine ⟨data, hb, ?_⟩
    rw [terminator?_of hb] at hresult hrest
    rcases ht : data.terminator with _ | t
    · rw [ht] at hresult hrest
      rcases hrest with ⟨rfl, rfl⟩ | ⟨t, old, hsome, -, -⟩
      · rfl
      · cases hsome
    · rw [ht] at hresult hrest
      change result = t.explicitArgs? e at hresult
      rcases hrest with ⟨rfl, rfl⟩ | ⟨t', old, hsome, rfl, rfl⟩
      · simp only [← hresult]
        rfl
      · cases hsome
        simp only [← hresult]
        rfl

theorem block?_exchangeArgs {e : Nat} {old args : List ValueId} (c : BlockId) :
    (f.exchangeArgs b t e old args).block? c =
      (f.block? c).map fun data =>
        { data with
          terminator := if c = b then some (t.withEdgeArgs e args) else data.terminator } := by
  refine (block?_modifyBlock f b c _).trans ?_
  split
  · rfl
  · rcases f.block? c with _ | data <;> rfl

theorem terminator?_exchangeArgs {e : Nat} {old args : List ValueId}
    (ht : f.terminator? b = some t) (c : BlockId) :
    (f.exchangeArgs b t e old args).terminator? c =
      if c = b then some (t.withEdgeArgs e args) else f.terminator? c := by
  obtain ⟨data, hb, -⟩ := terminator?_eq_some.mp ht
  exact terminator?_mapBlocks block?_exchangeArgs (fun _ _ => rfl) (isLiveBlock_of hb) c

theorem target?_exchangeArgs {e : Nat} {old args : List ValueId} (ht : f.terminator? b = some t)
    (x : Edge) : (f.exchangeArgs b t e old args).target? x = f.target? x := by
  rw [target?, terminator?_exchangeArgs ht, target?]
  split
  · rename_i hx
    simp [hx, ht, Terminator.successors_withEdgeArgs]
  · rfl

theorem operandsAt?_exchangeArgs {e : Nat} {old args : List ValueId}
    (ht : f.terminator? b = some t) (point : Point) :
    (f.exchangeArgs b t e old args).operandsAt? point =
      if point = .terminator b then (t.withEdgeArgs e args).operands
      else f.operandsAt? point := by
  rcases point with i | c
  · rfl
  · rw [operandsAt?_terminator, terminator?_exchangeArgs ht, operandsAt?_terminator]
    simp only [Point.terminator.injEq]
    split <;> rfl

theorem UsesListed.exchangeArgs {e : Nat} {old args : List ValueId} (h : f.UsesListed)
    (ht : f.terminator? b = some t) (hold : t.explicitArgs? e = some old)
    (halloc : ∀ v ∈ args, v.index < f.values.size) :
    (f.exchangeArgs b t e old args).UsesListed := by
  have hown : f.operandsAt? (.terminator b) = t.operands := by
    rw [operandsAt?_terminator, ht]
    rfl
  have hbalance := Terminator.count_operands_withEdgeArgs hold args
  have halloc' : ∀ v ∈ (t.withEdgeArgs e args).operands, v.index < f.values.size := by
    intro v hv
    have hpos := List.count_pos_iff.mpr hv
    have hv := hbalance v
    rcases Nat.eq_zero_or_pos (args.count v) with hzero | hpos'
    · exact @h.allocated (.terminator b) v
        (hown ▸ List.count_pos_iff.mp (show 0 < t.operands.count v by omega))
    · exact halloc v (List.count_pos_iff.mp hpos')
  refine ⟨?_, ?_, ?_⟩
  · exact (UseIndex.size_link _ _ _).trans ((UseIndex.size_unlink _ _ _).trans h.size_users)
  · intro point v hv
    rw [operandsAt?_exchangeArgs ht] at hv
    split at hv
    · exact halloc' v hv
    · exact h.allocated hv
  · intro v point
    change (((f.useIndex.unlink _ _).link _ _).usersOf v).count point = _
    rw [UseIndex.count_link, UseIndex.count_unlink, UseIndex.size_unlink, h.size_users,
      operandsAt?_exchangeArgs ht]
    change (f.usersOf v).count point - _ + _ = _
    rw [h.count_users]
    rcases Classical.em (point = .terminator b) with rfl | hne
    · have hv := hbalance v
      have hsub : old.count v ≤ t.operands.count v := by
        have hempty := Terminator.count_operands_withEdgeArgs hold [] v
        rw [List.count_nil] at hempty
        omega
      have hzero : ¬ v.index < f.values.size → args.count v = 0 := fun hge =>
        List.count_eq_zero.mpr fun hmem => hge (halloc v hmem)
      rw [hown]
      grind
    · simp [hne]

/-- The operands have to be allocated only if the edge takes operands at all. -/
theorem Consistent.setEdgeArgs {e : Nat} {args : List ValueId} {result : Option (List ValueId)}
    (h : f.Consistent)
    (halloc : ((f.terminator? b).bind (·.explicitArgs? e)).isSome = true →
      ∀ v ∈ args, v.index < f.values.size)
    (hset : f.setEdgeArgs b e args = .ok (result, g)) : g.Consistent := by
  obtain ⟨-, hresult, ⟨-, rfl⟩ | ⟨t, old, ht, rfl, rfl⟩⟩ := setEdgeArgs_eq_ok.mp hset
  · exact h
  · rw [← hresult] at halloc
    rw [ht] at hresult
    refine h.of_mapBlocks block?_exchangeArgs (fun _ _ => rfl) (fun _ _ => rfl) rfl ?_
      (h.uses.exchangeArgs ht hresult.symm (halloc rfl))
    exact h.edges.congr (preds?_mapBlocks block?_exchangeArgs fun _ _ => rfl)
      (target?_exchangeArgs ht)

end FlowGraph.Body
