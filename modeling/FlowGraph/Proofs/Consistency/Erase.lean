import FlowGraph.Proofs.Consistency.Join

namespace FlowGraph.Body

variable {f g : Body} {b c : BlockId} {data : Block}

def withoutValues (f : Body) (gone : List ValueId) : Body :=
  gone.foldl (fun f v => { f with values := f.values.erase v.index }) f

theorem withoutValues_eq (f : Body) (gone : List ValueId) :
    f.withoutValues gone = { f with values := (f.withoutValues gone).values } := by
  induction gone generalizing f with
  | nil => rfl
  | cons v rest ih =>
      change Body.withoutValues _ rest = _
      rw [ih]
      rfl

theorem origin?_withoutValues (f : Body) (gone : List ValueId) (v : ValueId) :
    (f.withoutValues gone).origin? v = if v ∈ gone then none else f.origin? v := by
  induction gone generalizing f with
  | nil => rfl
  | cons w rest ih =>
      change (Body.withoutValues _ rest).origin? v = _
      rw [ih, origin?, value?_erase, origin?]
      grind

theorem size_values_withoutValues (f : Body) (gone : List ValueId) :
    (f.withoutValues gone).values.size = f.values.size := by
  induction gone generalizing f with
  | nil => rfl
  | cons v rest ih =>
      change (Body.withoutValues _ rest).values.size = _
      rw [ih]
      exact Arena.size_erase _ _

theorem foldlM_eraseValue {gone : List ValueId} (h : gone.foldlM eraseValue f = .ok g) :
    g = f.withoutValues gone := by
  induction gone generalizing f with
  | nil =>
      cases h
      rfl
  | cons v rest ih =>
      rw [List.foldlM_cons, bind_eq_ok] at h
      obtain ⟨body, hbody, hrest⟩ := h
      obtain ⟨-, rfl⟩ := eraseValue_eq_ok.mp hbody
      exact ih hrest

def withoutInstrs (f : Body) (gone : List InstrId) : Body := gone.foldl withoutInstr f

theorem withoutInstrs_eq (f : Body) (gone : List InstrId) :
    f.withoutInstrs gone =
      { f with
        instrs := (f.withoutInstrs gone).instrs
        values := (f.withoutInstrs gone).values
        useIndex := (f.withoutInstrs gone).useIndex } := by
  induction gone generalizing f with
  | nil => rfl
  | cons i rest ih =>
      change (f.withoutInstr i).withoutInstrs rest = _
      rw [ih]
      rfl

theorem instr?_withoutInstrs (f : Body) (gone : List InstrId) (j : InstrId) :
    (f.withoutInstrs gone).instr? j = if j ∈ gone then none else f.instr? j := by
  induction gone generalizing f with
  | nil => rfl
  | cons i rest ih =>
      change ((f.withoutInstr i).withoutInstrs rest).instr? j = _
      rw [ih, instr?_withoutInstr]
      grind

theorem origin?_withoutInstrs (f : Body) (gone : List InstrId) (v : ValueId) :
    (f.withoutInstrs gone).origin? v =
      if ∃ i ∈ gone, f.result? i = some v then none else f.origin? v := by
  induction gone generalizing f with
  | nil => simp [withoutInstrs]
  | cons i rest ih =>
      have hresult : ∀ j, (f.withoutInstr i).result? j = if j = i then none else f.result? j := by
        intro j
        rw [result?, instr?_withoutInstr, result?]
        split <;> rfl
      change ((f.withoutInstr i).withoutInstrs rest).origin? v = _
      rw [ih, origin?_withoutInstr]
      simp only [hresult, List.exists_mem_cons_iff]
      rcases Classical.em (f.result? i = some v) with hi | hi
      · simp [hi]
      · have hrest : (∃ j ∈ rest, (if j = i then none else f.result? j) = some v) ↔
            ∃ j ∈ rest, f.result? j = some v := by
          refine exists_congr fun j => and_congr_right fun _ => ?_
          split
          · rename_i hj
            simp [hj, hi]
          · rfl
        simp only [hrest, hi, false_or, if_false]

theorem UsesListed.withoutInstrs (h : f.UsesListed) (gone : List InstrId) :
    (f.withoutInstrs gone).UsesListed := by
  induction gone generalizing f with
  | nil => exact h
  | cons i rest ih => exact ih (h.withoutInstr i)

theorem eraseInstrs_ok {gone : List InstrId} (h : f.eraseInstrs gone = .ok g) :
    g = f.withoutInstrs gone := by
  induction gone generalizing f with
  | nil =>
      cases h
      rfl
  | cons i rest ih =>
      rw [eraseInstrs, bind_eq_ok] at h
      obtain ⟨data, hi, hrest⟩ := h
      rw [instr_eq_ok] at hi
      have hoperands : f.operandsAt? (.instr i) = data.op.operands := by simp [operandsAt?, hi]
      have hresult : f.result? i = data.result := by simp [result?, hi]
      change g = (f.withoutInstr i).withoutInstrs rest
      unfold withoutInstr
      rw [hoperands, hresult]
      rcases hdata : data.result with _ | v
      · simp only [hdata, bind_eq_ok, pure_eq_ok] at hrest
        obtain ⟨_, rfl, hrest⟩ := hrest
        exact ih hrest
      · simp only [hdata, bind_eq_ok, eraseValue_eq_ok] at hrest
        obtain ⟨_, ⟨-, rfl⟩, hrest⟩ := hrest
        exact ih hrest

/-- The body in which `b` holds nothing any more. -/
def emptied (f : Body) (b : BlockId) (data : Block) : Body :=
  ((f.modifyBlock b fun data => { data with args := [], instrs := [] }).withoutValues
    data.args).withoutInstrs data.instrs

theorem emptied_eq (f : Body) (b : BlockId) (data : Block) :
    f.emptied b data =
      { f.modifyBlock b fun data => { data with args := [], instrs := [] } with
        instrs := (f.emptied b data).instrs
        values := (f.emptied b data).values
        useIndex := (f.emptied b data).useIndex } := by
  rw [emptied, withoutInstrs_eq, withoutValues_eq]

theorem block?_emptied (f : Body) (b : BlockId) (data : Block) (c : BlockId) :
    (f.emptied b data).block? c =
      (f.block? c).map fun other =>
        { other with
          args := if c = b then [] else other.args
          instrs := if c = b then [] else other.instrs } := by
  rw [emptied_eq]
  refine (block?_modifyBlock f b c _).trans ?_
  split
  · rfl
  · exact Option.map_id'.symm

theorem terminator?_emptied (f : Body) (b : BlockId) (data : Block) (c : BlockId) :
    (f.emptied b data).terminator? c = f.terminator? c := by
  rw [terminator?, block?_emptied, terminator?]
  rcases f.block? c with _ | other <;> rfl

theorem instr?_emptied (f : Body) (b : BlockId) (data : Block) (i : InstrId) :
    (f.emptied b data).instr? i = if i ∈ data.instrs then none else f.instr? i := by
  rw [emptied, instr?_withoutInstrs, withoutValues_eq]
  rfl

theorem origin?_emptied (f : Body) (b : BlockId) (data : Block) (v : ValueId) :
    (f.emptied b data).origin? v =
      if v ∈ data.args ∨ ∃ i ∈ data.instrs, f.result? i = some v then none else f.origin? v := by
  have hresult : ∀ i, ((f.modifyBlock b fun data =>
      { data with args := [], instrs := [] }).withoutValues data.args).result? i = f.result? i := by
    intro i
    rw [withoutValues_eq]
    rfl
  rw [emptied, origin?_withoutInstrs, origin?_withoutValues]
  simp only [hresult]
  change (if _ then none else if v ∈ data.args then none else f.origin? v) = _
  rcases Classical.em (v ∈ data.args) with hv | hv
  · simp [hv]
  · simp only [hv, false_or, if_false]

theorem Consistent.emptied (h : f.Consistent) (hb : f.block? b = some data) :
    (f.emptied b data).Consistent := by
  have hblocks := block?_emptied f b data
  have hterm := terminator?_emptied f b data
  have hinstr := instr?_emptied f b data
  have hmem := fun i => @InstrsListed.mem_instrs _ h.instrs _ _ (instrs?_of hb) i
  have hmem' := fun v => @ArgsListed.mem_args _ h.args _ _ (args?_of hb) v
  have hresults : ∀ i v, f.result? i = some v ↔ f.origin? v = some (.result i) := h.results
  refine ⟨?_, ?_, ?_, ?_, ?_, ?_⟩
  · exact h.layout.congr (by rw [emptied_eq]; rfl) (isLiveBlock_mapBlocks hblocks)
  · exact h.edges.congr (preds?_mapBlocks hblocks fun _ _ => rfl) (target?_congr hterm)
  · refine h.instrs.filter data.instrs (fun c => ?_) fun i => ?_
    · rw [instrs?, hblocks, Option.map_map, instrs?]
      rcases hc : f.block? c with _ | other
      · rfl
      · simp only [Option.map_some, Function.comp_apply, Option.some.injEq]
        split
        · rename_i hcb
          subst hcb
          rw [hb, Option.some.injEq] at hc
          rw [← hc, eq_comm, List.filter_eq_nil_iff]
          simp
        · -- No other block lists what is held by `b`.
          rename_i hcb
          rw [eq_comm, List.filter_eq_self]
          intro i hi
          have hother := (h.instrs.mem_instrs (instrs?_of hc)).mp hi
          simp only [decide_eq_true_eq]
          intro hdata
          rw [(hmem i).mp hdata, Option.some.injEq] at hother
          exact hcb hother.symm
    · rw [holder?, hinstr, holder?]
      split <;> rfl
  · refine h.args.discard (fun v => v ∈ data.args ∨ ∃ i ∈ data.instrs, f.result? i = some v)
      (· = b) (fun c => ?_) (origin?_emptied f b data) ?_
    · rw [args?, hblocks, Option.map_map, args?, Option.map_map]
      rfl
    · intro v c index kind hv
      simp [hmem', hresults, hv, @eq_comm _ c b]
  · refine h.results.discard data.instrs
      (fun v => v ∈ data.args ∨ ∃ i ∈ data.instrs, f.result? i = some v) (fun i => ?_)
      (origin?_emptied f b data) ?_
    · rw [result?, hinstr, result?]
      split <;> rfl
    · intro v i hv
      simp [hmem', hresults, hv]
  · refine UsesListed.withoutInstrs ?_ _
    have hclear : ∀ c, (f.modifyBlock b fun data =>
        { data with args := [], instrs := [] }).terminator? c = f.terminator? c :=
      fun c => terminator?_modifyBlock f b c fun _ => rfl
    refine h.uses.congr ?_ (size_values_withoutValues _ _) (operandsAt?_congr (fun c => ?_) ?_)
    · rw [withoutValues_eq]
      rfl
    · rw [withoutValues_eq]
      exact hclear c
    · intro i
      rw [withoutValues_eq]
      rfl

theorem Consistent.eraseBlock (h : f.Consistent) (herase : f.eraseBlock b = .ok g) :
    g.Consistent := by
  simp only [Body.eraseBlock, bind_eq_ok, block_eq_ok, guard_eq_ok, Prod.exists, takeTerminator_eq_ok,
    pure_eq_ok] at herase
  obtain ⟨data, hb, hincoming, _, _, ⟨data', hb', rfl, rfl⟩, data'', hb'', _, hvalues, _, hinstrs,
    rfl⟩ := herase
  rw [hb, Option.some.injEq] at hb'
  subst hb'
  have hdetach := h.detach hb
  rw [eraseInstrs_ok hinstrs, foldlM_eraseValue hvalues]
  have hempty := hdetach.emptied hb''
  have hterm : (f.detach b data.terminator).terminator? b = none := by
    rw [h.edges.terminator?_detach hb, if_pos rfl]
  have hself := block?_emptied (f.detach b data.terminator) b data'' b
  rw [hb'', Option.map_some] at hself
  refine hempty.dropBlock ((terminator?_emptied _ _ _ _).trans hterm) ?_ ?_ fun e he => ?_
  · exact (args?_of hself).trans (congrArg some (if_pos rfl))
  · exact (instrs?_of hself).trans (congrArg some (if_pos rfl))
  · have he := (target?_congr (terminator?_emptied _ _ _) e).symm.trans he
    rw [h.edges.target?_detach hb] at he
    split at he
    · cases he
    · rename_i hne
      have hmem := (h.edges.mem_preds (preds?_of hb)).mpr he
      have hempty : (data.preds.filter (·.block ≠ b)) = [] := by simpa using hincoming
      have : e ∈ data.preds.filter (·.block ≠ b) :=
        List.mem_filter.mpr ⟨hmem, decide_eq_true hne⟩
      rw [hempty] at this
      cases this

end FlowGraph.Body
