import FlowGraph.Proofs.Consistency.Cut

namespace FlowGraph

/-- The renaming of each value of the first list to the value at the same place of the second, one
after the other. -/
def renameAll : List ValueId → List ValueId → ValueId → ValueId
  | arg :: args, operand :: operands, v => renameAll args operands (rename arg operand v)
  | _, _, v => v

theorem renameAll_of_notMem {args operands : List ValueId} {v : ValueId} (hv : v ∉ args) :
    renameAll args operands v = v := by
  induction args generalizing operands with
  | nil => rfl
  | cons arg args ih =>
      rw [List.mem_cons, not_or] at hv
      rcases operands with _ | ⟨operand, operands⟩
      · rfl
      · rw [renameAll, rename_of_ne hv.1]
        exact ih hv.2

theorem renameAll_mem {args operands : List ValueId} {v : ValueId}
    (hlen : args.length = operands.length) (hfree : ∀ o ∈ operands, o ∉ args) (hv : v ∈ args) :
    renameAll args operands v ∈ operands := by
  induction args generalizing operands v with
  | nil => cases hv
  | cons arg args ih =>
      rcases operands with _ | ⟨operand, operands⟩
      · cases hlen
      · rw [renameAll, rename]
        have hlen' : args.length = operands.length := Nat.succ.inj hlen
        have hfree' : ∀ o ∈ operands, o ∉ args := fun o ho hmem =>
          hfree o (List.mem_cons_of_mem _ ho) (List.mem_cons_of_mem _ hmem)
        split
        · rw [renameAll_of_notMem fun hmem =>
            hfree operand List.mem_cons_self (List.mem_cons_of_mem _ hmem)]
          exact List.mem_cons_self
        · rename_i hne
          rcases List.mem_cons.mp hv with heq | hmem
          · exact (hne heq).elim
          · exact List.mem_cons_of_mem _ (ih hlen' hfree' hmem)

namespace Body

variable {f g : Body} {b c succ : BlockId} {data : Block} {args operands : List ValueId}

theorem block?_dropBlock (f : Body) (b c : BlockId) :
    (f.dropBlock b).block? c = if c = b then none else f.block? c := by
  refine (Arena.get?_erase f.blocks b.index c.index).trans ?_
  simp only [blockId_ext]
  rfl

theorem terminator?_dropBlock (hnone : f.terminator? b = none) (c : BlockId) :
    (f.dropBlock b).terminator? c = f.terminator? c := by
  rw [terminator?, block?_dropBlock]
  split
  · rename_i hc
    rw [hc, hnone]
    rfl
  · rfl

theorem Consistent.dropBlock (h : f.Consistent) (hterm : f.terminator? b = none)
    (hargs : f.args? b = some []) (hinstrs : f.instrs? b = some [])
    (htarget : ∀ e, f.target? e ≠ some b) : (f.dropBlock b).Consistent := by
  have hlive : ∀ c, (f.dropBlock b).isLiveBlock c = true ↔ f.isLiveBlock c = true ∧ c ≠ b := by
    intro c
    rw [isLiveBlock, block?_dropBlock]
    split <;> simp [isLiveBlock, *]
  have hterm' := terminator?_dropBlock hterm
  have hnoInstr : ∀ i, f.holder? i ≠ some b := by
    intro i hi
    exact List.not_mem_nil ((h.instrs.mem_instrs hinstrs).mpr hi)
  have hnoArg : ∀ v index kind, f.origin? v ≠ some (.argument b index kind) := by
    intro v index kind hv
    exact List.not_mem_nil ((h.args.mem_args hargs).mpr ⟨index, kind, hv⟩)
  have hother : ∀ {c other}, (f.dropBlock b).block? c = some other → f.block? c = some other := by
    intro c other hc
    rw [block?_dropBlock] at hc
    split at hc
    · cases hc
    · exact hc
  refine ⟨⟨?_, ?_⟩, ⟨?_, ?_⟩, ⟨?_, ?_⟩, ⟨?_, ?_⟩, h.results, ?_⟩
  · exact h.layout.nodup.filter _
  · intro c
    rw [hlive, ← h.layout.mem_iff]
    change c ∈ f.layout.filter _ ↔ _
    rw [List.mem_filter, decide_eq_true_eq]
  · intro c preds hc e
    obtain ⟨other, hblock, rfl⟩ := preds?_eq_some.mp hc
    rw [target?_congr hterm']
    exact h.edges.count_preds (preds?_of (hother hblock)) e
  · intro e c he
    rw [target?_congr hterm'] at he
    refine (hlive c).mpr ⟨h.edges.live_target he, ?_⟩
    rintro rfl
    exact htarget e he
  · intro c instrs hc i
    obtain ⟨other, hblock, rfl⟩ := instrs?_eq_some.mp hc
    exact h.instrs.count_instrs (instrs?_of (hother hblock)) i
  · intro i c hi
    refine (hlive c).mpr ⟨h.instrs.live_holder hi, ?_⟩
    rintro rfl
    exact hnoInstr i hi
  · intro c args hc index v
    obtain ⟨other, hblock, rfl⟩ := args?_eq_some.mp hc
    exact h.args.getElem?_args (args?_of (hother hblock)) index v
  · intro v c index kind hv
    refine (hlive c).mpr ⟨h.args.live_block hv, ?_⟩
    rintro rfl
    exact hnoArg v index kind hv
  · exact h.uses.congr rfl rfl (operandsAt?_congr hterm' fun _ => rfl)

/-- The body after the arguments were replaced by the operands and erased. -/
def bound (f : Body) : List ValueId → List ValueId → Body
  | arg :: args, operand :: operands =>
    { f.replaceAllUses arg operand with values := f.values.erase arg.index : Body }.bound args
      operands
  | _, _ => f

theorem bindArgs_eq_ok (hlen : args.length = operands.length) :
    f.bindArgs args operands = .ok g ↔
      (∀ v ∈ args, v.index < f.values.size) ∧ g = f.bound args operands := by
  induction args generalizing f operands with
  | nil =>
      constructor
      · rintro ⟨⟩
        exact ⟨fun _ hv => (List.not_mem_nil hv).elim, rfl⟩
      · rintro ⟨-, rfl⟩
        rfl
  | cons arg args ih =>
      rcases operands with _ | ⟨operand, operands⟩
      · cases hlen
      · have hlen' : args.length = operands.length := Nat.succ.inj hlen
        simp only [bindArgs, bind_eq_ok, eraseValue_eq_ok, values_replaceAllUses,
          List.forall_mem_cons, bound]
        constructor
        · rintro ⟨_, ⟨harg, rfl⟩, hrest⟩
          obtain ⟨hargs, rfl⟩ := (ih hlen').mp hrest
          simp only [Arena.size_erase] at hargs
          exact ⟨⟨harg, hargs⟩, rfl⟩
        · rintro ⟨⟨harg, hargs⟩, rfl⟩
          refine ⟨_, ⟨harg, rfl⟩, (ih hlen').mpr ⟨?_, rfl⟩⟩
          simp only [Arena.size_erase]
          exact hargs

section Bound

variable (f args operands)

theorem layout_bound : (f.bound args operands).layout = f.layout := by
  induction args generalizing f operands with
  | nil => rfl
  | cons arg args ih =>
      rcases operands with _ | ⟨operand, operands⟩
      · rfl
      · rw [bound, ih]
        exact layout_replaceAllUses f arg operand

variable {args operands}

theorem value?_bound (hlen : args.length = operands.length) (v : ValueId) :
    (f.bound args operands).value? v = if v ∈ args then none else f.value? v := by
  induction args generalizing f operands with
  | nil => rfl
  | cons arg args ih =>
      rcases operands with _ | ⟨operand, operands⟩
      · cases hlen
      · have herase : { f.replaceAllUses arg operand with
            values := f.values.erase arg.index : Body }.value? v =
              if v = arg then none else f.value? v := value?_erase f arg v
        rw [bound, ih _ (Nat.succ.inj hlen), herase]
        grind

end Bound

theorem UsesListed.bind_one (h : f.UsesListed) {arg operand : ValueId}
    (halloc : operand.index < f.values.size) :
    { f.replaceAllUses arg operand with values := f.values.erase arg.index : Body }.UsesListed := by
  refine (h.replaceAllUses fun _ => halloc).congr rfl ?_ fun _ => rfl
  rw [values_replaceAllUses]
  exact Arena.size_erase _ _

theorem UsesListed.bound (h : f.UsesListed) (halloc : ∀ o ∈ operands, o.index < f.values.size) :
    (f.bound args operands).UsesListed := by
  induction args generalizing f operands with
  | nil => exact h
  | cons arg args ih =>
      rcases operands with _ | ⟨operand, operands⟩
      · exact h
      · rw [List.forall_mem_cons] at halloc
        refine ih (h.bind_one halloc.1) fun o ho => ?_
        rw [Arena.size_erase]
        exact halloc.2 o ho

theorem UsesListed.renamed_bound (h : f.UsesListed)
    (halloc : ∀ o ∈ operands, o.index < f.values.size) :
    Renamed (renameAll args operands) f (f.bound args operands) := by
  induction args generalizing f operands with
  | nil =>
      exact .refl (fun _ => rfl) f
  | cons arg args ih =>
      rcases operands with _ | ⟨operand, operands⟩
      · exact .refl (fun _ => rfl) f
      · rw [List.forall_mem_cons] at halloc
        have hrenamed := h.renamed_replaceAllUses arg operand
        have hfirst : Renamed (rename arg operand) f
            { f.replaceAllUses arg operand with values := f.values.erase arg.index } :=
          ⟨hrenamed.block?, hrenamed.instr?⟩
        refine hfirst.trans (ih (h.bind_one halloc.1) fun o ho => ?_)
        rw [Arena.size_erase]
        exact halloc.2 o ho

/-- The body after the arguments of `succ` were bound to the operands. -/
def passArgs (f : Body) (succ : BlockId) (args operands : List ValueId) : Body :=
  (f.modifyBlock succ fun data => { data with args := [] }).bound args operands

theorem terminator?_clearArgs (f : Body) (succ c : BlockId) :
    (f.modifyBlock succ fun data => { data with args := [] }).terminator? c = f.terminator? c :=
  terminator?_modifyBlock f succ c fun _ => rfl

theorem UsesListed.clearArgs (h : f.UsesListed) (succ : BlockId) :
    (f.modifyBlock succ fun data => { data with args := [] }).UsesListed :=
  h.congr rfl rfl (operandsAt?_congr (terminator?_clearArgs f succ) fun _ => rfl)

section PassArgs

variable (huses : f.UsesListed) (halloc : ∀ o ∈ operands, o.index < f.values.size)
include huses halloc

theorem renamed_passArgs (succ : BlockId) (args : List ValueId) :
    Renamed (renameAll args operands) (f.modifyBlock succ fun data => { data with args := [] })
      (f.passArgs succ args operands) :=
  (huses.clearArgs succ).renamed_bound halloc

theorem block?_passArgs (succ : BlockId) (args : List ValueId) (c : BlockId) :
    (f.passArgs succ args operands).block? c =
      (f.block? c).map fun data =>
        { data with
          args := if c = succ then [] else data.args
          terminator := data.terminator.map (·.mapOperands (renameAll args operands)) } := by
  rw [(renamed_passArgs huses halloc succ args).block?, block?_modifyBlock]
  split
  · rw [Option.map_map]
    rfl
  · rfl

theorem instr?_passArgs (succ : BlockId) (args : List ValueId) (i : InstrId) :
    (f.passArgs succ args operands).instr? i =
      (f.instr? i).map fun data =>
        { data with op := data.op.mapOperands (renameAll args operands) } :=
  (renamed_passArgs huses halloc succ args).instr? i

end PassArgs

theorem value?_passArgs (hlen : args.length = operands.length) (v : ValueId) :
    (f.passArgs succ args operands).value? v = if v ∈ args then none else f.value? v :=
  value?_bound _ hlen v

theorem Consistent.passArgs (h : f.Consistent) (hargs : f.args? succ = some args)
    (hlen : args.length = operands.length) (halloc : ∀ o ∈ operands, o.index < f.values.size) :
    (f.passArgs succ args operands).Consistent := by
  have hblocks := block?_passArgs h.uses halloc succ args
  have hinstr := instr?_passArgs h.uses halloc succ args
  have htarget : ∀ e, (f.passArgs succ args operands).target? e = f.target? e := by
    intro e
    refine ((renamed_passArgs h.uses halloc succ args).target? e).trans ?_
    exact target?_congr (terminator?_clearArgs f succ) e
  have horigin : ∀ v, (f.passArgs succ args operands).origin? v =
      if v ∈ args then none else f.origin? v := by
    intro v
    rw [origin?, value?_passArgs hlen, origin?]
    split <;> rfl
  refine ⟨?_, ?_, ?_, ?_, ?_, ?_⟩
  · exact h.layout.congr (layout_bound _ _ _) (isLiveBlock_mapBlocks hblocks)
  · exact h.edges.congr (preds?_mapBlocks hblocks fun _ _ => rfl) htarget
  · refine h.instrs.congr (instrs?_mapBlocks hblocks fun _ _ => rfl) fun i => ?_
    rw [holder?, hinstr, holder?]
    rcases f.instr? i with _ | data <;> rfl
  · refine h.args.discard (· ∈ args) (· = succ) (fun c => ?_) horigin ?_
    · rw [args?, hblocks, Option.map_map, args?, Option.map_map]
      rfl
    · intro v c index kind hv
      rw [h.args.mem_args hargs, hv]
      simp [eq_comm]
  · refine h.results.discard [] (· ∈ args) (fun i => ?_) horigin ?_
    · rw [result?, hinstr, result?]
      rcases f.instr? i with _ | data <;> rfl
    · intro v i hv
      rw [h.args.mem_args hargs, hv]
      simp
  · exact (h.uses.clearArgs succ).bound halloc

/-- The body after the instructions of `source`, which are given, were moved to the end of
`target`. -/
def spliceInstrs (f : Body) (source target : BlockId) (moved : List InstrId) : Body :=
  ((f.modifyBlock source fun data => { data with instrs := [] }).relocate target
    moved).modifyBlock target fun data => { data with instrs := data.instrs ++ moved }

section SpliceInstrs

variable {source target : BlockId} {moved : List InstrId}

theorem block?_spliceInstrs (hne : source ≠ target) (moved : List InstrId) (c : BlockId) :
    (f.spliceInstrs source target moved).block? c =
      (f.block? c).map fun data =>
        { data with
          instrs := if c = source then [] else if c = target then data.instrs ++ moved
            else data.instrs } := by
  rw [spliceInstrs, block?_modifyBlock, relocate_eq]
  change (if c = target then ((f.modifyBlock source _).block? c).map _
    else (f.modifyBlock source _).block? c) = _
  rw [block?_modifyBlock]
  rcases Classical.em (c = source) with rfl | hsource
  · simp [hne]
  · rcases Classical.em (c = target) with rfl | htarget
    · simp [hsource]
    · simp [hsource, htarget]

theorem instr?_spliceInstrs (f : Body) (source target : BlockId) (moved : List InstrId)
    (i : InstrId) :
    (f.spliceInstrs source target moved).instr? i =
      (f.instr? i).map fun data =>
        { data with block := if i ∈ moved then target else data.block } :=
  instr?_relocate _ _ _ _

theorem spliceInstrs_eq (f : Body) (source target : BlockId) (moved : List InstrId) :
    f.spliceInstrs source target moved =
      { f with
        blocks := (f.spliceInstrs source target moved).blocks
        instrs := (f.spliceInstrs source target moved).instrs } := by
  rw [spliceInstrs, relocate_eq]
  rfl

theorem terminator?_spliceInstrs (hne : source ≠ target) (moved : List InstrId) (c : BlockId) :
    (f.spliceInstrs source target moved).terminator? c = f.terminator? c := by
  rw [terminator?, block?_spliceInstrs hne, terminator?]
  rcases f.block? c with _ | data <;> rfl

theorem Consistent.spliceInstrs (h : f.Consistent) (hne : source ≠ target)
    (hsource : f.instrs? source = some moved) (htarget : f.isLiveBlock target = true) :
    (f.spliceInstrs source target moved).Consistent := by
  have hblocks := fun c => block?_spliceInstrs (f := f) hne moved c
  have hterm := fun c => terminator?_spliceInstrs (f := f) hne moved c
  have hinstr := instr?_spliceInstrs f source target moved
  have horigin : ∀ v, (f.spliceInstrs source target moved).origin? v = f.origin? v := by
    intro v
    rw [spliceInstrs_eq]
    rfl
  obtain ⟨tdata, ht⟩ := isLiveBlock_iff.mp htarget
  obtain ⟨sdata, hs, rfl⟩ := instrs?_eq_some.mp hsource
  have hlive : ∀ i ∈ sdata.instrs, f.isLiveInstr i = true := fun i hi =>
    h.instrs.isLiveInstr hsource hi
  refine ⟨?_, ?_, ?_, ?_, ?_, ?_⟩
  · exact h.layout.congr (by rw [spliceInstrs_eq]) (isLiveBlock_mapBlocks hblocks)
  · exact h.edges.congr (preds?_mapBlocks hblocks fun _ _ => rfl) (target?_congr hterm)
  · refine @InstrsListed.move _ _ _ _ h.instrs hne [] _ _ hsource (instrs?_of ht) (fun c => ?_) fun i => ?_
    · rw [instrs?, hblocks, Option.map_map, instrs?]
      split
      · rename_i hc
        subst hc
        rw [hs]
        simp
      · split
        · rename_i hc
          subst hc
          rw [ht]
          rfl
        · rfl
    · exact holder?_relocate (f.modifyBlock source fun data => { data with instrs := [] }) target _
        hlive i
  · exact h.args.congr (args?_mapBlocks hblocks fun _ _ => rfl) horigin
  · refine h.results.congr (fun i => ?_) horigin
    rw [result?, hinstr, result?]
    rcases f.instr? i with _ | data <;> rfl
  · refine h.uses.congr (by rw [spliceInstrs_eq]) (by rw [spliceInstrs_eq])
      (operandsAt?_congr hterm fun i => ?_)
    rw [operation?, hinstr, operation?]
    rcases f.instr? i with _ | data <;> rfl

end SpliceInstrs

/-- Block `b` branches with `operands` to another block `succ`, which has the data `sdata`, takes
that many arguments and has no other incoming edge. -/
structure Absorbable (f : Body) (b succ : BlockId) (operands : List ValueId) (sdata : Block) :
    Prop where
  branch : f.terminator? b = some (.br succ operands)
  ne : succ ≠ b
  block : f.block? succ = some sdata
  single : sdata.preds.length = 1
  arity : sdata.args.length = operands.length

/-- The body in which `b` has the instructions of `succ` but no terminator. -/
def joined (f : Body) (b succ : BlockId) (operands : List ValueId) (sdata : Block) : Body :=
  ((f.detach b (some (.br succ operands))).passArgs succ sdata.args operands).spliceInstrs succ b
    sdata.instrs

theorem layout_joined (f : Body) (b succ : BlockId) (operands : List ValueId) (sdata : Block) :
    (f.joined b succ operands sdata).layout = f.layout := by
  rw [joined, spliceInstrs_eq]
  refine (layout_bound _ _ _).trans ?_
  rw [detach_eq]
  rfl

/-- The body after `b` has absorbed `succ`. -/
def absorbed (f : Body) (b succ : BlockId) (operands : List ValueId) (sdata : Block) : Body :=
  ((f.joined b succ operands sdata).handOver succ b
    (sdata.terminator.map (·.mapOperands (renameAll sdata.args operands)))).dropBlock succ

namespace Absorbable

variable {sdata : Block} (h : f.Absorbable b succ operands sdata)
include h

theorem target?_iff (hedges : f.EdgesListed) {e : Edge} : f.target? e = some succ ↔ e = ⟨b, 0⟩ := by
  have hbranch : f.target? ⟨b, 0⟩ = some succ := target?_eq_some.mpr ⟨_, h.branch, rfl⟩
  obtain ⟨only, honly⟩ := List.length_eq_one_iff.mp h.single
  have hmem := fun e => @EdgesListed.mem_preds _ hedges _ _ (preds?_of h.block) e
  rw [honly] at hmem
  rw [← hmem, List.mem_singleton, ← List.mem_singleton.mp ((hmem _).mpr hbranch)]

theorem allocated (huses : f.UsesListed) : ∀ o ∈ operands, o.index < f.values.size := by
  intro o ho
  refine @huses.allocated (.terminator b) o ?_
  rw [operandsAt?_terminator, h.branch]
  exact ho

theorem allocated_detach (huses : f.UsesListed) :
    ∀ o ∈ operands, o.index < (f.detach b (some (.br succ operands))).values.size := by
  rw [detach_eq]
  exact h.allocated huses

section Joined

variable (hedges : f.EdgesListed) (huses : f.UsesListed)
include hedges huses

theorem usesListed_detach : (f.detach b (some (.br succ operands))).UsesListed := by
  obtain ⟨data, hb, ht⟩ := terminator?_eq_some.mp h.branch
  have := huses.detach hedges hb
  rwa [ht] at this

theorem block?_joined (c : BlockId) :
    (f.joined b succ operands sdata).block? c =
      (f.block? c).map fun data =>
        { args := if c = succ then [] else data.args
          instrs := if c = succ then [] else if c = b then data.instrs ++ sdata.instrs
            else data.instrs
          terminator := if c = b then none
            else data.terminator.map (·.mapOperands (renameAll sdata.args operands))
          preds := data.preds.filter (·.block ≠ b) } := by
  obtain ⟨data, hb, ht⟩ := terminator?_eq_some.mp h.branch
  have hdetach := hedges.block?_detach hb c
  rw [ht] at hdetach
  rw [joined, block?_spliceInstrs h.ne,
    block?_passArgs (h.usesListed_detach hedges huses) (h.allocated_detach huses), hdetach,
    Option.map_map, Option.map_map]
  refine congrArg (fun φ => Option.map φ (f.block? c)) (funext fun other => ?_)
  simp only [Function.comp_apply]
  congr 1
  split <;> rfl

theorem instr?_joined (i : InstrId) :
    (f.joined b succ operands sdata).instr? i =
      (f.instr? i).map fun data =>
        { data with
          op := data.op.mapOperands (renameAll sdata.args operands)
          block := if i ∈ sdata.instrs then b else data.block } := by
  rw [joined, instr?_spliceInstrs,
    instr?_passArgs (h.usesListed_detach hedges huses) (h.allocated_detach huses), detach_eq,
    Option.map_map]
  rfl

end Joined

theorem consistent_joined (hf : f.Consistent) : (f.joined b succ operands sdata).Consistent := by
  obtain ⟨data, hb, ht⟩ := terminator?_eq_some.mp h.branch
  have hdetach := hf.detach hb
  have hsucc := hf.edges.block?_detach hb succ
  rw [ht] at hdetach hsucc
  rw [h.block, Option.map_some] at hsucc
  have halloc := h.allocated_detach hf.uses
  have hpass := hdetach.passArgs (args?_of hsucc) h.arity halloc
  have hblocks := block?_passArgs hdetach.uses halloc succ sdata.args
  refine hpass.spliceInstrs h.ne ?_ ?_
  · rw [instrs?, hblocks, hsucc]
    rfl
  · rw [isLiveBlock_mapBlocks hblocks, isLiveBlock_detach]
    exact isLiveBlock_of hb

theorem block?_joined_succ (hedges : f.EdgesListed) (huses : f.UsesListed) :
    ∃ other, (f.joined b succ operands sdata).block? succ = some other ∧
      other.args = [] ∧ other.instrs = [] ∧
      other.terminator = sdata.terminator.map (·.mapOperands (renameAll sdata.args operands)) := by
  have hsucc := h.block?_joined hedges huses succ
  rw [h.block, Option.map_some] at hsucc
  exact ⟨_, hsucc, if_pos rfl, if_pos rfl, if_neg h.ne⟩

theorem block?_joined_self (hedges : f.EdgesListed) (huses : f.UsesListed) :
    ∃ other, (f.joined b succ operands sdata).block? b = some other ∧
      other.terminator = none := by
  obtain ⟨data, hb, -⟩ := terminator?_eq_some.mp h.branch
  have hself := h.block?_joined hedges huses b
  rw [hb, Option.map_some] at hself
  exact ⟨_, hself, if_pos rfl⟩

theorem terminator?_handOver_joined (hf : f.Consistent) (c : BlockId) :
    ((f.joined b succ operands sdata).handOver succ b
        (sdata.terminator.map (·.mapOperands (renameAll sdata.args operands)))).terminator? c =
      (if c = b then f.terminator? succ else if c = succ then none else f.terminator? c).map
        (·.mapOperands (renameAll sdata.args operands)) := by
  obtain ⟨other, hother, -, -, hterm⟩ := h.block?_joined_succ hf.edges hf.uses
  obtain ⟨self, hself, hfree⟩ := h.block?_joined_self hf.edges hf.uses
  have hjoined := h.consistent_joined hf
  rw [terminator?_handOver hjoined.edges hother hterm hself hfree]
  split
  · rw [terminator?_of h.block]
  · rename_i hcb
    split
    · rfl
    · rw [terminator?, h.block?_joined hf.edges hf.uses, terminator?]
      rcases f.block? c with _ | data
      · rfl
      · simp [hcb]

theorem consistent_absorbed (hf : f.Consistent) : (f.absorbed b succ operands sdata).Consistent := by
  obtain ⟨other, hother, hargs, hinstrs, hterm⟩ := h.block?_joined_succ hf.edges hf.uses
  obtain ⟨self, hself, hfree⟩ := h.block?_joined_self hf.edges hf.uses
  have hjoined := h.consistent_joined hf
  have hover := hjoined.handOver hother hterm hself hfree
  have hterms := h.terminator?_handOver_joined hf
  refine hover.dropBlock ?_ ?_ ?_ fun e he => ?_
  · rw [hterms, if_neg h.ne, if_pos rfl]
    rfl
  · rw [args?_handOver hjoined.edges hother hterm, args?_of hother, hargs]
  · rw [instrs?_handOver hjoined.edges hother hterm, instrs?_of hother, hinstrs]
  · -- an edge to `succ` would be a second one: its own, or one of a third block
    have hsucc : ∀ (c : BlockId), c ≠ b → ∀ t, f.terminator? c = some t →
        t.successors[e.index]? ≠ some succ := by
      intro c hc t ht hs
      have := (h.target?_iff hf.edges).mp
        (show f.target? ⟨c, e.index⟩ = some succ from target?_eq_some.mpr ⟨t, ht, hs⟩)
      exact hc (congrArg Edge.block this)
    obtain ⟨t, ht, hs⟩ := target?_eq_some.mp he
    rw [hterms, Option.map_eq_some_iff] at ht
    obtain ⟨t', ht', rfl⟩ := ht
    rw [Terminator.successors_mapOperands] at hs
    split at ht'
    · exact hsucc succ h.ne t' ht' hs
    · rename_i hcb
      split at ht'
      · cases ht'
      · exact hsucc e.block hcb t' ht' hs

theorem terminator?_absorbed (hf : f.Consistent) (c : BlockId) :
    (f.absorbed b succ operands sdata).terminator? c =
      (if c = b then f.terminator? succ else if c = succ then none else f.terminator? c).map
        (·.mapOperands (renameAll sdata.args operands)) := by
  have hterms := h.terminator?_handOver_joined hf
  refine (terminator?_dropBlock ?_ c).trans (hterms c)
  rw [hterms, if_neg h.ne, if_pos rfl]
  rfl

theorem args?_absorbed (hf : f.Consistent) (c : BlockId) :
    (f.absorbed b succ operands sdata).args? c = if c = succ then none else f.args? c := by
  obtain ⟨other, hother, -, -, hterm⟩ := h.block?_joined_succ hf.edges hf.uses
  have hargs := args?_handOver (h.consistent_joined hf).edges hother hterm b c
  rw [args?, absorbed, block?_dropBlock]
  split
  · rfl
  · rename_i hc
    refine hargs.trans ?_
    rw [args?, h.block?_joined hf.edges hf.uses, args?]
    rcases f.block? c with _ | data
    · rfl
    · simp [hc]

theorem instrs?_absorbed (hf : f.Consistent) (c : BlockId) :
    (f.absorbed b succ operands sdata).instrs? c =
      if c = succ then none
      else if c = b then (f.instrs? b).map (· ++ sdata.instrs) else f.instrs? c := by
  obtain ⟨other, hother, -, -, hterm⟩ := h.block?_joined_succ hf.edges hf.uses
  have hinstrs := instrs?_handOver (h.consistent_joined hf).edges hother hterm b c
  rw [instrs?, absorbed, block?_dropBlock]
  split
  · rfl
  · rename_i hc
    refine hinstrs.trans ?_
    rw [instrs?, h.block?_joined hf.edges hf.uses, instrs?, instrs?, Option.map_map]
    rcases Classical.em (c = b) with rfl | hcb
    · rw [if_pos rfl, Option.map_map]
      simp [hc, Function.comp_def]
    · rw [if_neg hcb]
      simp [hc, hcb, Function.comp_def]

theorem isLiveBlock_absorbed (hf : f.Consistent) (c : BlockId) :
    (f.absorbed b succ operands sdata).isLiveBlock c = true ↔
      f.isLiveBlock c = true ∧ c ≠ succ := by
  rw [← isSome_args?, h.args?_absorbed hf, ← isSome_args?]
  split <;> simp [*]

omit h in
theorem absorbed_eq (f : Body) (b succ : BlockId) (operands : List ValueId) (sdata : Block) :
    f.absorbed b succ operands sdata =
      { f.joined b succ operands sdata with
        layout := f.layout.filter (· ≠ succ)
        blocks := (f.absorbed b succ operands sdata).blocks
        useIndex := (f.absorbed b succ operands sdata).useIndex } := by
  rw [absorbed, handOver_eq, ← layout_joined f b succ operands sdata]
  rfl

theorem instr?_absorbed (hf : f.Consistent) (i : InstrId) :
    (f.absorbed b succ operands sdata).instr? i =
      (f.instr? i).map fun data =>
        { data with
          op := data.op.mapOperands (renameAll sdata.args operands)
          block := if i ∈ sdata.instrs then b else data.block } := by
  rw [absorbed_eq]
  exact h.instr?_joined hf.edges hf.uses i

theorem value?_absorbed (v : ValueId) :
    (f.absorbed b succ operands sdata).value? v =
      if v ∈ sdata.args then none else f.value? v := by
  rw [absorbed_eq]
  change (f.joined b succ operands sdata).value? v = _
  rw [joined, spliceInstrs_eq]
  refine (value?_passArgs h.arity v).trans ?_
  rw [detach_eq]
  rfl

end Absorbable

theorem absorb_eq_ok {sdata : Block} (hf : f.Consistent)
    (hbranch : f.terminator? b = some (.br succ operands)) (hne : succ ≠ b)
    (hsucc : f.block? succ = some sdata) (hsingle : sdata.preds.length = 1) :
    f.absorb b succ operands = .ok g ↔
      f.Absorbable b succ operands sdata ∧ g = f.absorbed b succ operands sdata := by
  obtain ⟨data, hb, ht⟩ := terminator?_eq_some.mp hbranch
  have hdetach := hf.edges.block?_detach hb succ
  rw [ht, hsucc, Option.map_some] at hdetach
  have hjoin : ∀ (h : f.Absorbable b succ operands sdata) {g},
      (f.joined b succ operands sdata).moveTerminator succ b = .ok g ↔
        g = (f.joined b succ operands sdata).handOver succ b
          (sdata.terminator.map (·.mapOperands (renameAll sdata.args operands))) := by
    intro h g
    obtain ⟨other, hother, -, -, hterm⟩ := h.block?_joined_succ hf.edges hf.uses
    obtain ⟨self, hself, hfree⟩ := h.block?_joined_self hf.edges hf.uses
    rw [moveTerminator_eq_ok (h.consistent_joined hf).edges hself hfree]
    constructor
    · rintro ⟨other', hother', rfl⟩
      rw [hother, Option.some.injEq] at hother'
      rw [← hterm, hother']
    · rintro rfl
      exact ⟨other, hother, by rw [hterm]⟩
  unfold absorb
  simp only [bind_eq_ok, Prod.exists, takeTerminator_eq_ok, block_eq_ok, guard_eq_ok,
    Decidable.not_not, moveInstrs_eq_ok, pure_eq_ok]
  constructor
  · rintro ⟨_, _, ⟨data', hb', rfl, rfl⟩, sdata', hs', harity, body, hbind, _, ⟨-, rfl⟩, last,
      hmove, rfl⟩
    rw [hb, Option.some.injEq] at hb'
    subst hb'
    rw [ht] at hs' hbind
    rw [hdetach, Option.some.injEq] at hs'
    subst hs'
    have h : f.Absorbable b succ operands sdata := ⟨hbranch, hne, hsucc, hsingle, harity⟩
    obtain ⟨-, rfl⟩ := (bindArgs_eq_ok harity).mp hbind
    refine ⟨h, ?_⟩
    rw [(hjoin h).mp hmove]
    rfl
  · rintro ⟨h, rfl⟩
    have hargs : ∀ v ∈ sdata.args, v.index < f.values.size := by
      intro v hv
      obtain ⟨index, kind, horigin⟩ := (hf.args.mem_args (args?_of hsucc)).mp hv
      obtain ⟨value, hvalue, -⟩ := origin?_eq_some.mp horigin
      exact Arena.lt_size_of_get? hvalue
    refine ⟨_, _, ⟨data, hb, rfl, rfl⟩, ?_⟩
    rw [ht]
    refine ⟨_, hdetach, ?_⟩
    refine ⟨h.arity, _, (bindArgs_eq_ok h.arity).mpr ⟨?_, rfl⟩, _, ⟨?_, rfl⟩, _,
      (hjoin h).mpr rfl, rfl⟩
    · rw [detach_eq]
      exact hargs
    · intro i hi
      change ((f.detach b _).passArgs succ sdata.args operands).isLiveInstr i = true
      rw [isLiveInstr, instr?_passArgs (h.usesListed_detach hf.edges hf.uses)
        (h.allocated_detach hf.uses), Option.isSome_map, detach_eq]
      exact hf.instrs.isLiveInstr (instrs?_of hsucc) hi

theorem mergeTarget_eq_ok :
    f.mergeTarget b = .ok (.ok (succ, operands)) ↔
      f.terminator? b = some (.br succ operands) ∧ succ ≠ b ∧
        (∃ entry, f.entry = .ok entry ∧ succ ≠ entry) ∧
        ∃ sdata, f.block? succ = some sdata ∧ sdata.preds.length = 1 ∧
          ∀ v ∈ operands, v ∉ sdata.args := by
  unfold mergeTarget
  simp only [bind_eq_ok, terminator_eq_ok, ← terminator?_eq_some]
  constructor
  · rintro ⟨t, ht, hrest⟩
    split at hrest
    · rename_i dest args
      split at hrest
      · cases hrest
      · rename_i hself
        obtain ⟨entry, hentry, hrest⟩ := bind_eq_ok.mp hrest
        split at hrest
        · cases hrest
        · rename_i hne
          obtain ⟨sdata, hs, hrest⟩ := bind_eq_ok.mp hrest
          split at hrest
          · cases hrest
          · rename_i hsingle
            split at hrest
            · cases hrest
            · rename_i hfree
              cases hrest
              refine ⟨ht, hself, ⟨entry, hentry, hne⟩, sdata, block_eq_ok.mp hs,
                Decidable.not_not.mp hsingle, fun v hv hmem => ?_⟩
              exact hfree (List.any_eq_true.mpr ⟨v, hv, decide_eq_true hmem⟩)
    · cases hrest
  · rintro ⟨ht, hself, ⟨entry, hentry, hne⟩, sdata, hs, hsingle, hfree⟩
    refine ⟨_, ht, ?_⟩
    have hany : (operands.any fun v => decide (v ∈ sdata.args)) = false := by
      rw [List.any_eq_false]
      intro v hv
      simpa using hfree v hv
    simp only [if_neg hself, hentry, ok_bind, if_neg hne, block_eq_ok.mpr hs, hsingle, hany]
    rfl

theorem mergeWithSuccessor_eq_ok (hf : f.Consistent) :
    f.mergeWithSuccessor b = .ok (.ok (succ, g)) ↔
      ∃ operands sdata, f.mergeTarget b = .ok (.ok (succ, operands)) ∧
        f.Absorbable b succ operands sdata ∧ g = f.absorbed b succ operands sdata := by
  unfold mergeWithSuccessor
  rw [bind_eq_ok]
  constructor
  · rintro ⟨target, htarget, hrest⟩
    split at hrest
    · rename_i succ' operands
      simp only [bind_eq_ok, pure_eq_ok, Except.ok.injEq, Prod.mk.injEq] at hrest
      obtain ⟨g', habsorb, rfl, rfl⟩ := hrest
      obtain ⟨hbranch, hne, -, sdata, hs, hsingle, -⟩ := mergeTarget_eq_ok.mp htarget
      exact ⟨operands, sdata, htarget, (absorb_eq_ok hf hbranch hne hs hsingle).mp habsorb⟩
    · cases hrest
  · rintro ⟨operands, sdata, htarget, h, rfl⟩
    refine ⟨_, htarget, ?_⟩
    simp only [bind_eq_ok, pure_eq_ok, Except.ok.injEq, Prod.mk.injEq, true_and]
    exact ⟨_, (absorb_eq_ok hf h.branch h.ne h.block h.single).mpr ⟨h, rfl⟩, rfl⟩

theorem Consistent.mergeWithSuccessor (h : f.Consistent)
    (hmerge : f.mergeWithSuccessor b = .ok (.ok (succ, g))) : g.Consistent := by
  obtain ⟨operands, sdata, -, habsorbable, rfl⟩ := (mergeWithSuccessor_eq_ok h).mp hmerge
  exact habsorbable.consistent_absorbed h

end Body

end FlowGraph
