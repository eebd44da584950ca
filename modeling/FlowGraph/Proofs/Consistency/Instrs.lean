import FlowGraph.Proofs.Consistency.Build

namespace FlowGraph.Body

variable {f g : Body} {b : BlockId} {data : Block} {i : InstrId} {op : Operation}

/-- The name of the result of a new instruction. -/
def newResult (f : Body) (op : Operation) : Option ValueId :=
  op.resultType?.map fun _ => f.nextValue

def withResult (f : Body) (op : Operation) : Body :=
  match op.resultType? with
  | some (type, ownership) =>
    f.withValue { type, ownership, origin := .result f.nextInstr }
  | none => f

/-- The body with a new instruction at `position` of `b`. -/
def withInstr (f : Body) (b : BlockId) (position : Nat) (op : Operation) : Body :=
  { f.withResult op with
    instrs := f.instrs.alloc { op, block := b, result := f.newResult op }
    useIndex := (f.withResult op).useIndex.link (.instr f.nextInstr) op.operands }.modifyBlock b
    fun data => { data with instrs := data.instrs.insertIdx position f.nextInstr }

theorem withResult_eq (f : Body) (op : Operation) :
    f.withResult op =
      { f with
        values := (f.withResult op).values
        useIndex := (f.withResult op).useIndex } := by
  unfold withResult
  split <;> rfl

theorem insertInstr_eq_ok {position : Nat} :
    f.insertInstr b position op = .ok (i, g) ↔
      f.instrs.size < slotLimit ∧ (op.resultType?.isSome = true → f.values.size < slotLimit) ∧
        (∃ data, f.block? b = some data ∧ position ≤ data.instrs.length) ∧
        i = f.nextInstr ∧ g = f.withInstr b position op := by
  unfold insertInstr
  simp only [bind_eq_ok, checked_eq_ok]
  unfold withInstr newResult withResult
  rcases hop : op.resultType? with _ | ⟨type, ownership⟩
  · simp only [bind_eq_ok, pure_eq_ok, Prod.exists, Prod.mk.injEq, block_eq_ok, guard_eq_ok,
      Nat.not_lt]
    constructor
    · rintro ⟨n, ⟨hlt, rfl⟩, _, _, ⟨rfl, rfl⟩, data, hb, hposition, rfl, rfl⟩
      exact ⟨hlt, by simp, ⟨data, hb, hposition⟩, rfl, rfl⟩
    · rintro ⟨hlt, -, ⟨data, hb, hposition⟩, rfl, rfl⟩
      exact ⟨_, ⟨hlt, rfl⟩, _, _, ⟨rfl, rfl⟩, data, hb, hposition, rfl, rfl⟩
  · simp only [bind_eq_ok, pure_eq_ok, Prod.exists, Prod.mk.injEq, block_eq_ok, guard_eq_ok,
      Nat.not_lt, allocValue_eq_ok]
    constructor
    · rintro ⟨n, ⟨hlt, rfl⟩, _, _, ⟨hvalue, rfl, rfl⟩, _, _, ⟨rfl, rfl⟩, data, hb, hposition, rfl,
        rfl⟩
      exact ⟨hlt, fun _ => hvalue, ⟨data, hb, hposition⟩, rfl, rfl⟩
    · rintro ⟨hlt, hvalue, ⟨data, hb, hposition⟩, rfl, rfl⟩
      exact ⟨_, ⟨hlt, rfl⟩, _, _, ⟨hvalue rfl, rfl, rfl⟩, _, _, ⟨rfl, rfl⟩, data, hb, hposition,
        rfl, rfl⟩

theorem origin?_withResult (f : Body) (op : Operation) (v : ValueId) :
    (f.withResult op).origin? v =
      if f.newResult op = some v then some (.result f.nextInstr) else f.origin? v := by
  unfold withResult newResult
  split
  · rename_i type ownership hop
    rw [origin?_withValue, hop]
    simp only [Option.map_some, Option.some.injEq, eq_comm]
  · rename_i hop
    simp [hop]

theorem size_values_withResult (f : Body) (op : Operation) :
    (f.withResult op).values.size =
      f.values.size + if op.resultType?.isSome = true then 1 else 0 := by
  unfold withResult
  split
  · rename_i hop
    rw [hop]
    exact Arena.size_alloc _ _
  · rename_i hop
    rw [hop]
    rfl

theorem UsesListed.withResult (h : f.UsesListed) (op : Operation) :
    (f.withResult op).UsesListed := by
  unfold Body.withResult
  split
  · exact h.withValue _
  · exact h

section WithInstr

variable (f : Body) (b : BlockId) (position : Nat) (op : Operation)

theorem instr?_withInstr (j : InstrId) :
    (f.withInstr b position op).instr? j =
      if j = f.nextInstr then some { op, block := b, result := f.newResult op }
      else f.instr? j := by
  refine (Arena.get?_alloc f.instrs _ j.index).trans ?_
  simp only [← instrId_ext]
  rfl

theorem block?_withInstr (c : BlockId) :
    (f.withInstr b position op).block? c =
      (f.block? c).map fun data =>
        { data with
          instrs := if c = b then data.instrs.insertIdx position f.nextInstr else data.instrs } := by
  rw [withInstr, block?_modifyBlock]
  change (if c = b then ((f.withResult op).block? c).map _ else (f.withResult op).block? c) = _
  rw [withResult_eq]
  change (if c = b then (f.block? c).map _ else f.block? c) = _
  split
  · rfl
  · rcases f.block? c with _ | data <;> rfl

theorem terminator?_withInstr (c : BlockId) :
    (f.withInstr b position op).terminator? c = f.terminator? c := by
  rw [terminator?, block?_withInstr, terminator?]
  rcases f.block? c with _ | data <;> rfl

theorem origin?_withInstr (v : ValueId) :
    (f.withInstr b position op).origin? v =
      if f.newResult op = some v then some (.result f.nextInstr) else f.origin? v :=
  origin?_withResult f op v

theorem isLiveBlock_withInstr (c : BlockId) :
    (f.withInstr b position op).isLiveBlock c = f.isLiveBlock c :=
  isLiveBlock_mapBlocks (block?_withInstr f b position op) c

theorem holder?_withInstr (j : InstrId) :
    (f.withInstr b position op).holder? j = if j = f.nextInstr then some b else f.holder? j := by
  rw [holder?, instr?_withInstr, holder?]
  split <;> rfl

end WithInstr

theorem newResult_fresh {v : ValueId} (hv : f.newResult op = some v) : f.origin? v = none := by
  unfold newResult at hv
  rcases hop : op.resultType? with _ | result
  · simp [hop] at hv
  · rw [hop, Option.map_some, Option.some.injEq] at hv
    rw [← hv]
    exact origin?_nextValue f

theorem operandsAt?_nextInstr (f : Body) : f.operandsAt? (.instr f.nextInstr) = [] := by
  rw [operandsAt?_instr, operation?, instr?_nextInstr]
  rfl

theorem UsesListed.withInstr (h : f.UsesListed) (b : BlockId) (position : Nat)
    (halloc : ∀ v ∈ op.operands, v.index < (f.withResult op).values.size) :
    (f.withInstr b position op).UsesListed := by
  have hresult := h.withResult op
  have hoperands : ∀ point, (f.withInstr b position op).operandsAt? point =
      if point = .instr f.nextInstr then op.operands else f.operandsAt? point := by
    rintro (j | c)
    · rw [operandsAt?_instr, operation?, instr?_withInstr, operandsAt?_instr, operation?]
      simp only [Point.instr.injEq]
      split <;> rfl
    · rw [operandsAt?_terminator, terminator?_withInstr]
      rfl
  have hold : ∀ point, (f.withResult op).operandsAt? point = f.operandsAt? point := by
    intro point
    rw [withResult_eq]
    rfl
  refine ⟨?_, ?_, ?_⟩
  · exact (UseIndex.size_link _ _ _).trans hresult.size_users
  · intro point v hv
    rw [hoperands] at hv
    split at hv
    · exact halloc v hv
    · exact hresult.allocated (hold point ▸ hv)
  · intro v point
    rw [hoperands]
    change (((f.withResult op).useIndex.link _ _).usersOf v).count point = _
    rw [UseIndex.count_link, hresult.size_users]
    change ((f.withResult op).usersOf v).count point + _ = _
    rw [hresult.count_users, hold]
    split
    · rename_i hpoint
      obtain ⟨rfl, _⟩ := hpoint
      rw [operandsAt?_nextInstr, if_pos rfl, List.count_nil, Nat.zero_add]
    · rename_i hpoint
      split
      · rename_i heq
        subst heq
        have hv : v ∉ op.operands := fun hv => hpoint ⟨rfl, halloc v hv⟩
        rw [operandsAt?_nextInstr, List.count_eq_zero.mpr hv, List.count_nil]
      · rfl

theorem InstrsListed.withInstr {position : Nat} (h : f.InstrsListed) (hb : f.block? b = some data)
    (hposition : position ≤ data.instrs.length) (op : Operation) :
    (f.withInstr b position op).InstrsListed := by
  have hfresh : f.holder? f.nextInstr = none := by
    rw [holder?, instr?_nextInstr]
    rfl
  refine ⟨?_, ?_⟩
  · intro c instrs hc j
    rw [instrs?, block?_withInstr, Option.map_map, Option.map_eq_some_iff] at hc
    obtain ⟨other, hother, rfl⟩ := hc
    have hcount := h.count_instrs (instrs?_of hother) j
    rw [holder?_withInstr]
    change (if c = b then _ else _ : List InstrId).count j = _
    split
    · rename_i hcb
      subst hcb
      rw [hb, Option.some.injEq] at hother
      subst hother
      rw [(List.perm_insertIdx _ _ hposition).count_eq, List.count_cons, hcount]
      grind
    · rw [hcount]
      grind
  · intro j c hj
    rw [holder?_withInstr] at hj
    rw [isLiveBlock_withInstr]
    split at hj
    · cases hj
      exact isLiveBlock_of hb
    · exact h.live_holder hj

theorem ArgsListed.withInstr (h : f.ArgsListed) (b : BlockId) (position : Nat) (op : Operation) :
    (f.withInstr b position op).ArgsListed := by
  refine ⟨?_, ?_⟩
  · intro c args hc index v
    rw [args?_mapBlocks (block?_withInstr f b position op) fun _ _ => rfl] at hc
    rw [h.getElem?_args hc]
    refine exists_congr fun kind => ?_
    rw [origin?_withInstr]
    split
    · rename_i hv
      simp [newResult_fresh hv]
    · rfl
  · intro v c index kind hv
    rw [origin?_withInstr] at hv
    rw [isLiveBlock_withInstr]
    split at hv
    · cases hv
    · exact h.live_block hv

theorem ResultsListed.withInstr (h : f.ResultsListed) (b : BlockId) (position : Nat)
    (op : Operation) : (f.withInstr b position op).ResultsListed := by
  intro j v
  rw [origin?_withInstr, result?, instr?_withInstr]
  split
  · rename_i hj
    subst hj
    change f.newResult op = some v ↔ _
    split
    · simp [*]
    · rename_i hv
      refine iff_of_false hv fun hv' => ?_
      have := (h _ _).mpr hv'
      rw [result?, instr?_nextInstr] at this
      cases this
  · rename_i hj
    change f.result? j = some v ↔ _
    rw [h j v]
    split
    · rename_i hv
      rw [newResult_fresh hv]
      simp [Ne.symm hj]
    · rfl

theorem Consistent.insertInstr {position : Nat} (h : f.Consistent)
    (halloc : ∀ v ∈ op.operands, v.index < (f.withResult op).values.size)
    (hinsert : f.insertInstr b position op = .ok (i, g)) : g.Consistent := by
  obtain ⟨-, -, ⟨data, hb, hposition⟩, -, rfl⟩ := insertInstr_eq_ok.mp hinsert
  have hblocks := block?_withInstr f b position op
  refine ⟨?_, ?_, h.instrs.withInstr hb hposition op, h.args.withInstr b position op,
    h.results.withInstr b position op, h.uses.withInstr b position halloc⟩
  · refine h.layout.congr ?_ (isLiveBlock_withInstr f b position op)
    change (f.withResult op).layout = _
    rw [withResult_eq]
  · exact h.edges.congr (preds?_mapBlocks hblocks fun _ _ => rfl)
      (target?_congr (terminator?_withInstr f b position op))

theorem Consistent.appendInstr (h : f.Consistent)
    (halloc : ∀ v ∈ op.operands, v.index < (f.withResult op).values.size)
    (happend : f.appendInstr b op = .ok (i, g)) : g.Consistent := by
  obtain ⟨data, -, hinsert⟩ := bind_eq_ok.mp happend
  exact h.insertInstr halloc hinsert

theorem InstrsListed.filter (h : f.InstrsListed) (gone : List InstrId)
    (hinstrs : ∀ c, g.instrs? c = (f.instrs? c).map (List.filter (· ∉ gone)))
    (hholder : ∀ j, g.holder? j = if j ∈ gone then none else f.holder? j) :
    g.InstrsListed := by
  refine ⟨?_, ?_⟩
  · intro c instrs hc j
    rw [hinstrs, Option.map_eq_some_iff] at hc
    obtain ⟨before, hbefore, rfl⟩ := hc
    rw [count_filter_ite, h.count_instrs hbefore, hholder]
    grind
  · intro j c hj
    rw [hholder] at hj
    rw [← isSome_instrs?, hinstrs, Option.isSome_map, isSome_instrs?]
    split at hj
    · cases hj
    · exact h.live_holder hj

/-- Listed arguments after some values are gone. A block either keeps all its arguments, or has
none left. -/
theorem ArgsListed.discard (h : f.ArgsListed) (dead : ValueId → Prop) [DecidablePred dead]
    (emptied : BlockId → Prop) [DecidablePred emptied]
    (hargs : ∀ c, g.args? c = (f.args? c).map fun args => if emptied c then [] else args)
    (horigin : ∀ v, g.origin? v = if dead v then none else f.origin? v)
    (hdead : ∀ v c index kind, f.origin? v = some (.argument c index kind) →
      (dead v ↔ emptied c)) : g.ArgsListed := by
  have hkept : ∀ v c index kind, g.origin? v = some (.argument c index kind) ↔
      f.origin? v = some (.argument c index kind) ∧ ¬ emptied c := by
    intro v c index kind
    rw [horigin]
    constructor
    · intro hv
      split at hv
      · cases hv
      · rename_i hnot
        exact ⟨hv, fun he => hnot ((hdead v c index kind hv).mpr he)⟩
    · rintro ⟨hv, he⟩
      rw [if_neg fun hd => he ((hdead v c index kind hv).mp hd)]
      exact hv
  refine ⟨?_, ?_⟩
  · intro c args hc index v
    rw [hargs, Option.map_eq_some_iff] at hc
    obtain ⟨before, hbefore, rfl⟩ := hc
    simp only [hkept]
    split
    · rename_i he
      simp [he]
    · rename_i he
      rw [h.getElem?_args hbefore]
      simp [he]
  · intro v c index kind hv
    rw [← isSome_args?, hargs, Option.isSome_map, isSome_args?]
    exact h.live_block ((hkept v c index kind).mp hv).1

theorem ResultsListed.discard (h : f.ResultsListed) (gone : List InstrId)
    (dead : ValueId → Prop) [DecidablePred dead]
    (hresult : ∀ j, g.result? j = if j ∈ gone then none else f.result? j)
    (horigin : ∀ v, g.origin? v = if dead v then none else f.origin? v)
    (hdead : ∀ v j, f.origin? v = some (.result j) → (dead v ↔ j ∈ gone)) :
    g.ResultsListed := by
  intro j v
  rw [hresult, horigin]
  constructor
  · intro hv
    split at hv
    · cases hv
    · rename_i hj
      have hv := (h j v).mp hv
      rw [if_neg fun hd => hj ((hdead v j hv).mp hd)]
      exact hv
  · intro hv
    split at hv
    · cases hv
    · rename_i hd
      rw [if_neg fun hj => hd ((hdead v j hv).mpr hj)]
      exact (h j v).mpr hv

/-- The body without instruction `i` and its result; the block of `i` still lists it. -/
def withoutInstr (f : Body) (i : InstrId) : Body :=
  { f with
    useIndex := f.useIndex.unlink (.instr i) (f.operandsAt? (.instr i))
    values := match f.result? i with
      | some v => f.values.erase v.index
      | none => f.values
    instrs := f.instrs.erase i.index }

theorem instr?_withoutInstr (f : Body) (i j : InstrId) :
    (f.withoutInstr i).instr? j = if j = i then none else f.instr? j := by
  refine (Arena.get?_erase f.instrs i.index j.index).trans ?_
  simp only [instrId_ext]
  rfl

theorem value?_erase (f : Body) (v w : ValueId) :
    { f with values := f.values.erase v.index : Body }.value? w =
      if w = v then none else f.value? w := by
  refine (Arena.get?_erase f.values v.index w.index).trans ?_
  simp only [UseIndex.ext_index]
  rfl

theorem value?_withoutInstr (f : Body) (i : InstrId) (w : ValueId) :
    (f.withoutInstr i).value? w = if f.result? i = some w then none else f.value? w := by
  unfold withoutInstr
  rcases f.result? i with _ | v
  · rfl
  · refine (value?_erase f v w).trans ?_
    simp only [Option.some.injEq, @eq_comm _ v w]

theorem origin?_withoutInstr (f : Body) (i : InstrId) (w : ValueId) :
    (f.withoutInstr i).origin? w = if f.result? i = some w then none else f.origin? w := by
  rw [origin?, value?_withoutInstr, origin?]
  split <;> rfl

theorem size_values_withoutInstr (f : Body) (i : InstrId) :
    (f.withoutInstr i).values.size = f.values.size := by
  unfold withoutInstr
  rcases f.result? i with _ | v
  · rfl
  · exact Arena.size_erase _ _

theorem operandsAt?_withoutInstr (f : Body) (i : InstrId) (point : Point) :
    (f.withoutInstr i).operandsAt? point =
      if point = .instr i then [] else f.operandsAt? point := by
  rcases point with j | c
  · rw [operandsAt?_instr, operation?, instr?_withoutInstr, operandsAt?_instr, operation?]
    simp only [Point.instr.injEq]
    split <;> rfl
  · rfl

theorem UsesListed.withoutInstr (h : f.UsesListed) (i : InstrId) :
    (f.withoutInstr i).UsesListed := by
  refine ⟨?_, ?_, ?_⟩
  · rw [size_values_withoutInstr]
    exact (UseIndex.size_unlink _ _ _).trans h.size_users
  · intro point v hv
    rw [operandsAt?_withoutInstr] at hv
    rw [size_values_withoutInstr]
    split at hv
    · cases hv
    · exact h.allocated hv
  · intro v point
    change ((f.useIndex.unlink _ _).usersOf v).count point = _
    rw [UseIndex.count_unlink, operandsAt?_withoutInstr]
    change (f.usersOf v).count point - _ = _
    rw [h.count_users]
    split
    · rename_i hpoint
      subst hpoint
      simp
    · simp

theorem eraseValue_eq_ok {v : ValueId} :
    f.eraseValue v = .ok g ↔
      v.index < f.values.size ∧ g = { f with values := f.values.erase v.index } := by
  unfold eraseValue
  split <;> simp [*, eq_comm]

theorem eraseInstr_eq_ok :
    f.eraseInstr i = .ok g ↔
      ∃ data, f.instr? i = some data ∧
        (∀ v, data.result = some v →
          (f.withoutInstr i).hasUses v = false ∧ v.index < f.values.size) ∧
        f.isLiveBlock data.block = true ∧
        g = (f.withoutInstr i).modifyBlock data.block
          fun blk => { blk with instrs := blk.instrs.filter (· ≠ i) } := by
  unfold eraseInstr
  simp only [bind_eq_ok, instr_eq_ok]
  refine exists_congr fun data => and_congr_right fun hi => ?_
  have hoperands : f.operandsAt? (.instr i) = data.op.operands := by simp [operandsAt?, hi]
  have hresult : f.result? i = data.result := by simp [result?, hi]
  unfold withoutInstr
  rw [hoperands, hresult]
  rcases data.result with _ | v
  · simp only [bind_eq_ok, pure_eq_ok, block_eq_ok, isLiveBlock_iff]
    constructor
    · rintro ⟨_, rfl, blk, hblk, rfl⟩
      exact ⟨by simp, ⟨blk, hblk⟩, rfl⟩
    · rintro ⟨-, ⟨blk, hblk⟩, rfl⟩
      exact ⟨_, rfl, blk, hblk, rfl⟩
  · simp only [bind_eq_ok, guard_eq_ok, pure_eq_ok, block_eq_ok, isLiveBlock_iff, eraseValue_eq_ok,
      Option.some.injEq, forall_eq', Bool.not_eq_true]
    constructor
    · rintro ⟨huses, _, ⟨hlt, rfl⟩, blk, hblk, rfl⟩
      exact ⟨⟨huses, hlt⟩, ⟨blk, hblk⟩, rfl⟩
    · rintro ⟨⟨huses, hlt⟩, ⟨blk, hblk⟩, rfl⟩
      exact ⟨huses, _, ⟨hlt, rfl⟩, blk, hblk, rfl⟩

theorem InstrsListed.block?_eraseInstr (h : f.InstrsListed) (hholder : f.holder? i = some b)
    (c : BlockId) :
    ((f.withoutInstr i).modifyBlock b fun blk =>
        { blk with instrs := blk.instrs.filter (· ≠ i) }).block? c =
      (f.block? c).map fun blk => { blk with instrs := blk.instrs.filter (· ≠ i) } := by
  refine (block?_modifyBlock (f.withoutInstr i) b c _).trans ?_
  change (if c = b then (f.block? c).map _ else f.block? c) = _
  split
  · rfl
  · rename_i hc
    rcases hblk : f.block? c with _ | blk
    · rfl
    · have hother : ∀ j ∈ blk.instrs, j ≠ i := by
        rintro j hj rfl
        rw [h.mem_instrs (instrs?_of hblk), hholder, Option.some.injEq] at hj
        exact hc hj.symm
      rw [Option.map_some, List.filter_eq_self.mpr fun j hj => decide_eq_true (hother j hj)]

theorem Consistent.eraseInstr (h : f.Consistent) (herase : f.eraseInstr i = .ok g) :
    g.Consistent := by
  obtain ⟨data, hi, -, -, rfl⟩ := eraseInstr_eq_ok.mp herase
  have hholder : f.holder? i = some data.block := holder?_eq_some.mpr ⟨data, hi, rfl⟩
  have hterm := fun c => terminator?_modifyBlock (f.withoutInstr i) data.block c
    (g := fun blk => { blk with instrs := blk.instrs.filter (· ≠ i) }) fun _ => rfl
  have hargs := fun c => args?_modifyBlock (f.withoutInstr i) data.block c
    (g := fun blk => { blk with instrs := blk.instrs.filter (· ≠ i) }) fun _ => rfl
  refine ⟨?_, ?_, ?_, ?_, ?_, ?_⟩
  · exact h.layout.congr rfl fun c => isLiveBlock_modifyBlock _ _ _ _
  · exact h.edges.congr (fun c => preds?_modifyBlock _ _ _ fun _ => rfl) (target?_congr hterm)
  · refine h.instrs.filter [i] (fun c => ?_) fun j => ?_
    · rw [instrs?, h.instrs.block?_eraseInstr hholder, instrs?, Option.map_map, Option.map_map]
      simp only [List.mem_singleton]
      rfl
    · change (f.withoutInstr i).holder? j = _
      rw [holder?, instr?_withoutInstr, holder?]
      simp only [List.mem_singleton]
      split <;> rfl
  · refine h.args.discard (fun v => f.result? i = some v) (fun _ => False)
      (fun c => ?_) (origin?_withoutInstr f i) ?_
    · rw [hargs]
      simp only [if_false, Option.map_id']
      rfl
    · intro v c index kind hv
      rw [h.results, hv]
      simp
  · refine h.results.discard [i] (fun v => f.result? i = some v)
      (fun j => ?_) (origin?_withoutInstr f i) ?_
    · change (f.withoutInstr i).result? j = _
      rw [result?, instr?_withoutInstr, result?]
      simp only [List.mem_singleton]
      split <;> rfl
    · intro v j hv
      rw [h.results, hv]
      simp
  · exact (h.uses.withoutInstr i).congr rfl rfl (operandsAt?_congr hterm fun _ => rfl)

end FlowGraph.Body
