import FlowGraph.Body.Splice
import FlowGraph.Proofs.Consistency.Uses

namespace FlowGraph.Body

variable {f g : Body} {b c source target : BlockId} {data : Block} {t : Terminator}

/-- The body after the given instructions have recorded `b` as their block. -/
def relocate (f : Body) (b : BlockId) (moved : List InstrId) : Body :=
  moved.foldl (fun f i => f.modifyInstr i fun data => { data with block := b }) f

theorem relocate_eq (f : Body) (b : BlockId) (moved : List InstrId) :
    f.relocate b moved = { f with instrs := (f.relocate b moved).instrs } := by
  induction moved generalizing f with
  | nil => rfl
  | cons i rest ih =>
      change (f.modifyInstr i _).relocate b rest = _
      rw [ih]
      rfl

theorem instr?_relocate (f : Body) (b : BlockId) (moved : List InstrId) (i : InstrId) :
    (f.relocate b moved).instr? i =
      (f.instr? i).map fun data => { data with block := if i ∈ moved then b else data.block } := by
  induction moved generalizing f with
  | nil => simp [relocate]
  | cons j rest ih =>
      change ((f.modifyInstr j _).relocate b rest).instr? i = _
      rw [ih, instr?_modifyInstr]
      rcases Classical.em (i = j) with rfl | hne
      · simp [Function.comp_def]
      · simp [hne]

theorem holder?_relocate (f : Body) (b : BlockId) (moved : List InstrId)
    (hlive : ∀ i ∈ moved, f.isLiveInstr i = true) (i : InstrId) :
    (f.relocate b moved).holder? i = if i ∈ moved then some b else f.holder? i := by
  rw [holder?, instr?_relocate, holder?]
  split
  · rename_i hi
    obtain ⟨data, hdata⟩ := Option.isSome_iff_exists.mp (hlive i hi)
    rw [hdata]
    rfl
  · rcases f.instr? i with _ | data <;> rfl

theorem isLiveInstr_modifyInstr (f : Body) (i j : InstrId) (φ : Instr → Instr) :
    (f.modifyInstr i φ).isLiveInstr j = f.isLiveInstr j := by
  rw [isLiveInstr, instr?_modifyInstr, isLiveInstr]
  split <;> simp

theorem moveInstrs_eq_ok {moved : List InstrId} :
    f.moveInstrs b moved = .ok g ↔
      (∀ i ∈ moved, f.isLiveInstr i = true) ∧ g = f.relocate b moved := by
  induction moved generalizing f with
  | nil =>
      constructor
      · rintro ⟨⟩
        exact ⟨fun _ hi => (List.not_mem_nil hi).elim, rfl⟩
      · rintro ⟨-, rfl⟩
        rfl
  | cons i rest ih =>
      simp only [moveInstrs, bind_eq_ok, instr_eq_ok, ih, isLiveInstr_modifyInstr,
        List.forall_mem_cons]
      constructor
      · rintro ⟨data, hi, hrest, rfl⟩
        exact ⟨⟨Option.isSome_iff_exists.mpr ⟨data, hi⟩, hrest⟩, rfl⟩
      · rintro ⟨⟨hi, hrest⟩, rfl⟩
        obtain ⟨data, hi⟩ := Option.isSome_iff_exists.mp hi
        exact ⟨data, hi, hrest, rfl⟩

theorem InstrsListed.move (h : f.InstrsListed) (hne : source ≠ target)
    {kept there moved : List InstrId} (hsource : f.instrs? source = some (kept ++ moved))
    (htarget : f.instrs? target = some there)
    (hinstrs : ∀ c, g.instrs? c =
      if c = source then some kept
      else if c = target then some (there ++ moved) else f.instrs? c)
    (hholder : ∀ i, g.holder? i = if i ∈ moved then some target else f.holder? i) :
    g.InstrsListed := by
  have hcount := h.count_instrs hsource
  have hmoved : ∀ i ∈ moved, f.holder? i = some source := fun i hi =>
    (h.mem_instrs hsource).mp (List.mem_append_right kept hi)
  have hlive : ∀ c, g.isLiveBlock c = f.isLiveBlock c := by
    intro c
    rw [← isSome_instrs?, hinstrs, ← isSome_instrs?]
    split
    · rename_i hc
      rw [hc, hsource]
      rfl
    · split
      · rename_i hc
        rw [hc, htarget]
        rfl
      · rfl
  refine ⟨?_, ?_⟩
  · intro c instrs hc i
    have hi := hcount i
    have hzero : i ∉ moved → moved.count i = 0 := List.count_eq_zero.mpr
    have hpos : i ∈ moved → 0 < moved.count i := List.count_pos_iff.mpr
    have hsrc := hmoved i
    rw [List.count_append] at hi
    rw [hinstrs] at hc
    rw [hholder]
    split at hc
    · cases hc
      grind
    · split at hc
      · cases hc
        have hthere := h.count_instrs htarget i
        rw [List.count_append, hthere]
        grind
      · rw [h.count_instrs hc]
        grind
  · intro i c hi
    rw [hlive]
    rw [hholder] at hi
    split at hi
    · cases hi
      rw [← isSome_instrs?, htarget]
      rfl
    · exact h.live_holder hi

theorem InstrsListed.isLiveInstr (h : f.InstrsListed) {instrs : List InstrId}
    (hb : f.instrs? b = some instrs) {i : InstrId} (hi : i ∈ instrs) :
    f.isLiveInstr i = true := by
  obtain ⟨data, hdata, -⟩ := holder?_eq_some.mp ((h.mem_instrs hb).mp hi)
  exact Option.isSome_iff_exists.mpr ⟨data, hdata⟩

/-- The body after `source` has handed its terminator, which is given, over to `target`, which has
none. -/
def handOver (f : Body) (source target : BlockId) : Option Terminator → Body
  | none => f
  | some t => (f.detach source (some t)).attach target t

theorem EdgesListed.live_of_mem (h : f.EdgesListed) (ht : f.terminator? source = some t)
    {s : BlockId} (hs : s ∈ t.successors) : f.isLiveBlock s = true := by
  obtain ⟨index, hindex⟩ := List.mem_iff_getElem?.mp hs
  exact @h.live_target ⟨source, index⟩ s (target?_eq_some.mpr ⟨t, ht, hindex⟩)

theorem EdgesListed.exists_block?_detach (h : f.EdgesListed) {sdata : Block}
    (hs : f.block? source = some sdata) (hb : f.block? b = some data)
    (hnone : data.terminator = none) :
    ∃ other, (f.detach source sdata.terminator).block? b = some other ∧
      other.terminator = none := by
  have hdetach := h.block?_detach hs b
  rw [hb, Option.map_some] at hdetach
  refine ⟨_, hdetach, ?_⟩
  change (if b = source then none else data.terminator) = none
  rw [hnone, ite_self]

theorem moveTerminator_eq_ok (hedges : f.EdgesListed) (htarget : f.block? target = some data)
    (hnone : data.terminator = none) :
    f.moveTerminator source target = .ok g ↔
      ∃ sdata, f.block? source = some sdata ∧ g = f.handOver source target sdata.terminator := by
  unfold moveTerminator
  simp only [bind_eq_ok, Prod.exists, takeTerminator_eq_ok]
  constructor
  · rintro ⟨taken, body, ⟨sdata, hs, rfl, rfl⟩, hrest⟩
    refine ⟨sdata, hs, ?_⟩
    obtain ⟨other, hother, hfree⟩ := hedges.exists_block?_detach hs htarget hnone
    rcases ht : sdata.terminator with _ | t
    · rw [ht] at hrest
      exact (pure_eq_ok.mp hrest).symm
    · rw [ht] at hrest hother
      simp only [bind_eq_ok, pure_eq_ok, Prod.exists, setTerminator_eq_ok] at hrest
      obtain ⟨old, body, ⟨tdata, hb, -, -, rfl⟩, rfl⟩ := hrest
      rw [hb, Option.some.injEq] at hother
      subst hother
      rw [hfree]
      rfl
  · rintro ⟨sdata, hs, rfl⟩
    refine ⟨_, _, ⟨sdata, hs, rfl, rfl⟩, ?_⟩
    obtain ⟨other, hother, hfree⟩ := hedges.exists_block?_detach hs htarget hnone
    rcases ht : sdata.terminator with _ | t
    · rfl
    · rw [ht] at hother
      simp only [bind_eq_ok, pure_eq_ok, Prod.exists, setTerminator_eq_ok]
      refine ⟨_, _, ⟨other, hother, rfl, fun s hsucc => ?_, rfl⟩, ?_⟩
      · rw [isLiveBlock_detach]
        exact hedges.live_of_mem (terminator?_of hs |>.trans ht) hsucc
      · rw [hfree]
        rfl

theorem handOver_eq (f : Body) (source target : BlockId) (t : Option Terminator) :
    f.handOver source target t =
      { f with
        blocks := (f.handOver source target t).blocks
        useIndex := (f.handOver source target t).useIndex } := by
  rcases t with _ | t
  · rfl
  · rw [handOver, attach_eq, detach_eq]

section HandOver

variable (hedges : f.EdgesListed) {sdata : Block} (hs : f.block? source = some sdata)
  {term : Option Terminator} (hterm : sdata.terminator = term)
include hedges hs hterm

theorem block?_handOver (target : BlockId) :
    ∃ φ : BlockId → Block → Block,
      (∀ c, (f.handOver source target term).block? c = (f.block? c).map (φ c)) ∧
        (∀ c data, (φ c data).args = data.args) ∧ ∀ c data, (φ c data).instrs = data.instrs := by
  have hdetach := hedges.block?_detach hs
  rw [hterm] at hdetach
  rcases term with _ | t
  · exact ⟨fun _ data => data, fun c => Option.map_id'.symm, fun _ _ => rfl, fun _ _ => rfl⟩
  · refine ⟨fun c other =>
      { other with
        terminator := if c = target then some t else if c = source then none else other.terminator
        preds := other.preds.filter (·.block ≠ source) ++ arrivals target 0 t.successors c },
      fun c => ?_, fun _ _ => rfl, fun _ _ => rfl⟩
    rw [handOver, block?_attach, hdetach, Option.map_map]
    rfl

theorem args?_handOver (target c : BlockId) :
    (f.handOver source target term).args? c = f.args? c := by
  obtain ⟨φ, hφ, hargs, -⟩ := block?_handOver hedges hs hterm target
  exact args?_mapBlocks hφ hargs c

theorem instrs?_handOver (target c : BlockId) :
    (f.handOver source target term).instrs? c = f.instrs? c := by
  obtain ⟨φ, hφ, -, hinstrs⟩ := block?_handOver hedges hs hterm target
  exact instrs?_mapBlocks hφ hinstrs c

theorem terminator?_handOver (htarget : f.block? target = some data)
    (hnone : data.terminator = none) (c : BlockId) :
    (f.handOver source target term).terminator? c =
      if c = target then term else if c = source then none else f.terminator? c := by
  have hdetach := hedges.terminator?_detach hs c
  rw [hterm] at hdetach
  rcases term with _ | t
  · change f.terminator? c = _
    split
    · rename_i hc
      rw [hc, terminator?_of htarget, hnone]
    · split
      · rename_i hc
        rw [hc, terminator?_of hs, hterm]
      · rfl
  · rw [handOver, terminator?_attach, hdetach]
    rw [isLiveBlock_detach]
    exact isLiveBlock_of htarget

end HandOver

theorem Consistent.handOver {sdata : Block} {term : Option Terminator} (h : f.Consistent)
    (hs : f.block? source = some sdata) (hterm : sdata.terminator = term)
    (htarget : f.block? target = some data) (hnone : data.terminator = none) :
    (f.handOver source target term).Consistent := by
  have hdetach := h.detach hs
  obtain ⟨other, hother, hfree⟩ := h.edges.exists_block?_detach hs htarget hnone
  rw [hterm] at hdetach hother
  rcases term with _ | t
  · exact h
  · have hsource := (terminator?_of hs).trans hterm
    refine hdetach.attach hother hfree (fun s hsucc => ?_) fun v hv => ?_
    · rw [isLiveBlock_detach]
      exact h.edges.live_of_mem hsource hsucc
    · rw [detach_eq]
      refine @h.uses.allocated (.terminator source) v ?_
      rw [operandsAt?_terminator, hsource]
      exact hv

/-- The body with a new block that has taken the instructions of `b` from `position` on, but not
the terminator. -/
def cutInstrs (f : Body) (b : BlockId) (position : Nat) (layout : List BlockId)
    (moved : List InstrId) : Body :=
  (((f.withBlock layout).modifyBlock b
    fun data => { data with instrs := data.instrs.take position }).relocate f.nextBlock
      moved).modifyBlock f.nextBlock fun data => { data with instrs := moved }

section CutInstrs

variable {layout : List BlockId}

theorem nextBlock_ne (hb : f.block? b = some data) : b ≠ f.nextBlock := by
  rintro rfl
  rw [block?_nextBlock] at hb
  cases hb

theorem block?_cutInstrs (hb : f.block? b = some data) (position : Nat) (layout : List BlockId)
    (moved : List InstrId) (c : BlockId) :
    (f.cutInstrs b position layout moved).block? c =
      if c = b then some { data with instrs := data.instrs.take position }
      else if c = f.nextBlock then some { instrs := moved } else f.block? c := by
  have hne := nextBlock_ne hb
  rw [cutInstrs, block?_modifyBlock, relocate_eq]
  change (if c = f.nextBlock then
      (((f.withBlock layout).modifyBlock b _).block? c).map _
    else ((f.withBlock layout).modifyBlock b _).block? c) = _
  rw [block?_modifyBlock, block?_withBlock]
  grind

theorem block?_cutInstrs_front (hb : f.block? b = some data) (position : Nat)
    (layout : List BlockId) (moved : List InstrId) :
    (f.cutInstrs b position layout moved).block? b =
      some { data with instrs := data.instrs.take position } := by
  rw [block?_cutInstrs hb, if_pos rfl]

theorem block?_cutInstrs_back (hb : f.block? b = some data) (position : Nat)
    (layout : List BlockId) (moved : List InstrId) :
    (f.cutInstrs b position layout moved).block? f.nextBlock = some { instrs := moved } := by
  rw [block?_cutInstrs hb, if_neg (nextBlock_ne hb).symm, if_pos rfl]

theorem map_block?_cutInstrs (hb : f.block? b = some data) (position : Nat)
    (layout : List BlockId) (moved : List InstrId) {β : Type} (view : Block → β)
    (hview : ∀ data instrs, view { data with instrs } = view data) (c : BlockId) :
    ((f.cutInstrs b position layout moved).block? c).map view =
      ((f.withBlock layout).block? c).map view := by
  rw [block?_cutInstrs hb, block?_withBlock]
  split
  · rename_i hc
    rw [hc, if_neg (nextBlock_ne hb), hb]
    exact congrArg some (hview _ _)
  · split
    · exact congrArg some (hview {} _)
    · rfl

theorem instr?_cutInstrs (f : Body) (b : BlockId) (position : Nat) (layout : List BlockId)
    (moved : List InstrId) (i : InstrId) :
    (f.cutInstrs b position layout moved).instr? i =
      (f.instr? i).map fun data =>
        { data with block := if i ∈ moved then f.nextBlock else data.block } :=
  instr?_relocate _ _ _ _

theorem cutInstrs_eq (f : Body) (b : BlockId) (position : Nat) (layout : List BlockId)
    (moved : List InstrId) :
    f.cutInstrs b position layout moved =
      { f with
        blocks := (f.cutInstrs b position layout moved).blocks
        layout
        instrs := (f.cutInstrs b position layout moved).instrs } := by
  rw [cutInstrs, relocate_eq]
  rfl

theorem terminator?_cutInstrs (hb : f.block? b = some data) (position : Nat)
    (layout : List BlockId) (moved : List InstrId) (c : BlockId) :
    (f.cutInstrs b position layout moved).terminator? c = f.terminator? c := by
  rw [terminator?, block?_cutInstrs hb, terminator?]
  split
  · rename_i hc
    rw [hc, hb]
    rfl
  · split
    · rename_i hc
      rw [hc, block?_nextBlock]
      rfl
    · rfl

theorem InstrsListed.cutInstrs (h : f.InstrsListed) (hb : f.block? b = some data)
    (position : Nat) (layout : List BlockId) :
    (f.cutInstrs b position layout (data.instrs.drop position)).InstrsListed := by
  have hne := nextBlock_ne hb
  have hsource : (f.withBlock layout).instrs? b =
      some (data.instrs.take position ++ data.instrs.drop position) := by
    rw [instrs?, block?_withBlock, if_neg hne, hb, List.take_append_drop]
    rfl
  have htarget : (f.withBlock layout).instrs? f.nextBlock = some [] := by
    rw [instrs?, block?_withBlock, if_pos rfl]
    rfl
  refine h.withBlock.move hne hsource htarget (fun c => ?_) fun i => ?_
  · rw [instrs?, block?_cutInstrs hb]
    split
    · rfl
    · split
      · rfl
      · rename_i hc
        rw [instrs?, block?_withBlock, if_neg hc]
  · refine holder?_relocate ((f.withBlock layout).modifyBlock b
      fun data => { data with instrs := data.instrs.take position }) f.nextBlock _ (fun i hi => ?_) i
    exact h.isLiveInstr (instrs?_of hb) (List.mem_of_mem_drop hi)

theorem Consistent.cutInstrs (h : f.Consistent) (hb : f.block? b = some data) (position : Nat)
    (hlayout : layout.Perm (f.nextBlock :: f.layout)) :
    (f.cutInstrs b position layout (data.instrs.drop position)).Consistent := by
  have hnew := h.withBlock hlayout
  have hargs := map_block?_cutInstrs hb position layout (data.instrs.drop position) (·.args)
    fun _ _ => rfl
  have hpreds := map_block?_cutInstrs hb position layout (data.instrs.drop position) (·.preds)
    fun _ _ => rfl
  have hterm : ∀ c, (f.cutInstrs b position layout (data.instrs.drop position)).terminator? c =
      (f.withBlock layout).terminator? c := by
    intro c
    rw [terminator?_cutInstrs hb, terminator?_withBlock]
  have horigin : ∀ v, (f.cutInstrs b position layout (data.instrs.drop position)).origin? v =
      (f.withBlock layout).origin? v := by
    intro v
    rw [cutInstrs_eq]
    rfl
  refine ⟨?_, ?_, ?_, ?_, ?_, ?_⟩
  · refine hnew.layout.congr (by rw [cutInstrs_eq]; rfl) fun c => ?_
    rw [← isSome_args?, ← isSome_args?]
    exact congrArg _ (hargs c)
  · exact hnew.edges.congr hpreds (target?_congr hterm)
  · exact h.instrs.cutInstrs hb position layout
  · exact hnew.args.congr hargs horigin
  · refine hnew.results.congr (fun i => ?_) horigin
    rw [result?, instr?_cutInstrs]
    change _ = (f.instr? i).bind _
    rcases f.instr? i with _ | other <;> rfl
  · refine hnew.uses.congr (by rw [cutInstrs_eq]; rfl) (by rw [cutInstrs_eq]; rfl)
      (operandsAt?_congr hterm fun i => ?_)
    rw [operation?, instr?_cutInstrs]
    change _ = (f.instr? i).map _
    rcases f.instr? i with _ | other <;> rfl

end CutInstrs

/-- The body after `b` was cut, but before it gets its branch. -/
def cutOpen (f : Body) (b : BlockId) (position : Nat) (layout : List BlockId) (data : Block) : Body :=
  (f.cutInstrs b position layout (data.instrs.drop position)).handOver b f.nextBlock
    data.terminator

/-- The body after `b` was cut before its instruction number `position`; the layout is that with the
new block. -/
def cut (f : Body) (b : BlockId) (position : Nat) (layout : List BlockId) (data : Block) : Body :=
  (f.cutOpen b position layout data).attach b (.br f.nextBlock [])

section Cut

variable (position : Nat) {layout : List BlockId}
variable (h : f.Consistent) (hb : f.block? b = some data)
  (hlayout : layout.Perm (f.nextBlock :: f.layout))
include h hb hlayout

theorem terminator?_cutOpen (c : BlockId) :
    (f.cutOpen b position layout data).terminator? c =
      if c = f.nextBlock then data.terminator else if c = b then none else f.terminator? c := by
  have hcut := h.cutInstrs hb position hlayout
  refine (terminator?_handOver hcut.edges (block?_cutInstrs_front hb _ _ _) rfl
    (block?_cutInstrs_back hb _ _ _) rfl c).trans ?_
  rw [terminator?_cutInstrs hb]

theorem args?_cutOpen (c : BlockId) :
    (f.cutOpen b position layout data).args? c =
      if c = f.nextBlock then some [] else f.args? c := by
  have hcut := h.cutInstrs hb position hlayout
  have hne := nextBlock_ne hb
  refine (args?_handOver hcut.edges (block?_cutInstrs_front hb _ _ _) rfl f.nextBlock c).trans ?_
  rw [args?, block?_cutInstrs hb, args?]
  grind

theorem Consistent.cutOpen : (f.cutOpen b position layout data).Consistent :=
  (h.cutInstrs hb position hlayout).handOver (block?_cutInstrs_front hb _ _ _) rfl
    (block?_cutInstrs_back hb _ _ _) rfl

theorem isLiveBlock_cutOpen (c : BlockId) :
    (f.cutOpen b position layout data).isLiveBlock c = true ↔
      c = f.nextBlock ∨ f.isLiveBlock c = true := by
  rw [← isSome_args?, args?_cutOpen position h hb hlayout, ← isSome_args?]
  split <;> simp [*]

theorem exists_block?_cutOpen :
    ∃ other, (f.cutOpen b position layout data).block? b = some other ∧
      other.terminator = none := by
  have hterm := terminator?_cutOpen position h hb hlayout b
  rw [if_neg (nextBlock_ne hb), if_pos rfl] at hterm
  obtain ⟨other, hother⟩ := isLiveBlock_iff.mp
    ((isLiveBlock_cutOpen position h hb hlayout b).mpr (.inr (isLiveBlock_of hb)))
  exact ⟨other, hother, (terminator?_of hother).symm.trans hterm⟩

theorem Consistent.cut : (f.cut b position layout data).Consistent := by
  have hopen := h.cutOpen position hb hlayout
  obtain ⟨other, hother, hfree⟩ := exists_block?_cutOpen position h hb hlayout
  refine hopen.attach hother hfree (fun s hs => ?_) fun v hv => ?_
  · rw [isLiveBlock_cutOpen position h hb hlayout]
    exact .inl (List.mem_singleton.mp hs)
  · exact (List.not_mem_nil hv).elim

theorem terminator?_cut (c : BlockId) :
    (f.cut b position layout data).terminator? c =
      if c = b then some (.br f.nextBlock [])
      else if c = f.nextBlock then data.terminator else f.terminator? c := by
  have hlive := (isLiveBlock_cutOpen position h hb hlayout b).mpr (.inr (isLiveBlock_of hb))
  refine (terminator?_attach hlive _ c).trans ?_
  rw [terminator?_cutOpen position h hb hlayout]
  grind

theorem args?_cut (c : BlockId) :
    (f.cut b position layout data).args? c = if c = f.nextBlock then some [] else f.args? c :=
  (args?_mapBlocks (block?_attach _ b _) (fun _ _ => rfl) c).trans
    (args?_cutOpen position h hb hlayout c)

theorem instrs?_cut (c : BlockId) :
    (f.cut b position layout data).instrs? c =
      if c = b then some (data.instrs.take position)
      else if c = f.nextBlock then some (data.instrs.drop position) else f.instrs? c := by
  have hcut := h.cutInstrs hb position hlayout
  refine (instrs?_mapBlocks (block?_attach _ b _) (fun _ _ => rfl) c).trans ?_
  refine (instrs?_handOver hcut.edges (block?_cutInstrs_front hb _ _ _) rfl f.nextBlock c).trans ?_
  rw [instrs?, block?_cutInstrs hb, instrs?]
  grind

end Cut

theorem cut_eq (f : Body) (b : BlockId) (position : Nat) (layout : List BlockId) (data : Block) :
    f.cut b position layout data =
      { f with
        blocks := (f.cut b position layout data).blocks
        layout
        instrs := (f.cut b position layout data).instrs
        useIndex := (f.cut b position layout data).useIndex } := by
  rw [cut, attach_eq, cutOpen, handOver_eq, cutInstrs_eq]

theorem instr?_cut (f : Body) (b : BlockId) (position : Nat) (layout : List BlockId) (data : Block)
    (i : InstrId) :
    (f.cut b position layout data).instr? i =
      (f.instr? i).map fun other =>
        { other with
          block := if i ∈ data.instrs.drop position then f.nextBlock else other.block } := by
  rw [cut, attach_eq, cutOpen, handOver_eq]
  exact instr?_cutInstrs f b position layout _ i

theorem splitBlock_eq_ok (h : f.Consistent) {position : Nat} {tail : BlockId} :
    f.splitBlock b position = .ok (tail, g) ↔
      ∃ data place, f.block? b = some data ∧ position ≤ data.instrs.length ∧
        f.layout.idxOf? b = some place ∧ f.blocks.size < slotLimit ∧ tail = f.nextBlock ∧
        g = f.cut b position (f.layout.insertIdx (place + 1) f.nextBlock) data := by
  have hperm : ∀ {place}, f.layout.idxOf? b = some place →
      (f.layout.insertIdx (place + 1) f.nextBlock).Perm (f.nextBlock :: f.layout) :=
    fun hplace => List.perm_insertIdx _ _ (List.idxOf?_eq_some_iff.mp hplace).1
  unfold splitBlock
  simp only [bind_eq_ok, block_eq_ok, guard_eq_ok, Prod.exists, createBlockAfter_eq_ok, pure_eq_ok,
    Nat.not_lt, moveInstrs_eq_ok, Prod.mk.injEq]
  constructor
  · rintro ⟨data, hb, hposition, _, _, ⟨place, hplace, hlt, rfl, rfl⟩, _, ⟨-, rfl⟩, body, hmove,
      old, _, hset, rfl, rfl⟩
    have hcut := h.cutInstrs hb position (hperm hplace)
    have hfirst := block?_cutInstrs_front hb position
      (f.layout.insertIdx (place + 1) f.nextBlock) (data.instrs.drop position)
    have hnext := block?_cutInstrs_back hb position
      (f.layout.insertIdx (place + 1) f.nextBlock) (data.instrs.drop position)
    obtain ⟨sdata, hs, rfl⟩ := (moveTerminator_eq_ok hcut.edges hnext rfl).mp hmove
    rw [hfirst, Option.some.injEq] at hs
    subst hs
    obtain ⟨other, hother, hfree⟩ := exists_block?_cutOpen position h hb (hperm hplace)
    obtain ⟨other', hother', -, -, rfl⟩ := setTerminator_eq_ok.mp hset
    have hsame : other = other' := Option.some.inj (hother.symm.trans hother')
    subst hsame
    refine ⟨data, place, hb, hposition, hplace, hlt, rfl, ?_⟩
    rw [hfree]
    rfl
  · rintro ⟨data, place, hb, hposition, hplace, hlt, rfl, rfl⟩
    have hcut := h.cutInstrs hb position (hperm hplace)
    have hfirst := block?_cutInstrs_front hb position
      (f.layout.insertIdx (place + 1) f.nextBlock) (data.instrs.drop position)
    have hnext := block?_cutInstrs_back hb position
      (f.layout.insertIdx (place + 1) f.nextBlock) (data.instrs.drop position)
    obtain ⟨other, hother, hfree⟩ := exists_block?_cutOpen position h hb (hperm hplace)
    refine ⟨data, hb, hposition, _, _, ⟨place, hplace, hlt, rfl, rfl⟩, _, ⟨fun i hi => ?_, rfl⟩, _,
      (moveTerminator_eq_ok hcut.edges hnext rfl).mpr ⟨_, hfirst, rfl⟩, _, _,
      setTerminator_eq_ok.mpr ⟨other, hother, rfl, fun s hs => ?_, rfl⟩, rfl, ?_⟩
    · exact h.instrs.isLiveInstr (instrs?_of hb) (List.mem_of_mem_drop hi)
    · exact (isLiveBlock_cutOpen position h hb (hperm hplace) s).mpr
        (.inl (List.mem_singleton.mp hs))
    · rw [hfree]
      rfl

theorem Consistent.splitBlock {position : Nat} {tail : BlockId} (h : f.Consistent)
    (hsplit : f.splitBlock b position = .ok (tail, g)) : g.Consistent := by
  obtain ⟨data, place, hb, -, hplace, -, -, rfl⟩ := (splitBlock_eq_ok h).mp hsplit
  exact h.cut position hb (List.perm_insertIdx _ _ (List.idxOf?_eq_some_iff.mp hplace).1)

end FlowGraph.Body
