import Mathlib.Data.List.Nodup
import FlowGraph.Proofs.Views

/-!
The structural invariant of a body. A body repeats itself in five places: the layout repeats the
live blocks, the lists of incoming edges repeat the terminators, the lists of instructions and
arguments repeat what instructions and values record of their place, and the use index repeats the
operands. The body is consistent if both versions agree everywhere.

Each part of the invariant speaks of few views of the body; it is kept by every change that leaves
those views alone (`congr`).
-/

namespace FlowGraph.Body

/-- The layout lists the live blocks, each once. -/
structure LayoutListed (f : Body) : Prop where
  nodup : f.layout.Nodup
  mem_iff : ∀ b, b ∈ f.layout ↔ f.isLiveBlock b = true

/-- A block lists each edge that leads to it once, and edges lead to live blocks. -/
structure EdgesListed (f : Body) : Prop where
  count_preds : ∀ {b preds}, f.preds? b = some preds →
    ∀ e, preds.count e = if f.target? e = some b then 1 else 0
  live_target : ∀ {e b}, f.target? e = some b → f.isLiveBlock b = true

/-- A block lists each instruction that records it once, and instructions record live blocks. -/
structure InstrsListed (f : Body) : Prop where
  count_instrs : ∀ {b instrs}, f.instrs? b = some instrs →
    ∀ i, instrs.count i = if f.holder? i = some b then 1 else 0
  live_holder : ∀ {i b}, f.holder? i = some b → f.isLiveBlock b = true

/-- The arguments of a block are the values that record a position in it. -/
structure ArgsListed (f : Body) : Prop where
  getElem?_args : ∀ {b args}, f.args? b = some args →
    ∀ index v, args[index]? = some v ↔ ∃ kind, f.origin? v = some (.argument b index kind)
  live_block : ∀ {v b index kind}, f.origin? v = some (.argument b index kind) →
    f.isLiveBlock b = true

/-- An instruction and its result name each other. -/
def ResultsListed (f : Body) : Prop :=
  ∀ i v, f.result? i = some v ↔ f.origin? v = some (.result i)

/-- The use list of a value has one entry for each operand slot that reads it, and every slot of
the value arena has a use list. -/
structure UsesListed (f : Body) : Prop where
  size_users : f.useIndex.users.size = f.values.size
  allocated : ∀ {point v}, v ∈ f.operandsAt? point → v.index < f.values.size
  count_users : ∀ v point, (f.usersOf v).count point = (f.operandsAt? point).count v

/-- Everything that a body says twice, it says the same way twice. -/
structure Consistent (f : Body) : Prop where
  layout : f.LayoutListed
  edges : f.EdgesListed
  instrs : f.InstrsListed
  args : f.ArgsListed
  results : f.ResultsListed
  uses : f.UsesListed

variable {f g : Body}

theorem LayoutListed.congr (h : f.LayoutListed) (hlayout : g.layout = f.layout)
    (hlive : ∀ b, g.isLiveBlock b = f.isLiveBlock b) : g.LayoutListed where
  nodup := hlayout ▸ h.nodup
  mem_iff b := by rw [hlayout, hlive, h.mem_iff]

theorem EdgesListed.congr (h : f.EdgesListed) (hpreds : ∀ b, g.preds? b = f.preds? b)
    (htarget : ∀ e, g.target? e = f.target? e) : g.EdgesListed where
  count_preds := by
    intro b preds hb e
    rw [htarget, h.count_preds (hpreds b ▸ hb)]
  live_target := by
    intro e b he
    rw [← isSome_preds?, hpreds, isSome_preds?]
    exact h.live_target (htarget e ▸ he)

theorem InstrsListed.congr (h : f.InstrsListed) (hinstrs : ∀ b, g.instrs? b = f.instrs? b)
    (hholder : ∀ i, g.holder? i = f.holder? i) : g.InstrsListed where
  count_instrs := by
    intro b instrs hb i
    rw [hholder, h.count_instrs (hinstrs b ▸ hb)]
  live_holder := by
    intro i b hi
    rw [← isSome_instrs?, hinstrs, isSome_instrs?]
    exact h.live_holder (hholder i ▸ hi)

theorem ArgsListed.congr (h : f.ArgsListed) (hargs : ∀ b, g.args? b = f.args? b)
    (horigin : ∀ v, g.origin? v = f.origin? v) : g.ArgsListed where
  getElem?_args := by
    intro b args hb index v
    rw [horigin, h.getElem?_args (hargs b ▸ hb)]
  live_block := by
    intro v b index kind hv
    rw [← isSome_args?, hargs, isSome_args?]
    exact h.live_block (horigin v ▸ hv)

theorem ResultsListed.congr (h : f.ResultsListed) (hresult : ∀ i, g.result? i = f.result? i)
    (horigin : ∀ v, g.origin? v = f.origin? v) : g.ResultsListed := by
  intro i v
  rw [hresult, horigin]
  exact h i v

theorem UsesListed.congr (h : f.UsesListed) (hindex : g.useIndex = f.useIndex)
    (hsize : g.values.size = f.values.size)
    (hoperands : ∀ point, g.operandsAt? point = f.operandsAt? point) : g.UsesListed where
  size_users := by rw [hindex, hsize, h.size_users]
  allocated := by
    intro point v hv
    rw [hsize]
    exact h.allocated (hoperands point ▸ hv)
  count_users v point := by
    rw [usersOf, hindex, hoperands]
    exact h.count_users v point

theorem operandsAt?_congr (hterm : ∀ b, g.terminator? b = f.terminator? b)
    (hop : ∀ i, g.operation? i = f.operation? i) (point : Point) :
    g.operandsAt? point = f.operandsAt? point := by
  rcases point with i | b
  · rw [operandsAt?_instr, operandsAt?_instr, hop]
  · rw [operandsAt?_terminator, operandsAt?_terminator, hterm]

theorem target?_congr (hterm : ∀ b, g.terminator? b = f.terminator? b) (e : Edge) :
    g.target? e = f.target? e := by
  rw [target?, target?, hterm]

namespace EdgesListed

theorem mem_preds (h : f.EdgesListed) {b : BlockId} {preds : List Edge}
    (hb : f.preds? b = some preds) {e : Edge} : e ∈ preds ↔ f.target? e = some b := by
  rw [← List.count_pos_iff, h.count_preds hb]
  split <;> simp [*]

theorem nodup_preds (h : f.EdgesListed) {b : BlockId} {preds : List Edge}
    (hb : f.preds? b = some preds) : preds.Nodup := by
  rw [List.nodup_iff_count]
  intro e
  rw [h.count_preds hb]
  split <;> omega

theorem length_preds_eq_one_iff (h : f.EdgesListed) {c : BlockId} {data : Block} {x : Edge}
    (hc : f.block? c = some data) (hx : f.target? x = some c) :
    data.preds.length = 1 ↔ ∀ y, f.target? y = some c → y = x := by
  have hmem : ∀ y, y ∈ data.preds ↔ f.target? y = some c := fun y => h.mem_preds (preds?_of hc)
  constructor
  · intro hone y hy
    obtain ⟨only, honly⟩ := List.length_eq_one_iff.mp hone
    rw [← hmem, honly, List.mem_singleton] at hx hy
    rw [hx, hy]
  · intro hall
    have hperm : data.preds.Perm [x] := by
      rw [List.perm_ext_iff_of_nodup (h.nodup_preds (preds?_of hc)) (List.nodup_singleton x)]
      intro y
      rw [hmem, List.mem_singleton]
      constructor
      · exact hall y
      · rintro rfl
        exact hx
    exact hperm.length_eq

end EdgesListed

namespace InstrsListed

theorem mem_instrs (h : f.InstrsListed) {b : BlockId} {instrs : List InstrId}
    (hb : f.instrs? b = some instrs) {i : InstrId} : i ∈ instrs ↔ f.holder? i = some b := by
  rw [← List.count_pos_iff, h.count_instrs hb]
  split <;> simp [*]

theorem nodup_instrs (h : f.InstrsListed) {b : BlockId} {instrs : List InstrId}
    (hb : f.instrs? b = some instrs) : instrs.Nodup := by
  rw [List.nodup_iff_count]
  intro i
  rw [h.count_instrs hb]
  split <;> omega

end InstrsListed

theorem ArgsListed.mem_args (h : f.ArgsListed) {b : BlockId} {args : List ValueId}
    (hb : f.args? b = some args) {v : ValueId} :
    v ∈ args ↔ ∃ index kind, f.origin? v = some (.argument b index kind) := by
  rw [List.mem_iff_getElem?]
  exact exists_congr fun index => h.getElem?_args hb index v

theorem ArgsListed.nodup_args (h : f.ArgsListed) {b : BlockId} {args : List ValueId}
    (hb : f.args? b = some args) : args.Nodup := by
  rw [List.nodup_iff_getElem?_ne_getElem?]
  intro i j hij hj heq
  rw [List.getElem?_eq_getElem hj] at heq
  obtain ⟨kind, hkind⟩ := (h.getElem?_args hb i _).mp heq
  obtain ⟨kind', hkind'⟩ := (h.getElem?_args hb j _).mp (List.getElem?_eq_getElem hj)
  rw [hkind] at hkind'
  simp only [Option.some.injEq, Origin.argument.injEq] at hkind'
  omega

theorem Consistent.isLiveBlock_entry (h : f.Consistent) {entry : BlockId}
    (hentry : f.entry = .ok entry) : f.isLiveBlock entry = true := by
  obtain ⟨rest, hlayout⟩ := entry_eq_ok.mp hentry
  exact (h.layout.mem_iff entry).mp (hlayout ▸ List.mem_cons_self)

end FlowGraph.Body
