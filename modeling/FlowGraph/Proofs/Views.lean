import FlowGraph.Body.Uses
import FlowGraph.Proofs.Outcome
import FlowGraph.Proofs.Terminator
import FlowGraph.Proofs.UseCounts

/-!
What can be seen of a body. The invariants of a body speak of its blocks, instructions and values
through the functions of this module only; for each basic change there is a lemma that says which
of them it touches.
-/

namespace FlowGraph.Body

def terminator? (f : Body) (b : BlockId) : Option Terminator := (f.block? b).bind (·.terminator)

def args? (f : Body) (b : BlockId) : Option (List ValueId) := (f.block? b).map (·.args)

def instrs? (f : Body) (b : BlockId) : Option (List InstrId) := (f.block? b).map (·.instrs)

def preds? (f : Body) (b : BlockId) : Option (List Edge) := (f.block? b).map (·.preds)

def target? (f : Body) (e : Edge) : Option BlockId :=
  (f.terminator? e.block).bind fun t => t.successors[e.index]?

def edgeArgs? (f : Body) (x : Edge) : Option EdgeArgs :=
  (f.terminator? x.block).bind (·.edgeArgs? x.index)

/-- What the terminator of a block reads itself. -/
def ownOperands (f : Body) (c : BlockId) : List ValueId :=
  ((f.terminator? c).map (·.ownOperands)).getD []

def operation? (f : Body) (i : InstrId) : Option Operation := (f.instr? i).map (·.op)

def holder? (f : Body) (i : InstrId) : Option BlockId := (f.instr? i).map (·.block)

def result? (f : Body) (i : InstrId) : Option ValueId := (f.instr? i).bind (·.result)

def origin? (f : Body) (v : ValueId) : Option Origin := (f.value? v).map (·.origin)

theorem isLiveBlock_iff {f : Body} {b : BlockId} :
    f.isLiveBlock b = true ↔ ∃ data, f.block? b = some data :=
  Option.isSome_iff_exists

theorem isLiveBlock_of {f : Body} {b : BlockId} {data : Block} (h : f.block? b = some data) :
    f.isLiveBlock b = true :=
  isLiveBlock_iff.mpr ⟨data, h⟩

theorem lt_size_of_isLiveBlock {f : Body} {b : BlockId} (h : f.isLiveBlock b = true) :
    b.index < f.blocks.size := by
  obtain ⟨data, hdata⟩ := isLiveBlock_iff.mp h
  exact Arena.lt_size_of_get? hdata

theorem lt_size_of_isLiveValue {f : Body} {v : ValueId} (h : f.isLiveValue v = true) :
    v.index < f.values.size := by
  obtain ⟨value, hvalue⟩ := Option.isSome_iff_exists.mp h
  exact Arena.lt_size_of_get? hvalue

theorem isSome_args? (f : Body) (b : BlockId) : (f.args? b).isSome = f.isLiveBlock b := by
  simp [args?, isLiveBlock]

theorem isSome_instrs? (f : Body) (b : BlockId) : (f.instrs? b).isSome = f.isLiveBlock b := by
  simp [instrs?, isLiveBlock]

theorem isSome_preds? (f : Body) (b : BlockId) : (f.preds? b).isSome = f.isLiveBlock b := by
  simp [preds?, isLiveBlock]

theorem isSome_origin? (f : Body) (v : ValueId) : (f.origin? v).isSome = f.isLiveValue v := by
  simp [origin?, isLiveValue]

theorem isSome_edgeArgs? (f : Body) (x : Edge) :
    (f.edgeArgs? x).isSome = (f.target? x).isSome := by
  unfold edgeArgs? target?
  rcases f.terminator? x.block with _ | t
  · rfl
  · exact t.isSome_edgeArgs? x.index

theorem operandsAt?_instr (f : Body) (i : InstrId) :
    f.operandsAt? (.instr i) = ((f.operation? i).map (·.operands)).getD [] := by
  simp [operandsAt?, operation?, Function.comp_def]

theorem operandsAt?_terminator (f : Body) (b : BlockId) :
    f.operandsAt? (.terminator b) = ((f.terminator? b).map (·.operands)).getD [] := rfl

section Lookup

variable {f : Body} {b : BlockId} {data : Block}

theorem terminator?_of (h : f.block? b = some data) : f.terminator? b = data.terminator := by
  simp [terminator?, h]

theorem args?_of (h : f.block? b = some data) : f.args? b = some data.args := by
  simp [args?, h]

theorem instrs?_of (h : f.block? b = some data) : f.instrs? b = some data.instrs := by
  simp [instrs?, h]

theorem preds?_of (h : f.block? b = some data) : f.preds? b = some data.preds := by
  simp [preds?, h]

theorem target?_of (h : f.block? b = some data) (e : Nat) :
    f.target? ⟨b, e⟩ = data.successors[e]? := by
  rw [target?, terminator?_of h, Block.successors]
  rcases data.terminator with _ | t <;> rfl

theorem args?_eq_some {args : List ValueId} :
    f.args? b = some args ↔ ∃ data, f.block? b = some data ∧ data.args = args := by
  simp [args?]

theorem instrs?_eq_some {instrs : List InstrId} :
    f.instrs? b = some instrs ↔ ∃ data, f.block? b = some data ∧ data.instrs = instrs := by
  simp [instrs?]

theorem preds?_eq_some {preds : List Edge} :
    f.preds? b = some preds ↔ ∃ data, f.block? b = some data ∧ data.preds = preds := by
  simp [preds?]

theorem terminator?_eq_some {t : Terminator} :
    f.terminator? b = some t ↔ ∃ data, f.block? b = some data ∧ data.terminator = some t :=
  Option.bind_eq_some_iff

theorem holder?_eq_some {i : InstrId} :
    f.holder? i = some b ↔ ∃ data, f.instr? i = some data ∧ data.block = b := by
  simp [holder?]

theorem result?_eq_some {i : InstrId} {v : ValueId} :
    f.result? i = some v ↔ ∃ data, f.instr? i = some data ∧ data.result = some v :=
  Option.bind_eq_some_iff

theorem origin?_eq_some {v : ValueId} {origin : Origin} :
    f.origin? v = some origin ↔ ∃ value, f.value? v = some value ∧ value.origin = origin := by
  simp [origin?]

theorem target?_eq_some {e : Edge} {s : BlockId} :
    f.target? e = some s ↔
      ∃ t, f.terminator? e.block = some t ∧ t.successors[e.index]? = some s :=
  Option.bind_eq_some_iff

theorem edgeArgs?_eq_some {x : Edge} {given : EdgeArgs} :
    f.edgeArgs? x = some given ↔
      ∃ t, f.terminator? x.block = some t ∧ t.edgeArgs? x.index = some given :=
  Option.bind_eq_some_iff

theorem edgeArgs_eq_ok {x : Edge} {given : EdgeArgs} :
    f.edgeArgs x.block x.index = .ok given ↔ f.edgeArgs? x = some given := by
  simp only [edgeArgs, bind_eq_ok, terminator_eq_ok, Terminator.edgeArgs_eq_ok, edgeArgs?_eq_some,
    terminator?_eq_some]

theorem mem_operandsAt?_terminator {c : BlockId} {v : ValueId} :
    v ∈ f.operandsAt? (.terminator c) ↔
      v ∈ f.ownOperands c ∨ ∃ k args, f.edgeArgs? ⟨c, k⟩ = some (.explicit args) ∧ v ∈ args := by
  rw [operandsAt?_terminator, ownOperands]
  simp only [edgeArgs?]
  rcases f.terminator? c with _ | t
  · simp
  · simp only [Option.map_some, Option.getD_some, Option.bind_some, Terminator.edgeArgs?_eq_explicit]
    exact Terminator.mem_operands_iff

end Lookup

section ModifyBlock

variable (f : Body) (b c : BlockId) {g : Block → Block}

@[simp] theorem isLiveBlock_modifyBlock (g : Block → Block) :
    (f.modifyBlock b g).isLiveBlock c = f.isLiveBlock c := by
  rw [isLiveBlock, block?_modifyBlock]
  split <;> simp [isLiveBlock]

theorem map_block?_modifyBlock {β : Type} (view : Block → β) (h : ∀ data, view (g data) = view data) :
    ((f.modifyBlock b g).block? c).map view = (f.block? c).map view := by
  rw [block?_modifyBlock]
  split
  · rcases f.block? c with _ | data <;> simp [h]
  · rfl

theorem terminator?_modifyBlock (h : ∀ data, (g data).terminator = data.terminator) :
    (f.modifyBlock b g).terminator? c = f.terminator? c := by
  rw [terminator?, block?_modifyBlock]
  split
  · rcases hc : f.block? c with _ | data <;> simp [terminator?, hc, h]
  · rfl

theorem args?_modifyBlock (h : ∀ data, (g data).args = data.args) :
    (f.modifyBlock b g).args? c = f.args? c :=
  map_block?_modifyBlock f b c (·.args) h

theorem instrs?_modifyBlock (h : ∀ data, (g data).instrs = data.instrs) :
    (f.modifyBlock b g).instrs? c = f.instrs? c :=
  map_block?_modifyBlock f b c (·.instrs) h

theorem preds?_modifyBlock (h : ∀ data, (g data).preds = data.preds) :
    (f.modifyBlock b g).preds? c = f.preds? c :=
  map_block?_modifyBlock f b c (·.preds) h

theorem block?_modifyBlock_of {data : Block} (h : f.block? b = some data) (g : Block → Block) :
    (f.modifyBlock b g).block? c = if c = b then some (g data) else f.block? c := by
  rw [block?_modifyBlock]
  split
  · rename_i hc
    subst hc
    simp [h]
  · rfl

end ModifyBlock

end FlowGraph.Body
