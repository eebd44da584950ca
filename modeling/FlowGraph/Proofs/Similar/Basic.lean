import FlowGraph.Body.Similar
import FlowGraph.Proofs.Verification

namespace FlowGraph

section Agree

variable {ε α β γ δ : Type} {r : α → β → Prop} {s : γ → δ → Prop}

/-- The same fault, or results that are related. -/
inductive Agree (r : α → β → Prop) : Except ε α → Except ε β → Prop
  | fault (e : ε) : Agree r (.error e) (.error e)
  | result {a : α} {b : β} (h : r a b) : Agree r (.ok a) (.ok b)

/-- The same value beside related states. -/
def Paired (r : α → β → Prop) (x : γ × α) (y : γ × β) : Prop := x.1 = y.1 ∧ r x.2 y.2

namespace Agree

theorem bind_ok {x : Except ε α} {y : Except ε β} {k : α → Except ε γ} {l : β → Except ε δ}
    (h : Agree r x y) (hk : ∀ a b, x = .ok a → r a b → Agree s (k a) (l b)) :
    Agree s (x >>= k) (y >>= l) := by
  cases h with
  | fault e => exact .fault e
  | result h => exact hk _ _ rfl h

theorem bind {x : Except ε α} {y : Except ε β} {k : α → Except ε γ} {l : β → Except ε δ}
    (h : Agree r x y) (hk : ∀ a b, r a b → Agree s (k a) (l b)) : Agree s (x >>= k) (y >>= l) :=
  h.bind_ok fun a b _ => hk a b

theorem bind_paired {κ : Type} {x : Except ε (κ × α)} {y : Except ε (κ × β)}
    {k : κ × α → Except ε γ} {l : κ × β → Except ε δ} (h : Agree (Paired r) x y)
    (hk : ∀ c a b, r a b → Agree s (k (c, a)) (l (c, b))) : Agree s (x >>= k) (y >>= l) := by
  refine h.bind ?_
  rintro ⟨c, a⟩ ⟨_, b⟩ ⟨rfl, hab⟩
  exact hk c a b hab

theorem outcome {x : Except ε α} {y : Except ε β} (h : Agree r x y) :
    (∃ e, x = .error e ∧ y = .error e) ∨ ∃ a b, x = .ok a ∧ y = .ok b ∧ r a b := by
  cases h with
  | fault e => exact .inl ⟨e, rfl, rfl⟩
  | result h => exact .inr ⟨_, _, rfl, rfl, h⟩

theorem of_eq (x : Except ε α) : Agree Eq x x := by
  rcases x with e | a
  · exact .fault e
  · exact .result rfl

theorem eq {x y : Except ε α} (h : Agree Eq x y) : x = y := by
  cases h with
  | fault e => rfl
  | result h => rw [h]

theorem bind_eq {x y : Except ε α} {k : α → Except ε γ} {l : α → Except ε δ} (hx : x = y)
    (hk : ∀ a, Agree s (k a) (l a)) : Agree s (x >>= k) (y >>= l) := by
  subst hx
  rcases x with e | a
  · exact .fault e
  · exact hk a

theorem pure_bind {a : α} {b : β} {k : α → Except ε γ} {l : β → Except ε δ} (h : Agree s (k a) (l b)) :
    Agree s (pure a >>= k) (pure b >>= l) := h

theorem guard {c : Prop} [Decidable c] {e : ε} {k : α → Except ε γ} {l : α → Except ε δ}
    {x : Except ε γ} {y : Except ε δ} (h : Agree s x y) :
    Agree s (if c then .error e >>= k else x) (if c then .error e >>= l else y) := by
  split
  · exact .fault e
  · exact h

theorem ite {c : Prop} [Decidable c] {x x' : Except ε α} {y y' : Except ε β} (h : Agree r x y)
    (h' : Agree r x' y') : Agree r (if c then x else x') (if c then y else y') := by
  split
  · exact h
  · exact h'

end Agree

end Agree

namespace UseIndex

variable {u w x : UseIndex}

/-- The same lists up to order. -/
structure Alike (u w : UseIndex) : Prop where
  size : u.users.size = w.users.size
  perm : ∀ v, (u.usersOf v).Perm (w.usersOf v)

theorem usersOf_sorted (u : UseIndex) (v : ValueId) :
    u.sorted.usersOf v = sortPoints (u.usersOf v) := by
  rw [usersOf, usersOf, sorted, Array.getElem?_map]
  rcases u.users[v.index]? with _ | points
  · exact List.mergeSort_nil.symm
  · rfl

theorem ext_usersOf (hsize : u.users.size = w.users.size) (h : ∀ v, u.usersOf v = w.usersOf v) :
    u = w := by
  rcases u with ⟨users⟩
  rcases w with ⟨users'⟩
  refine congrArg UseIndex.mk (Array.ext hsize fun n hn hn' => ?_)
  simpa [usersOf, Array.getElem?_eq_getElem hn, Array.getElem?_eq_getElem hn'] using h ⟨n⟩

theorem similar_iff : u.similar w = true ↔ u.Alike w := by
  rw [similar, decide_eq_true_eq]
  constructor
  · intro h
    refine ⟨?_, fun v => ?_⟩
    · simpa [sorted] using congrArg (·.users.size) h
    · rw [← Body.sortPoints_eq_iff_perm, ← usersOf_sorted, ← usersOf_sorted, h]
  · intro h
    refine ext_usersOf (by simpa [sorted] using h.size) fun v => ?_
    rw [usersOf_sorted, usersOf_sorted, Body.sortPoints_eq_iff_perm.mpr (h.perm v)]

namespace Alike

theorem refl (u : UseIndex) : u.Alike u := ⟨rfl, fun _ => .refl _⟩

theorem symm (h : u.Alike w) : w.Alike u := ⟨h.size.symm, fun v => (h.perm v).symm⟩

theorem trans (h : u.Alike w) (h' : w.Alike x) : u.Alike x :=
  ⟨h.size.trans h'.size, fun v => (h.perm v).trans (h'.perm v)⟩

theorem sorted (u : UseIndex) : u.Alike u.sorted := by
  refine ⟨by simp [UseIndex.sorted], fun v => ?_⟩
  rw [usersOf_sorted]
  exact (List.mergeSort_perm _ _).symm

theorem addValue (h : u.Alike w) : u.addValue.Alike w.addValue := by
  refine ⟨by simp [h.size], fun v => ?_⟩
  rw [usersOf_addValue, usersOf_addValue]
  exact h.perm v

theorem clear (h : u.Alike w) (v : ValueId) : (u.clear v).Alike (w.clear v) := by
  refine ⟨by simp [h.size], fun other => ?_⟩
  rw [usersOf_clear, usersOf_clear]
  split
  · exact .refl _
  · exact h.perm other

theorem modify (h : u.Alike w) (v : ValueId) {k : List Point → List Point}
    (hk : ∀ l m : List Point, l.Perm m → (k l).Perm (k m)) :
    Alike ⟨u.users.modify v.index k⟩ ⟨w.users.modify v.index k⟩ := by
  refine ⟨by simp [h.size], fun other => ?_⟩
  rw [usersOf_modify, usersOf_modify, h.size]
  split
  · exact hk _ _ (h.perm other)
  · exact h.perm other

theorem add (h : u.Alike w) (point : Point) (v : ValueId) : (u.add point v).Alike (w.add point v) :=
  h.modify v fun _ _ hperm => hperm.append_right [point]

theorem drop (h : u.Alike w) (point : Point) (v : ValueId) :
    (u.drop point v).Alike (w.drop point v) := by
  refine h.modify v fun l m hperm => ?_
  have herase : (l.erase point).Perm (m.erase point) := hperm.erase point
  exact (dropPoint_perm point l).trans (herase.trans (dropPoint_perm point m).symm)

theorem link (h : u.Alike w) (point : Point) (operands : List ValueId) :
    (u.link point operands).Alike (w.link point operands) := by
  induction operands generalizing u w with
  | nil => exact h
  | cons v rest ih => exact ih (h.add point v)

theorem unlink (h : u.Alike w) (point : Point) (operands : List ValueId) :
    (u.unlink point operands).Alike (w.unlink point operands) := by
  induction operands generalizing u w with
  | nil => exact h
  | cons v rest ih => exact ih (h.drop point v)

end Alike

end UseIndex

namespace Body

variable {f g k : Body}

/-- What of a body is left without its identity and its use index. -/
def bare (f : Body) : Body := { f with id := ⟨0⟩, useIndex := {} }

/-- The comparison of bodies finds no difference. -/
def Alike (f g : Body) : Prop := f.similar g = true

theorem bare_eq_iff : f.bare = g.bare ↔ f.name = g.name ∧ f.blocks = g.blocks ∧
    f.layout = g.layout ∧ f.instrs = g.instrs ∧ f.values = g.values := by
  rcases f with ⟨id, name, blocks, layout, instrs, values, uses⟩
  rcases g with ⟨id', name', blocks', layout', instrs', values', uses'⟩
  simp [bare]

theorem alike_iff : f.Alike g ↔ f.bare = g.bare ∧ f.useIndex.Alike g.useIndex := by
  rw [bare_eq_iff, ← UseIndex.similar_iff]
  simp [Alike, similar, and_assoc]

namespace Alike

theorem of (hbare : f.bare = g.bare) (huses : f.useIndex.Alike g.useIndex) : f.Alike g :=
  alike_iff.mpr ⟨hbare, huses⟩

theorem bare (h : f.Alike g) : f.bare = g.bare := (alike_iff.mp h).1

theorem uses (h : f.Alike g) : f.useIndex.Alike g.useIndex := (alike_iff.mp h).2

theorem refl (f : Body) : f.Alike f := .of rfl (.refl _)

theorem symm (h : f.Alike g) : g.Alike f := .of h.bare.symm h.uses.symm

theorem trans (h : f.Alike g) (h' : g.Alike k) : f.Alike k :=
  .of (h.bare.trans h'.bare) (h.uses.trans h'.uses)

theorem sortUses (f : Body) : f.Alike f.sortUses := .of rfl (.sorted _)

theorem read {α : Type} (h : f.Alike g) (q : Body → α) : q f.bare = q g.bare := congrArg q h.bare

theorem layout (h : f.Alike g) : f.layout = g.layout := h.read fun f => f.layout

theorem block (h : f.Alike g) (b : BlockId) : f.block b = g.block b := h.read fun f => f.block b

theorem value (h : f.Alike g) (v : ValueId) : f.value v = g.value v := h.read fun f => f.value v

theorem instr (h : f.Alike g) (i : InstrId) : f.instr i = g.instr i := h.read fun f => f.instr i

theorem terminator (h : f.Alike g) (b : BlockId) : f.terminator b = g.terminator b :=
  h.read fun f => f.terminator b

theorem successors (h : f.Alike g) (b : BlockId) : f.successors b = g.successors b :=
  h.read fun f => f.successors b

theorem predecessors (h : f.Alike g) (b : BlockId) : f.predecessors b = g.predecessors b :=
  h.read fun f => f.predecessors b

theorem operandsAt? (h : f.Alike g) (point : Point) : f.operandsAt? point = g.operandsAt? point := by
  rcases point with i | b
  · exact h.read fun f => f.operandsAt? (.instr i)
  · exact h.read fun f => f.operandsAt? (.terminator b)

theorem hasUses (h : f.Alike g) (v : ValueId) : f.hasUses v = g.hasUses v := by
  rw [Body.hasUses, Body.hasUses, (h.uses.perm v).isEmpty_eq]

theorem sortPoints_usersOf (h : f.Alike g) (v : ValueId) :
    sortPoints (f.usersOf v) = sortPoints (g.usersOf v) :=
  sortPoints_eq_iff_perm.mpr (h.uses.perm v)

theorem readersOf (h : f.Alike g) (v : ValueId) : f.readersOf v = g.readersOf v := by
  rw [Body.readersOf, h.sortPoints_usersOf v, Body.readersOf]

theorem modifyBlock (h : f.Alike g) (b : BlockId) (change : Block → Block) :
    (f.modifyBlock b change).Alike (g.modifyBlock b change) :=
  .of (h.read fun f => f.modifyBlock b change) h.uses

theorem modifyValue (h : f.Alike g) (v : ValueId) (change : Value → Value) :
    (f.modifyValue v change).Alike (g.modifyValue v change) :=
  .of (h.read fun f => f.modifyValue v change) h.uses

theorem modifyInstr (h : f.Alike g) (i : InstrId) (change : Instr → Instr) :
    (f.modifyInstr i change).Alike (g.modifyInstr i change) :=
  .of (h.read fun f => f.modifyInstr i change) h.uses

theorem link (h : f.Alike g) (point : Point) (operands : List ValueId) :
    Alike { f with useIndex := f.useIndex.link point operands }
      { g with useIndex := g.useIndex.link point operands } :=
  .of h.bare (h.uses.link point operands)

theorem unlink (h : f.Alike g) (point : Point) (operands : List ValueId) :
    Alike { f with useIndex := f.useIndex.unlink point operands }
      { g with useIndex := g.useIndex.unlink point operands } :=
  .of h.bare (h.uses.unlink point operands)

end Alike

end Body

end FlowGraph
