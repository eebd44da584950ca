import FlowGraph.Proofs.Dominance.Fresh
import FlowGraph.Proofs.Listing

/-!
Definitions and uses of values. A point stands at a place of a block, and a value is there from some
place of its block on: an argument from the start, a result behind its instruction. A body is in
SSA form if what is read in a block that can be reached is there already: it is defined earlier in
the block, or in another block that dominates it.
-/

namespace FlowGraph

namespace Body

variable {f : Body} {b c entry : BlockId} {k m : Nat} {i : InstrId} {v : ValueId}
  {point other : Point}

/-- Instruction number `k` of a block. -/
def instrAt? (f : Body) (b : BlockId) (k : Nat) : Option InstrId := (f.instrs? b).bind (·[k]?)

theorem instrAt?_eq_some :
    f.instrAt? b k = some i ↔ ∃ instrs, f.instrs? b = some instrs ∧ instrs[k]? = some i :=
  Option.bind_eq_some_iff

/-- A point stands at place `k` of a block. The terminator stands behind the last instruction. -/
inductive Stands (f : Body) : Point → BlockId → Nat → Prop
  | instr {i : InstrId} {b : BlockId} {k : Nat} (h : f.instrAt? b k = some i) :
      Stands f (.instr i) b k
  | terminator {b : BlockId} {k : Nat} {instrs : List InstrId} (h : f.instrs? b = some instrs)
      (hk : instrs.length = k) : Stands f (.terminator b) b k

/-- The value `v` is read at place `k` of a block. -/
def Reads (f : Body) (v : ValueId) (b : BlockId) (k : Nat) : Prop :=
  ∃ point, f.Stands point b k ∧ v ∈ f.operandsAt? point

/-- The value `v` is there from place `k` of a block on. -/
inductive Defines (f : Body) (v : ValueId) : BlockId → Nat → Prop
  | argument {b : BlockId} {index : Nat} {kind : ArgKind}
      (h : f.origin? v = some (.argument b index kind)) : Defines f v b 0
  | result {i : InstrId} {b : BlockId} {k : Nat} (h : f.origin? v = some (.result i))
      (hi : f.instrAt? b k = some i) : Defines f v b (k + 1)

theorem InstrsListed.holder?_of_instrAt? (h : f.InstrsListed) (hi : f.instrAt? b k = some i) :
    f.holder? i = some b := by
  obtain ⟨instrs, hb, hk⟩ := instrAt?_eq_some.mp hi
  exact (h.mem_instrs hb).mp (List.mem_of_getElem? hk)

theorem InstrsListed.exists_instrAt? (h : f.InstrsListed) (hi : f.holder? i = some b) :
    ∃ k, f.instrAt? b k = some i := by
  obtain ⟨data, hb⟩ := isLiveBlock_iff.mp (h.live_holder hi)
  obtain ⟨k, hk⟩ := List.mem_iff_getElem?.mp ((h.mem_instrs (instrs?_of hb)).mpr hi)
  exact ⟨k, instrAt?_eq_some.mpr ⟨data.instrs, instrs?_of hb, hk⟩⟩

theorem InstrsListed.pointPosition_eq_ok (h : f.InstrsListed) :
    f.pointPosition point = .ok (b, k) ↔ f.Stands point b k := by
  constructor
  · intro hpoint
    cases point with
    | instr i =>
        rw [pointPosition] at hpoint
        obtain ⟨instr, -, hpoint⟩ := bind_eq_ok.mp hpoint
        obtain ⟨data, hdata, hpoint⟩ := bind_eq_ok.mp hpoint
        split at hpoint
        · rename_i position hposition
          cases hpoint
          refine .instr (instrAt?_eq_some.mpr ⟨_, instrs?_of (block_eq_ok.mp hdata), ?_⟩)
          obtain ⟨hlt, hget, -⟩ := List.idxOf?_eq_some_iff.mp hposition
          exact List.getElem?_eq_some_iff.mpr ⟨hlt, by simpa using hget⟩
        · cases hpoint
    | terminator c =>
        rw [pointPosition] at hpoint
        obtain ⟨data, hdata, hpoint⟩ := bind_eq_ok.mp hpoint
        cases hpoint
        exact .terminator (instrs?_of (block_eq_ok.mp hdata)) rfl
  · intro hpoint
    cases hpoint with
    | @instr i _ _ hi =>
        obtain ⟨instrs, hb, hk⟩ := instrAt?_eq_some.mp hi
        obtain ⟨data, hdata, rfl⟩ := instrs?_eq_some.mp hb
        obtain ⟨instr, hinstr, rfl⟩ := holder?_eq_some.mp (h.holder?_of_instrAt? hi)
        obtain ⟨hlt, hget⟩ := List.getElem?_eq_some_iff.mp hk
        have hposition : data.instrs.idxOf? i = some k := by
          rw [List.idxOf?_eq_some_iff]
          refine ⟨hlt, by simpa using hget, fun j hj heq => ?_⟩
          have hsame : data.instrs[j] = data.instrs[k] := hget ▸ by simpa using heq
          have := (h.nodup_instrs hb).getElem_inj_iff.mp hsame
          omega
        simp only [pointPosition, instr_eq_ok.mpr hinstr, ok_bind, block_eq_ok.mpr hdata, hposition]
        rfl
    | @terminator _ _ instrs hb hk =>
        obtain ⟨data, hdata, rfl⟩ := instrs?_eq_some.mp hb
        rw [pointPosition, block_eq_ok.mpr hdata, ← hk]
        rfl

theorem InstrsListed.stands_unique (h : f.InstrsListed) (hb : f.Stands point b k)
    (hc : f.Stands point c m) : b = c ∧ k = m := by
  have heq := (h.pointPosition_eq_ok.mpr hb).symm.trans (h.pointPosition_eq_ok.mpr hc)
  exact Prod.mk.inj (Except.ok.inj heq)

theorem Stands.unique (h : f.Stands point b k) (h' : f.Stands other b k) : point = other := by
  have hend : ∀ {instrs i}, f.instrs? b = some instrs → instrs.length = k →
      f.instrAt? b k ≠ some i := by
    rintro instrs i hb rfl hi
    rw [instrAt?, hb, Option.bind_some, List.getElem?_eq_none (Nat.le_refl _)] at hi
    cases hi
  cases h with
  | instr hi =>
      cases h' with
      | instr hj => rw [Option.some.inj (hi.symm.trans hj)]
      | terminator hb hk => exact absurd hi (hend hb hk)
  | terminator hb hk =>
      cases h' with
      | instr hi => exact absurd hi (hend hb hk)
      | terminator _ _ => rfl

theorem InstrsListed.mem_pointsIn_iff_stands (h : f.InstrsListed) :
    point ∈ f.pointsIn b ↔ ∃ k, f.Stands point b k := by
  rw [h.mem_pointsIn]
  cases point with
  | instr i =>
      constructor
      · intro hi
        obtain ⟨k, hk⟩ := h.exists_instrAt? hi
        exact ⟨k, .instr hk⟩
      · rintro ⟨k, hk⟩
        cases hk with
        | instr hi => exact h.holder?_of_instrAt? hi
  | terminator c =>
      constructor
      · intro hc
        rw [place?] at hc
        split at hc
        · rename_i hlive
          cases hc
          obtain ⟨data, hdata⟩ := isLiveBlock_iff.mp hlive
          exact ⟨_, .terminator (instrs?_of hdata) rfl⟩
        · cases hc
      · rintro ⟨k, hk⟩
        cases hk with
        | terminator hb _ =>
            obtain ⟨data, hdata, -⟩ := instrs?_eq_some.mp hb
            rw [place?, if_pos (isLiveBlock_of hdata)]

theorem Consistent.exists_defines (h : f.Consistent) (hv : f.isLiveValue v = true) :
    ∃ b k, f.Defines v b k := by
  rw [← isSome_origin?, Option.isSome_iff_exists] at hv
  obtain ⟨origin, hv⟩ := hv
  cases origin with
  | argument b index kind => exact ⟨b, 0, .argument hv⟩
  | result i =>
      obtain ⟨data, hdata, -⟩ := result?_eq_some.mp ((h.results i v).mpr hv)
      obtain ⟨k, hk⟩ := h.instrs.exists_instrAt? (holder?_eq_some.mpr ⟨data, hdata, rfl⟩)
      exact ⟨data.block, k + 1, .result hv hk⟩

theorem Defines.unique (h : f.Defines v b k) (h' : f.Defines v c m) (hf : f.Consistent) :
    b = c ∧ k = m := by
  cases h with
  | argument hb =>
      cases h' with
      | argument hc =>
          cases hb.symm.trans hc
          exact ⟨rfl, rfl⟩
      | result hi _ => cases hb.symm.trans hi
  | result hi hb =>
      cases h' with
      | argument hc => cases hi.symm.trans hc
      | result hj hc =>
          cases hi.symm.trans hj
          obtain ⟨hblock, hplace⟩ := hf.instrs.stands_unique (.instr hb) (.instr hc)
          exact ⟨hblock, congrArg (· + 1) hplace⟩

theorem Defines.isLiveValue (h : f.Defines v b k) : f.isLiveValue v = true := by
  rw [← isSome_origin?]
  cases h with
  | argument h =>
      rw [h]
      rfl
  | result h _ =>
      rw [h]
      rfl

theorem Defines.isLiveBlock (h : f.Defines v b k) (hf : f.Consistent) : f.isLiveBlock b = true := by
  cases h with
  | argument h => exact hf.args.live_block h
  | result _ hi => exact hf.instrs.live_holder (hf.instrs.holder?_of_instrAt? hi)

theorem Consistent.defines_of_mem_args (hf : f.Consistent) {args : List ValueId}
    (hargs : f.args? b = some args) (hv : v ∈ args) : f.Defines v b 0 := by
  obtain ⟨index, kind, horigin⟩ := (hf.args.mem_args hargs).mp hv
  exact .argument horigin

theorem Consistent.defines_of_result? (hf : f.Consistent) (hi : f.instrAt? b k = some i)
    (hv : f.result? i = some v) : f.Defines v b (k + 1) :=
  .result ((hf.results i v).mp hv) hi

/-- The value is there before place `k` of a block: it is defined earlier in the block, or in
another one that dominates the block. -/
def Available (f : Body) (entry : BlockId) (v : ValueId) (b : BlockId) (k : Nat) : Prop :=
  ∃ c m, f.Defines v c m ∧ (c = b ∧ m ≤ k ∨ c ≠ b ∧ Dominates f.Arc entry c b)

/-- What a block that can be reached reads is there. -/
def Ordered (f : Body) (entry : BlockId) : Prop :=
  ∀ {b k v}, Reaches f.Arc entry b → f.Reads v b k → f.Available entry v b k

theorem Defines.available_iff (h : f.Defines v c m) (hf : f.Consistent) :
    f.Available entry v b k ↔ c = b ∧ m ≤ k ∨ c ≠ b ∧ Dominates f.Arc entry c b := by
  constructor
  · rintro ⟨c', m', h', hplace⟩
    obtain ⟨rfl, rfl⟩ := h.unique h' hf
    exact hplace
  · intro hplace
    exact ⟨c, m, h, hplace⟩

theorem Available.dominates (h : f.Available entry v b k) (hb : Reaches f.Arc entry b) :
    ∃ c m, f.Defines v c m ∧ Dominates f.Arc entry c b := by
  obtain ⟨c, m, hdef, ⟨rfl, -⟩ | ⟨-, hdom⟩⟩ := h
  · exact ⟨c, m, hdef, .refl hb⟩
  · exact ⟨c, m, hdef, hdom⟩

/-- Every value that a point of a block that can be reached reads properly dominates the point. -/
def SsaValid (f : Body) : Prop :=
  ∃ d, f.dominators = .ok d ∧ ∀ b ∈ f.layout, d.isReachable b = true →
    ∀ point ∈ f.pointsIn b, ∀ v ∈ f.operandsAt? point,
      d.valueProperlyDominates f v point = .ok true

instance (f : Body) : Decidable f.SsaValid :=
  match h : f.dominators with
  | .ok d => decidable_of_iff (∀ b ∈ f.layout, d.isReachable b = true →
      ∀ point ∈ f.pointsIn b, ∀ v ∈ f.operandsAt? point,
        d.valueProperlyDominates f v point = .ok true)
      ⟨fun hall => ⟨d, h, hall⟩, fun ⟨_, hd, hall⟩ => Except.ok.inj (h.symm.trans hd) ▸ hall⟩
  | .error _ => isFalse fun ⟨_, hd, _⟩ => nomatch h.symm.trans hd

theorem owner_of_dominators {d : Dominators} (h : f.dominators = .ok d) : d.owner = f.id := by
  rw [dominators] at h
  obtain ⟨_, -, h⟩ := bind_eq_ok.mp h
  obtain ⟨_, -, h⟩ := bind_eq_ok.mp h
  obtain ⟨_, -, h⟩ := bind_eq_ok.mp h
  obtain ⟨_, -, h⟩ := bind_eq_ok.mp h
  cases h
  rfl

/-- The tree decides whether a value is there where it is read. -/
theorem Consistent.valueProperlyDominates_iff (hf : f.Consistent) {d : Dominators}
    (hd : d.Represents f.Arc entry) (howner : d.owner = f.id) (hpoint : f.Stands point b k)
    (hreach : Reaches f.Arc entry b) :
    d.valueProperlyDominates f v point = .ok true ↔ f.Available entry v b k := by
  have hrequire : d.requireOwner f = .ok () := if_pos howner
  have hposition := hf.instrs.pointPosition_eq_ok.mpr hpoint
  rcases hvalue : f.value? v with _ | value
  · constructor
    · intro hdom
      rw [Dominators.valueProperlyDominates] at hdom
      obtain ⟨value, hsome, -⟩ := bind_eq_ok.mp hdom
      cases hvalue.symm.trans (value_eq_ok.mp hsome)
    · rintro ⟨c, m, hdef, -⟩
      have hlive := hdef.isLiveValue
      rw [Body.isLiveValue, hvalue] at hlive
      cases hlive
  have horigin : f.origin? v = some value.origin := origin?_eq_some.mpr ⟨value, hvalue, rfl⟩
  rw [Dominators.valueProperlyDominates, value_eq_ok.mpr hvalue, ok_bind]
  rcases hcase : value.origin with i | ⟨c, index, kind⟩
  · rw [hcase] at horigin
    obtain ⟨data, hdata, -⟩ := result?_eq_some.mp ((hf.results i v).mpr horigin)
    obtain ⟨m, hm⟩ := hf.instrs.exists_instrAt? (holder?_eq_some.mpr ⟨data, hdata, rfl⟩)
    have hstands : f.Stands (.instr i) data.block m := .instr hm
    rw [(Defines.result horigin hm).available_iff hf]
    simp only [Dominators.pointProperlyDominates]
    split
    · -- An instruction does not read its own result.
      rename_i hself
      subst hself
      obtain ⟨rfl, rfl⟩ := hf.instrs.stands_unique hstands hpoint
      simp
    · rename_i hother
      simp only [Dominators.pointDominates, hrequire, ok_bind,
        hf.instrs.pointPosition_eq_ok.mpr hstands, hposition]
      rcases Classical.em (data.block = b) with hb | hb
      · have hne : m ≠ k := by
          rintro rfl
          exact hother (hstands.unique (hb ▸ hpoint))
        simp only [hb, ↓reduceIte, pure_eq_ok, decide_eq_true_eq, true_and, ne_eq,
          not_true_eq_false, false_and, or_false]
        omega
      · simp [hb, pure_eq_ok, Dominators.properlyDominates, hd.dominates_iff_of_reaches hreach]
  · rw [hcase] at horigin
    rw [(Defines.argument horigin).available_iff hf]
    simp only [Dominators.valueDominates, value_eq_ok.mpr hvalue, ok_bind, hcase, hrequire,
      hposition]
    rw [pure_eq_ok, hd.dominates_iff]
    rcases Classical.em (c = b) with hb | hb <;> simp [hb]

/-- A body is in SSA form if what is read is there. -/
theorem Consistent.ssaValid_iff (hf : f.Consistent) (hentry : f.entry = .ok entry) :
    f.SsaValid ↔ f.Ordered entry := by
  obtain ⟨d, hd, hrep⟩ := hf.exists_dominators hentry
  have howner := owner_of_dominators hd
  constructor
  · rintro ⟨d', hd', hvalid⟩ b k v hreach ⟨point, hpoint, hv⟩
    cases hd.symm.trans hd'
    have hlive := hf.isLiveBlock_of_reaches hentry hreach
    rw [← hf.valueProperlyDominates_iff hrep howner hpoint hreach]
    exact hvalid b ((hf.layout.mem_iff b).mpr hlive) ((hrep.isReachable_iff b).mpr hreach) point
      (hf.instrs.mem_pointsIn_iff_stands.mpr ⟨k, hpoint⟩) v hv
  · intro hordered
    refine ⟨d, hd, fun b _ hb point hpoint v hv => ?_⟩
    have hreach := (hrep.isReachable_iff b).mp hb
    obtain ⟨k, hk⟩ := hf.instrs.mem_pointsIn_iff_stands.mp hpoint
    rw [hf.valueProperlyDominates_iff hrep howner hk hreach]
    exact hordered hreach ⟨point, hk, hv⟩

end Body

end FlowGraph
