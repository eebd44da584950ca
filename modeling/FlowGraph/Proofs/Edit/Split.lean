import FlowGraph.Proofs.Edit.Interpose
import FlowGraph.Proofs.Validity

namespace FlowGraph

/-- A block on edge `e` passes on what the edge carries, or else what it takes itself. -/
inductive Terminator.Forwards (t : Terminator) (e : Nat) : List ValueId → List ValueId → Prop
  | carried {args : List ValueId} (h : t.edgeArgs? e = some (.explicit args)) : Forwards t e [] args
  | taken {args : List ValueId} {payload : Payload} (h : t.edgeArgs? e = some (.implicit payload)) :
      Forwards t e args args

namespace Body

variable {f g : Body} {b dest mid : BlockId} {e : Nat} {t : Terminator}

/-- The body `g` is `f` with a new block `mid` on edge `e` of the terminator `t` of `b`. The block takes
the arguments `taken` and branches to the old target with `args`. -/
structure Interposed (f g : Body) (b : BlockId) (t : Terminator) (e : Nat) (mid dest : BlockId)
    (taken args : List ValueId) : Prop where
  fresh : f.isLiveBlock mid = false
  source : f.terminator? b = some t
  leads : t.successors[e]? = some dest
  entry : ∀ {c}, g.entry = .ok c ↔ f.entry = .ok c
  terminators : ∀ c, g.terminator? c = if c = mid then some (.br dest args)
    else if c = b then some ((t.withEdgeArgs e []).retarget e mid) else f.terminator? c
  instrs : ∀ i, g.instr? i = f.instr? i
  lists : ∀ c, g.instrs? c = if c = mid then some [] else f.instrs? c
  takes : ∀ c, g.args? c = if c = mid then some taken else f.args? c
  values : ∀ {v value}, f.value? v = some value → g.value? v = some value
  forwards : t.Forwards e taken args
  passed : ∀ v ∈ args, g.isLiveValue v = true

/-- The body `g` is `f` with the block `mid` put on edge `e` of `b`, which led to `dest`. -/
structure IsSplit (f g : Body) (b : BlockId) (e : Nat) (mid dest : BlockId) : Prop where
  consistent : g.Consistent
  valid : g.Valid
  entry : ∀ {c}, g.entry = .ok c ↔ f.entry = .ok c
  fresh : f.isLiveBlock mid = false
  target : ∀ x, g.target? x =
    if x = ⟨b, e⟩ then some mid else if x = ⟨mid, 0⟩ then some dest else f.target? x
  live : ∀ c, g.isLiveBlock c = true ↔ c = mid ∨ f.isLiveBlock c = true
  size_blocks : g.blocks.size = f.blocks.size + 1
  size_values : g.values.size ≤ f.values.size + 1
  interposed : ∃ t taken args, f.Interposed g b t e mid dest taken args

/-- The body `g` is `f` with a block on one of its edges. -/
def SplitOnce (f g : Body) : Prop := ∃ b e mid dest, f.IsSplit g b e mid dest

namespace Interposed

variable {taken args : List ValueId} (h : f.Interposed g b t e mid dest taken args)
include h

theorem ne_mid {c : BlockId} (hc : f.isLiveBlock c = true) : c ≠ mid := by
  rintro rfl
  rw [h.fresh] at hc
  cases hc

theorem terminator?_mid : f.terminator? mid = none := by
  rcases hmid : f.terminator? mid with _ | u
  · rfl
  · obtain ⟨data, hdata, -⟩ := terminator?_eq_some.mp hmid
    exact absurd rfl (h.ne_mid (isLiveBlock_of hdata))

theorem target? (x : Edge) :
    g.target? x =
      if x = ⟨b, e⟩ then some mid else if x = ⟨mid, 0⟩ then some dest else f.target? x := by
  have hb : b ≠ mid := by
    rintro rfl
    cases h.terminator?_mid.symm.trans h.source
  have hlt := (List.getElem?_eq_some_iff.mp h.leads).1
  obtain ⟨c, k⟩ := x
  rw [Body.target?, h.terminators, Body.target?]
  simp only [Edge.mk.injEq]
  rcases Classical.em (c = mid) with rfl | hc
  · rw [if_pos rfl, if_neg fun heq => hb heq.1.symm, h.terminator?_mid]
    rcases k with _ | k <;> simp [Terminator.successors]
  · rw [if_neg hc]
    rcases Classical.em (c = b) with rfl | hcb
    · simp only [if_true, Option.bind_some, Terminator.successors_retarget,
        Terminator.successors_withEdgeArgs, List.getElem?_set, h.source, true_and, hc, false_and,
        if_false]
      rcases Classical.em (k = e) with rfl | hk
      · simp [hlt]
      · simp [hk, Ne.symm hk]
    · simp [hc, hcb]

theorem args?_target (hf : f.Consistent) {c s : BlockId} {u : Terminator} {k : Nat}
    (hu : f.terminator? c = some u) (hs : u.successors[k]? = some s) : g.args? s = f.args? s := by
  have hcs : f.target? ⟨c, k⟩ = some s := target?_eq_some.mpr ⟨u, hu, hs⟩
  rw [h.takes, if_neg (h.ne_mid (hf.edges.live_target hcs))]

theorem delivers (hv : f.Valid) (hf : f.Consistent) {given : EdgeArgs}
    (hgiven : (t.withEdgeArgs e []).edgeArgs? e = some given)
    (hfits : given.fits taken.length = true)
    (hpass : ∃ wanted, f.args? dest = some wanted ∧ args.length = wanted.length)
    {c s : BlockId} {u : Terminator} {k : Nat} (hu : g.terminator? c = some u)
    (hs : u.successors[k]? = some s) : g.Delivers u k s := by
  rw [h.terminators] at hu
  split at hu
  · cases hu
    obtain ⟨rfl, rfl⟩ : k = 0 ∧ s = dest := by
      rcases k with _ | k
      · exact ⟨rfl, (Option.some.inj hs).symm⟩
      · cases hs
    obtain ⟨wanted, hwanted, hlength⟩ := hpass
    refine ⟨.explicit args, wanted, rfl, ?_, by simp [EdgeArgs.fits, hlength]⟩
    rw [h.args?_target hf h.source h.leads, hwanted]
  · split at hu
    · cases hu
      rw [Terminator.successors_retarget, Terminator.successors_withEdgeArgs,
        List.getElem?_set] at hs
      rw [Delivers, Terminator.edgeArgs?_retarget]
      split at hs
      · rename_i heq
        subst heq
        split at hs
        · cases hs
          exact ⟨given, taken, hgiven, by rw [h.takes, if_pos rfl], hfits⟩
        · cases hs
      · rename_i hne
        obtain ⟨other, wanted, hother, hwanted, hfit⟩ := hv.delivers h.source hs
        refine ⟨other, wanted, ?_, (h.args?_target hf h.source hs).trans hwanted, hfit⟩
        rcases hexplicit : t.explicitArgs? e with _ | values
        · rw [Terminator.withEdgeArgs_of_none hexplicit, hother]
        · rw [Terminator.edgeArgs?_withEdgeArgs hexplicit, if_neg (Ne.symm hne), hother]
    · obtain ⟨other, wanted, hother, hwanted, hfit⟩ := hv.delivers hu hs
      exact ⟨other, wanted, hother, (h.args?_target hf hu hs).trans hwanted, hfit⟩

theorem live_operands (hv : f.Valid) {point : Point} {v : ValueId}
    (hmem : v ∈ g.operandsAt? point) : g.isLiveValue v = true := by
  have hkept : ∀ {v}, f.isLiveValue v = true → g.isLiveValue v = true := by
    intro v hlive
    obtain ⟨value, hvalue⟩ := Option.isSome_iff_exists.mp hlive
    exact Option.isSome_iff_exists.mpr ⟨value, h.values hvalue⟩
  cases point with
  | instr i =>
      rw [operandsAt?, h.instrs] at hmem
      exact hkept (@hv.live_operands (.instr i) v hmem)
  | terminator c =>
      rw [operandsAt?_terminator, h.terminators] at hmem
      split at hmem
      · exact h.passed v hmem
      · split at hmem
        · have hmem : v ∈ ((t.withEdgeArgs e []).retarget e mid).operands := hmem
          rw [Terminator.operands_retarget] at hmem
          rcases Terminator.mem_operands_withEdgeArgs hmem with hmem | hmem
          · refine hkept (@hv.live_operands (.terminator b) v ?_)
            rw [operandsAt?_terminator, h.source]
            exact hmem
          · cases hmem
        · exact hkept (@hv.live_operands (.terminator c) v hmem)

theorem valid (hv : f.Valid) (hf : f.Consistent) {given : EdgeArgs}
    (hgiven : (t.withEdgeArgs e []).edgeArgs? e = some given)
    (hfits : given.fits taken.length = true)
    (hpass : ∃ wanted, f.args? dest = some wanted ∧ args.length = wanted.length) : g.Valid := by
  refine ⟨?_, ?_, h.delivers hv hf hgiven hfits hpass, h.live_operands hv, ?_⟩
  · obtain ⟨first, rest, hlayout⟩ := List.exists_cons_of_ne_nil hv.nonempty
    obtain ⟨rest', hlayout'⟩ := entry_eq_ok.mp (h.entry.mpr (entry_eq_ok.mpr ⟨rest, hlayout⟩))
    rw [hlayout']
    exact List.cons_ne_nil _ _
  · intro c hc
    rw [← isSome_args?, h.takes] at hc
    rw [h.terminators]
    split
    · exact ⟨_, rfl⟩
    · rename_i hne
      rw [if_neg hne, isSome_args?] at hc
      split
      · exact ⟨_, rfl⟩
      · exact hv.terminated hc
  · intro c x hc hx
    rw [h.entry] at hc
    rw [h.target?] at hx
    have hb : f.target? ⟨b, e⟩ = some dest := target?_eq_some.mpr ⟨t, h.source, h.leads⟩
    split at hx
    · cases hx
      obtain ⟨rest, hlayout⟩ := entry_eq_ok.mp hc
      exact h.ne_mid ((hf.layout.mem_iff mid).mp (hlayout ▸ List.mem_cons_self)) rfl
    · split at hx
      · cases hx
        exact hv.entry_free hc hb
      · exact hv.entry_free hc hx

end Interposed

theorem length_le_one_of_accepts {payload : Payload} {count : Nat}
    (h : payload.accepts count = true) : count ≤ 1 := by
  cases payload <;> simp [Payload.accepts] at h <;> omega

section Split

variable {x : Edge} {phi : Edge → Nat → ValueId}

theorem forwards_of_edgeArgs? (ht : f.terminator? x.block = some t) {given : EdgeArgs}
    (hgiven : t.edgeArgs? x.index = some given) :
    t.Forwards x.index (f.phisOn phi x) (f.carried x ++ f.phisOn phi x) := by
  have hx : f.edgeArgs? x = some given := edgeArgs?_eq_some.mpr ⟨t, ht, hgiven⟩
  rw [phisOn, carried, copied, hx]
  rcases given with args | payload
  · simpa using .carried hgiven
  · exact .taken hgiven

theorem SplitOn.interposed (hs : f.SplitOn g [x] (fun _ => mid) phi) (hf : f.Consistent)
    (hv : f.Valid) (ht : f.terminator? x.block = some t)
    (hdest : t.successors[x.index]? = some dest) :
    f.Interposed g x.block t x.index mid dest (f.phisOn phi x)
      (f.carried x ++ f.phisOn phi x) := by
  have hx : x ∈ [x] := List.mem_singleton_self x
  have htarget : f.target? x = some dest := target?_eq_some.mpr ⟨t, ht, hdest⟩
  obtain ⟨given, wanted, hgiven, -, -⟩ := hv.delivers ht hdest
  have hfresh : f.isLiveBlock mid = false := by
    rw [Bool.eq_false_iff]
    exact fun hlive => hs.ne_mid (lt_size_of_isLiveBlock hlive) hx rfl
  refine ⟨hfresh, ht, hdest, hs.entry, fun c => ?_, fun i => ?_, fun c => ?_, fun c => ?_,
    fun {v value} hv => ?_, forwards_of_edgeArgs? ht hgiven, fun v hmem => ?_⟩
  · rcases hs.block_cases c with hc | ⟨y, hy, rfl⟩ | ⟨hne, hc, hc'⟩
    · rw [if_neg (hs.ne_mid hc hx), hs.terminators c hc]
      rcases Classical.em (c = x.block) with rfl | hcb
      · rw [if_pos rfl, ht, reroute_eq_mapEdges]
        rfl
      · rw [if_neg hcb]
        rcases f.terminator? c with _ | u
        · rfl
        · rw [Option.map_some, mapEdges_via_of_notMem u]
          intro k hk
          exact hcb (congrArg Edge.block (List.mem_singleton.mp hk))
    · rw [if_pos rfl, hs.leads x hx, htarget]
      rfl
    · have hcb : c ≠ x.block := by
        rintro rfl
        rw [terminator?, hc] at ht
        cases ht
      rw [if_neg (hne x hx), if_neg hcb, terminator?, hc', terminator?, hc]
  · rw [instr?, hs.instrs, instr?]
  · rcases hs.block_cases c with hc | ⟨y, hy, rfl⟩ | ⟨hne, hc, hc'⟩
    · rw [if_neg (hs.ne_mid hc hx), hs.lists c hc]
    · rw [if_pos rfl, hs.empty x hx]
    · rw [if_neg (hne x hx), instrs?, hc', instrs?, hc]
  · rcases hs.block_cases c with hc | ⟨y, hy, rfl⟩ | ⟨hne, hc, hc'⟩
    · rw [if_neg (hs.ne_mid hc hx), hs.args c hc]
    · rw [if_pos rfl, hs.takes x hx]
    · rw [if_neg (hne x hx), args?, hc', args?, hc]
  · rw [hs.values v (Arena.lt_size_of_get? hv), hv]
  · rcases List.mem_append.mp hmem with hmem | hmem
    · have hlive := hv.live_operands (mem_operandsAt?_of_mem_carried hmem)
      rwa [isLiveValue, hs.values v (lt_size_of_isLiveValue hlive)]
    · exact hs.isLiveValue_of_mem_phisOn hf hx hmem

theorem Valid.length_copied_le (hv : f.Valid) (htarget : f.target? x = some dest) :
    (f.copied x).length ≤ 1 := by
  obtain ⟨t, ht, hdest⟩ := target?_eq_some.mp htarget
  obtain ⟨given, wanted, hgiven, hwanted, hfits⟩ := hv.delivers ht hdest
  rw [copied, edgeArgs?_eq_some.mpr ⟨t, ht, hgiven⟩]
  rcases given with args | payload
  · exact Nat.zero_le 1
  · simp only [htarget, Option.bind_some, hwanted, Option.getD_some]
    exact length_le_one_of_accepts hfits

/-- A block on an edge of a valid body leaves a valid body. -/
theorem SplitOn.isSplit (hs : f.SplitOn g [x] (fun _ => mid) phi) (hf : f.Consistent)
    (hv : f.Valid) (htarget : f.target? x = some dest) : f.IsSplit g x.block x.index mid dest := by
  obtain ⟨t, ht, hdest⟩ := target?_eq_some.mp htarget
  obtain ⟨given, wanted, hgiven, hwanted, hfits⟩ := hv.delivers ht hdest
  have hx : f.edgeArgs? x = some given := edgeArgs?_eq_some.mpr ⟨t, ht, hgiven⟩
  have hmid := hs.interposed hf hv ht hdest
  have hkept : (t.withEdgeArgs x.index []).edgeArgs? x.index = some (given.mapArgs fun _ => []) := by
    rw [Terminator.withEdgeArgs_eq_mapEdges, Terminator.edgeArgs?_mapEdges, hgiven]
    simp
  have hpass : (given.mapArgs fun _ => []).fits (f.phisOn phi x).length = true ∧
      (f.carried x ++ f.phisOn phi x).length = wanted.length := by
    rw [phisOn, carried, copied, hx]
    rcases given with args | payload
    · simpa [EdgeArgs.mapArgs, EdgeArgs.fits] using hfits
    · simp only [htarget, Option.bind_some, hwanted, Option.getD_some, List.nil_append,
        List.length_map, List.length_range]
      exact ⟨hfits, trivial⟩
  refine ⟨hs.consistent, ?_, hs.entry, hmid.fresh, hmid.target?, fun c => ?_, hs.size_blocks, ?_, t,
    _, _, hmid⟩
  · exact hmid.valid hv hf hkept hpass.1 ⟨wanted, hwanted, hpass.2⟩
  · rw [← isSome_args?, hmid.takes, ← isSome_args?]
    split <;> simp [*]
  · rw [hs.size_values]
    simpa using hv.length_copied_le htarget

theorem Valid.splitEdge_cases (hv : f.Valid) (hf : f.Consistent)
    (htarget : f.target? x = some dest) :
    (∃ g, f.splitEdge x.block x.index = .ok (f.nextBlock, g) ∧
        f.IsSplit g x.block x.index f.nextBlock dest) ∨
      ∃ space, f.splitEdge x.block x.index = .error (.idOverflow space) ∧
        (slotLimit ≤ f.blocks.size ∨ slotLimit ≤ f.values.size) := by
  rcases hf.splitEdge_cases htarget with ⟨g, hrun, hs, -⟩ | ⟨space, hrun, hroom⟩
  · exact .inl ⟨g, hrun, hs.isSplit hf hv htarget⟩
  · refine .inr ⟨space, hrun, ?_⟩
    have hcopied := hv.length_copied_le htarget
    simp only [HasRoomFor, List.length_singleton, List.map_cons, List.map_nil, List.sum_singleton]
      at hroom
    omega

end Split

end Body

end FlowGraph
