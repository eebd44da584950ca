import FlowGraph.Proofs.Consistency.Cut
import FlowGraph.Proofs.Edit.Split

namespace FlowGraph.Body

variable {f : Body} {b : BlockId} {data : Block}

section Cut

variable (position : Nat) {layout : List BlockId}
variable (h : f.Consistent) (hb : f.block? b = some data)
  (hlayout : layout.Perm (f.nextBlock :: f.layout))
include h hb hlayout

theorem exists_of_mem_operandsAt?_cut {point : Point} {v : ValueId}
    (hmem : v ∈ (f.cut b position layout data).operandsAt? point) :
    ∃ source, v ∈ f.operandsAt? source := by
  cases point with
  | instr i =>
      refine ⟨.instr i, ?_⟩
      rw [operandsAt?_instr, operation?, instr?_cut] at hmem
      rw [operandsAt?_instr, operation?]
      rcases hi : f.instr? i with _ | other
      · simp [hi] at hmem
      · simpa [hi] using hmem
  | terminator c =>
      rw [operandsAt?_terminator, terminator?_cut position h hb hlayout] at hmem
      split at hmem
      · cases hmem
      · split at hmem
        · refine ⟨.terminator b, ?_⟩
          rw [operandsAt?_terminator, terminator?_of hb]
          exact hmem
        · exact ⟨.terminator c, hmem⟩

theorem delivers_cut (hv : f.Valid) {c s : BlockId} {t : Terminator} {e : Nat}
    (ht : (f.cut b position layout data).terminator? c = some t) (hs : t.successors[e]? = some s) :
    (f.cut b position layout data).Delivers t e s := by
  have hold : ∀ c, f.terminator? c = some t → (f.cut b position layout data).Delivers t e s := by
    intro c ht
    obtain ⟨given, taken, hgiven, htaken, hfits⟩ := hv.delivers ht hs
    refine ⟨given, taken, hgiven, ?_, hfits⟩
    obtain ⟨target, htarget, -⟩ := args?_eq_some.mp htaken
    rw [args?_cut position h hb hlayout, if_neg (nextBlock_ne htarget), htaken]
  rw [terminator?_cut position h hb hlayout] at ht
  split at ht
  · cases ht
    rcases e with _ | e
    · cases hs
      refine ⟨.explicit [], [], rfl, ?_, rfl⟩
      rw [args?_cut position h hb hlayout, if_pos rfl]
    · cases hs
  · split at ht
    · exact hold b ((terminator?_of hb).trans ht)
    · exact hold c ht

theorem exists_of_target?_cut {x : Edge} {s : BlockId}
    (hx : (f.cut b position layout data).target? x = some s) :
    x = ⟨b, 0⟩ ∧ s = f.nextBlock ∨ ∃ y, f.target? y = some s := by
  obtain ⟨t, ht, hs⟩ := target?_eq_some.mp hx
  rw [terminator?_cut position h hb hlayout] at ht
  split at ht
  · rename_i hxb
    cases ht
    rcases x with ⟨c, _ | e⟩
    · cases hs
      exact .inl ⟨by rw [← hxb], rfl⟩
    · cases hs
  · right
    split at ht
    · exact ⟨⟨b, x.index⟩, target?_eq_some.mpr ⟨t, (terminator?_of hb).trans ht, hs⟩⟩
    · exact ⟨x, target?_eq_some.mpr ⟨t, ht, hs⟩⟩

omit h hb hlayout in
theorem entry_cut (hhead : layout.head? = f.layout.head?) {c : BlockId} :
    (f.cut b position layout data).entry = .ok c ↔ f.entry = .ok c := by
  rw [entry_eq_ok_iff_head?, entry_eq_ok_iff_head?, cut_eq, ← hhead]

theorem valid_cut (hv : f.Valid) (hhead : layout.head? = f.layout.head?) :
    (f.cut b position layout data).Valid := by
  refine ⟨?_, ?_, delivers_cut position h hb hlayout hv, ?_, ?_⟩
  · rw [cut_eq]
    exact List.ne_nil_of_mem (hlayout.mem_iff.mpr List.mem_cons_self)
  · intro c hc
    obtain ⟨last, hlast⟩ := hv.terminated (isLiveBlock_of hb)
    rw [terminator?_of hb] at hlast
    rw [terminator?_cut position h hb hlayout]
    split
    · exact ⟨_, rfl⟩
    · split
      · exact ⟨last, hlast⟩
      · rename_i hne
        rw [← isSome_args?, args?_cut position h hb hlayout, if_neg hne, isSome_args?] at hc
        exact hv.terminated hc
  · intro point v hmem
    obtain ⟨source, hmem⟩ := exists_of_mem_operandsAt?_cut position h hb hlayout hmem
    have hlive := hv.live_operands hmem
    rw [cut_eq]
    exact hlive
  · intro c x hc hx
    have hc := (entry_cut position hhead).mp hc
    rcases exists_of_target?_cut position h hb hlayout hx with ⟨-, rfl⟩ | ⟨y, hy⟩
    · exact f.not_isLiveBlock_nextBlock (h.isLiveBlock_entry hc)
    · exact hv.entry_free hc hy

end Cut

/-- A block of a valid body can be cut before each of its instructions, and before its terminator. -/
theorem Consistent.splitBlock_cases (h : f.Consistent) (hv : f.Valid) {position : Nat}
    (hb : f.block? b = some data) (hposition : position ≤ data.instrs.length) :
    (∃ g, f.splitBlock b position = .ok (f.nextBlock, g) ∧ g.Consistent ∧ g.Valid) ∨
      f.splitBlock b position = .error (.idOverflow .block) ∧ slotLimit ≤ f.blocks.size := by
  rcases h.layout.createBlockAfter_cases (isLiveBlock_of hb) with
    ⟨layout, hcreate, hperm, hhead, -⟩ | ⟨hcreate, hfull⟩
  · left
    obtain ⟨place, hplace, hlt, -, hwith⟩ := createBlockAfter_eq_ok.mp hcreate
    obtain rfl : layout = f.layout.insertIdx (place + 1) f.nextBlock := congrArg Body.layout hwith
    have hsplit : f.splitBlock b position = .ok (f.nextBlock, _) :=
      (splitBlock_eq_ok h).mpr ⟨data, place, hb, hposition, hplace, hlt, rfl, rfl⟩
    exact ⟨_, hsplit, h.splitBlock hsplit, valid_cut position h hb hperm hv hhead⟩
  · right
    refine ⟨?_, hfull⟩
    rw [Body.splitBlock, block_eq_ok.mpr hb, ok_bind]
    simp only [if_neg (Nat.not_lt.mpr hposition), hcreate]
    rfl

end FlowGraph.Body
