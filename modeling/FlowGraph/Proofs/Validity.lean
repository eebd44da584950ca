import FlowGraph.Proofs.Verification

namespace FlowGraph.Body

variable {f : Body} {b : BlockId}

/-- What verification asks of a consistent body. -/
structure Valid (f : Body) : Prop where
  nonempty : f.layout ≠ []
  terminated : ∀ {b}, f.isLiveBlock b = true → ∃ t, f.terminator? b = some t
  delivers : ∀ {b t e s}, f.terminator? b = some t → t.successors[e]? = some s → f.Delivers t e s
  live_operands : ∀ {point v}, v ∈ f.operandsAt? point → f.isLiveValue v = true
  entry_free : ∀ {b e}, f.entry = .ok b → f.target? e ≠ some b

theorem Consistent.origin_of_mem_definedIn (h : f.Consistent) {v : ValueId}
    (hv : v ∈ f.definedIn b) :
    (∃ index kind, f.origin? v = some (.argument b index kind)) ∨
      ∃ i, f.origin? v = some (.result i) ∧ f.holder? i = some b := by
  rcases mem_definedIn.mp hv with ⟨args, hargs, hmem⟩ | ⟨instrs, hinstrs, i, hi, hresult⟩
  · exact .inl ((h.args.mem_args hargs).mp hmem)
  · exact .inr ⟨i, (h.results i v).mp hresult, (h.instrs.mem_instrs hinstrs).mp hi⟩

theorem Consistent.nodup_definedIn (h : f.Consistent) (b : BlockId) : (f.definedIn b).Nodup := by
  unfold definedIn
  rcases hb : f.block? b with _ | data
  · exact List.nodup_nil
  · refine List.Nodup.append (h.args.nodup_args (args?_of hb)) ?_ ?_
    · refine List.Nodup.filterMap ?_ (h.instrs.nodup_instrs (instrs?_of hb))
      intro i j v hi hj
      have := ((h.results i v).mp hi).symm.trans ((h.results j v).mp hj)
      simpa using this
    · intro v hargs hresult
      obtain ⟨index, kind, horigin⟩ := (h.args.mem_args (args?_of hb)).mp hargs
      obtain ⟨i, -, hi⟩ := List.mem_filterMap.mp hresult
      have := horigin.symm.trans ((h.results i v).mp hi)
      simp at this

theorem Consistent.nodup_defined (h : f.Consistent) : (f.layout.flatMap f.definedIn).Nodup := by
  refine List.nodup_flatMap.mpr ⟨fun b _ => h.nodup_definedIn b, ?_⟩
  refine h.layout.nodup.imp ?_
  intro b c hne v hb hc
  apply hne
  rcases h.origin_of_mem_definedIn hb with ⟨index, kind, horigin⟩ | ⟨i, horigin, hholder⟩
  · rcases h.origin_of_mem_definedIn hc with ⟨index', kind', horigin'⟩ | ⟨j, horigin', -⟩
    · rw [horigin] at horigin'
      simp only [Option.some.injEq, Origin.argument.injEq] at horigin'
      exact horigin'.1
    · rw [horigin] at horigin'
      simp at horigin'
  · rcases h.origin_of_mem_definedIn hc with ⟨index', kind', horigin'⟩ | ⟨j, horigin', hholder'⟩
    · rw [horigin] at horigin'
      simp at horigin'
    · rw [horigin] at horigin'
      simp only [Option.some.injEq, Origin.result.injEq] at horigin'
      subst horigin'
      exact Option.some.inj (hholder.symm.trans hholder')

theorem Consistent.exists_mem_pointsIn (h : f.Consistent) {point : Point} {v : ValueId}
    (hv : v ∈ f.operandsAt? point) : ∃ b ∈ f.layout, point ∈ f.pointsIn b := by
  rcases hplace : f.place? point with _ | b
  · simp [operandsAt?_of_place?_eq_none hplace] at hv
  · exact ⟨b, (h.layout.mem_iff b).mpr (h.instrs.live_place hplace),
      h.instrs.mem_pointsIn.mpr hplace⟩

theorem Consistent.valid_of_wellFormed (h : f.Consistent) (hf : f.WellFormed) : f.Valid where
  nonempty := hf.nonempty
  terminated := fun {b} hb => (hf.blocks b ((h.layout.mem_iff b).mpr hb)).terminated
  delivers := by
    intro b t e s ht hs
    obtain ⟨data, hb, -⟩ := terminator?_eq_some.mp ht
    have hblock := hf.blocks b ((h.layout.mem_iff b).mpr (isLiveBlock_of hb))
    exact (delivers_iff ht).mpr (hblock.edges e s (target?_eq_some.mpr ⟨t, ht, hs⟩))
  live_operands := by
    intro point v hv
    obtain ⟨b, hb, hpoint⟩ := h.exists_mem_pointsIn hv
    exact (hf.blocks b hb).operands point hpoint v hv
  entry_free := by
    intro b e hentry he
    have hmem := (h.edges.mem_preds (hf.entry_free b hentry)).mpr he
    cases hmem

theorem Consistent.blockWellFormed (h : f.Consistent) (hv : f.Valid)
    (hb : f.isLiveBlock b = true) : f.BlockWellFormed b where
  terminated := hv.terminated hb
  edges := by
    intro e s hs
    obtain ⟨t, ht, hsucc⟩ := target?_eq_some.mp hs
    exact (delivers_iff ht).mp (hv.delivers ht hsucc)
  args _ hargs index v := (h.args.getElem?_args hargs index v).mp
  instrs _ hinstrs _ := (h.instrs.mem_instrs hinstrs).mp
  operands _ _ _ := hv.live_operands

theorem Consistent.wellFormed_of_valid (h : f.Consistent) (hv : f.Valid) : f.WellFormed where
  nonempty := hv.nonempty
  blocks b hb := h.blockWellFormed hv ((h.layout.mem_iff b).mp hb)
  entry_free := by
    intro b hentry
    obtain ⟨rest, hlayout⟩ := entry_eq_ok.mp hentry
    obtain ⟨data, hdata⟩ := isLiveBlock_iff.mp
      ((h.layout.mem_iff b).mp (hlayout ▸ List.mem_cons_self))
    rw [preds?_of hdata, Option.some.injEq, List.eq_nil_iff_forall_not_mem]
    intro e he
    exact hv.entry_free hentry ((h.edges.mem_preds (preds?_of hdata)).mp he)
  preds := by
    intro b hb
    obtain ⟨data, hdata⟩ := isLiveBlock_iff.mp ((h.layout.mem_iff b).mp hb)
    exact ⟨data.preds, preds?_of hdata,
      (h.edges.perm_preds h.layout hdata).trans (perm_partners_edgeTargets f b)⟩
  users _ _ v _ := partners_operandReads f v ▸ h.uses.perm_users h.layout h.instrs v

/-- A consistent body passes verification exactly if it is valid. -/
theorem Consistent.verify_iff (h : f.Consistent) :
    f.verify.run = .ok (.ok ()) ↔ f.Valid := by
  rw [Body.verify_iff, and_iff_left (repeatsIdle_of_nodup h.layout.nodup h.nodup_defined)]
  exact ⟨h.valid_of_wellFormed, h.wellFormed_of_valid⟩

end FlowGraph.Body
