import FlowGraph.Proofs.Rework

namespace FlowGraph

/-- The origin of an argument that has moved within its block. -/
def Origin.moveTo (position : Nat) : Origin → Origin
  | .argument b _ kind => .argument b position kind
  | .result i => .result i

theorem Origin.moveTo_moveTo (origin : Origin) (position position' : Nat) :
    (origin.moveTo position).moveTo position' = origin.moveTo position' := by
  cases origin <;> rfl

namespace Body

variable {f g h : Body} {b c : BlockId} {data : Block} {index : Nat} {i : InstrId} {v : ValueId}

theorem exists_closeGap_eq (b : BlockId) (index : Nat) (origin : Origin) :
    ∃ position, closeGap b index origin = origin.moveTo position := by
  rcases origin with i | ⟨c, position, kind⟩
  · exact ⟨0, rfl⟩
  · rw [closeGap]
    split
    · exact ⟨position - 1, rfl⟩
    · exact ⟨position, rfl⟩

/-- The body `g` is `f` without some of its arguments and instructions, and without some operands of
edges. Instructions with side effects and the inputs are all there. -/
structure Trimmed (f g : Body) : Prop where
  id : g.id = f.id
  name : g.name = f.name
  layout : g.layout = f.layout
  block : ∀ c, ∃ load : Nat → List ValueId → List ValueId,
    (∀ e args, (load e args).Sublist args) ∧
    g.block? c = (f.block? c).map fun data =>
      { data with
        args := data.args.filter g.isLiveValue
        instrs := data.instrs.filter g.isLiveInstr
        terminator := data.terminator.map (·.mapEdges (fun _ dest => dest) load) }
  instr : ∀ {i instr}, g.instr? i = some instr → f.instr? i = some instr
  effect : ∀ {i instr}, f.instr? i = some instr → instr.op.hasSideEffects = true →
    g.instr? i = some instr
  value : ∀ {w value}, g.value? w = some value →
    ∃ old position, f.value? w = some old ∧
      value = { old with origin := old.origin.moveTo position }
  input : ∀ {w b index convention}, f.origin? w = some (.argument b index (.function convention)) →
    ∃ position, g.origin? w = some (.argument b position (.function convention))

namespace Trimmed

theorem isLiveValue (ht : f.Trimmed g) {w : ValueId} (hw : g.isLiveValue w = true) :
    f.isLiveValue w = true := by
  obtain ⟨value, hvalue⟩ := isLiveValue_iff.mp hw
  obtain ⟨old, -, hold, -⟩ := ht.value hvalue
  exact isLiveValue_iff.mpr ⟨old, hold⟩

theorem isLiveInstr (ht : f.Trimmed g) (hi : g.isLiveInstr i = true) : f.isLiveInstr i = true := by
  obtain ⟨instr, hinstr⟩ := Option.isSome_iff_exists.mp hi
  exact Option.isSome_iff_exists.mpr ⟨instr, ht.instr hinstr⟩

theorem trans (hfg : f.Trimmed g) (hgh : g.Trimmed h) : f.Trimmed h where
  id := hgh.id.trans hfg.id
  name := hgh.name.trans hfg.name
  layout := hgh.layout.trans hfg.layout
  block c := by
    obtain ⟨load, hload, hg⟩ := hfg.block c
    obtain ⟨load', hload', hh⟩ := hgh.block c
    refine ⟨fun e args => load' e (load e args),
      fun e args => (hload' e (load e args)).trans (hload e args), ?_⟩
    rw [hh, hg, Option.map_map]
    refine Option.map_congr fun data _ => ?_
    simp only [Function.comp_apply, List.filter_filter, Option.map_map]
    congr 1
    · refine List.filter_congr fun w _ => ?_
      rcases hw : h.isLiveValue w with _ | _
      · rfl
      · rw [hgh.isLiveValue hw, Bool.and_self]
    · refine List.filter_congr fun j _ => ?_
      rcases hj : h.isLiveInstr j with _ | _
      · rfl
      · rw [hgh.isLiveInstr hj, Bool.and_self]
    · refine Option.map_congr fun t _ => ?_
      exact t.mapEdges_mapEdges (fun _ dest => dest) (fun _ dest => dest) load load'
  instr hi := hfg.instr (hgh.instr hi)
  effect hi heffect := hgh.effect (hfg.effect hi heffect) heffect
  value := by
    intro w value hvalue
    obtain ⟨middle, position, hmiddle, rfl⟩ := hgh.value hvalue
    obtain ⟨old, position', hold, rfl⟩ := hfg.value hmiddle
    refine ⟨old, position, hold, ?_⟩
    rw [Origin.moveTo_moveTo]
  input := by
    intro w b index convention hw
    obtain ⟨position, hw⟩ := hfg.input hw
    exact hgh.input hw

end Trimmed

theorem filter_isLive_eq {α : Type} [DecidableEq α] {live live' : α → Bool} {gone : α} {l : List α}
    (hlive : ∀ a ∈ l, live a = true) (hleft : ∀ a, live' a = if a = gone then false else live a) :
    l.filter live' = l.filter (· ≠ gone) := by
  refine List.filter_congr fun a ha => ?_
  rw [hleft, hlive a ha]
  split <;> simp [*]

theorem PhiErased.filter_args (he : f.PhiErased g b index v) (hf : f.Consistent)
    (hphi : f.origin? v = some (.argument b index .phi)) (hc : f.block? c = some data) :
    data.args.filter g.isLiveValue = if c = b then data.args.eraseIdx index else data.args := by
  have hleft : ∀ w, g.isLiveValue w = if w = v then false else f.isLiveValue w := by
    intro w
    rw [Body.isLiveValue, he.value]
    split
    · rfl
    · rw [Option.isSome_map, Body.isLiveValue]
  rw [filter_isLive_eq (fun w hw => hf.isLiveValue_of_mem_args hc hw) hleft]
  split
  · rename_i hcb
    subst hcb
    have hget := (hf.args.getElem?_args (args?_of hc) index v).mpr ⟨_, hphi⟩
    exact (eraseIdx_eq_filter (hf.args.nodup_args (args?_of hc)) hget).symm
  · rename_i hcb
    refine List.filter_eq_self.mpr fun w hw => decide_eq_true ?_
    rintro rfl
    obtain ⟨position, kind, hw⟩ := (hf.args.mem_args (args?_of hc)).mp hw
    cases hphi.symm.trans hw
    exact hcb rfl

theorem PhiErased.trimmed (he : f.PhiErased g b index v) (hf : f.Consistent)
    (hphi : f.origin? v = some (.argument b index .phi)) : f.Trimmed g where
  id := he.id
  name := he.name
  layout := he.layout
  block c := by
    refine ⟨fun e args => if f.target? ⟨c, e⟩ = some b then args.eraseIdx index else args,
      fun e args => ?_, ?_⟩
    · simp only
      split
      · exact List.eraseIdx_sublist args index
      · exact List.Sublist.refl args
    rw [he.block]
    refine Option.map_congr fun data hc => ?_
    congr 1
    · exact (he.filter_args hf hphi hc).symm
    · refine (List.filter_eq_self.mpr fun j hj => ?_).symm
      rw [isLiveInstr, instr?, he.instrs]
      exact hf.instrs.isLiveInstr (instrs?_of hc) hj
    · refine Option.map_congr fun t ht => Terminator.dropOperand_congr fun e => ?_
      rw [target?_of hc, Block.successors, ht]
  instr hi := by
    rwa [instr?, he.instrs] at hi
  effect hi _ := by
    rwa [instr?, he.instrs]
  value := by
    intro w value hvalue
    rw [he.value] at hvalue
    split at hvalue
    · cases hvalue
    · obtain ⟨old, hold, rfl⟩ := Option.map_eq_some_iff.mp hvalue
      obtain ⟨position, hposition⟩ := exists_closeGap_eq b index old.origin
      exact ⟨old, position, hold, by rw [hposition]⟩
  input := by
    intro w c position convention hw
    refine he.exists_argument ?_ hw
    rintro rfl
    cases hphi.symm.trans hw

theorem InstrErased.trimmed (he : f.InstrErased g i v) (hf : f.Consistent) {op : Operation}
    (hop : f.operation? i = some op) (hpure : op.hasSideEffects = false)
    (hresult : f.result? i = some v) : f.Trimmed g where
  id := he.id
  name := he.name
  layout := he.layout
  block c := by
    refine ⟨fun _ args => args, fun _ args => List.Sublist.refl args, ?_⟩
    rw [he.block]
    refine Option.map_congr fun data hc => ?_
    congr 1
    · refine (List.filter_eq_self.mpr fun w hw => ?_).symm
      have hne : w ≠ v := by
        rintro rfl
        obtain ⟨position, kind, hw⟩ := (hf.args.mem_args (args?_of hc)).mp hw
        cases ((hf.results i w).mp hresult).symm.trans hw
      rw [isLiveValue, he.value, if_neg hne]
      exact hf.isLiveValue_of_mem_args hc hw
    · refine (filter_isLive_eq (fun j hj => hf.instrs.isLiveInstr (instrs?_of hc) hj) ?_).symm
      intro j
      rw [isLiveInstr, he.instr]
      split <;> rfl
    · exact (Option.map_congr fun t _ => (Terminator.mapEdges_id t)).trans Option.map_id' |>.symm
  instr hi := by
    rw [he.instr] at hi
    split at hi
    · cases hi
    · exact hi
  effect := by
    intro j instr hj heffect
    -- The erased instruction had no effect.
    have hji : j ≠ i := by
      rintro rfl
      rw [operation?, hj, Option.map_some, Option.some.injEq] at hop
      rw [hop, hpure] at heffect
      cases heffect
    rw [he.instr, if_neg hji]
    exact hj
  value := by
    intro w value hvalue
    rw [he.value] at hvalue
    split at hvalue
    · cases hvalue
    · rcases value with ⟨type, ownership, j | ⟨c, position, kind⟩⟩
      · exact ⟨_, 0, hvalue, rfl⟩
      · exact ⟨_, position, hvalue, rfl⟩
  input := by
    intro w c position convention hw
    have hne : w ≠ v := by
      rintro rfl
      cases ((hf.results i w).mp hresult).symm.trans hw
    rw [origin?, he.value, if_neg hne]
    exact ⟨position, hw⟩

theorem Retires.trimmed (hr : f.Retires g v) (hf : f.Consistent) : f.Trimmed g := by
  cases hr with
  | instr hop hpure hresult _ hgone => exact hgone.trimmed hf hop hpure hresult
  | phi hphi _ _ hgone => exact hgone.trimmed hf hphi

theorem Trimmed.retiresAll (ht : f.Trimmed g) (hg : g.Consistent) (hr : g.RetiresAll h) :
    f.Trimmed h := by
  induction hr with
  | refl => exact ht
  | tail hsteps hstep ih =>
      obtain ⟨v, hstep⟩ := hstep
      exact ih.trans (hstep.trimmed (RetiresAll.consistent hsteps hg))

end Body

/-- A phi of a well-built body that passes verification can be erased if it only feeds itself, by explicit
edges. Without cleanup its block and the edges to it lose exactly position `index`. With cleanup, the
values that then go are unread at that moment, and are phis or come from instructions without side
effects; a value that was read before, is live and is not read any more has a reason to stay. -/
theorem WellBuilt.erasePhi_exact {f : Body} (hf : WellBuilt f) (hv : f.verify.run = .ok (.ok ()))
    {b : BlockId} {index : Nat} {v : ValueId} (hphi : f.origin? v = some (.argument b index .phi))
    (hexplicit : f.ExplicitlyFed b) (hself : f.FeedsItself b index v) :
    ∃ g h, f.erasePhi b index false = .ok g ∧ f.PhiErased g b index v ∧
      f.erasePhi b index true = .ok h ∧ g.RetiresAll h ∧ f.Trimmed h ∧
      ∀ w, ¬ f.Unread w → h.isLiveValue w = true → h.Unread w → h.Kept w := by
  have hvalid := hf.consistent.verify_iff.mp hv
  obtain ⟨g, h, hplain, hgone, hclean, hsteps, hkept⟩ :=
    hf.consistent.erasePhi_does hvalid hphi hexplicit hself
  have htrimmed := (hgone.trimmed hf.consistent hphi).retiresAll hgone.consistent hsteps
  exact ⟨g, h, hplain, hgone, hclean, hsteps, htrimmed, hkept⟩

theorem carryingLoop_explicitlyFed : carryingLoop.ExplicitlyFed ⟨1⟩ := by
  intro x hx
  have hf : carryingLoop.Consistent := (wellBuilt_replayed _).consistent
  have hpreds : carryingLoop.preds? ⟨1⟩ = some [⟨⟨0⟩, 0⟩, ⟨⟨1⟩, 0⟩] := by cbv
  rcases List.mem_cons.mp ((hf.edges.mem_preds hpreds).mpr hx) with rfl | hx
  · exact ⟨[⟨3⟩, ⟨0⟩], by cbv⟩
  · rw [List.mem_singleton.mp hx]
    exact ⟨[⟨1⟩, ⟨2⟩], by cbv⟩

theorem carryingLoop_erasePhi_exact :
    ∃ g h, carryingLoop.erasePhi ⟨1⟩ 0 false = .ok g ∧ carryingLoop.PhiErased g ⟨1⟩ 0 ⟨1⟩ ∧
      carryingLoop.erasePhi ⟨1⟩ 0 true = .ok h ∧ g.RetiresAll h ∧ carryingLoop.Trimmed h ∧
      (∀ w, ¬ carryingLoop.Unread w → h.isLiveValue w = true → h.Unread w → h.Kept w) ∧
      g.isLiveValue ⟨3⟩ = true ∧ h.isLiveValue ⟨3⟩ = false := by
  have hf : WellBuilt carryingLoop := wellBuilt_replayed _
  obtain ⟨g, h, hplain, hgone, hclean, hsteps, htrimmed, hkept⟩ := WellBuilt.erasePhi_exact
    hf (by cbv) (by cbv) carryingLoop_explicitlyFed carryingLoop_feedsItself
  -- The number that the loop starts with is read by nothing but the operand for the phi.
  have hstays : (carryingLoop.erasePhi ⟨1⟩ 0 false).toOption.map (·.isLiveValue ⟨3⟩) =
      some true := by cbv
  have hgoes : (carryingLoop.erasePhi ⟨1⟩ 0 true).toOption.map (·.isLiveValue ⟨3⟩) =
      some false := by cbv
  rw [hplain] at hstays
  rw [hclean] at hgoes
  exact ⟨g, h, hplain, hgone, hclean, hsteps, htrimmed, hkept, Option.some.inj hstays,
    Option.some.inj hgoes⟩

end FlowGraph
