import Mathlib.Logic.Relation
import FlowGraph.Proofs.Edit.Phi

/-!
Erasing what is not read any more, one value after the other. An instruction without side effects goes
with its result, a phi with its operands, and both only while nothing reads them (`Retires`); so no step
faults, and each leaves a valid body. A value that stays unread has a reason to stay (`Kept`): every
other value that loses its last reader on the way is put on the stack, and goes when its turn comes.
-/

namespace FlowGraph.Body

variable {f g h : Body} {b : BlockId} {index : Nat} {i : InstrId} {v w : ValueId}

theorem eraseIdx_eq_filter {α : Type} [DecidableEq α] {l : List α} {a : α} {n : Nat}
    (hnodup : l.Nodup) (ha : l[n]? = some a) : l.eraseIdx n = l.filter (· ≠ a) := by
  obtain ⟨hlt, rfl⟩ := List.getElem?_eq_some_iff.mp ha
  rw [← hnodup.erase_getElem n hlt, hnodup.erase_eq_filter]
  refine List.filter_congr fun b _ => ?_
  rw [Bool.eq_iff_iff, decide_eq_true_iff, bne_iff_ne]

/-- Validity is settled by the layout, the terminators, the arguments and what is read. -/
theorem Valid.congr (hv : f.Valid) (hlayout : g.layout = f.layout)
    (hterm : ∀ c, g.terminator? c = f.terminator? c) (hargs : ∀ c, g.args? c = f.args? c)
    (hreads : ∀ point w, w ∈ g.operandsAt? point → g.isLiveValue w = true) : g.Valid where
  nonempty := hlayout ▸ hv.nonempty
  terminated := by
    intro c hc
    rw [hterm]
    rw [← isSome_args?, hargs, isSome_args?] at hc
    exact hv.terminated hc
  delivers := by
    intro c t e s ht hs
    rw [hterm] at ht
    rw [Delivers, hargs]
    exact hv.delivers ht hs
  live_operands := hreads _ _
  entry_free := by
    intro c x hc
    rw [target?_congr hterm]
    rw [entry_eq_ok, hlayout, ← entry_eq_ok] at hc
    exact hv.entry_free hc

/-- The body `g` is `f` without instruction `i` and its result `v`. -/
structure InstrErased (f g : Body) (i : InstrId) (v : ValueId) : Prop where
  consistent : g.Consistent
  id : g.id = f.id
  name : g.name = f.name
  layout : g.layout = f.layout
  block : ∀ c, g.block? c = (f.block? c).map fun data =>
    { data with instrs := data.instrs.filter (· ≠ i) }
  instr : ∀ j, g.instr? j = if j = i then none else f.instr? j
  value : ∀ w, g.value? w = if w = v then none else f.value? w

theorem Consistent.exists_eraseInstr (hf : f.Consistent) (hresult : f.result? i = some v)
    (hunread : f.Unread v) : ∃ g, f.eraseInstr i = .ok g ∧ f.InstrErased g i v := by
  obtain ⟨instr, hi, hnamed⟩ := result?_eq_some.mp hresult
  obtain ⟨value, hvalue, -⟩ := origin?_eq_some.mp ((hf.results i v).mp hresult)
  have hholder : f.holder? i = some instr.block := holder?_eq_some.mpr ⟨instr, hi, rfl⟩
  have huses : (f.withoutInstr i).hasUses v = false := by
    rw [← (hf.uses.withoutInstr i).unread_iff]
    intro point hmem
    rw [operandsAt?_withoutInstr] at hmem
    split at hmem
    · cases hmem
    · exact hunread point hmem
  have herase : f.eraseInstr i = .ok _ := eraseInstr_eq_ok.mpr ⟨instr, hi, by
    rw [hnamed]
    rintro w ⟨⟩
    exact ⟨huses, Arena.lt_size_of_get? hvalue⟩, hf.instrs.live_holder hholder, rfl⟩
  refine ⟨_, herase, hf.eraseInstr herase, rfl, rfl, rfl, hf.instrs.block?_eraseInstr hholder,
    instr?_withoutInstr f i, fun w => ?_⟩
  refine (value?_withoutInstr f i w).trans ?_
  simp only [hresult, Option.some.injEq, @eq_comm _ v w]

namespace InstrErased

theorem terminators (he : f.InstrErased g i v) (c : BlockId) : g.terminator? c = f.terminator? c := by
  rw [terminator?, he.block, terminator?]
  rcases f.block? c with _ | data <;> rfl

theorem args (he : f.InstrErased g i v) (c : BlockId) : g.args? c = f.args? c :=
  args?_mapBlocks he.block (fun _ _ => rfl) c

theorem operandsAt (he : f.InstrErased g i v) (point : Point) :
    g.operandsAt? point = if point = .instr i then [] else f.operandsAt? point := by
  rcases point with j | c
  · rw [operandsAt?, he.instr, operandsAt?]
    simp only [Point.instr.injEq]
    split <;> rfl
  · rw [operandsAt?_terminator, he.terminators]
    exact (if_neg (by simp)).symm

theorem mem_operandsAt? (he : f.InstrErased g i v) {point : Point} (hmem : w ∈ g.operandsAt? point) :
    w ∈ f.operandsAt? point := by
  rw [he.operandsAt] at hmem
  split at hmem
  · cases hmem
  · exact hmem

theorem valid (he : f.InstrErased g i v) (hv : f.Valid) (hunread : f.Unread v) : g.Valid := by
  refine hv.congr he.layout he.terminators he.args fun point w hw => ?_
  have hmem := he.mem_operandsAt? hw
  have hne : w ≠ v := by
    rintro rfl
    exact hunread point hmem
  rw [isLiveValue, he.value, if_neg hne]
  exact hv.live_operands hmem

end InstrErased

/-- The body `g` is `f` after an unread value `v` went, with the instruction that computes it or with the
operands that are delivered for it. -/
inductive Retires (f g : Body) (v : ValueId) : Prop
  | instr {i : InstrId} {op : Operation} (hop : f.operation? i = some op)
      (hpure : op.hasSideEffects = false) (hresult : f.result? i = some v) (hunread : f.Unread v)
      (hgone : f.InstrErased g i v)
  | phi {b : BlockId} {index : Nat} (hphi : f.origin? v = some (.argument b index .phi))
      (hexplicit : f.ExplicitlyFed b) (hunread : f.Unread v) (hgone : f.PhiErased g b index v)

/-- Unread values go one after the other. -/
abbrev RetiresAll : Body → Body → Prop :=
  Relation.ReflTransGen fun f g => ∃ v, f.Retires g v

/-- Why a value stays although nothing reads it. -/
inductive Kept (f : Body) (v : ValueId) : Prop
  | effect {i : InstrId} {op : Operation} (horigin : f.origin? v = some (.result i))
      (hop : f.operation? i = some op) (heffect : op.hasSideEffects = true)
  | input {b : BlockId} {index : Nat} {convention : Convention}
      (horigin : f.origin? v = some (.argument b index (.function convention)))
  | implicit {b : BlockId} {index : Nat} {x : Edge} {payload : Payload}
      (horigin : f.origin? v = some (.argument b index .phi)) (hx : f.target? x = some b)
      (hpayload : f.edgeArgs? x = some (.implicit payload))

namespace Retires

theorem consistent (hr : f.Retires g v) : g.Consistent := by
  cases hr with
  | instr _ _ _ _ hgone => exact hgone.consistent
  | phi _ _ _ hgone => exact hgone.consistent

theorem valid (hr : f.Retires g v) (hv : f.Valid) : g.Valid := by
  cases hr with
  | instr _ _ _ hunread hgone => exact hgone.valid hv hunread
  | phi _ hexplicit hunread hgone => exact hgone.valid hv hexplicit (hunread.feedsItself _ _)

theorem isLiveValue_self (hr : f.Retires g v) : g.isLiveValue v = false := by
  cases hr with
  | instr _ _ _ _ hgone => rw [isLiveValue, hgone.value, if_pos rfl, Option.isSome_none]
  | phi _ _ _ hgone => rw [isLiveValue, hgone.value, if_pos rfl, Option.isSome_none]

theorem ne_of_isLiveValue (hr : f.Retires g v) (hlive : g.isLiveValue w = true) : w ≠ v := by
  rintro rfl
  exact Bool.false_ne_true (hr.isLiveValue_self.symm.trans hlive)

theorem isLiveValue (hr : f.Retires g v) (hlive : g.isLiveValue w = true) :
    f.isLiveValue w = true := by
  have hne := hr.ne_of_isLiveValue hlive
  cases hr with
  | instr _ _ _ _ hgone =>
      rw [Body.isLiveValue, hgone.value, if_neg hne] at hlive
      exact hlive
  | phi _ _ _ hgone => exact (hgone.isLiveValue hne).symm.trans hlive

theorem kept (hr : f.Retires g v) (hkept : f.Kept w) (hlive : g.isLiveValue w = true) : g.Kept w := by
  have hne := hr.ne_of_isLiveValue hlive
  cases hr with
  | @instr i op hop hpure hresult hunread hgone =>
      have horigin : g.origin? w = f.origin? w := by
        rw [origin?, hgone.value, if_neg hne, origin?]
      cases hkept with
      | @effect j other hw hother heffect =>
          have hji : j ≠ i := by
            rintro rfl
            cases hop.symm.trans hother
            exact Bool.false_ne_true (hpure.symm.trans heffect)
          refine .effect (horigin.trans hw) ?_ heffect
          rw [operation?, hgone.instr, if_neg hji]
          exact hother
      | input hw => exact .input (horigin.trans hw)
      | @implicit b index x payload hw hx hpayload =>
          have hgiven : g.edgeArgs? x = f.edgeArgs? x := by
            rw [edgeArgs?, hgone.terminators, edgeArgs?]
          exact .implicit (horigin.trans hw) ((target?_congr hgone.terminators x).trans hx)
            (hgiven.trans hpayload)
  | @phi b index hphi hexplicit hunread hgone =>
      cases hkept with
      | @effect j other hw hother heffect =>
          refine .effect (i := j) ?_ ?_ heffect
          · rw [hgone.origin hne, hw]
            rfl
          · rw [operation?, instr?, hgone.instrs]
            exact hother
      | input hw =>
          obtain ⟨position, hw⟩ := hgone.exists_argument hne hw
          exact .input hw
      | @implicit c position x payload hw hx hpayload =>
          obtain ⟨position, hw⟩ := hgone.exists_argument hne hw
          exact .implicit hw ((hgone.unloads.target x).trans hx)
            (hgone.unloads.edgeArgs?_eq_implicit.mpr hpayload)

end Retires

theorem RetiresAll.consistent (hr : f.RetiresAll g) (hf : f.Consistent) : g.Consistent := by
  cases hr with
  | refl => exact hf
  | tail _ hstep =>
      obtain ⟨v, hstep⟩ := hstep
      exact hstep.consistent

theorem RetiresAll.valid (hr : f.RetiresAll g) (hv : f.Valid) : g.Valid := by
  induction hr with
  | refl => exact hv
  | tail _ hstep ih =>
      obtain ⟨v, hstep⟩ := hstep
      exact hstep.valid ih

/-- Looking at a value never faults. It stays if it is read or has a reason to stay; otherwise it goes,
and the values that it was the last to read are returned. -/
theorem Consistent.retire_cases (hf : f.Consistent) (hv : f.Valid) (v : ValueId) :
    (f.retire v = .ok ([], f) ∧ (f.isLiveValue v = true → f.Unread v → f.Kept v)) ∨
      ∃ freed g, f.retire v = .ok (freed, g) ∧ f.Retires g v ∧
        ∀ w, g.Unread w → ¬ f.Unread w → w ∈ freed := by
  rcases hvalue : f.value? v with _ | value
  · refine .inl ⟨?_, fun hlive => ?_⟩
    · simp only [retire, hvalue]
    · rw [isLiveValue, hvalue] at hlive
      cases hlive
  · have horigin : f.origin? v = some value.origin := origin?_eq_some.mpr ⟨value, hvalue, rfl⟩
    rcases huses : f.hasUses v with _ | _
    · have hunread : f.Unread v := hf.uses.unread_iff.mpr huses
      simp only [retire, hvalue, huses, Bool.false_eq_true, if_false]
      generalize value.origin = origin at horigin
      rcases origin with i | ⟨b, index, _ | convention⟩
      · have hresult := (hf.results i v).mpr horigin
        obtain ⟨instr, hi, -⟩ := result?_eq_some.mp hresult
        have hop : f.operation? i = some instr.op := by rw [operation?, hi, Option.map_some]
        simp only [instr_eq_ok.mpr hi]
        rcases heffect : instr.op.hasSideEffects with _ | _
        · obtain ⟨g, herase, hgone⟩ := hf.exists_eraseInstr hresult hunread
          simp only [herase, Bool.false_eq_true, if_false]
          refine .inr ⟨_, g, rfl, .instr hop heffect hresult hunread hgone, fun w hw hread => ?_⟩
          -- The only slots that are gone are those of the instruction.
          by_contra hnot
          refine hread fun point hmem => ?_
          have hleft := hw point
          rw [hgone.operandsAt] at hleft
          split at hleft
          · rename_i hpoint
            rw [hpoint, operandsAt?_instr, hop] at hmem
            exact hnot hmem
          · exact hleft hmem
        · exact .inl ⟨if_pos rfl, fun _ _ => .effect horigin hop heffect⟩
      · rcases hf.exists_detachPhi hv horigin (hunread.feedsItself b index) with
          ⟨hnone, x, payload, hx, hpayload⟩ | ⟨hexplicit, freed, g, hsome, hgone, hfreed⟩
        · exact .inl ⟨by simp only [hnone], fun _ _ => .implicit horigin hx hpayload⟩
        · simp only [hsome]
          refine .inr ⟨freed, g, rfl, .phi horigin hexplicit hunread hgone, fun w hw hread => ?_⟩
          obtain ⟨point, hmem⟩ := not_forall_not.mp hread
          obtain ⟨x, args, hx, hargs, hget⟩ := hgone.unloads.exists_slot hw hmem
          exact hfreed x args w hx hargs hget
      · exact .inl ⟨rfl, fun _ _ => .input horigin⟩
    · refine .inl ⟨?_, fun _ hunread => ?_⟩
      · simp only [retire, hvalue, huses, if_true]
      · cases huses.symm.trans (hf.uses.unread_iff.mp hunread)

/-- The unread ones of some values are all on the stack, or have a reason to stay. -/
def Pending (f : Body) (lost : ValueId → Prop) (stack : List ValueId) : Prop :=
  ∀ w, lost w → f.isLiveValue w = true → f.Unread w → w ∈ stack ∨ f.Kept w

theorem Retires.pending {lost : ValueId → Prop} {rest freed : List ValueId} (hr : f.Retires g v)
    (hfreed : ∀ w, g.Unread w → ¬ f.Unread w → w ∈ freed) (hp : f.Pending lost (v :: rest)) :
    g.Pending lost (freed.reverse ++ rest) := by
  intro w hlost hlive hunread
  rcases Classical.em (f.Unread w) with hbefore | hbefore
  · rcases hp w hlost (hr.isLiveValue hlive) hbefore with hmem | hkept
    · have hrest := (List.mem_cons.mp hmem).resolve_left (hr.ne_of_isLiveValue hlive)
      exact .inl (List.mem_append_right _ hrest)
    · exact .inr (hr.kept hkept hlive)
  · exact .inl (List.mem_append_left _ (List.mem_reverse.mpr (hfreed w hunread hbefore)))

theorem Consistent.exists_cleanUp (hf : f.Consistent) (hv : f.Valid) {lost : ValueId → Prop}
    {stack : List ValueId} (hp : f.Pending lost stack) :
    ∃ g, f.cleanUp stack = .ok g ∧ f.RetiresAll g ∧ g.Pending lost [] := by
  fun_induction cleanUp f stack with
  | case1 f => exact ⟨f, rfl, .refl, hp⟩
  | case2 f v rest fault hretire =>
      rcases hf.retire_cases hv v with ⟨hrun, -⟩ | ⟨freed, g, hrun, -⟩
      · cases hretire.symm.trans hrun
      · cases hretire.symm.trans hrun
  | case3 f v rest freed g hretire ih =>
      rcases hf.retire_cases hv v with ⟨hrun, hstays⟩ | ⟨freed', g', hrun, hr, hfreed⟩
      · cases hretire.symm.trans hrun
        refine ih hf hv fun w hlost hlive hunread => ?_
        rcases hp w hlost hlive hunread with hmem | hkept
        · rcases List.mem_cons.mp hmem with rfl | hmem
          · exact .inr (hstays hlive hunread)
          · exact .inl hmem
        · exact .inr hkept
      · cases hretire.symm.trans hrun
        obtain ⟨last, hlast, hsteps, hkept⟩ :=
          ih hr.consistent (hr.valid hv) (hr.pending hfreed hp)
        exact ⟨last, hlast, .head ⟨v, hr⟩ hsteps, hkept⟩

/-- A phi that only feeds itself can be erased if all the edges to its block are explicit. With cleanup,
values that are not read any more go after it, until each value that was read and is not read any more
has a reason to stay. -/
theorem Consistent.erasePhi_does (hf : f.Consistent) (hv : f.Valid)
    (hphi : f.origin? v = some (.argument b index .phi)) (hexplicit : f.ExplicitlyFed b)
    (hself : f.FeedsItself b index v) :
    ∃ g h, f.erasePhi b index false = .ok g ∧ f.PhiErased g b index v ∧
      f.erasePhi b index true = .ok h ∧ g.RetiresAll h ∧
      ∀ w, ¬ f.Unread w → h.isLiveValue w = true → h.Unread w → h.Kept w := by
  obtain ⟨value, hvalue, horigin⟩ := origin?_eq_some.mp hphi
  obtain ⟨data, hb⟩ := isLiveBlock_iff.mp (hf.args.live_block hphi)
  have hget := (hf.args.getElem?_args (args?_of hb) index v).mpr ⟨_, hphi⟩
  rcases hf.exists_detachPhi hv hphi hself with
    ⟨-, x, payload, hx, himplicit⟩ | ⟨-, freed, g, hdetach, hgone, hfreed⟩
  · obtain ⟨args, hargs⟩ := hexplicit x hx
    cases himplicit.symm.trans hargs
  · have hrun : ∀ clean, f.erasePhi b index clean =
        if clean then g.cleanUp freed.reverse else .ok g := by
      intro clean
      rw [erasePhi, arg_eq_ok.mpr ⟨data, hb, hget⟩, ok_bind, value_eq_ok.mpr hvalue, ok_bind,
        horigin, hdetach]
      rfl
    have hpending : g.Pending (fun w => ¬ f.Unread w) freed.reverse := by
      intro w hread _ hunread
      obtain ⟨point, hmem⟩ := not_forall_not.mp hread
      obtain ⟨x, args, hx, hargs, hget⟩ := hgone.unloads.exists_slot hunread hmem
      exact .inl (List.mem_reverse.mpr (hfreed x args w hx hargs hget))
    obtain ⟨last, hlast, hsteps, hkept⟩ :=
      hgone.consistent.exists_cleanUp (hgone.valid hv hexplicit hself) hpending
    refine ⟨g, last, hrun false, hgone, (hrun true).trans hlast, hsteps,
      fun w hread hlive hunread => ?_⟩
    exact (hkept w hread hlive hunread).resolve_left List.not_mem_nil

theorem Consistent.feedsItself_of_erasePhi (hf : f.Consistent) (hv : f.Valid) {clean : Bool}
    (hrun : f.erasePhi b index clean = .ok g) :
    ∃ v, f.origin? v = some (.argument b index .phi) ∧ f.ExplicitlyFed b ∧
      f.FeedsItself b index v := by
  simp only [erasePhi, bind_eq_ok, arg_eq_ok, value_eq_ok, guard_eq_ok, Bool.not_eq_true] at hrun
  obtain ⟨v, ⟨data, hb, hget⟩, value, hvalue, hphi, outcome, hdetach, hrest⟩ := hrun
  have horigin : f.origin? v = some (.argument b index .phi) := by
    obtain ⟨kind, hkind⟩ := (hf.args.getElem?_args (args?_of hb) index v).mp hget
    obtain ⟨other, hother, horigin⟩ := origin?_eq_some.mp hkind
    cases hvalue.symm.trans hother
    rw [horigin] at hphi
    rcases kind with _ | convention
    · exact hkind
    · cases hphi
  rcases outcome with _ | ⟨freed, last⟩
  · cases hrest
  · exact ⟨v, horigin, hf.feedsItself_of_detachPhi hv hb hget hdetach⟩

theorem Consistent.exists_erasePhi (hf : f.Consistent) (hv : f.Valid)
    (hphi : f.origin? v = some (.argument b index .phi)) (hexplicit : f.ExplicitlyFed b)
    (hself : f.FeedsItself b index v) (clean : Bool) :
    ∃ g, f.erasePhi b index clean = .ok g ∧ g.Consistent ∧ g.Valid := by
  obtain ⟨g, h, hplain, hgone, hclean, hsteps, -⟩ := hf.erasePhi_does hv hphi hexplicit hself
  have hvalid := hgone.valid hv hexplicit hself
  rcases clean with _ | _
  · exact ⟨g, hplain, hgone.consistent, hvalid⟩
  · exact ⟨h, hclean, RetiresAll.consistent hsteps hgone.consistent, RetiresAll.valid hsteps hvalid⟩

end FlowGraph.Body
