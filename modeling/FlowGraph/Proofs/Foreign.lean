import Mathlib.Data.List.Flatten
import Mathlib.Data.List.Permutation
import FlowGraph.Snapshot.Read
import FlowGraph.Snapshot.Write
import FlowGraph.Proofs.Verification

/-!
Verification of bodies that edits have not put together, such as those read from data. It decides whether
the body is well formed. But it visits the blocks of the layout and nothing else, and it does not read
what the result of an instruction records. So a body can pass with a live block outside the layout, with
a result that does not know its instruction, or with an operand that no block defines.
-/

namespace FlowGraph.Body

variable {f : Body}

/-- Verification decides whether a body is well formed. The body need not have come about by edits: it
is enough that the blocks of the layout and their instructions are there, and that no block and no value
is listed twice. -/
theorem verify_decides_wellFormed (hlayout : f.layout.Nodup)
    (hblocks : ∀ b ∈ f.layout, f.isLiveBlock b = true)
    (hinstrs : ∀ b ∈ f.layout, ∀ instrs, f.instrs? b = some instrs →
      ∀ i ∈ instrs, f.isLiveInstr i = true)
    (hdefined : (f.layout.flatMap f.definedIn).Nodup) :
    ∃ outcome, f.verify.run = .ok outcome ∧ (outcome = .ok () ↔ f.WellFormed) := by
  obtain ⟨outcome, hrun⟩ := faultless_verify hblocks hinstrs
  refine ⟨outcome, hrun, ?_⟩
  have hpass : f.verify.run = .ok (.ok ()) ↔ f.WellFormed :=
    verify_iff.trans (and_iff_left (repeatsIdle_of_nodup hlayout hdefined))
  rw [← hpass, hrun, Except.ok.injEq]

/-- A body as it may be read from outside. Slots of the arenas are empty, its lists are in an order
that edits would not give, and there is a block that the layout does not name. -/
def foreignBody (users : Array (List Point)) : Body where
  id := ⟨0⟩
  name := "foreign"
  layout := [⟨0⟩, ⟨2⟩, ⟨4⟩]
  blocks := ⟨#[
    some { args := [⟨1⟩], terminator := some (.switchEnum ⟨1⟩ [(0, ⟨2⟩), (1, ⟨2⟩)] none) },
    none,
    some { args := [⟨2⟩], instrs := [⟨1⟩], terminator := some (.condBr ⟨2⟩ ⟨2⟩ [⟨3⟩] ⟨4⟩ []),
           preds := [⟨⟨2⟩, 0⟩, ⟨⟨0⟩, 1⟩, ⟨⟨0⟩, 0⟩] },
    some {},
    some { terminator := some .unreachable, preds := [⟨⟨2⟩, 1⟩] }]⟩
  instrs := ⟨#[none, some ⟨.builtin "add" [⟨2⟩, ⟨2⟩] (some (.int, .none)) false, ⟨2⟩, some ⟨3⟩⟩]⟩
  values := ⟨#[none, some ⟨.int, .none, .argument ⟨0⟩ 0 (.function .owned)⟩,
    some ⟨.int, .none, .argument ⟨2⟩ 0 .phi⟩, some ⟨.int, .none, .result ⟨1⟩⟩]⟩
  useIndex := ⟨users⟩

theorem foreignBody_verify_decides :
    (foreignBody #[[], [.terminator ⟨0⟩], [.terminator ⟨2⟩, .instr ⟨1⟩, .instr ⟨1⟩],
      [.terminator ⟨2⟩]]).WellFormed ∧ ¬ (foreignBody #[]).WellFormed := by
  have hdecides : ∀ users, ∃ outcome, (foreignBody users).verify.run = .ok outcome ∧
      (outcome = .ok () ↔ (foreignBody users).WellFormed) := by
    intro users
    refine verify_decides_wellFormed ?_ ?_ ?_ ?_
    · exact (by decide : [BlockId.mk 0, ⟨2⟩, ⟨4⟩].Nodup)
    · simp [foreignBody, isLiveBlock, block?, Arena.get?]
    · simp [foreignBody, instrs?, block?, Arena.get?, isLiveInstr, instr?]
    · exact (by decide : [ValueId.mk 1, ⟨2⟩, ⟨3⟩].Nodup)
  constructor
  · obtain ⟨outcome, hrun, hiff⟩ := hdecides _
    exact hiff.mp (Except.ok.inj (hrun.symm.trans (by cbv)))
  · obtain ⟨outcome, hrun, hiff⟩ := hdecides #[]
    have hfails : (foreignBody #[]).verify.run =
        .ok (.error (.useIndexMismatch ⟨1⟩ [.terminator ⟨0⟩] [])) := by cbv
    rw [← hiff, Except.ok.inj (hrun.symm.trans hfails)]
    simp

/-- The results of the instructions that blocks of the layout list record their instructions. -/
def ResultsRecorded (f : Body) : Prop :=
  ∀ b ∈ f.layout, ∀ instrs, f.instrs? b = some instrs → ∀ i ∈ instrs, ∀ v, f.result? i = some v →
    f.origin? v = some (.result i)

/-- What is read in a block of the layout is defined in one. -/
def ReadsDefined (f : Body) : Prop :=
  ∀ b ∈ f.layout, ∀ point ∈ f.pointsIn b, ∀ v ∈ f.operandsAt? point,
    ∃ c ∈ f.layout, v ∈ f.definedIn c

/-- The layout stands for the whole body: it lists each live block once, and what is read there is
defined there by the instruction or block that the value records. -/
structure SelfContained (f : Body) : Prop where
  layout : f.LayoutListed
  results : f.ResultsRecorded
  reads : f.ReadsDefined

/-- A block of the layout defines the value at the place that the value records. -/
def Attested (f : Body) (v : ValueId) : Prop :=
  (∃ c ∈ f.layout, ∃ args index kind, f.args? c = some args ∧ args[index]? = some v ∧
    f.origin? v = some (.argument c index kind)) ∨
  ∃ c ∈ f.layout, ∃ instrs, f.instrs? c = some instrs ∧ ∃ i ∈ instrs,
    f.result? i = some v ∧ f.origin? v = some (.result i)

theorem Attested.defined {v : ValueId} (h : f.Attested v) : ∃ c ∈ f.layout, v ∈ f.definedIn c := by
  rcases h with ⟨c, hc, args, index, kind, hargs, hv, -⟩ | ⟨c, hc, instrs, hinstrs, i, hi, hv, -⟩
  · exact ⟨c, hc, mem_definedIn.mpr (.inl ⟨args, hargs, List.mem_of_getElem? hv⟩)⟩
  · exact ⟨c, hc, mem_definedIn.mpr (.inr ⟨instrs, hinstrs, i, hi, hv⟩)⟩

/-- Arguments are checked against what they record; results have to be checked besides. -/
theorem WellFormed.attested (hf : f.WellFormed) (hresults : f.ResultsRecorded) {c : BlockId}
    (hc : c ∈ f.layout) {v : ValueId} (hv : v ∈ f.definedIn c) : f.Attested v := by
  rcases mem_definedIn.mp hv with ⟨args, hargs, hmem⟩ | ⟨instrs, hinstrs, i, hi, hresult⟩
  · obtain ⟨index, hindex⟩ := List.mem_iff_getElem?.mp hmem
    obtain ⟨kind, horigin⟩ := (hf.blocks c hc).args args hargs index v hindex
    exact .inl ⟨c, hc, args, index, kind, hargs, hindex, horigin⟩
  · exact .inr ⟨c, hc, instrs, hinstrs, i, hi, hresult,
      hresults c hc instrs hinstrs i hi v hresult⟩

theorem WellFormed.isLiveBlock (hf : f.WellFormed) {b : BlockId} (hb : b ∈ f.layout) :
    f.isLiveBlock b = true := by
  obtain ⟨t, ht⟩ := (hf.blocks b hb).terminated
  obtain ⟨data, hdata, -⟩ := terminator?_eq_some.mp ht
  exact isLiveBlock_of hdata

/-- Only a block without incoming edges can be listed twice. -/
theorem RepeatsIdle.layoutListed_iff (hr : f.RepeatsIdle) (hf : f.WellFormed) :
    f.LayoutListed ↔ (∀ b, f.isLiveBlock b = true → b ∈ f.layout) ∧
      ∀ b ∈ f.layout, f.preds? b = some [] → f.layout.count b = 1 := by
  constructor
  · intro hlayout
    exact ⟨fun b => (hlayout.mem_iff b).mpr,
      fun b hb _ => List.count_eq_one_of_mem hlayout.nodup hb⟩
  · rintro ⟨hlisted, honce⟩
    refine ⟨List.nodup_iff_count_le_one.mpr fun b => ?_,
      fun b => ⟨fun hb => hf.isLiveBlock hb, hlisted b⟩⟩
    by_contra hcount
    have hidle := hr.preds b (by omega)
    have := honce b (List.count_pos_iff.mp (by omega)) hidle
    omega

/-- What a block that is listed twice defines is not read: its values are listed twice as well. -/
theorem RepeatsIdle.usersOf_eq_nil (hr : f.RepeatsIdle) {b : BlockId} (hb : 1 < f.layout.count b)
    {v : ValueId} (hv : v ∈ f.definedIn b) : f.usersOf v = [] := by
  apply hr.users
  have htwice : ([b, b].flatMap f.definedIn).Sublist (f.layout.flatMap f.definedIn) :=
    (List.replicate_sublist_iff.mpr hb).flatMap _
  have hcount := htwice.count_le v
  have hpos := List.count_pos_iff.mpr hv
  simp only [List.flatMap_cons, List.flatMap_nil, List.append_nil, List.count_append] at hcount
  omega

/-- A body that passes verification lists live blocks only, and reads live values only; it may list a
block twice that no edge leads to and whose values nobody reads. Its layout stands for the whole body
exactly if there is no such block and no live block outside the layout, if results record their
instructions, and if every value that is read is defined where it records. -/
theorem selfContained_iff_of_verified (hv : f.verify.run = .ok (.ok ())) :
    (∀ b ∈ f.layout, f.isLiveBlock b = true ∧ (1 < f.layout.count b →
      f.preds? b = some [] ∧ ∀ v ∈ f.definedIn b, f.usersOf v = [])) ∧
    (∀ b ∈ f.layout, ∀ point ∈ f.pointsIn b, ∀ v ∈ f.operandsAt? point, f.isLiveValue v = true) ∧
    (f.SelfContained ↔ (∀ b, f.isLiveBlock b = true → b ∈ f.layout) ∧
      (∀ b ∈ f.layout, f.preds? b = some [] → f.layout.count b = 1) ∧ f.ResultsRecorded ∧
      ∀ b ∈ f.layout, ∀ point ∈ f.pointsIn b, ∀ v ∈ f.operandsAt? point, f.Attested v) := by
  obtain ⟨hf, hr⟩ := verify_iff.mp hv
  refine ⟨fun b hb => ⟨hf.isLiveBlock hb, fun hcount => ?_⟩, fun b hb => (hf.blocks b hb).operands, ?_⟩
  · exact ⟨hr.preds b hcount, fun v hv => hr.usersOf_eq_nil hcount hv⟩
  · constructor
    · rintro ⟨hlayout, hresults, hreads⟩
      obtain ⟨hlisted, honce⟩ := (hr.layoutListed_iff hf).mp hlayout
      refine ⟨hlisted, honce, hresults, fun b hb point hpoint v hv => ?_⟩
      obtain ⟨c, hc, hdefined⟩ := hreads b hb point hpoint v hv
      exact hf.attested hresults hc hdefined
    · rintro ⟨hlisted, honce, hresults, hattested⟩
      exact ⟨(hr.layoutListed_iff hf).mpr ⟨hlisted, honce⟩, hresults,
        fun b hb point hpoint v hv => (hattested b hb point hpoint v hv).defined⟩

/-- A body that lists its only block twice. -/
def echoedEntry : Body where
  id := ⟨0⟩
  name := "echoed"
  layout := [⟨0⟩, ⟨0⟩]
  blocks := ⟨#[some { args := [⟨0⟩], terminator := some .unreachable }]⟩
  values := ⟨#[some ⟨.int, .none, .argument ⟨0⟩ 0 (.function .owned)⟩]⟩
  useIndex := ⟨#[[]]⟩

theorem echoedEntry_not_selfContained :
    echoedEntry.usersOf ⟨0⟩ = [] ∧ ¬ echoedEntry.SelfContained := by
  have hv : echoedEntry.verify.run = .ok (.ok ()) := by cbv
  obtain ⟨hlisted, -, hiff⟩ := selfContained_iff_of_verified hv
  obtain ⟨hpreds, husers⟩ := (hlisted ⟨0⟩ (by decide)).2 (by decide)
  refine ⟨husers ⟨0⟩ (by decide), fun hself => ?_⟩
  obtain ⟨-, honce, -⟩ := hiff.mp hself
  exact absurd (honce ⟨0⟩ (by decide) hpreds) (by decide)

/-- A body with an unfinished block outside its layout. -/
def strayBlock : Body where
  id := ⟨0⟩
  name := "stray"
  layout := [⟨0⟩]
  blocks := ⟨#[some { terminator := some .unreachable }, some {}]⟩

/-- A body with an instruction whose result has been erased. -/
def lostResult : Body where
  id := ⟨0⟩
  name := "lost"
  layout := [⟨0⟩]
  blocks := ⟨#[some { instrs := [⟨0⟩], terminator := some .unreachable }]⟩
  instrs := ⟨#[some ⟨.literal .int (.int 7), ⟨0⟩, some ⟨0⟩⟩]⟩
  values := ⟨#[none]⟩
  useIndex := ⟨#[[]]⟩

/-- A body that returns the result of an instruction that is not there. -/
def danglingRead : Body where
  id := ⟨0⟩
  name := "dangling"
  layout := [⟨0⟩]
  blocks := ⟨#[some { terminator := some (.ret ⟨0⟩) }]⟩
  values := ⟨#[some ⟨.int, .none, .result ⟨7⟩⟩]⟩
  useIndex := ⟨#[[.terminator ⟨0⟩]]⟩

/-- Bodies that are read from data and pass verification can fail in each of the three ways. -/
theorem verified_not_selfContained :
    (ofDatum? ⟨0⟩ strayBlock.toDatum = some strayBlock ∧
      strayBlock.verify.run = .ok (.ok ()) ∧ ¬ strayBlock.LayoutListed) ∧
    (ofDatum? ⟨0⟩ lostResult.toDatum = some lostResult ∧
      lostResult.verify.run = .ok (.ok ()) ∧ ¬ lostResult.ResultsRecorded) ∧
    ofDatum? ⟨0⟩ danglingRead.toDatum = some danglingRead ∧
      danglingRead.verify.run = .ok (.ok ()) ∧ ¬ danglingRead.ReadsDefined := by
  refine ⟨⟨rfl, by cbv, fun hlayout => ?_⟩, ⟨rfl, by cbv, fun hresults => ?_⟩,
    rfl, by cbv, fun hreads => ?_⟩
  · have hmem : (⟨1⟩ : BlockId) ∈ strayBlock.layout := (hlayout.mem_iff ⟨1⟩).mpr (by cbv)
    exact absurd hmem (by decide)
  · have horigin := hresults ⟨0⟩ (by decide) [⟨0⟩] (by cbv) ⟨0⟩ (by decide) ⟨0⟩ (by cbv)
    exact absurd horigin (by decide)
  · obtain ⟨c, hc, hv⟩ := hreads ⟨0⟩ (by decide) (.terminator ⟨0⟩) (by decide) ⟨0⟩ (by decide)
    obtain rfl : c = ⟨0⟩ := by simpa [danglingRead] using hc
    exact absurd hv (by decide)

end FlowGraph.Body
