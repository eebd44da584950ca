import FlowGraph.Loop.Boundary
import FlowGraph.Proofs.Loop.Stored

/-!
What can be copied with a loop cuts no scope. The check looks at a scope from both of its ends: at what
opens it through the readers of the result, at what closes it through the operand. Both looks come to
the same because the use index and the operands of a well-built body agree.
-/

namespace FlowGraph

namespace Operation

/-- The second operation closes the scope that the first one opens with its result `v`. -/
inductive Closes (v : ValueId) : Operation → Operation → Prop
  | deallocStack (type : TypeId) : Closes v (.allocStack type) (.deallocStack v)
  | endAccess (address : ValueId) : Closes v (.beginAccess address) (.endAccess v)
  | endApply (callee : String) (args : List ValueId) : Closes v (.beginApply callee args) (.endApply v)
  | abortApply (callee : String) (args : List ValueId) :
      Closes v (.beginApply callee args) (.abortApply v)

/-- Whether the result means nothing where the operation has not run. -/
def isLocal : Operation → Bool
  | .openExistential _ _ => true
  | .foreignMethod _ _ _ => true
  | _ => false

/-- Which readers of its result an operation wants in its loop, if it wants any. -/
def ties? : Operation → Option (Operation → Bool)
  | .allocStack _ => some isStackDealloc
  | .beginAccess _ => some isAccessEnd
  | .beginApply _ _ => some fun _ => true
  | .openExistential _ _ => some fun _ => true
  | .foreignMethod _ _ _ => some fun _ => true
  | _ => none

/-- The values that an operation wants to be defined in its loop. -/
def closed : Operation → List ValueId
  | .deallocStack v => [v]
  | .endAccess v => [v]
  | .endApply v => [v]
  | .abortApply v => [v]
  | _ => []

variable {v : ValueId} {o c : Operation}

theorem Closes.ties? (h : Closes v o c) : ∃ concerns, o.ties? = some concerns ∧ concerns c = true := by
  cases h <;> exact ⟨_, rfl, rfl⟩

theorem Closes.closed (h : Closes v o c) : c.ties? = none ∧ c.closed = [v] := by
  cases h <;> exact ⟨rfl, rfl⟩

theorem Closes.mem_operands (h : Closes v o c) : v ∈ c.operands := by
  cases h <;> exact List.mem_singleton_self v

theorem ties?_of_isLocal (h : o.isLocal = true) : o.ties? = some fun _ => true := by
  cases o <;> first | rfl | cases h

end Operation

namespace Loop

variable {l : Loop} {f : Body} {i : InstrId} {v : ValueId} {point : Point}

/-- The point lies in a block of the loop. -/
def Holds (l : Loop) (f : Body) (point : Point) : Prop := ∃ b ∈ l.blocks, f.pointBlock point = .ok b

theorem holds_instr : l.Holds f (.instr i) ↔ ∃ b ∈ l.blocks, f.holder? i = some b := by
  simp only [Holds, Body.pointBlock, bind_eq_ok, Body.instr_eq_ok, pure_eq_ok, Body.holder?_eq_some]

theorem canDuplicateInstr_eq (l : Loop) (f : Body) (i : InstrId) :
    l.canDuplicateInstr f i = (do
      let data ← f.instr i
      match data.op.ties? with
      | some concerns => l.confines f concerns data.result
      | none => data.op.closed.allM (l.defines f)) := by
  refine bind_congr fun data => ?_
  cases data.op with
  | endAccess v =>
      change l.defines f v = [v].allM (l.defines f)
      rw [List.allM]
      rcases l.defines f v with _ | _ | _ <;> rfl
  | _ => rfl

theorem holds_of_confines {concerns : Operation → Bool} (hf : f.UsesListed)
    (h : l.confines f concerns (some v) = .ok true) (hread : v ∈ f.operandsAt? point)
    (hconcerns : ∀ i op, point = .instr i → f.operation? i = some op → concerns op = true) :
    l.Holds f point := by
  have hreader := allM_eq_ok_true h point (hf.mem_usersOf.mpr hread)
  rcases point with i | b
  · rw [confinesReader, bind_eq_ok] at hreader
    obtain ⟨data, hdata, hkept⟩ := hreader
    have hop := hconcerns i data.op rfl (by rw [Body.operation?, Body.instr_eq_ok.mp hdata]; rfl)
    rw [pure_eq_ok, hop] at hkept
    exact holds_instr.mpr ⟨data.block, by simpa [contains] using hkept,
      Body.holder?_eq_some.mpr ⟨data, Body.instr_eq_ok.mp hdata, rfl⟩⟩
  · rw [confinesReader, pure_eq_ok] at hreader
    exact ⟨b, by simpa [contains] using hreader, rfl⟩

theorem holds_of_defines (h : l.defines f v = .ok true) (horigin : f.origin? v = some (.result i)) :
    l.Holds f (.instr i) := by
  obtain ⟨value, hvalue, hresult⟩ := Body.origin?_eq_some.mp horigin
  obtain ⟨b, hb, hmem⟩ := bind_eq_ok.mp h
  rw [Body.definingBlock, Body.value_eq_ok.mpr hvalue, ok_bind, hresult] at hb
  rw [pure_eq_ok] at hmem
  exact ⟨b, by simpa [contains] using hmem, hb⟩

theorem holds_reader {o : Operation} {concerns : Operation → Bool} (hf : f.UsesListed)
    (h : l.canDuplicate f (.instr i) = .ok true) (hop : f.operation? i = some o)
    (hties : o.ties? = some concerns) (hresult : f.result? i = some v)
    (hread : v ∈ f.operandsAt? point)
    (hconcerns : ∀ j op, point = .instr j → f.operation? j = some op → concerns op = true) :
    l.Holds f point := by
  obtain ⟨data, hdata, hv⟩ := Body.result?_eq_some.mp hresult
  rw [Body.operation?, hdata, Option.map_some, Option.some.injEq] at hop
  rw [canDuplicate, canDuplicateInstr_eq, Body.instr_eq_ok.mpr hdata, ok_bind, hop, hties, hv] at h
  exact holds_of_confines hf h hread hconcerns

theorem holds_opener {o c : Operation} {j : InstrId} (hf : f.ResultsListed)
    (h : l.canDuplicate f (.instr j) = .ok true) (hop : f.operation? j = some c)
    (hcloses : Operation.Closes v o c) (hresult : f.result? i = some v) : l.Holds f (.instr i) := by
  obtain ⟨data, hdata, rfl⟩ := Option.map_eq_some_iff.mp hop
  obtain ⟨hnone, hclosed⟩ := hcloses.closed
  rw [canDuplicate, canDuplicateInstr_eq, Body.instr_eq_ok.mpr hdata, ok_bind, hnone, hclosed] at h
  exact holds_of_defines (allM_eq_ok_true h v (List.mem_singleton_self v)) ((hf i v).mp hresult)

end Loop

/-- If all instructions of a loop can be copied with it, no scope is cut: what opens a scope lies in the
loop exactly if what closes it does, and local results of the loop are read nowhere else. All that
matters of the loop is its set of blocks. -/
theorem WellBuilt.scopes_uncut {f : Body} {l : Loop} (hf : WellBuilt f)
    (hcopy : ∀ b ∈ l.blocks, ∀ instrs, f.instrs? b = some instrs →
      ∀ i ∈ instrs, l.canDuplicate f (.instr i) = .ok true) :
    (∀ i j v o c, f.operation? i = some o → f.operation? j = some c → f.result? i = some v →
      Operation.Closes v o c → (l.Holds f (.instr i) ↔ l.Holds f (.instr j))) ∧
    ∀ i v o, f.operation? i = some o → o.isLocal = true → f.result? i = some v →
      l.Holds f (.instr i) → ∀ point, v ∈ f.operandsAt? point → l.Holds f point := by
  have hconsistent := hf.consistent
  have hheld : ∀ i, l.Holds f (.instr i) → l.canDuplicate f (.instr i) = .ok true := by
    intro i hi
    obtain ⟨b, hb, hholder⟩ := Loop.holds_instr.mp hi
    have hlive := hconsistent.instrs.live_holder hholder
    rw [← Body.isSome_instrs?, Option.isSome_iff_exists] at hlive
    obtain ⟨instrs, hinstrs⟩ := hlive
    exact hcopy b hb instrs hinstrs i ((hconsistent.instrs.mem_instrs hinstrs).mpr hholder)
  refine ⟨fun i j v o c hi hj hv hcloses => ⟨fun hin => ?_, fun hin => ?_⟩,
    fun i v o hi hlocal hv hin point hread => ?_⟩
  · obtain ⟨concerns, hties, hconcerns⟩ := hcloses.ties?
    have hread : v ∈ f.operandsAt? (.instr j) := by
      rw [Body.operandsAt?_instr, hj]
      exact hcloses.mem_operands
    refine Loop.holds_reader hconsistent.uses (hheld i hin) hi hties hv hread ?_
    rintro k op ⟨⟩ hk
    cases hj.symm.trans hk
    exact hconcerns
  · exact Loop.holds_opener hconsistent.results (hheld j hin) hj hcloses hv
  · exact Loop.holds_reader hconsistent.uses (hheld i hin) hi (Operation.ties?_of_isLocal hlocal) hv
      hread fun _ _ _ _ => rfl

/-- A loop in which a coroutine is ended on one way round and aborted on the other. -/
def scopedLoop : Body :=
  replayed [.createBlock, .createBlock, .createBlock, .createBlock, .createBlock,
    .addFunctionArg ⟨0⟩ .address .indirect,
    .appendInstr ⟨1⟩ (.beginAccess ⟨0⟩),
    .appendInstr ⟨1⟩ (.beginApply "next" [⟨1⟩]),
    .appendInstr ⟨1⟩ (.openExistential ⟨0⟩ .bool),
    .appendInstr ⟨2⟩ (.endApply ⟨2⟩),
    .appendInstr ⟨2⟩ (.endAccess ⟨1⟩),
    .appendInstr ⟨3⟩ (.abortApply ⟨2⟩),
    .appendInstr ⟨3⟩ (.endAccess ⟨1⟩),
    .setTerminator ⟨0⟩ (.br ⟨1⟩ []),
    .setTerminator ⟨1⟩ (.condBr ⟨3⟩ ⟨2⟩ [] ⟨3⟩ []),
    .setTerminator ⟨2⟩ (.br ⟨1⟩ []),
    .setTerminator ⟨3⟩ (.condBr ⟨3⟩ ⟨1⟩ [] ⟨4⟩ []),
    .setTerminator ⟨4⟩ (.ret ⟨0⟩)]

def scopedTree : Dominators := ⟨⟨0⟩, ⟨#[some 0, some 0, some 1, some 1, some 3], 0⟩⟩

def scopedBlocks : Loop where
  header := ⟨1⟩
  blocks := [⟨1⟩, ⟨3⟩, ⟨2⟩]
  parent := none

theorem scopedLoop_loops : scopedLoop.loops scopedTree =
    .ok ⟨#[scopedBlocks], [⟨0⟩], [(⟨2⟩, ⟨0⟩), (⟨3⟩, ⟨0⟩), (⟨1⟩, ⟨0⟩)]⟩ := by
  have horder : scopedLoop.blockOrder = .ok ⟨[⟨2⟩, ⟨4⟩, ⟨3⟩, ⟨1⟩, ⟨0⟩]⟩ := by decide +kernel
  rw [Body.loops_eq horder (fun h => if h = ⟨1⟩ then [⟨2⟩, ⟨3⟩] else [])
    (fun h => if h = ⟨1⟩ then [⟨2⟩, ⟨3⟩, ⟨1⟩] else [h]) (by decide +kernel)]
  refine (congrArg LoopForest.ofLoops (?_ : _ = #[scopedBlocks])).trans ?_
  · cbv
  · decide +kernel

theorem scopedLoop_scopes_uncut :
    scopedLoop.dominators = .ok scopedTree ∧
      (∃ forest, scopedLoop.loops scopedTree = .ok forest ∧ scopedBlocks ∈ forest.loops) ∧
      (scopedBlocks.Holds scopedLoop (.instr ⟨1⟩) ↔ scopedBlocks.Holds scopedLoop (.instr ⟨5⟩)) ∧
      scopedBlocks.Holds scopedLoop (.terminator ⟨3⟩) := by
  have hcopy : ∀ b ∈ scopedBlocks.blocks, ∀ i ∈ (scopedLoop.instrs? b).getD [],
      scopedBlocks.canDuplicate scopedLoop (.instr i) = .ok true := by decide +kernel
  have hbuilt : WellBuilt scopedLoop := wellBuilt_replayed _
  obtain ⟨hpairs, hlocal⟩ := WellBuilt.scopes_uncut hbuilt
    fun b hb instrs hinstrs i hi => hcopy b hb i (by rwa [hinstrs])
  refine ⟨by decide +kernel, ⟨_, scopedLoop_loops, by simp⟩,
    hpairs ⟨1⟩ ⟨5⟩ ⟨2⟩ _ _ (by cbv) (by cbv) (by cbv) (.abortApply "next" [⟨1⟩]),
    hlocal ⟨2⟩ ⟨3⟩ (.openExistential ⟨0⟩ .bool) (by cbv) rfl (by cbv) ⟨⟨1⟩, by decide, by cbv⟩
      (.terminator ⟨3⟩) (by decide +kernel)⟩

end FlowGraph
