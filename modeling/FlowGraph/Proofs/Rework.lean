import FlowGraph.Proofs.Edit.Cut
import FlowGraph.Proofs.Edit.Cleanup
import FlowGraph.Proofs.Reshape

namespace FlowGraph

/-- The changes that keep a body valid. -/
inductive Rework where
  | reshape (c : Reshape)
  | splitBlock (b : BlockId) (position : Nat)
  | mergeBlocks
  | erasePhi (b : BlockId) (index : Nat) (clean : Bool)
  deriving DecidableEq, Repr

namespace Rework

def apply (t : Tracked) : Rework → Except Fault Tracked
  | reshape c => c.apply t
  | splitBlock b position => return { body := (← t.body.splitBlock b position).2 }
  | mergeBlocks => return { body := (← t.body.mergeBlocks).2 }
  | erasePhi b index clean => return { body := ← t.body.erasePhi b index clean }

/-- The change is asked of a live block, and of an edge or a position that it has. A phi has to get all
its operands from explicit edges, and may only feed itself. -/
def InRange (f : Body) : Rework → Prop
  | reshape c => c.InRange f
  | splitBlock b position => ∃ instrs, f.instrs? b = some instrs ∧ position ≤ instrs.length
  | mergeBlocks => True
  | erasePhi b index _ => ∃ v, f.origin? v = some (.argument b index .phi) ∧
      (∀ x, f.target? x = some b → ∃ args, f.edgeArgs? x = some (.explicit args)) ∧
      f.FeedsItself b index v

def Does (f g : Body) : Rework → Prop
  | reshape c => c.Does f g
  | splitBlock b position => ∃ mid, f.splitBlock b position = .ok (mid, g)
  | mergeBlocks => Relation.ReflTransGen Body.MergeOnce f g
  | erasePhi b index clean => f.erasePhi b index clean = .ok g

/-- The change puts blocks on edges or cuts a block. -/
def splits : Rework → Bool
  | reshape c => c.splits
  | splitBlock _ _ => true
  | mergeBlocks => false
  | erasePhi _ _ _ => false

def cost (f : Body) : Rework → Nat
  | reshape c => c.cost f
  | splitBlock _ _ => 1
  | mergeBlocks => 0
  | erasePhi _ _ _ => 0

end Rework

namespace Tracked

variable {start t : Tracked}

/-- A sequence of changes leads from the first tracked body to the second. In between, analyses can be
dropped or made. -/
inductive Reworked (start : Tracked) : Tracked → Prop
  | refl : Reworked start start
  | step {t t' : Tracked} (c : Rework) (ht : Reworked start t) (hin : c.InRange t.body)
      (hrun : c.apply t = .ok t') : Reworked start t'
  | analyse {t : Tracked} {dominators : Option Dominators} {loops : Option LoopForest}
      (ht : Reworked start t)
      (hdominators : ∀ d, dominators = some d → t.body.dominators = .ok d)
      (hloops : ∀ forest, loops = some forest →
        ∃ d, t.body.dominators = .ok d ∧ t.body.loops d = .ok forest) :
      Reworked start ⟨t.body, dominators, loops⟩

theorem sound_bare {f : Body} (hf : f.Consistent) (hv : f.Valid) : (⟨f, none, none⟩ : Tracked).Sound :=
  hf.sound hv nofun nofun

/-- A change that is in range takes its steps and keeps the body valid, or lacks numbers for new
blocks. -/
theorem Sound.rework_does (ht : t.Sound) {c : Rework} (hin : c.InRange t.body) :
    (∃ t', c.apply t = .ok t' ∧ t'.Sound ∧ c.Does t.body t'.body) ∨
      ∃ space, c.apply t = .error (.idOverflow space) ∧ ¬ t.body.HasRoom (c.cost t.body) := by
  cases c with
  | reshape c =>
      rcases ht.apply_cases hin with ⟨t', hrun, hkeeps, hdoes⟩ | hfail
      · exact .inl ⟨t', hrun, hkeeps.sound, hdoes⟩
      · exact .inr hfail
  | splitBlock b position =>
      obtain ⟨instrs, hinstrs, hposition⟩ := hin
      obtain ⟨data, hb, rfl⟩ := Body.instrs?_eq_some.mp hinstrs
      rcases ht.consistent.splitBlock_cases ht.valid hb hposition with
        ⟨g, hrun, hg, hvg⟩ | ⟨hrun, hfull⟩
      · refine .inl ⟨⟨g, none, none⟩, ?_, sound_bare hg hvg, _, hrun⟩
        rw [Rework.apply, hrun]
        rfl
      · refine .inr ⟨.block, ?_, fun hroom => ?_⟩
        · rw [Rework.apply, hrun]
          rfl
        · have := hroom.1
          simp only [Rework.cost] at this
          omega
  | mergeBlocks =>
      obtain ⟨merged, g, hrun, hg, hvg, hmerges⟩ :=
        ht.consistent.exists_mergeEach ht.valid t.body.layout
      refine .inl ⟨⟨g, none, none⟩, ?_, sound_bare hg hvg, hmerges⟩
      rw [Rework.apply, Body.mergeBlocks, hrun]
      rfl
  | erasePhi b index clean =>
      obtain ⟨v, hphi, hexplicit, hself⟩ := hin
      obtain ⟨g, hrun, hg, hvg⟩ := ht.consistent.exists_erasePhi ht.valid hphi hexplicit hself clean
      refine .inl ⟨⟨g, none, none⟩, ?_, sound_bare hg hvg, hrun⟩
      rw [Rework.apply, hrun]
      rfl

theorem Sound.rework_cases (ht : t.Sound) {c : Rework} (hin : c.InRange t.body) :
    (∃ t', c.apply t = .ok t' ∧ t'.Sound) ∨
      ∃ space, c.apply t = .error (.idOverflow space) ∧ ¬ t.body.HasRoom (c.cost t.body) := by
  rcases ht.rework_does hin with ⟨t', hrun, hsound, -⟩ | hfail
  · exact .inl ⟨t', hrun, hsound⟩
  · exact .inr hfail

theorem Reworked.sound (h : Reworked start t) (hstart : start.Sound) : t.Sound := by
  induction h with
  | refl => exact hstart
  | step c _ hin hrun ih =>
      rcases ih.rework_cases hin with ⟨next, hnext, hsound⟩ | ⟨space, hfail, -⟩
      · cases hrun.symm.trans hnext
        exact hsound
      · cases hrun.symm.trans hfail
  | analyse _ hdominators hloops ih => exact ih.consistent.sound ih.valid hdominators hloops

end Tracked

/-- A well-built body that passes verification passes it after every sequence of changes. Its lists
stay exact, and it stays valid; the next change does not fail while there are numbers for the blocks
that it adds. -/
theorem WellBuilt.verified_throughout {f : Body} (hf : WellBuilt f)
    (hv : f.verify.run = .ok (.ok ())) {t : Tracked} (ht : Tracked.Reworked ⟨f, none, none⟩ t) :
    t.body.verify.run = .ok (.ok ()) ∧ t.body.Consistent ∧ t.body.Valid ∧
      ∀ c : Rework, c.InRange t.body →
        (∃ t', c.apply t = .ok t' ∧ t'.body.verify.run = .ok (.ok ())) ∨
          ∃ space, c.apply t = .error (.idOverflow space) ∧
            ¬ t.body.HasRoom (c.cost t.body) := by
  have hvalid := hf.consistent.verify_iff.mp hv
  have hsound := ht.sound (Tracked.sound_bare hf.consistent hvalid)
  refine ⟨hsound.consistent.verify_iff.mpr hsound.valid, hsound.consistent, hsound.valid, ?_⟩
  intro c hin
  rcases hsound.rework_cases hin with ⟨t', hrun, hsound'⟩ | hfail
  · exact .inl ⟨t', hrun, hsound'.consistent.verify_iff.mpr hsound'.valid⟩
  · exact .inr hfail

/-- A loop that carries two values around, of which nothing but its own edge reads the first. -/
def carryingLoop : Body :=
  replayed [.createBlock, .createBlock, .createBlock,
    .addFunctionArg ⟨0⟩ .int .guaranteed, .addPhi ⟨1⟩ .int .none, .addPhi ⟨1⟩ .int .none,
    .appendInstr ⟨0⟩ (.literal .int (.int 7)),
    .setTerminator ⟨0⟩ (.br ⟨1⟩ [⟨3⟩, ⟨0⟩]),
    .setTerminator ⟨1⟩ (.condBr ⟨2⟩ ⟨1⟩ [⟨1⟩, ⟨2⟩] ⟨2⟩ []),
    .setTerminator ⟨2⟩ (.ret ⟨0⟩)]

theorem carryingLoop_feedsItself : carryingLoop.FeedsItself ⟨1⟩ 0 ⟨1⟩ := by
  have hf : carryingLoop.Consistent := (wellBuilt_replayed _).consistent
  have hread : ∀ point, ⟨1⟩ ∈ carryingLoop.operandsAt? point → point = .terminator ⟨1⟩ := by
    intro point hmem
    have husers : carryingLoop.usersOf ⟨1⟩ = [.terminator ⟨1⟩] := by cbv
    exact List.mem_singleton.mp (husers ▸ hf.uses.mem_usersOf.mpr hmem)
  have hterm : carryingLoop.terminator? ⟨1⟩ = some (.condBr ⟨2⟩ ⟨1⟩ [⟨1⟩, ⟨2⟩] ⟨2⟩ []) := by cbv
  refine ⟨fun i hmem => ?_, fun c hmem => ?_, ?_⟩
  · cases hread _ hmem
  · cases hread _ (Body.mem_operandsAt?_terminator.mpr (.inl hmem))
    rw [Body.ownOperands, hterm] at hmem
    revert hmem
    decide
  · rintro ⟨c, e⟩ args k hargs hget
    cases hread _ (Body.mem_operandsAt?_terminator.mpr
      (.inr ⟨e, args, hargs, List.mem_of_getElem? hget⟩))
    rw [Body.edgeArgs?, hterm] at hargs
    rcases e with _ | _ | e
    · cases hargs
      rcases k with _ | _ | k
      · exact ⟨rfl, by rw [Body.target?, hterm]; rfl⟩
      · cases hget
      · cases hget
    · cases hargs
      cases hget
    · cases hargs

theorem carryingLoop_verified_throughout :
    ∃ t', (Rework.erasePhi ⟨1⟩ 0 true).apply ⟨carryingLoop, none, none⟩ = .ok t' ∧
      t'.body.verify.run = .ok (.ok ()) ∧ t'.body.Valid := by
  have hf : WellBuilt carryingLoop := wellBuilt_replayed _
  have hv : carryingLoop.verify.run = .ok (.ok ()) := by cbv
  have hin : (Rework.erasePhi ⟨1⟩ 0 true).InRange carryingLoop := by
    refine ⟨⟨1⟩, by cbv, fun x hx => ?_, carryingLoop_feedsItself⟩
    have hpreds : carryingLoop.preds? ⟨1⟩ = some [⟨⟨0⟩, 0⟩, ⟨⟨1⟩, 0⟩] := by cbv
    rcases List.mem_cons.mp ((hf.consistent.edges.mem_preds hpreds).mpr hx) with rfl | hx
    · exact ⟨[⟨3⟩, ⟨0⟩], by cbv⟩
    · rw [List.mem_singleton.mp hx]
      exact ⟨[⟨1⟩, ⟨2⟩], by cbv⟩
  obtain ⟨-, -, -, hnext⟩ := WellBuilt.verified_throughout hf hv .refl
  rcases hnext _ hin with ⟨t', hrun, hverify⟩ | ⟨space, -, hroom⟩
  · obtain ⟨-, -, hvalid, -⟩ := WellBuilt.verified_throughout hf hv (.step _ .refl hin hrun)
    exact ⟨t', hrun, hverify, hvalid⟩
  · exact absurd (by cbv) hroom

end FlowGraph
