import Mathlib.Data.List.Perm.Basic
import FlowGraph.Proofs.Listing

/-!
What verification decides, whatever the body: one that was put together by edits, or one that was read
from outside and may be broken in any way. A body passes exactly if it is well formed, and if a block
or value that it lists more than once has no entries to compare. Verification comes to an end if the
blocks of the layout and their instructions are there.
-/

namespace FlowGraph.Body

variable {α β : Type}

theorem run_bind_eq_ok {c : Check α} {k : α → Check β} {b : β} :
    (c >>= k).run = .ok (.ok b) ↔ ∃ a, c.run = .ok (.ok a) ∧ (k a).run = .ok (.ok b) := by
  rw [ExceptT.run_bind, bind_eq_ok]
  constructor
  · rintro ⟨cause | a, hc, hk⟩
    · simp [pure, Except.pure] at hk
    · exact ⟨a, hc, hk⟩
  · rintro ⟨a, hc, hk⟩
    exact ⟨.ok a, hc, hk⟩

theorem run_pure_eq_ok {a b : α} : (pure a : Check α).run = .ok (.ok b) ↔ a = b := by
  rw [ExceptT.run_pure, pure_eq_ok, Except.ok.injEq]

theorem run_throw_ne_ok {cause : Malformation} {b : α} :
    ¬ (throw cause : Check α).run = .ok (.ok b) := by
  simp [ExceptT.run_throw, pure, Except.pure]

theorem run_lift_eq_ok {x : Except Fault α} {a : α} :
    (liftM x : Check α).run = .ok (.ok a) ↔ x = .ok a := by
  rcases x with fault | b
  · simp [liftM, monadLift, MonadLift.monadLift, ExceptT.lift, ExceptT.mk, ExceptT.run, Functor.map,
      Except.map]
  · simp [liftM, monadLift, MonadLift.monadLift, ExceptT.lift, ExceptT.mk, ExceptT.run, Functor.map,
      Except.map]

theorem run_guard_eq_ok {p : Prop} [Decidable p] {cause : Malformation} {k : α → Check β}
    {c : Check β} {b : β} :
    (if p then (throw cause : Check α) >>= k else c).run = .ok (.ok b) ↔
      ¬ p ∧ c.run = .ok (.ok b) := by
  split
  · simp [*, pure_eq_ok]
  · simp [*]

theorem run_forM_eq_ok {l : List α} {check : α → Check Unit} {u : Unit} :
    (l.forM check).run = .ok (.ok u) ↔ ∀ x ∈ l, (check x).run = .ok (.ok u) := by
  induction l with
  | nil =>
      exact iff_of_true (run_pure_eq_ok.mpr rfl) fun _ hx => absurd hx List.not_mem_nil
  | cons a l ih =>
      change (check a >>= fun _ => l.forM check).run = .ok (.ok u) ↔ _
      rw [run_bind_eq_ok, List.forall_mem_cons, ← ih]
      constructor
      · rintro ⟨_, ha, hl⟩
        exact ⟨ha, hl⟩
      · rintro ⟨ha, hl⟩
        exact ⟨(), ha, hl⟩

/-- The check comes to an end, whether it passes or not. -/
def Faultless (c : Check α) : Prop := ∃ outcome, c.run = .ok outcome

theorem faultless_pure (a : α) : Faultless (pure a) := ⟨.ok a, rfl⟩

theorem faultless_throw (cause : Malformation) : Faultless (throw cause : Check α) :=
  ⟨.error cause, rfl⟩

theorem faultless_lift {x : Except Fault α} {a : α} (hx : x = .ok a) :
    Faultless (liftM x : Check α) :=
  ⟨.ok a, run_lift_eq_ok.mpr hx⟩

theorem Faultless.bind {c : Check α} {k : α → Check β} (hc : Faultless c)
    (hk : ∀ a, c.run = .ok (.ok a) → Faultless (k a)) : Faultless (c >>= k) := by
  obtain ⟨cause | a, hrun⟩ := hc
  · exact ⟨.error cause, by rw [ExceptT.run_bind, hrun]; rfl⟩
  · obtain ⟨outcome, hnext⟩ := hk a hrun
    exact ⟨outcome, by rw [ExceptT.run_bind, hrun]; exact hnext⟩

theorem faultless_guard {p : Prop} [Decidable p] {cause : Malformation} {k : α → Check β}
    {c : Check β} (hc : ¬ p → Faultless c) :
    Faultless (if p then (throw cause : Check α) >>= k else c) := by
  split
  · exact ⟨.error cause, rfl⟩
  · exact hc ‹_›

theorem faultless_forM {l : List α} {check : α → Check Unit}
    (h : ∀ x ∈ l, Faultless (check x)) : Faultless (l.forM check) := by
  induction l with
  | nil => exact faultless_pure ()
  | cons a l ih =>
      rw [List.forall_mem_cons] at h
      exact h.1.bind fun _ _ => ih h.2

variable {f : Body} {b : BlockId} {data : Block} {t : Terminator}

/-- Whether edge `e` of a terminator delivers what the block `s` takes. -/
def Delivers (f : Body) (t : Terminator) (e : Nat) (s : BlockId) : Prop :=
  ∃ given taken, t.edgeArgs? e = some given ∧ f.args? s = some taken ∧
    given.fits taken.length = true

theorem run_verifyEdge {s : BlockId} {e : Nat} {u : Unit} :
    (f.verifyEdge b t s e).run = .ok (.ok u) ↔ f.Delivers t e s := by
  unfold verifyEdge Delivers
  rcases hs : f.block? s with _ | target
  · simp [args?, hs, pure_eq_ok]
  · simp only [run_bind_eq_ok, run_lift_eq_ok, Terminator.edgeArgs_eq_ok, args?_of hs,
      Option.some.injEq]
    constructor
    · rintro ⟨given, hgiven, hrest⟩
      refine ⟨given, _, hgiven, rfl, ?_⟩
      split at hrest
      · split at hrest
        · exact (run_throw_ne_ok hrest).elim
        · exact (run_throw_ne_ok hrest).elim
      · rename_i hfits
        simpa using hfits
    · rintro ⟨given, _, hgiven, rfl, hfits⟩
      refine ⟨given, hgiven, ?_⟩
      simp [hfits, pure_eq_ok]

theorem faultless_verifyEdge {s : BlockId} {e : Nat} (hs : t.successors[e]? = some s) :
    Faultless (f.verifyEdge b t s e) := by
  obtain ⟨given, hgiven⟩ := Option.isSome_iff_exists.mp
    ((t.isSome_edgeArgs? e).trans (Option.isSome_iff_exists.mpr ⟨s, hs⟩))
  unfold verifyEdge
  split
  · exact faultless_throw _
  · refine (faultless_lift (Terminator.edgeArgs_eq_ok.mpr hgiven)).bind fun args _ => ?_
    split
    · rcases args with values | payload
      · exact faultless_throw _
      · exact faultless_throw _
    · exact faultless_pure ()

theorem argRecorded_iff {index : Nat} {v : ValueId} :
    f.argRecorded b index v = true ↔ ∃ kind, f.origin? v = some (.argument b index kind) := by
  unfold argRecorded origin?
  rcases f.value? v with _ | ⟨type, ownership, i | ⟨b', index', kind⟩⟩ <;> simp

theorem run_verifyOperands {operands : List ValueId} {u : Unit} :
    (f.verifyOperands b operands).run = .ok (.ok u) ↔
      ∀ v ∈ operands, f.isLiveValue v = true := by
  unfold verifyOperands
  rw [run_forM_eq_ok]
  refine forall₂_congr fun v _ => ?_
  split <;> simp [*, pure_eq_ok]

theorem faultless_verifyOperands (operands : List ValueId) :
    Faultless (f.verifyOperands b operands) := by
  refine faultless_forM fun v _ => ?_
  split
  · exact faultless_pure ()
  · exact faultless_throw _

theorem run_verifyInstr {i : InstrId} {u : Unit} :
    (f.verifyInstr b i).run = .ok (.ok u) ↔
      f.holder? i = some b ∧ ∀ v ∈ f.operandsAt? (.instr i), f.isLiveValue v = true := by
  unfold verifyInstr
  simp only [run_bind_eq_ok, run_lift_eq_ok, instr_eq_ok, run_guard_eq_ok, run_verifyOperands,
    Decidable.not_not, operandsAt?, holder?]
  rcases f.instr? i with _ | instr <;> simp

theorem faultless_verifyInstr {i : InstrId} (hi : f.isLiveInstr i = true) :
    Faultless (f.verifyInstr b i) := by
  obtain ⟨instr, hinstr⟩ := Option.isSome_iff_exists.mp hi
  refine (faultless_lift (instr_eq_ok.mpr hinstr)).bind fun instr _ => ?_
  exact faultless_guard fun _ => faultless_verifyOperands _

/-- What verification asks of one block of the layout. -/
structure BlockWellFormed (f : Body) (b : BlockId) : Prop where
  terminated : ∃ t, f.terminator? b = some t
  /-- Every edge leads to a live block, and delivers what the block takes. -/
  edges : ∀ e s, f.target? ⟨b, e⟩ = some s → ∃ taken, f.args? s = some taken ∧
    ((∃ given, f.edgeArgs? ⟨b, e⟩ = some (.explicit given) ∧ given.length = taken.length) ∨
      ∃ payload, f.edgeArgs? ⟨b, e⟩ = some (.implicit payload) ∧
        payload.accepts taken.length = true)
  args : ∀ args, f.args? b = some args → ∀ index v, args[index]? = some v →
    ∃ kind, f.origin? v = some (.argument b index kind)
  instrs : ∀ instrs, f.instrs? b = some instrs → ∀ i ∈ instrs, f.holder? i = some b
  operands : ∀ point ∈ f.pointsIn b, ∀ v ∈ f.operandsAt? point, f.isLiveValue v = true

theorem delivers_iff (ht : f.terminator? b = some t) {e : Nat} {s : BlockId} :
    f.Delivers t e s ↔ ∃ taken, f.args? s = some taken ∧
      ((∃ given, f.edgeArgs? ⟨b, e⟩ = some (.explicit given) ∧ given.length = taken.length) ∨
        ∃ payload, f.edgeArgs? ⟨b, e⟩ = some (.implicit payload) ∧
          payload.accepts taken.length = true) := by
  rw [Delivers, edgeArgs?, ht, Option.bind_some]
  constructor
  · rintro ⟨given | payload, taken, hgiven, htaken, hfits⟩
    · exact ⟨taken, htaken, .inl ⟨given, hgiven, by simpa [EdgeArgs.fits] using hfits⟩⟩
    · exact ⟨taken, htaken, .inr ⟨payload, hgiven, hfits⟩⟩
  · rintro ⟨taken, htaken, ⟨given, hgiven, hlength⟩ | ⟨payload, hgiven, haccepts⟩⟩
    · exact ⟨_, taken, hgiven, htaken, by simp [EdgeArgs.fits, hlength]⟩
    · exact ⟨_, taken, hgiven, htaken, haccepts⟩

theorem forall_mem_pointsIn (hb : f.block? b = some data) (ht : data.terminator = some t)
    {P : ValueId → Prop} :
    (∀ point ∈ f.pointsIn b, ∀ v ∈ f.operandsAt? point, P v) ↔
      (∀ i ∈ data.instrs, ∀ v ∈ f.operandsAt? (.instr i), P v) ∧ ∀ v ∈ t.operands, P v := by
  simp only [pointsIn, hb, List.forall_mem_append, List.forall_mem_map, List.forall_mem_singleton,
    operandsAt?_terminator, terminator?_of hb, ht, Option.map_some, Option.getD_some]

theorem run_verifyBlock {u : Unit} :
    (f.verifyBlock b).run = .ok (.ok u) ↔ f.BlockWellFormed b := by
  unfold verifyBlock
  simp only [run_bind_eq_ok, run_lift_eq_ok, block_eq_ok]
  constructor
  · rintro ⟨data, hb, hrun⟩
    rcases ht : data.terminator with _ | t
    · rw [ht] at hrun
      exact (run_throw_ne_ok hrun).elim
    · simp only [ht, run_bind_eq_ok, run_forM_eq_ok, run_verifyEdge, run_verifyInstr,
        run_verifyOperands] at hrun
      obtain ⟨_, hedges, _, hargs, _, hinstrs, hoperands⟩ := hrun
      have hterm : f.terminator? b = some t := (terminator?_of hb).trans ht
      refine ⟨⟨t, hterm⟩, fun e s hs => ?_, fun args hsome index v hv => ?_,
        fun instrs hsome i hi => ?_, ?_⟩
      · rw [target?_of hb, Block.successors, ht] at hs
        exact (delivers_iff hterm).mp (hedges (s, e) (List.mem_zipIdx_iff_getElem?.mpr hs))
      · cases (args?_of hb).symm.trans hsome
        have hslot := hargs (v, index) (List.mem_zipIdx_iff_getElem?.mpr hv)
        split at hslot
        · exact argRecorded_iff.mp ‹_›
        · exact (run_throw_ne_ok hslot).elim
      · cases (instrs?_of hb).symm.trans hsome
        exact (hinstrs i hi).1
      · exact (forall_mem_pointsIn hb ht).mpr ⟨fun i hi => (hinstrs i hi).2, hoperands⟩
  · rintro ⟨⟨t, hterm⟩, hedges, hargs, hinstrs, hoperands⟩
    obtain ⟨data, hb, ht⟩ := terminator?_eq_some.mp hterm
    obtain ⟨hreads, hown⟩ := (forall_mem_pointsIn hb ht).mp hoperands
    refine ⟨data, hb, ?_⟩
    simp only [ht, run_bind_eq_ok, run_forM_eq_ok, run_verifyEdge, run_verifyInstr,
      run_verifyOperands]
    refine ⟨(), fun slot hslot => ?_, (), fun slot hslot => ?_, (), fun i hi => ?_, hown⟩
    · refine (delivers_iff hterm).mpr (hedges _ _ ?_)
      rw [target?_of hb, Block.successors, ht]
      exact List.mem_zipIdx_iff_getElem?.mp hslot
    · rw [if_pos (argRecorded_iff.mpr
        (hargs _ (args?_of hb) _ _ (List.mem_zipIdx_iff_getElem?.mp hslot)))]
      exact run_pure_eq_ok.mpr rfl
    · exact ⟨hinstrs _ (instrs?_of hb) i hi, hreads i hi⟩

theorem faultless_verifyBlock (hb : f.isLiveBlock b = true)
    (hinstrs : ∀ instrs, f.instrs? b = some instrs → ∀ i ∈ instrs, f.isLiveInstr i = true) :
    Faultless (f.verifyBlock b) := by
  obtain ⟨data, hdata⟩ := isLiveBlock_iff.mp hb
  refine (faultless_lift (block_eq_ok.mpr hdata)).bind fun data' hrun => ?_
  obtain rfl : data = data' :=
    Option.some.inj (hdata.symm.trans (block_eq_ok.mp (run_lift_eq_ok.mp hrun)))
  split
  · exact faultless_throw _
  · refine (faultless_forM fun slot hslot => ?_).bind fun _ _ =>
      (faultless_forM fun slot _ => ?_).bind fun _ _ =>
        (faultless_forM fun i hi => ?_).bind fun _ _ => faultless_verifyOperands _
    · exact faultless_verifyEdge (List.mem_zipIdx_iff_getElem?.mp hslot)
    · rcases slot with ⟨v, index⟩
      dsimp only
      split
      · exact faultless_pure ()
      · exact faultless_throw _
    · exact faultless_verifyInstr (hinstrs _ (instrs?_of hdata) i hi)

theorem mergeSort_eq_iff_perm {le : α → α → Bool}
    (htrans : ∀ a b c, le a b = true → le b c = true → le a c = true)
    (htotal : ∀ a b, (le a b || le b a) = true)
    (hantisymm : ∀ a b, le a b = true → le b a = true → a = b) {l m : List α} :
    l.mergeSort le = m.mergeSort le ↔ l.Perm m := by
  constructor
  · intro heq
    exact (List.mergeSort_perm l le).symm.trans (heq ▸ List.mergeSort_perm m le)
  · intro h
    have hsorted := List.pairwise_mergeSort htrans htotal
    refine List.Perm.eq_of_pairwise (fun a b _ _ => hantisymm a b) (hsorted l) (hsorted m) ?_
    exact (List.mergeSort_perm l le).trans (h.trans (List.mergeSort_perm m le).symm)

theorem sortEdges_eq_iff_perm {l m : List Edge} :
    l.mergeSort Edge.le = m.mergeSort Edge.le ↔ l.Perm m := by
  refine mergeSort_eq_iff_perm ?_ ?_ ?_
  · rintro ⟨⟨a⟩, i⟩ ⟨⟨b⟩, j⟩ ⟨⟨c⟩, k⟩ hab hbc
    simp only [Edge.le, Bool.or_eq_true, Bool.and_eq_true, decide_eq_true_eq, beq_iff_eq] at *
    omega
  · rintro ⟨⟨a⟩, i⟩ ⟨⟨b⟩, j⟩
    simp only [Edge.le, Bool.or_eq_true, Bool.and_eq_true, decide_eq_true_eq, beq_iff_eq]
    omega
  · rintro ⟨⟨a⟩, i⟩ ⟨⟨b⟩, j⟩ hab hba
    simp only [Edge.le, Bool.or_eq_true, Bool.and_eq_true, decide_eq_true_eq, beq_iff_eq,
      Edge.mk.injEq, BlockId.mk.injEq] at *
    omega

theorem sortPoints_eq_iff_perm {l m : List Point} : sortPoints l = sortPoints m ↔ l.Perm m :=
  mergeSort_eq_iff_perm Point.le_trans Point.le_total Point.le_antisymm

section Partners

variable {κ : Type} [DecidableEq κ] {key other : κ}

theorem partners_filter_ne (hne : key ≠ other) (pairs : List (κ × α)) :
    partners key (pairs.filter (·.1 ≠ other)) = partners key pairs := by
  unfold partners
  rw [List.filter_filter]
  congr 1
  refine List.filter_congr fun pair _ => ?_
  rcases Classical.em (pair.1 = key) with heq | hne'
  · simp [heq, hne]
  · simp [hne']

theorem partners_filter_self (key : κ) (pairs : List (κ × α)) :
    partners key (pairs.filter (·.1 ≠ key)) = [] := by
  simp [partners, List.filter_filter]

theorem partners_flatMap {γ : Type} (key : κ) (l : List γ) (F : γ → List (κ × α)) :
    partners key (l.flatMap F) = l.flatMap fun c => partners key (F c) := by
  simp [partners, List.filter_flatMap, List.map_flatMap]

/-- Every key has a list, of the partners of the key up to order. The list of a key that comes more
than once is empty. -/
def Indexed (lists : κ → Option (List α)) (pairs : List (κ × α)) (keys : List κ) : Prop :=
  ∀ key ∈ keys, ∃ l, lists key = some l ∧ l.Perm (partners key pairs) ∧
    (1 < keys.count key → l = [])

/-- Keys can be looked at one after the other, if the pairs of a key are dropped once it has been
looked at. -/
theorem indexed_cons {lists : κ → Option (List α)} {pairs : List (κ × α)} {keys : List κ} :
    Indexed lists pairs (key :: keys) ↔
      (∃ l, lists key = some l ∧ l.Perm (partners key pairs)) ∧
        Indexed lists (pairs.filter (·.1 ≠ key)) keys := by
  have hagain : 1 < (key :: keys).count key ↔ key ∈ keys := by
    rw [List.count_cons_self, ← List.count_pos_iff]
    omega
  constructor
  · intro h
    obtain ⟨l, hl, hperm, -⟩ := h key List.mem_cons_self
    refine ⟨⟨l, hl, hperm⟩, fun k hk => ?_⟩
    obtain ⟨l', hl', hperm', hempty⟩ := h k (List.mem_cons_of_mem _ hk)
    rcases Classical.em (k = key) with rfl | hne
    · obtain rfl := hempty (hagain.mpr hk)
      exact ⟨[], hl', partners_filter_self k pairs ▸ .refl _, fun _ => rfl⟩
    · refine ⟨l', hl', (partners_filter_ne hne pairs).symm ▸ hperm', fun hcount => hempty ?_⟩
      rwa [List.count_cons_of_ne (Ne.symm hne)]
  · rintro ⟨⟨l, hl, hperm⟩, h⟩ k hk
    rcases Classical.em (k = key) with rfl | hne
    · refine ⟨l, hl, hperm, fun hcount => ?_⟩
      obtain ⟨l', hl', hperm', -⟩ := h k (hagain.mp hcount)
      cases hl.symm.trans hl'
      rw [partners_filter_self] at hperm'
      exact hperm'.eq_nil
    · obtain ⟨l', hl', hperm', hempty⟩ := h k (List.mem_of_ne_of_mem hne hk)
      refine ⟨l', hl', partners_filter_ne hne pairs ▸ hperm', fun hcount => hempty ?_⟩
      rwa [List.count_cons_of_ne (Ne.symm hne)] at hcount

end Partners

theorem run_verifyPreds {targets : List (BlockId × Edge)} {blocks : List BlockId} {u : Unit} :
    (f.verifyPreds targets blocks).run = .ok (.ok u) ↔ Indexed f.preds? targets blocks := by
  induction blocks generalizing targets with
  | nil => exact iff_of_true (run_pure_eq_ok.mpr rfl) fun _ hb => absurd hb List.not_mem_nil
  | cons b rest ih =>
      simp only [verifyPreds, run_bind_eq_ok, run_lift_eq_ok, predecessors_eq_ok, run_guard_eq_ok,
        Decidable.not_not, sortEdges_eq_iff_perm, ih, indexed_cons, preds?_eq_some]
      constructor
      · rintro ⟨preds, hpreds, hperm, hrest⟩
        exact ⟨⟨preds, hpreds, hperm.symm⟩, hrest⟩
      · rintro ⟨⟨preds, hpreds, hperm⟩, hrest⟩
        exact ⟨preds, hpreds, hperm.symm, hrest⟩

theorem run_verifyUses {reads : List (ValueId × Point)} {values : List ValueId} {u : Unit} :
    (f.verifyUses reads values).run = .ok (.ok u) ↔
      Indexed (fun v => some (f.usersOf v)) reads values := by
  induction values generalizing reads with
  | nil => exact iff_of_true (run_pure_eq_ok.mpr rfl) fun _ hv => absurd hv List.not_mem_nil
  | cons v rest ih =>
      simp only [verifyUses, run_guard_eq_ok, Decidable.not_not, sortPoints_eq_iff_perm, ih,
        indexed_cons, Option.some.injEq, exists_eq_left', List.perm_comm]

theorem faultless_verifyPreds {targets : List (BlockId × Edge)} {blocks : List BlockId}
    (h : ∀ b ∈ blocks, f.isLiveBlock b = true) : Faultless (f.verifyPreds targets blocks) := by
  induction blocks generalizing targets with
  | nil => exact faultless_pure ()
  | cons b rest ih =>
      rw [List.forall_mem_cons] at h
      obtain ⟨data, hdata⟩ := isLiveBlock_iff.mp h.1
      refine (faultless_lift (predecessors_eq_ok.mpr ⟨data, hdata, rfl⟩)).bind fun _ _ => ?_
      exact faultless_guard fun _ => ih h.2

theorem faultless_verifyUses (reads : List (ValueId × Point)) (values : List ValueId) :
    Faultless (f.verifyUses reads values) := by
  induction values generalizing reads with
  | nil => exact faultless_pure ()
  | cons v rest ih => exact faultless_guard fun _ => ih _

def outEdges (f : Body) (b : BlockId) : List Edge :=
  (List.range ((f.terminator? b).elim 0 (·.successors.length))).map (Edge.mk b)

/-- The edges out of the blocks of the layout that lead to `b`. -/
def edgesInto (f : Body) (b : BlockId) : List Edge :=
  (f.layout.flatMap f.outEdges).filter (f.target? · = some b)

/-- The readers of `v` in the blocks of the layout, each once for every operand slot that holds `v`. -/
def slotsReading (f : Body) (v : ValueId) : List Point :=
  (f.layout.flatMap f.pointsIn).flatMap fun point =>
    List.replicate ((f.operandsAt? point).count v) point

theorem mem_outEdges {x : Edge} :
    x ∈ f.outEdges b ↔ x.block = b ∧ (f.target? x).isSome = true := by
  obtain ⟨c, e⟩ := x
  rw [outEdges, List.mem_map, target?]
  constructor
  · rintro ⟨k, hk, hx⟩
    cases hx
    refine ⟨rfl, ?_⟩
    rcases ht : f.terminator? b with _ | t
    · simp [ht] at hk
    · simpa [ht] using hk
  · rintro ⟨rfl, he⟩
    refine ⟨e, ?_, rfl⟩
    rcases ht : f.terminator? c with _ | t
    · simp [ht] at he
    · simpa [ht] using he

theorem perm_partners_edgeTargets (f : Body) (b : BlockId) :
    (partners b f.edgeTargets).Perm (f.edgesInto b) := by
  rw [edgeTargets, partners_flatMap, edgesInto, List.filter_flatMap]
  refine List.Perm.flatMap_left _ fun c _ => ?_
  rw [List.perm_iff_count]
  intro x
  have hnodup : ((f.outEdges c).filter (f.target? · = some b)).Nodup := by
    refine List.Nodup.filter _ (List.nodup_range.map ?_)
    intro k l hkl
    exact (Edge.mk.inj hkl).2
  rw [count_partners, count_edgesFrom, hnodup.count]
  refine if_congr ?_ rfl rfl
  rw [List.mem_filter, mem_outEdges, decide_eq_true_eq]
  constructor
  · rintro ⟨hblock, hx⟩
    exact ⟨⟨hblock, Option.isSome_iff_exists.mpr ⟨b, hx⟩⟩, hx⟩
  · rintro ⟨⟨hblock, -⟩, hx⟩
    exact ⟨hblock, hx⟩

theorem partners_operandReads (f : Body) (v : ValueId) :
    partners v f.operandReads = f.slotsReading v := by
  have hreads : ∀ point, partners v (f.readsAt point) =
      List.replicate ((f.operandsAt? point).count v) point := by
    intro point
    rw [List.eq_replicate_iff]
    constructor
    · rw [partners, readsAt, List.length_map, List.filter_map, List.length_map, List.count,
        List.countP_eq_length_filter]
      rfl
    · intro other hother
      simp only [partners, readsAt, List.mem_map, List.mem_filter] at hother
      obtain ⟨_, ⟨⟨w, -, rfl⟩, -⟩, rfl⟩ := hother
      rfl
  rw [operandReads, ← List.flatMap_assoc, partners_flatMap, slotsReading]
  exact List.flatMap_congr fun point _ => hreads point

theorem mem_definedIn {v : ValueId} :
    v ∈ f.definedIn b ↔ (∃ args, f.args? b = some args ∧ v ∈ args) ∨
      ∃ instrs, f.instrs? b = some instrs ∧ ∃ i ∈ instrs, f.result? i = some v := by
  unfold definedIn
  rcases hb : f.block? b with _ | data
  · simp [args?, instrs?, hb]
  · simp [args?_of hb, instrs?_of hb, result?]

/-- What verification asks of a body that lists no block and no value twice. -/
structure WellFormed (f : Body) : Prop where
  nonempty : f.layout ≠ []
  blocks : ∀ b ∈ f.layout, f.BlockWellFormed b
  entry_free : ∀ b, f.entry = .ok b → f.preds? b = some []
  preds : ∀ b ∈ f.layout, ∃ preds, f.preds? b = some preds ∧ preds.Perm (f.edgesInto b)
  users : ∀ b ∈ f.layout, ∀ v ∈ f.definedIn b, (f.usersOf v).Perm (f.slotsReading v)

/-- A block of the layout, or a value that is defined in one, that comes more than once has no entries
in its list. -/
structure RepeatsIdle (f : Body) : Prop where
  preds : ∀ b, 1 < f.layout.count b → f.preds? b = some []
  users : ∀ v, 1 < (f.layout.flatMap f.definedIn).count v → f.usersOf v = []

theorem indexed_preds_iff :
    Indexed f.preds? f.edgeTargets f.layout ↔
      (∀ b ∈ f.layout, ∃ preds, f.preds? b = some preds ∧ preds.Perm (f.edgesInto b)) ∧
        ∀ b, 1 < f.layout.count b → f.preds? b = some [] := by
  constructor
  · intro h
    refine ⟨fun b hb => ?_, fun b hcount => ?_⟩
    · obtain ⟨preds, hpreds, hperm, -⟩ := h b hb
      exact ⟨preds, hpreds, hperm.trans (perm_partners_edgeTargets f b)⟩
    · obtain ⟨preds, hpreds, -, hempty⟩ := h b (List.count_pos_iff.mp (by omega))
      rw [hpreds, hempty hcount]
  · rintro ⟨hpreds, hrepeats⟩ b hb
    obtain ⟨preds, hsome, hperm⟩ := hpreds b hb
    refine ⟨preds, hsome, hperm.trans (perm_partners_edgeTargets f b).symm, fun hcount => ?_⟩
    exact Option.some.inj (hsome.symm.trans (hrepeats b hcount))

theorem indexed_users_iff :
    Indexed (fun v => some (f.usersOf v)) f.operandReads (f.layout.flatMap f.definedIn) ↔
      (∀ b ∈ f.layout, ∀ v ∈ f.definedIn b, (f.usersOf v).Perm (f.slotsReading v)) ∧
        ∀ v, 1 < (f.layout.flatMap f.definedIn).count v → f.usersOf v = [] := by
  simp only [Indexed, Option.some.injEq, exists_eq_left', partners_operandReads]
  constructor
  · intro h
    refine ⟨fun b hb v hv => (h v (List.mem_flatMap.mpr ⟨b, hb, hv⟩)).1, fun v hcount => ?_⟩
    exact (h v (List.count_pos_iff.mp (by omega))).2 hcount
  · rintro ⟨husers, hrepeats⟩ v hv
    obtain ⟨b, hb, hv⟩ := List.mem_flatMap.mp hv
    exact ⟨husers b hb v hv, hrepeats v⟩

/-- A body passes verification exactly if it is well formed, and nothing that it repeats has entries in
its list. -/
theorem verify_iff :
    f.verify.run = .ok (.ok ()) ↔ f.WellFormed ∧ f.RepeatsIdle := by
  unfold verify
  simp only [run_bind_eq_ok, run_guard_eq_ok, run_forM_eq_ok, run_lift_eq_ok, run_verifyBlock,
    run_verifyPreds, run_verifyUses, indexed_preds_iff, indexed_users_iff, predecessors_eq_ok,
    ← preds?_eq_some, List.isEmpty_iff, Bool.not_eq_true', Bool.not_eq_false]
  constructor
  · rintro ⟨hnonempty, _, hblocks, entry, hentry, incoming, hincoming, rfl, _,
      ⟨hpreds, hidle⟩, husers, hunread⟩
    refine ⟨⟨hnonempty, hblocks, fun b hb => ?_, hpreds, husers⟩, hidle, hunread⟩
    cases hentry.symm.trans hb
    exact hincoming
  · rintro ⟨⟨hnonempty, hblocks, hentry, hpreds, husers⟩, hidle, hunread⟩
    obtain ⟨entry, rest, hlayout⟩ := List.exists_cons_of_ne_nil hnonempty
    have hfirst : f.entry = .ok entry := entry_eq_ok.mpr ⟨rest, hlayout⟩
    exact ⟨hnonempty, (), hblocks, entry, hfirst, [], hentry entry hfirst, rfl, (),
      ⟨hpreds, hidle⟩, husers, hunread⟩

theorem faultless_verify (hblocks : ∀ b ∈ f.layout, f.isLiveBlock b = true)
    (hinstrs : ∀ b ∈ f.layout, ∀ instrs, f.instrs? b = some instrs →
      ∀ i ∈ instrs, f.isLiveInstr i = true) : Faultless f.verify := by
  refine faultless_guard fun hnonempty => ?_
  obtain ⟨entry, rest, hlayout⟩ := List.exists_cons_of_ne_nil
    (fun hempty => hnonempty (List.isEmpty_iff.mpr hempty))
  obtain ⟨data, hdata⟩ := isLiveBlock_iff.mp (hblocks entry (hlayout ▸ List.mem_cons_self))
  refine (faultless_forM fun b hb => faultless_verifyBlock (hblocks b hb) (hinstrs b hb)).bind
    fun _ _ => (faultless_lift (entry_eq_ok.mpr ⟨rest, hlayout⟩)).bind fun first hfirst => ?_
  cases (run_lift_eq_ok.mp hfirst).symm.trans (entry_eq_ok.mpr ⟨rest, hlayout⟩)
  refine (faultless_lift (predecessors_eq_ok.mpr ⟨data, hdata, rfl⟩)).bind fun _ _ => ?_
  refine faultless_guard fun _ => (faultless_verifyPreds hblocks).bind fun _ _ => ?_
  exact faultless_verifyUses _ _

theorem repeatsIdle_of_nodup (hlayout : f.layout.Nodup)
    (hdefined : (f.layout.flatMap f.definedIn).Nodup) : f.RepeatsIdle where
  preds b hcount := absurd (List.nodup_iff_count_le_one.mp hlayout b) (Nat.not_le.mpr hcount)
  users v hcount := absurd (List.nodup_iff_count_le_one.mp hdefined v) (Nat.not_le.mpr hcount)

end FlowGraph.Body
