import FlowGraph.Program
import FlowGraph.Snapshot.Read
import FlowGraph.Snapshot.Write
import FlowGraph.Proofs.Identity
import FlowGraph.Proofs.Ssa.Basic

/-!
Which bodies a dominator tree answers for, over whole sessions in which bodies are made, copied, read
in and changed, and trees made and kept up to date. The identities of the bodies in a session stay
distinct, and a tree keeps that of the body it was made for; so it refuses all other bodies. One kind of
question gets by the refusal, that whether something properly dominates itself: it is settled before
the body is looked at.
-/

namespace FlowGraph

/-- The changes of one body that are made without regard to its analyses. -/
inductive Change where
  | edit (step : Edit)
  | redirect (b : BlockId) (e : Nat) (dest : BlockId) (keepArgs : Bool)
  | redirectAll (b old new : BlockId) (keepArgs : Bool)
  | forwardArgs (b : BlockId) (e : Nat) (via : BlockId)
  | mergeBlocks
  | erasePhi (b : BlockId) (index : Nat) (clean : Bool)
  deriving DecidableEq, Repr

namespace Change

def apply (f : Body) : Change → Except Fault Body
  | edit step => step.apply f
  | redirect b e dest keepArgs => f.redirect b e dest keepArgs
  | redirectAll b old new keepArgs => f.redirectAll b old new keepArgs
  | forwardArgs b e via => return (← f.forwardedArgs b e via).2
  | mergeBlocks => return (← f.mergeBlocks).2
  | erasePhi b index clean => f.erasePhi b index clean

theorem id_apply {f : Body} {n : BodyId} (h : f.id = n) (c : Change) :
    Yields (·.id = n) (c.apply f) := by
  cases c with
  | edit step => exact step.id_apply h
  | redirect b e dest keepArgs => exact Body.id_redirect h keepArgs
  | redirectAll b old new keepArgs => exact Body.id_redirectAll h old keepArgs
  | forwardArgs b e via => exact .bind (Body.id_forwardedArgs h) fun _ h => .pure h
  | mergeBlocks => exact .bind (Body.id_mergeEach h _) fun _ h => .pure h
  | erasePhi b index clean => exact Body.id_erasePhi h index clean

end Change

namespace Program

def ids (p : Program) : List BodyId := p.bodies.map Body.id

theorem ids_set {p : Program} {slot : Nat} {f g : Body} (hf : p.body? slot = some f)
    (hid : g.id = f.id) : (p.set slot g).ids = p.ids := by
  rw [ids, set, List.map_set, hid]
  apply List.ext_getElem?
  intro n
  rw [List.getElem?_set]
  split
  · rename_i heq
    subst heq
    have hid := congrArg (Option.map Body.id) hf
    rw [body?, ← List.getElem?_map] at hid
    rw [if_pos (List.getElem?_eq_some_iff.mp hid).1]
    exact hid.symm
  · rfl

theorem ids_sweep {p : Program} {edit : Body → Except Fault (Bool × Body)}
    (hedit : ∀ f, Yields (fun r => r.2.id = f.id) (edit f)) :
    Yields (fun r => r.2.ids = p.ids ∧ r.2.issued = p.issued) (p.sweep edit) := by
  have hmap : ∀ bodies : List Body,
      Yields (fun rs => rs.map (·.2.id) = bodies.map Body.id) (bodies.mapM edit) := by
    intro bodies
    induction bodies with
    | nil => exact .pure rfl
    | cons f rest ih =>
        rw [List.mapM_cons]
        refine .bind (hedit f) fun r hr => .bind ih fun rs hrs => .pure ?_
        rw [List.map_cons, List.map_cons, hr, hrs]
  refine .bind (hmap p.bodies) fun rs hrs => .pure ⟨?_, rfl⟩
  rw [ids, List.map_map]
  exact hrs

theorem ids_mergeBlocks (p : Program) :
    Yields (fun r => r.2.ids = p.ids ∧ r.2.issued = p.issued) p.mergeBlocks :=
  ids_sweep fun _ => Body.id_mergeEach rfl _

theorem ids_splitCriticalEdges (p : Program) :
    Yields (fun r => r.2.ids = p.ids ∧ r.2.issued = p.issued) p.splitCriticalEdges := by
  refine ids_sweep fun f => ?_
  have hbelongs : Tracked.Belongs f.id none { body := f } := ⟨rfl, rfl⟩
  exact .bind (hbelongs.splitCriticalFrom _) fun _ h => .pure h.body

end Program

/-- Bodies, and the dominator trees that were made of them. -/
structure Session where
  program : Program := {}
  /-- Each tree comes with the slot of the body that it was made for. -/
  trees : List (Nat × Dominators) := []

namespace Session

variable {s s' : Session} {slot other : Nat} {d : Dominators} {f g : Body}

/-- What can happen in a session. Bodies are made, copied and read in, changed one by one or all at a
time. Trees are made, changed by hand, and kept in step with a body. A tree that is changed stays in
the session as it was, as somebody may have a copy of it. -/
inductive Step (s : Session) : Session → Prop
  | create (name : String) : Step s ⟨(s.program.add (.empty s.program.nextId name)).2, s.trees⟩
  | copy {slot : Nat} {f : Body} (hf : s.program.body? slot = some f) :
      Step s ⟨(s.program.add f).2, s.trees⟩
  | load {datum : Datum} {f : Body} (hf : Body.ofDatum? s.program.nextId datum = some f) :
      Step s ⟨(s.program.add f).2, s.trees⟩
  | change {slot : Nat} {f g : Body} (c : Change) (hf : s.program.body? slot = some f)
      (hrun : c.apply f = .ok g) : Step s ⟨s.program.set slot g, s.trees⟩
  | mergeBlocks {count : Nat} {p : Program} (hrun : s.program.mergeBlocks = .ok (count, p)) :
      Step s ⟨p, s.trees⟩
  | splitCriticalEdges {count : Nat} {p : Program}
      (hrun : s.program.splitCriticalEdges = .ok (count, p)) : Step s ⟨p, s.trees⟩
  | analyse {slot : Nat} {f : Body} {d : Dominators} (hf : s.program.body? slot = some f)
      (hd : f.dominators = .ok d) : Step s ⟨s.program, (slot, d) :: s.trees⟩
  | insert {slot : Nat} {d d' : Dominators} {b idom : BlockId} (hd : (slot, d) ∈ s.trees)
      (hrun : d.insert b idom = .ok d') : Step s ⟨s.program, (slot, d') :: s.trees⟩
  | reparent {slot : Nat} {d d' : Dominators} {b idom : BlockId} (hd : (slot, d) ∈ s.trees)
      (hrun : d.reparent b idom = .ok d') : Step s ⟨s.program, (slot, d') :: s.trees⟩
  | erase {slot : Nat} {d : Dominators} (b : BlockId) (hd : (slot, d) ∈ s.trees) :
      Step s ⟨s.program, (slot, d.erase b) :: s.trees⟩
  | reshape {slot : Nat} {f : Body} {loops : Option LoopForest} {t : Tracked} (c : Reshape)
      (hf : s.program.body? slot = some f) (hrun : c.apply ⟨f, none, loops⟩ = .ok t) :
      Step s ⟨s.program.set slot t.body, s.trees⟩
  | follow {slot home : Nat} {f : Body} {d d' : Dominators} {loops : Option LoopForest} {t : Tracked}
      (c : Reshape) (hf : s.program.body? slot = some f) (hd : (home, d) ∈ s.trees)
      (hrun : c.apply ⟨f, some d, loops⟩ = .ok t) (hd' : t.dominators = some d') :
      Step s ⟨s.program.set slot t.body, (home, d') :: s.trees⟩

/-- The sessions that a run from the empty session leads to. -/
inductive Reached : Session → Prop
  | start : Reached {}
  | step {s s' : Session} (hs : Reached s) (hstep : Step s s') : Reached s'

/-- The identities of the bodies are distinct and have all been given out, and every tree has that of
the body it was made for. -/
structure Sound (s : Session) : Prop where
  issued : ∀ n ∈ s.program.ids, n.serial < s.program.issued
  nodup : s.program.ids.Nodup
  owner : ∀ slot d, (slot, d) ∈ s.trees → s.program.ids[slot]? = some d.owner

namespace Sound

theorem add (h : s.Sound) (f : Body) : Sound ⟨(s.program.add f).2, s.trees⟩ := by
  have hids : (s.program.add f).2.ids = s.program.ids ++ [s.program.nextId] := List.map_append
  refine ⟨fun n hn => ?_, ?_, fun slot d hd => ?_⟩
  · rw [hids, List.mem_append, List.mem_singleton] at hn
    rcases hn with hn | rfl
    · exact Nat.lt_succ_of_lt (h.issued n hn)
    · exact Nat.lt_succ_self _
  · rw [hids, List.nodup_append]
    refine ⟨h.nodup, List.nodup_singleton _, fun n hn m hm => ?_⟩
    rw [List.mem_singleton] at hm
    rintro rfl
    -- the next identity is not among those below the counter
    exact Nat.lt_irrefl _ (hm ▸ h.issued n hn : s.program.nextId.serial < s.program.issued)
  · have howner := h.owner slot d hd
    rw [hids, List.getElem?_append_left (List.getElem?_eq_some_iff.mp howner).1]
    exact howner

theorem of_ids (h : s.Sound) {p : Program} (hids : p.ids = s.program.ids)
    (hissued : p.issued = s.program.issued) : Sound ⟨p, s.trees⟩ := by
  refine ⟨fun n hn => ?_, hids ▸ h.nodup, fun slot d hd => ?_⟩
  · exact hissued ▸ h.issued n (hids ▸ hn)
  · exact (congrArg (·[slot]?) hids).trans (h.owner slot d hd)

theorem set (h : s.Sound) (hf : s.program.body? slot = some f) (hid : g.id = f.id) :
    Sound ⟨s.program.set slot g, s.trees⟩ :=
  h.of_ids (Program.ids_set hf hid) rfl

theorem tree (h : s.Sound) (howner : s.program.ids[slot]? = some d.owner) :
    Sound ⟨s.program, (slot, d) :: s.trees⟩ := by
  refine ⟨h.issued, h.nodup, fun n e he => ?_⟩
  rcases List.mem_cons.mp he with heq | he
  · cases heq
    exact howner
  · exact h.owner n e he

theorem step (h : s.Sound) (hstep : Step s s') : s'.Sound := by
  cases hstep with
  | create name => exact h.add _
  | copy hf => exact h.add _
  | load hf => exact h.add _
  | change c hf hrun => exact h.set hf (c.id_apply rfl _ hrun)
  | mergeBlocks hrun =>
      obtain ⟨hids, hissued⟩ := Program.ids_mergeBlocks _ _ hrun
      exact h.of_ids hids hissued
  | splitCriticalEdges hrun =>
      obtain ⟨hids, hissued⟩ := Program.ids_splitCriticalEdges _ _ hrun
      exact h.of_ids hids hissued
  | @analyse slot f d hf hd =>
      refine h.tree ?_
      rw [Body.owner_of_dominators hd, Program.ids, List.getElem?_map]
      exact congrArg (Option.map Body.id) hf
  | insert hd hrun => exact h.tree (Dominators.owner_insert rfl _ hrun ▸ h.owner _ _ hd)
  | reparent hd hrun => exact h.tree (Dominators.owner_reparent rfl _ hrun ▸ h.owner _ _ hd)
  | erase b hd =>
      have howner := h.owner _ _ hd
      exact h.tree howner
  | reshape c hf hrun =>
      have hbelongs := Tracked.Belongs.apply ⟨rfl, rfl⟩ c _ hrun
      exact h.set hf hbelongs.body
  | @follow slot home f d d' loops t c hf hd hrun hd' =>
      have hbelongs := Tracked.Belongs.apply ⟨rfl, rfl⟩ c _ hrun
      have howner : d'.owner = d.owner := by simpa [hd'] using hbelongs.tree
      refine tree (h.set hf hbelongs.body) ?_
      rw [Program.ids_set hf hbelongs.body, howner]
      exact h.owner _ _ hd

end Sound

theorem Reached.sound (h : s.Reached) : s.Sound := by
  induction h with
  | start =>
      refine ⟨fun n hn => ?_, List.nodup_nil, fun slot d hd => ?_⟩
      · exact absurd hn List.not_mem_nil
      · exact absurd hd List.not_mem_nil
  | step _ hstep ih => exact ih.step hstep

theorem Sound.body_of_tree (h : s.Sound) (hd : (slot, d) ∈ s.trees) :
    ∃ f, s.program.body? slot = some f ∧ d.owner = f.id := by
  have howner := h.owner slot d hd
  rw [Program.ids, List.getElem?_map, Option.map_eq_some_iff] at howner
  obtain ⟨f, hf, hid⟩ := howner
  exact ⟨f, hf, hid.symm⟩

theorem Sound.owner_ne (h : s.Sound) (hd : (slot, d) ∈ s.trees) (hg : s.program.body? other = some g)
    (hne : other ≠ slot) : d.owner ≠ g.id := by
  intro heq
  have hother : s.program.ids[other]? = some g.id := by
    rw [Program.ids, List.getElem?_map]
    exact congrArg (Option.map Body.id) hg
  have hsame : s.program.ids[other]? = s.program.ids[slot]? := by
    rw [hother, h.owner slot d hd, heq]
  exact hne ((List.getElem?_inj (List.getElem?_eq_some_iff.mp hother).1 h.nodup).mp hsame)

end Session

namespace Dominators

variable {d : Dominators} {g : Body} (hforeign : d.owner ≠ g.id)
include hforeign

theorem pointDominates_foreign (a b : Point) :
    d.pointDominates g a b = .error (.foreignBody d.owner g.name g.id) := by
  rw [pointDominates, requireOwner, if_neg hforeign]
  rfl

theorem pointProperlyDominates_foreign {a b : Point} {answer : Bool} :
    d.pointProperlyDominates g a b = .ok answer ↔ a = b ∧ answer = false := by
  rw [pointProperlyDominates, pointDominates_foreign hforeign]
  split
  · rename_i heq
    simp [heq, eq_comm]
  · rename_i hne
    simp [hne]

theorem valueDominates_foreign (v : ValueId) (point : Point) :
    ∃ fault, d.valueDominates g v point = .error fault := by
  rw [valueDominates]
  rcases g.value v with fault | value
  · exact ⟨fault, rfl⟩
  · refine ⟨.foreignBody d.owner g.name g.id, ?_⟩
    rw [ok_bind]
    split
    · exact pointDominates_foreign hforeign _ _
    · rw [requireOwner, if_neg hforeign]
      rfl

theorem valueProperlyDominates_foreign {v : ValueId} {point : Point} {answer : Bool} :
    d.valueProperlyDominates g v point = .ok answer ↔
      answer = false ∧ ∃ i, g.origin? v = some (.result i) ∧ point = .instr i := by
  rw [valueProperlyDominates, bind_eq_ok]
  constructor
  · rintro ⟨value, hvalue, hanswer⟩
    split at hanswer
    · rename_i i horigin
      obtain ⟨hpoint, rfl⟩ := (pointProperlyDominates_foreign hforeign).mp hanswer
      have hresult := Body.origin?_eq_some.mpr ⟨value, Body.value_eq_ok.mp hvalue, horigin⟩
      exact ⟨rfl, i, hresult, hpoint.symm⟩
    · obtain ⟨fault, hfault⟩ := valueDominates_foreign hforeign v point
      rw [hfault] at hanswer
      cases hanswer
  · rintro ⟨rfl, i, horigin, rfl⟩
    obtain ⟨value, hvalue, hresult⟩ := Body.origin?_eq_some.mp horigin
    refine ⟨value, Body.value_eq_ok.mpr hvalue, ?_⟩
    rw [hresult]
    exact (pointProperlyDominates_foreign hforeign).mpr ⟨rfl, rfl⟩

end Dominators

/-- In every session a tree takes the body that it was made for and faults on all other bodies, also on
copies of its own. Only whether a point properly dominates itself, or a result its own instruction, is
answered for any body; the answer is no. -/
theorem Session.Reached.foreign_answers {s : Session} (h : s.Reached) {slot other : Nat}
    {d : Dominators} {g : Body} (hd : (slot, d) ∈ s.trees) (hg : s.program.body? other = some g)
    (hne : other ≠ slot) :
    (∃ f, s.program.body? slot = some f ∧ d.requireOwner f = .ok ()) ∧
    (∀ a b, d.pointDominates g a b = .error (.foreignBody d.owner g.name g.id)) ∧
    (∀ v point, ∃ fault, d.valueDominates g v point = .error fault) ∧
    (∀ a b answer, d.pointProperlyDominates g a b = .ok answer ↔ a = b ∧ answer = false) ∧
    ∀ v point answer, d.valueProperlyDominates g v point = .ok answer ↔
      answer = false ∧ ∃ i, g.origin? v = some (.result i) ∧ point = .instr i := by
  obtain ⟨f, hf, howner⟩ := h.sound.body_of_tree hd
  have hforeign := h.sound.owner_ne hd hg hne
  refine ⟨⟨f, hf, if_pos howner⟩, fun a b => ?_, fun v point => ?_, fun a b answer => ?_,
    fun v point answer => ?_⟩
  · exact Dominators.pointDominates_foreign hforeign a b
  · exact Dominators.valueDominates_foreign hforeign v point
  · exact Dominators.pointProperlyDominates_foreign hforeign
  · exact Dominators.valueProperlyDominates_foreign hforeign

def stump (n : BodyId) : Body where
  id := n
  name := "stump"
  blocks := ⟨#[some { instrs := [⟨0⟩], terminator := some .unreachable }]⟩
  layout := [⟨0⟩]
  instrs := ⟨#[some ⟨.literal .int (.int 1), ⟨0⟩, some ⟨0⟩⟩]⟩
  values := ⟨#[some ⟨.int, .none, .result ⟨0⟩⟩]⟩
  useIndex := ⟨#[[]]⟩

def stumpTree : Dominators := ⟨⟨0⟩, ⟨#[some 0], 0⟩⟩

/-- A body is read in, its tree is made, and it is copied. -/
def twins : Session := ⟨⟨[stump ⟨0⟩, stump ⟨1⟩], 2⟩, [(0, stumpTree)]⟩

theorem reached_twins : twins.Reached := by
  have hread : Body.ofDatum? ⟨0⟩ (stump ⟨0⟩).toDatum = some (stump ⟨0⟩) := by decide +kernel
  have hload : Session.Reached ⟨⟨[stump ⟨0⟩], 1⟩, []⟩ := .step .start (.load (s := {}) hread)
  have htree : (stump ⟨0⟩).dominators = .ok stumpTree := by decide +kernel
  have hanalyse : Session.Reached ⟨⟨[stump ⟨0⟩], 1⟩, [(0, stumpTree)]⟩ :=
    .step hload (.analyse rfl htree)
  exact .step hanalyse (.copy (f := stump ⟨0⟩) (rfl : Program.body? _ 0 = _))

theorem twins_foreign_answers :
    twins.program.body? 1 = some (stump ⟨1⟩) ∧
      stumpTree.pointDominates (stump ⟨1⟩) (.instr ⟨0⟩) (.terminator ⟨0⟩) =
        .error (.foreignBody ⟨0⟩ "stump" ⟨1⟩) ∧
      ∀ answer, stumpTree.pointProperlyDominates (stump ⟨1⟩) (.instr ⟨0⟩) (.terminator ⟨0⟩) ≠
        .ok answer := by
  have htree : (0, stumpTree) ∈ twins.trees := by decide
  have hcopy : twins.program.body? 1 = some (stump ⟨1⟩) := rfl
  obtain ⟨-, hpoints, -, hproper, -⟩ :=
    Session.Reached.foreign_answers reached_twins htree hcopy (by decide)
  refine ⟨hcopy, hpoints _ _, fun answer hanswer => ?_⟩
  exact absurd ((hproper _ _ _).mp hanswer).1 (by decide)

/-- The tree of a body answers for a copy of the body. -/
theorem twins_answered : twins.Reached ∧ (0, stumpTree) ∈ twins.trees ∧
    twins.program.body? 1 = some (stump ⟨1⟩) ∧ stumpTree.owner ≠ (stump ⟨1⟩).id ∧
    stumpTree.pointProperlyDominates (stump ⟨1⟩) (.terminator ⟨0⟩) (.terminator ⟨0⟩) = .ok false ∧
    stumpTree.valueProperlyDominates (stump ⟨1⟩) ⟨0⟩ (.instr ⟨0⟩) = .ok false :=
  ⟨reached_twins, by decide, rfl, by decide, rfl, rfl⟩

end FlowGraph
