import FlowGraph.Proofs.Loop.Nesting
import FlowGraph.Proofs.Loop.Patch

/-!
Forests that are stored and kept up by hand. A block that lies in no loop can be put into one, and a
block that heads no loop can be taken out. The links between the loops stay as they were found, and
every block lies in its innermost loop, in the loops around that, and in no other.

The comparison with a fresh forest looks at innermost loops and at the loops around loops only. In
forests of this kind these settle the members of every loop.
-/

namespace FlowGraph

theorem WellBuilt.exists_loops {f : Body} {d : Dominators} (hf : WellBuilt f)
    (hd : f.dominators = .ok d) :
    ∃ entry forest, f.entry = .ok entry ∧ f.loops d = .ok forest ∧
      forest.Represents f.Arc entry := by
  obtain ⟨entry, hentry, -⟩ := bind_eq_ok.mp hd
  obtain ⟨d', hd', hdoms⟩ := hf.consistent.exists_dominators hentry
  cases hd.symm.trans hd'
  obtain ⟨forest, hforest, hrepresents⟩ := hf.consistent.exists_loops hentry hdoms
  exact ⟨entry, forest, hentry, hforest, hrepresents⟩

namespace LoopForest

variable {forest new : LoopForest} {R : BlockId → BlockId → Prop} {r b h k q x : BlockId}
  {id i j m p : LoopId} {ids : List LoopId}

/-- Every loop is the innermost one of its header, and a block lies in its innermost loop and the loops
around that. -/
structure Linked (forest : LoopForest) : Prop extends forest.Closed, forest.Wired where
  heads : ∀ {id h}, forest.header? id = some h → forest.innermost? h = some id
  mem_members : ∀ {id x},
    x ∈ forest.members id ↔ ∃ k, forest.innermost? x = some k ∧ id ∈ forest.enclosing k

theorem Represents.linked (hf : forest.Represents R r) : forest.Linked where
  toClosed := hf.closed
  toWired := hf.toWired
  heads := by
    intro id h hh
    rw [hf.innermost?_eq_some_iff]
    refine ⟨hf.header_mem_members hh, fun j hj hne => ?_⟩
    obtain ⟨k, hk⟩ := exists_header?_of_mem_members hj
    refine hf.depth_lt hk hh ((hf.mem_members hk).mp hj) ?_
    rintro rfl
    exact hne (hf.distinct hk hh)
  mem_members := by
    intro id x
    constructor
    · intro hx
      obtain ⟨h, hh⟩ := exists_header?_of_mem_members hx
      rcases hk : forest.innermost? x with _ | k
      · exact absurd ((hf.mem_members hh).mp hx) (hf.outside hk h)
      · obtain ⟨q, hq, hinner⟩ := hf.innermost hk
        exact ⟨k, rfl, (hf.mem_enclosing hh hq).mpr (hinner.inside h ((hf.mem_members hh).mp hx))⟩
    · rintro ⟨k, hk, hid⟩
      obtain ⟨q, hq, hinner⟩ := hf.innermost hk
      obtain ⟨h, hh⟩ := hf.orderly.exists_header?_of_mem_enclosing hq hid
      exact (hf.mem_members hh).mpr (hinner.inLoop_iff.mpr ((hf.mem_enclosing hh hq).mp hid))

namespace Linked

variable (hf : forest.Linked)
include hf

theorem around_eq_empty_iff : forest.around b = ∅ ↔ forest.innermost? b = none := by
  rw [Set.eq_empty_iff_forall_notMem, Option.eq_none_iff_forall_ne_some]
  constructor
  · intro hempty id hid
    obtain ⟨h, hh⟩ := hf.known hid
    exact hempty id (hf.mem_members.mpr ⟨id, hid, hf.self_mem_enclosing hh⟩)
  · intro hnone id hid
    obtain ⟨k, hk, -⟩ := hf.mem_members.mp hid
    exact hnone k hk

theorem changeAlong (id : LoopId) (g : List BlockId → List BlockId) (record : List (BlockId × LoopId))
    (hheads : ∀ {j h}, forest.header? j = some h → record.lookup h = some j)
    (hknown : ∀ {x j}, record.lookup x = some j → ∃ h, forest.header? j = some h)
    (hblocks : ∀ {j l}, forest.loop? j = some l → ∀ x,
      x ∈ (if j ∈ forest.enclosing id then g l.blocks else l.blocks) ↔
        ∃ m, record.lookup x = some m ∧ j ∈ forest.enclosing m) :
    (forest.changeAlong id g record).Linked := by
  have hheader := forest.header?_changeAlong id g record
  have hloop := forest.loop?_changeAlong id g record
  refine { hf.toOrderly.changeAlong id g record, hf.toWired.changeAlong id g record with
    known := fun hx => ?_, heads := fun hh => hheads ((hheader _).symm.trans hh), mem_members := ?_ }
  · obtain ⟨h, hh⟩ := hknown hx
    exact ⟨h, (hheader _).trans hh⟩
  · intro j x
    simp only [forest.enclosing_changeAlong id g record]
    constructor
    · rintro ⟨l, hl, hx⟩
      obtain ⟨old, hold, rfl⟩ := Option.map_eq_some_iff.mp ((hloop j).symm.trans hl)
      exact (hblocks hold x).mp hx
    · rintro ⟨m, hm, hj⟩
      obtain ⟨q, hq⟩ := hknown hm
      obtain ⟨h, hh⟩ := hf.exists_header?_of_mem_enclosing hq hj
      obtain ⟨old, hold, -⟩ := header?_eq_some.mp hh
      refine ⟨_, (hloop j).trans (by rw [hold]; rfl), ?_⟩
      exact (hblocks hold x).mpr ⟨m, hm, hj⟩

theorem mem_blocks_iff {l : Loop} (hl : forest.loop? j = some l) :
    x ∈ l.blocks ↔ ∃ m, forest.innermost? x = some m ∧ j ∈ forest.enclosing m := by
  rw [← hf.mem_members]
  constructor
  · exact fun hx => ⟨l, hl, hx⟩
  · rintro ⟨other, hother, hx⟩
    cases hl.symm.trans hother
    exact hx

theorem addBlock (hk : forest.header? id = some k) (hb : forest.around b = ∅)
    (hrun : forest.addBlock b id = .ok new) : new.Linked := by
  cases hrun.symm.trans (hf.addBlock_eq hk b)
  have hrecord := lookup_putInnermost forest.innermost b id
  have hnone := hf.around_eq_empty_iff.mp hb
  refine hf.changeAlong id (withBlock b) (putInnermost forest.innermost b id) ?_ ?_ ?_
  · intro j h hh
    rw [hrecord, if_neg]
    · exact hf.heads hh
    · rintro rfl
      cases hnone.symm.trans (hf.heads hh)
  · intro x j hx
    rw [hrecord] at hx
    split at hx
    · cases hx
      exact ⟨k, hk⟩
    · exact hf.known hx
  · intro j l hl x
    have hout : b ∉ l.blocks := by
      rw [hf.mem_blocks_iff hl, hnone]
      simp
    have hmem : x ∈ (if j ∈ forest.enclosing id then withBlock b l.blocks else l.blocks) ↔
        x ∈ l.blocks ∨ x = b ∧ j ∈ forest.enclosing id := by
      rw [withBlock, if_neg hout]
      split <;> simp [*]
    rw [hmem, hf.mem_blocks_iff hl, hrecord]
    rcases Classical.em (x = b) with rfl | hne
    · simp [hnone]
    · simp [hne, innermost?]

theorem removeBlock_cases (hb : ∀ id, forest.header? id ≠ some b) :
    forest.innermost? b = none ∧ forest.removeBlock b = .ok forest ∨
      ∃ id, forest.innermost? b = some id ∧ forest.removeBlock b =
        .ok (forest.changeAlong id (List.filter (· ≠ b)) (forest.innermost.filter (·.1 ≠ b))) := by
  rcases hid : forest.innermost? b with _ | id
  · exact .inl ⟨rfl, removeBlock_of_none hid⟩
  · obtain ⟨k, hk⟩ := hf.known hid
    have hne : k ≠ b := by
      rintro rfl
      exact hb id hk
    exact .inr ⟨id, rfl, hf.removeBlock_eq hid hk hne⟩

theorem removeBlock (hb : ∀ id, forest.header? id ≠ some b) (hrun : forest.removeBlock b = .ok new) :
    new.Linked := by
  obtain ⟨-, hsame⟩ | ⟨id, hid, hchange⟩ := hf.removeBlock_cases hb
  · cases hrun.symm.trans hsame
    exact hf
  · cases hrun.symm.trans hchange
    have hrecord := lookup_filter_ne forest.innermost b
    refine hf.changeAlong id _ (forest.innermost.filter (·.1 ≠ b)) ?_ ?_ ?_
    · intro j h hh
      rw [hrecord, if_neg]
      · exact hf.heads hh
      · rintro rfl
        exact hb j hh
    · intro x j hx
      rw [hrecord] at hx
      split at hx
      · cases hx
      · exact hf.known hx
    · intro j l hl x
      have hmem : x ∈ (if j ∈ forest.enclosing id then l.blocks.filter (· ≠ b) else l.blocks) ↔
          x ∈ l.blocks ∧ (x = b → j ∉ forest.enclosing id) := by
        split <;> simp [*]
      rw [hmem, hf.mem_blocks_iff hl, hrecord]
      rcases Classical.em (x = b) with rfl | hne
      · simp [hid]
      · simp [hne, innermost?]

end Linked

/-- A forest that was found in a well-built body, and in which blocks without a loop have been put into
loops and blocks that head none have been taken out. -/
inductive Stored : LoopForest → Prop
  | found {f : Body} {d : Dominators} {forest : LoopForest} (hf : WellBuilt f)
      (hd : f.dominators = .ok d) (hforest : f.loops d = .ok forest) : Stored forest
  | add {forest new : LoopForest} {b : BlockId} {id : LoopId} (hs : Stored forest)
      (hid : id ∈ forest.ids) (hb : forest.around b = ∅) (hrun : forest.addBlock b id = .ok new) :
      Stored new
  | remove {forest new : LoopForest} {b : BlockId} (hs : Stored forest)
      (hb : ∀ id, forest.header? id ≠ some b) (hrun : forest.removeBlock b = .ok new) : Stored new

theorem Stored.linked (hs : Stored forest) : forest.Linked := by
  induction hs with
  | found hf hd hforest =>
      obtain ⟨entry, fresh, -, hfresh, hrepresents⟩ := hf.exists_loops hd
      cases hforest.symm.trans hfresh
      exact hrepresents.linked
  | add hs hid hb hrun ih =>
      obtain ⟨k, hk⟩ := mem_ids.mp hid
      exact ih.addBlock hk hb hrun
  | remove hs hb hrun ih => exact ih.removeBlock hb hrun

/-- The loops that two forests have for the same header lie in loops with the same header. -/
def SameParents (a b : LoopForest) : Prop :=
  ∀ {i j h}, a.header? i = some h → b.header? j = some h →
    (a.parent? i).bind a.header? = (b.parent? j).bind b.header?

/-- The loops that two forests have for the same header have the same members, as far as the given
blocks go. -/
def SameMembers (blocks : BlockId → Prop) (a b : LoopForest) : Prop :=
  ∀ {i j h}, a.header? i = some h → b.header? j = some h →
    ∀ x, blocks x → (x ∈ a.members i ↔ x ∈ b.members j)

def SameHeaders (a b : LoopForest) : Prop :=
  ∀ h, (∃ i, a.header? i = some h) ↔ ∃ j, b.header? j = some h

section Compare

variable {a b : LoopForest} {blocks : BlockId → Prop}

theorem Orderly.mem_enclosing_iff (ha : a.Orderly) (hb : b.Orderly) (hsame : SameParents a b)
    (hi : a.header? i = some h) (hj : b.header? j = some h) (hm : a.header? m = some q)
    (hp : b.header? p = some q) : i ∈ a.enclosing m ↔ j ∈ b.enclosing p := by
  have hself : ∀ {m p q}, a.header? m = some q → b.header? p = some q → (i = m ↔ j = p) := by
    intro m p q hm hp
    constructor
    · rintro rfl
      cases hi.symm.trans hm
      exact hb.distinct hj hp
    · rintro rfl
      cases hj.symm.trans hp
      exact ha.distinct hi hm
  refine ha.climb_induction (Q := fun m => ∀ p q, a.header? m = some q → b.header? p = some q →
    (i ∈ a.enclosing m ↔ j ∈ b.enclosing p)) ?_ ?_ hm p q hm hp
  · intro m _ _ htop p q hm hp
    have htop' : b.parent? p = none := by
      have hnone := hsame hm hp
      rw [htop] at hnone
      rcases hp' : b.parent? p with _ | outer
      · rfl
      · obtain ⟨k, hk⟩ := hb.exists_header?_parent hp'
        rw [hp', Option.bind_some, hk] at hnone
        cases hnone
    rw [ha.enclosing_of_top hm htop, hb.enclosing_of_top hp htop', List.mem_singleton,
      List.mem_singleton]
    exact hself hm hp
  · intro m outer hparent ih p q hm hp
    obtain ⟨k, hk⟩ := ha.exists_header?_parent hparent
    have hsome := hsame hm hp
    rw [hparent, Option.bind_some, hk] at hsome
    obtain ⟨outer', hparent', hk'⟩ := Option.bind_eq_some_iff.mp hsome.symm
    rw [ha.enclosing_of_parent? hparent, hb.enclosing_of_parent? hparent', List.mem_cons,
      List.mem_cons, hself hm hp, ih outer' k hk hk']

theorem SameParents.symm (h : SameParents a b) : SameParents b a := fun hi hj => (h hj hi).symm

theorem SameMembers.symm (h : SameMembers blocks a b) : SameMembers blocks b a :=
  fun hi hj x hx => (h hj hi x hx).symm

theorem SameHeaders.symm (h : SameHeaders a b) : SameHeaders b a := fun k => (h k).symm

theorem innermostHeader?_eq_some :
    a.innermostHeader? x = some h ↔ ∃ i, a.innermost? x = some i ∧ a.header? i = some h :=
  Option.bind_eq_some_iff

theorem Linked.innermostHeader?_header (ha : a.Linked) (hi : a.header? i = some h) :
    a.innermostHeader? h = some h :=
  innermostHeader?_eq_some.mpr ⟨i, ha.heads hi, hi⟩

theorem Linked.parentHeader?_header (ha : a.Linked) (hi : a.header? i = some h) :
    a.parentHeader? h = (a.parent? i).bind a.header? := by
  rw [parentHeader?, ha.heads hi]
  rfl

/-- Innermost loops and the loops around loops settle the members of loops. -/
theorem Linked.mem_members_of_sameParents (ha : a.Linked) (hb : b.Linked)
    (hparents : SameParents a b) (hinner : a.innermostHeader? x = b.innermostHeader? x)
    (hi : a.header? i = some h) (hj : b.header? j = some h) (hx : x ∈ a.members i) :
    x ∈ b.members j := by
  obtain ⟨m, hm, him⟩ := ha.mem_members.mp hx
  obtain ⟨q, hq⟩ := ha.known hm
  rw [innermostHeader?_eq_some.mpr ⟨m, hm, hq⟩] at hinner
  obtain ⟨p, hp, hq'⟩ := innermostHeader?_eq_some.mp hinner.symm
  exact hb.mem_members.mpr
    ⟨p, hp, (ha.mem_enclosing_iff hb.toOrderly hparents hi hj hq hq').mp him⟩

/-- The members of loops and the loops around loops settle which loop is innermost. -/
theorem Linked.innermostHeader?_of_sameMembers (ha : a.Linked) (hb : b.Linked)
    (hheaders : SameHeaders a b) (hparents : SameParents a b) (hmembers : SameMembers blocks a b)
    (hx : blocks x) (hinner : a.innermostHeader? x = some q) : b.innermostHeader? x = some q := by
  obtain ⟨m, hm, hq⟩ := innermostHeader?_eq_some.mp hinner
  obtain ⟨p, hp⟩ := (hheaders q).mp ⟨m, hq⟩
  have hmem : x ∈ b.members p :=
    (hmembers hq hp x hx).mp (ha.mem_members.mpr ⟨m, hm, ha.self_mem_enclosing hq⟩)
  obtain ⟨p', hp', habove⟩ := hb.mem_members.mp hmem
  obtain ⟨q', hq'⟩ := hb.known hp'
  obtain ⟨m', hm'⟩ := (hheaders q').mpr ⟨p', hq'⟩
  have hmem' : x ∈ a.members m' :=
    (hmembers hm' hq' x hx).mpr (hb.mem_members.mpr ⟨p', hp', hb.self_mem_enclosing hq'⟩)
  obtain ⟨_, hm'', hbelow⟩ := ha.mem_members.mp hmem'
  cases hm.symm.trans hm''
  -- Each of the two loops lies in the other.
  have hback := (ha.mem_enclosing_iff hb.toOrderly hparents hq hp hm' hq').mpr habove
  obtain rfl := ha.enclosing_antisymm hq hbelow hback
  cases hq.symm.trans hm'
  exact innermostHeader?_eq_some.mpr ⟨p', hp', hq'⟩

theorem Orderly.sameHeaders (hb : b.Orderly) (hsize : a.loops.size = b.loops.size)
    (hsub : ∀ {j h}, b.header? j = some h → ∃ i, a.header? i = some h) : SameHeaders a b := by
  have hsubset : b.loops.toList.map Loop.header ⊆ a.loops.toList.map Loop.header := by
    intro h hh
    obtain ⟨j, hj⟩ := mem_map_header.mp hh
    exact mem_map_header.mpr (hsub hj)
  have hperm := (hb.nodup_headers.subperm hsubset).perm_of_length_le (by simp [hsize])
  intro h
  rw [← mem_map_header, ← mem_map_header, hperm.mem_iff]

theorem Orderly.size_eq_of_sameHeaders (ha : a.Orderly) (hb : b.Orderly) (hheaders : SameHeaders a b) :
    a.loops.size = b.loops.size := by
  have hperm := (List.perm_ext_iff_of_nodup ha.nodup_headers hb.nodup_headers).mpr fun h => by
    rw [mem_map_header, mem_map_header]
    exact hheaders h
  simpa using hperm.length_eq

/-- What the comparison looks at settles headers, parents and members, and is settled by them. -/
theorem Linked.same_iff (ha : a.Linked) (hb : b.Linked)
    (hblocks : ∀ {j h}, b.header? j = some h → blocks h) :
    (a.loops.size = b.loops.size ∧
      (∀ x, blocks x → a.innermostHeader? x = b.innermostHeader? x) ∧
      ∀ j h, b.header? j = some h → a.parentHeader? h = (b.parent? j).bind b.header?) ↔
    SameHeaders a b ∧ SameParents a b ∧ SameMembers blocks a b := by
  constructor
  · rintro ⟨hsize, hinner, hparent⟩
    have hsub : ∀ {j h}, b.header? j = some h → ∃ i, a.header? i = some h := by
      intro j h hj
      have hself := (hinner h (hblocks hj)).trans (hb.innermostHeader?_header hj)
      obtain ⟨i, -, hi⟩ := innermostHeader?_eq_some.mp hself
      exact ⟨i, hi⟩
    have hparents : SameParents a b := fun {i j h} hi hj =>
      (ha.parentHeader?_header hi).symm.trans (hparent j h hj)
    refine ⟨hb.sameHeaders hsize hsub, hparents, fun {i j h} hi hj x hx => ?_⟩
    exact ⟨ha.mem_members_of_sameParents hb hparents (hinner x hx) hi hj,
      hb.mem_members_of_sameParents ha hparents.symm (hinner x hx).symm hj hi⟩
  · rintro ⟨hheaders, hparents, hmembers⟩
    refine ⟨ha.size_eq_of_sameHeaders hb.toOrderly hheaders, fun x hx => ?_, fun j h hj => ?_⟩
    · apply Option.ext
      intro q
      exact ⟨ha.innermostHeader?_of_sameMembers hb hheaders hparents hmembers hx,
        hb.innermostHeader?_of_sameMembers ha hheaders.symm hparents.symm hmembers.symm hx⟩
    · obtain ⟨i, hi⟩ := (hheaders h).mpr ⟨j, hj⟩
      rw [ha.parentHeader?_header hi, hparents hi hj]

end Compare

end LoopForest

/-- A stored forest passes the comparison with that of a well-built body, be it its own or another,
exactly if both have the same headers and for each header the same header around it and the same
members among the live blocks. -/
theorem WellBuilt.loopStaleness_exact {f : Body} {d : Dominators} {stored : LoopForest}
    (hf : WellBuilt f) (hd : f.dominators = .ok d) (hstored : stored.Stored) :
    ∃ fresh answer, f.loops d = .ok fresh ∧ stored.staleness? f d = .ok answer ∧
      (answer = none ↔ LoopForest.SameHeaders stored fresh ∧ LoopForest.SameParents stored fresh ∧
        LoopForest.SameMembers (f.isLiveBlock · = true) stored fresh) := by
  obtain ⟨entry, fresh, hentry, hfresh, hrepresents⟩ := hf.exists_loops hd
  obtain ⟨answer, hanswer, hnone⟩ :=
    hstored.linked.toClosed.exists_staleness? hrepresents.closed hfresh
  refine ⟨fresh, answer, hfresh, hanswer, hnone.trans ?_⟩
  simp only [hf.consistent.layout.mem_iff]
  exact hstored.linked.same_iff hrepresents.linked fun hj =>
    hf.consistent.isLiveBlock_of_reaches hentry (hrepresents.heads hj).reaches

theorem Body.loops_eq {f : Body} {d : Dominators} {order : BlockOrder}
    (horder : f.blockOrder = .ok order) (latches blocks : BlockId → List BlockId)
    (hwalks : ∀ h ∈ order.reverse, f.latchesOf d h = .ok (latches h) ∧
      f.loopBlocks d h (latches h) = .ok (blocks h)) :
    f.loops d = LoopForest.ofLoops (order.reverse.foldl (fun loops header =>
      if (latches header).isEmpty then loops
      else loops.push {
        header
        blocks := (blocks header).mergeSort order.le
        parent := smallestAround loops header }) #[]) := by
  have hstep : ∀ header ∈ order.reverse, ∀ loops, addLoopOf f d order loops header =
      .ok (if (latches header).isEmpty then loops
        else loops.push {
          header
          blocks := (blocks header).mergeSort order.le
          parent := smallestAround loops header }) := by
    intro header hheader loops
    obtain ⟨hlatches, hblocks⟩ := hwalks header hheader
    simp only [addLoopOf, hlatches, hblocks, ok_bind]
    split <;> rfl
  rw [Body.loops, horder, ok_bind, foldlM_eq_ok hstep]
  rfl

def nestedTree : Dominators :=
  ⟨⟨0⟩, ⟨#[some 0, some 0, some 1, some 2, some 2, some 4, some 1, none], 0⟩⟩

def nestedForest : LoopForest where
  loops := #[⟨⟨1⟩, [⟨1⟩, ⟨2⟩, ⟨3⟩, ⟨4⟩, ⟨5⟩], none, [⟨1⟩, ⟨2⟩], 1⟩,
    ⟨⟨2⟩, [⟨2⟩, ⟨3⟩, ⟨4⟩], some ⟨0⟩, [], 2⟩, ⟨⟨5⟩, [⟨5⟩], some ⟨0⟩, [], 2⟩]
  topLevel := [⟨0⟩]
  innermost := [(⟨5⟩, ⟨2⟩), (⟨4⟩, ⟨1⟩), (⟨3⟩, ⟨1⟩), (⟨2⟩, ⟨1⟩), (⟨1⟩, ⟨0⟩)]

theorem nestedLoops_dominators : nestedLoops.dominators = .ok nestedTree := by decide +kernel

theorem nestedLoops_loops : nestedLoops.loops nestedTree = .ok nestedForest := by
  have horder : nestedLoops.blockOrder = .ok ⟨[⟨5⟩, ⟨4⟩, ⟨3⟩, ⟨2⟩, ⟨6⟩, ⟨1⟩, ⟨0⟩]⟩ := by
    decide +kernel
  rw [Body.loops_eq horder
    (fun h => if h = ⟨2⟩ then [⟨3⟩] else if h = ⟨1⟩ ∨ h = ⟨5⟩ then [⟨5⟩] else [])
    (fun h => if h = ⟨1⟩ then [⟨2⟩, ⟨3⟩, ⟨4⟩, ⟨5⟩, ⟨1⟩] else if h = ⟨2⟩ then [⟨4⟩, ⟨3⟩, ⟨2⟩] else [h])
    (by decide +kernel)]
  refine (congrArg LoopForest.ofLoops (?_ : _ = #[
    { header := ⟨1⟩, blocks := [⟨1⟩, ⟨2⟩, ⟨3⟩, ⟨4⟩, ⟨5⟩], parent := none },
    { header := ⟨2⟩, blocks := [⟨2⟩, ⟨3⟩, ⟨4⟩], parent := some ⟨0⟩ },
    { header := ⟨5⟩, blocks := [⟨5⟩], parent := some ⟨0⟩ }])).trans ?_
  · cbv
  · decide +kernel

/-- The forest of `nestedLoops` once block 4 has been taken out of its two loops. -/
def sparseForest : LoopForest where
  loops := #[⟨⟨1⟩, [⟨1⟩, ⟨2⟩, ⟨3⟩, ⟨5⟩], none, [⟨1⟩, ⟨2⟩], 1⟩,
    ⟨⟨2⟩, [⟨2⟩, ⟨3⟩], some ⟨0⟩, [], 2⟩, ⟨⟨5⟩, [⟨5⟩], some ⟨0⟩, [], 2⟩]
  topLevel := [⟨0⟩]
  innermost := [(⟨5⟩, ⟨2⟩), (⟨3⟩, ⟨1⟩), (⟨2⟩, ⟨1⟩), (⟨1⟩, ⟨0⟩)]

theorem stored_sparseForest : sparseForest.Stored := by
  have hfound : nestedForest.Stored :=
    .found (wellBuilt_replayed _) nestedLoops_dominators nestedLoops_loops
  refine hfound.remove (fun id hid => ?_) (by decide : nestedForest.removeBlock ⟨4⟩ = .ok sparseForest)
  exact absurd (LoopForest.mem_map_header.mpr ⟨id, hid⟩) (by decide)

/-- The same forest with block 4 in the inner loop again. -/
def refilledForest : LoopForest where
  loops := #[⟨⟨1⟩, [⟨1⟩, ⟨2⟩, ⟨3⟩, ⟨5⟩, ⟨4⟩], none, [⟨1⟩, ⟨2⟩], 1⟩,
    ⟨⟨2⟩, [⟨2⟩, ⟨3⟩, ⟨4⟩], some ⟨0⟩, [], 2⟩, ⟨⟨5⟩, [⟨5⟩], some ⟨0⟩, [], 2⟩]
  topLevel := [⟨0⟩]
  innermost := [(⟨4⟩, ⟨1⟩), (⟨5⟩, ⟨2⟩), (⟨3⟩, ⟨1⟩), (⟨2⟩, ⟨1⟩), (⟨1⟩, ⟨0⟩)]

/-- The same forest with block 4 in the outer loop only. -/
def misplacedForest : LoopForest where
  loops := #[⟨⟨1⟩, [⟨1⟩, ⟨2⟩, ⟨3⟩, ⟨5⟩, ⟨4⟩], none, [⟨1⟩, ⟨2⟩], 1⟩,
    ⟨⟨2⟩, [⟨2⟩, ⟨3⟩], some ⟨0⟩, [], 2⟩, ⟨⟨5⟩, [⟨5⟩], some ⟨0⟩, [], 2⟩]
  topLevel := [⟨0⟩]
  innermost := [(⟨4⟩, ⟨0⟩), (⟨5⟩, ⟨2⟩), (⟨3⟩, ⟨1⟩), (⟨2⟩, ⟨1⟩), (⟨1⟩, ⟨0⟩)]

theorem sparseForest_around : sparseForest.around ⟨4⟩ = ∅ :=
  stored_sparseForest.linked.around_eq_empty_iff.mpr rfl

theorem sparseForest_addBlock : sparseForest.addBlock ⟨4⟩ ⟨1⟩ = .ok refilledForest := by decide

/-- Put back into the inner loop, block 4 is where it was; put into the outer loop it is not. -/
theorem nestedLoops_loopStaleness_exact :
    nestedLoops.dominators = .ok nestedTree ∧ nestedLoops.loops nestedTree = .ok nestedForest ∧
      sparseForest.addBlock ⟨4⟩ ⟨1⟩ = .ok refilledForest ∧
      LoopForest.SameMembers (nestedLoops.isLiveBlock · = true) refilledForest nestedForest ∧
      sparseForest.addBlock ⟨4⟩ ⟨0⟩ = .ok misplacedForest ∧
      ¬ (LoopForest.SameHeaders misplacedForest nestedForest ∧
        LoopForest.SameParents misplacedForest nestedForest ∧
        LoopForest.SameMembers (nestedLoops.isLiveBlock · = true) misplacedForest nestedForest) := by
  have hbuilt : WellBuilt nestedLoops := wellBuilt_replayed _
  have hmisplaced : sparseForest.addBlock ⟨4⟩ ⟨0⟩ = .ok misplacedForest := by decide
  have hback : refilledForest.staleness? nestedLoops nestedTree = .ok none := by
    rw [LoopForest.staleness?, nestedLoops_loops]
    decide +kernel
  have hastray : misplacedForest.staleness? nestedLoops nestedTree =
      .ok (some (.loopMembership ⟨4⟩ (some ⟨1⟩) (some ⟨2⟩))) := by
    rw [LoopForest.staleness?, nestedLoops_loops]
    decide +kernel
  obtain ⟨fresh, answer, hfresh, hanswer, hsame⟩ :=
    WellBuilt.loopStaleness_exact hbuilt nestedLoops_dominators
      (stored_sparseForest.add (by decide) sparseForest_around sparseForest_addBlock)
  cases nestedLoops_loops.symm.trans hfresh
  cases hback.symm.trans hanswer
  obtain ⟨fresh, answer, hfresh, hanswer, hother⟩ :=
    WellBuilt.loopStaleness_exact hbuilt nestedLoops_dominators
      (stored_sparseForest.add (by decide) sparseForest_around hmisplaced)
  cases nestedLoops_loops.symm.trans hfresh
  cases hastray.symm.trans hanswer
  exact ⟨nestedLoops_dominators, nestedLoops_loops, sparseForest_addBlock, (hsame.mp rfl).2.2,
    hmisplaced, fun h => Option.some_ne_none _ (hother.mpr h)⟩

end FlowGraph
