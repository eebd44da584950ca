import FlowGraph.Edit.Split
import FlowGraph.Proofs.Loop.Forest

namespace FlowGraph.LoopForest

variable {forest new : LoopForest} {R S : BlockId → BlockId → Prop} {r b d h k m s x : BlockId}
  {id : LoopId} {ids : List LoopId} {l : Loop}

/-- Change the block lists of the given loops. -/
def modifyBlocks (forest : LoopForest) (ids : List LoopId) (g : List BlockId → List BlockId) :
    LoopForest :=
  { forest with
    loops := forest.loops.mapIdx fun n l =>
      if ⟨n⟩ ∈ ids then { l with blocks := g l.blocks } else l }

theorem loop?_modifyBlocks (forest : LoopForest) (ids : List LoopId)
    (g : List BlockId → List BlockId) (id : LoopId) :
    (forest.modifyBlocks ids g).loop? id =
      (forest.loop? id).map fun l =>
        { l with blocks := if id ∈ ids then g l.blocks else l.blocks } := by
  rw [loop?, modifyBlocks, Array.getElem?_mapIdx, loop?]
  refine congrArg (Option.map · forest.loops[id.index]?) (funext fun l => ?_)
  split <;> rfl

theorem header?_modifyBlocks (forest : LoopForest) (ids : List LoopId)
    (g : List BlockId → List BlockId) (id : LoopId) :
    (forest.modifyBlocks ids g).header? id = forest.header? id := by
  rw [header?, forest.loop?_modifyBlocks, header?]
  rcases forest.loop? id with _ | l <;> rfl

theorem foldlM_modifyBlocks {step : LoopForest → LoopId → Except Fault LoopForest}
    {g : List BlockId → List BlockId}
    (hstep : ∀ {forest : LoopForest} {id l}, forest.loop? id = some l →
      step forest id = .ok (forest.modifyBlocks [id] g))
    (hnodup : ids.Nodup) (hids : ∀ id ∈ ids, ∃ h, forest.header? id = some h) :
    ids.foldlM step forest = .ok (forest.modifyBlocks ids g) := by
  induction ids generalizing forest with
  | nil =>
      have hsame : forest.modifyBlocks [] g = forest := by
        refine eq_of_loop? (fun id => ?_) rfl rfl
        rw [loop?_modifyBlocks]
        simp
      rw [hsame]
      rfl
  | cons id ids ih =>
      rw [List.nodup_cons] at hnodup
      rw [List.forall_mem_cons] at hids
      obtain ⟨⟨h, hh⟩, hrest⟩ := hids
      obtain ⟨l, hl, -⟩ := header?_eq_some.mp hh
      rw [List.foldlM_cons, hstep hl, ok_bind, ih hnodup.2]
      · refine congrArg Except.ok (eq_of_loop? (fun j => ?_) rfl rfl)
        rw [loop?_modifyBlocks, loop?_modifyBlocks, loop?_modifyBlocks, Option.map_map]
        refine congrArg (Option.map · (forest.loop? j)) (funext fun l => ?_)
        rcases Classical.em (j = id) with rfl | hne
        · simp [hnodup.1]
        · simp [hne]
      · intro j hj
        rw [header?_modifyBlocks]
        exact hrest j hj

/-- The list with `b`, at the end if it is new. -/
def withBlock (b : BlockId) (blocks : List BlockId) : List BlockId :=
  if b ∈ blocks then blocks else blocks ++ [b]

theorem modifyLoop_eq (forest : LoopForest) (id : LoopId) (g : List BlockId → List BlockId) :
    (forest.modifyLoop id fun l => { l with blocks := g l.blocks }) = forest.modifyBlocks [id] g := by
  refine eq_of_loop? (fun j => ?_) rfl rfl
  rw [loop?_modifyLoop, loop?_modifyBlocks]
  rcases Classical.em (j = id) with rfl | hne
  · simp
  · simp [hne]

theorem modifyBlocks_congr (g g' : List BlockId → List BlockId) (hl : forest.loop? id = some l)
    (hg : g l.blocks = g' l.blocks) : forest.modifyBlocks [id] g = forest.modifyBlocks [id] g' := by
  refine eq_of_loop? (fun j => ?_) rfl rfl
  rw [forest.loop?_modifyBlocks, forest.loop?_modifyBlocks]
  rcases Classical.em (j = id) with rfl | hne
  · rw [hl, Option.map_some, Option.map_some, hg]
  · simp only [List.mem_singleton, if_neg hne]

theorem modifyBlocks_id (forest : LoopForest) (ids : List LoopId) :
    forest.modifyBlocks ids (fun blocks => blocks) = forest := by
  refine eq_of_loop? (fun j => ?_) rfl rfl
  rw [forest.loop?_modifyBlocks]
  simp

theorem enter_eq (hl : forest.loop? id = some l) (b : BlockId) :
    forest.enter b id = .ok (forest.modifyBlocks [id] (withBlock b)) := by
  rw [enter, loop_eq_ok.mpr hl, ok_bind]
  split
  · rename_i hb
    have hsame := modifyBlocks_congr (withBlock b) (fun blocks => blocks) hl
      (if_pos (of_decide_eq_true hb))
    rw [hsame, modifyBlocks_id]
    rfl
  · rename_i hb
    have happend := modifyBlocks_congr (withBlock b) (· ++ [b]) hl
      (if_neg fun hmem => hb (decide_eq_true hmem))
    rw [happend, ← modifyLoop_eq]
    rfl

theorem leave_eq (hl : forest.loop? id = some l) (b : BlockId) :
    forest.leave b id = .ok (forest.modifyBlocks [id] (List.filter (· ≠ b))) := by
  rw [leave, loop_eq_ok.mpr hl, ok_bind, ← modifyLoop_eq]
  rfl

/-- Change the lists of `id` and of the loops around it, and replace the record of innermost loops. -/
def changeAlong (forest : LoopForest) (id : LoopId) (g : List BlockId → List BlockId)
    (record : List (BlockId × LoopId)) : LoopForest :=
  (forest.modifyBlocks (forest.enclosing id) g).withRecord record

section ChangeAlong

variable (forest) (id : LoopId) (g : List BlockId → List BlockId) (record : List (BlockId × LoopId))

theorem loop?_changeAlong (j : LoopId) : (forest.changeAlong id g record).loop? j =
    (forest.loop? j).map fun l =>
      { l with blocks := if j ∈ forest.enclosing id then g l.blocks else l.blocks } :=
  forest.loop?_modifyBlocks (forest.enclosing id) g j

theorem header?_changeAlong (j : LoopId) :
    (forest.changeAlong id g record).header? j = forest.header? j :=
  forest.header?_modifyBlocks (forest.enclosing id) g j

theorem parent?_changeAlong (j : LoopId) :
    (forest.changeAlong id g record).parent? j = forest.parent? j := by
  rw [parent?, loop?_changeAlong, parent?]
  rcases forest.loop? j with _ | l <;> rfl

theorem size_changeAlong : (forest.changeAlong id g record).loops.size = forest.loops.size :=
  Array.size_mapIdx

theorem enclosing_changeAlong (j : LoopId) :
    (forest.changeAlong id g record).enclosing j = forest.enclosing j :=
  enclosing_congr (forest.size_changeAlong id g record) (forest.parent?_changeAlong id g record) j

variable {forest}

theorem Wired.changeAlong (hw : forest.Wired) : (forest.changeAlong id g record).Wired := by
  refine hw.congr (forest.size_changeAlong id g record) (forest.parent?_changeAlong id g record) rfl ?_
  intro j l hl
  obtain ⟨old, hold, rfl⟩ :=
    Option.map_eq_some_iff.mp ((forest.loop?_changeAlong id g record j).symm.trans hl)
  exact ⟨old, hold, rfl, rfl⟩

theorem Orderly.changeAlong (hf : forest.Orderly) : (forest.changeAlong id g record).Orderly := by
  have hheader := forest.header?_changeAlong id g record
  have hparent := forest.parent?_changeAlong id g record
  exact ⟨fun hi hj => hf.distinct ((hheader _).symm.trans hi) ((hheader _).symm.trans hj),
    fun hp => hf.earlier ((hparent _).symm.trans hp)⟩

end ChangeAlong

namespace Orderly

variable (hf : forest.Orderly)
include hf

theorem addBlock_eq (hk : forest.header? id = some k) (b : BlockId) : forest.addBlock b id =
    .ok (forest.changeAlong id (withBlock b) (putInnermost forest.innermost b id)) := by
  have hwalk := foldlM_modifyBlocks (fun hl => enter_eq hl b) (hf.nodup_enclosing hk)
    fun _ hj => hf.exists_header?_of_mem_enclosing hk hj
  rw [addBlock, hwalk]
  rfl

theorem removeBlock_eq (hid : forest.innermost? b = some id) (hk : forest.header? id = some k)
    (hne : k ≠ b) : forest.removeBlock b = .ok (forest.changeAlong id (List.filter (· ≠ b))
      (forest.innermost.filter (·.1 ≠ b))) := by
  have hwalk := foldlM_modifyBlocks (fun hl => leave_eq hl b) (hf.nodup_enclosing hk)
    fun _ hj => hf.exists_header?_of_mem_enclosing hk hj
  obtain ⟨l, hl, rfl⟩ := header?_eq_some.mp hk
  rw [removeBlock, hid]
  simp only [loop_eq_ok.mpr hl, ok_bind, if_neg hne, hwalk]
  rfl

end Orderly

theorem removeBlock_of_none (hid : forest.innermost? b = none) :
    forest.removeBlock b = .ok forest := by
  rw [removeBlock, hid]
  rfl

/-- The forest follows a change of the graph that touches the node `m` only. -/
theorem Represents.of_sameLoops (hf : forest.Represents R r) (hsame : SameLoops R S r m)
    (hheader : ∀ id, new.header? id = forest.header? id)
    (hparent : ∀ id, new.parent? id = forest.parent? id)
    (hblocks : ∀ {id l}, new.loop? id = some l → ∃ old, forest.loop? id = some old ∧
      ∀ x, x ∈ l.blocks ↔ if x = m then InLoop S r l.header m else x ∈ old.blocks)
    (hkept : ∀ x, x ≠ m → new.innermost? x = forest.innermost? x)
    (hinner : ∀ {id}, new.innermost? m = some id →
      ∃ h, forest.header? id = some h ∧ Innermost S r h m)
    (houtside : new.innermost? m = none → ∀ h, ¬ InLoop S r h m) (hwired : new.Wired) :
    new.Represents S r where
  toWired := hwired
  heads hh := hsame.heads_iff.mpr (hf.heads ((hheader _).symm.trans hh))
  found hh := by
    obtain ⟨id, hid⟩ := hf.found (hsame.heads_iff.mp hh)
    exact ⟨id, (hheader id).trans hid⟩
  distinct hi hj := hf.distinct ((hheader _).symm.trans hi) ((hheader _).symm.trans hj)
  mem_blocks := by
    intro id l hl x
    obtain ⟨old, hold, hmem⟩ := hblocks hl
    have hsameHeader : old.header = l.header := by
      have := hheader id
      rw [header?_of hl, header?_of hold] at this
      exact (Option.some.inj this).symm
    rw [hmem]
    split
    · rename_i hx
      rw [hx]
    · rename_i hx
      rw [hf.mem_blocks hold, hsameHeader, hsame.same hx]
  earlier hp := hf.earlier ((hparent _).symm.trans hp)
  parent := by
    intro id p h hh hp
    rw [hheader] at hh
    rw [hparent] at hp
    obtain ⟨q, hq, haround⟩ := hf.parent hh hp
    exact ⟨q, (hheader p).trans hq, hsame.innermostAround (hf.heads hh) haround⟩
  top := by
    intro id h hh hp k hk
    rw [hheader] at hh
    rw [hparent] at hp
    have hne : h ≠ m := by
      rintro rfl
      exact hsame.not_header (hf.heads hh)
    exact hf.top hh hp k ((hsame.same hne).mp hk)
  innermost := by
    intro x id hx
    rcases Classical.em (x = m) with rfl | hne
    · obtain ⟨h, hh, hin⟩ := hinner hx
      exact ⟨h, (hheader id).trans hh, hin⟩
    · rw [hkept x hne] at hx
      obtain ⟨h, hh, hin⟩ := hf.innermost hx
      exact ⟨h, (hheader id).trans hh, hsame.innermost hne hin⟩
  outside := by
    intro x hx h hin
    rcases Classical.em (x = m) with rfl | hne
    · exact houtside hx h hin
    · rw [hkept x hne] at hx
      exact hf.outside hx h ((hsame.same hne).mp hin)

theorem Represents.changeAlong (hf : forest.Represents R r) (hsame : SameLoops R S r m)
    (id : LoopId) (g : List BlockId → List BlockId) (record : List (BlockId × LoopId))
    (hblocks : ∀ {j l}, forest.loop? j = some l → ∀ x,
      x ∈ (if j ∈ forest.enclosing id then g l.blocks else l.blocks) ↔
        if x = m then InLoop S r l.header m else x ∈ l.blocks)
    (hkept : ∀ x, x ≠ m → record.lookup x = forest.innermost? x)
    (hinner : ∀ {j}, record.lookup m = some j →
      ∃ h, forest.header? j = some h ∧ Innermost S r h m)
    (houtside : record.lookup m = none → ∀ h, ¬ InLoop S r h m) :
    (forest.changeAlong id g record).Represents S r := by
  refine hf.of_sameLoops hsame (forest.header?_changeAlong id g record)
    (forest.parent?_changeAlong id g record) ?_ hkept hinner houtside
    (hf.toWired.changeAlong id g record)
  intro j l hl
  obtain ⟨old, hold, rfl⟩ :=
    Option.map_eq_some_iff.mp ((forest.loop?_changeAlong id g record j).symm.trans hl)
  exact ⟨old, hold, hblocks hold⟩

theorem Represents.exists_addBlock (hf : forest.Represents R r) (hsame : SameLoops R S r m)
    (hold : ∀ h, ¬ InLoop R r h m) (hk : forest.header? id = some k)
    (hnew : ∀ h, InLoop S r h m ↔ InLoop R r h k) :
    ∃ new, forest.addBlock m id = .ok new ∧ new.Represents S r := by
  have hrecord := lookup_putInnermost forest.innermost m id
  refine ⟨_, hf.orderly.addBlock_eq hk m, hf.changeAlong hsame id _ _ ?_ (fun x hx => ?_) ?_
    fun hm => ?_⟩
  · intro j l hl x
    have hfresh : m ∉ l.blocks := fun hm => hold l.header ((hf.mem_blocks hl m).mp hm)
    have hin : InLoop S r l.header m ↔ j ∈ forest.enclosing id := by
      rw [hnew, hf.mem_enclosing (header?_of hl) hk]
    rw [withBlock, if_neg hfresh, hin]
    rcases Classical.em (x = m) with rfl | hne
    · rw [if_pos rfl]
      split <;> simp [*]
    · rw [if_neg hne]
      split <;> simp [hne]
  · exact (hrecord x).trans (if_neg hx)
  · intro j hj
    rw [hrecord, if_pos rfl] at hj
    cases hj
    have hne : k ≠ m := by
      rintro rfl
      exact hsame.not_header (hf.heads hk)
    exact ⟨k, hk, (hnew k).mpr (hf.heads hk), fun h hh => (hsame.same hne).mpr ((hnew h).mp hh)⟩
  · rw [hrecord, if_pos rfl] at hm
    cases hm

theorem Represents.skip (hf : forest.Represents R r) (hsame : SameLoops R S r m)
    (hold : ∀ h, ¬ InLoop R r h m) (hnew : ∀ h, ¬ InLoop S r h m) : forest.Represents S r := by
  refine hf.of_sameLoops hsame (fun _ => rfl) (fun _ => rfl) ?_ (fun _ _ => rfl) ?_ (fun _ => hnew)
    hf.toWired
  · intro id l hl
    refine ⟨l, hl, fun x => ?_⟩
    split
    · rename_i hx
      rw [hx, hf.mem_blocks hl]
      exact iff_of_false (hold l.header) (hnew l.header)
    · rfl
  · intro id hid
    obtain ⟨h, -, hin⟩ := hf.innermost hid
    exact absurd hin.inLoop (hold h)

theorem Represents.exists_removeBlock (hf : forest.Represents R r) (hsame : SameLoops R S r m)
    (hnew : ∀ h, ¬ InLoop S r h m) :
    ∃ new, forest.removeBlock m = .ok new ∧ new.Represents S r := by
  rcases hid : forest.innermost? m with _ | id
  · exact ⟨forest, removeBlock_of_none hid, hf.skip hsame (hf.outside hid) hnew⟩
  · obtain ⟨k, hk, hin⟩ := hf.innermost hid
    have hheader : k ≠ m := by
      rintro rfl
      exact hsame.not_header (hf.heads hk)
    have hrecord := lookup_filter_ne forest.innermost m
    refine ⟨_, hf.orderly.removeBlock_eq hid hk hheader,
      hf.changeAlong hsame id _ _ ?_ (fun x hx => ?_) ?_ fun _ => hnew⟩
    · intro j l hl x
      have hmem : m ∈ l.blocks ↔ j ∈ forest.enclosing id := by
        rw [hf.mem_blocks hl, hin.inLoop_iff, hf.mem_enclosing (header?_of hl) hk]
      rcases Classical.em (x = m) with rfl | hne
      · rw [if_pos rfl]
        refine iff_of_false ?_ (hnew l.header)
        split <;> simp [*]
      · rw [if_neg hne]
        split <;> simp [hne]
    · exact (hrecord x).trans (if_neg hx)
    · intro j hj
      rw [hrecord, if_pos rfl] at hj
      cases hj

/-- The innermost of the loops that both ends of an edge lie in. -/
theorem Represents.loopOfEdge?_cases (hf : forest.Represents R r) (harc : R b d) :
    (∃ id k, forest.loopOfEdge? b d = .ok (some id) ∧ forest.header? id = some k ∧
      ∀ h, InLoop R r h b ∧ InLoop R r h d ↔ InLoop R r h k) ∨
    forest.loopOfEdge? b d = .ok none ∧ ∀ h, ¬ (InLoop R r h b ∧ InLoop R r h d) := by
  unfold loopOfEdge?
  rcases hb : forest.innermost? b with _ | source
  · exact .inr ⟨rfl, fun h hboth => hf.outside hb h hboth.1⟩
  rcases hd : forest.innermost? d with _ | target
  · exact .inr ⟨rfl, fun h hboth => hf.outside hd h hboth.2⟩
  obtain ⟨j, hj, hinb⟩ := hf.innermost hb
  obtain ⟨k, hk, hind⟩ := hf.innermost hd
  simp only [hinb.inLoop_iff, hind.inLoop_iff]
  rcases Classical.em (source = target) with rfl | hne
  · cases hj.symm.trans hk
    rw [if_pos rfl]
    exact .inl ⟨source, j, rfl, hj, fun h => and_self_iff⟩
  obtain ⟨inside, hinside, hkj⟩ := hf.exists_nested hk hj
  obtain ⟨around, haround, hjk⟩ := hf.exists_nested hj hk
  simp only [if_neg hne, hinside, haround, ok_bind]
  rcases inside with _ | _
  · have hkj : ¬ InLoop R r k j := fun hin => Bool.false_ne_true (hkj.mpr hin)
    rcases around with _ | _
    · -- The edge enters the loop of its target, so it does that at the header.
      have hheader : d = k := by
        by_contra hne
        exact hkj (hinb.inside k (hind.inLoop.of_arc hne harc hinb.inLoop.reaches))
      subst hheader
      have hboth : ∀ h, InLoop R r h j ∧ InLoop R r h d ↔ InLoop R r h d ∧ h ≠ d := by
        intro h
        constructor
        · rintro ⟨hhj, hhd⟩
          refine ⟨hhd, ?_⟩
          rintro rfl
          exact hkj hhj
        · rintro ⟨hhd, hne⟩
          exact ⟨hinb.inside h (hhd.of_arc hne.symm harc hinb.inLoop.reaches), hhd⟩
      obtain ⟨l, hl, -⟩ := header?_eq_some.mp hk
      simp only [hboth, loop_eq_ok.mpr hl, ok_bind, ← parent?_of hl]
      rcases hp : forest.parent? target with _ | p
      · exact .inr ⟨rfl, fun h hh => hh.2 (hf.top hk hp h hh.1)⟩
      · obtain ⟨q, hq, haround⟩ := hf.parent hk hp
        refine .inl ⟨p, q, rfl, hq, fun h => ⟨fun hh => haround.inside h hh.1 hh.2, fun hh => ?_⟩⟩
        refine ⟨hh.trans haround.inLoop, ?_⟩
        rintro rfl
        exact haround.ne (haround.inLoop.antisymm hh)
    · have hjk := hjk.mp rfl
      exact .inl ⟨source, j, rfl, hj, fun h => ⟨And.left, fun hh => ⟨hh, hh.trans hjk⟩⟩⟩
  · have hkj := hkj.mp rfl
    exact .inl ⟨target, k, rfl, hk, fun h => ⟨And.right, fun hh => ⟨hh.trans hkj, hh⟩⟩⟩

/-- The forest follows when a node is put on an arc. -/
theorem Represents.exists_afterSplit (hf : forest.Represents R r) (hdetour : Detour R S r b m d)
    (hout : S m d) : ∃ new, forest.afterSplit b m d = .ok new ∧ new.Represents S r := by
  have hsame := hdetour.sameLoops
  have hold : ∀ h, ¬ InLoop R r h m := fun h hm => hdetour.ne_of_reaches hm.reaches rfl
  unfold LoopForest.afterSplit
  rcases hf.loopOfEdge?_cases hdetour.arc with ⟨id, k, hrun, hk, hboth⟩ | ⟨hrun, hnone⟩
  · rw [hrun]
    refine hf.exists_addBlock hsame hold hk fun h => ?_
    rw [hdetour.inLoop_new_iff hout, hboth]
  · rw [hrun]
    refine ⟨forest, rfl, hf.skip hsame hold fun h hm => hnone h ?_⟩
    exact (hdetour.inLoop_new_iff hout).mp hm

end FlowGraph.LoopForest
