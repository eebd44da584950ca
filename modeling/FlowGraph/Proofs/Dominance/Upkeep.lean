import FlowGraph.Proofs.Dominance.Iteration
import FlowGraph.Proofs.Dominance.Patch
import FlowGraph.Proofs.Dominance.Rooted

/-!
Dominator trees that are kept up by hand. A tree that was made from a body, and to which leaves have
been added, in which nodes have been moved and from which nodes other than the root have been taken
out, is a rooted tree at every moment.

The body need not be well-built. If the lists of incoming edges do not fit the terminators, the tree
says little about the body, but it still is a tree: a node gets its first entry when one of its sources
has an entry, and whatever its later entries are, they are above that source.
-/

namespace FlowGraph

namespace Tree

variable {t : Tree} {order rest found sources : List Nat} {preds : Array (List Nat)}
  {T U : Array (Option Nat)} {r a b n q w x steps : Nat} {best : Option Nat}

theorem above_of_common (h : common order T steps a b = .ok w) : Above T w a ∧ Above T w b := by
  induction steps generalizing a b with
  | zero => cases h
  | succ steps ih =>
      rw [common] at h
      split at h
      · rename_i heq
        subst heq
        cases h
        exact ⟨.refl, .refl⟩
      split at h
      · split at h
        · rename_i up hup
          exact ⟨.up hup (ih h).1, (ih h).2⟩
        · cases h
      · split at h
        · rename_i up hup
          exact ⟨(ih h).1, .up hup (ih h).2⟩
        · cases h

theorem above_of_joinPred {next : Option Nat} (h : joinPred order T best q = .ok next) :
    (link T q = none ∧ next = best) ∨ (∃ p, link T q = some p) ∧
      ∃ w, next = some w ∧ Above T w q ∧ ∀ a, best = some a → Above T w a := by
  unfold joinPred at h
  split at h
  · cases h
  · rename_i hentry
    cases h
    exact .inl ⟨by rw [link, hentry]; rfl, rfl⟩
  · rename_i p hentry
    refine .inr ⟨⟨p, by rw [link, hentry]; rfl⟩, ?_⟩
    split at h
    · cases h
      exact ⟨q, rfl, .refl, fun a ha => absurd ha (by simp)⟩
    · rename_i a
      rcases hmeeting : common order T (fingerSteps T.size) q a with fault | w
      · rw [hmeeting] at h
        cases h
      · rw [hmeeting] at h
        cases h
        obtain ⟨hq, ha⟩ := above_of_common hmeeting
        refine ⟨w, rfl, hq, fun other hother => ?_⟩
        cases hother
        exact ha

theorem above_of_foldlM_joinPred (h : sources.foldlM (joinPred order T) best = .ok (some w)) :
    (∀ a, best = some a → Above T w a) ∧
      (∀ q ∈ sources, (∃ p, link T q = some p) → Above T w q) ∧
      (best = none → ∃ q ∈ sources, ∃ p, link T q = some p) := by
  induction sources generalizing best with
  | nil =>
      cases h
      refine ⟨fun a ha => ?_, fun q hq => absurd hq List.not_mem_nil,
        fun hnone => absurd hnone (by simp)⟩
      cases ha
      exact .refl
  | cons s sources ih =>
      rw [List.foldlM_cons, bind_eq_ok] at h
      obtain ⟨next, hnext, hrest⟩ := h
      obtain ⟨hbest, hsources, hsome⟩ := ih hrest
      rcases above_of_joinPred hnext with ⟨hnone, rfl⟩ | ⟨hlinked, join, rfl, hs, hjoin⟩
      · refine ⟨hbest, List.forall_mem_cons.mpr ⟨fun hlinked => ?_, hsources⟩, fun hstart => ?_⟩
        · simp [hnone] at hlinked
        · obtain ⟨q, hq, hlinked⟩ := hsome hstart
          exact ⟨q, List.mem_cons_of_mem s hq, hlinked⟩
      · refine ⟨fun a ha => (hbest join rfl).trans (hjoin a ha),
          List.forall_mem_cons.mpr ⟨fun _ => (hbest join rfl).trans hs, hsources⟩, fun _ => ?_⟩
        exact ⟨s, List.mem_cons_self, hlinked⟩

/-- `found` lists the nodes that have an entry, in the order in which they got their first. The entry of
a node stands before it, and so does one of its sources. -/
structure Discovered (r : Nat) (preds : Array (List Nat)) (T : Array (Option Nat))
    (found : List Nat) : Prop where
  root : link T r = some r
  mem_iff : ∀ n, n ∈ found ↔ ∃ p, link T n = some p
  before : ∀ {n p}, link T n = some p → n ≠ r → found.idxOf p < found.idxOf n
  fed : ∀ {n}, n ∈ found → n ≠ r →
    ∃ q ∈ preds[n]?.getD [], found.idxOf q < found.idxOf n

theorem mem_of_idxOf_lt (hn : n ∈ found) (h : found.idxOf a < found.idxOf n) : a ∈ found :=
  List.idxOf_lt_length_iff.mp (h.trans (List.idxOf_lt_length_of_mem hn))

namespace Discovered

theorem idxOf_le (h : Discovered r preds T found) (ha : Above T a n) :
    found.idxOf a ≤ found.idxOf n := by
  induction ha with
  | refl => exact Nat.le_refl _
  | @up n p hlink _ ih =>
      rcases Classical.em (n = r) with rfl | hne
      · cases h.root.symm.trans hlink
        exact ih
      · exact ih.trans (h.before hlink hne).le

theorem set (h : Discovered r preds T found) (hx : x ≠ r) (hbound : x < T.size)
    (habove : ∀ q ∈ preds[x]?.getD [], (∃ p, link T q = some p) → Above T w q)
    (hsome : ∃ q ∈ preds[x]?.getD [], ∃ p, link T q = some p) :
    ∃ found', Discovered r preds (T.setIfInBounds x (some w)) found' := by
  have hlink := link_setIfInBounds (T := T) hbound
  have hroot : link (T.setIfInBounds x (some w)) r = some r := by
    rw [hlink, if_neg (Ne.symm hx), h.root]
  rcases Classical.em (x ∈ found) with hmem | hmem
  · -- The source that x was found from still stands before it.
    obtain ⟨q, hq, hlt⟩ := h.fed hmem hx
    have hw := h.idxOf_le (habove q hq ((h.mem_iff q).mp (mem_of_idxOf_lt hmem hlt)))
    refine ⟨found, hroot, fun n => ?_, fun {n p} hn hne => ?_, h.fed⟩
    · rw [hlink]
      split
      · rename_i heq
        exact iff_of_true (heq ▸ hmem) ⟨w, rfl⟩
      · exact h.mem_iff n
    · rw [hlink] at hn
      split at hn
      · rename_i heq
        cases hn
        exact heq ▸ hw.trans_lt hlt
      · exact h.before hn hne
  · -- A node that had no entry is found last, so after the source that has one.
    obtain ⟨q, hq, hlinked⟩ := hsome
    have hqfound := (h.mem_iff q).mpr hlinked
    have hidx : ∀ {n}, n ∈ found → (found ++ [x]).idxOf n = found.idxOf n := fun hn =>
      List.idxOf_append_of_mem hn
    have hlast : (found ++ [x]).idxOf x = found.length := by
      rw [List.idxOf_append_of_notMem hmem, List.idxOf_cons_self, Nat.add_zero]
    have hearlier : ∀ {a n}, n ∈ found → found.idxOf a < found.idxOf n →
        (found ++ [x]).idxOf a < (found ++ [x]).idxOf n := by
      intro a n hn hlt
      rwa [hidx hn, hidx (mem_of_idxOf_lt hn hlt)]
    have hw : w ∈ found := by
      have hle := h.idxOf_le (habove q hq hlinked)
      exact List.idxOf_lt_length_iff.mp (hle.trans_lt (List.idxOf_lt_length_of_mem hqfound))
    refine ⟨found ++ [x], hroot, fun n => ?_, fun {n p} hn hne => ?_, fun {n} hn hne => ?_⟩
    · rw [hlink, List.mem_append, List.mem_singleton]
      split
      · rename_i heq
        exact iff_of_true (.inr heq) ⟨w, rfl⟩
      · rename_i hne
        rw [or_iff_left hne]
        exact h.mem_iff n
    · rw [hlink] at hn
      split at hn
      · rename_i heq
        cases hn
        rw [heq, hlast, hidx hw]
        exact List.idxOf_lt_length_of_mem hw
      · exact hearlier ((h.mem_iff n).mpr ⟨p, hn⟩) (h.before hn hne)
    · rcases List.mem_append.mp hn with hn | hn
      · obtain ⟨s, hs, hlt⟩ := h.fed hn hne
        exact ⟨s, hs, hearlier hn hlt⟩
      · rw [List.mem_singleton.mp hn, hlast]
        refine ⟨q, hq, ?_⟩
        rw [hidx hqfound]
        exact List.idxOf_lt_length_of_mem hqfound

theorem improve (h : Discovered r preds T found) (hx : x ≠ r)
    (hrun : improve order preds T x = .ok U) : ∃ found', Discovered r preds U found' := by
  obtain ⟨best, hbest, hU⟩ := bind_eq_ok.mp hrun
  rcases best with _ | w
  · cases hU
    exact ⟨found, h⟩
  · cases hU
    obtain ⟨-, habove, hsome⟩ := above_of_foldlM_joinPred hbest
    rcases Nat.lt_or_ge x T.size with hlt | hge
    · exact h.set hx hlt habove (hsome rfl)
    · rw [Array.setIfInBounds_eq_of_size_le hge]
      exact ⟨found, h⟩

theorem rooted (h : Discovered r preds T found) : (⟨T, r⟩ : Tree).Rooted := by
  refine ⟨h.root, fun {n} hn => ?_⟩
  obtain ⟨p, hp⟩ := Option.isSome_iff_exists.mp hn
  induction hpos : found.idxOf n using Nat.strong_induction_on generalizing n p with
  | _ k ih =>
  rcases Classical.em (n = r) with rfl | hne
  · exact .refl
  · have hlt := h.before hp hne
    obtain ⟨q, hq⟩ := (h.mem_iff p).mp (mem_of_idxOf_lt ((h.mem_iff n).mpr ⟨p, hp⟩) hlt)
    exact .up hp (ih _ (hpos ▸ hlt) (Option.isSome_iff_exists.mpr ⟨q, hq⟩) q hq rfl)

end Discovered

theorem discovered_start (h : r < preds.size) :
    Discovered r preds (start r preds.size) [r] := by
  have hlink : ∀ n, link (start r preds.size) n = if n = r then some r else none := by
    intro n
    rw [start, link_setIfInBounds (by rwa [Array.size_replicate])]
    split
    · rfl
    · rw [link, Array.getElem?_replicate]
      split <;> rfl
  refine ⟨by rw [hlink, if_pos rfl], fun n => ?_, fun {n p} hn hne => ?_, fun {n} hn hne => ?_⟩
  · rw [hlink, List.mem_singleton]
    split
    · exact iff_of_true ‹_› ⟨r, rfl⟩
    · exact iff_of_false ‹_› (by simp)
  · rw [hlink, if_neg hne] at hn
    cases hn
  · exact absurd (List.mem_singleton.mp hn) hne

/-- At every moment of the iteration the table is a tree. -/
theorem Moment.exists_discovered (h : Moment r order preds T rest) (hroot : r < preds.size)
    (horder : r ∉ order.tail) : (∃ found, Discovered r preds T found) ∧ r ∉ rest := by
  induction h with
  | begin => exact ⟨⟨[r], discovered_start hroot⟩, horder⟩
  | improved _ hrun ih =>
      obtain ⟨⟨found, hfound⟩, hrest⟩ := ih
      rw [List.mem_cons, not_or] at hrest
      exact ⟨hfound.improve (Ne.symm hrest.1) hrun, hrest.2⟩
  | again _ ih => exact ⟨ih.1, horder⟩

theorem rooted_ofOrder (h : ofOrder r order preds = .ok t) (hroot : r < preds.size)
    (horder : r ∉ order.tail) : t.Rooted := by
  obtain ⟨T, hsettle, ht⟩ := bind_eq_ok.mp h
  cases ht
  obtain ⟨hmoment, -⟩ := Moment.begin.settle hsettle
  obtain ⟨⟨found, hfound⟩, -⟩ := hmoment.exists_discovered hroot horder
  exact hfound.rooted

end Tree

/-- What is made from a body is a tree, whatever its lists of incoming edges say. -/
theorem Body.rooted_dominators {f : Body} {d : Dominators} (h : f.dominators = .ok d) :
    d.tree.Rooted := by
  obtain ⟨entry, -, h⟩ := bind_eq_ok.mp h
  obtain ⟨preds, hpreds, h⟩ := bind_eq_ok.mp h
  obtain ⟨order, horder, h⟩ := bind_eq_ok.mp h
  obtain ⟨t, ht, hd⟩ := bind_eq_ok.mp h
  cases hd
  obtain ⟨post, hpost, hreverse⟩ := bind_eq_ok.mp horder
  cases hreverse
  obtain ⟨⟨succs, hsuccs⟩, before, hbefore, hnot⟩ := Graph.start_of_postOrder hpost
  obtain ⟨data, hdata, -⟩ := successors_eq_ok.mp hsuccs
  refine Tree.rooted_ofOrder ht ?_ ?_
  · rw [size_blockTable hpreds]
    exact lt_size_of_isLiveBlock (isLiveBlock_of hdata)
  · rw [hbefore, List.map_cons, List.tail_cons, List.mem_map]
    rintro ⟨b, hb, hindex⟩
    have heq : b = entry := congrArg BlockId.mk hindex
    exact hnot (heq ▸ hb)

namespace Dominators

variable {d e : Dominators} {a b p : BlockId}

/-- A tree that was made from a body and then changed: new blocks were recorded and blocks were moved,
each time under a block of the tree, and blocks other than the root were forgotten. -/
inductive Edited : Dominators → Prop
  | made {f : Body} {d : Dominators} (h : f.dominators = .ok d) : Edited d
  | insert {d e : Dominators} {b p : BlockId} (hd : Edited d) (hb : d.isReachable b = false)
      (hp : d.isReachable p = true) (hrun : d.insert b p = .ok e) : Edited e
  | reparent {d e : Dominators} {b p : BlockId} (hd : Edited d) (hp : d.isReachable p = true)
      (hrun : d.reparent b p = .ok e) : Edited e
  | erase {d : Dominators} {b : BlockId} (hd : Edited d) (hb : b ≠ d.root) : Edited (d.erase b)

theorem exists_insert (hb : d.isReachable b = false) (hp : d.isReachable p = true) :
    ∃ e, d.insert b p = .ok e ∧ e.idom? b = some p ∧ ∀ x, x ≠ b → e.idom? x = d.idom? x := by
  obtain ⟨t, ht⟩ : ∃ t, d.tree.insert b.index p.index = .ok t :=
    ⟨_, Tree.insert_eq_ok.mpr ⟨hb, rfl⟩⟩
  have hne : p.index ≠ b.index := by
    intro heq
    rw [isReachable, heq] at hp
    cases hb.symm.trans hp
  exact ⟨⟨d.owner, t⟩, bind_eq_ok.mpr ⟨t, ht, rfl⟩, idom?_of_link? (Tree.link?_insert ht) hne⟩

theorem idom?_reparent (hrun : d.reparent b p = .ok e) :
    e.idom? b = some p ∧ ∀ x, x ≠ b → e.idom? x = d.idom? x := by
  obtain ⟨t, ht, he⟩ := bind_eq_ok.mp hrun
  cases he
  refine idom?_of_link? (Tree.link?_reparent ht) fun heq => ?_
  -- A block is not moved under itself.
  have hnot := (Tree.reparent_eq_ok.mp ht).2.1
  simp [Tree.dominates, heq] at hnot

theorem index_ne_root (hb : b ≠ d.root) : b.index ≠ d.tree.root := fun heq =>
  hb (congrArg BlockId.mk heq)

theorem Edited.rooted (h : d.Edited) : d.tree.Rooted := by
  induction h with
  | made h => exact Body.rooted_dominators h
  | insert _ _ hp hrun ih =>
      obtain ⟨t, ht, he⟩ := bind_eq_ok.mp hrun
      cases he
      exact ih.insert hp ht
  | reparent _ hp hrun ih =>
      obtain ⟨t, ht, he⟩ := bind_eq_ok.mp hrun
      cases he
      exact ih.reparent hp ht
  | erase _ hb ih => exact ih.erase (index_ne_root hb)

theorem dominates_iff_above (h : d.tree.Rooted) :
    d.dominates a b = true ↔ Tree.Above d.tree.parents a.index b.index :=
  h.dominates_iff

theorem isPartialOrder_dominates (h : d.tree.Rooted) :
    IsPartialOrder BlockId fun a b => d.dominates a b = true where
  refl _ := (dominates_iff_above h).mpr .refl
  trans _ _ _ hab hbc := by
    rw [dominates_iff_above h] at hab hbc ⊢
    exact hab.trans hbc
  antisymm _ _ hab hba := by
    rw [dominates_iff_above h] at hab hba
    exact congrArg BlockId.mk (h.above_antisymm hab hba)

theorem nearestCommon?_lowest (h : d.tree.Rooted) (ha : d.isReachable a = true)
    (hb : d.isReachable b = true) :
    ∃ c, d.nearestCommon? a b = some c ∧ d.dominates c a = true ∧ d.dominates c b = true ∧
      ∀ x, d.dominates x a = true → d.dominates x b = true → d.dominates x c = true := by
  obtain ⟨c, hmeet, hca, hcb, hlowest⟩ := h.meet?_lowest ha hb
  simp only [dominates_iff_above h]
  exact ⟨⟨c⟩, by rw [nearestCommon?, hmeet]; rfl, hca, hcb, fun x => hlowest x.index⟩

/-- A tree that is kept up by hand stays a tree, and its answers are those of a tree: all ways up
end, those from blocks of the tree end at the root, dominance is a partial order, depths grow by one,
and two blocks have a lowest common dominator. Recording and moving a block gives it the parent that
was asked for and leaves the others theirs. Forgetting a block leaves the dominance of the others
alone. -/
theorem Edited.stays_tree (h : d.Edited) :
    (∀ b p, d.isReachable b = false → d.isReachable p = true → ∃ e, d.insert b p = .ok e ∧
      e.idom? b = some p ∧ ∀ x, x ≠ b → e.idom? x = d.idom? x) ∧
    (∀ b p e, d.reparent b p = .ok e →
      e.idom? b = some p ∧ ∀ x, x ≠ b → e.idom? x = d.idom? x) ∧
    (∀ b : BlockId, d.tree.Upward b.index (d.tree.ancestors b.index) ∧ (d.isReachable b = true →
      (b.index :: d.tree.ancestors b.index).getLast? = some d.root.index)) ∧
    IsPartialOrder BlockId (fun a b => d.dominates a b = true) ∧
    d.depth? d.root = some 0 ∧
    (∀ b, d.isReachable b = true → b ≠ d.root → ∃ p n, d.idom? b = some p ∧
      d.depth? p = some n ∧ d.depth? b = some (n + 1)) ∧
    (∀ a b, d.isReachable a = true → d.isReachable b = true → ∃ c, d.nearestCommon? a b = some c ∧
      d.dominates c a = true ∧ d.dominates c b = true ∧
      ∀ x, d.dominates x a = true → d.dominates x b = true → d.dominates x c = true) ∧
    ∀ b, b ≠ d.root →
      (∀ x, (d.erase b).isReachable x = true ↔ x ≠ b ∧ d.isReachable x = true) ∧
      ∀ a c, a ≠ b → c ≠ b → (d.erase b).dominates a c = d.dominates a c := by
  have hrooted := h.rooted
  refine ⟨fun b p => exists_insert, fun b p e => idom?_reparent,
    fun b => ⟨hrooted.upward b.index, hrooted.getLast?_way⟩,
    isPartialOrder_dominates hrooted, hrooted.depth?_root, fun b hb hne => ?_,
    fun a b => nearestCommon?_lowest hrooted, fun b hb => ⟨fun x => ?_, fun a c ha hc => ?_⟩⟩
  · obtain ⟨p, hp⟩ := hrooted.exists_parent? hb (index_ne_root hne)
    obtain ⟨n, hn, hnext⟩ := hrooted.depth?_of_parent? hp
    exact ⟨⟨p⟩, n, idom?_eq_some.mpr hp, hn, hnext⟩
  · refine (hrooted.contains_erase_iff (index_ne_root hb)).trans (and_congr_left fun _ => ?_)
    exact not_congr Body.blockId_ext
  · refine hrooted.dominates_erase (index_ne_root hb) (fun heq => ha ?_) fun heq => hc ?_
    · exact congrArg BlockId.mk heq
    · exact congrArg BlockId.mk heq

/-- Block 4 of `tangledLoops`, which cannot be reached, was recorded under block 1, and block 3 was moved
under it. Block 1 was forgotten and later recorded anew, below all that it had dominated. -/
def regrownTree : Dominators := ⟨⟨0⟩, ⟨#[some 0, some 6, some 0, some 4, some 0, none, some 3], 0⟩⟩

theorem edited_regrownTree : regrownTree.Edited := by
  have hmade : Edited ⟨⟨0⟩, ⟨#[some 0, some 0, some 0, some 1, none], 0⟩⟩ :=
    .made (by decide +kernel : tangledLoops.dominators = .ok _)
  have hnew := hmade.insert (b := ⟨4⟩) (p := ⟨1⟩) (by decide) (by decide) rfl
  have hmoved := hnew.reparent (b := ⟨3⟩) (p := ⟨4⟩) (by decide) rfl
  have hleaf := hmoved.erase (b := ⟨1⟩) (by decide) |>.insert (b := ⟨6⟩) (p := ⟨3⟩) (by decide)
    (by decide) rfl
  exact hleaf.insert (b := ⟨1⟩) (p := ⟨6⟩) (by decide) (by decide) rfl

theorem regrownTree_stays_tree :
    regrownTree.Edited ∧ regrownTree.tree.Upward 1 [6, 3, 4, 0] ∧
      (∃ n, regrownTree.depth? ⟨6⟩ = some n ∧ regrownTree.depth? ⟨1⟩ = some (n + 1)) ∧
      (∃ c, regrownTree.nearestCommon? ⟨1⟩ ⟨2⟩ = some c ∧ regrownTree.dominates c ⟨1⟩ = true ∧
        regrownTree.dominates c ⟨2⟩ = true) ∧
      (regrownTree.erase ⟨6⟩).dominates ⟨4⟩ ⟨1⟩ = true ∧
      (regrownTree.erase ⟨6⟩).dominates ⟨1⟩ ⟨4⟩ = false := by
  obtain ⟨-, -, hways, -, -, hdepth, hcommon, herase⟩ := edited_regrownTree.stays_tree
  obtain ⟨p, n, hp, hn, hnext⟩ := hdepth ⟨1⟩ (by decide) (by decide)
  cases hp.symm.trans (by decide : _ = some ⟨6⟩)
  obtain ⟨c, hc, hone, htwo, -⟩ := hcommon ⟨1⟩ ⟨2⟩ (by decide) (by decide)
  refine ⟨edited_regrownTree, (hways ⟨1⟩).1, ⟨n, hn, hnext⟩, ⟨c, hc, hone, htwo⟩, ?_, ?_⟩
  · rw [(herase ⟨6⟩ (by decide)).2 ⟨4⟩ ⟨1⟩ (by decide) (by decide)]
    decide
  · rw [(herase ⟨6⟩ (by decide)).2 ⟨1⟩ ⟨4⟩ (by decide) (by decide)]
    decide

end Dominators

end FlowGraph
