import Mathlib.Data.Finset.Card
import Mathlib.Order.Monotone.Basic
import FlowGraph.Dominators.Fixpoint
import FlowGraph.Proofs.Dominance.Path
import FlowGraph.Proofs.Outcome

/-!
The iteration for dominator trees ends, and ends with the immediate dominators.

Two things are kept by every change to the table. No candidate is too low: what properly dominates a
node dominates its candidate (`Candidates.covers`). And after `s` sweeps no candidate is too high by
much: a node that can be evaded on a way of at most `s` steps is no longer above the end of that way
(`Separates`). A way need not be longer than there are nodes, so after that many sweeps the table is
exact, and an exact table does not change any more.
-/

namespace FlowGraph

section Within

variable {α : Type} {R : α → α → Prop} {P : α → Prop} {r a b x : α} {n m : Nat}

/-- `x` can be reached from `r` along nodes that satisfy `P` in at most `n` steps. -/
inductive Within (R : α → α → Prop) (P : α → Prop) (r : α) : Nat → α → Prop
  | root (n : Nat) (h : P r) : Within R P r n r
  | step {n : Nat} {x y : α} (hpath : Within R P r n x) (harc : R x y) (h : P y) :
      Within R P r (n + 1) y

namespace Within

theorem mono (h : Within R P r n x) (hle : n ≤ m) : Within R P r m x := by
  induction h generalizing m with
  | root n h => exact .root m h
  | step _ harc h ih =>
      obtain ⟨k, rfl⟩ : ∃ k, m = k + 1 := ⟨m - 1, by omega⟩
      exact (ih (Nat.le_of_succ_le_succ hle)).step harc h

theorem path (h : Within R P r n x) : Path R P r x := by
  induction h with
  | root n h => exact .root h
  | step _ harc h ih => exact ih.step harc h

theorem exists_of_path (h : Path R P r x) : ∃ n, Within R P r n x := by
  induction h with
  | root h => exact ⟨0, .root 0 h⟩
  | step _ harc h ih =>
      obtain ⟨n, hn⟩ := ih
      exact ⟨n + 1, hn.step harc h⟩

theorem split (h : Within R (· ≠ a) r n x) (b : α) :
    Within R (· ≠ b) r n x ∨ Within R (· ≠ a) r n b := by
  induction h with
  | root n h =>
      rcases Classical.em (r = b) with rfl | hne
      · exact .inr (.root n h)
      · exact .inl (.root n hne)
  | @step n x y hpath harc h ih =>
      rcases ih with ih | ih
      · rcases Classical.em (y = b) with rfl | hne
        · exact .inr (hpath.step harc h)
        · exact .inl (ih.step harc hne)
      · exact .inr (ih.mono (Nat.le_succ n))

theorem bounded [DecidableEq α] {nodes : List α} (hnodes : ∀ x, Path R P r x → x ∈ nodes)
    (h : Within R P r n x) : Within R P r nodes.length x := by
  classical
  let reached (n : Nat) : Finset α := nodes.toFinset.filter (Within R P r n)
  have hmem : ∀ n x, x ∈ reached n ↔ Within R P r n x := by
    intro n x
    simp only [reached, Finset.mem_filter, List.mem_toFinset]
    exact ⟨fun h => h.2, fun h => ⟨hnodes x h.path, h⟩⟩
  have hsub : ∀ {n m}, n ≤ m → reached n ⊆ reached m := by
    intro n m hle x hx
    rw [hmem] at hx ⊢
    exact hx.mono hle
  have hstable : ∀ n, (reached n).card = (reached (n + 1)).card →
      (reached (n + 1)).card = (reached (n + 2)).card := by
    intro n hcard
    have heq := Finset.eq_of_subset_of_card_le (hsub (Nat.le_succ n)) hcard.ge
    refine Nat.le_antisymm (Finset.card_le_card (hsub (Nat.le_succ _))) (Finset.card_le_card ?_)
    intro x hx
    rw [hmem] at hx ⊢
    cases hx with
    | root _ h => exact .root _ h
    | step hpath harc h =>
        rw [← hmem, ← heq, hmem] at hpath
        exact hpath.step harc h
  have hbound : ∀ n, (reached n).card ≤ nodes.length := fun n =>
    (Finset.card_filter_le _ _).trans (List.toFinset_card_le nodes)
  rcases Nat.le_total n nodes.length with hle | hle
  · exact h.mono hle
  · have hcard : (reached n).card = (reached nodes.length).card :=
      Nat.stabilises_of_monotone (fun i j hij => Finset.card_le_card (hsub hij)) hbound hstable hle
    rw [← hmem, Finset.eq_of_subset_of_card_le (hsub hle) hcard.le, hmem]
    exact h

end Within

end Within

namespace Tree

variable {R : Nat → Nat → Prop} {r : Nat} {order : List Nat} {preds : Array (List Nat)}
  {T : Array (Option Nat)} {a b c n p w x y z : Nat}

/-- What the iteration needs to know of its input: the nodes that can be reached, the root first and
every other node behind one with an arc to it, and the sources of all arcs. -/
structure IsInput (R : Nat → Nat → Prop) (r : Nat) (order : List Nat) (preds : Array (List Nat)) :
    Prop where
  head : ∃ rest, order = r :: rest
  nodup : order.Nodup
  mem_iff : ∀ x, x ∈ order ↔ Reaches R r x
  entered : ∀ x ∈ order, x ≠ r → ∃ y ∈ order, R y x ∧ order.idxOf y < order.idxOf x
  mem_preds : ∀ x ∈ order, ∀ y, y ∈ preds[x]?.getD [] ↔ R y x
  bound : ∀ x ∈ order, x < preds.size
  bound_preds : ∀ x ∈ order, ∀ y, R y x → y < preds.size

namespace IsInput

theorem idxOf_root (h : IsInput R r order preds) : order.idxOf r = 0 := by
  obtain ⟨rest, rfl⟩ := h.head
  exact List.idxOf_cons_self

theorem mem_root (h : IsInput R r order preds) : r ∈ order := (h.mem_iff r).mpr reaches_root

theorem length_le (h : IsInput R r order preds) : order.length ≤ preds.size := by
  have hsub : ∀ x ∈ order, x ∈ List.range preds.size := fun x hx => List.mem_range.mpr (h.bound x hx)
  have hle := (h.nodup.subperm hsub).length_le
  rwa [List.length_range] at hle

theorem path_before (h : IsInput R r order preds) (hx : x ∈ order) :
    Path R (fun y => order.idxOf y ≤ order.idxOf x) r x := by
  induction hpos : order.idxOf x using Nat.strong_induction_on generalizing x with
  | _ n ih =>
  rcases Classical.em (x = r) with rfl | hne
  · exact .root (by rw [hpos])
  · obtain ⟨y, hy, harc, hlt⟩ := h.entered x hx hne
    have hpath := ih _ (hpos ▸ hlt) hy rfl
    refine (hpath.mono fun z hz => ?_).step harc (by rw [hpos])
    omega

theorem idxOf_le_of_dominates (h : IsInput R r order preds) (hdom : Dominates R r a x) :
    order.idxOf a ≤ order.idxOf x := by
  by_contra hlt
  apply hdom.2
  refine (h.path_before ((h.mem_iff x).mpr hdom.reaches)).mono fun y hy => ?_
  rintro rfl
  exact hlt hy

end IsInput

def link (T : Array (Option Nat)) (n : Nat) : Option Nat := T[n]?.join

/-- `a` is `n` or above it in the table. -/
inductive Above (T : Array (Option Nat)) (a : Nat) : Nat → Prop
  | refl : Above T a a
  | up {n p : Nat} (hlink : link T n = some p) (hup : Above T a p) : Above T a n

theorem Above.trans (hab : Above T a b) (hbn : Above T b n) : Above T a n := by
  induction hbn with
  | refl => exact hab
  | up hlink _ ih => exact .up hlink ih

/-- A table of candidates: every candidate stands before its node, has a candidate itself, and is
dominated by what properly dominates the node. -/
structure Candidates (R : Nat → Nat → Prop) (r : Nat) (order : List Nat) (size : Nat)
    (T : Array (Option Nat)) : Prop where
  size_eq : T.size = size
  root : link T r = some r
  mem : ∀ {n p}, link T n = some p → n ∈ order
  before : ∀ {n p}, link T n = some p → n ≠ r → order.idxOf p < order.idxOf n
  linked : ∀ {n p}, link T n = some p → ∃ q, link T p = some q
  covers : ∀ {n p a}, link T n = some p → Dominates R r a n → a ≠ n → Dominates R r a p

namespace Candidates

theorem above_before (h : Candidates R r order preds.size T) (hroot : order.idxOf r = 0)
    (habove : Above T a n) : order.idxOf a ≤ order.idxOf n := by
  induction habove with
  | refl => exact Nat.le_refl _
  | @up n p hlink _ ih =>
      rcases Classical.em (n = r) with rfl | hne
      · rw [h.root] at hlink
        cases hlink
        exact ih
      · exact ih.trans (h.before hlink hne).le

theorem eq_root_of_above (h : Candidates R r order preds.size T) (habove : Above T a r) : a = r := by
  have hroot : ∀ n, Above T a n → n = r → a = r := by
    intro n hn
    induction hn with
    | refl => exact id
    | up hlink _ ih =>
        rintro rfl
        rw [h.root] at hlink
        cases hlink
        exact ih rfl
  exact hroot r habove rfl

/-- The two fingers meet at a common ancestor, and it is not above a common dominator. -/
theorem common_eq_ok (h : Candidates R r order preds.size T) (hin : IsInput R r order preds)
    {steps : Nat} (ha : ∃ p, link T a = some p) (hb : ∃ p, link T b = some p)
    (hsteps : order.idxOf a + order.idxOf b < steps) :
    ∃ w, common order T steps a b = .ok w ∧ (∃ p, link T w = some p) ∧ Above T w a ∧ Above T w b ∧
      ∀ c, Dominates R r c a → Dominates R r c b → Dominates R r c w := by
  induction steps generalizing a b with
  | zero => exact absurd hsteps (Nat.not_lt_zero _)
  | succ steps ih =>
      obtain ⟨pa, hpa⟩ := ha
      obtain ⟨pb, hpb⟩ := hb
      rw [common]
      rcases Classical.em (a = b) with rfl | hne
      · rw [if_pos rfl]
        exact ⟨a, rfl, ⟨pa, hpa⟩, .refl, .refl, fun c hc _ => hc⟩
      rw [if_neg hne]
      rcases Nat.lt_or_ge (order.idxOf b) (order.idxOf a) with hlt | hge
      · have hroot : a ≠ r := by
          rintro rfl
          rw [hin.idxOf_root] at hlt
          exact Nat.not_lt_zero _ hlt
        have hbefore := h.before hpa hroot
        obtain ⟨w, hw, hlinked, haw, hbw, hcover⟩ :=
          ih (h.linked hpa) ⟨pb, hpb⟩ (by omega : order.idxOf pa + order.idxOf b < steps)
        rw [if_pos hlt, show T[a]?.join = some pa from hpa]
        refine ⟨w, hw, hlinked, .up hpa haw, hbw, fun c hca hcb => hcover c ?_ hcb⟩
        -- The finger at the later node has not come to a common dominator yet.
        refine h.covers hpa hca ?_
        rintro rfl
        exact absurd (hin.idxOf_le_of_dominates hcb) (by omega)
      · have hlt : order.idxOf a < order.idxOf b := by
          refine Nat.lt_of_le_of_ne hge fun heq => hne ?_
          exact (List.idxOf_inj (h.mem hpa)).mp heq
        have hroot : b ≠ r := by
          rintro rfl
          rw [hin.idxOf_root] at hlt
          exact Nat.not_lt_zero _ hlt
        have hbefore := h.before hpb hroot
        obtain ⟨w, hw, hlinked, haw, hbw, hcover⟩ :=
          ih ⟨pa, hpa⟩ (h.linked hpb) (by omega : order.idxOf a + order.idxOf pb < steps)
        rw [if_neg (by omega), show T[b]?.join = some pb from hpb]
        refine ⟨w, hw, hlinked, haw, .up hpb hbw, fun c hca hcb => hcover c hca ?_⟩
        refine h.covers hpb hcb ?_
        rintro rfl
        exact absurd (hin.idxOf_le_of_dominates hca) (by omega)

/-- `best` joins those of the given nodes that have a candidate. -/
def Joins (R : Nat → Nat → Prop) (r : Nat) (T : Array (Option Nat)) (nodes : List Nat) :
    Option Nat → Prop
  | none => ∀ q ∈ nodes, link T q = none
  | some w => (∃ p, link T w = some p) ∧ (∀ q ∈ nodes, (∃ p, link T q = some p) → Above T w q) ∧
      ∀ c, (∀ q ∈ nodes, (∃ p, link T q = some p) → Dominates R r c q) → Dominates R r c w

theorem joinPred_eq_ok (h : Candidates R r order preds.size T) (hin : IsInput R r order preds)
    {nodes : List Nat} {best : Option Nat} (hbest : Joins R r T nodes best) {q : Nat}
    (hq : q < preds.size) :
    ∃ best', joinPred order T best q = .ok best' ∧ Joins R r T (nodes ++ [q]) best' := by
  have hentry : T[q]? = some (link T q) := by
    rw [link, Array.getElem?_eq_getElem (h.size_eq ▸ hq)]
    rfl
  rcases hlink : link T q with _ | p
  · refine ⟨best, by simp only [joinPred, hentry, hlink], ?_⟩
    rcases best with _ | w
    · intro q' hq'
      rcases List.mem_append.mp hq' with hq' | hq'
      · exact hbest q' hq'
      · rw [List.mem_singleton.mp hq', hlink]
    · obtain ⟨hlinked, habove, hcover⟩ := hbest
      refine ⟨hlinked, fun q' hq' hlink' => ?_, fun c hc => hcover c fun q' hq' => ?_⟩
      · rcases List.mem_append.mp hq' with hq' | hq'
        · exact habove q' hq' hlink'
        · rw [List.mem_singleton.mp hq', hlink] at hlink'
          simp at hlink'
      · exact hc q' (List.mem_append_left _ hq')
  · rcases best with _ | w
    · refine ⟨some q, by simp only [joinPred, hentry, hlink], ⟨p, hlink⟩,
        fun q' hq' hlink' => ?_, fun c hc => ?_⟩
      · rcases List.mem_append.mp hq' with hq' | hq'
        · rw [hbest q' hq'] at hlink'
          simp at hlink'
        · rw [List.mem_singleton.mp hq']
          exact .refl
      · exact hc q (List.mem_append_right _ (List.mem_singleton_self q)) ⟨p, hlink⟩
    · obtain ⟨⟨pw, hpw⟩, habove, hcover⟩ := hbest
      have hlength := hin.length_le
      have hqpos := List.idxOf_lt_length_of_mem (h.mem hlink)
      have hwpos := List.idxOf_lt_length_of_mem (h.mem hpw)
      -- Each step of a finger lowers the sum of the two positions.
      have hsteps : order.idxOf q + order.idxOf w < fingerSteps T.size := by
        rw [fingerSteps, h.size_eq]
        omega
      obtain ⟨w', hw', hlinked, haq, haw, hjoin⟩ :=
        h.common_eq_ok hin ⟨p, hlink⟩ ⟨pw, hpw⟩ hsteps
      refine ⟨some w', ?_, hlinked, fun q' hq' hlink' => ?_, fun c hc => ?_⟩
      · simp only [joinPred, hentry, hlink, hw']
        rfl
      · rcases List.mem_append.mp hq' with hq' | hq'
        · exact haw.trans (habove q' hq' hlink')
        · rw [List.mem_singleton.mp hq']
          exact haq
      · refine hjoin c (hc q (List.mem_append_right _ (List.mem_singleton_self q)) ⟨p, hlink⟩) ?_
        exact hcover c fun q' hq' => hc q' (List.mem_append_left _ hq')

theorem foldlM_joinPred_eq_ok (h : Candidates R r order preds.size T)
    (hin : IsInput R r order preds) {rest : List Nat} (hrest : ∀ q ∈ rest, q < preds.size)
    {done : List Nat} {best : Option Nat} (hbest : Joins R r T done best) :
    ∃ best', rest.foldlM (joinPred order T) best = .ok best' ∧
      Joins R r T (done ++ rest) best' := by
  induction rest generalizing done best with
  | nil => exact ⟨best, rfl, by rwa [List.append_nil]⟩
  | cons q rest ih =>
      rw [List.forall_mem_cons] at hrest
      obtain ⟨next, hnext, hjoins⟩ := h.joinPred_eq_ok hin hbest hrest.1
      obtain ⟨last, hlast, hall⟩ := ih hrest.2 hjoins
      refine ⟨last, ?_, by rwa [List.append_assoc] at hall⟩
      rw [List.foldlM_cons, hnext, ok_bind, hlast]

/-- A node with an earlier source that has a candidate gets one, which joins all its sources that
have one. -/
theorem improve_eq_ok (h : Candidates R r order preds.size T) (hin : IsInput R r order preds)
    (hx : x ∈ order) (hy : ∃ y p, R y x ∧ link T y = some p ∧ order.idxOf y < order.idxOf x) :
    ∃ w, improve order preds T x = .ok (T.setIfInBounds x (some w)) ∧ (∃ p, link T w = some p) ∧
      order.idxOf w < order.idxOf x ∧
      (∀ q, R q x → (∃ p, link T q = some p) → Above T w q) ∧
      ∀ c, Dominates R r c x → c ≠ x → Dominates R r c w := by
  have hmem := hin.mem_preds x hx
  obtain ⟨best, hbest, hjoins⟩ := @foldlM_joinPred_eq_ok _ _ _ _ _ h hin (preds[x]?.getD [])
    (fun q hq => hin.bound_preds x hx q ((hmem q).mp hq)) [] none (fun q hq => absurd hq List.not_mem_nil)
  rw [List.nil_append] at hjoins
  obtain ⟨y, p, harc, hlink, hlt⟩ := hy
  rcases best with _ | w
  · have hnone := hjoins y ((hmem y).mpr harc)
    simp [hlink] at hnone
  · obtain ⟨hlinked, habove, hcover⟩ := hjoins
    refine ⟨w, ?_, hlinked, ?_, fun q hq => habove q ((hmem q).mpr hq), fun c hc hne => ?_⟩
    · rw [improve, hbest]
      rfl
    · have hbefore := h.above_before hin.idxOf_root (habove y ((hmem y).mpr harc) ⟨p, hlink⟩)
      omega
    · refine hcover c fun q hq ⟨p, hp⟩ => ?_
      exact hc.of_arc hne ((hmem q).mp hq) ((hin.mem_iff q).mp (h.mem hp))

end Candidates

theorem link_setIfInBounds (hx : x < T.size) (n w : Nat) :
    link (T.setIfInBounds x (some w)) n = if n = x then some w else link T n := by
  simp only [link, Array.getElem?_setIfInBounds]
  rcases Classical.em (n = x) with rfl | hne
  · simp [hx]
  · simp [hne, Ne.symm hne]

/-- A new candidate that stands before its node, has one itself and is low enough keeps the table. -/
theorem Candidates.set (h : Candidates R r order preds.size T) (hx : x ∈ order) (hroot : x ≠ r)
    (hbound : x < preds.size) (hw : ∃ p, link T w = some p)
    (hbefore : order.idxOf w < order.idxOf x)
    (hcover : ∀ c, Dominates R r c x → c ≠ x → Dominates R r c w) :
    Candidates R r order preds.size (T.setIfInBounds x (some w)) := by
  have hlink := link_setIfInBounds (h.size_eq ▸ hbound : x < T.size)
  refine ⟨by rw [Array.size_setIfInBounds, h.size_eq], ?_, ?_, ?_, ?_, ?_⟩
  · rw [hlink, if_neg (Ne.symm hroot), h.root]
  · intro n p hn
    rw [hlink] at hn
    split at hn
    · rename_i heq
      exact heq ▸ hx
    · exact h.mem hn
  · intro n p hn hne
    rw [hlink] at hn
    split at hn
    · rename_i heq
      cases hn
      exact heq ▸ hbefore
    · exact h.before hn hne
  · have hset : ∀ {q}, (∃ p, link T q = some p) →
        ∃ p, link (T.setIfInBounds x (some w)) q = some p := by
      intro q hq
      rw [hlink]
      split
      · exact ⟨w, rfl⟩
      · exact hq
    intro n p hn
    rw [hlink] at hn
    split at hn
    · cases hn
      exact hset hw
    · exact hset (h.linked hn)
  · intro n p c hn hc hne
    rw [hlink] at hn
    split at hn
    · rename_i heq
      subst heq
      cases hn
      exact hcover c hc hne
    · exact h.covers hn hc hne

/-- Nothing that a way of at most `s` steps to `z` evades is above `z`. -/
def Separates (R : Nat → Nat → Prop) (r : Nat) (T : Array (Option Nat)) (s z : Nat) : Prop :=
  ∀ a, Within R (· ≠ a) r s z → ¬ Above T a z

theorem Separates.mono {s k : Nat} (h : Separates R r T k z) (hle : s ≤ k) : Separates R r T s z :=
  fun a ha => h a (ha.mono hle)

theorem Candidates.separates_root (h : Candidates R r order preds.size T) (s : Nat) :
    Separates R r T s r := by
  intro a ha habove
  exact ha.path.first (h.eq_root_of_above habove).symm

theorem Candidates.separates_zero (h : Candidates R r order preds.size T) (z : Nat) :
    Separates R r T 0 z := by
  intro a ha
  cases ha with
  | root _ hne => exact h.separates_root 0 a (.root 0 hne)

theorem Above.of_set (hx : x < T.size) (h : Above (T.setIfInBounds x (some w)) a z) :
    Above T a z ∨ Above T x z ∧ Above (T.setIfInBounds x (some w)) a x := by
  induction h with
  | refl => exact .inl .refl
  | @up n p hlink hup ih =>
      rcases Classical.em (n = x) with rfl | hne
      · exact .inr ⟨.refl, .up hlink hup⟩
      · have hold := hlink
        rw [link_setIfInBounds hx, if_neg hne] at hold
        rcases ih with ih | ⟨ihx, iha⟩
        · exact .inl (.up hold ih)
        · exact .inr ⟨.up hold ihx, iha⟩

theorem Candidates.separates_set {s : Nat} (h : Candidates R r order preds.size T)
    (hin : IsInput R r order preds) (hx : x ∈ order) (hroot : x ≠ r)
    (hall : ∀ z ∈ order, ∃ p, link T z = some p) (hsep : ∀ z ∈ order, Separates R r T s z)
    (hbefore : order.idxOf w < order.idxOf x)
    (habove : ∀ q, R q x → (∃ p, link T q = some p) → Above T w q) :
    Separates R r (T.setIfInBounds x (some w)) (s + 1) x := by
  have hsize : x < T.size := h.size_eq ▸ hin.bound x hx
  intro a ha hup
  cases ha with
  | root _ _ => exact hroot rfl
  | @step _ q _ hpath harc hne =>
      have hq : q ∈ order := (hin.mem_iff q).mpr (hpath.path.mono fun _ _ => trivial)
      cases hup with
      | refl => exact hne rfl
      | up hlink hup =>
          rw [link_setIfInBounds hsize, if_pos rfl] at hlink
          cases hlink
          rcases hup.of_set hsize with hup | ⟨hxw, -⟩
          · exact hsep q hq a hpath (hup.trans (habove q harc (hall q hq)))
          · exact absurd (h.above_before hin.idxOf_root hxw) (by omega)

theorem Separates.set {s : Nat} (h : Separates R r T s z) (hx : x < T.size)
    (hnew : Separates R r (T.setIfInBounds x (some w)) s x) :
    Separates R r (T.setIfInBounds x (some w)) s z := by
  intro a ha habove
  rcases habove.of_set hx with hup | ⟨hxz, hax⟩
  · exact h a ha hup
  · rcases ha.split x with hz | hx
    · exact h x hz hxz
    · exact hnew a hx hax

/-- A table in the middle of a sweep: the nodes in `done` have candidates, those in `rest` are still to
be improved. -/
structure Partway (R : Nat → Nat → Prop) (r : Nat) (order : List Nat) (size : Nat)
    (done rest : List Nat) (T : Array (Option Nat)) : Prop extends Candidates R r order size T where
  split : order = done ++ rest
  begun : done ≠ []
  reached : ∀ z ∈ done, ∃ p, link T z = some p

namespace Partway

variable {done rest : List Nat}

theorem entered (h : Partway R r order preds.size done (x :: rest) T)
    (hin : IsInput R r order preds) :
    x ∈ order ∧ x ≠ r ∧ ∃ y p, R y x ∧ link T y = some p ∧ order.idxOf y < order.idxOf x := by
  have hx : x ∈ order := h.split ▸ List.mem_append_right _ List.mem_cons_self
  have hnotMem : x ∉ done := by
    intro hmem
    have hnodup := hin.nodup
    rw [h.split] at hnodup
    exact (List.disjoint_of_nodup_append hnodup) hmem List.mem_cons_self
  have hroot : x ≠ r := by
    obtain ⟨others, hothers⟩ := hin.head
    obtain ⟨first, tail, rfl⟩ := List.exists_cons_of_ne_nil h.begun
    rintro rfl
    rw [h.split, List.cons_append, List.cons.injEq] at hothers
    exact hnotMem (hothers.1 ▸ List.mem_cons_self)
  obtain ⟨y, hy, harc, hlt⟩ := hin.entered x hx hroot
  have hmem : y ∈ done := by
    by_contra hnot
    rw [h.split, List.idxOf_append_of_notMem hnot, List.idxOf_append_of_notMem hnotMem,
      List.idxOf_cons_self] at hlt
    omega
  obtain ⟨p, hp⟩ := h.reached y hmem
  exact ⟨hx, hroot, y, p, harc, hp, hlt⟩

theorem improve_eq_ok (h : Partway R r order preds.size done (x :: rest) T)
    (hin : IsInput R r order preds) :
    ∃ U, improve order preds T x = .ok U ∧ Partway R r order preds.size (done ++ [x]) rest U := by
  obtain ⟨hx, hroot, hy⟩ := h.entered hin
  obtain ⟨w, himprove, hw, hbefore, -, hcover⟩ := h.toCandidates.improve_eq_ok hin hx hy
  have hset := h.toCandidates.set hx hroot (hin.bound x hx) hw hbefore hcover
  refine ⟨_, himprove, hset, by rw [h.split, List.append_assoc]; rfl, by simp, fun z hz => ?_⟩
  rw [link_setIfInBounds (h.size_eq ▸ hin.bound x hx)]
  split
  · exact ⟨w, rfl⟩
  · rename_i hne
    rcases List.mem_append.mp hz with hz | hz
    · exact h.reached z hz
    · exact absurd (List.mem_singleton.mp hz) hne

theorem foldlM_improve_eq_ok (h : Partway R r order preds.size done rest T)
    (hin : IsInput R r order preds) :
    ∃ U, rest.foldlM (improve order preds) T = .ok U ∧ Partway R r order preds.size order [] U := by
  induction rest generalizing done T with
  | nil =>
      have hdone : done = order := by rw [h.split, List.append_nil]
      exact ⟨T, rfl, hdone ▸ h⟩
  | cons x rest ih =>
      obtain ⟨U, himprove, hnext⟩ := h.improve_eq_ok hin
      rw [List.foldlM_cons, himprove, ok_bind]
      exact ih hnext

end Partway

theorem Candidates.partway (h : Candidates R r order preds.size T) (hin : IsInput R r order preds) :
    Partway R r order preds.size [r] order.tail T := by
  obtain ⟨rest, horder⟩ := hin.head
  exact ⟨h, by rw [horder]; rfl, List.cons_ne_nil _ _, fun z hz => ⟨r, List.mem_singleton.mp hz ▸ h.root⟩⟩

/-- A table in which every node has a candidate. -/
structure Filled (R : Nat → Nat → Prop) (r : Nat) (order : List Nat) (size : Nat)
    (T : Array (Option Nat)) : Prop extends Candidates R r order size T where
  filled : ∀ z ∈ order, ∃ p, link T z = some p

namespace Filled

theorem improve_eq_ok (h : Filled R r order preds.size T) (hin : IsInput R r order preds)
    (hx : x ∈ order) (hroot : x ≠ r) :
    ∃ w, improve order preds T x = .ok (T.setIfInBounds x (some w)) ∧
      order.idxOf w < order.idxOf x ∧ (∀ q, R q x → Reaches R r q → Above T w q) ∧
      (∀ c, Dominates R r c x → c ≠ x → Dominates R r c w) ∧
      Filled R r order preds.size (T.setIfInBounds x (some w)) := by
  obtain ⟨y, hy, harc, hlt⟩ := hin.entered x hx hroot
  obtain ⟨p, hp⟩ := h.filled y hy
  obtain ⟨w, himprove, hw, hbefore, habove, hcover⟩ :=
    h.toCandidates.improve_eq_ok hin hx ⟨y, p, harc, hp, hlt⟩
  have hset := h.toCandidates.set hx hroot (hin.bound x hx) hw hbefore hcover
  refine ⟨w, himprove, hbefore, fun q hq hreach => ?_, hcover, hset, fun z hz => ?_⟩
  · exact habove q hq (h.filled q ((hin.mem_iff q).mpr hreach))
  · rw [link_setIfInBounds (h.size_eq ▸ hin.bound x hx)]
    split
    · exact ⟨w, rfl⟩
    · exact h.filled z hz

theorem separates_foldlM (hin : IsInput R r order preds) {s : Nat} {rest : List Nat}
    {U : Array (Option Nat)} (hrest : ∀ x ∈ rest, x ∈ order ∧ x ≠ r)
    (h : Filled R r order preds.size T) (hsep : ∀ z ∈ order, Separates R r T s z)
    (hnext : ∀ z ∈ order, z ∈ rest ∨ Separates R r T (s + 1) z)
    (hrun : rest.foldlM (improve order preds) T = .ok U) :
    ∀ z ∈ order, Separates R r U (s + 1) z := by
  induction rest generalizing T with
  | nil =>
      cases hrun
      exact fun z hz => (hnext z hz).resolve_left List.not_mem_nil
  | cons x rest ih =>
      rw [List.forall_mem_cons] at hrest
      obtain ⟨⟨hx, hroot⟩, hrest⟩ := hrest
      obtain ⟨w, himprove, hbefore, habove, -, hfilled⟩ := h.improve_eq_ok hin hx hroot
      rw [List.foldlM_cons, himprove, ok_bind] at hrun
      have hsize : x < T.size := h.size_eq ▸ hin.bound x hx
      have hself : Separates R r (T.setIfInBounds x (some w)) (s + 1) x := by
        refine h.toCandidates.separates_set hin hx hroot h.filled hsep hbefore ?_
        intro q hq hlink
        exact habove q hq ((hin.mem_iff q).mp (h.mem hlink.choose_spec))
      refine ih hrest hfilled (fun z hz => ?_) (fun z hz => ?_) hrun
      · exact (hsep z hz).set hsize (hself.mono (Nat.le_succ s))
      · rcases hnext z hz with hmem | hz
        · rcases List.mem_cons.mp hmem with rfl | hmem
          · exact .inr hself
          · exact .inl hmem
        · exact .inr (hz.set hsize hself)

end Filled

/-- A table whose candidates are the immediate dominators. -/
structure Exact (R : Nat → Nat → Prop) (r : Nat) (order : List Nat) (size : Nat)
    (T : Array (Option Nat)) : Prop extends Filled R r order size T where
  separates : ∀ s, ∀ z ∈ order, Separates R r T s z

namespace Exact

theorem dominates_of_above (h : Exact R r order preds.size T) (hin : IsInput R r order preds)
    (hz : z ∈ order) (habove : Above T a z) : Dominates R r a z := by
  refine ⟨(hin.mem_iff z).mp hz, fun hevades => ?_⟩
  obtain ⟨s, hs⟩ := Within.exists_of_path hevades
  exact h.separates s z hz a hs habove

theorem immediatelyDominates (h : Exact R r order preds.size T) (hin : IsInput R r order preds)
    (hlink : link T x = some p) (hroot : x ≠ r) : ImmediatelyDominates R r p x := by
  refine ⟨h.dominates_of_above hin (h.mem hlink) (.up hlink .refl), ?_, fun q hq hne => ?_⟩
  · rintro rfl
    exact Nat.lt_irrefl _ (h.before hlink hroot)
  · exact h.covers hlink hq hne

theorem foldlM_improve (h : Exact R r order preds.size T) (hin : IsInput R r order preds)
    {rest : List Nat} (hrest : ∀ x ∈ rest, x ∈ order ∧ x ≠ r) :
    rest.foldlM (improve order preds) T = .ok T := by
  induction rest with
  | nil => rfl
  | cons x rest ih =>
      rw [List.forall_mem_cons] at hrest
      obtain ⟨⟨hx, hroot⟩, hrest⟩ := hrest
      obtain ⟨w, himprove, hbefore, habove, hcover, -⟩ := h.toFilled.improve_eq_ok hin hx hroot
      obtain ⟨p, hp⟩ := h.filled x hx
      have hw : ImmediatelyDominates R r w x := by
        refine ⟨Dominates.of_arcs ((hin.mem_iff x).mp hx) hroot fun q hq hreach => ?_, ?_, hcover⟩
        · exact h.dominates_of_above hin ((hin.mem_iff q).mpr hreach) (habove q hq hreach)
        · rintro rfl
          exact Nat.lt_irrefl _ hbefore
      obtain rfl := hw.unique (h.immediatelyDominates hin hp hroot)
      have hsame : T.setIfInBounds x (some w) = T := by
        apply Array.ext_getElem?
        intro n
        rw [Array.getElem?_setIfInBounds]
        split
        · rename_i heq
          subst heq
          rw [link, Option.join_eq_some_iff] at hp
          rw [hp, if_pos (h.size_eq ▸ hin.bound x hx)]
        · rfl
      rw [List.foldlM_cons, himprove, ok_bind, hsame]
      exact ih hrest

end Exact

theorem IsInput.tail (hin : IsInput R r order preds) : ∀ x ∈ order.tail, x ∈ order ∧ x ≠ r := by
  obtain ⟨rest, horder⟩ := hin.head
  intro x hx
  refine ⟨List.mem_of_mem_tail hx, ?_⟩
  have hnodup := hin.nodup
  rw [horder] at hx hnodup
  rintro rfl
  exact (List.nodup_cons.mp hnodup).1 hx

theorem Filled.separates_sweep {s : Nat} {U : Array (Option Nat)}
    (h : Filled R r order preds.size T) (hin : IsInput R r order preds)
    (hsep : ∀ z ∈ order, Separates R r T s z) (hsweep : sweep order preds T = .ok U) :
    ∀ z ∈ order, Separates R r U (s + 1) z := by
  refine separates_foldlM hin hin.tail h hsep (fun z hz => ?_) hsweep
  obtain ⟨rest, horder⟩ := hin.head
  rw [horder, List.mem_cons] at hz
  rcases hz with rfl | hz
  · exact .inr (h.separates_root _)
  · exact .inl (horder ▸ hz)

/-- A filled table that a sweep leaves alone is exact: the sweep separates it further and further. -/
theorem Filled.exact_of_sweep (h : Filled R r order preds.size T) (hin : IsInput R r order preds)
    (hsweep : sweep order preds T = .ok T) : Exact R r order preds.size T := by
  refine ⟨h, fun s => ?_⟩
  induction s with
  | zero => exact fun z _ => h.separates_zero z
  | succ s ih => exact h.separates_sweep hin ih hsweep

theorem Filled.exact_of_separates {s : Nat} (h : Filled R r order preds.size T)
    (hin : IsInput R r order preds) (hs : order.length ≤ s)
    (hsep : ∀ z ∈ order, Separates R r T s z) : Exact R r order preds.size T := by
  refine ⟨h, fun k z hz a ha => hsep z hz a ?_⟩
  refine (ha.bounded fun x hx => ?_).mono hs
  exact (hin.mem_iff x).mpr (hx.mono fun _ _ => trivial)

theorem Candidates.sweep_eq_ok (h : Candidates R r order preds.size T)
    (hin : IsInput R r order preds) :
    ∃ U, sweep order preds T = .ok U ∧ Filled R r order preds.size U := by
  obtain ⟨U, hU, hfull⟩ := (h.partway hin).foldlM_improve_eq_ok hin
  exact ⟨U, hU, hfull.toCandidates, hfull.reached⟩

theorem Filled.settle_eq_ok (hin : IsInput R r order preds) {s sweeps : Nat}
    (h : Filled R r order preds.size T) (hsep : ∀ z ∈ order, Separates R r T s z)
    (hsweeps : order.length ≤ s + sweeps) :
    ∃ U, settle order preds (sweeps + 1) T = .ok U ∧ Exact R r order preds.size U := by
  induction sweeps generalizing T s with
  | zero =>
      have hexact := h.exact_of_separates hin hsweeps hsep
      refine ⟨T, ?_, hexact⟩
      rw [settle, sweep, hexact.foldlM_improve hin hin.tail, ok_bind, if_pos rfl]
      rfl
  | succ sweeps ih =>
      obtain ⟨U, hU, hfilled⟩ := h.sweep_eq_ok hin
      rw [settle, hU, ok_bind]
      rcases Classical.em (U = T) with rfl | hne
      · rw [if_pos rfl]
        exact ⟨U, rfl, h.exact_of_sweep hin hU⟩
      · rw [if_neg hne]
        exact ih hfilled (h.separates_sweep hin hsep hU) (by omega)

theorem candidates_start (hin : IsInput R r order preds) :
    Candidates R r order preds.size
      ((Array.replicate preds.size none).setIfInBounds r (some r)) := by
  have hlink : ∀ n, link ((Array.replicate preds.size none).setIfInBounds r (some r)) n =
      if n = r then some r else none := by
    intro n
    rw [link_setIfInBounds (by rw [Array.size_replicate]; exact hin.bound r hin.mem_root)]
    split
    · rfl
    · rw [link, Array.getElem?_replicate]
      split <;> rfl
  have hroot : ∀ {n p}, link ((Array.replicate preds.size none).setIfInBounds r (some r)) n = some p →
      n = r ∧ p = r := by
    intro n p hn
    rw [hlink] at hn
    split at hn
    · rename_i heq
      cases hn
      exact ⟨heq, rfl⟩
    · cases hn
  refine ⟨by rw [Array.size_setIfInBounds, Array.size_replicate], by rw [hlink, if_pos rfl],
    fun hn => (hroot hn).1 ▸ hin.mem_root, fun hn hne => absurd (hroot hn).1 hne, fun hn => ?_,
    fun hn hdom hne => ?_⟩
  · rw [(hroot hn).2, hlink, if_pos rfl]
    exact ⟨r, rfl⟩
  · obtain ⟨rfl, rfl⟩ := hroot hn
    exact absurd hdom.eq_root hne

theorem settle_mono {sweeps more : Nat} {U : Array (Option Nat)}
    (h : settle order preds sweeps T = .ok U) (hle : sweeps ≤ more) :
    settle order preds more T = .ok U := by
  induction sweeps generalizing T more with
  | zero => cases h
  | succ sweeps ih =>
      obtain ⟨more, rfl⟩ : ∃ m, more = m + 1 := ⟨more - 1, by omega⟩
      rw [settle, bind_eq_ok] at h ⊢
      obtain ⟨V, hV, hrest⟩ := h
      refine ⟨V, hV, ?_⟩
      split at hrest
      · rename_i heq
        rwa [if_pos heq]
      · rename_i hne
        rw [if_neg hne]
        exact ih hrest (Nat.le_of_succ_le_succ hle)

/-- The table that the iteration starts from. -/
def start (root size : Nat) : Array (Option Nat) :=
  (Array.replicate size none).setIfInBounds root (some root)

/-- The sweeps come to an end, and it does not matter how many more are allowed. -/
theorem exists_settle (hin : IsInput R r order preds) :
    ∃ T, Exact R r order preds.size T ∧ ∀ sweeps, order.length + 1 < sweeps →
      settle order preds sweeps (start r preds.size) = .ok T := by
  obtain ⟨U, hU, hfilled⟩ := (candidates_start hin).sweep_eq_ok hin
  obtain ⟨T, hT, hexact⟩ : ∃ T, settle order preds (order.length + 2) (start r preds.size) = .ok T ∧
      Exact R r order preds.size T := by
    rw [settle, start, hU, ok_bind]
    split
    · rename_i heq
      subst heq
      exact ⟨_, rfl, hfilled.exact_of_sweep hin hU⟩
    · exact hfilled.settle_eq_ok (s := 0) hin (fun z _ => hfilled.separates_zero z) (by omega)
  exact ⟨T, hexact, fun sweeps hsweeps => settle_mono hT hsweeps⟩

theorem IsInput.lt_sweepCount (hin : IsInput R r order preds) :
    order.length + 1 < sweepCount preds.size := by
  have hlength := hin.length_le
  have hsquare := Nat.le_mul_self preds.size
  rw [sweepCount]
  omega

theorem ofOrder_of_settle (h : settle order preds (sweepCount preds.size) (start r preds.size) = .ok T) :
    ofOrder r order preds = .ok ⟨T, r⟩ := by
  rw [start] at h
  rw [ofOrder, h]
  rfl

/-- The iteration ends with the dominator tree. -/
theorem ofOrder_eq_ok (hin : IsInput R r order preds) :
    ∃ t, ofOrder r order preds = .ok t ∧ t.root = r ∧
      (∀ n, t.contains n = true ↔ Reaches R r n) ∧
      (∀ n p, t.parent? n = some p → ImmediatelyDominates R r p n) ∧
      ∀ n, Reaches R r n → n ≠ r → ∃ p, t.parent? n = some p := by
  obtain ⟨T, hexact, hsettle⟩ := exists_settle hin
  have hT := hsettle (sweepCount preds.size) (hin.lt_sweepCount)
  have hne : ∀ {n p}, link T n = some p → n ≠ r → p ≠ n := by
    rintro n p hn hroot rfl
    exact Nat.lt_irrefl _ (hexact.before hn hroot)
  refine ⟨⟨T, r⟩, ofOrder_of_settle hT, rfl, fun n => ?_, fun n p hp => ?_, fun n hn hroot => ?_⟩
  · rw [← hin.mem_iff]
    constructor
    · intro hn
      obtain ⟨p, hp⟩ := Option.isSome_iff_exists.mp hn
      exact hexact.mem hp
    · intro hn
      exact Option.isSome_iff_exists.mpr (hexact.filled n hn)
  · rw [parent?, Option.filter_eq_some_iff, decide_eq_true_eq] at hp
    refine hexact.immediatelyDominates hin hp.1 ?_
    rintro rfl
    have hroot : link T n = some p := hp.1
    rw [hexact.root] at hroot
    exact hp.2 (Option.some.inj hroot).symm
  · obtain ⟨p, hp⟩ := hexact.filled n ((hin.mem_iff n).mpr hn)
    refine ⟨p, ?_⟩
    rw [parent?, Option.filter_eq_some_iff, decide_eq_true_eq]
    exact ⟨hp, hne hp hroot⟩

end Tree

end FlowGraph
