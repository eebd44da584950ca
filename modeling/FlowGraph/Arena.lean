import FlowGraph.Weight

/-!
Arenas: numbered slots that are filled in order, can be emptied, and are never filled again. The
view of an arena is `get?`; the lemmas below say what each operation does to it.
-/

namespace FlowGraph

/-- Slots numbered from zero; an emptied slot keeps its number. -/
structure Arena (α : Type) where
  slots : Array (Option α) := #[]
  deriving DecidableEq, Repr, Inhabited

namespace Arena

variable {α : Type}

/-- The number of slots, filled or empty. -/
def size (a : Arena α) : Nat := a.slots.size

def get? (a : Arena α) (i : Nat) : Option α := a.slots[i]?.getD none

/-- Fill the next slot, whose number is `a.size`. -/
def alloc (a : Arena α) (x : α) : Arena α := ⟨a.slots.push (some x)⟩

def erase (a : Arena α) (i : Nat) : Arena α := ⟨a.slots.setIfInBounds i none⟩

def modify (a : Arena α) (i : Nat) (g : α → α) : Arena α := ⟨a.slots.modify i (Option.map g)⟩

def isLive (a : Arena α) (i : Nat) : Bool := (a.get? i).isSome

/-- The numbers of the filled slots, in increasing order. -/
def live (a : Arena α) : List Nat := (List.range a.size).filter a.isLive

/-- The sum of `w` over the contents of the filled slots. -/
def total (a : Arena α) (w : α → Nat) : Nat := weigh (fun slot => (slot.map w).getD 0) a.slots.toList

@[simp] theorem size_alloc (a : Arena α) (x : α) : (a.alloc x).size = a.size + 1 := by
  simp [size, alloc]

@[simp] theorem size_erase (a : Arena α) (i : Nat) : (a.erase i).size = a.size := by
  simp [size, erase]

@[simp] theorem size_modify (a : Arena α) (i : Nat) (g : α → α) :
    (a.modify i g).size = a.size := by
  simp [size, modify]

theorem get?_eq_none_of_size_le {a : Arena α} {i : Nat} (h : a.size ≤ i) : a.get? i = none := by
  simp [get?, Array.getElem?_eq_none h]

theorem lt_size_of_get? {a : Arena α} {i : Nat} {x : α} (h : a.get? i = some x) : i < a.size := by
  rcases Nat.lt_or_ge i a.size with hi | hi
  · exact hi
  · rw [get?_eq_none_of_size_le hi] at h
    cases h

theorem ext_get? {a b : Arena α} (hsize : a.size = b.size) (hget : ∀ i, a.get? i = b.get? i) :
    a = b := by
  rcases a with ⟨slots⟩
  rcases b with ⟨slots'⟩
  refine congrArg Arena.mk (Array.ext hsize fun i hi hi' => ?_)
  simpa [get?, Array.getElem?_eq_getElem hi, Array.getElem?_eq_getElem hi'] using hget i

theorem get?_alloc (a : Arena α) (x : α) (i : Nat) :
    (a.alloc x).get? i = if i = a.size then some x else a.get? i := by
  simp only [get?, alloc, size, Array.getElem?_push]
  split <;> simp_all

theorem get?_erase (a : Arena α) (i j : Nat) :
    (a.erase i).get? j = if j = i then none else a.get? j := by
  simp only [get?, erase, Array.getElem?_setIfInBounds]
  by_cases h : i = j
  · subst h
    by_cases hi : i < a.slots.size <;> simp [hi]
  · simp [h, Ne.symm h]

theorem get?_modify (a : Arena α) (i j : Nat) (g : α → α) :
    (a.modify i g).get? j = if j = i then (a.get? j).map g else a.get? j := by
  simp only [get?, modify, Array.getElem?_modify]
  by_cases h : i = j
  · subst h
    cases hs : a.slots[i]? with
    | none => simp
    | some x => cases x <;> simp
  · simp [h, Ne.symm h]

theorem isLive_iff {a : Arena α} {i : Nat} : a.isLive i = true ↔ ∃ x, a.get? i = some x := by
  simp [isLive, Option.isSome_iff_exists]

theorem mem_live {a : Arena α} {i : Nat} : i ∈ a.live ↔ ∃ x, a.get? i = some x := by
  simp only [live, List.mem_filter, List.mem_range, isLive_iff]
  exact ⟨fun h => h.2, fun ⟨x, h⟩ => ⟨lt_size_of_get? h, x, h⟩⟩

@[simp] theorem live_modify (a : Arena α) (i : Nat) (g : α → α) : (a.modify i g).live = a.live := by
  unfold live
  rw [size_modify]
  congr 1
  funext j
  simp only [isLive, get?_modify]
  split <;> simp

theorem live_erase (a : Arena α) (i : Nat) : (a.erase i).live = a.live.filter (· ≠ i) := by
  unfold live
  rw [size_erase, List.filter_filter]
  congr 1
  funext j
  simp only [isLive, get?_erase]
  by_cases h : j = i <;> simp [h]

theorem slots_of_get? {a : Arena α} {i : Nat} {x : α} (h : a.get? i = some x) :
    a.slots.toList[i]? = some (some x) := by
  rw [Array.getElem?_toList]
  rcases hs : a.slots[i]? with _ | slot
  · rw [get?, hs] at h
    cases h
  · rw [get?, hs] at h
    exact congrArg some h

theorem total_erase {a : Arena α} {i : Nat} {x : α} (w : α → Nat) (h : a.get? i = some x) :
    (a.erase i).total w + w x = a.total w := by
  have := weigh_set (fun slot : Option α => (slot.map w).getD 0) a.slots.toList none
    (slots_of_get? h)
  simpa [total, erase] using this

theorem total_modify {a : Arena α} {i : Nat} {x : α} (w : α → Nat) (g : α → α)
    (h : a.get? i = some x) : (a.modify i g).total w + w x = a.total w + w (g x) := by
  have hs := slots_of_get? h
  have := weigh_set (fun slot : Option α => (slot.map w).getD 0) a.slots.toList (some (g x)) hs
  have hmod : (a.modify i g).slots.toList = a.slots.toList.set i (some (g x)) := by
    apply List.ext_getElem?
    intro j
    simp only [modify, Array.getElem?_toList, Array.getElem?_modify, List.getElem?_set,
      Array.length_toList] at hs ⊢
    by_cases hij : i = j
    · subst hij
      have hlt := lt_size_of_get? h
      rw [size] at hlt
      rw [if_pos rfl, if_pos rfl, if_pos hlt, hs]
      rfl
    · simp [hij]
  simpa [total, hmod] using this

theorem total_modify_of_eq {a : Arena α} (i : Nat) (w : α → Nat) (g : α → α)
    (h : ∀ x, w (g x) = w x) : (a.modify i g).total w = a.total w := by
  cases hx : a.get? i with
  | some x =>
    have := total_modify w g hx
    rw [h] at this
    omega
  | none =>
    have hmod : a.modify i g = a := by
      cases a with
      | mk slots =>
        simp only [modify, mk.injEq]
        apply Array.ext_getElem?
        intro j
        rw [Array.getElem?_modify]
        by_cases hij : i = j
        · subst hij
          rw [if_pos rfl]
          rcases hs : slots[i]? with _ | slot
          · rfl
          · rw [get?, hs] at hx
            cases (hx : slot = none)
            rfl
        · simp [hij]
    rw [hmod]

end Arena

end FlowGraph
