namespace FlowGraph

variable {α : Type}

def weigh (w : α → Nat) : List α → Nat
  | [] => 0
  | x :: rest => w x + weigh w rest

theorem weigh_set (w : α → Nat) (l : List α) {i : Nat} {x : α} (y : α) (h : l[i]? = some x) :
    weigh w (l.set i y) + w x = weigh w l + w y := by
  induction l generalizing i with
  | nil => simp at h
  | cons z l ih =>
    cases i with
    | zero =>
      simp only [List.getElem?_cons_zero, Option.some.injEq] at h
      subst h
      simp only [List.set_cons_zero, weigh]
      omega
    | succ i =>
      simp only [List.getElem?_cons_succ] at h
      have := ih h
      simp only [List.set_cons_succ, weigh]
      omega

theorem weigh_filter_cons_le [DecidableEq α] (w : α → Nat) (l seen : List α) (a : α) :
    weigh w (l.filter (· ∉ a :: seen)) ≤ weigh w (l.filter (· ∉ seen)) := by
  induction l with
  | nil => exact Nat.le_refl _
  | cons x l ih =>
    by_cases hx : x ∈ seen
    · simpa [List.filter_cons, hx] using ih
    · by_cases hxa : x = a
      · subst hxa
        simp only [List.filter_cons, List.mem_cons, hx, not_false_eq_true, decide_true,
          true_or, not_true_eq_false, decide_false, if_true, weigh] at ih ⊢
        simp only [Bool.false_eq_true, if_false]
        omega
      · simp only [List.filter_cons, List.mem_cons, hx, hxa, or_self, not_false_eq_true,
          decide_true, if_true, weigh] at ih ⊢
        omega

theorem weigh_filter_cons_add_le [DecidableEq α] (w : α → Nat) {l seen : List α} {a : α} (ha : a ∈ l)
    (hseen : a ∉ seen) :
    weigh w (l.filter (· ∉ a :: seen)) + w a ≤ weigh w (l.filter (· ∉ seen)) := by
  induction l with
  | nil => cases ha
  | cons x l ih =>
    by_cases hxa : x = a
    · subst hxa
      have := weigh_filter_cons_le w l seen x
      simp only [List.filter_cons, List.mem_cons, hseen, not_false_eq_true, decide_true,
        true_or, not_true_eq_false, decide_false, if_true, weigh] at this ⊢
      simp only [Bool.false_eq_true, if_false]
      omega
    · have hmem : a ∈ l := by
        rcases List.mem_cons.1 ha with h | h
        · exact absurd h.symm hxa
        · exact h
      have := ih hmem
      by_cases hx : x ∈ seen
      · simpa [List.filter_cons, hx] using this
      · simp only [List.filter_cons, List.mem_cons, hx, hxa, or_self, not_false_eq_true,
          decide_true, if_true, weigh] at this ⊢
        omega

end FlowGraph
