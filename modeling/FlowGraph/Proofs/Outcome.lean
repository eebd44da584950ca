import FlowGraph.Body.Basic

namespace FlowGraph

variable {ε α β : Type}

theorem bind_eq_ok {x : Except ε α} {k : α → Except ε β} {b : β} :
    x >>= k = .ok b ↔ ∃ a, x = .ok a ∧ k a = .ok b := by
  rcases x with fault | a
  · simp [bind, Except.bind]
  · simp [bind, Except.bind]

theorem ok_bind (a : α) (k : α → Except ε β) : (Except.ok a >>= k) = k a := rfl

theorem error_bind (e : ε) (k : α → Except ε β) :
    ((Except.error e : Except ε α) >>= k) = .error e := rfl

theorem pure_eq_ok {a b : α} : (pure a : Except ε α) = .ok b ↔ a = b := by
  simp [pure, Except.pure]

theorem guard_eq_ok {c : Prop} [Decidable c] {e : ε} {k : α → Except ε β} {x : Except ε β}
    {b : β} : (if c then Except.error e >>= k else x) = .ok b ↔ ¬ c ∧ x = .ok b := by
  split
  · simp [error_bind, *]
  · simp [*]

theorem forM_eq_ok {l : List α} {g : α → Except ε Unit} {u : Unit} :
    l.forM g = .ok u ↔ ∀ x ∈ l, g x = .ok u := by
  induction l with
  | nil => simp [pure, Except.pure]
  | cons a l ih =>
      change (g a >>= fun _ => l.forM g) = .ok u ↔ _
      rw [bind_eq_ok, List.forall_mem_cons]
      constructor
      · rintro ⟨_, ha, hl⟩
        exact ⟨ha, ih.mp hl⟩
      · rintro ⟨ha, hl⟩
        exact ⟨u, ha, ih.mpr hl⟩

theorem anyM_eq_ok {l : List α} {p : α → Except ε Bool} {q : α → Bool}
    (h : ∀ x ∈ l, p x = .ok (q x)) : l.anyM p = .ok (l.any q) := by
  induction l with
  | nil => rfl
  | cons a l ih =>
      rw [List.forall_mem_cons] at h
      rw [List.anyM, h.1, ok_bind, List.any_cons]
      rcases q a with _ | _
      · exact ih h.2
      · rfl

theorem allM_eq_ok {l : List α} {p : α → Except ε Bool} {q : α → Bool}
    (h : ∀ x ∈ l, p x = .ok (q x)) : l.allM p = .ok (l.all q) := by
  induction l with
  | nil => rfl
  | cons a l ih =>
      rw [List.forall_mem_cons] at h
      rw [List.allM, h.1, ok_bind, List.all_cons]
      rcases q a with _ | _
      · rfl
      · exact ih h.2

theorem allM_eq_ok_true {l : List α} {p : α → Except ε Bool} (h : l.allM p = .ok true) :
    ∀ x ∈ l, p x = .ok true := by
  induction l with
  | nil => simp
  | cons a l ih =>
      rw [List.allM, bind_eq_ok] at h
      obtain ⟨c, ha, hrest⟩ := h
      rcases c with _ | _
      · cases hrest
      · exact List.forall_mem_cons.mpr ⟨ha, ih hrest⟩

theorem filterM_eq_ok {l : List α} {p : α → Except ε Bool} {q : α → Bool}
    (h : ∀ x ∈ l, p x = .ok (q x)) : l.filterM p = .ok (l.filter q) := by
  have hacc : ∀ acc, l.filterAuxM p acc = .ok ((l.filter q).reverse ++ acc) := by
    induction l with
    | nil =>
        intro acc
        rfl
    | cons a l ih =>
        intro acc
        rw [List.forall_mem_cons] at h
        rw [List.filterAuxM, h.1, ok_bind, ih h.2]
        rcases hq : q a with _ | _ <;> simp [hq]
  rw [List.filterM, hacc, ok_bind, List.append_nil, List.reverse_reverse]
  rfl

theorem mapM_eq_ok {l : List α} {k : α → Except ε β} {g : α → β}
    (h : ∀ x ∈ l, k x = .ok (g x)) : l.mapM k = .ok (l.map g) := by
  induction l with
  | nil => rfl
  | cons a l ih =>
      rw [List.forall_mem_cons] at h
      rw [List.mapM_cons, h.1, ok_bind, ih h.2, ok_bind]
      rfl

theorem foldlM_eq_ok {l : List α} {step : β → α → Except ε β} {g : β → α → β} {s : β}
    (h : ∀ x ∈ l, ∀ s, step s x = .ok (g s x)) : l.foldlM step s = .ok (l.foldl g s) := by
  induction l generalizing s with
  | nil => rfl
  | cons a l ih =>
      rw [List.forall_mem_cons] at h
      rw [List.foldlM_cons, h.1, ok_bind, ih h.2]
      rfl

theorem exists_findSomeM? {l : List α} {k : α → Except ε (Option β)} {P : α → Prop}
    (h : ∀ a ∈ l, ∃ found, k a = .ok found ∧ (found = none ↔ P a)) :
    ∃ found, l.findSomeM? k = .ok found ∧ (found = none ↔ ∀ a ∈ l, P a) := by
  induction l with
  | nil => exact ⟨none, rfl, by simp⟩
  | cons a l ih =>
      rw [List.forall_mem_cons] at h
      obtain ⟨⟨found, hfound, hnone⟩, hrest⟩ := h
      rw [List.findSomeM?_cons, hfound, ok_bind]
      rcases found with _ | b
      · obtain ⟨last, hrun, hlast⟩ := ih hrest
        refine ⟨last, hrun, hlast.trans ?_⟩
        rw [List.forall_mem_cons, and_iff_right (hnone.mp rfl)]
      · refine ⟨some b, rfl, iff_of_false (by simp) fun hall => ?_⟩
        cases hnone.mpr (hall a List.mem_cons_self)

/-- A fold has a result if each of its steps has one and keeps the invariant. -/
theorem exists_foldlM {step : β → α → Except ε β} {P : List α → β → Prop} {items : List α}
    {first : β} (hfirst : P [] first)
    (hstep : ∀ done a rest state, items = done ++ a :: rest → P done state →
      ∃ next, step state a = .ok next ∧ P (done ++ [a]) next) :
    ∃ last, items.foldlM step first = .ok last ∧ P items last := by
  have hfold : ∀ rest done state, items = done ++ rest → P done state →
      ∃ last, rest.foldlM step state = .ok last ∧ P items last := by
    intro rest
    induction rest with
    | nil =>
        intro done state hsplit h
        rw [hsplit, List.append_nil]
        exact ⟨state, rfl, h⟩
    | cons a rest ih =>
        intro done state hsplit h
        obtain ⟨next, hrun, hnext⟩ := hstep done a rest state hsplit h
        obtain ⟨last, hrest, hlast⟩ := ih (done ++ [a]) next (by simpa using hsplit) hnext
        refine ⟨last, ?_, hlast⟩
        rw [List.foldlM_cons, hrun]
        exact hrest
  exact hfold items [] first rfl hfirst

theorem exists_mapM {x : Option α} {k : α → Except ε β} {P : β → Prop}
    (h : ∀ a, x = some a → ∃ b, k a = .ok b ∧ P b) :
    ∃ y, x.mapM k = .ok y ∧ y.isSome = x.isSome ∧ ∀ b, y = some b → P b := by
  rcases x with _ | a
  · exact ⟨none, rfl, rfl, fun b hb => by cases hb⟩
  · obtain ⟨b, hb, hP⟩ := h a rfl
    refine ⟨some b, ?_, rfl, fun c hc => Option.some.inj hc ▸ hP⟩
    change (k a >>= fun b => pure (some b)) = _
    rw [hb]
    rfl

theorem checked_eq_ok {space : IdSpace} {index n : Nat} :
    space.checked index = .ok n ↔ index < slotLimit ∧ n = index := by
  unfold IdSpace.checked
  split
  · simp [*, eq_comm]
  · simp [*]

namespace Body

theorem value_eq_ok {f : Body} {v : ValueId} {data : Value} :
    f.value v = .ok data ↔ f.value? v = some data := by
  unfold value
  rcases f.value? v with _ | other <;> simp

theorem instr_eq_ok {f : Body} {i : InstrId} {data : Instr} :
    f.instr i = .ok data ↔ f.instr? i = some data := by
  unfold instr
  rcases f.instr? i with _ | other <;> simp

theorem terminator_eq_ok {f : Body} {b : BlockId} {t : Terminator} :
    f.terminator b = .ok t ↔ ∃ data, f.block? b = some data ∧ data.terminator = some t := by
  unfold terminator
  simp only [bind_eq_ok, block_eq_ok]
  refine exists_congr fun data => and_congr_right fun _ => ?_
  rcases data.terminator with _ | t' <;> simp [pure, Except.pure]

theorem successors_eq_ok {f : Body} {b : BlockId} {succs : List BlockId} :
    f.successors b = .ok succs ↔ ∃ data, f.block? b = some data ∧ data.successors = succs := by
  simp only [successors, bind_eq_ok, block_eq_ok, pure_eq_ok]

theorem predecessors_eq_ok {f : Body} {b : BlockId} {preds : List Edge} :
    f.predecessors b = .ok preds ↔ ∃ data, f.block? b = some data ∧ data.preds = preds := by
  simp only [predecessors, bind_eq_ok, block_eq_ok, pure_eq_ok]

theorem arg_eq_ok {f : Body} {b : BlockId} {index : Nat} {v : ValueId} :
    f.arg b index = .ok v ↔ ∃ data, f.block? b = some data ∧ data.args[index]? = some v := by
  unfold arg
  simp only [bind_eq_ok, block_eq_ok]
  refine exists_congr fun data => and_congr_right fun _ => ?_
  rcases data.args[index]? with _ | w <;> simp

theorem entry_eq_ok {f : Body} {b : BlockId} :
    f.entry = .ok b ↔ ∃ rest, f.layout = b :: rest := by
  unfold entry
  rcases f.layout with _ | ⟨c, rest⟩ <;> simp

theorem entry_eq_ok_iff_head? {f : Body} {b : BlockId} :
    f.entry = .ok b ↔ f.layout.head? = some b := by
  rw [entry_eq_ok, List.head?_eq_some_iff]

end Body

theorem Terminator.successor_eq_ok {t : Terminator} {e : Nat} {dest : BlockId} :
    t.successor e = .ok dest ↔ t.successors[e]? = some dest := by
  unfold successor
  rcases t.successors[e]? with _ | other <;> simp

theorem Terminator.edgeArgs_eq_ok {t : Terminator} {e : Nat} {args : EdgeArgs} :
    t.edgeArgs e = .ok args ↔ t.edgeArgs? e = some args := by
  unfold edgeArgs
  rcases t.edgeArgs? e with _ | other <;> simp

end FlowGraph
