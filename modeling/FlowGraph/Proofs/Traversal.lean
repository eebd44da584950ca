import FlowGraph.Proofs.Loop.Exact

namespace FlowGraph

namespace Graph

variable {α : Type} [DecidableEq α] {g : Graph α} {w : Walk α} {last : Walk α}
  {a x start : α} {seen order post found : List α}

/-- A walk that is stopped has finished the first nodes of the order, and will finish the others if it
goes on. -/
theorem exists_take (h : g.drain w = .ok (order, last)) (count : Nat) :
    ∃ v, g.take count w = .ok (order.take count, v) ∧ g.drain v = .ok (order.drop count, last) := by
  induction count generalizing w order with
  | zero => exact ⟨w, rfl, h⟩
  | succ count ih =>
      rw [drain_eq] at h
      rw [take]
      rcases hpull : g.pull w with fault | _ | ⟨a, w'⟩
      · simp only [hpull] at h
        cases h
      · simp only [hpull, Except.ok.injEq, Prod.mk.injEq] at h
        obtain ⟨rfl, rfl⟩ := h
        refine ⟨w, rfl, ?_⟩
        rw [drain_eq, hpull]
        rfl
      · rcases hrest : g.drain w' with fault | ⟨rest, last'⟩
        · simp only [hpull, hrest] at h
          cases h
        · simp only [hpull, hrest, Except.ok.injEq, Prod.mk.injEq] at h
          obtain ⟨rfl, rfl⟩ := h
          obtain ⟨v, htake, hdrain⟩ := ih hrest
          refine ⟨v, ?_, hdrain⟩
          rw [ok_bind]
          change (g.take count w' >>= _) = _
          rw [htake]
          rfl

/-- Complete walks from one node after the other. Each takes for explored what has been seen before it.
-/
def drainEach (g : Graph α) : List α → List α → Except Fault (List α × List α)
  | [], seen => .ok ([], seen)
  | start :: starts, seen => do
    let (order, w) ← g.drain (← g.walkFrom start seen)
    let (others, seen) ← g.drainEach starts w.seen
    return (order ++ others, seen)

omit [DecidableEq α] in
/-- A later walk misses only what an earlier one has found: what can be reached from there has been
found as well. -/
theorem Explores.path_or_mem (h : g.Explores start seen post found)
    (hx : Path g.Arc (· ∉ seen) a x) : Path g.Arc (· ∉ found) a x ∨ x ∈ post := by
  have hfound : ∀ y, y ∉ seen → y ∉ found ∨ y ∈ post := by
    intro y hy
    rw [h.mem_last]
    rcases Classical.em (y ∈ post) with hmem | hnot
    · exact .inr hmem
    · exact .inl (not_or.mpr ⟨hy, hnot⟩)
  induction hx with
  | root ha => exact (hfound a ha).imp_left .root
  | step _ harc hy ih =>
      rcases ih with haround | hpost
      · exact (hfound _ hy).imp_left (haround.step harc)
      · exact .inr ((h.mem_iff _).mpr (((h.mem_iff _).mp hpost).step harc hy))

theorem exists_drainEach {P : α → Prop}
    (hP : ∀ a, P a → ∃ neighbours, g.next a = .ok neighbours ∧ ∀ b ∈ neighbours, P b)
    {starts : List α} (hstarts : ∀ start ∈ starts, P start) (seen : List α) :
    ∃ all found, g.drainEach starts seen = .ok (all, found) ∧ all.Nodup ∧
      ∀ x, x ∈ all ↔ ∃ start ∈ starts, Path g.Arc (· ∉ seen) start x := by
  induction starts generalizing seen with
  | nil => exact ⟨[], seen, rfl, List.nodup_nil, fun x => by simp⟩
  | cons start starts ih =>
      rw [List.forall_mem_cons] at hstarts
      obtain ⟨w, post, found, hwalk, hdrain, hpost⟩ := exists_walk hP hstarts.1 seen
      obtain ⟨others, all, hrun, hnodup, hmem⟩ := ih hstarts.2 found
      have hnarrow : ∀ y, y ∉ found → y ∉ seen := fun y hy hseen =>
        hy ((hpost.mem_last y).mpr (.inl hseen))
      refine ⟨post ++ others, all, ?_, ?_, fun x => ?_⟩
      · rw [drainEach, hwalk, ok_bind, hdrain, ok_bind]
        change (g.drainEach starts found >>= _) = _
        rw [hrun]
        rfl
      · rw [List.nodup_append']
        refine ⟨hpost.nodup, hnodup, fun x hx hother => ?_⟩
        obtain ⟨other, -, hpath⟩ := (hmem x).mp hother
        exact hpath.last ((hpost.mem_last x).mpr (.inr hx))
      · rw [List.mem_append, hmem, hpost.mem_iff, List.exists_mem_cons_iff]
        constructor
        · rintro (hpath | ⟨other, hother, hpath⟩)
          · exact .inl hpath
          · exact .inr ⟨other, hother, hpath.mono hnarrow⟩
        · rintro (hpath | ⟨other, hother, hpath⟩)
          · exact .inl hpath
          · rcases hpost.path_or_mem hpath with haround | hx
            · exact .inr ⟨other, hother, haround⟩
            · exact .inl ((hpost.mem_iff x).mp hx)

end Graph

namespace BlockOrder

variable {o : BlockOrder} {b : BlockId}

theorem reverseNumber?_of_number? {n : Nat} (h : o.number? b = some n) :
    o.reverseNumber? b = some (o.post.length - 1 - n) := by
  rw [reverseNumber?, h, Option.map_some]

theorem number?_eq_none : o.number? b = none ↔ b ∉ o.post := by
  rw [number?, List.idxOf?_eq_none_iff]

theorem reverseNumber?_eq_none : o.reverseNumber? b = none ↔ b ∉ o.post := by
  rw [reverseNumber?, Option.map_eq_none_iff, number?_eq_none]

end BlockOrder

/-- Walks through a well-built body from its live blocks are depth-first and complete. -/
theorem WellBuilt.walks_exact {f : Body} (hf : WellBuilt f) :
    (∀ start seen, f.isLiveBlock start = true → ∃ w order last,
      f.flow.walkFrom start seen = .ok w ∧ f.flow.drain w = .ok (order, ⟨last, []⟩) ∧
      order.Nodup ∧ (∀ b, b ∈ order ↔ Path f.Arc (· ∉ seen) start b) ∧
      (∀ b, b ∈ last ↔ b ∈ seen ∨ b ∈ order) ∧
      (∀ u v, [u, v].Sublist order → f.Arc u v → Path f.Arc (· ∈ order) v u) ∧
      (∀ count, ∃ v, f.flow.take count w = .ok (order.take count, v) ∧
        f.flow.drain v = .ok (order.drop count, ⟨last, []⟩)) ∧
      f.postOrderFrom start seen = .ok order ∧
      f.reversePostOrderFrom start seen = .ok order.reverse) ∧
    (∀ starts, (∀ start ∈ starts, f.isLiveBlock start = true) → ∃ order last,
      f.flow.drainEach starts [] = .ok (order, last) ∧ order.Nodup ∧
      ∀ b, b ∈ order ↔ ∃ start ∈ starts, Reaches f.Arc start b) ∧
    ∀ entry, f.entry = .ok entry → ∃ o, f.blockOrder = .ok o ∧
      (∀ b n, o.number? b = some n ↔ o.post[n]? = some b) ∧
      (∀ b n, o.number? b = some n →
        n < o.post.length ∧ o.reverseNumber? b = some (o.post.length - 1 - n)) ∧
      ∀ b, (o.number? b = none ↔ ¬ Reaches f.Arc entry b) ∧
        (o.reverseNumber? b = none ↔ ¬ Reaches f.Arc entry b) := by
  have hnext := hf.consistent.exists_next
  refine ⟨fun start seen hstart => ?_, fun starts hstarts => ?_, fun entry hentry => ?_⟩
  · obtain ⟨w, order, last, hwalk, hdrain, hexplores⟩ := Graph.exists_walk hnext hstart seen
    have hpost : f.postOrderFrom start seen = .ok order := Graph.postOrder_of_drain hwalk hdrain
    refine ⟨w, order, last, hwalk, hdrain, hexplores.nodup, ?_, hexplores.mem_last, ?_,
      Graph.exists_take hdrain, hpost, ?_⟩
    · rw [← Body.arc_flow]
      exact hexplores.mem_iff
    · rw [← Body.arc_flow]
      exact hexplores.returns
    · rw [Body.reversePostOrderFrom, hpost]
      rfl
  · obtain ⟨order, last, hrun, hnodup, hmem⟩ := Graph.exists_drainEach hnext hstarts []
    refine ⟨order, last, hrun, hnodup, fun b => (hmem b).trans ?_⟩
    rw [Body.arc_flow]
    refine exists_congr fun start => and_congr_right fun _ => ?_
    exact ⟨fun h => h.mono fun _ _ => trivial, fun h => h.mono fun _ _ => List.not_mem_nil⟩
  · obtain ⟨o, hrun, hpost⟩ := hf.consistent.exists_blockOrder hentry
    have hmem : ∀ b, b ∉ o.post ↔ ¬ Reaches f.Arc entry b := by
      intro b
      rw [hpost.mem_iff, Body.arc_flow]
    refine ⟨o, hrun, fun b n => BlockOrder.number?_eq_some hpost.nodup, fun b n hn => ?_, fun b => ?_⟩
    · refine ⟨?_, BlockOrder.reverseNumber?_of_number? hn⟩
      exact (List.getElem?_eq_some_iff.mp ((BlockOrder.number?_eq_some hpost.nodup).mp hn)).1
    · rw [BlockOrder.number?_eq_none, BlockOrder.reverseNumber?_eq_none, hmem]
      exact ⟨Iff.rfl, Iff.rfl⟩

/-- Without the block that leads out of it, the walk does not leave the inner loop. -/
theorem nestedLoops_walks_exact :
    nestedLoops.postOrderFrom ⟨2⟩ [⟨5⟩] = .ok [⟨4⟩, ⟨3⟩, ⟨2⟩] ∧
      ¬ Path nestedLoops.Arc (· ∉ [⟨5⟩]) ⟨2⟩ ⟨1⟩ ∧
      Path nestedLoops.Arc (· ∈ [⟨4⟩, ⟨3⟩, ⟨2⟩]) ⟨3⟩ ⟨4⟩ ∧
      (∃ order last, nestedLoops.flow.drainEach [⟨6⟩, ⟨5⟩, ⟨7⟩] [] = .ok (order, last) ∧
        order.Nodup ∧ ⟨3⟩ ∈ order) ∧
      ∃ o, nestedLoops.blockOrder = .ok o ∧ o.number? ⟨7⟩ = none ∧
        o.reverseNumber? ⟨0⟩ = some 0 := by
  have hf : WellBuilt nestedLoops := wellBuilt_replayed _
  have hentry : nestedLoops.entry = .ok ⟨0⟩ := by cbv
  have hinner : nestedLoops.postOrderFrom ⟨2⟩ [⟨5⟩] = .ok [⟨4⟩, ⟨3⟩, ⟨2⟩] := by decide +kernel
  have hnumbers : nestedLoops.blockOrder.map (fun o => (o.number? ⟨7⟩, o.number? ⟨0⟩, o.post.length)) =
      .ok (none, some 6, 7) := by decide +kernel
  obtain ⟨hwalk, heach, hnumber⟩ := WellBuilt.walks_exact hf
  obtain ⟨w, order, last, -, -, -, hmem, -, hreturns, -, hpost, -⟩ := hwalk ⟨2⟩ [⟨5⟩] (by cbv)
  rw [hinner, Except.ok.injEq] at hpost
  subst hpost
  obtain ⟨all, found, hall, hnodup, hreach⟩ := heach [⟨6⟩, ⟨5⟩, ⟨7⟩] (by decide +kernel)
  obtain ⟨o, ho, -, hreverse, -⟩ := hnumber ⟨0⟩ hentry
  rw [ho] at hnumbers
  simp only [Except.map, Except.ok.injEq, Prod.mk.injEq] at hnumbers
  obtain ⟨hseven, hzero, hlength⟩ := hnumbers
  have hthree : Reaches nestedLoops.Arc ⟨5⟩ ⟨3⟩ := by
    have hone : Reaches nestedLoops.Arc ⟨5⟩ ⟨1⟩ := reaches_root.step ⟨1, by cbv⟩
    have htwo : Reaches nestedLoops.Arc ⟨5⟩ ⟨2⟩ := hone.step ⟨0, by cbv⟩
    exact htwo.step ⟨0, by cbv⟩
  refine ⟨hinner, fun hout => ?_, hreturns ⟨4⟩ ⟨3⟩ (by decide) ⟨0, by cbv⟩,
    ⟨all, found, hall, hnodup, (hreach ⟨3⟩).mpr ⟨⟨5⟩, by decide, hthree⟩⟩, o, ho, hseven, ?_⟩
  · exact absurd ((hmem ⟨1⟩).mpr hout) (by decide)
  · rw [(hreverse ⟨0⟩ 6 hzero).2, hlength]

end FlowGraph
