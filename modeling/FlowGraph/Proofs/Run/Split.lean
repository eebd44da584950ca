import FlowGraph.Proofs.Run.Basic
import FlowGraph.Proofs.Ssa.Split

namespace FlowGraph

namespace Terminator

theorem erased_retarget (t : Terminator) (e : Nat) (dest : BlockId) :
    (t.retarget e dest).erased = t.erased := by
  rw [retarget, erased_mapEdges]

theorem erased_withEdgeArgs (t : Terminator) (e : Nat) (args : List ValueId) :
    (t.withEdgeArgs e args).erased = t.erased := by
  rw [withEdgeArgs_eq_mapEdges, erased_mapEdges]

theorem ownOperands_retarget (t : Terminator) (e : Nat) (dest : BlockId) :
    (t.retarget e dest).ownOperands = t.ownOperands := by
  rw [retarget, ownOperands_mapEdges]

theorem edgeArgs?_withEdgeArgs_of_ne (t : Terminator) {e k : Nat} (args : List ValueId)
    (hk : k ≠ e) : (t.withEdgeArgs e args).edgeArgs? k = t.edgeArgs? k := by
  rcases hold : t.explicitArgs? e with _ | old
  · rw [withEdgeArgs_of_none hold]
  · rw [edgeArgs?_withEdgeArgs hold, if_neg hk]

theorem edgeArgs?_reroute_of_explicit {t : Terminator} {e : Nat} {args : List ValueId}
    (h : t.edgeArgs? e = some (.explicit args)) (dest : BlockId) :
    ((t.withEdgeArgs e []).retarget e dest).edgeArgs? e = some (.explicit []) := by
  rw [edgeArgs?_retarget, edgeArgs?_withEdgeArgs (edgeArgs?_eq_explicit.mp h), if_pos rfl]

theorem edgeArgs?_reroute_of_implicit {t : Terminator} {e : Nat} {payload : Payload}
    (h : t.edgeArgs? e = some (.implicit payload)) (dest : BlockId) :
    ((t.withEdgeArgs e []).retarget e dest).edgeArgs? e = some (.implicit payload) := by
  have hnone : t.explicitArgs? e = none := by
    rcases hexplicit : t.explicitArgs? e with _ | args
    · rfl
    · rw [← edgeArgs?_eq_explicit, h] at hexplicit
      cases hexplicit
  rw [edgeArgs?_retarget, withEdgeArgs_of_none hnone, h]

end Terminator

namespace Body

variable {V : Type} {f g : Body} {o : Oracle V} {b mid dest c : BlockId} {e k : Nat}
  {t : Terminator} {taken args : List ValueId} {env env' : Env V} {trace : List (Event V)}

/-- The runs are at the same place, not in the block on the edge, and know the same old values. -/
inductive Interposed.Aligned (mid : BlockId) (taken : List ValueId) : State V → State V → Prop
  | intro {place : Option (BlockId × Nat)} {env env' : Env V} (trace : List (Event V))
      (hplace : ∀ {c k}, place = some (c, k) → c ≠ mid)
      (hagree : ∀ v, v ∉ taken → env v = env' v) :
      Aligned mid taken ⟨place, env, trace⟩ ⟨place, env', trace⟩

namespace Interposed

theorem Aligned.ended (hagree : ∀ v, v ∉ taken → env v = env' v) :
    Aligned mid taken ⟨none, env, trace⟩ ⟨none, env', trace⟩ :=
  .intro trace nofun hagree

theorem Aligned.at_place (hc : c ≠ mid) (hagree : ∀ v, v ∉ taken → env v = env' v) :
    Aligned mid taken ⟨some (c, k), env, trace⟩ ⟨some (c, k), env', trace⟩ := by
  refine .intro trace ?_ hagree
  rintro c k ⟨⟩
  exact hc

variable (h : f.Interposed g b t e mid dest taken args)
include h

theorem notMem_taken (hf : f.Consistent) (hg : g.Consistent) {v : ValueId}
    (hv : f.isLiveValue v = true) : v ∉ taken := by
  intro hmem
  obtain ⟨value, hvalue⟩ := Option.isSome_iff_exists.mp hv
  obtain ⟨index, kind, horigin⟩ := (hg.args.mem_args h.args?_mid).mp hmem
  have hold : f.origin? v = some (.argument mid index kind) := by
    rw [origin?, h.values hvalue] at horigin
    rw [origin?, hvalue]
    exact horigin
  exact h.ne_mid (hf.args.live_block hold) rfl

theorem map_env_eq (hf : f.Consistent) (hv : f.Valid) (hg : g.Consistent)
    (hagree : ∀ v, v ∉ taken → env v = env' v) (point : Point) {vs : List ValueId}
    (hvs : ∀ v ∈ vs, v ∈ f.operandsAt? point) : vs.map env = vs.map env' := by
  apply List.map_congr_left
  intro v hmem
  exact hagree v (h.notMem_taken hf hg (hv.live_operands (hvs v hmem)))

theorem map_env_carried (hf : f.Consistent) (hv : f.Valid) (hg : g.Consistent)
    (hagree : ∀ v, v ∉ taken → env v = env' v) {u : Terminator} {x : Nat} {vs : List ValueId}
    (hu : f.terminator? c = some u) (hgiven : u.edgeArgs? x = some (.explicit vs)) :
    vs.map env = vs.map env' := by
  refine h.map_env_eq hf hv hg hagree (.terminator c) fun v hmem => ?_
  rw [operandsAt?_terminator, hu]
  exact Terminator.mem_operands_of_explicitArgs? (Terminator.edgeArgs?_eq_explicit.mp hgiven) hmem

theorem aligned_execute (hf : f.Consistent) (hv : f.Valid) (hg : g.Consistent) {i : InstrId}
    {op : Operation} (hop : f.operation? i = some op) (hc : c ≠ mid)
    (hagree : ∀ v, v ∉ taken → env v = env' v) :
    Aligned mid taken (f.execute o c k i op ⟨some (c, k), env, trace⟩)
      (g.execute o c k i op ⟨some (c, k), env', trace⟩) := by
  have hread : op.operands.map env = op.operands.map env' := by
    refine h.map_env_eq hf hv hg hagree (.instr i) fun v hmem => ?_
    rw [operandsAt?_instr, hop]
    exact hmem
  have hresult : g.result? i = f.result? i := by rw [result?, h.instrs, result?]
  simp only [execute, hread, hresult]
  exact .at_place hc fun v hv => Env.bind_congr (hagree v hv)

theorem aligned_follow (hf : f.Consistent) (hv : f.Valid) (hg : g.Consistent)
    {u u' : Terminator} {x : Nat} (hu : f.terminator? c = some u)
    (hsuccessor : u'.successors[x]? = u.successors[x]?) (hgiven : u'.edgeArgs? x = u.edgeArgs? x)
    (hagree : ∀ v, v ∉ taken → env v = env' v) :
    Aligned mid taken (f.follow o u x env trace) (g.follow o u' x env' trace) := by
  rw [follow, follow, hsuccessor, hgiven]
  rcases hs : u.successors[x]? with _ | d
  · exact .ended hagree
  rcases hdelivers : u.edgeArgs? x with _ | given
  · exact .ended hagree
  have htarget : f.target? ⟨c, x⟩ = some d := target?_eq_some.mpr ⟨u, hu, hs⟩
  have hdelivered : o.delivered env trace ((f.args? d).getD []) given =
      o.delivered env' trace ((f.args? d).getD []) given := by
    cases given with
    | explicit vs => exact h.map_env_carried hf hv hg hagree hu hdelivers
    | implicit payload => rfl
  simp only [h.args?_target hf hu hs, hdelivered]
  exact .at_place (h.ne_mid (hf.edges.live_target htarget)) fun v hv => Env.bind_congr (hagree v hv)

theorem exists_wanted (hf : f.Consistent) (hvg : g.Valid) :
    ∃ wanted, f.args? dest = some wanted ∧ g.args? dest = some wanted ∧
      args.length = wanted.length := by
  obtain ⟨given, wanted, hgiven, hwanted, hfits⟩ := hvg.delivers (e := 0) h.terminator?_new rfl
  cases hgiven
  refine ⟨wanted, ?_, hwanted, by simpa [EdgeArgs.fits] using hfits⟩
  rw [← hwanted, h.args?_target hf h.source h.leads]

/-- The run through the new block comes to the old target with the same values. -/
theorem settles_through (hf : f.Consistent) (hv : f.Valid) (hg : g.Consistent) (hvg : g.Valid)
    (hagree : ∀ v, v ∉ taken → env v = env' v) :
    g.Settles o (Aligned mid taken) (f.follow o t e env trace)
      (g.follow o ((t.withEdgeArgs e []).retarget e mid) e env' trace) := by
  right
  obtain ⟨wanted, hold, hwanted, hlength⟩ := h.exists_wanted hf hvg
  have hinto : ((t.withEdgeArgs e []).retarget e mid).successors[e]? = some mid := by
    have hlt := (List.getElem?_eq_some_iff.mp h.leads).1
    rw [Terminator.successors_retarget, Terminator.successors_withEdgeArgs,
      List.getElem?_set_self hlt]
  have htarget : f.target? ⟨b, e⟩ = some dest := target?_eq_some.mpr ⟨t, h.source, h.leads⟩
  have hdest := h.ne_mid (hf.edges.live_target htarget)
  cases h.forwards with
  | carried hgiven =>
      rw [follow_of h.leads hgiven hold,
        follow_of hinto (Terminator.edgeArgs?_reroute_of_explicit hgiven mid) h.args?_mid]
      refine ⟨rfl, _, step?_of_br (h.instrAt?_mid 0) h.terminator?_new hwanted, ?_⟩
      change Aligned mid [] ⟨_, env.bind wanted (args.map env), _⟩
        ⟨_, env'.bind wanted (args.map env'), _⟩
      rw [h.map_env_carried hf hv hg hagree h.source hgiven]
      exact .at_place hdest fun v hv => Env.bind_congr (hagree v hv)
  | @taken _ payload hgiven =>
      rw [follow_of h.leads hgiven hold,
        follow_of hinto (Terminator.edgeArgs?_reroute_of_implicit hgiven mid) h.args?_mid]
      refine ⟨rfl, _, step?_of_br (h.instrAt?_mid 0) h.terminator?_new hwanted, ?_⟩
      -- What the block passes on is what it has received, once for every argument of the target.
      have hreceived : taken.map (env'.bind taken (taken.map fun _ => some (o.payload trace))) =
          wanted.map fun _ => some (o.payload trace) := by
        rw [Env.map_bind_self (hg.args.nodup_args h.args?_mid) (List.length_map _).symm,
          List.map_const', hlength, ← List.map_const']
      rw [Oracle.delivered, Oracle.delivered, hreceived]
      refine .at_place hdest fun v hv => Env.bind_congr ?_
      rw [Env.bind_of_notMem hv]
      exact hagree v hv

theorem settles_leave (hf : f.Consistent) (hv : f.Valid) (hg : g.Consistent) (hvg : g.Valid)
    {u u' : Terminator} (hu : f.terminator? c = some u) (hu' : g.terminator? c = some u')
    (hc : c ≠ mid) (hagree : ∀ v, v ∉ taken → env v = env' v) :
    g.Settles o (Aligned mid taken) (f.leave o u ⟨some (c, k), env, trace⟩)
      (g.leave o u' ⟨some (c, k), env', trace⟩) := by
  have hown : u.ownOperands.map env = u.ownOperands.map env' := by
    refine h.map_env_eq hf hv hg hagree (.terminator c) fun v hmem => ?_
    rw [operandsAt?_terminator, hu]
    exact Terminator.mem_operands_iff.mpr (.inl hmem)
  rw [h.terminators, if_neg hc] at hu'
  split at hu'
  · rename_i hcb
    subst hcb
    cases hu'
    obtain rfl := Option.some.inj (h.source.symm.trans hu)
    simp only [leave, Terminator.erased_retarget, Terminator.erased_withEdgeArgs,
      Terminator.ownOperands_retarget, Terminator.ownOperands_withEdgeArgs, hown]
    generalize o.choose t.erased (t.ownOperands.map env') trace = next
    obtain ⟨trace, x⟩ := next
    -- The oracle picks the edge with the block on it, or another.
    rcases Classical.em (x = e) with rfl | hne
    · exact h.settles_through hf hv hg hvg hagree
    · refine .inl (h.aligned_follow hf hv hg hu ?_ ?_ hagree)
      · rw [Terminator.successors_retarget, Terminator.successors_withEdgeArgs,
          List.getElem?_set_ne (Ne.symm hne)]
      · rw [Terminator.edgeArgs?_retarget, Terminator.edgeArgs?_withEdgeArgs_of_ne t [] hne]
  · obtain rfl := Option.some.inj (hu.symm.trans hu')
    simp only [leave, hown]
    exact .inl (h.aligned_follow hf hv hg hu rfl rfl hagree)

theorem keepsUp (hf : f.Consistent) (hv : f.Valid) (hg : g.Consistent) (hvg : g.Valid)
    (o : Oracle V) (inputs : List V) : KeepsUp f g o (Aligned mid taken) inputs inputs where
  trace := by
    intro s t hst
    cases hst
    rfl
  ended := by
    intro s t hst
    cases hst
    rfl
  start := by
    right
    obtain ⟨entry, rest, hlayout⟩ := List.exists_cons_of_ne_nil hv.nonempty
    have hentry : f.entry = .ok entry := entry_eq_ok.mpr ⟨rest, hlayout⟩
    have hne := h.ne_mid (hf.isLiveBlock_entry hentry)
    refine ⟨_, _, start?_of hentry inputs, start?_of (h.entry.mpr hentry) inputs, .inl ?_⟩
    rw [h.takes, if_neg hne]
    exact .at_place hne fun _ _ => rfl
  step := by
    rintro s t ⟨trace, hplace, hagree⟩
    rename_i place env env'
    -- Only the terminators differ, so the cases are those of the step function.
    rcases place with _ | ⟨c, k⟩
    · exact .inl ⟨step?_of_place_eq_none rfl, step?_of_place_eq_none rfl⟩
    have hc := hplace rfl
    have hat := h.instrAt?_of_ne hc k
    rcases hi : f.instrAt? c k with _ | i
    · rw [hi] at hat
      rw [step?_of_instrAt?_eq_none rfl hi, step?_of_instrAt?_eq_none rfl hat]
      rcases hu : f.terminator? c with _ | u
      · left
        have hcb : c ≠ b := by
          rintro rfl
          cases hu.symm.trans h.source
        rw [h.terminators, if_neg hc, if_neg hcb, hu]
        exact ⟨rfl, rfl⟩
      · right
        obtain ⟨u', hu'⟩ : ∃ u', g.terminator? c = some u' := by
          rw [h.terminators, if_neg hc]
          split
          · exact ⟨_, rfl⟩
          · exact ⟨u, hu⟩
        rw [hu']
        exact ⟨_, _, rfl, rfl, h.settles_leave hf hv hg hvg hu hu' hc hagree⟩
    · rw [hi] at hat
      rw [step?_of_instrAt? rfl hi, step?_of_instrAt? rfl hat]
      have hsame : g.operation? i = f.operation? i := by rw [operation?, h.instrs, operation?]
      rw [hsame]
      rcases hop : f.operation? i with _ | op
      · exact .inl ⟨rfl, rfl⟩
      · exact .inr ⟨_, _, rfl, rfl, .inl (h.aligned_execute hf hv hg hop hc hagree)⟩

/-- A block on an edge changes nothing that can be seen. -/
theorem sameRuns (hf : f.Consistent) (hv : f.Valid) (hg : g.Consistent) (hvg : g.Valid) :
    f.SameRuns g :=
  .of_keepsUp fun _ o inputs => ⟨_, h.keepsUp hf hv hg hvg o inputs⟩

end Interposed

end Body

end FlowGraph
