import FlowGraph.Proofs.Run.Basic
import FlowGraph.Proofs.Ssa.Fusion

/-!
Runs of a body in which a block has been taken into its predecessor. The body with both blocks has
one step more, the branch between them, which is not seen. What remains to be shown is that an
operand read in place of an argument has not changed since the branch.
-/

namespace FlowGraph

/-- Replace each value that an edge carries by its image. -/
def EdgeArgs.mapOperands (σ : ValueId → ValueId) : EdgeArgs → EdgeArgs
  | .explicit args => .explicit (args.map σ)
  | .implicit payload => .implicit payload

namespace Terminator

theorem edgeArgs?_mapOperands (t : Terminator) (e : Nat) (σ : ValueId → ValueId) :
    (t.mapOperands σ).edgeArgs? e = (t.edgeArgs? e).map (·.mapOperands σ) := by
  rcases hgiven : t.edgeArgs? e with _ | args | payload
  · cases t <;> rcases e with _ | _ | e <;> simp_all [edgeArgs?, mapOperands]
  · apply edgeArgs?_eq_explicit.mpr
    rw [explicitArgs?_mapOperands, edgeArgs?_eq_explicit.mp hgiven]
    rfl
  · exact edgeArgs?_mapOperands_of_implicit hgiven σ

end Terminator

namespace Body

variable {V : Type} {f g : Body} {o : Oracle V} {b tail entry c : BlockId} {k : Nat}
  {front : List InstrId} {args operands : List ValueId} {σ : ValueId → ValueId}
  {env env' : Env V} {trace : List (Event V)}

/-- Only blocks that `tail` dominates read its arguments, and they do not define the operands. -/
structure Fused.Guarded (g : Body) (entry tail : BlockId) (args operands : List ValueId) :
    Prop where
  reads : ∀ {v c k}, Reaches g.Arc entry c → g.Reads v c k → v ∈ args →
    Dominates g.Arc entry tail c
  defines : ∀ {v c k}, v ∈ operands → g.Defines v c k → ¬ Dominates g.Arc entry tail c

/-- The values of two runs at block `c`: they agree apart from the arguments, and an argument has
the value of its operand while `tail` dominates. -/
structure Fused.Agree (g : Body) (entry tail : BlockId) (args : List ValueId)
    (σ : ValueId → ValueId) (c : BlockId) (env env' : Env V) : Prop where
  others : ∀ v, v ∉ args → env v = env' v
  carried : Dominates g.Arc entry tail c → ∀ v ∈ args, env' v = env' (σ v)

/-- The runs are at the same place, which is not the branch between the two blocks. -/
inductive Fused.Aligned (g : Body) (entry b tail : BlockId) (front : List InstrId)
    (args : List ValueId) (σ : ValueId → ValueId) : State V → State V → Prop
  | ended (env env' : Env V) (trace : List (Event V)) :
      Aligned g entry b tail front args σ ⟨none, env, trace⟩ ⟨none, env', trace⟩
  | running {c : BlockId} {k : Nat} {env env' : Env V} (trace : List (Event V))
      (hreach : Reaches g.Arc entry c) (hfront : c = b → k < front.length)
      (hagree : Fused.Agree g entry tail args σ c env env') :
      Aligned g entry b tail front args σ ⟨some (joint b tail front c k), env, trace⟩
        ⟨some (c, k), env', trace⟩

namespace Fused

theorem Agree.eq_of_reads (h : f.Fused g b tail front args operands σ)
    (hguard : Guarded g entry tail args operands) (hagree : Agree g entry tail args σ c env env')
    (hreach : Reaches g.Arc entry c) {v : ValueId} (hv : g.Reads v c k) : env (σ v) = env' v := by
  rcases Classical.em (v ∈ args) with hmem | hmem
  · rw [hagree.carried (hguard.reads hreach hv hmem) v hmem]
    exact hagree.others _ (h.rename_notMem v)
  · rw [h.keeps hmem]
    exact hagree.others v hmem

/-- Binding values in a block, other than to the arguments, keeps the agreement if it does not touch
operands where that matters. -/
theorem Agree.bind {d : BlockId} {names : List ValueId} (values : List (Option V))
    (hagree : Agree g entry tail args σ c env env')
    (hdom : Dominates g.Arc entry tail d → Dominates g.Arc entry tail c)
    (hnames : ∀ v ∈ args, v ∉ names)
    (hfree : Dominates g.Arc entry tail d → ∀ v ∈ args, σ v ∉ names) :
    Agree g entry tail args σ d (env.bind names values) (env'.bind names values) := by
  refine ⟨fun v hv => Env.bind_congr (hagree.others v hv), fun hd v hv => ?_⟩
  rw [Env.bind_of_notMem (hnames v hv), Env.bind_of_notMem (hfree hd v hv)]
  exact hagree.carried (hdom hd) v hv

variable (h : f.Fused g b tail front args operands σ)
include h

/-- The run with both blocks comes to the place where the other run is, or is one branch behind. -/
theorem settles (hg : g.Consistent) (hreach : Reaches g.Arc entry c)
    (hfront : c = b → k ≤ front.length) (hagree : Agree g entry tail args σ c env env') :
    g.Settles o (Aligned g entry b tail front args σ)
      ⟨some (joint b tail front c k), env, trace⟩ ⟨some (c, k), env', trace⟩ := by
  rcases Classical.em (c = b ∧ k = front.length) with ⟨rfl, rfl⟩ | hplace
  · right
    have hend : g.instrAt? c front.length = none := by
      rw [instrAt?, h.front_eq, Option.bind_some]
      exact List.getElem?_eq_none (Nat.le_refl _)
    refine ⟨rfl, _, step?_of_br hend h.branch h.taken, ?_⟩
    have harc : g.Arc c tail := ⟨0, (h.into _).mpr rfl⟩
    have hjoint : joint c tail front c front.length = joint c tail front tail 0 := by
      rw [joint, joint, if_neg h.ne, if_pos rfl, Nat.add_zero]
    rw [hjoint]
    refine .running trace (hreach.step harc) (fun heq => absurd heq.symm h.ne)
      ⟨fun v hv => ?_, ?_⟩
    · rw [Env.bind_of_notMem hv]
      exact hagree.others v hv
    · intro _ v hv
      obtain ⟨j, hj⟩ := List.mem_iff_getElem?.mp hv
      rw [Env.bind_of_notMem (h.rename_notMem v)]
      apply Env.bind_of_getElem? (hg.args.nodup_args h.taken) hj
      rw [List.getElem?_map, h.renames hj]
      rfl
  · left
    apply Aligned.running trace hreach _ hagree
    intro hc
    have hle := hfront hc
    have hne : k ≠ front.length := fun hk => hplace ⟨hc, hk⟩
    omega

theorem settles_enter (hg : g.Consistent) (hc : c ≠ tail) (hreach : Reaches g.Arc entry c)
    (hagree : Agree g entry tail args σ c env env') :
    g.Settles o (Aligned g entry b tail front args σ) ⟨some (c, 0), env, trace⟩
      ⟨some (c, 0), env', trace⟩ := by
  have hplace : joint b tail front c 0 = (c, 0) := if_neg hc
  have hsettles : g.Settles o (Aligned g entry b tail front args σ)
      ⟨some (joint b tail front c 0), env, trace⟩ ⟨some (c, 0), env', trace⟩ :=
    h.settles hg hreach (fun _ => Nat.zero_le _) hagree
  rwa [hplace] at hsettles

theorem settles_execute (hg : g.Consistent) (hguard : Guarded g entry tail args operands)
    {i : InstrId} {op : Operation} (hi : g.instrAt? c k = some i) (hop : g.operation? i = some op)
    (hreach : Reaches g.Arc entry c) (hfront : c = b → k < front.length)
    (hagree : Agree g entry tail args σ c env env') :
    g.Settles o (Aligned g entry b tail front args σ)
      (f.execute o (joint b tail front c k).1 (joint b tail front c k).2 i (op.mapOperands σ)
        ⟨some (joint b tail front c k), env, trace⟩)
      (g.execute o c k i op ⟨some (c, k), env', trace⟩) := by
  have hread : (op.operands.map σ).map env = op.operands.map env' := by
    rw [List.map_map]
    apply List.map_congr_left
    intro v hv
    refine hagree.eq_of_reads h hguard hreach (k := k) ⟨.instr i, .instr hi, ?_⟩
    rw [operandsAt?_instr, hop]
    exact hv
  simp only [execute, Operation.erased_mapOperands, Operation.operands_mapOperands, hread,
    h.results, ← joint_succ]
  refine h.settles hg hreach hfront (hagree.bind _ (fun hdom => hdom) ?_ ?_)
  · -- An argument is not a result.
    intro v hv hmem
    have hresult := hg.defines_of_result? hi (Option.mem_toList.mp hmem)
    cases (hg.defines_of_mem_args h.taken hv).unique hresult hg |>.2
  · intro hdom v hv hmem
    have hresult := hg.defines_of_result? hi (Option.mem_toList.mp hmem)
    exact hguard.defines (h.rename_mem hv) hresult hdom

theorem settles_leave (hg : g.Consistent) (hguard : Guarded g entry tail args operands)
    {t : Terminator} (ht : g.terminator? c = some t) (hne : c ≠ b)
    (hreach : Reaches g.Arc entry c) (hagree : Agree g entry tail args σ c env env') :
    g.Settles o (Aligned g entry b tail front args σ)
      (f.leave o (t.mapOperands σ) ⟨some (joint b tail front c k), env, trace⟩)
      (g.leave o t ⟨some (c, k), env', trace⟩) := by
  have hread : ∀ v ∈ t.operands, env (σ v) = env' v := by
    intro v hv
    obtain ⟨data, hdata, -⟩ := terminator?_eq_some.mp ht
    refine hagree.eq_of_reads h hguard hreach
      ⟨.terminator c, .terminator (instrs?_of hdata) rfl, ?_⟩
    rw [operandsAt?_terminator, ht]
    exact hv
  have hmap : ∀ vs : List ValueId, (∀ v ∈ vs, v ∈ t.operands) →
      (vs.map σ).map env = vs.map env' := by
    intro vs hvs
    rw [List.map_map]
    exact List.map_congr_left fun v hv => hread v (hvs v hv)
  have hown := hmap t.ownOperands fun v hv => Terminator.mem_operands_iff.mpr (.inl hv)
  simp only [leave, Terminator.erased_mapOperands, Terminator.ownOperands_mapOperands, hown]
  generalize o.choose t.erased (t.ownOperands.map env') trace = next
  obtain ⟨trace, e⟩ := next
  simp only [follow, Terminator.successors_mapOperands, Terminator.edgeArgs?_mapOperands]
  rcases hs : t.successors[e]? with _ | d
  · exact .inl (.ended env env' trace)
  rcases hgiven : t.edgeArgs? e with _ | given
  · exact .inl (.ended env env' trace)
  have htarget : g.target? ⟨c, e⟩ = some d := target?_eq_some.mpr ⟨t, ht, hs⟩
  -- Only `b` leads to the block that was taken in.
  have hd : d ≠ tail := by
    rintro rfl
    exact hne (congrArg Edge.block ((h.into _).mp htarget))
  have hargs : f.args? d = g.args? d := by rw [h.takes, if_neg hd]
  obtain ⟨data, hdata⟩ := isLiveBlock_iff.mp (hg.edges.live_target htarget)
  have hdelivered : o.delivered env trace data.args (given.mapOperands σ) =
      o.delivered env' trace data.args given := by
    cases given with
    | explicit vs =>
        apply hmap vs
        intro v hv
        exact Terminator.mem_operands_of_explicitArgs?
          (Terminator.edgeArgs?_eq_explicit.mp hgiven) hv
    | implicit payload => rfl
  simp only [Option.map_some, hargs, args?_of hdata, Option.getD_some, hdelivered]
  refine h.settles_enter hg hd (hreach.step ⟨e, htarget⟩)
    (hagree.bind _ (fun hdom => hdom.of_arc hd.symm ⟨e, htarget⟩ hreach) ?_ ?_)
  · intro v hv hmem
    have hmine := hg.defines_of_mem_args h.taken hv
    exact hd (hmine.unique (hg.defines_of_mem_args (args?_of hdata) hmem) hg).1.symm
  · intro hdom v hv hmem
    exact hguard.defines (h.rename_mem hv) (hg.defines_of_mem_args (args?_of hdata) hmem) hdom

theorem keepsUp (hg : g.Consistent) (hentry : g.entry = .ok entry)
    (hguard : Guarded g entry tail args operands) (o : Oracle V) (inputs : List V) :
    KeepsUp f g o (Aligned g entry b tail front args σ) inputs inputs where
  trace := by
    intro s t hst
    cases hst <;> rfl
  ended := by
    intro s t hst
    cases hst <;> simp
  start := by
    right
    have hroot : entry ≠ tail := by
      rintro rfl
      exact h.not_entry hentry
    have hargs : f.args? entry = g.args? entry := by rw [h.takes, if_neg hroot]
    refine ⟨_, _, start?_of (h.entry.mpr hentry) inputs, start?_of hentry inputs, ?_⟩
    rw [hargs]
    refine h.settles_enter hg hroot reaches_root ⟨fun _ _ => rfl, fun hdom => ?_⟩
    exact absurd hdom.eq_root.symm hroot
  step := by
    intro s t hst
    cases hst with
    | ended env env' trace => exact .inl ⟨step?_of_place_eq_none rfl, step?_of_place_eq_none rfl⟩
    | @running c k env env' trace hreach hfront hagree =>
        have hjoint := h.instrAt?_joint hfront
        rcases hi : g.instrAt? c k with _ | i
        · rw [hi] at hjoint
          -- At the end of `front` the run was moved on into `tail`, so it does not end in `b`.
          have hne : c ≠ b := by
            rintro rfl
            rw [instrAt?, h.front_eq, Option.bind_some, List.getElem?_eq_none_iff] at hi
            exact absurd (hfront rfl) (Nat.not_lt.mpr hi)
          rw [step?_of_instrAt?_eq_none rfl hjoint, step?_of_instrAt?_eq_none rfl hi,
            h.terminator?_joint hne]
          rcases ht : g.terminator? c with _ | t
          · exact .inl ⟨rfl, rfl⟩
          · refine .inr ⟨_, _, rfl, rfl, ?_⟩
            exact h.settles_leave hg hguard ht hne hreach hagree
        · rw [hi] at hjoint
          rw [step?_of_instrAt? rfl hjoint, step?_of_instrAt? rfl hi, h.operations]
          rcases hop : g.operation? i with _ | op
          · exact .inl ⟨rfl, rfl⟩
          · refine .inr ⟨_, _, rfl, rfl, ?_⟩
            exact h.settles_execute hg hguard hi hop hreach hfront hagree

/-- Taking a block into its predecessor changes nothing that can be seen. -/
theorem sameRuns (hg : g.Consistent) (hentry : g.entry = .ok entry)
    (hguard : Guarded g entry tail args operands) : f.SameRuns g :=
  .of_keepsUp fun _ o inputs => ⟨_, h.keepsUp hg hentry hguard o inputs⟩

end Fused

end Body

end FlowGraph
