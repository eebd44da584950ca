import FlowGraph.Proofs.Edit.Erasure
import FlowGraph.Proofs.Run.Basic

namespace FlowGraph

namespace Env

variable {V : Type} {env env' : Env V} {v : ValueId}

/-- The values agree but for that of `v`. -/
def AgreeBut (v : ValueId) (env env' : Env V) : Prop := ∀ w, w ≠ v → env w = env' w

theorem AgreeBut.map_eq (h : AgreeBut v env env') {vs : List ValueId} (hvs : v ∉ vs) :
    vs.map env = vs.map env' := by
  refine List.map_congr_left fun w hw => h w ?_
  rintro rfl
  exact hvs hw

theorem AgreeBut.bind (h : AgreeBut v env env') (names : List ValueId)
    (values : List (Option V)) : AgreeBut v (env.bind names values) (env'.bind names values) :=
  fun w hw => bind_congr (h w hw)

theorem bind_nil (env : Env V) (names : List ValueId) : env.bind names [] = env := by
  cases names <;> rfl

theorem AgreeBut.bind_eraseIdx (h : AgreeBut v env env') {names : List ValueId} {index : Nat}
    (hv : names[index]? = some v) (values : List (Option V)) :
    AgreeBut v (env.bind (names.eraseIdx index) (values.eraseIdx index))
      (env'.bind names values) := by
  intro w hw
  induction names generalizing values index with
  | nil => cases hv
  | cons u names ih =>
      cases values with
      | nil =>
          rw [List.eraseIdx_nil, bind_nil, bind_nil]
          exact h w hw
      | cons x values =>
          cases index with
          | zero =>
              obtain rfl := Option.some.inj hv
              rw [bind_cons, if_neg hw]
              exact bind_congr (h w hw)
          | succ index =>
              rw [List.eraseIdx_cons_succ, List.eraseIdx_cons_succ, bind_cons, bind_cons, ih hv]

theorem AgreeBut.bind_self (h : AgreeBut v env env') (x : Option V) :
    AgreeBut v env (env'.bind [v] [x]) := by
  intro w hw
  rw [bind_cons, if_neg hw]
  exact h w hw

theorem AgreeBut.delivered (h : AgreeBut v env env') (o : Oracle V) (trace : List (Event V))
    (names : List ValueId) {given : EdgeArgs}
    (hgiven : ∀ args, given = .explicit args → v ∉ args) :
    o.delivered env trace names given = o.delivered env' trace names given := by
  cases given with
  | explicit args => exact h.map_eq (hgiven args rfl)
  | implicit payload => rfl

end Env

namespace Body

variable {V : Type} {f g h : Body} {o : Oracle V} {v : ValueId} {b c home : BlockId} {i : InstrId}
  {index k n : Nat} {env env' : Env V} {trace : List (Event V)} {move : BlockId → Nat → Nat}

/-- The values that a block takes. -/
def taken (f : Body) (c : BlockId) : List ValueId := (f.args? c).getD []

/-- The runs are at the same place, up to the instruction that only one of them has, and know the same
values but for `v`. -/
inductive AlignedBut (v : ValueId) (move : BlockId → Nat → Nat) : State V → State V → Prop
  | ended {env env' : Env V} (trace : List (Event V)) (hagree : env.AgreeBut v env') :
      AlignedBut v move ⟨none, env, trace⟩ ⟨none, env', trace⟩
  | running {env env' : Env V} (c : BlockId) (k : Nat) (trace : List (Event V))
      (hagree : env.AgreeBut v env') :
      AlignedBut v move ⟨some (c, k), env, trace⟩ ⟨some (c, move c k), env', trace⟩

/-- The body `g` lacks the value `v` that `f` does not read. Where `g` is at instruction `k` of a block,
`f` is at `move c k`, or will be after a silent step. -/
structure Forgets (f g : Body) (o : Oracle V) (v : ValueId) (move : BlockId → Nat → Nat) : Prop where
  instrAt : ∀ c k, f.instrAt? c (move c k) = g.instrAt? c k
  instr : ∀ {c k j}, g.instrAt? c k = some j → f.instr? j = g.instr? j
  instr_reads : ∀ j, v ∉ f.operandsAt? (.instr j)
  own_reads : ∀ c, v ∉ f.ownOperands c
  terminator : ∀ c, ∃ load, g.terminator? c =
    (f.terminator? c).map fun t => t.mapEdges (fun _ dest => dest) load
  binds : ∀ {x c given given'} {env env' : Env V} (trace), f.target? x = some c →
    f.edgeArgs? x = some given → g.edgeArgs? x = some given' → env.AgreeBut v env' →
    (env.bind (g.taken c) (o.delivered env trace (g.taken c) given')).AgreeBut v
      (env'.bind (f.taken c) (o.delivered env' trace (f.taken c) given))
  enter : ∀ {env env' : Env V} (c trace), env.AgreeBut v env' →
    f.Settles o (AlignedBut v move) ⟨some (c, 0), env, trace⟩ ⟨some (c, 0), env', trace⟩
  advance : ∀ {env env' : Env V} (c k trace), env.AgreeBut v env' →
    f.Settles o (AlignedBut v move) ⟨some (c, k + 1), env, trace⟩
      ⟨some (c, move c k + 1), env', trace⟩

namespace Forgets

theorem settles_execute (hf : f.Forgets g o v move) {j : InstrId} {op : Operation}
    (hj : g.instrAt? c k = some j) (hop : f.operation? j = some op) (hagree : env.AgreeBut v env') :
    f.Settles o (AlignedBut v move) (g.execute o c k j op ⟨some (c, k), env, trace⟩)
      (f.execute o c (move c k) j op ⟨some (c, move c k), env', trace⟩) := by
  have hread : op.operands.map env = op.operands.map env' := by
    refine hagree.map_eq ?_
    have hreads := hf.instr_reads j
    rwa [operandsAt?_instr, hop] at hreads
  have hresult : f.result? j = g.result? j := by rw [result?, hf.instr hj, result?]
  simp only [execute, hread, hresult]
  exact hf.advance c k _ (hagree.bind _ _)

theorem settles_leave (hf : f.Forgets g o v move) {t u : Terminator}
    (ht : f.terminator? c = some t) (hu : g.terminator? c = some u) (hagree : env.AgreeBut v env') :
    f.Settles o (AlignedBut v move) (g.leave o u ⟨some (c, k), env, trace⟩)
      (f.leave o t ⟨some (c, move c k), env', trace⟩) := by
  obtain ⟨load, hload⟩ := hf.terminator c
  rw [ht, hu, Option.map_some, Option.some.injEq] at hload
  have hread : t.ownOperands.map env = t.ownOperands.map env' := by
    refine hagree.map_eq ?_
    have hreads := hf.own_reads c
    rwa [ownOperands, ht] at hreads
  simp only [leave, hload, Terminator.erased_mapEdges, Terminator.ownOperands_mapEdges, hread]
  rw [← hload]
  generalize o.choose t.erased (t.ownOperands.map env') trace = next
  obtain ⟨trace, e⟩ := next
  have hsuccessor : u.successors[e]? = t.successors[e]? := by
    rw [hload, Terminator.getElem?_successors_mapEdges, Option.map_id']
  have hgiven : u.edgeArgs? e = (t.edgeArgs? e).map (·.mapArgs (load e)) := by
    rw [hload, Terminator.edgeArgs?_mapEdges]
  rw [follow, follow, hsuccessor, hgiven]
  rcases hs : t.successors[e]? with _ | d
  · exact .inl (.ended trace hagree)
  rcases hdelivers : t.edgeArgs? e with _ | given
  · exact .inl (.ended trace hagree)
  refine hf.enter d trace (hf.binds (x := ⟨c, e⟩) trace (target?_eq_some.mpr ⟨t, ht, hs⟩)
    (edgeArgs?_eq_some.mpr ⟨t, ht, hdelivers⟩) (edgeArgs?_eq_some.mpr ⟨u, hu, ?_⟩) hagree)
  rw [hgiven, hdelivers, Option.map_some]

/-- A run that lacks a value nothing reads is kept up with by one that has it. -/
theorem keepsUp (hf : f.Forgets g o v move) (hlayout : g.layout = f.layout) {inputs inputs' : List V}
    (hinputs : ∀ entry, f.layout.head? = some entry →
      (Env.bind (fun _ => none) (g.taken entry) (inputs.map some)).AgreeBut v
        (Env.bind (fun _ => none) (f.taken entry) (inputs'.map some))) :
    KeepsUp g f o (AlignedBut v move) inputs inputs' where
  trace := by
    intro s t hst
    cases hst <;> rfl
  ended := by
    intro s t hst
    cases hst <;> simp
  start := by
    rw [start?, hlayout, start?]
    rcases hentry : f.layout.head? with _ | entry
    · exact .inl ⟨rfl, rfl⟩
    · exact .inr ⟨_, _, rfl, rfl, hf.enter entry [] (hinputs entry hentry)⟩
  step := by
    intro s t hst
    cases hst with
    | ended trace hagree => exact .inl ⟨step?_of_place_eq_none rfl, step?_of_place_eq_none rfl⟩
    | running c k trace hagree =>
        rcases hj : g.instrAt? c k with _ | j
        · have hend := (hf.instrAt c k).trans hj
          rw [step?_of_instrAt?_eq_none rfl hj, step?_of_instrAt?_eq_none rfl hend]
          obtain ⟨load, hload⟩ := hf.terminator c
          rcases ht : f.terminator? c with _ | t
          · rw [ht] at hload
            rw [hload]
            exact .inl ⟨rfl, rfl⟩
          · rw [ht] at hload
            rw [hload]
            exact .inr ⟨_, _, rfl, rfl, hf.settles_leave ht hload hagree⟩
        · rw [step?_of_instrAt? rfl hj, step?_of_instrAt? rfl ((hf.instrAt c k).trans hj)]
          have hsame : g.operation? j = f.operation? j := by rw [operation?, ← hf.instr hj, operation?]
          rw [hsame]
          rcases hop : f.operation? j with _ | op
          · exact .inl ⟨rfl, rfl⟩
          · exact .inr ⟨_, _, rfl, rfl, hf.settles_execute hj hop hagree⟩

end Forgets

theorem PhiErased.taken_eq (he : f.PhiErased g b index v) (c : BlockId) :
    g.taken c = if c = b then (f.taken c).eraseIdx index else f.taken c := by
  rw [taken, he.args, taken]
  split
  · rcases f.args? c with _ | args <;> rfl
  · rfl

theorem PhiErased.forgets (he : f.PhiErased g b index v) (hv : (f.taken b)[index]? = some v)
    (hexplicit : f.ExplicitlyFed b) (hself : f.FeedsItself b index v) (o : Oracle V) :
    f.Forgets g o v fun _ k => k where
  instrAt c k := by
    rw [instrAt?, instrAt?, instrs?_mapBlocks he.block fun _ _ => rfl]
  instr _ := by
    rw [instr?, instr?, he.instrs]
  instr_reads := hself.instr
  own_reads := hself.own
  terminator c := ⟨_, he.unloads.terminator c⟩
  binds := by
    intro x c given given' env env' trace hx hgiven hgiven' hagree
    rw [he.unloads.edgeArgs, hgiven, hx] at hgiven'
    rw [he.taken_eq]
    rcases Classical.em (c = b) with rfl | hne
    · obtain ⟨args, hargs⟩ := hexplicit x hx
      cases hgiven.symm.trans hargs
      rw [if_pos rfl] at hgiven'
      cases hgiven'
      rw [if_pos rfl]
      have hleft : v ∉ args.eraseIdx index := by
        intro hmem
        obtain ⟨position, hne, hget⟩ := List.mem_eraseIdx_iff_getElem?.mp hmem
        exact hne (hself.edge hargs hget).1
      change (env.bind _ ((args.eraseIdx index).map env)).AgreeBut v (env'.bind _ (args.map env'))
      rw [hagree.map_eq hleft, ← List.eraseIdx_map]
      exact hagree.bind_eraseIdx hv _
    · rw [if_neg fun heq => hne (Option.some.inj heq)] at hgiven'
      cases hgiven'
      rw [if_neg hne, hagree.delivered o trace]
      · exact hagree.bind _ _
      · rintro args rfl hmem
        obtain ⟨position, hget⟩ := List.mem_iff_getElem?.mp hmem
        exact hne (Option.some.inj (hx.symm.trans (hself.edge hgiven hget).2))
  enter c trace hagree := .inl (.running c 0 trace hagree)
  advance c k trace hagree := .inl (.running c (k + 1) trace hagree)

/-- Where a body that has an instruction at place `n` of a block is, if one that lacks it is at `k`. -/
def stepOver (home : BlockId) (n : Nat) (c : BlockId) (k : Nat) : Nat :=
  if c = home ∧ n ≤ k then k + 1 else k

theorem InstrErased.instrAt?_stepOver (he : f.InstrErased g i v) (hf : f.Consistent)
    (hat : f.instrAt? home n = some i) (c : BlockId) (k : Nat) :
    f.instrAt? c (stepOver home n c k) = g.instrAt? c k := by
  have hlists : g.instrs? c = (f.instrs? c).map (·.filter (· ≠ i)) := by
    rw [instrs?, he.block, instrs?, Option.map_map, Option.map_map]
    rfl
  rw [instrAt?, instrAt?, hlists]
  rcases hc : f.instrs? c with _ | instrs
  · rfl
  · rw [Option.map_some, Option.bind_some, Option.bind_some, stepOver]
    rcases Classical.em (c = home) with rfl | hne
    · obtain ⟨instrs', hc', hn⟩ := instrAt?_eq_some.mp hat
      cases hc.symm.trans hc'
      rw [← eraseIdx_eq_filter (hf.instrs.nodup_instrs hc) hn, List.getElem?_eraseIdx]
      rcases Nat.lt_or_ge k n with hlt | hge
      · rw [if_neg fun hand => Nat.not_le_of_lt hlt hand.2, if_pos hlt]
      · rw [if_pos ⟨rfl, hge⟩, if_neg (Nat.not_lt_of_ge hge)]
    · rw [if_neg fun hand => hne hand.1, List.filter_eq_self.mpr]
      intro j hj
      refine decide_eq_true ?_
      rintro rfl
      have hholder := hf.instrs.holder?_of_instrAt? hat
      rw [(hf.instrs.mem_instrs hc).mp hj, Option.some.injEq] at hholder
      exact hne hholder

section Unseen

variable {op : Operation} (hat : f.instrAt? home n = some i) (hop : f.operation? i = some op)
  (hunseen : o.visible op.erased = false) (hresult : f.result? i = some v)
include hat hop hunseen hresult

theorem step?_of_unseen :
    f.step? o ⟨some (home, n), env, trace⟩ =
      some ⟨some (home, n + 1),
        env.bind [v] [some (o.compute i op.erased (op.operands.map env))], trace⟩ := by
  rw [step?_of_instrAt? rfl hat, hop, Option.map_some, execute, Oracle.answer, hunseen, hresult]
  rfl

theorem settles_stepOver (hagree : env.AgreeBut v env') {k' : Nat}
    (hk : k' = stepOver home n c k ∨ c = home ∧ k = n ∧ k' = n) :
    f.Settles o (AlignedBut v (stepOver home n)) ⟨some (c, k), env, trace⟩
      ⟨some (c, k'), env', trace⟩ := by
  rcases hk with rfl | ⟨rfl, rfl, rfl⟩
  · exact .inl (.running c k trace hagree)
  · refine .inr ⟨rfl, _, step?_of_unseen hat hop hunseen hresult, ?_⟩
    have hover : stepOver c k' c k' = k' + 1 := if_pos ⟨rfl, Nat.le_refl k'⟩
    rw [← hover]
    exact .running c k' trace (hagree.bind_self _)

theorem InstrErased.forgets (he : f.InstrErased g i v) (hf : f.Consistent) (hunread : f.Unread v) :
    f.Forgets g o v (stepOver home n) where
  instrAt := he.instrAt?_stepOver hf hat
  instr := by
    intro c k j hj
    have hne : j ≠ i := by
      rintro rfl
      obtain ⟨data, hdata, -⟩ := holder?_eq_some.mp (he.consistent.instrs.holder?_of_instrAt? hj)
      rw [he.instr, if_pos rfl] at hdata
      cases hdata
    rw [he.instr, if_neg hne]
  instr_reads j := hunread (.instr j)
  own_reads c hmem := hunread (.terminator c) (mem_operandsAt?_terminator.mpr (.inl hmem))
  terminator c := by
    refine ⟨fun _ args => args, ?_⟩
    rw [he.terminators]
    exact (Option.map_congr fun t _ => t.mapEdges_id).trans Option.map_id' |>.symm
  binds := by
    intro x c given given' env env' trace _ hgiven hgiven' hagree
    rw [edgeArgs?, he.terminators, ← edgeArgs?, hgiven] at hgiven'
    cases hgiven'
    have htaken : g.taken c = f.taken c := by rw [taken, he.args, taken]
    rw [htaken, hagree.delivered o trace]
    · exact hagree.bind _ _
    · rintro args rfl hmem
      exact hunread (.terminator x.block)
        (mem_operandsAt?_terminator.mpr (.inr ⟨x.index, args, hgiven, hmem⟩))
  enter c trace hagree := by
    refine settles_stepOver hat hop hunseen hresult hagree ?_
    rcases Classical.em (c = home ∧ n = 0) with ⟨rfl, rfl⟩ | hplace
    · exact .inr ⟨rfl, rfl, rfl⟩
    · left
      rw [stepOver, if_neg fun hand => hplace ⟨hand.1, Nat.le_zero.mp hand.2⟩]
  advance c k trace hagree := by
    refine settles_stepOver hat hop hunseen hresult hagree ?_
    rcases Classical.em (c = home) with rfl | hne
    · rcases Nat.lt_trichotomy (k + 1) n with hlt | rfl | hgt
      · left
        rw [stepOver, if_neg (by omega), stepOver, if_neg (by omega)]
      · exact .inr ⟨rfl, rfl, by rw [stepOver, if_neg (by omega)]⟩
      · left
        rw [stepOver, if_pos ⟨rfl, by omega⟩, stepOver, if_pos ⟨rfl, by omega⟩]
    · left
      rw [stepOver, if_neg fun hand => hne hand.1, stepOver, if_neg fun hand => hne hand.1]

end Unseen

def entryArgs (f : Body) : List ValueId := (f.layout.head?.map f.taken).getD []

/-- The bodies have the same finite traces, and the same traces of finished runs, whatever the oracle that
sees exactly the instructions with side effects. Equal names of arguments of the entry have equal
inputs. -/
def SameEffects (f g : Body) : Prop :=
  ∀ (V : Type) (o : Oracle V), (∀ op, o.visible op = op.hasSideEffects) → ∀ inputs : ValueId → V,
    f.traces o (f.entryArgs.map inputs) = g.traces o (g.entryArgs.map inputs) ∧
      f.finalTraces o (f.entryArgs.map inputs) = g.finalTraces o (g.entryArgs.map inputs)

namespace SameEffects

theorem trans (hfg : f.SameEffects g) (hgh : g.SameEffects h) : f.SameEffects h :=
  fun V o ho inputs => ⟨(hfg V o ho inputs).1.trans (hgh V o ho inputs).1,
    (hfg V o ho inputs).2.trans (hgh V o ho inputs).2⟩

theorem of_forgets (hlayout : g.layout = f.layout)
    (htaken : ∀ c, g.taken c = f.taken c ∨
      ∃ index, (f.taken c)[index]? = some v ∧ g.taken c = (f.taken c).eraseIdx index)
    (hforgets : ∀ (V : Type) (o : Oracle V), (∀ op, o.visible op = op.hasSideEffects) →
      f.Forgets g o v move) : f.SameEffects g := by
  intro V o ho inputs
  have hkeeps : KeepsUp g f o (AlignedBut v move) (g.entryArgs.map inputs)
      (f.entryArgs.map inputs) := by
    refine (hforgets V o ho).keepsUp hlayout fun entry hentry => ?_
    have hsame : Env.AgreeBut v (fun _ => none : Env V) fun _ => none := fun _ _ => rfl
    rw [entryArgs, entryArgs, hlayout, hentry, Option.map_some, Option.map_some, Option.getD_some,
      Option.getD_some]
    rcases htaken entry with heq | ⟨index, hget, heq⟩
    · rw [heq]
      exact hsame.bind _ _
    · rw [heq, ← List.eraseIdx_map, ← List.eraseIdx_map]
      exact hsame.bind_eraseIdx hget _
  exact ⟨hkeeps.traces_eq.symm, hkeeps.finalTraces_eq.symm⟩

end SameEffects

/-- Erasing a phi that only feeds itself cannot be seen. -/
theorem PhiErased.sameEffects (he : f.PhiErased g b index v) (hf : f.Consistent)
    (hphi : f.origin? v = some (.argument b index .phi)) (hexplicit : f.ExplicitlyFed b)
    (hself : f.FeedsItself b index v) : f.SameEffects g := by
  obtain ⟨data, hb⟩ := isLiveBlock_iff.mp (hf.args.live_block hphi)
  have hget : (f.taken b)[index]? = some v := by
    rw [taken, args?_of hb]
    exact (hf.args.getElem?_args (args?_of hb) index v).mpr ⟨_, hphi⟩
  refine .of_forgets he.layout (fun c => ?_) fun V o _ => he.forgets hget hexplicit hself o
  rw [he.taken_eq]
  split
  · rename_i hc
    exact .inr ⟨index, hc ▸ hget, rfl⟩
  · exact .inl rfl

/-- Erasing an unread instruction without side effects cannot be seen. -/
theorem InstrErased.sameEffects (he : f.InstrErased g i v) (hf : f.Consistent) {op : Operation}
    (hop : f.operation? i = some op) (hpure : op.hasSideEffects = false)
    (hresult : f.result? i = some v) (hunread : f.Unread v) : f.SameEffects g := by
  obtain ⟨instr, hi, -⟩ := result?_eq_some.mp hresult
  obtain ⟨n, hat⟩ := hf.instrs.exists_instrAt? (holder?_eq_some.mpr ⟨instr, hi, rfl⟩)
  have hforgets : ∀ (V : Type) (o : Oracle V), (∀ op, o.visible op = op.hasSideEffects) →
      f.Forgets g o v (stepOver instr.block n) := by
    intro V o ho
    refine he.forgets hat hop ?_ hresult hf hunread
    rw [ho, Operation.erased, Operation.hasSideEffects_mapOperands, hpure]
  exact .of_forgets he.layout (fun c => .inl (by rw [taken, he.args, taken])) hforgets

theorem Retires.sameEffects (hr : f.Retires g v) (hf : f.Consistent) : f.SameEffects g := by
  cases hr with
  | instr hop hpure hresult hunread hgone =>
      exact hgone.sameEffects hf hop hpure hresult hunread
  | phi hphi hexplicit hunread hgone =>
      exact hgone.sameEffects hf hphi hexplicit (hunread.feedsItself _ _)

/-- However many unread values go, nothing of it can be seen. -/
theorem SameEffects.retiresAll (hsame : f.SameEffects g) (hg : g.Consistent)
    (hr : g.RetiresAll h) : f.SameEffects h := by
  induction hr with
  | refl => exact hsame
  | tail hsteps hstep ih =>
      obtain ⟨v, hstep⟩ := hstep
      exact ih.trans (hstep.sameEffects (RetiresAll.consistent hsteps hg))

end Body

/-- Whenever a phi of a well-built body that passes verification can be erased, with cleanup or without,
the body has the same finite traces before and after. -/
theorem WellBuilt.sameEffects_erasePhi {f g : Body} (hf : WellBuilt f)
    (hv : f.verify.run = .ok (.ok ())) {b : BlockId} {index : Nat} {clean : Bool}
    (hrun : f.erasePhi b index clean = .ok g) : f.SameEffects g := by
  have hvalid := hf.consistent.verify_iff.mp hv
  obtain ⟨v, hphi, hexplicit, hself⟩ := hf.consistent.feedsItself_of_erasePhi hvalid hrun
  obtain ⟨g', h', hplain, hgone, hclean, hsteps, -⟩ :=
    hf.consistent.erasePhi_does hvalid hphi hexplicit hself
  have hsame := hgone.sameEffects hf.consistent hphi hexplicit hself
  cases clean with
  | false =>
      cases hplain.symm.trans hrun
      exact hsame
  | true =>
      cases hclean.symm.trans hrun
      exact hsame.retiresAll hgone.consistent hsteps

/-- An oracle that takes the second edge from the third event on. -/
def effectsOracle : Oracle Nat where
  visible := Operation.hasSideEffects
  compute := fun _ _ _ => 7
  result := fun trace => trace.length
  edge := fun trace => trace.length / 3
  payload := fun trace => 10 * trace.length

theorem carryingLoop_sameEffects_erasePhi :
    ∃ g, carryingLoop.erasePhi ⟨1⟩ 0 true = .ok g ∧ carryingLoop.SameEffects g ∧
      ∃ trace ∈ g.finalTraces effectsOracle (g.entryArgs.map fun _ => 5),
        trace.length = 4 ∧ trace.getLast? = some (.terminator (.ret ⟨0⟩) [some 5]) := by
  have hf : WellBuilt carryingLoop := wellBuilt_replayed _
  have hv : carryingLoop.verify.run = .ok (.ok ()) := by cbv
  obtain ⟨g, hrun, -⟩ := hf.consistent.exists_erasePhi (hf.consistent.verify_iff.mp hv)
    (v := ⟨1⟩) (by cbv) carryingLoop_explicitlyFed carryingLoop_feedsItself true
  have hsame := WellBuilt.sameEffects_erasePhi hf hv hrun
  refine ⟨g, hrun, hsame, ?_⟩
  rw [← (hsame Nat effectsOracle (fun _ => rfl) fun _ => 5).2]
  exact ⟨_, Body.mem_finalTraces (n := 6) (by rfl), by rfl, by rfl⟩

end FlowGraph
