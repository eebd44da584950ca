import Mathlib.Data.Set.Basic
import Mathlib.Logic.Relation
import FlowGraph.Proofs.Ssa.Basic

/-!
Runs of a body. What instructions compute, which edge a terminator takes and what an implicit edge
delivers is not described by a body, so a run asks an oracle, which knows the events so far and
nothing else. An instruction that is seen is an event, with the values that it reads; so is a
terminator other than a branch. Two bodies mean the same if under every oracle they have the same
finite traces of events.

Reading a value that has not been computed is possible, and reads nothing.
-/

namespace FlowGraph

/-- The operation with its operands blotted out. -/
def Operation.erased (op : Operation) : Operation := op.mapOperands fun _ => ⟨0⟩

@[simp] theorem Operation.erased_mapOperands (op : Operation) (σ : ValueId → ValueId) :
    (op.mapOperands σ).erased = op.erased := by
  cases op <;> simp [erased, mapOperands, Function.comp_def]

namespace Terminator

def isBr : Terminator → Bool
  | br _ _ => true
  | _ => false

/-- The terminator with its operands and targets blotted out, and without what its edges carry. -/
def erased : Terminator → Terminator
  | br _ _ => br ⟨0⟩ []
  | condBr _ _ _ _ _ => condBr ⟨0⟩ ⟨0⟩ [] ⟨0⟩ []
  | switchValue _ cases default =>
    switchValue ⟨0⟩ (cases.map fun c => (c.1, ⟨0⟩)) (default.map fun _ => ⟨0⟩)
  | switchEnum _ cases default =>
    switchEnum ⟨0⟩ (cases.map fun c => (c.1, ⟨0⟩)) (default.map fun _ => ⟨0⟩)
  | checkedCast _ target _ _ => checkedCast ⟨0⟩ target ⟨0⟩ ⟨0⟩
  | tryApply callee args _ _ => tryApply callee (args.map fun _ => ⟨0⟩) ⟨0⟩ ⟨0⟩
  | dynamicMethodBr _ member _ _ => dynamicMethodBr ⟨0⟩ member ⟨0⟩ ⟨0⟩
  | yieldTo values _ _ => yieldTo (values.map fun _ => ⟨0⟩) ⟨0⟩ ⟨0⟩
  | ret _ => ret ⟨0⟩
  | throwing _ => throwing ⟨0⟩
  | unwind => unwind
  | unreachable => unreachable

@[simp] theorem erased_mapOperands (t : Terminator) (σ : ValueId → ValueId) :
    (t.mapOperands σ).erased = t.erased := by
  cases t <;> simp [erased, mapOperands, Function.comp_def]

@[simp] theorem erased_mapEdges (t : Terminator) (lead : Nat → BlockId → BlockId)
    (load : Nat → List ValueId → List ValueId) : (t.mapEdges lead load).erased = t.erased := by
  have hcases : ∀ {κ : Type} (cases : List (κ × BlockId)),
      (cases.mapIdx fun e c => (c.1, lead e c.2)).map (fun c => (c.1, (⟨0⟩ : BlockId))) =
        cases.map fun c => (c.1, ⟨0⟩) := by
    intro κ cases
    apply List.ext_getElem?
    intro e
    rw [List.getElem?_map, List.getElem?_mapIdx, List.getElem?_map, Option.map_map]
    rfl
  cases t <;> simp [erased, mapEdges, hcases, Function.comp_def]

@[simp] theorem ownOperands_mapOperands (t : Terminator) (σ : ValueId → ValueId) :
    (t.mapOperands σ).ownOperands = t.ownOperands.map σ := by
  cases t <;> simp [ownOperands, mapOperands]

end Terminator

inductive Event (V : Type) where
  | instr (id : InstrId) (kind : Operation) (read : List (Option V))
  | terminator (kind : Terminator) (read : List (Option V))

/-- The values computed so far. -/
abbrev Env (V : Type) := ValueId → Option V

/-- Bind values to a list of names at once; of a name that is listed twice the first counts. -/
def Env.bind {V : Type} (env : Env V) : List ValueId → List (Option V) → Env V
  | v :: names, x :: values => fun w => if w = v then x else env.bind names values w
  | _, _ => env

namespace Env

variable {V : Type} {env env' : Env V} {names : List ValueId} {values : List (Option V)}
  {v : ValueId}

theorem bind_cons (w : ValueId) (x : Option V) :
    env.bind (w :: names) (x :: values) v = if v = w then x else env.bind names values v := rfl

theorem bind_of_notMem (hv : v ∉ names) : env.bind names values v = env v := by
  induction names generalizing values with
  | nil => rfl
  | cons w names ih =>
      rw [List.mem_cons, not_or] at hv
      cases values with
      | nil => rfl
      | cons x values =>
          rw [bind_cons, if_neg hv.1]
          exact ih hv.2

theorem bind_of_getElem? {j : Nat} {x : Option V} (hnodup : names.Nodup) (hv : names[j]? = some v)
    (hx : values[j]? = some x) : env.bind names values v = x := by
  induction names generalizing values j with
  | nil => cases hv
  | cons w names ih =>
      rw [List.nodup_cons] at hnodup
      cases values with
      | nil => cases hx
      | cons y values =>
          cases j with
          | zero =>
              obtain rfl := Option.some.inj hv
              rw [bind_cons, if_pos rfl]
              exact Option.some.inj hx
          | succ j =>
              have hne : v ≠ w := by
                rintro rfl
                exact hnodup.1 (List.mem_of_getElem? hv)
              rw [bind_cons, if_neg hne]
              exact ih hnodup.2 hv hx

theorem bind_congr (hv : env v = env' v) : env.bind names values v = env'.bind names values v := by
  induction names generalizing values with
  | nil => exact hv
  | cons w names ih =>
      cases values with
      | nil => exact hv
      | cons x values =>
          rw [bind_cons, bind_cons]
          split
          · rfl
          · exact ih

theorem map_bind_self (hnodup : names.Nodup) (hlen : names.length = values.length) :
    names.map (env.bind names values) = values := by
  apply List.ext_getElem?
  intro j
  rw [List.getElem?_map]
  rcases hv : names[j]? with _ | v
  · have hle := List.getElem?_eq_none_iff.mp hv
    rw [List.getElem?_eq_none (hlen ▸ hle), Option.map_none]
  · have hlt := (List.getElem?_eq_some_iff.mp hv).1
    have hx := List.getElem?_eq_getElem (hlen ▸ hlt : j < values.length)
    rw [hx, Option.map_some, bind_of_getElem? hnodup hv hx]

end Env

/-- What a body leaves open. The result of an instruction that is not seen is a function of what it
reads; all else may depend on the whole history. -/
structure Oracle (V : Type) where
  visible : Operation → Bool
  compute : InstrId → Operation → List (Option V) → V
  result : List (Event V) → V
  edge : List (Event V) → Nat
  payload : List (Event V) → V

namespace Oracle

variable {V : Type}

/-- The trace after an instruction has run, and its result. -/
def answer (o : Oracle V) (i : InstrId) (kind : Operation) (read : List (Option V))
    (trace : List (Event V)) : List (Event V) × V :=
  if o.visible kind then
    (trace ++ [.instr i kind read], o.result (trace ++ [.instr i kind read]))
  else (trace, o.compute i kind read)

/-- The trace after a terminator has run, and the number of the edge that it takes. -/
def choose (o : Oracle V) (kind : Terminator) (read : List (Option V)) (trace : List (Event V)) :
    List (Event V) × Nat :=
  if kind.isBr then (trace, 0)
  else (trace ++ [.terminator kind read], o.edge (trace ++ [.terminator kind read]))

/-- The values that an edge delivers to a block with the arguments `args`. -/
def delivered (o : Oracle V) (env : Env V) (trace : List (Event V)) (args : List ValueId) :
    EdgeArgs → List (Option V)
  | .explicit operands => operands.map env
  | .implicit _ => args.map fun _ => some (o.payload trace)

end Oracle

/-- A run is before instruction number `k` of a block, or at the terminator that follows the last
one, or it is over. -/
structure State (V : Type) where
  place : Option (BlockId × Nat)
  env : Env V
  trace : List (Event V)

namespace Body

variable {V : Type} {f g h : Body} {o : Oracle V} {s s' t : State V} {b : BlockId} {k : Nat}

/-- Leave a block by edge `e` of its terminator. Without such an edge the run is over. -/
def follow (f : Body) (o : Oracle V) (t : Terminator) (e : Nat) (env : Env V)
    (trace : List (Event V)) : State V :=
  match t.successors[e]?, t.edgeArgs? e with
  | some c, some given =>
    let args := (f.args? c).getD []
    ⟨some (c, 0), env.bind args (o.delivered env trace args given), trace⟩
  | _, _ => ⟨none, env, trace⟩

def execute (f : Body) (o : Oracle V) (b : BlockId) (k : Nat) (i : InstrId) (op : Operation)
    (s : State V) : State V :=
  let next := o.answer i op.erased (op.operands.map s.env) s.trace
  ⟨some (b, k + 1), s.env.bind (f.result? i).toList [some next.2], next.1⟩

def leave (f : Body) (o : Oracle V) (t : Terminator) (s : State V) : State V :=
  let next := o.choose t.erased (t.ownOperands.map s.env) s.trace
  f.follow o t next.2 s.env next.1

/-- The next state of a run that is not over. -/
def step? (f : Body) (o : Oracle V) (s : State V) : Option (State V) :=
  match s.place with
  | none => none
  | some (b, k) =>
    match f.instrAt? b k with
    | some i => (f.operation? i).map fun op => f.execute o b k i op s
    | none => (f.terminator? b).map fun t => f.leave o t s

/-- A run starts at the entry, with the inputs in its arguments. -/
def start? (f : Body) (inputs : List V) : Option (State V) :=
  f.layout.head?.map fun entry =>
    ⟨some (entry, 0), Env.bind (fun _ => none) ((f.args? entry).getD []) (inputs.map some), []⟩

/-- A run can come to the state `s`. -/
def Runs (f : Body) (o : Oracle V) (inputs : List V) (s : State V) : Prop :=
  ∃ first, f.start? inputs = some first ∧
    Relation.ReflTransGen (fun s t => f.step? o s = some t) first s

def stateAt? (f : Body) (o : Oracle V) (inputs : List V) : Nat → Option (State V)
  | 0 => f.start? inputs
  | n + 1 => (f.stateAt? o inputs n).bind (f.step? o)

/-- The traces of all finite runs. -/
def traces (f : Body) (o : Oracle V) (inputs : List V) : Set (List (Event V)) :=
  {trace | ∃ s, f.Runs o inputs s ∧ s.trace = trace}

/-- The traces of the runs that come to their end. -/
def finalTraces (f : Body) (o : Oracle V) (inputs : List V) : Set (List (Event V)) :=
  {trace | ∃ s, f.Runs o inputs s ∧ s.place = none ∧ s.trace = trace}

/-- The bodies have the same finite traces, and the same traces of finished runs, whatever the
oracle and the inputs. -/
def SameRuns (f g : Body) : Prop :=
  ∀ (V : Type) (o : Oracle V) (inputs : List V),
    f.traces o inputs = g.traces o inputs ∧ f.finalTraces o inputs = g.finalTraces o inputs

namespace SameRuns

theorem refl (f : Body) : f.SameRuns f := fun _ _ _ => ⟨rfl, rfl⟩

theorem symm (hfg : f.SameRuns g) : g.SameRuns f := fun V o inputs =>
  ⟨(hfg V o inputs).1.symm, (hfg V o inputs).2.symm⟩

theorem trans (hfg : f.SameRuns g) (hgh : g.SameRuns h) : f.SameRuns h := fun V o inputs =>
  ⟨(hfg V o inputs).1.trans (hgh V o inputs).1, (hfg V o inputs).2.trans (hgh V o inputs).2⟩

end SameRuns

theorem step?_of_instrAt? {i : InstrId} (hplace : s.place = some (b, k))
    (hi : f.instrAt? b k = some i) :
    f.step? o s = (f.operation? i).map fun op => f.execute o b k i op s := by
  simp only [step?, hplace, hi]

theorem step?_of_instrAt?_eq_none (hplace : s.place = some (b, k)) (hi : f.instrAt? b k = none) :
    f.step? o s = (f.terminator? b).map fun t => f.leave o t s := by
  simp only [step?, hplace, hi]

theorem step?_of_place_eq_none (hplace : s.place = none) : f.step? o s = none := by
  simp only [step?, hplace]

theorem follow_of {u : Terminator} {e : Nat} {c : BlockId} {given : EdgeArgs} {args : List ValueId}
    {env : Env V} {trace : List (Event V)} (hs : u.successors[e]? = some c)
    (hgiven : u.edgeArgs? e = some given) (hargs : f.args? c = some args) :
    f.follow o u e env trace =
      ⟨some (c, 0), env.bind args (o.delivered env trace args given), trace⟩ := by
  simp only [follow, hs, hgiven, hargs, Option.getD_some]

theorem step?_of_br {dest : BlockId} {operands args : List ValueId} {env : Env V}
    {trace : List (Event V)} (hend : f.instrAt? b k = none)
    (hbranch : f.terminator? b = some (.br dest operands)) (hargs : f.args? dest = some args) :
    f.step? o ⟨some (b, k), env, trace⟩ =
      some ⟨some (dest, 0), env.bind args (operands.map env), trace⟩ := by
  rw [step?_of_instrAt?_eq_none rfl hend, hbranch]
  exact congrArg some (follow_of (u := .br dest operands) (e := 0) rfl rfl hargs)

theorem start?_of {entry : BlockId} (hentry : f.entry = .ok entry) (inputs : List V) :
    f.start? inputs = some ⟨some (entry, 0),
      Env.bind (fun _ => none) ((f.args? entry).getD []) (inputs.map some), []⟩ := by
  obtain ⟨rest, hlayout⟩ := entry_eq_ok.mp hentry
  rw [start?, hlayout]
  rfl

theorem Runs.start {inputs : List V} {first : State V} (h : f.start? inputs = some first) :
    f.Runs o inputs first :=
  ⟨first, h, .refl⟩

theorem Runs.step {inputs : List V} (h : f.Runs o inputs s) (hstep : f.step? o s = some s') :
    f.Runs o inputs s' := by
  obtain ⟨first, hstart, hsteps⟩ := h
  exact ⟨first, hstart, hsteps.tail hstep⟩

/-- What holds at the start and is kept by every step holds all along a run. -/
theorem Runs.invariant {inputs : List V} {P : State V → Prop} (h : f.Runs o inputs s)
    (hstart : ∀ first, f.start? inputs = some first → P first)
    (hstep : ∀ s s', P s → f.step? o s = some s' → P s') : P s := by
  obtain ⟨first, hfirst, hsteps⟩ := h
  induction hsteps with
  | refl => exact hstart first hfirst
  | tail _ hnext ih => exact hstep _ _ ih hnext

theorem runs_iff_stateAt? {inputs : List V} :
    f.Runs o inputs s ↔ ∃ n, f.stateAt? o inputs n = some s := by
  constructor
  · intro h
    apply h.invariant (P := fun s => ∃ n, f.stateAt? o inputs n = some s)
    · exact fun first hfirst => ⟨0, hfirst⟩
    rintro s s' ⟨n, hn⟩ hstep
    refine ⟨n + 1, ?_⟩
    rw [stateAt?, hn]
    exact hstep
  · rintro ⟨n, hn⟩
    induction n generalizing s with
    | zero => exact .start hn
    | succ n ih =>
        obtain ⟨t, ht, hstep⟩ := Option.bind_eq_some_iff.mp hn
        exact (ih ht).step hstep

theorem mem_finalTraces {inputs : List V} {n : Nat} {trace : List (Event V)}
    (h : (f.stateAt? o inputs n).map (fun s => (s.place, s.trace)) = some (none, trace)) :
    trace ∈ f.finalTraces o inputs := by
  obtain ⟨s, hs, heq⟩ := Option.map_eq_some_iff.mp h
  obtain ⟨hplace, htrace⟩ := Prod.mk.inj heq
  exact ⟨s, runs_iff_stateAt?.mpr ⟨n, hs⟩, hplace, htrace⟩

/-- `t` is related to `s`, or will be after one more step that is not seen. -/
def Settles (g : Body) (o : Oracle V) (A : State V → State V → Prop) (s t : State V) : Prop :=
  A s t ∨ t.trace = s.trace ∧ ∃ t', g.step? o t = some t' ∧ A s t'

/-- The runs of `g` keep up with those of `f`: related states have the same trace, both can move or
none can, and after a step each the states are related again, but for one silent step of `g`. Each body
has its own inputs. -/
structure KeepsUp (f g : Body) (o : Oracle V) (A : State V → State V → Prop)
    (inputs inputs' : List V) : Prop where
  trace : ∀ {s t}, A s t → t.trace = s.trace
  ended : ∀ {s t}, A s t → (t.place = none ↔ s.place = none)
  start : f.start? inputs = none ∧ g.start? inputs' = none ∨
    ∃ s t, f.start? inputs = some s ∧ g.start? inputs' = some t ∧ g.Settles o A s t
  step : ∀ {s t}, A s t → f.step? o s = none ∧ g.step? o t = none ∨
    ∃ s' t', f.step? o s = some s' ∧ g.step? o t = some t' ∧ g.Settles o A s' t'

namespace KeepsUp

variable {A : State V → State V → Prop} {inputs inputs' : List V}

theorem exists_runs_of_settles (ht : g.Runs o inputs t) (h : g.Settles o A s t) :
    ∃ t, g.Runs o inputs t ∧ A s t := by
  rcases h with h | ⟨-, t', hstep, h⟩
  · exact ⟨t, ht, h⟩
  · exact ⟨t', ht.step hstep, h⟩

theorem exists_fine (hA : KeepsUp f g o A inputs inputs') (hs : f.Runs o inputs s) :
    ∃ t, g.Runs o inputs' t ∧ A s t := by
  apply hs.invariant
  · intro first hfirst
    rcases hA.start with ⟨hnone, -⟩ | ⟨s, t, hs, ht, hsettles⟩
    · cases hfirst.symm.trans hnone
    · obtain rfl := Option.some.inj (hfirst.symm.trans hs)
      exact exists_runs_of_settles (.start ht) hsettles
  · rintro s s' ⟨t, ht, hst⟩ hstep
    rcases hA.step hst with ⟨hnone, -⟩ | ⟨s₁, t₁, hs₁, ht₁, hsettles⟩
    · cases hstep.symm.trans hnone
    · obtain rfl := Option.some.inj (hstep.symm.trans hs₁)
      exact exists_runs_of_settles (ht.step ht₁) hsettles

theorem exists_coarse (hA : KeepsUp f g o A inputs inputs') (ht : g.Runs o inputs' t) :
    ∃ s, f.Runs o inputs s ∧ g.Settles o A s t := by
  apply ht.invariant
  · intro first hfirst
    rcases hA.start with ⟨-, hnone⟩ | ⟨s, t, hs, ht, hsettles⟩
    · cases hfirst.symm.trans hnone
    · obtain rfl := Option.some.inj (hfirst.symm.trans ht)
      exact ⟨s, .start hs, hsettles⟩
  · rintro t t' ⟨s, hs, hst | ⟨-, t₁, ht₁, hst⟩⟩ hstep
    · rcases hA.step hst with ⟨-, hnone⟩ | ⟨s₁, t₁, hs₁, ht₁, hsettles⟩
      · cases hstep.symm.trans hnone
      · obtain rfl := Option.some.inj (hstep.symm.trans ht₁)
        exact ⟨s₁, hs.step hs₁, hsettles⟩
    · obtain rfl := Option.some.inj (hstep.symm.trans ht₁)
      exact ⟨s, hs, .inl hst⟩

theorem traces_eq (hA : KeepsUp f g o A inputs inputs') :
    f.traces o inputs = g.traces o inputs' := by
  apply Set.Subset.antisymm
  · rintro _ ⟨s, hs, rfl⟩
    obtain ⟨t, ht, hst⟩ := hA.exists_fine hs
    exact ⟨t, ht, hA.trace hst⟩
  · rintro _ ⟨t, ht, rfl⟩
    obtain ⟨s, hs, hst | ⟨htrace, -⟩⟩ := hA.exists_coarse ht
    · exact ⟨s, hs, (hA.trace hst).symm⟩
    · exact ⟨s, hs, htrace.symm⟩

theorem finalTraces_eq (hA : KeepsUp f g o A inputs inputs') :
    f.finalTraces o inputs = g.finalTraces o inputs' := by
  apply Set.Subset.antisymm
  · rintro _ ⟨s, hs, hover, rfl⟩
    obtain ⟨t, ht, hst⟩ := hA.exists_fine hs
    exact ⟨t, ht, (hA.ended hst).mpr hover, hA.trace hst⟩
  · rintro _ ⟨t, ht, hover, rfl⟩
    obtain ⟨s, hs, hst | ⟨-, t', hstep, -⟩⟩ := hA.exists_coarse ht
    · exact ⟨s, hs, (hA.ended hst).mp hover, (hA.trace hst).symm⟩
    · rw [step?_of_place_eq_none hover] at hstep
      cases hstep

end KeepsUp

/-- Bodies whose runs keep up with each other have the same runs. -/
theorem SameRuns.of_keepsUp
    (h : ∀ (V : Type) (o : Oracle V) (inputs : List V),
      ∃ A : State V → State V → Prop, KeepsUp f g o A inputs inputs) : f.SameRuns g := by
  intro V o inputs
  obtain ⟨A, hA⟩ := h V o inputs
  exact ⟨hA.traces_eq, hA.finalTraces_eq⟩

end Body

end FlowGraph
