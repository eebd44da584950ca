import FlowGraph.Proofs.Dominance.Exact
import FlowGraph.Proofs.Dominance.Surgery
import FlowGraph.Proofs.Ssa.Basic

/-!
Dominance of points and values in terms of ways through a body. A way enters a block, passes its
instructions in order and then its terminator, and enters a block that the terminator leads to. The
positions that the tree compares inside a block and the blocks that it compares otherwise say together
what every way to a point has passed, also where the way goes round in a loop.
-/

namespace FlowGraph

section Way

variable {α : Type} {R : α → α → Prop} {r a x : α}

theorem forall_way_mem_iff (hx : Reaches R r x) :
    (∀ way, IsWay R r x way → a ∈ way) ↔ Dominates R r a x := by
  rw [← mem_dominatorsOf, dominatorsOf, Set.mem_ofPred_eq, exists_way_iff]
  exact (and_iff_right hx).symm

theorem exists_way_notMem_dropLast (hx : Reaches R r x) :
    ∃ way, IsWay R r x way ∧ x ∉ way.dropLast := by
  rcases Classical.em (x = r) with rfl | hne
  · exact ⟨[x], ⟨rfl, rfl, List.isChain_singleton x⟩, List.not_mem_nil⟩
  · obtain ⟨y, harc, hpath⟩ := Path.first_arrival hx hne
    obtain ⟨way, hway, havoid⟩ := exists_way_iff_path.mpr hpath
    refine ⟨way ++ [x], hway.append_singleton harc, ?_⟩
    rw [List.dropLast_concat]
    intro hmem
    exact (havoid x hmem).2 rfl

theorem forall_way_mem_dropLast_iff (hx : Reaches R r x) :
    (∀ way, IsWay R r x way → a ∈ way.dropLast) ↔ Dominates R r a x ∧ a ≠ x := by
  rw [← forall_way_mem_iff hx]
  constructor
  · intro hall
    refine ⟨fun way hway => List.mem_of_mem_dropLast (hall way hway), ?_⟩
    rintro rfl
    obtain ⟨way, hway, hnot⟩ := exists_way_notMem_dropLast hx
    exact hnot (hall way hway)
  · rintro ⟨hall, hne⟩ way hway
    have hsplit := List.dropLast_append_getLast? x hway.last
    have hmem := hall way hway
    rw [← hsplit, List.mem_append, List.mem_singleton] at hmem
    exact hmem.resolve_right hne

end Way

/-- What a way through a body comes by. -/
inductive Stop where
  | enter (b : BlockId)
  | pass (point : Point)
  deriving DecidableEq, Repr

/-- The stop at which a value comes to be: its instruction, or the entry into its block. -/
def Origin.stop : Origin → Stop
  | .result i => .pass (.instr i)
  | .argument b _ _ => .enter b

/-- The computation has a result, which tells whether `p` holds. -/
def Decides (x : Except Fault Bool) (p : Prop) : Prop := ∃ r, x = .ok r ∧ (r = true ↔ p)

theorem Decides.eq_true_iff {x : Except Fault Bool} {p : Prop} (h : Decides x p) :
    x = .ok true ↔ p := by
  obtain ⟨r, rfl, hr⟩ := h
  rw [← hr, Except.ok.injEq]

namespace Body

variable {f : Body} {b c entry : BlockId} {k m : Nat} {point other : Point} {s x y : Stop}
  {P : Stop → Prop}

/-- One stop of a way right after another. -/
inductive Follows (f : Body) : Stop → Stop → Prop
  | first {b : BlockId} {point : Point} (h : (f.pointsIn b)[0]? = some point) :
      Follows f (.enter b) (.pass point)
  | next {b : BlockId} {k : Nat} {point other : Point} (h : (f.pointsIn b)[k]? = some point)
      (hnext : (f.pointsIn b)[k + 1]? = some other) : Follows f (.pass point) (.pass other)
  | leave {b c : BlockId} (h : f.Arc b c) : Follows f (.pass (.terminator b)) (.enter c)

/-- A stop lies at place `k` of a block. The entry into a block lies before its points. -/
inductive Lies (f : Body) : Stop → BlockId → Nat → Prop
  | enter (b : BlockId) : Lies f (.enter b) b 0
  | pass {point : Point} {b : BlockId} {k : Nat} (h : f.Stands point b k) :
      Lies f (.pass point) b (k + 1)

theorem getElem?_pointsIn : (f.pointsIn b)[k]? = some point ↔ f.Stands point b k := by
  unfold pointsIn
  rcases hb : f.block? b with _ | data
  · have hnone : f.instrs? b = none := by rw [instrs?, hb]; rfl
    rw [List.getElem?_nil]
    refine ⟨fun h => (by cases h), fun h => ?_⟩
    cases h with
    | instr h =>
        rw [instrAt?, hnone] at h
        cases h
    | terminator h _ =>
        rw [hnone] at h
        cases h
  · have hinstrs := instrs?_of hb
    have hat : ∀ k, f.instrAt? b k = data.instrs[k]? := by
      intro k
      rw [instrAt?, hinstrs]
      rfl
    rw [List.getElem?_append, List.length_map, List.getElem?_map]
    split
    · rename_i hk
      constructor
      · intro h
        obtain ⟨i, hi, rfl⟩ := Option.map_eq_some_iff.mp h
        exact .instr ((hat k).trans hi)
      · intro h
        cases h with
        | instr h =>
            rw [← hat, h]
            rfl
        | terminator h hlen =>
            rw [hinstrs, Option.some.injEq] at h
            rw [h, hlen] at hk
            exact absurd hk (Nat.lt_irrefl k)
    · rename_i hk
      constructor
      · intro h
        rw [List.getElem?_singleton] at h
        split at h
        · obtain rfl := Option.some.inj h
          exact .terminator hinstrs (by omega)
        · cases h
      · intro h
        cases h with
        | instr h =>
            rw [hat, List.getElem?_eq_none (by omega)] at h
            cases h
        | terminator h hlen =>
            rw [hinstrs, Option.some.injEq] at h
            rw [h, hlen, Nat.sub_self]
            rfl

theorem Lies.eq_of_place (h : f.Lies x b k) (h' : f.Lies y b k) : x = y := by
  cases h with
  | enter _ =>
      cases h'
      rfl
  | pass h =>
      cases h' with
      | pass h' => rw [h.unique h']

theorem InstrsListed.lies_unique (hf : f.InstrsListed) (h : f.Lies x b k) (h' : f.Lies x c m) :
    b = c ∧ k = m := by
  cases h with
  | enter _ =>
      cases h'
      exact ⟨rfl, rfl⟩
  | pass h =>
      cases h' with
      | pass h' =>
          obtain ⟨rfl, rfl⟩ := hf.stands_unique h h'
          exact ⟨rfl, rfl⟩

theorem exists_lies_terminator (hb : f.isLiveBlock b = true) :
    ∃ m, f.Lies (.pass (.terminator b)) b m := by
  obtain ⟨data, hdata⟩ := isLiveBlock_iff.mp hb
  exact ⟨data.instrs.length + 1, .pass (.terminator (instrs?_of hdata) rfl)⟩

theorem Lies.le_terminator (h : f.Lies x b k) (hlast : f.Lies (.pass (.terminator b)) b m) :
    k ≤ m := by
  cases hlast with
  | pass hlast =>
      cases hlast with
      | terminator hinstrs hlen =>
          cases h with
          | enter _ => exact Nat.zero_le _
          | pass h =>
              cases h with
              | instr h =>
                  rw [instrAt?, hinstrs, Option.bind_some] at h
                  have := (List.getElem?_eq_some_iff.mp h).1
                  omega
              | terminator hsame hlen' =>
                  rw [hinstrs, Option.some.injEq] at hsame
                  rw [← hlen, ← hlen', hsame]

theorem Follows.cases_of_lies (h : f.Follows x y) (hf : f.InstrsListed) (hx : f.Lies x b k) :
    f.Lies y b (k + 1) ∨ x = .pass (.terminator b) ∧ ∃ c, y = .enter c ∧ f.Arc b c := by
  cases h with
  | first h =>
      cases hx
      exact .inl (.pass (getElem?_pointsIn.mp h))
  | next h hnext =>
      obtain ⟨rfl, rfl⟩ := hf.lies_unique hx (.pass (getElem?_pointsIn.mp h))
      exact .inl (.pass (getElem?_pointsIn.mp hnext))
  | leave harc =>
      cases hx with
      | pass hx =>
          cases hx with
          | terminator _ _ => exact .inr ⟨rfl, _, rfl, harc⟩

theorem Lies.path_within (h : f.Lies x b k) (hP : ∀ {y j}, f.Lies y b j → j ≤ k → P y) :
    Path f.Follows P (.enter b) x := by
  induction k generalizing x with
  | zero =>
      cases h
      exact .root (hP (.enter b) (Nat.le_refl 0))
  | succ k ih =>
      have hx := hP h (Nat.le_refl _)
      have hbefore : ∀ {y j}, f.Lies y b j → j ≤ k → P y := fun hy hj => hP hy (by omega)
      cases h with
      | pass h =>
          have hpoint := getElem?_pointsIn.mpr h
          cases k with
          | zero => exact (ih (.enter b) hbefore).step (.first hpoint) hx
          | succ k =>
              have hlt : k < (f.pointsIn b).length := by
                have := (List.getElem?_eq_some_iff.mp hpoint).1
                omega
              have hlast := List.getElem?_eq_getElem hlt
              exact (ih (.pass (getElem?_pointsIn.mp hlast)) hbefore).step (.next hlast hpoint) hx

theorem path_enter {Q : BlockId → Prop} (h : Path f.Arc Q entry b)
    (hP : ∀ {c x k}, Q c → f.Lies x c k → P x) : Path f.Follows P (.enter entry) (.enter b) := by
  induction h with
  | root h => exact .root (hP h (.enter _))
  | step hpath harc h ih =>
      obtain ⟨m, hlast⟩ := exists_lies_terminator (isLiveBlock_of_arc harc)
      have hthrough := hlast.path_within fun hy _ => hP hpath.last hy
      exact (ih.trans hthrough).step (.leave harc) (hP h (.enter _))

theorem Lies.reaches (h : f.Lies x b k) (hb : Reaches f.Arc entry b) :
    Reaches f.Follows (.enter entry) x :=
  (path_enter hb fun _ _ => trivial).trans (h.path_within fun _ _ => trivial)

/-- A way that avoids a stop has come no further than that stop in its block, and has not been in the
block if it is elsewhere. -/
theorem InstrsListed.place_of_evades (hf : f.InstrsListed) (hs : f.Lies s c m)
    (h : Evades f.Follows (.enter entry) s x) :
    ∃ b k, f.Lies x b k ∧ (b = c ∧ k < m ∨ b ≠ c ∧ Evades f.Arc entry c b) := by
  have hstart : ∀ {d}, Stop.enter d ≠ s → d = c → 0 < m := by
    rintro d hne rfl
    rcases Nat.eq_zero_or_pos m with rfl | hpos
    · exact absurd (Lies.eq_of_place (.enter d) hs) hne
    · exact hpos
  induction h with
  | root hne =>
      refine ⟨entry, 0, .enter entry, ?_⟩
      rcases Classical.em (entry = c) with heq | hother
      · exact .inl ⟨heq, hstart hne heq⟩
      · exact .inr ⟨hother, .root hother⟩
  | @step x y _ hfollows hne ih =>
      obtain ⟨b, k, hx, hplace⟩ := ih
      rcases hfollows.cases_of_lies hf hx with hy | ⟨rfl, d, rfl, harc⟩
      · refine ⟨b, k + 1, hy, hplace.imp_left ?_⟩
        rintro ⟨rfl, hlt⟩
        refine ⟨rfl, Nat.lt_of_le_of_ne hlt ?_⟩
        rintro rfl
        exact hne (hy.eq_of_place hs)
      · rcases hplace with ⟨rfl, hlt⟩ | ⟨hother, hevades⟩
        · have hle := hs.le_terminator hx
          omega
        · refine ⟨d, 0, .enter d, ?_⟩
          rcases Classical.em (d = c) with heq | hd
          · exact .inl ⟨heq, hstart hne heq⟩
          · exact .inr ⟨hd, hevades.step harc hd⟩

/-- Every way to a stop has come by another exactly if that one lies no later in the same block, or in
another block that dominates. -/
theorem InstrsListed.dominates_iff_place (hf : f.InstrsListed) (hs : f.Lies s c m)
    (hx : f.Lies x b k) (hb : Reaches f.Arc entry b) :
    Dominates f.Follows (.enter entry) s x ↔
      c = b ∧ m ≤ k ∨ c ≠ b ∧ Dominates f.Arc entry c b := by
  -- A stop at another place is another stop.
  have hapart : ∀ {y d j}, f.Lies y d j → (d = c → j < m) → y ≠ s := by
    rintro y d j hy hbefore rfl
    obtain ⟨hblock, hplace⟩ := hf.lies_unique hy hs
    have := hbefore hblock
    omega
  constructor
  · intro hdom
    rcases Classical.em (c = b) with rfl | hne
    · left
      refine ⟨rfl, Nat.le_of_not_lt fun hlt => hdom.2 ?_⟩
      -- The first arrival in the block has not been there before.
      have hwithin : Path f.Follows (· ≠ s) (.enter c) x :=
        hx.path_within fun hy hj => hapart hy fun _ => by omega
      rcases Classical.em (c = entry) with rfl | hfirst
      · exact hwithin
      · obtain ⟨d, harc, hpath⟩ := Path.first_arrival hb hfirst
        have hd : d ≠ c := hpath.last.2
        obtain ⟨n, hlast⟩ := exists_lies_terminator (isLiveBlock_of_arc harc)
        have hto : Path f.Follows (· ≠ s) (.enter entry) (.enter d) :=
          path_enter hpath fun hc hy => hapart hy fun heq => absurd heq hc.2
        have hthrough : Path f.Follows (· ≠ s) (.enter d) (.pass (.terminator d)) :=
          hlast.path_within fun hy _ => hapart hy fun heq => absurd heq hd
        exact ((hto.trans hthrough).step (.leave harc) hwithin.first).trans hwithin
    · right
      refine ⟨hne, hb, fun hevades => hdom.2 ?_⟩
      have hto : Path f.Follows (· ≠ s) (.enter entry) (.enter b) :=
        path_enter hevades fun hc hy => hapart hy fun heq => absurd heq hc
      exact hto.trans (hx.path_within fun hy _ => hapart hy fun heq => absurd heq.symm hne)
  · intro hplace
    refine ⟨hx.reaches hb, fun hevades => ?_⟩
    obtain ⟨b', k', hx', hbefore⟩ := hf.place_of_evades hs hevades
    obtain ⟨rfl, rfl⟩ := hf.lies_unique hx' hx
    rcases hplace with ⟨rfl, hle⟩ | ⟨hne, hdom⟩
    · rcases hbefore with ⟨-, hlt⟩ | ⟨hother, -⟩
      · omega
      · exact hother rfl
    · rcases hbefore with ⟨heq, -⟩ | ⟨-, hblock⟩
      · exact hne heq.symm
      · exact hdom.2 hblock

theorem InstrsListed.exists_stands (hf : f.InstrsListed) (h : f.place? point = some b) :
    ∃ k, f.Stands point b k :=
  hf.mem_pointsIn_iff_stands.mp (hf.mem_pointsIn.mpr h)

theorem Consistent.exists_lies_origin (hf : f.Consistent) {v : ValueId} {value : Value}
    (hv : f.value? v = some value) : ∃ c m, f.Lies value.origin.stop c m := by
  rcases horigin : value.origin with i | ⟨c, index, kind⟩
  · have hresult := (hf.results i v).mpr (origin?_eq_some.mpr ⟨value, hv, horigin⟩)
    obtain ⟨data, hdata, -⟩ := result?_eq_some.mp hresult
    obtain ⟨m, hm⟩ := hf.instrs.exists_instrAt? (holder?_eq_some.mpr ⟨data, hdata, rfl⟩)
    exact ⟨data.block, m + 1, .pass (.instr hm)⟩
  · exact ⟨c, 0, .enter c⟩

end Body

namespace Dominators

variable {f : Body} {d : Dominators} {entry b : BlockId} {k : Nat} {point other : Point}

theorem decides_pointDominates (hf : f.Consistent) (hd : d.Represents f.Arc entry)
    (howner : d.owner = f.id) {c : BlockId} {m : Nat} (hother : f.Stands other c m)
    (hpoint : f.Stands point b k) (hb : Reaches f.Arc entry b) :
    Decides (d.pointDominates f other point)
      (Dominates f.Follows (.enter entry) (.pass other) (.pass point)) := by
  rw [hf.instrs.dominates_iff_place (.pass hother) (.pass hpoint) hb]
  have hrequire : d.requireOwner f = .ok () := if_pos howner
  simp only [pointDominates, hrequire, ok_bind, hf.instrs.pointPosition_eq_ok.mpr hother,
    hf.instrs.pointPosition_eq_ok.mpr hpoint]
  rcases Classical.em (c = b) with rfl | hne
  · rw [if_pos rfl]
    refine ⟨_, rfl, ?_⟩
    simp
  · rw [if_neg hne]
    refine ⟨_, rfl, ?_⟩
    simp [properlyDominates, hne, hd.dominates_iff_of_reaches hb]

theorem decides_pointProperlyDominates (hf : f.Consistent) (hd : d.Represents f.Arc entry)
    (howner : d.owner = f.id) {c : BlockId} {m : Nat} (hother : f.Stands other c m)
    (hpoint : f.Stands point b k) (hb : Reaches f.Arc entry b) :
    Decides (d.pointProperlyDominates f other point)
      (Dominates f.Follows (.enter entry) (.pass other) (.pass point) ∧ other ≠ point) := by
  rw [pointProperlyDominates]
  split
  · rename_i heq
    exact ⟨false, rfl, by simp [heq]⟩
  · rename_i hne
    rw [and_iff_left hne]
    exact decides_pointDominates hf hd howner hother hpoint hb

theorem decides_valueProperlyDominates (hf : f.Consistent) (hd : d.Represents f.Arc entry)
    (howner : d.owner = f.id) {v : ValueId} {value : Value} (hv : f.value? v = some value)
    (hpoint : f.Stands point b k) (hb : Reaches f.Arc entry b) :
    Decides (d.valueProperlyDominates f v point)
      (Dominates f.Follows (.enter entry) value.origin.stop (.pass point) ∧
        value.origin.stop ≠ .pass point) := by
  obtain ⟨c, m, hstop⟩ := hf.exists_lies_origin hv
  rw [valueProperlyDominates, Body.value_eq_ok.mpr hv, ok_bind]
  rcases horigin : value.origin with i | ⟨e, index, kind⟩
  · rw [horigin] at hstop
    cases hstop with
    | pass hstands =>
        have hdecides := decides_pointProperlyDominates hf hd howner hstands hpoint hb
        simpa only [Origin.stop, ne_eq, Stop.pass.injEq] using hdecides
  · have hrequire : d.requireOwner f = .ok () := if_pos howner
    rw [Origin.stop, hf.instrs.dominates_iff_place (.enter e) (.pass hpoint) hb]
    simp only [valueDominates, Body.value_eq_ok.mpr hv, ok_bind, horigin, hrequire,
      hf.instrs.pointPosition_eq_ok.mpr hpoint]
    refine ⟨_, rfl, ?_⟩
    rw [hd.dominates_iff]
    rcases Classical.em (e = b) with heq | hne
    · simp [heq]
    · simp [hne]

end Dominators

/-- In a well-built body with a block, a point dominates a point that can be reached exactly if it is
on every way there, and a value properly dominates it exactly if every way there has come by its
definition before. Dominance is a partial order on the points that can be reached. -/
theorem WellBuilt.pointDominance_exact {f : Body} (hf : WellBuilt f) (hne : f.layout ≠ []) :
    ∃ d entry, f.dominators = .ok d ∧ f.entry = .ok entry ∧
      (∀ a p c b, f.place? a = some c → f.place? p = some b → d.isReachable b = true →
        Decides (d.pointDominates f a p)
          (∀ way, IsWay f.Follows (.enter entry) (.pass p) way → .pass a ∈ way) ∧
        Decides (d.pointProperlyDominates f a p)
          ((∀ way, IsWay f.Follows (.enter entry) (.pass p) way → .pass a ∈ way) ∧ a ≠ p)) ∧
      (∀ v value p b, f.value? v = some value → f.place? p = some b → d.isReachable b = true →
        Decides (d.valueProperlyDominates f v p)
          (∀ way, IsWay f.Follows (.enter entry) (.pass p) way →
            value.origin.stop ∈ way.dropLast)) ∧
      IsPartialOrder {p // ∃ b, f.place? p = some b ∧ d.isReachable b = true}
        fun p q => d.pointDominates f p.1 q.1 = .ok true := by
  obtain ⟨entry, rest, hlayout⟩ := List.exists_cons_of_ne_nil hne
  have hentry : f.entry = .ok entry := Body.entry_eq_ok.mpr ⟨rest, hlayout⟩
  have hcons := hf.consistent
  obtain ⟨d, hd, hrep⟩ := hcons.exists_dominators hentry
  have howner := Body.owner_of_dominators hd
  have hdecides : ∀ {a p c b}, f.place? a = some c → f.place? p = some b → d.isReachable b = true →
      Decides (d.pointDominates f a p) (Dominates f.Follows (.enter entry) (.pass a) (.pass p)) := by
    intro a p c b ha hp hb
    obtain ⟨m, ha⟩ := hcons.instrs.exists_stands ha
    obtain ⟨k, hp⟩ := hcons.instrs.exists_stands hp
    exact Dominators.decides_pointDominates hcons hrep howner ha hp ((hrep.isReachable_iff b).mp hb)
  refine ⟨d, entry, hd, hentry, ?_, ?_, ?_⟩
  · intro a p c b ha hp hb
    have hreach := (hrep.isReachable_iff b).mp hb
    obtain ⟨m, hm⟩ := hcons.instrs.exists_stands ha
    obtain ⟨k, hk⟩ := hcons.instrs.exists_stands hp
    rw [forall_way_mem_iff ((Body.Lies.pass hk).reaches hreach)]
    exact ⟨hdecides ha hp hb,
      Dominators.decides_pointProperlyDominates hcons hrep howner hm hk hreach⟩
  · intro v value p b hv hp hb
    have hreach := (hrep.isReachable_iff b).mp hb
    obtain ⟨k, hk⟩ := hcons.instrs.exists_stands hp
    rw [forall_way_mem_dropLast_iff ((Body.Lies.pass hk).reaches hreach)]
    exact Dominators.decides_valueProperlyDominates hcons hrep howner hv hk hreach
  · have hiff : ∀ p q : {p // ∃ b, f.place? p = some b ∧ d.isReachable b = true},
        d.pointDominates f p.1 q.1 = .ok true ↔
          Dominates f.Follows (.enter entry) (.pass p.1) (.pass q.1) := by
      rintro ⟨p, c, hp, -⟩ ⟨q, b, hq, hb⟩
      exact (hdecides hp hq hb).eq_true_iff
    refine { refl := fun p => ?_, trans := fun p q s hpq hqs => ?_, antisymm := fun p q hpq hqp => ?_ }
    · obtain ⟨b, hp, hb⟩ := p.2
      obtain ⟨k, hk⟩ := hcons.instrs.exists_stands hp
      rw [hiff]
      exact .refl ((Body.Lies.pass hk).reaches ((hrep.isReachable_iff b).mp hb))
    · rw [hiff] at hpq hqs ⊢
      exact hpq.trans hqs
    · rw [hiff] at hpq hqp
      exact Subtype.ext (Stop.pass.inj (hpq.antisymm hqp))

/-- A loop of one block with two instructions, of which the second is passed before the first when the
loop is taken again. -/
def twoStepLoop : Body :=
  replayed [.createBlock, .createBlock, .createBlock,
    .addFunctionArg ⟨0⟩ .int .guaranteed,
    .appendInstr ⟨1⟩ (.builtin "add" [⟨0⟩, ⟨0⟩] (some (.int, .none)) false),
    .appendInstr ⟨1⟩ (.builtin "test" [⟨1⟩] (some (.bool, .none)) false),
    .setTerminator ⟨0⟩ (.br ⟨1⟩ []),
    .setTerminator ⟨1⟩ (.condBr ⟨2⟩ ⟨1⟩ [] ⟨2⟩ []),
    .setTerminator ⟨2⟩ (.ret ⟨1⟩)]

theorem twoStepLoop_pointDominance_exact :
    (∃ way, IsWay twoStepLoop.Follows (.enter ⟨0⟩) (.pass (.instr ⟨0⟩)) way ∧
      .pass (.instr ⟨1⟩) ∉ way) ∧
    ∀ way, IsWay twoStepLoop.Follows (.enter ⟨0⟩) (.pass (.terminator ⟨2⟩)) way →
      .pass (.instr ⟨0⟩) ∈ way.dropLast := by
  have hbuilt : WellBuilt twoStepLoop := wellBuilt_replayed _
  have hne : twoStepLoop.layout ≠ [] := by decide +kernel
  obtain ⟨d, entry, hd, hentry, hpoints, hvalues, -⟩ := WellBuilt.pointDominance_exact hbuilt hne
  obtain rfl : ⟨0⟩ = entry := by
    have hfirst : twoStepLoop.entry = .ok ⟨0⟩ := by cbv
    rw [hfirst] at hentry
    exact Except.ok.inj hentry
  have hread : twoStepLoop.dominators.map (fun d => (d.isReachable ⟨1⟩, d.isReachable ⟨2⟩,
      d.pointDominates twoStepLoop (.instr ⟨1⟩) (.instr ⟨0⟩),
      d.valueProperlyDominates twoStepLoop ⟨1⟩ (.terminator ⟨2⟩))) =
        .ok (true, true, .ok false, .ok true) := by decide +kernel
  rw [hd] at hread
  simp only [Except.map, Except.ok.injEq, Prod.mk.injEq] at hread
  obtain ⟨hone, htwo, hpoint, hvalue⟩ := hread
  have hsum : ∃ value, twoStepLoop.value? ⟨1⟩ = some value ∧ value.origin = .result ⟨0⟩ := by
    exact ⟨⟨.int, .none, .result ⟨0⟩⟩, by cbv, rfl⟩
  obtain ⟨value, hsome, horigin⟩ := hsum
  constructor
  · obtain ⟨⟨r, hr, hways⟩, -⟩ := hpoints (.instr ⟨1⟩) (.instr ⟨0⟩) ⟨1⟩ ⟨1⟩ (by cbv) (by cbv) hone
    rw [hpoint, Except.ok.injEq] at hr
    rw [← hr, iff_comm, iff_false_intro Bool.false_ne_true, iff_false, not_forall] at hways
    simpa using hways
  · have hdecides := hvalues ⟨1⟩ value (.terminator ⟨2⟩) ⟨2⟩ hsome (by cbv) htwo
    rw [horigin] at hdecides
    exact hdecides.eq_true_iff.mp hvalue

end FlowGraph
