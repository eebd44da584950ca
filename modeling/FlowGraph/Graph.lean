import FlowGraph.Fault
import FlowGraph.Weight

/-!
Finite directed graphs and their exploration. A graph gives each of its nodes a list of
neighbours, in a fixed order; asking for the neighbours of anything else is a fault.

`Walk` is a depth-first walk that can be stopped after any node: it holds the nodes seen so far
and the path to the node it is at, with the neighbours still to be tried. `pull` moves on to the
next node that is finished, `drain` moves on to the end. `flood` collects everything that can be
reached, without an order.

All of them end because each step either uses up a listed neighbour or sees a new node.
-/

namespace FlowGraph

structure Graph (α : Type) where
  nodes : List α
  next : α → Except Fault (List α)
  /-- Only a node has neighbours. -/
  mem_nodes : ∀ a neighbours, next a = .ok neighbours → a ∈ nodes

/-- A node on the path of a walk, with the neighbours that are still to be tried. -/
structure Frame (α : Type) where
  node : α
  pending : List α
  deriving DecidableEq, Repr

/-- A depth-first walk in progress. The top of the stack is the node that the walk is at. -/
structure Walk (α : Type) where
  seen : List α
  stack : List (Frame α)
  deriving DecidableEq, Repr

namespace Graph

variable {α : Type} [DecidableEq α]

/-- What seeing a node adds to the work of a walk. -/
def cost (g : Graph α) (a : α) : Nat :=
  match g.next a with
  | .ok neighbours => neighbours.length + 2
  | .error _ => 0

/-- The work left in the nodes not yet seen. -/
def unseenWork (g : Graph α) (seen : List α) : Nat :=
  weigh g.cost (g.nodes.filter (· ∉ seen))

theorem unseenWork_cons {g : Graph α} {seen neighbours : List α} {a : α}
    (hnext : g.next a = .ok neighbours) (hseen : a ∉ seen) :
    g.unseenWork (a :: seen) + (neighbours.length + 2) ≤ g.unseenWork seen := by
  have h := weigh_filter_cons_add_le g.cost (g.mem_nodes a neighbours hnext) hseen
  have hcost : g.cost a = neighbours.length + 2 := by simp [cost, hnext]
  simpa [unseenWork, hcost] using h

/-- The work left in the path of a walk. -/
def stackWork (stack : List (Frame α)) : Nat :=
  weigh (fun frame => frame.pending.length + 1) stack

/-- The work left in a walk. -/
def work (g : Graph α) (w : Walk α) : Nat := g.unseenWork w.seen + stackWork w.stack

/-- A walk from `start` that takes the nodes in `seen` for explored; if `start` is one of them
there is nothing to walk. -/
def walkFrom (g : Graph α) (start : α) (seen : List α) : Except Fault (Walk α) :=
  if start ∈ seen then .ok ⟨seen, []⟩
  else return ⟨start :: seen, [⟨start, ← g.next start⟩]⟩

/-- Walk on to the next node all of whose neighbours have been tried. There is none when the
walk has come to its end. -/
def pull (g : Graph α) : Walk α → Except Fault (Option (α × Walk α))
  | ⟨_, []⟩ => .ok none
  | ⟨seen, ⟨a, []⟩ :: rest⟩ => .ok (some (a, ⟨seen, rest⟩))
  | ⟨seen, ⟨a, b :: pending⟩ :: rest⟩ =>
    if _ : b ∈ seen then g.pull ⟨seen, ⟨a, pending⟩ :: rest⟩
    else
      match _hnext : g.next b with
      | .error fault => .error fault
      | .ok neighbours => g.pull ⟨b :: seen, ⟨b, neighbours⟩ :: ⟨a, pending⟩ :: rest⟩
termination_by w => g.work w
decreasing_by
  · simp [work, stackWork, weigh]
  · have := unseenWork_cons ‹g.next b = .ok neighbours› ‹b ∉ seen›
    simp only [work, stackWork, weigh, List.length_cons]
    omega

theorem work_lt_of_pull {g : Graph α} {w w' : Walk α} {a : α}
    (h : g.pull w = .ok (some (a, w'))) : g.work w' < g.work w := by
  fun_induction Graph.pull g w with
  | case1 => simp at h
  | case2 seen b rest =>
    simp only [Except.ok.injEq, Option.some.injEq, Prod.mk.injEq] at h
    obtain ⟨rfl, rfl⟩ := h
    simp [work, stackWork, weigh]
  | case3 seen a' b pending rest hseen ih =>
    have := ih h
    simp only [work, stackWork, weigh, List.length_cons] at this ⊢
    omega
  | case4 => simp at h
  | case5 seen a' b pending rest hseen neighbours hnext ih =>
    have := ih h
    have := unseenWork_cons hnext hseen
    simp only [work, stackWork, weigh, List.length_cons] at *
    omega

/-- Walk on to the end: the nodes in the order in which they are finished. -/
def drain (g : Graph α) (w : Walk α) : Except Fault (List α × Walk α) :=
  match _hpull : g.pull w with
  | .error fault => .error fault
  | .ok none => .ok ([], w)
  | .ok (some (a, w')) =>
    match g.drain w' with
    | .error fault => .error fault
    | .ok (order, last) => .ok (a :: order, last)
termination_by g.work w
decreasing_by exact work_lt_of_pull ‹_›

/-- Walk on until `count` nodes are finished, or to the end. -/
def take (g : Graph α) : Nat → Walk α → Except Fault (List α × Walk α)
  | 0, w => .ok ([], w)
  | count + 1, w => do
    match ← g.pull w with
    | none => return ([], w)
    | some (a, w) =>
      let (order, w) ← g.take count w
      return (a :: order, w)

/-- The nodes that can be reached from `start` without the nodes in `seen`, in post-order: a node
follows those that are first reached through it. -/
def postOrder (g : Graph α) (start : α) (seen : List α) : Except Fault (List α) := do
  return (← g.drain (← g.walkFrom start seen)).1

/-- Add to `seen` everything that can be reached from the nodes on the stack without passing
through `seen`. -/
def flood (g : Graph α) : List α → List α → Except Fault (List α)
  | [], seen => .ok seen
  | a :: stack, seen =>
    if _ : a ∈ seen then g.flood stack seen
    else
      match _hnext : g.next a with
      | .error fault => .error fault
      | .ok neighbours => g.flood (neighbours.reverse ++ stack) (a :: seen)
termination_by stack seen => g.unseenWork seen + stack.length
decreasing_by
  · simp
  · have := unseenWork_cons ‹g.next a = .ok neighbours› ‹a ∉ seen›
    simp
    omega

end Graph

end FlowGraph
