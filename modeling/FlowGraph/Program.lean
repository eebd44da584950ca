import FlowGraph.DeadEnd
import FlowGraph.Edit.Merge
import FlowGraph.Edit.Split

namespace FlowGraph

structure Program where
  bodies : List Body := []
  /-- How many identities have been given out, however many bodies there have been. -/
  issued : Nat := 0
  deriving Repr, Inhabited

namespace Program

def body? (p : Program) (slot : Nat) : Option Body := p.bodies[slot]?

def nextId (p : Program) : BodyId := ⟨p.issued⟩

/-- Put a body into the next slot under a new identity; returns the slot. -/
def add (p : Program) (body : Body) : Nat × Program :=
  (p.bodies.length,
    { bodies := p.bodies ++ [{ body with id := p.nextId }], issued := p.issued + 1 })

def set (p : Program) (slot : Nat) (body : Body) : Program :=
  { p with bodies := p.bodies.set slot body }

/-- Apply an edit to every body; counts those that it changed. -/
def sweep (p : Program) (edit : Body → Except Fault (Bool × Body)) :
    Except Fault (Nat × Program) := do
  let results ← p.bodies.mapM edit
  return (results.countP Prod.fst, { p with bodies := results.map Prod.snd })

def splitCriticalEdges (p : Program) : Except Fault (Nat × Program) :=
  p.sweep fun f => do
    let (changed, t) ← { body := f : Tracked }.splitAllCriticalEdges
    return (changed, t.body)

def mergeBlocks (p : Program) : Except Fault (Nat × Program) := p.sweep Body.mergeBlocks

def deadEnds (p : Program) : Except Fault (List (List BlockId)) :=
  p.bodies.mapM ({} : DeadEnds).deadEnds

end Program

end FlowGraph
