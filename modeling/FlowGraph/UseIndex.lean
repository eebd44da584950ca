import FlowGraph.Point

/-!
The use index: for each value the points that read it, one entry for each operand slot. A value
that was erased keeps its list. Values that the index has no list for are ignored.

The order inside a list depends on the history of edits; `sortPoints` gives the order in which
lists are compared and shown.
-/

namespace FlowGraph

def sortPoints (points : List Point) : List Point := points.mergeSort Point.le

/-- Drop the first entry for `point`; the last entry takes its place. -/
def dropPoint (point : Point) (points : List Point) : List Point :=
  match points.idxOf? point with
  | none => points
  | some i => (points.set i (points.getLastD point)).dropLast

structure UseIndex where
  users : Array (List Point) := #[]
  deriving DecidableEq, Repr, Inhabited

namespace UseIndex

/-- The points that read `value`, once for each slot. -/
def usersOf (u : UseIndex) (value : ValueId) : List Point := u.users[value.index]?.getD []

/-- Start the empty list of the next value. -/
def addValue (u : UseIndex) : UseIndex := ⟨u.users.push []⟩

/-- Record that a slot of `point` reads `value`. -/
def add (u : UseIndex) (point : Point) (value : ValueId) : UseIndex :=
  ⟨u.users.modify value.index (· ++ [point])⟩

/-- Forget one slot of `point` that reads `value`. -/
def drop (u : UseIndex) (point : Point) (value : ValueId) : UseIndex :=
  ⟨u.users.modify value.index (dropPoint point)⟩

def link (u : UseIndex) (point : Point) (operands : List ValueId) : UseIndex :=
  operands.foldl (fun u value => u.add point value) u

def unlink (u : UseIndex) (point : Point) (operands : List ValueId) : UseIndex :=
  operands.foldl (fun u value => u.drop point value) u

/-- Forget all points that read `value`. -/
def clear (u : UseIndex) (value : ValueId) : UseIndex :=
  ⟨u.users.setIfInBounds value.index []⟩

def sorted (u : UseIndex) : UseIndex := ⟨u.users.map sortPoints⟩

@[simp] theorem usersOf_addValue (u : UseIndex) (value : ValueId) :
    u.addValue.usersOf value = u.usersOf value := by
  simp only [usersOf, addValue, Array.getElem?_push]
  split
  · rename_i h
    simp [h]
  · rfl

theorem usersOf_clear (u : UseIndex) (value other : ValueId) :
    (u.clear value).usersOf other = if other = value then [] else u.usersOf other := by
  simp only [usersOf, clear, Array.getElem?_setIfInBounds]
  by_cases h : other = value
  · subst h
    by_cases hi : other.index < u.users.size <;> simp [hi]
  · have hne : ¬ value.index = other.index := fun hidx => h (by cases other; cases value; simp_all)
    simp [h, hne]

end UseIndex

end FlowGraph
