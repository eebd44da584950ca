import FlowGraph.Body.Build

namespace FlowGraph.Body

/-- The points that read `v`, once for each slot. -/
def usersOf (f : Body) (v : ValueId) : List Point := f.useIndex.usersOf v

/-- The points that read `v`, each once, in increasing order. -/
def readersOf (f : Body) (v : ValueId) : List Point := (sortPoints (f.usersOf v)).eraseDups

/-- The operands of a point. -/
def operandsAt (f : Body) : Point → Except Fault (List ValueId)
  | .instr i => return (← f.instr i).op.operands
  | .terminator b => return (← f.terminator b).operands

/-- The slots of `point` that read `v`. -/
def usesAt (v : ValueId) (point : Point) (operands : List ValueId) : List Use :=
  (operands.zipIdx.filter (·.1 = v)).map fun slot => ⟨point, slot.2⟩

/-- The slots that read `v`, ordered by point and then by position. -/
def usesOf (f : Body) (v : ValueId) : Except Fault (List Use) := do
  let uses ← (f.readersOf v).mapM fun point => return usesAt v point (← f.operandsAt point)
  return uses.flatten

/-- The operands of a point; none if it was erased. -/
def operandsAt? (f : Body) : Point → List ValueId
  | .instr i => ((f.instr? i).map (·.op.operands)).getD []
  | .terminator b => (((f.block? b).bind (·.terminator)).map (·.operands)).getD []

/-- Replace the value in every operand slot of a point by its image under `g`. -/
def mapOperandsAt (f : Body) (g : ValueId → ValueId) : Point → Body
  | .instr i => f.modifyInstr i fun data => { data with op := data.op.mapOperands g }
  | .terminator b =>
    f.modifyBlock b fun data => { data with terminator := data.terminator.map (·.mapOperands g) }

/-- Let every slot of `point` that reads `old` read `new`. -/
def substituteAt (f : Body) (old new : ValueId) (point : Point) : Body :=
  let slots := (f.operandsAt? point).count old
  let f := f.mapOperandsAt (fun v => if v = old then new else v) point
  { f with useIndex := f.useIndex.link point (List.replicate slots new) }

/-- Let every slot that reads `old` read `new`. -/
def replaceAllUses (f : Body) (old new : ValueId) : Body :=
  if old = new then f
  else
    (f.readersOf old).foldl (fun f point => f.substituteAt old new point)
      { f with useIndex := f.useIndex.clear old }

end FlowGraph.Body
