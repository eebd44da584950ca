import FlowGraph.Body.Preserved
import FlowGraph.Loop.Basic

namespace FlowGraph

structure Tracked where
  body : Body
  dominators : Option Dominators := none
  loops : Option LoopForest := none
  deriving Repr

end FlowGraph
