import FlowGraph.Body.Similar
import FlowGraph.Body.Verify
import FlowGraph.Dominators.Backward
import FlowGraph.Edit.Phi
import FlowGraph.Loop.Boundary
import FlowGraph.Loop.Discovery
import FlowGraph.Program
import FlowGraph.Shape
import FlowGraph.Snapshot.Read
import FlowGraph.Snapshot.Write
import FlowGraph.Proofs.DeadEnd
import FlowGraph.Proofs.Dominance.Exact
import FlowGraph.Proofs.Edit.Commute
import FlowGraph.Proofs.Edit.EdgeSplit
import FlowGraph.Proofs.Edit.Erasure
import FlowGraph.Proofs.Edit.Exits
import FlowGraph.Proofs.Edit.Rejoin
import FlowGraph.Proofs.Edit.Sweep
import FlowGraph.Proofs.Foreign
import FlowGraph.Proofs.Loop.Nesting
import FlowGraph.Proofs.PostDominance.Exact
import FlowGraph.Proofs.Run.Cleanup
import FlowGraph.Proofs.Run.Edit
import FlowGraph.Proofs.Traversal
import FlowGraph.Proofs.UseScan
import FlowGraph.Proofs.Dominance.Point
import FlowGraph.Proofs.Edit.Unfinished
import FlowGraph.Proofs.Similar.Basic
import FlowGraph.Proofs.Similar.Edit
import FlowGraph.Proofs.Snapshot
import FlowGraph.Proofs.Similar.Utility
import FlowGraph.Proofs.Similar.Analysis
import FlowGraph.Proofs.Similar.Congruence
import FlowGraph.Proofs.Loop.Stored
import FlowGraph.Proofs.Dominance.Iteration
import FlowGraph.Proofs.Loop.Scopes
import FlowGraph.Proofs.Identity
import FlowGraph.Proofs.Session
import FlowGraph.Proofs.Dominance.Upkeep
import FlowGraph.Proofs.Loop.Membership
import FlowGraph.Proofs.Accessors
import FlowGraph.Proofs.Loop.Link
