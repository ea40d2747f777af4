/-
# Minimal feedback arcs

`MinimalFeedbackArcs` (`xls/passes/minimal_feedback_arcs.cc`): a graph of the channel
operations of a package, an arrangement of it, and the channels of the operations to which
an edge of the arrangement goes back.

The nodes of a function base are listed in the order of `TopoSort`.  Edge maps are sorted by
node id, as are the sets in them.  A lookup which the code takes for granted fails where it
would abort; loops have fuel.
-/
import Xls.Lib.Multimap

namespace Xls
namespace FeedbackChannels

open Multimap

/-- The operations which matter here, with the channel of a send or receive. -/
inductive Op where
  | send (channelId : ℕ)
  | receive (channelId : ℕ)
  | other
  deriving DecidableEq, Repr

/-- `Node`. -/
structure Node where
  id : ℕ
  op : Op
  operands : List ℕ
  deriving DecidableEq, Repr

/-- `ChannelOps`. -/
inductive ChannelOps where
  | sendOnly
  | receiveOnly
  | sendReceive
  deriving DecidableEq, Repr

/-- `Package`. -/
structure Package where
  functionBases : List (List Node)
  channels : ℕ → Option ChannelOps

/-- `StableEdgeMap`. -/
abbrev StableEdgeMap := Multimap ℕ ℕ

/-- `InterProcConnectivityGraph`. -/
structure InterProcConnectivityGraph where
  predecessorEdges : StableEdgeMap
  successorEdges : StableEdgeMap

/-- The channel id of a send or receive. -/
def Op.channelId : Op → Option ℕ
  | .send channelId => some channelId
  | .receive channelId => some channelId
  | .other => none

namespace Package

variable (p : Package)

/-- The nodes of all function bases. -/
def nodes : List Node := p.functionBases.flatten

/-- The node with an id. -/
def node? (id : ℕ) : Option Node := p.nodes.find? fun node => node.id == id

/-- `node->users()`. -/
def users (id : ℕ) : List ℕ :=
  (p.nodes.filter fun node => decide (id ∈ node.operands)).map Node.id

/-- `GetInternalChannelId`. -/
def getInternalChannelId (node : Node) : Option ℕ :=
  match node.op.channelId with
  | none => none
  | some channelId => if p.channels channelId = some .sendReceive then some channelId else none

/-- `GetInternalChannelId` of the node with an id. -/
def internalChannel (id : ℕ) : Option ℕ := (p.node? id).bind p.getInternalChannelId

/-! ## The connectivity graph -/

/-- The maps which `MakeInterProcConnectivityGraph` builds up. -/
structure Builder where
  predecessorEdges : StableEdgeMap
  channelIdToInternalReceive : Multimap ℕ ℕ
  channelIdToInternalSend : Multimap ℕ ℕ

/-- The body of the loop over the nodes of a function base. -/
def visitNode (b : Builder) (node : Node) : Builder :=
  match p.getInternalChannelId node with
  | some channelId =>
    let predecessorEdges := (p.users node.id).foldl
      (fun edges successor => insertAll edges successor [node.id]) b.predecessorEdges
    match node.op with
    | .send _ => { b with
        predecessorEdges
        channelIdToInternalSend := insertAll b.channelIdToInternalSend channelId [node.id] }
    | _ => { b with
        predecessorEdges
        channelIdToInternalReceive := insertAll b.channelIdToInternalReceive channelId [node.id] }
  | none =>
    let predecessorEdges := insertAll b.predecessorEdges node.id []
    let transitivePredecessors := find predecessorEdges node.id
    { b with
      predecessorEdges := (p.users node.id).foldl
        (fun edges successor => insertAll edges successor transitivePredecessors)
        predecessorEdges }

/-- The loop over the function bases. -/
def visitFunctionBases : Builder :=
  p.functionBases.foldl (fun b fb => fb.foldl p.visitNode b) ⟨[], [], []⟩

/-- The edges from the sends of a channel to its receives; an `InternalError` where there
are no receives. -/
def connectChannel (receives : Multimap ℕ ℕ) (edges : StableEdgeMap) (entry : ℕ × List ℕ) :
    Option StableEdgeMap :=
  if entry.1 ∈ keys receives then
    some (entry.2.foldl (fun edges send =>
      (find receives entry.1).foldl (fun edges receive => insertAll edges receive [send]) edges)
      edges)
  else none

/-- The successor map from the predecessor map. -/
def mirror (predecessorEdges : StableEdgeMap) : StableEdgeMap :=
  predecessorEdges.foldl (fun successorEdges entry =>
    entry.2.foldl (fun successorEdges predecessor => insertAll successorEdges predecessor [entry.1])
      (insertAll successorEdges entry.1 [])) []

/-- `MakeInterProcConnectivityGraph`. -/
def makeInterProcConnectivityGraph : Option InterProcConnectivityGraph := do
  let b := p.visitFunctionBases
  if b.channelIdToInternalSend.length ≠ b.channelIdToInternalReceive.length then none
  else
    let edges ← b.channelIdToInternalSend.foldlM (connectChannel b.channelIdToInternalReceive)
      b.predecessorEdges
    let predecessorEdges := edges.filter fun entry => (p.internalChannel entry.1).isSome
    return { predecessorEdges, successorEdges := mirror predecessorEdges }

end Package

/-! ## The greedy arrangement -/

/-- The state of `GreedyFAS`. -/
structure FasState where
  predecessorEdges : StableEdgeMap
  successorEdges : StableEdgeMap
  s1 : List ℕ
  s2Rev : List ℕ
  removedNodes : List ℕ

/-- `clear_removed_keys`. -/
def clearRemovedKeys (removed : List ℕ) (map : StableEdgeMap) : StableEdgeMap :=
  map.filter fun entry => decide (entry.1 ∉ removed)

/-- `clear_removed_values`. -/
def clearRemovedValues (removed : List ℕ) (values : List ℕ) : List ℕ :=
  values.filter fun node => decide (node ∉ removed)

/-- A pass over a map: values are cleared, and keys which are left without values (and which
`skip` does not hold back) are removed.  What one key removes, the next does not see. -/
def clearPass (skip : ℕ → Bool) (removed : List ℕ) : StableEdgeMap → StableEdgeMap × List ℕ
  | [] => ([], [])
  | (node, values) :: rest =>
    let values := clearRemovedValues removed values
    if !skip node && values.isEmpty then
      let (rest, found) := clearPass skip (node :: removed) rest
      ((node, values) :: rest, node :: found)
    else
      let (rest, found) := clearPass skip removed rest
      ((node, values) :: rest, found)

/-- `while (saw_sink)`. -/
def removeSinks : ℕ → FasState → Option FasState
  | 0, _ => none
  | fuel + 1, s =>
    let (successorEdges, sinks) := clearPass (fun _ => false) s.removedNodes
      (clearRemovedKeys s.removedNodes s.successorEdges)
    let s := { s with
      successorEdges
      s2Rev := s.s2Rev ++ sinks
      removedNodes := s.removedNodes ++ sinks }
    if sinks.isEmpty then some s else removeSinks fuel s

/-- `node_is_sink`. -/
def nodeIsSink (successorEdges : StableEdgeMap) (node : ℕ) : Bool :=
  (find successorEdges node).isEmpty

/-- `while (saw_source)`. -/
def removeSources : ℕ → FasState → Option FasState
  | 0, _ => none
  | fuel + 1, s =>
    let (predecessorEdges, sources) := clearPass (nodeIsSink s.successorEdges) s.removedNodes
      (clearRemovedKeys s.removedNodes s.predecessorEdges)
    let s := { s with
      predecessorEdges
      s1 := s.s1 ++ sources
      removedNodes := s.removedNodes ++ sources }
    if sources.isEmpty then some s else removeSources fuel s

/-- The degree of an entry of the predecessor map; `successor_edges.at` needs the key. -/
def degreeOf (successorEdges : StableEdgeMap) (entry : ℕ × List ℕ) : Option ℤ :=
  if entry.1 ∈ keys successorEdges then
    some (((find successorEdges entry.1).length : ℤ) - (entry.2.length : ℤ))
  else none

/-- `std::max_element`: the first entry of the greatest degree. -/
def maxElement (successorEdges : StableEdgeMap) (first : ℕ × List ℕ) (rest : StableEdgeMap) :
    Option (ℕ × List ℕ) :=
  rest.foldlM (fun largest entry => do
    let lhsDegree ← degreeOf successorEdges largest
    let rhsDegree ← degreeOf successorEdges entry
    return if lhsDegree < rhsDegree then entry else largest) first

/-- The node of maximum degree is removed from both maps. -/
def removeMax (s : FasState) : Option FasState :=
  match s.predecessorEdges with
  | [] => some s
  | first :: rest => (maxElement s.successorEdges first rest).map fun max =>
    { predecessorEdges := s.predecessorEdges.filter fun entry => entry.1 != max.1
      successorEdges := s.successorEdges.filter fun entry => entry.1 != max.1
      s1 := s.s1 ++ [max.1]
      s2Rev := s.s2Rev
      removedNodes := s.removedNodes ++ [max.1] }

/-- The loop of `GreedyFAS`. -/
def greedyLoop : ℕ → FasState → Option FasState
  | 0, _ => none
  | fuel + 1, s =>
    if s.predecessorEdges.isEmpty && s.successorEdges.isEmpty then some s
    else do
      let s ← removeSinks (s.successorEdges.length + 1) s
      let s ← removeSources (s.predecessorEdges.length + 1) s
      let s ← removeMax s
      greedyLoop fuel s

/-- `GreedyFAS`. -/
def greedyFas (graph : InterProcConnectivityGraph) : Option (List ℕ) :=
  (greedyLoop (graph.predecessorEdges.length + graph.successorEdges.length + 1)
    { predecessorEdges := graph.predecessorEdges
      successorEdges := graph.successorEdges
      s1 := []
      s2Rev := []
      removedNodes := [] }).map fun s => s.s1 ++ s.s2Rev.reverse

namespace Package

variable (p : Package)

/-- The body of the last loop: the channels of the successors which have been seen. -/
def visitSuccessors (successors : StableEdgeMap) (state : List ℕ × List ℕ) (node : ℕ) :
    Option (List ℕ × List ℕ) :=
  if (p.internalChannel node).isSome then
    let seen := node :: state.1
    ((find successors node).foldlM (fun result successor =>
      ((p.node? successor).bind fun node => node.op.channelId).map fun channelId =>
        if successor ∈ seen then result ++ [channelId] else result) state.2).map fun result =>
      (seen, result)
  else none

/-- `MinimalFeedbackArcs`: the ids of the channels, in the order in which they are found. -/
def minimalFeedbackArcs : Option (List ℕ) := do
  let graph ← p.makeInterProcConnectivityGraph
  let arrangement ← greedyFas graph
  let state ← arrangement.foldlM (p.visitSuccessors graph.successorEdges) ([], [])
  return state.2

end Package

end FeedbackChannels
end Xls
