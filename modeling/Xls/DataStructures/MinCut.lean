/-
# Minimum cuts

`MinCutBetweenNodes` (`xls/data_structures/min_cut.cc`): flow is augmented along shortest
paths of the residual graph until there are none, and the nodes which are then reached from
the source are one side of the cut.  `none` is a failed `XLS_CHECK` or an access out of range;
the loops have fuel, and run out of it with `none` as well.
-/
import Xls.Lib.FlowNetwork
import Xls.Lib.Visit

namespace Xls

namespace MinCut

/-! ## The source -/

/-- `Edge`. -/
structure Edge where
  fromNode : ℕ
  toNode : ℕ
  weight : ℤ
  id : ℕ
  deriving DecidableEq, Repr

/-- `Graph`: the edges and, for each node, the edges which extend from it. -/
structure Graph where
  edges : List Edge
  successors : List (List ℕ)
  ends : ∀ e ∈ edges, e.fromNode < successors.length ∧ e.toNode < successors.length
  nodup : ∀ {n : ℕ} {l : List ℕ}, successors[n]? = some l → l.Nodup
  mem_successors : ∀ {n : ℕ} {l : List ℕ}, successors[n]? = some l →
    ∀ {i : ℕ}, i ∈ l ↔ ∃ e : Edge, edges[i]? = some e ∧ e.fromNode = n

namespace Graph

/-- `edge_count`. -/
def edgeCount (g : Graph) : ℕ := g.edges.length

/-- `node_count`. -/
def nodeCount (g : Graph) : ℕ := g.successors.length

/-- The graph of the default constructor. -/
def empty : Graph where
  edges := []
  successors := []
  ends := by simp
  nodup := by simp
  mem_successors := by simp

/-- `AddNode`. -/
def addNode (g : Graph) : Graph where
  edges := g.edges
  successors := g.successors ++ [[]]
  ends e he := by
    have := g.ends e he
    simp only [List.length_append, List.length_singleton]
    omega
  nodup h := by
    rw [List.getElem?_append] at h
    split at h
    · exact g.nodup h
    · rw [List.getElem?_singleton] at h
      split at h
      · cases h
        exact List.nodup_nil
      · cases h
  mem_successors {n l} h i := by
    rw [List.getElem?_append] at h
    split at h
    · exact g.mem_successors h
    · rename_i hge
      rw [List.getElem?_singleton] at h
      split at h
      · cases h
        -- no edge extends from the new node
        simp only [List.not_mem_nil, false_iff, not_exists, not_and]
        intro e he hn
        have := (g.ends e (List.mem_of_getElem? he)).1
        omega
      · cases h

/-- `AddEdge`, between nodes of the graph. -/
def addEdge (g : Graph) (fromNode toNode : ℕ) (weight : ℤ) : Option Graph :=
  if h : fromNode < g.successors.length ∧ toNode < g.successors.length then
    some
      { edges := g.edges ++ [⟨fromNode, toNode, weight, g.edges.length⟩]
        successors := g.successors.modify fromNode (· ++ [g.edges.length])
        ends := by
          intro e he
          rw [List.length_modify]
          rcases List.mem_append.mp he with he | he
          · exact g.ends e he
          · rw [List.mem_singleton] at he
            subst he
            exact h
        nodup := by
          intro n l hl
          rw [List.getElem?_modify] at hl
          obtain ⟨old, hold, rfl⟩ := Option.map_eq_some_iff.mp hl
          have hnodup := g.nodup hold
          split
          · refine List.nodup_append.mpr ⟨hnodup, List.nodup_singleton _, ?_⟩
            rintro i hi j hj rfl
            rw [List.mem_singleton] at hj
            obtain ⟨e, he, -⟩ := (g.mem_successors hold).mp hi
            obtain ⟨hlt, -⟩ := List.getElem?_eq_some_iff.mp he
            omega
          · exact hnodup
        mem_successors := by
          intro n l hl i
          rw [List.getElem?_modify] at hl
          obtain ⟨old, hold, rfl⟩ := Option.map_eq_some_iff.mp hl
          have hmem := g.mem_successors hold (i := i)
          rw [List.getElem?_append]
          by_cases hi : i < g.edges.length
          · rw [if_pos hi]
            split
            · simp only [List.mem_append, List.mem_singleton, hmem]
              refine ⟨fun h => h.resolve_right (by omega), .inl⟩
            · exact hmem
          · have hnot : i ∉ old := by
              rw [hmem]
              rintro ⟨e, he, -⟩
              obtain ⟨hlt, -⟩ := List.getElem?_eq_some_iff.mp he
              exact hi hlt
            rw [if_neg hi, List.getElem?_singleton]
            split
            · rename_i hn
              simp only [List.mem_append, hnot, List.mem_singleton, false_or]
              constructor
              · intro h
                rw [if_pos (by omega)]
                exact ⟨_, rfl, hn⟩
              · rintro ⟨e, he, -⟩
                split at he
                · omega
                · cases he
            · rename_i hn
              simp only [hnot, false_iff, not_exists, not_and]
              intro e he
              split at he
              · cases he
                exact hn
              · cases he }
  else none

end Graph

/-- `ResidualEdge`. -/
structure ResidualEdge where
  fromNode : ℕ
  toNode : ℕ
  capacity : ℤ
  dualEdge : ℕ
  deriving DecidableEq, Repr

/-- `ResidualGraph`. -/
structure ResidualGraph where
  edges : List ResidualEdge
  successors : List (List ℕ)

namespace ResidualGraph

/-- The body of the loop of the constructor, for the edges which extend from a node. -/
def addSuccessors (edgeCount : ℕ) (successors : List (List ℕ)) (edge : Edge × ℕ) :
    List (List ℕ) :=
  (successors.modify edge.1.fromNode (· ++ [edge.2])).modify edge.1.toNode
    (· ++ [edge.2 + edgeCount])

/-- The constructor: a forward and a backward edge for each edge of the graph. -/
def ofGraph (g : Graph) : ResidualGraph where
  edges :=
    g.edges.mapIdx (fun i e => ⟨e.fromNode, e.toNode, e.weight, i + g.edgeCount⟩) ++
      g.edges.mapIdx fun i e => ⟨e.toNode, e.fromNode, 0, i⟩
  successors := g.edges.zipIdx.foldl (addSuccessors g.edgeCount) (List.replicate g.nodeCount [])

/-- `PushFlow`. -/
def pushFlow (r : ResidualGraph) (amount : ℤ) (id : ℕ) : Option ResidualGraph := do
  let edge ← r.edges[id]?
  if edge.capacity ≥ amount then
    let edges := r.edges.set id { edge with capacity := edge.capacity - amount }
    let dual ← edges[edge.dualEdge]?
    some { r with edges := edges.set edge.dualEdge { dual with capacity := dual.capacity + amount } }
  else none

end ResidualGraph

/-- The state of the search: for each node found, the last edge of the path to it and the
capacity of the path. -/
structure Search where
  pathBack : ℕ → Option (ℕ × ℤ)
  nextFrontier : List ℕ

/-- `maybe_extend_frontier`. -/
def maybeExtendFrontier (s : Search) (id : ℕ) (e : ResidualEdge) : Search :=
  if (s.pathBack e.toNode).isSome then s
  else
    -- `std::numeric_limits<int64_t>::max()` at the source
    let pathCapacity := (s.pathBack e.fromNode).elim (2 ^ 63 - 1) Prod.snd
    let pathCapacity := min pathCapacity e.capacity
    ⟨Function.update s.pathBack e.toNode (some (id, pathCapacity)), s.nextFrontier ++ [e.toNode]⟩

/-- The body of the loop over the edges which extend from a node; the flag says that the sink
was found. -/
def visitEdge (r : ResidualGraph) (sink : ℕ) (s : Search) (id : ℕ) : Option (Search × Bool) := do
  let edge ← r.edges[id]?
  if edge.capacity ≥ 0 then
    if edge.capacity > 0 then
      some (maybeExtendFrontier s id edge, decide (edge.toNode = sink))
    else some (s, false)
  else none

/-- The body of the loop over the frontier. -/
def visitNode (r : ResidualGraph) (sink : ℕ) (s : Search) (node : ℕ) : Option (Search × Bool) := do
  let ids ← r.successors[node]?
  Visit.visit (visitEdge r sink) ids s

/-- The breadth-first search of `AugmentFlow`. -/
def searchPath (r : ResidualGraph) (sink : ℕ) : ℕ → List ℕ → (ℕ → Option (ℕ × ℤ)) →
    Option ((ℕ → Option (ℕ × ℤ)) × Bool)
  | _, [], pathBack => some (pathBack, false)
  | 0, _ :: _, _ => none
  | fuel + 1, node :: frontier, pathBack => do
    let (s, found) ← Visit.visit (visitNode r sink) (node :: frontier) ⟨pathBack, []⟩
    if found then some (s.pathBack, true) else searchPath r sink fuel s.nextFrontier s.pathBack

/-- The walk back along the path, which augments the flow. -/
def pushBack (source : ℕ) (amount : ℤ) (pathBack : ℕ → Option (ℕ × ℤ)) :
    ℕ → ℕ → ResidualGraph → Option ResidualGraph
  | fuel, n, r =>
    if n = source then some r
    else
      match fuel with
      | 0 => none
      | fuel + 1 => do
        let back ← pathBack n
        let r ← r.pushFlow amount back.1
        let e ← r.edges[back.1]?
        if e.capacity ≥ 0 then pushBack source amount pathBack fuel e.fromNode r else none

/-- `AugmentFlow`. -/
def augmentFlow (g : Graph) (source sink : ℕ) (r : ResidualGraph) : Option (ℤ × ResidualGraph) := do
  let (pathBack, found) ← searchPath r sink (g.nodeCount + 1) [source] fun _ => none
  if found then
    let back ← pathBack sink
    if back.2 > 0 then
      let r ← pushBack source back.2 pathBack g.nodeCount sink r
      some (back.2, r)
    else none
  else some (0, r)

/-- The loop which augments the flow while it can. -/
def maximizeFlow (g : Graph) (source sink : ℕ) : ℕ → ResidualGraph → Option ResidualGraph
  | 0, _ => none
  | fuel + 1, r => do
    let (amount, r) ← augmentFlow g source sink r
    if amount > 0 then maximizeFlow g source sink fuel r else some r

/-- The body of the loop over the edges in the walk from the source. -/
def reachEdge (r : ResidualGraph) (acc : List ℕ × List ℕ) (id : ℕ) : Option (List ℕ × List ℕ) := do
  let edge ← r.edges[id]?
  if edge.capacity > 0 ∧ edge.toNode ∉ acc.1 then
    some (acc.1 ++ [edge.toNode], acc.2 ++ [edge.toNode])
  else some acc

/-- The walk of the residual graph from the source: the nodes reached, in this order. -/
def reachFrom (r : ResidualGraph) : ℕ → List ℕ → List ℕ → Option (List ℕ)
  | _, reachable, [] => some reachable
  | 0, _, _ :: _ => none
  | fuel + 1, reachable, node :: frontier => do
    let ids ← r.successors[node]?
    let (reachable, frontier) ← ids.foldlM (reachEdge r) (reachable, frontier)
    reachFrom r fuel reachable frontier

/-- `GraphCut`. -/
structure GraphCut where
  weight : ℤ
  sourcePartition : List ℕ
  sinkPartition : List ℕ
  deriving DecidableEq, Repr

/-- The body of the loop over the edges in which the weight of the cut is summed. -/
def addWeight (g : Graph) (reachable : List ℕ) (weight : ℤ) (id : ℕ) : Option ℤ := do
  let edge ← g.edges[id]?
  some (if edge.fromNode ∈ reachable ∧ edge.toNode ∉ reachable then weight + edge.weight else weight)

/-- The body of the loop over the nodes in which the cut is extracted. -/
def extractNode (g : Graph) (reachable : List ℕ) (cut : GraphCut) (node : ℕ) : Option GraphCut := do
  let cut :=
    if node ∈ reachable then { cut with sourcePartition := cut.sourcePartition ++ [node] }
    else { cut with sinkPartition := cut.sinkPartition ++ [node] }
  let ids ← g.successors[node]?
  let weight ← ids.foldlM (addWeight g reachable) cut.weight
  some { cut with weight := weight }

/-- The number of augmentations which the loop of `MinCutBetweenNodes` can make, and one. -/
def augmentations (g : Graph) : ℕ := (g.edges.map Edge.weight).sum.toNat + 1

/-- `MinCutBetweenNodes`. -/
def minCutBetweenNodes (g : Graph) (source sink : ℕ) : Option GraphCut := do
  let r ← maximizeFlow g source sink (augmentations g) (.ofGraph g)
  let reachable ← reachFrom r g.nodeCount [source] [source]
  if sink ∈ reachable then none
  else (List.range g.nodeCount).foldlM (extractNode g reachable) ⟨0, [], []⟩

/-- The weight of the lighter way around. -/
example : ((((Graph.empty.addNode.addNode.addNode.addEdge 0 1 3).bind (·.addEdge 1 2 2)).bind
    (·.addEdge 0 2 4)).bind (minCutBetweenNodes · 0 2)) = some ⟨6, [0, 1], [2]⟩ := by
  decide

end MinCut

end Xls
