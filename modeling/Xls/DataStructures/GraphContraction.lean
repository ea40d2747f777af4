/-
# Graph contraction

`GraphContraction` (`xls/data_structures/graph_contraction.h`): a graph with weighted
vertices and edges in which vertices can be identified.  The weights and the two mirrored
adjacency maps are union-find maps; `none` is a failed `XLS_CHECK` or an `at` out of range.

`QuotientGraph` is what the class is for: the representatives, and the graph between
them.  `AddEdge` enters its arguments as they are, and `IdentifyVertices` looks for its
arguments in the adjacency maps; for arguments which are not representatives the maps no
longer hold the quotient graph.
-/
import Xls.DataStructures.UnionFindMap
import Xls.Lib.Contraction
import Mathlib.Data.List.AList
import Mathlib.Data.Option.NAry

namespace Xls

/-- The neighbours of a vertex with the weights of the edges.  The order of the entries
stands for the order in which the hash map is iterated. -/
abbrev EdgeMap (V EW : Type) := AList fun _ : V => EW

/-- `GraphContraction`. -/
structure GraphContraction (V VW EW : Type) where
  vertexWeights : UnionFindMap V VW
  outEdges : UnionFindMap V (EdgeMap V EW)
  inEdges : UnionFindMap V (EdgeMap V EW)

namespace GraphContraction

variable {V VW EW : Type}

/-- The graph of the default constructor. -/
def empty : GraphContraction V VW EW := ⟨.empty, .empty, .empty⟩

variable [DecidableEq V]

/-- `AddVertex`. -/
def addVertex (g : GraphContraction V VW EW) (vertex : V) (weight : VW) :
    Option (GraphContraction V VW EW) := do
  let vertexWeights ← g.vertexWeights.insert vertex weight
  let outEdges ← if g.outEdges.contains vertex then some g.outEdges
    else g.outEdges.insert vertex ∅
  let inEdges ← if g.inEdges.contains vertex then some g.inEdges
    else g.inEdges.insert vertex ∅
  some ⟨vertexWeights, outEdges, inEdges⟩

/-- `AddEdge`.  `flat_hash_map::merge` keeps the entries which are there. -/
def addEdge (g : GraphContraction V VW EW) (source target : V) (weight : EW) :
    Option (Bool × GraphContraction V VW EW) :=
  if !(g.vertexWeights.contains source && g.vertexWeights.contains target) then some (false, g)
  else do
    let outEdges ← g.outEdges.insertWith source (AList.singleton target weight) (· ∪ ·)
    let inEdges ← g.inEdges.insertWith target (AList.singleton source weight) (· ∪ ·)
    some (true, ⟨g.vertexWeights, outEdges, inEdges⟩)

/-- The key under which `merge_map` enters an edge. -/
def keyOf (x y rep vertex : V) : V := if vertex = x ∨ vertex = y then rep else vertex

/-- The body of the loops of `merge_map` in `IdentifyVertices`. -/
def mergeEntry (key : V → V) (ewMerge : EW → EW → EW) (result : EdgeMap V EW)
    (entry : Σ _ : V, EW) : EdgeMap V EW :=
  result.insert (key entry.1)
    (match result.lookup (key entry.1) with
    | some weight => ewMerge weight entry.2
    | none => entry.2)

/-- `merge_map` of `IdentifyVertices`. -/
def mergeMap (x y rep : V) (ewMerge : EW → EW → EW) (a b : EdgeMap V EW) : EdgeMap V EW :=
  b.entries.foldl (mergeEntry (keyOf x y rep) ewMerge)
    (a.entries.foldl (mergeEntry (keyOf x y rep) ewMerge) ∅)

/-- The new edges of a vertex in `patch_up_edges`; `none` is the failed check. -/
def patchedEdges (x y rep : V) (ewMerge : EW → EW → EW) (edges : EdgeMap V EW) :
    Option (EdgeMap V EW) :=
  match edges.lookup x, edges.lookup y with
  | some wx, some wy => some (((edges.erase x).erase y).insert rep (ewMerge wx wy))
  | some wx, none => some ((edges.erase x).insert rep wx)
  | none, some wy => some ((edges.erase y).insert rep wy)
  | none, none => none

/-- `patch_up_edges`. -/
def patchUpEdges (x y rep : V) (ewMerge : EW → EW → EW) (map : UnionFindMap V (EdgeMap V EW))
    (vertex : V) : Option (UnionFindMap V (EdgeMap V EW)) := do
  let (found, map) ← map.find vertex
  let _ ← found
  let (found, map) ← map.find vertex
  let found ← found
  let edges ← patchedEdges x y rep ewMerge found.value
  some (map.assign found.index edges)

/-- The neighbours of the class of a vertex. -/
def neighbours (map : UnionFindMap V (EdgeMap V EW)) (vertex : V) :
    Option (List V × UnionFindMap V (EdgeMap V EW)) := do
  let (found, map) ← map.find vertex
  let found ← found
  some (found.value.keys, map)

/-- `IdentifyVertices` behind the check that the vertices are in different classes. -/
def identifyClasses (g : GraphContraction V VW EW) (x y : V) (vwMerge : VW → VW → VW)
    (ewMerge : EW → EW → EW) : Option (Bool × GraphContraction V VW EW) := do
  let (_, vertexWeights) ← g.vertexWeights.union x y vwMerge
  let (found, vertexWeights) ← vertexWeights.find x
  let found ← found
  let rep := found.key
  let (edgesOutOfX, outEdges) ← neighbours g.outEdges x
  let (edgesOutOfY, outEdges) ← neighbours outEdges y
  let (edgesIntoX, inEdges) ← neighbours g.inEdges x
  let (edgesIntoY, inEdges) ← neighbours inEdges y
  let (_, outEdges) ← outEdges.union x y (mergeMap x y rep ewMerge)
  let (_, inEdges) ← inEdges.union x y (mergeMap x y rep ewMerge)
  let outEdges ← edgesIntoX.foldlM (patchUpEdges x y rep ewMerge) outEdges
  let outEdges ← edgesIntoY.foldlM (patchUpEdges x y rep ewMerge) outEdges
  let inEdges ← edgesOutOfX.foldlM (patchUpEdges x y rep ewMerge) inEdges
  let inEdges ← edgesOutOfY.foldlM (patchUpEdges x y rep ewMerge) inEdges
  some (true, ⟨vertexWeights, outEdges, inEdges⟩)

/-- `IdentifyVertices`. -/
def identifyVertices (g : GraphContraction V VW EW) (x y : V) (vwMerge : VW → VW → VW)
    (ewMerge : EW → EW → EW) : Option (Bool × GraphContraction V VW EW) :=
  if !(g.vertexWeights.contains x && g.vertexWeights.contains y) then some (false, g)
  else do
    let (foundX, vertexWeights) ← g.vertexWeights.find x
    let (foundY, vertexWeights) ← vertexWeights.find y
    let foundX ← foundX
    let foundY ← foundY
    let g := { g with vertexWeights := vertexWeights }
    if foundX.key = foundY.key then some (true, g) else g.identifyClasses x y vwMerge ewMerge

/-- `RepresentativeOf`. -/
def representativeOf (g : GraphContraction V VW EW) (vertex : V) :
    Option (Option V × GraphContraction V VW EW) := do
  let (found, vertexWeights) ← g.vertexWeights.find vertex
  some (found.map (·.key), { g with vertexWeights := vertexWeights })

/-- `WeightOf` a vertex. -/
def weightOf (g : GraphContraction V VW EW) (vertex : V) :
    Option (Option VW × GraphContraction V VW EW) := do
  let (found, vertexWeights) ← g.vertexWeights.find vertex
  some (found.map (·.value), { g with vertexWeights := vertexWeights })

/-- `EdgesOutOf`. -/
def edgesOutOf (g : GraphContraction V VW EW) (vertex : V) :
    Option (EdgeMap V EW × GraphContraction V VW EW) := do
  let (found, outEdges) ← g.outEdges.find vertex
  some ((found.map (·.value)).getD ∅, { g with outEdges := outEdges })

/-- `EdgesInto`. -/
def edgesInto (g : GraphContraction V VW EW) (vertex : V) :
    Option (EdgeMap V EW × GraphContraction V VW EW) := do
  let (found, inEdges) ← g.inEdges.find vertex
  some ((found.map (·.value)).getD ∅, { g with inEdges := inEdges })

/-- `WeightOf` an edge. -/
def weightOfEdge (g : GraphContraction V VW EW) (source target : V) :
    Option (Option EW × GraphContraction V VW EW) := do
  let (edges, g) ← g.edgesOutOf source
  some (edges.lookup target, g)

/-- The calls which change the graph. -/
inductive Op (V VW EW : Type) where
  | addVertex (vertex : V) (weight : VW)
  | addEdge (source target : V) (weight : EW)
  | identifyVertices (x y : V) (vwMerge : VW → VW → VW) (ewMerge : EW → EW → EW)

/-- One call. -/
def step (g : GraphContraction V VW EW) : Op V VW EW → Option (GraphContraction V VW EW)
  | .addVertex vertex weight => g.addVertex vertex weight
  | .addEdge source target weight => (g.addEdge source target weight).map (·.2)
  | .identifyVertices x y vwMerge ewMerge => (g.identifyVertices x y vwMerge ewMerge).map (·.2)

/-- A sequence of calls. -/
def run (ops : List (Op V VW EW)) : Option (GraphContraction V VW EW) := ops.foldlM step empty

end GraphContraction

/-! ## The quotient graph -/

/-- The representative of each vertex, the size and the weight of each class and the weights
of the edges between the representatives. -/
structure QuotientGraph (V VW EW : Type) where
  rep : V → Option V
  size : V → ℕ
  weight : V → Option VW
  edge : V → V → Option EW

namespace QuotientGraph


variable {V VW EW : Type}

def empty : QuotientGraph V VW EW := ⟨fun _ => none, fun _ => 0, fun _ => none, fun _ _ => none⟩

/-- The classes with their weights. -/
def classes (q : QuotientGraph V VW EW) : Classes V VW := ⟨q.rep, q.size, q.weight⟩

variable [DecidableEq V]

/-- A new vertex, or a new weight for the class of the vertex. -/
def addVertex (q : QuotientGraph V VW EW) (vertex : V) (weight : VW) : QuotientGraph V VW EW :=
  match q.rep vertex with
  | some r => { q with weight := Function.update q.weight r (some weight) }
  | none =>
    { q with
      rep := Function.update q.rep vertex (some vertex)
      size := Function.update q.size vertex 1
      weight := Function.update q.weight vertex (some weight) }

/-- An edge between the representatives; its weight replaces that of an edge which is there. -/
def addEdge (q : QuotientGraph V VW EW) (source target : V) (weight : EW) :
    QuotientGraph V VW EW :=
  match q.rep source, q.rep target with
  | some s, some t =>
    { q with edge := Function.update q.edge s (Function.update (q.edge s) t (some weight)) }
  | _, _ => q

/-- The classes of two representatives become one. -/
def identify (q : QuotientGraph V VW EW) (kept lost : V) (vwMerge : VW → VW → VW)
    (ewMerge : EW → EW → EW) : QuotientGraph V VW EW where
  rep v := if q.rep v = some lost then some kept else q.rep v
  size := Function.update q.size kept (q.size kept + q.size lost)
  weight := Function.update q.weight kept (Option.map₂ vwMerge (q.weight kept) (q.weight lost))
  edge := WeightedGraph.contract ewMerge kept lost q.edge

/-- The larger class keeps its representative. -/
def identifyVertices (q : QuotientGraph V VW EW) (x y : V) (vwMerge : VW → VW → VW)
    (ewMerge : EW → EW → EW) : QuotientGraph V VW EW :=
  match q.rep x, q.rep y with
  | some rx, some ry =>
    if rx = ry then q
    else q.identify (q.classes.kept rx ry) (q.classes.lost rx ry) vwMerge ewMerge
  | _, _ => q

/-- One call. -/
def step (q : QuotientGraph V VW EW) : GraphContraction.Op V VW EW → QuotientGraph V VW EW
  | .addVertex vertex weight => q.addVertex vertex weight
  | .addEdge source target weight => q.addEdge source target weight
  | .identifyVertices x y vwMerge ewMerge => q.identifyVertices x y vwMerge ewMerge

/-- The quotient graph after a sequence of calls. -/
def ofOps (ops : List (GraphContraction.Op V VW EW)) : QuotientGraph V VW EW := ops.foldl step empty

end QuotientGraph

end Xls
