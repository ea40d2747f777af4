/-
# Cutting paths

`PathGraph` (`xls/data_structures/path_cut.h`): a path with weights on its nodes and edges is
cut into pieces which are not too heavy, at edges which are as light as possible together.
`ComputePathCut` finds, for every node, the best way to cut the path before it when it is cut
after it.  An error is a failed `XLS_CHECK`; weights are looked up within bounds.

* `fillCache_spec` : the cache holds the cheapest divisions of the initial segments;
* `cutEdgesToPathCut_spec` : the pieces are those of the division;
* `computePathCut_optimal` : the cut is a cheapest one, and there is one if there can be.
-/
import Xls.Lib.Segmentation
import Mathlib.Algebra.Order.Group.Int
import Mathlib.Algebra.Order.BigOperators.Group.List
import Mathlib.Data.Int.ConditionallyCompleteOrder
import Mathlib.Data.List.GetD
import Mathlib.Data.List.Sort
import Mathlib.Order.ConditionallyCompleteLattice.Finset

namespace Xls

namespace Paths

/-! ## The source -/

abbrev PathNodeId := ℕ

abbrev PathEdgeId := ℕ

/-- `PathCut`: the pieces, in order. -/
abbrev PathCut := List (List PathNodeId)

/-- `PartialDifferenceMonoid`. -/
structure PartialDifferenceMonoid (T : Type) where
  zero : T
  sum : T → T → Option T
  difference : T → T → Option T

/-- `TotalOrder`. -/
structure TotalOrder (T : Type) where
  equals : T → T → Bool
  lessThan : T → T → Bool

/-- `less_than_or_eq`. -/
def TotalOrder.lessThanOrEq {T : Type} (o : TotalOrder T) (x y : T) : Bool :=
  o.lessThan x y || o.equals x y

/-- `PathGraph`. -/
structure PathGraph (NW EW : Type) where
  nodeWeights : List NW
  edgeWeights : List EW
  nodeWeightPdm : PartialDifferenceMonoid NW
  edgeWeightPdm : PartialDifferenceMonoid EW
  nodeWeightTotalOrder : TotalOrder NW
  edgeWeightTotalOrder : TotalOrder EW
  sizes : edgeWeights.length + 1 = nodeWeights.length

/-- `CacheItem`. -/
structure CacheItem (EW : Type) where
  cost : EW
  cutEdges : List PathEdgeId

/-- `CacheKey`: the node before the cut, or nothing before the first piece. -/
abbrev CacheKey := Option PathNodeId

namespace PathGraph

variable {NW EW : Type}

/-- `PathGraph::Create`. -/
def create (nodeWeights : List NW) (edgeWeights : List EW)
    (nodeWeightPdm : PartialDifferenceMonoid NW) (edgeWeightPdm : PartialDifferenceMonoid EW)
    (nodeWeightTotalOrder : TotalOrder NW) (edgeWeightTotalOrder : TotalOrder EW) :
    Except String (PathGraph NW EW) :=
  if h : edgeWeights.length + 1 = nodeWeights.length then
    .ok {
      nodeWeights := nodeWeights
      edgeWeights := edgeWeights
      nodeWeightPdm := nodeWeightPdm
      edgeWeightPdm := edgeWeightPdm
      nodeWeightTotalOrder := nodeWeightTotalOrder
      edgeWeightTotalOrder := edgeWeightTotalOrder
      sizes := h }
  else
    .error (s!"Size of node weights ({nodeWeights.length}) must be 1 greater than " ++
      s!"size of edge weights ({edgeWeights.length}).")

variable [Inhabited NW] [Inhabited EW] (g : PathGraph NW EW)

/-- `NumNodes`. -/
def numNodes : ℕ := g.nodeWeights.length

/-- `NumEdges`. -/
def numEdges : ℕ := g.edgeWeights.length

/-- `WeightOfNode`. -/
def weightOfNode (node : PathNodeId) : NW := g.nodeWeights.getD node default

/-- `WeightOfEdge`. -/
def weightOfEdge (edge : PathEdgeId) : EW := g.edgeWeights.getD edge default

/-- `EdgeSource`. -/
def edgeSource (edge : PathEdgeId) : Except String PathNodeId :=
  if edge < g.numEdges then .ok edge
  else .error "Check failed: static_cast<int32_t>(edge) < edge_weights_.size()"

/-- `NodeSuccessorEdge`. -/
def nodeSuccessorEdge (node : PathNodeId) : Except String (Option PathEdgeId) :=
  if node < g.numNodes then
    .ok (if node = g.numNodes - 1 then none else some node)
  else .error "Check failed: static_cast<int32_t>(node) < node_weights_.size()"

/-- The message of a sum or a difference which does not exist. -/
def pdmFailed : String := "The given PartialDifferenceMonoid for node weights failed"

/-- The loop of `ComputePrefixSums`, from the sum of the nodes before. -/
def prefixSumsFrom (last : NW) : List NW → Except String (List NW)
  | [] => .ok []
  | weight :: weights =>
    match g.nodeWeightPdm.sum last weight with
    | none => .error pdmFailed
    | some sum => (prefixSumsFrom sum weights).map (sum :: ·)

/-- `ComputePrefixSums`. -/
def computePrefixSums : Except String (List NW) :=
  (g.prefixSumsFrom (g.weightOfNode 0) g.nodeWeights.tail).map (g.weightOfNode 0 :: ·)

/-- The weight of the piece between a cut and a node. -/
def prefixSumDiff (prefixSums : List NW) (k : PathNodeId) : CacheKey → Except String NW
  | none => .ok (prefixSums.getD k default)
  | some t =>
    match g.nodeWeightPdm.difference (prefixSums.getD k default)
      (prefixSums.getD t default) with
    | none => .error pdmFailed
    | some diff => .ok diff

/-- Whether there is no best item yet, or a cost is below that of it. -/
def improves (cost : EW) : Option (CacheItem EW) → Bool
  | none => true
  | some best => g.edgeWeightTotalOrder.lessThan cost best.cost

/-- `loop_body`. -/
def loopBody (prefixSums : List NW) (cache : CacheKey → CacheItem EW) (maximumWeight : NW)
    (k : PathNodeId) (best : Option (CacheItem EW)) (t : CacheKey) :
    Except String (Option (CacheItem EW)) :=
  (g.prefixSumDiff prefixSums k t).map fun diff =>
    if g.nodeWeightTotalOrder.lessThanOrEq diff maximumWeight &&
      g.improves (cache t).cost best then some (cache t) else best

/-- The cuts before a node, in the order in which they are tried. -/
def cutsBefore (k : PathNodeId) : List CacheKey := none :: (List.range k).map some

/-- The path is also cut after the node, unless it is the last one. -/
def cutAfter [Add EW] (k : PathNodeId) (best : CacheItem EW) : Except String (CacheItem EW) :=
  (g.nodeSuccessorEdge k).map fun
    | none => best
    | some e => ⟨best.cost + g.weightOfEdge e, best.cutEdges ++ [e]⟩

/-- The loop over the nodes; nothing when a node is too heavy. -/
def fillCache [Add EW] (prefixSums : List NW) (maximumWeight : NW) :
    List PathNodeId → (CacheKey → CacheItem EW) →
      Except String (Option (CacheKey → CacheItem EW))
  | [], cache => .ok (some cache)
  | k :: nodes, cache => do
      match ← (cutsBefore k).foldlM (g.loopBody prefixSums cache maximumWeight k) none with
      | none => .ok none
      | some best =>
        let item ← g.cutAfter k best
        fillCache prefixSums maximumWeight nodes (Function.update cache (some k) item)

/-- The loop of `CutEdgesToPathCut`, from the next cut edge, the piece and the pieces so far. -/
def cutNodes (cutEdges : List PathEdgeId) :
    List PathNodeId → ℕ → List PathNodeId → PathCut → Except String PathCut
  | [], _, piece, result => .ok (result ++ [piece])
  | n :: nodes, i, piece, result =>
    match cutEdges[i]? with
    | none => cutNodes cutEdges nodes i (piece ++ [n]) result
    | some e => do
        if n = (← g.edgeSource e) then
          cutNodes cutEdges nodes (i + 1) [] (result ++ [piece ++ [n]])
        else cutNodes cutEdges nodes i (piece ++ [n]) result

/-- `CutEdgesToPathCut`. -/
def cutEdgesToPathCut (cutEdges : List PathEdgeId) : Except String PathCut :=
  g.cutNodes cutEdges (List.range g.numNodes) 0 [] []

/-- `ComputePathCut`. -/
def computePathCut [Add EW] (maximumWeight : NW) : Except String (Option PathCut) := do
  let prefixSums ← g.computePrefixSums
  let cache := Function.update (fun _ => ⟨default, []⟩) none ⟨g.edgeWeightPdm.zero, []⟩
  match ← g.fillCache prefixSums maximumWeight (List.range g.numNodes) cache with
  | none => .ok none
  | some cache =>
    let optimal := cache (some (g.numNodes - 1))
    (g.cutEdgesToPathCut optimal.cutEdges.mergeSort).map some

end PathGraph

/-- The sums and differences of the integers. -/
def addSubPdm : PartialDifferenceMonoid ℤ := ⟨0, fun x y => some (x + y), fun x y => some (x - y)⟩

/-- The order of the integers. -/
def lessThanTotalOrder : TotalOrder ℤ := ⟨fun x y => x == y, fun x y => decide (x < y)⟩

/-! ## Pieces -/

open Segmentation

namespace PathGraph

section Pieces

variable {NW EW : Type} (g : PathGraph NW EW)

theorem numNodes_eq : g.numNodes = g.numEdges + 1 := g.sizes.symm

/-- The edges after the pieces of a division which have one. -/
def edgesOf (pieces : PathCut) : List PathEdgeId :=
  (pieces.map fun piece => piece.getLastD 0).filter fun e => decide (e < g.numEdges)

/-- A piece which does not end with the last node is followed by an edge. -/
theorem edgesOf_concat {t n : ℕ} (front : PathCut) (ht : t < n) (hn : n ≤ g.numEdges) :
    g.edgesOf (front ++ [List.range' t (n - t)]) = g.edgesOf front ++ [n - 1] := by
  have hlt : n - 1 < g.numEdges := by omega
  unfold edgesOf
  rw [List.map_append, List.filter_append, List.map_singleton, getLastD_range' ht,
    List.filter_singleton, decide_eq_true hlt, cond_true]

/-- The last piece is followed by nothing. -/
theorem edgesOf_last {t : ℕ} (front : PathCut) (ht : t < g.numNodes) :
    g.edgesOf (front ++ [List.range' t (g.numNodes - t)]) = g.edgesOf front := by
  have hnlt : ¬ g.numNodes - 1 < g.numEdges := by
    rw [numNodes_eq]
    omega
  unfold edgesOf
  rw [List.map_append, List.filter_append, List.map_singleton, getLastD_range' ht,
    List.filter_singleton, decide_eq_false hnlt, cond_false, List.append_nil]

/-- Nodes before the next cut are collected. -/
theorem cutNodes_collect (cutEdges : List PathEdgeId) (i : ℕ) (nodes rest : List PathNodeId)
    (piece : List PathNodeId) (result : PathCut)
    (hnext : ∀ e, cutEdges[i]? = some e → e < g.numEdges ∧ e ∉ nodes) :
    g.cutNodes cutEdges (nodes ++ rest) i piece result =
      g.cutNodes cutEdges rest i (piece ++ nodes) result := by
  induction nodes generalizing piece with
  | nil => rw [List.nil_append, List.append_nil]
  | cons n nodes ih =>
    have hrest : ∀ e, cutEdges[i]? = some e → e < g.numEdges ∧ e ∉ nodes := fun e he =>
      ⟨(hnext e he).1, fun hmem => (hnext e he).2 (List.mem_cons_of_mem _ hmem)⟩
    rw [List.cons_append, cutNodes]
    split
    · rw [ih _ hrest, List.append_assoc, List.singleton_append]
    · rename_i e he
      have hne : n ≠ e := fun h => (hnext e he).2 (h ▸ List.mem_cons_self ..)
      rw [edgeSource, if_pos (hnext e he).1]
      simp only [bind, Except.bind, if_neg hne]
      rw [ih _ hrest, List.append_assoc, List.singleton_append]

/-- Up to a cut edge, the pieces are those of the division. -/
theorem cutNodes_pieces {n : ℕ} {pieces : PathCut} (h : Divides n pieces) (hn : n ≤ g.numEdges)
    (more : List PathEdgeId) (rest : List PathNodeId) :
    g.cutNodes (g.edgesOf pieces ++ more) (List.range n ++ rest) 0 [] [] =
      g.cutNodes (g.edgesOf pieces ++ more) rest (g.edgesOf pieces).length [] pieces := by
  induction n using Nat.strong_induction_on generalizing pieces more rest with
  | _ n ih =>
    rcases Nat.eq_zero_or_pos n with rfl | hpos
    · rw [h.eq_nil]
      rfl
    · obtain ⟨t, front, ht, hfront, rfl⟩ := h.exists_last hpos
      rw [g.edgesOf_concat front ht hn, List.append_assoc, ← range_append ht.le,
        List.append_assoc, List.singleton_append, ih t ht hfront (by omega) ((n - 1) :: more)]
      have hnext : (g.edgesOf front ++ (n - 1) :: more)[(g.edgesOf front).length]? =
          some (n - 1) := by
        rw [List.getElem?_append_right le_rfl, Nat.sub_self]
        rfl
      -- the piece without its last node, and the last node
      have hpiece : List.range' t (n - t) = List.range' t (n - 1 - t) ++ [n - 1] := by
        have hconcat : List.range' t (n - 1 - t + 1) =
            List.range' t (n - 1 - t) ++ [t + 1 * (n - 1 - t)] := List.range'_concat
        rwa [show n - 1 - t + 1 = n - t by omega, show t + 1 * (n - 1 - t) = n - 1 by omega]
          at hconcat
      have hbefore : ∀ e, (g.edgesOf front ++ (n - 1) :: more)[(g.edgesOf front).length]? =
          some e → e < g.numEdges ∧ e ∉ List.range' t (n - 1 - t) := by
        intro e he
        obtain rfl : n - 1 = e := Option.some.inj (hnext.symm.trans he)
        refine ⟨Nat.sub_one_lt_of_le hpos hn, fun hmem => ?_⟩
        have := List.mem_range'_1.mp hmem
        omega
      rw [hpiece, List.append_assoc (List.range' t (n - 1 - t)), List.singleton_append,
        g.cutNodes_collect _ _ _ ((n - 1) :: rest) [] front hbefore, cutNodes]
      simp only [hnext]
      rw [edgeSource, if_pos (Nat.sub_one_lt_of_le hpos hn)]
      simp only [bind, Except.bind, if_true, List.nil_append, List.length_append,
        List.length_singleton]

/-- The pieces of the edges after the pieces are the pieces. -/
theorem cutEdgesToPathCut_spec {cut : PathCut} (h : Divides g.numNodes cut) :
    g.cutEdgesToPathCut (g.edgesOf cut) = .ok cut := by
  have hpos : 0 < g.numNodes := by
    rw [numNodes_eq]
    omega
  obtain ⟨t, front, ht, hfront, rfl⟩ := h.exists_last hpos
  have hpieces := g.cutNodes_pieces hfront (by rw [numNodes_eq] at ht; omega) []
    (List.range' t (g.numNodes - t))
  have hlast := g.cutNodes_collect (g.edgesOf front) (g.edgesOf front).length
    (List.range' t (g.numNodes - t)) [] [] front fun e he => by simp at he
  rw [List.append_nil, range_append ht.le] at hpieces
  rw [List.append_nil] at hlast
  rw [g.edgesOf_last front ht, cutEdgesToPathCut, hpieces, hlast]
  rfl

/-- The edges after the pieces of a division are in order. -/
theorem sorted_edgesOf {n : ℕ} {pieces : PathCut} (h : Divides n pieces) (hn : n ≤ g.numNodes) :
    (g.edgesOf pieces).Pairwise (· < ·) ∧ ∀ e ∈ g.edgesOf pieces, e < n := by
  induction n using Nat.strong_induction_on generalizing pieces with
  | _ n ih =>
    rcases Nat.eq_zero_or_pos n with rfl | hpos
    · rw [h.eq_nil]
      exact ⟨List.Pairwise.nil, fun e he => absurd he List.not_mem_nil⟩
    · obtain ⟨t, front, ht, hfront, rfl⟩ := h.exists_last hpos
      obtain ⟨hsorted, hbelow⟩ := ih t ht hfront (by omega)
      rcases hn.eq_or_lt with rfl | hlt
      · rw [g.edgesOf_last front ht]
        exact ⟨hsorted, fun e he => (hbelow e he).trans ht⟩
      · rw [g.edgesOf_concat front ht (by rw [numNodes_eq] at hlt; omega)]
        constructor
        · refine List.pairwise_append.mpr ⟨hsorted, List.pairwise_singleton .., ?_⟩
          intro e he e' he'
          rw [List.mem_singleton.mp he']
          exact (hbelow e he).trans_le (Nat.le_sub_one_of_lt ht)
        · intro e he
          rcases List.mem_append.mp he with he | he
          · exact (hbelow e he).trans ht
          · rw [List.mem_singleton.mp he]
            exact Nat.sub_lt hpos Nat.one_pos

end Pieces

/-! ## Weights -/

/-- The tables are those of the integers. -/
structure OverIntegers (g : PathGraph ℤ ℤ) : Prop where
  nodeWeightPdm : g.nodeWeightPdm = addSubPdm
  edgeWeightPdm : g.edgeWeightPdm = addSubPdm
  nodeWeightTotalOrder : g.nodeWeightTotalOrder = lessThanTotalOrder
  edgeWeightTotalOrder : g.edgeWeightTotalOrder = lessThanTotalOrder

section Weights

variable (g : PathGraph ℤ ℤ) (maximumWeight : ℤ)

/-- The weight of a piece. -/
def pieceWeight (piece : List PathNodeId) : ℤ := (piece.map g.weightOfNode).sum

/-- A piece which is not too heavy. -/
def Fits (piece : List PathNodeId) : Prop := g.pieceWeight piece ≤ maximumWeight

/-- The weight of the edge after a node, if there is one. -/
def price (node : PathNodeId) : ℤ := if node < g.numEdges then g.weightOfEdge node else 0

/-- The total weight of the cut edges. -/
def cutWeight (cut : PathCut) : ℤ := cost g.price cut

theorem pieceWeight_append (p q : List PathNodeId) :
    g.pieceWeight (p ++ q) = g.pieceWeight p + g.pieceWeight q := by
  rw [pieceWeight, List.map_append, List.sum_append, pieceWeight, pieceWeight]

/-- The nodes of an initial segment have its weights. -/
theorem pieceWeight_range {k : ℕ} (hk : k ≤ g.numNodes) :
    g.pieceWeight (List.range k) = (g.nodeWeights.take k).sum := by
  have hk' : k ≤ g.nodeWeights.length := hk
  unfold pieceWeight
  congr 1
  apply List.ext_getElem
  · simp [hk']
  · intro i h₁ h₂
    rw [List.length_map, List.length_range] at h₁
    rw [List.getElem_map, List.getElem_range, List.getElem_take, weightOfNode,
      List.getD_eq_getElem _ _ (by omega)]

/-- With weights which are not negative, the beginning of a piece is not heavier. -/
theorem fits_of_append (hnonneg : ∀ w ∈ g.nodeWeights, 0 ≤ w) (p q : List PathNodeId)
    (h : g.Fits maximumWeight (p ++ q)) : g.Fits maximumWeight p := by
  have hweight : ∀ n, 0 ≤ g.weightOfNode n := by
    intro n
    rcases Nat.lt_or_ge n g.nodeWeights.length with hn | hn
    · rw [weightOfNode, List.getD_eq_getElem _ _ hn]
      exact hnonneg _ (List.getElem_mem hn)
    · rw [weightOfNode, List.getD_eq_default _ _ hn]
      exact le_rfl
  have hq : 0 ≤ g.pieceWeight q := List.sum_nonneg fun w hw => by
    obtain ⟨n, -, rfl⟩ := List.mem_map.mp hw
    exact hweight n
  unfold Fits at h ⊢
  rw [pieceWeight_append] at h
  omega

variable {g maximumWeight}

variable (hg : OverIntegers g)

section

include hg

theorem prefixSumsFrom_spec (last : ℤ) (weights : List ℤ) :
    ∃ sums, g.prefixSumsFrom last weights = .ok sums ∧
      ∀ i < weights.length, sums.getD i default = last + (weights.take (i + 1)).sum := by
  induction weights generalizing last with
  | nil => exact ⟨[], rfl, fun i hi => absurd hi (Nat.not_lt_zero i)⟩
  | cons weight weights ih =>
    obtain ⟨sums, hsums, hget⟩ := ih (last + weight)
    refine ⟨(last + weight) :: sums, ?_, fun i hi => ?_⟩
    · rw [prefixSumsFrom, hg.nodeWeightPdm]
      simp only [addSubPdm]
      rw [hsums]
      rfl
    · rcases i with - | i
      · simp
      · rw [List.getD_cons_succ, hget i (Nat.lt_of_succ_lt_succ hi), List.take_succ_cons,
          List.sum_cons, add_assoc]

/-- The prefix sums are the weights of the initial segments. -/
theorem computePrefixSums_spec : ∃ sums, g.computePrefixSums = .ok sums ∧
    ∀ k < g.numNodes, sums.getD k default = g.pieceWeight (List.range (k + 1)) := by
  obtain ⟨weight, weights, hweights⟩ : ∃ weight weights, g.nodeWeights = weight :: weights :=
    List.exists_cons_of_length_pos (by rw [← g.sizes]; exact Nat.succ_pos _)
  obtain ⟨sums, hsums, hget⟩ := prefixSumsFrom_spec hg (g.weightOfNode 0) g.nodeWeights.tail
  refine ⟨g.weightOfNode 0 :: sums, by rw [computePrefixSums, hsums]; rfl, fun k hk => ?_⟩
  rw [pieceWeight_range g hk]
  have hfirst : g.weightOfNode 0 = weight := by rw [weightOfNode, hweights]; rfl
  have hlen : k < weights.length + 1 := by rwa [numNodes, hweights] at hk
  rw [hweights, List.tail_cons] at hget
  rw [hfirst, hweights, List.take_succ_cons, List.sum_cons]
  rcases k with - | k
  · simp
  · rw [List.getD_cons_succ, hget k (Nat.lt_of_succ_lt_succ hlen), hfirst]

end

end Weights

/-! ## The cache -/

/-- How many nodes there are before a cut. -/
def position : CacheKey → ℕ
  | none => 0
  | some t => t + 1

theorem exists_key (n : ℕ) : ∃ key, position key = n := by
  rcases n with - | n
  · exact ⟨none, rfl⟩
  · exact ⟨some n, rfl⟩

theorem mem_cutsBefore {k : PathNodeId} {key : CacheKey} :
    key ∈ cutsBefore k ↔ position key ≤ k := by
  rcases key with - | t
  · exact iff_of_true List.mem_cons_self (Nat.zero_le k)
  · simp only [cutsBefore, List.mem_cons, reduceCtorEq, false_or, List.mem_map, List.mem_range,
      Option.some.injEq, exists_eq_right, position]
    exact Nat.lt_iff_add_one_le

/-- What the loop over the earlier cuts has found, when it has tried some. -/
structure BestOf (fits : CacheKey → Prop) (cache : CacheKey → CacheItem ℤ)
    (keys : List CacheKey) (best : Option (CacheItem ℤ)) : Prop where
  of_none : best = none → ∀ key ∈ keys, ¬ fits key
  of_some : ∀ {item}, best = some item → (∃ key ∈ keys, fits key ∧ item = cache key) ∧
    ∀ key ∈ keys, fits key → item.cost ≤ (cache key).cost

section Cache

variable {g : PathGraph ℤ ℤ} {maximumWeight : ℤ} {prefixSums : List ℤ}

/-- The piece after an earlier cut, up to a node. -/
def pieceAfter (k : PathNodeId) (key : CacheKey) : List PathNodeId :=
  List.range' (position key) (k + 1 - position key)

variable {k : PathNodeId} {key : CacheKey} {cache : CacheKey → CacheItem ℤ}
  {best : Option (CacheItem ℤ)} (hg : OverIntegers g)
  (hsums : ∀ k < g.numNodes, prefixSums.getD k default = g.pieceWeight (List.range (k + 1)))

section

include hg hsums

theorem prefixSumDiff_spec (hk : k < g.numNodes) (hkey : position key ≤ k) :
    g.prefixSumDiff prefixSums k key = .ok (g.pieceWeight (pieceAfter k key)) := by
  rcases key with - | t
  · rw [prefixSumDiff, hsums k hk, pieceAfter, position, List.range_eq_range', Nat.sub_zero]
  · have ht : t < k := hkey
    have hsplit := g.pieceWeight_append (List.range (t + 1)) (pieceAfter k (some t))
    rw [pieceAfter, position, range_append (Nat.succ_le_succ ht.le), ← hsums k hk,
      ← hsums t (ht.trans hk)] at hsplit
    have hdiff : prefixSums.getD k default - prefixSums.getD t default =
        g.pieceWeight (pieceAfter k (some t)) := by
      rw [pieceAfter, position]
      omega
    rw [prefixSumDiff, hg.nodeWeightPdm]
    simp only [addSubPdm]
    rw [hdiff]

/-- One more cut is tried. -/
theorem loopBody_spec (hk : k < g.numNodes) {keys : List CacheKey} (hkey : position key ≤ k)
    (hbest : BestOf (fun key => g.Fits maximumWeight (pieceAfter k key)) cache keys best) :
    ∃ best', g.loopBody prefixSums cache maximumWeight k best key = .ok best' ∧
      BestOf (fun key => g.Fits maximumWeight (pieceAfter k key)) cache (keys ++ [key]) best' := by
  refine ⟨_, by rw [loopBody, prefixSumDiff_spec hg hsums hk hkey]; rfl, ?_⟩
  beta_reduce
  have hfits : g.nodeWeightTotalOrder.lessThanOrEq (g.pieceWeight (pieceAfter k key))
      maximumWeight = true ↔ g.Fits maximumWeight (pieceAfter k key) := by
    rw [hg.nodeWeightTotalOrder, Fits, le_iff_lt_or_eq]
    simp [TotalOrder.lessThanOrEq, lessThanTotalOrder]
  have himproves : ∀ item, g.improves (cache key).cost (some item) = true ↔
      (cache key).cost < item.cost := by
    intro item
    rw [improves, hg.edgeWeightTotalOrder]
    simp [lessThanTotalOrder]
  by_cases hfit : g.Fits maximumWeight (pieceAfter k key)
  · rw [hfits.mpr hfit, Bool.true_and]
    split
    · -- the item of this cut is better than all before
      rename_i hbetter
      refine ⟨nofun, fun {item} h => ?_⟩
      obtain rfl := Option.some.inj h
      refine ⟨⟨key, by simp, hfit, rfl⟩, fun other hother hfo => ?_⟩
      rcases List.mem_append.mp hother with hother | hother
      · rcases hb : best with - | item
        · exact absurd hfo (hbest.of_none hb other hother)
        · rw [hb, himproves] at hbetter
          exact hbetter.le.trans ((hbest.of_some hb).2 other hother hfo)
      · rw [List.mem_singleton.mp hother]
    · rename_i hbetter
      refine ⟨fun h => ?_, fun {item} h => ?_⟩
      · rw [h] at hbetter
        exact absurd rfl hbetter
      · obtain ⟨⟨found, hfound, hff, rfl⟩, hmin⟩ := hbest.of_some h
        refine ⟨⟨found, List.mem_append_left _ hfound, hff, rfl⟩, fun other hother hfo => ?_⟩
        rcases List.mem_append.mp hother with hother | hother
        · exact hmin other hother hfo
        · rw [h, himproves, not_lt] at hbetter
          rwa [List.mem_singleton.mp hother]
  · -- the piece after this cut is too heavy
    rw [Bool.eq_false_iff.mpr (mt hfits.mp hfit), Bool.false_and]
    refine ⟨fun h other hother => ?_, fun {item} h => ?_⟩
    · rcases List.mem_append.mp hother with hother | hother
      · exact hbest.of_none h other hother
      · rwa [List.mem_singleton.mp hother]
    · obtain ⟨⟨found, hfound, hff, rfl⟩, hmin⟩ := hbest.of_some h
      refine ⟨⟨found, List.mem_append_left _ hfound, hff, rfl⟩, fun other hother hfo => ?_⟩
      rcases List.mem_append.mp hother with hother | hother
      · exact hmin other hother hfo
      · exact absurd (List.mem_singleton.mp hother ▸ hfo) hfit

/-- All earlier cuts are tried. -/
theorem foldlM_loopBody (hk : k < g.numNodes) (rest : List CacheKey) {keys : List CacheKey}
    (hrest : ∀ key ∈ rest, position key ≤ k)
    (hbest : BestOf (fun key => g.Fits maximumWeight (pieceAfter k key)) cache keys best) :
    ∃ best', rest.foldlM (g.loopBody prefixSums cache maximumWeight k) best = .ok best' ∧
      BestOf (fun key => g.Fits maximumWeight (pieceAfter k key)) cache (keys ++ rest) best' := by
  induction rest generalizing keys best with
  | nil => exact ⟨best, rfl, by rwa [List.append_nil]⟩
  | cons key rest ih =>
    obtain ⟨best₁, hstep, hbest₁⟩ :=
      loopBody_spec hg hsums hk (hrest key (List.mem_cons_self ..)) hbest
    obtain ⟨best₂, hfold, hbest₂⟩ :=
      ih (fun key' h => hrest key' (List.mem_cons_of_mem _ h)) hbest₁
    refine ⟨best₂, ?_, by rwa [List.append_assoc] at hbest₂⟩
    rw [List.foldlM_cons, hstep]
    exact hfold

end

/-- The item of a division. -/
def itemOf (g : PathGraph ℤ ℤ) (pieces : PathCut) : CacheItem ℤ :=
  ⟨g.cutWeight pieces, g.edgesOf pieces⟩

/-- The piece up to a node is added to a division. -/
theorem cutAfter_spec (hk : k < g.numNodes) (hkey : position key ≤ k) (front : PathCut) :
    g.cutAfter k (itemOf g front) = .ok (itemOf g (front ++ [pieceAfter k key])) := by
  have hlt : position key < k + 1 := Nat.lt_succ_of_le hkey
  have hcost : g.cutWeight (front ++ [pieceAfter k key]) = g.cutWeight front + g.price k :=
    cost_concat g.price hlt
  rw [cutAfter, nodeSuccessorEdge, if_pos hk, itemOf, itemOf, hcost, price]
  rw [numNodes_eq] at hk ⊢
  by_cases hlast : k = g.numEdges
  · -- the last node has no edge after it
    subst hlast
    rw [if_pos (Nat.add_sub_cancel ..).symm, if_neg (lt_irrefl _), add_zero]
    have hedges := g.edgesOf_last front (t := position key) (by rw [numNodes_eq]; exact hlt)
    rw [numNodes_eq] at hedges
    rw [pieceAfter, hedges]
    rfl
  · have hk' : k < g.numEdges := lt_of_le_of_ne (Nat.le_of_lt_succ hk) hlast
    rw [if_neg (by rwa [Nat.add_sub_cancel]), if_pos hk', pieceAfter,
      g.edgesOf_concat front hlt hk']
    rfl

/-- The cache holds the cheapest divisions of the initial segments up to some length. -/
def Filled (g : PathGraph ℤ ℤ) (maximumWeight : ℤ) (n : ℕ) (cache : CacheKey → CacheItem ℤ) :
    Prop :=
  ∀ key, position key ≤ n → ∃ pieces,
    Cheapest g.price (g.Fits maximumWeight) (position key) pieces ∧ cache key = itemOf g pieces

/-- A best item is found for a node, or no division of the path up to it is admissible. -/
theorem bestOf_cases (hcache : Filled g maximumWeight k cache)
    (hbest : BestOf (fun key => g.Fits maximumWeight (pieceAfter k key)) cache (cutsBefore k)
      best) :
    (best = none ∧ ¬ ∃ pieces, Admissible (g.Fits maximumWeight) (k + 1) pieces) ∨
      ∃ key front, position key ≤ k ∧ best = some (itemOf g front) ∧
        Cheapest g.price (g.Fits maximumWeight) (k + 1) (front ++ [pieceAfter k key]) := by
  rcases best with - | item
  · refine Or.inl ⟨rfl, ?_⟩
    rintro ⟨pieces, hpieces⟩
    obtain ⟨t, front, ht, -, hfits, -⟩ := hpieces.exists_last (Nat.succ_pos k)
    obtain ⟨key, rfl⟩ := exists_key t
    exact hbest.of_none rfl key (mem_cutsBefore.mpr (Nat.le_of_lt_succ ht)) hfits
  · obtain ⟨⟨key, hkey, hfits, rfl⟩, hmin⟩ := hbest.of_some rfl
    have hpos := mem_cutsBefore.mp hkey
    obtain ⟨front, hfront, hitem⟩ := hcache key hpos
    refine Or.inr ⟨key, front, hpos, by rw [hitem], ?_⟩
    apply Cheapest.concat hfront.toAdmissible (Nat.lt_succ_of_le hpos) hfits
    intro t' front' ht' hfits' hfront'
    obtain ⟨key', rfl⟩ := exists_key t'
    have hpos' := Nat.le_of_lt_succ ht'
    obtain ⟨pieces, hpieces, hitem'⟩ := hcache key' hpos'
    have hle := hmin key' (mem_cutsBefore.mpr hpos') hfits'
    rw [hitem, hitem'] at hle
    exact hle.trans (hpieces.minimal front' hfront')

theorem Filled.update (hcache : Filled g maximumWeight k cache) {pieces : PathCut}
    (hpieces : Cheapest g.price (g.Fits maximumWeight) (k + 1) pieces) :
    Filled g maximumWeight (k + 1) (Function.update cache (some k) (itemOf g pieces)) := by
  intro key hkey
  by_cases hk : key = some k
  · subst hk
    exact ⟨pieces, hpieces, Function.update_self ..⟩
  · rw [Function.update_of_ne hk]
    apply hcache key
    rcases key with - | t
    · exact Nat.zero_le k
    · have hne : t ≠ k := fun h => hk (congrArg some h)
      exact Nat.lt_of_le_of_ne (Nat.le_of_succ_le_succ hkey) hne

include hg in
/-- The loop over the nodes fills the cache, or no division of the path is admissible. -/
theorem fillCache_spec (hnonneg : ∀ w ∈ g.nodeWeights, 0 ≤ w)
    (hsums : ∀ k < g.numNodes, prefixSums.getD k default = g.pieceWeight (List.range (k + 1)))
    {k n : ℕ} (hn : k + n = g.numNodes) (hcache : Filled g maximumWeight k cache) :
    ∃ r, g.fillCache prefixSums maximumWeight (List.range' k n) cache = .ok r ∧
      (r = none → ¬ ∃ pieces, Admissible (g.Fits maximumWeight) g.numNodes pieces) ∧
      ∀ cache', r = some cache' → Filled g maximumWeight g.numNodes cache' := by
  induction n generalizing k cache with
  | zero =>
    refine ⟨some cache, rfl, nofun, fun cache' h => ?_⟩
    rwa [← Option.some.inj h, ← hn]
  | succ n ih =>
    have hk : k < g.numNodes := by omega
    have hnone : BestOf (fun key => g.Fits maximumWeight (pieceAfter k key)) cache [] none :=
      ⟨fun _ key h => absurd h List.not_mem_nil, nofun⟩
    obtain ⟨best, hfold, hbest⟩ := foldlM_loopBody hg hsums hk (cutsBefore k)
      (fun key h => mem_cutsBefore.mp h) hnone
    rw [List.range'_succ, fillCache, hfold]
    rcases bestOf_cases hcache hbest with ⟨rfl, hnone⟩ | ⟨key, front, hkey, rfl, hcheapest⟩
    · refine ⟨none, rfl, fun _ ⟨pieces, hpieces⟩ => ?_, nofun⟩
      exact hnone (hpieces.restrict (fits_of_append g maximumWeight hnonneg) hk)
    · obtain ⟨r, hr, hrest⟩ := ih (by omega) (hcache.update hcheapest)
      refine ⟨r, ?_, hrest⟩
      simp only [bind, Except.bind]
      rw [cutAfter_spec hk hkey]
      exact hr

end Cache

/-! ## The cut -/

/-- The cut is a lightest one, and there is one when the path can be divided at all. -/
theorem computePathCut_optimal {nodeWeights edgeWeights : List ℤ} {g : PathGraph ℤ ℤ}
    (hcreate : create nodeWeights edgeWeights addSubPdm addSubPdm lessThanTotalOrder
      lessThanTotalOrder = .ok g)
    (hnonneg : ∀ w ∈ nodeWeights, 0 ≤ w) (maximumWeight : ℤ) :
    ∃ r, g.computePathCut maximumWeight = .ok r ∧
      (r = none ↔ ¬ ∃ cut, Admissible (g.Fits maximumWeight) g.numNodes cut) ∧
      ∀ cut, r = some cut → Admissible (g.Fits maximumWeight) g.numNodes cut ∧
        ∀ other, Admissible (g.Fits maximumWeight) g.numNodes other →
          g.cutWeight cut ≤ g.cutWeight other := by
  obtain ⟨hg, hweights⟩ : OverIntegers g ∧ g.nodeWeights = nodeWeights := by
    unfold create at hcreate
    split at hcreate
    · obtain rfl := Except.ok.inj hcreate
      exact ⟨⟨rfl, rfl, rfl, rfl⟩, rfl⟩
    · cases hcreate
  obtain ⟨prefixSums, hsumsEq, hsums⟩ := computePrefixSums_spec hg
  have hstart : Filled g maximumWeight 0
      (Function.update (fun _ => ⟨default, []⟩) none ⟨g.edgeWeightPdm.zero, []⟩) := by
    intro key hkey
    rcases key with - | t
    · refine ⟨[], Cheapest.zero _, ?_⟩
      rw [Function.update_self, hg.edgeWeightPdm]
      rfl
    · exact absurd hkey (Nat.not_succ_le_zero t)
  obtain ⟨r, hfill, hnone, hsome⟩ :=
    fillCache_spec hg (hweights ▸ hnonneg) hsums (Nat.zero_add g.numNodes) hstart
  rw [← List.range_eq_range'] at hfill
  unfold computePathCut
  rw [hsumsEq]
  simp only [bind, Except.bind]
  rw [hfill]
  rcases r with - | cache
  · exact ⟨none, rfl, iff_of_true rfl (hnone rfl), nofun⟩
  · have hpos : position (some (g.numNodes - 1)) = g.numNodes := by
      rw [position, numNodes_eq, Nat.add_sub_cancel]
    obtain ⟨cut, hcut, hitem⟩ := hsome cache rfl (some (g.numNodes - 1)) hpos.le
    rw [hpos] at hcut
    have hsorted := (g.sorted_edgesOf hcut.toDivides le_rfl).1
    have hsort : (g.edgesOf cut).mergeSort = g.edgesOf cut :=
      List.mergeSort_of_pairwise (hsorted.imp fun h => decide_eq_true h.le)
    refine ⟨some cut, ?_, iff_of_false (Option.some_ne_none cut) ?_, fun cut' h => ?_⟩
    · simp only
      rw [hitem, itemOf, hsort, g.cutEdgesToPathCut_spec hcut.toDivides]
      rfl
    · exact fun h => h ⟨cut, hcut.toAdmissible⟩
    · obtain rfl := Option.some.inj h
      exact ⟨hcut.toAdmissible, hcut.minimal⟩

/-- A path of three nodes. -/
def threeNodes : PathGraph ℤ ℤ where
  nodeWeights := [1, 2, 3]
  edgeWeights := [5, 1]
  nodeWeightPdm := addSubPdm
  edgeWeightPdm := addSubPdm
  nodeWeightTotalOrder := lessThanTotalOrder
  edgeWeightTotalOrder := lessThanTotalOrder
  sizes := rfl

theorem computePathCut_optimal_threeNodes : ∃ r, threeNodes.computePathCut 3 = .ok r ∧
    (r = none ↔ ¬ ∃ cut, Admissible (threeNodes.Fits 3) 3 cut) ∧
    ∀ cut, r = some cut → Admissible (threeNodes.Fits 3) 3 cut ∧
      ∀ other, Admissible (threeNodes.Fits 3) 3 other →
        threeNodes.cutWeight cut ≤ threeNodes.cutWeight other :=
  @computePathCut_optimal [1, 2, 3] [5, 1] threeNodes rfl (by decide) 3

end PathGraph

end Paths

end Xls
