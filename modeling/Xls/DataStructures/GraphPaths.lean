/-
# Longest paths in a graph

`TopologicalSort` and `LongestNodePaths` of `GraphContraction`
(`xls/data_structures/graph_contraction.h`), over the queries of the class.  The order in
which a loop visits a hash container is unknown: it is a parameter, which may be any
rearrangement of the elements, another one for each execution of each loop.

* `topologicalSort`, `longestNodePaths` : the source;
* `Flat` : a union-find map in which nothing was united, so that `Find` changes nothing.
-/
import Xls.DataStructures.GraphContraction
import Xls.Lib.Kahn
import Xls.Lib.WeightedPath

namespace Xls

/-! ## The source -/

namespace UnionFindMap

variable {K V : Type} [DecidableEq K]

/-- The body of the loop of `GetRepresentatives`. -/
def addRepresentative (acc : List K × UnionFindMap K V) (key : K) :
    Option (List K × UnionFindMap K V) := do
  let (result, m) := acc
  let (found, m) ← m.find key
  let found ← found
  some (if found.key ∈ result then result else result ++ [found.key], m)

/-- `GetRepresentatives`, the set being listed in the order of its insertions. -/
def getRepresentatives (m : UnionFindMap K V) : Option (List K × UnionFindMap K V) :=
  m.keys.foldlM addRepresentative ([], m)

end UnionFindMap

/-- The loops over hash containers, with what tells their executions apart. -/
inductive HashLoop (V : Type) where
  | countEdges
  | countDown (source : V)
  | startPath
  | relaxSource (vertex : V)
  | relax (source vertex : V)

/-- The order in which each loop visits its hash container. -/
structure IterationOrder (V : Type) where
  order : {α : Type} → HashLoop V → List α → List α
  perm : ∀ {α : Type} (loop : HashLoop V) (l : List α), (order loop l).Perm l

namespace GraphContraction

variable {V VW EW : Type} [DecidableEq V]

/-- `Vertices`. -/
def vertices (g : GraphContraction V VW EW) : Option (List V × GraphContraction V VW EW) := do
  let (result, vertexWeights) ← g.vertexWeights.getRepresentatives
  some (result, { g with vertexWeights := vertexWeights })

/-- The body of the first loop of `TopologicalSort`; the last vertex of `active` comes first. -/
def countEdges (acc : EdgeMap V ℤ × List V × GraphContraction V VW EW) (vertex : V) :
    Option (EdgeMap V ℤ × List V × GraphContraction V VW EW) := do
  let (edgeCount, active, g) := acc
  let (edges, g) ← g.edgesInto vertex
  let edgeCount := edgeCount.insert vertex (edges.keys.length : ℤ)
  let count ← edgeCount.lookup vertex
  some (edgeCount, if count = 0 then vertex :: active else active, g)

/-- The body of the loop over the targets of an active vertex. -/
def countDown (acc : EdgeMap V ℤ × List V) (target : V) : Option (EdgeMap V ℤ × List V) := do
  let (edgeCount, active) := acc
  let count ← edgeCount.lookup target
  some (edgeCount.insert target (count - 1), if count - 1 = 0 then target :: active else active)

/-- The loop of `TopologicalSort` over the active vertices. -/
def sortLoop (o : IterationOrder V) : ℕ → List V → EdgeMap V ℤ → List V →
    GraphContraction V VW EW → Option (List V × GraphContraction V VW EW)
  | _, [], _, result, g => some (result, g)
  | 0, _ :: _, _, _, _ => none
  | fuel + 1, source :: active, edgeCount, result, g => do
    let (edges, g) ← g.edgesOutOf source
    let (edgeCount, active) ←
      (o.order (.countDown source) edges.keys).foldlM countDown (edgeCount, active)
    sortLoop o fuel active edgeCount (result ++ [source]) g

/-- `TopologicalSort`.  Every vertex is active once. -/
def topologicalSort (o : IterationOrder V) (g : GraphContraction V VW EW) :
    Option (Option (List V) × GraphContraction V VW EW) := do
  let (vertices, g) ← g.vertices
  let (edgeCount, active, g) ← (o.order .countEdges vertices).foldlM countEdges (∅, [], g)
  let (result, g) ← sortLoop o vertices.length active edgeCount [] g
  let (vertices, g) ← g.vertices
  some (if result.length ≠ vertices.length then none else some result, g)

/-- The result of `LongestNodePaths`: from each source the targets with their weights. -/
abbrev PathMap (V VW : Type) := List (V × EdgeMap V VW)

/-- The body of the first loop of `LongestNodePaths`. -/
def startPath (acc : PathMap V VW × GraphContraction V VW EW) (vertex : V) :
    Option (PathMap V VW × GraphContraction V VW EW) := do
  let (result, g) := acc
  let (weight, g) ← g.weightOf vertex
  let weight ← weight
  some (result ++ [(vertex, AList.singleton vertex weight)], g)

/-- The entry of a pair of vertices. -/
def PathMap.entry (paths : PathMap V VW) (source target : V) : Option VW :=
  (paths.lookup source).bind (·.lookup target)

section Relax

variable [Add VW] [Max VW]

/-- The body of the loop over the edges into a vertex. -/
def relax (vertex : V) (acc : EdgeMap V VW × GraphContraction V VW EW) (pred : V) :
    Option (EdgeMap V VW × GraphContraction V VW EW) :=
  let (targets, g) := acc
  match targets.lookup pred with
  | none => some (targets, g)
  | some predWeight => do
    let (weight, g) ← g.weightOf vertex
    let weight ← weight
    let newWeight := predWeight + weight
    some (targets.insert vertex
      (match targets.lookup vertex with
      | some oldWeight => max oldWeight newWeight
      | none => newWeight), g)

/-- The body of the loop over the sources. -/
def relaxSource (o : IterationOrder V) (vertex : V) (acc : PathMap V VW × GraphContraction V VW EW)
    (entry : V × EdgeMap V VW) : Option (PathMap V VW × GraphContraction V VW EW) := do
  let (result, g) := acc
  let (edges, g) ← g.edgesInto vertex
  let (targets, g) ← (o.order (.relax entry.1 vertex) edges.keys).foldlM (relax vertex)
    (entry.2, g)
  some (result ++ [(entry.1, targets)], g)

/-- The body of the loop over the sorted vertices. -/
def relaxVertex (o : IterationOrder V) (acc : PathMap V VW × GraphContraction V VW EW)
    (vertex : V) : Option (PathMap V VW × GraphContraction V VW EW) :=
  (o.order (.relaxSource vertex) acc.1).foldlM (relaxSource o vertex) ([], acc.2)

/-- `LongestNodePaths`. -/
def longestNodePaths (o : IterationOrder V) (g : GraphContraction V VW EW) :
    Option (Option (PathMap V VW) × GraphContraction V VW EW) := do
  let (vertices, g) ← g.vertices
  let (result, g) ← (o.order .startPath vertices).foldlM startPath ([], g)
  let (topo, g) ← topologicalSort o g
  match topo with
  | none => some (none, g)
  | some topo => do
    let (result, g) ← topo.foldlM (relaxVertex o) (result, g)
    some (some result, g)

end Relax

end GraphContraction

/-! ## Maps without unions -/

namespace UnionFindMap

variable {K V : Type}

/-- The value of a key which was not united with another. -/
def get (m : UnionFindMap K V) (key : K) : Option V :=
  (m.keyToIndex key).bind fun i => m.values[i]?

/-- Every node is a root. -/
structure Flat (m : UnionFindMap K V) : Prop where
  values_length : m.values.length = m.keys.length
  nodes_length : m.nodes.length = m.keys.length
  index_iff : ∀ {k i}, m.keyToIndex k = some i ↔ m.keys[i]? = some k
  parent : ∀ {i} {node : UnionFindNode}, m.nodes[i]? = some node → node.parent = i

namespace Flat

variable {m : UnionFindMap K V}

theorem empty : Flat (UnionFindMap.empty : UnionFindMap K V) where
  values_length := rfl
  nodes_length := rfl
  index_iff := by simp [UnionFindMap.empty]
  parent := by simp [UnionFindMap.empty]

variable {k : K}

theorem index_lt (h : m.Flat) {i : ℕ} (hi : m.keyToIndex k = some i) : i < m.keys.length := by
  obtain ⟨hlt, -⟩ := List.getElem?_eq_some_iff.mp (h.index_iff.mp hi)
  exact hlt

theorem get_eq (h : m.Flat) {i : ℕ} (hi : m.keyToIndex k = some i) :
    ∃ v, m.values[i]? = some v ∧ m.get k = some v := by
  have hlt : i < m.values.length := by
    rw [h.values_length]
    exact h.index_lt hi
  refine ⟨m.values[i], List.getElem?_eq_getElem hlt, ?_⟩
  rw [get, hi, Option.bind_some, List.getElem?_eq_getElem hlt]

theorem get_eq_none_iff (h : m.Flat) : m.get k = none ↔ m.keyToIndex k = none := by
  rcases hi : m.keyToIndex k with _ | i
  · simp [get, hi]
  · obtain ⟨v, -, hv⟩ := h.get_eq hi
    rw [hv]
    simp

theorem contains_iff (h : m.Flat) : m.contains k = true ↔ m.get k ≠ none := by
  rw [Ne, h.get_eq_none_iff, contains, Option.isSome_iff_ne_none]

theorem mem_keys_iff (h : m.Flat) : k ∈ m.keys ↔ m.get k ≠ none := by
  rw [Ne, h.get_eq_none_iff, ← Ne, ← Option.isSome_iff_ne_none, Option.isSome_iff_exists,
    List.mem_iff_getElem?]
  exact exists_congr fun i => h.index_iff.symm

theorem nodup_keys (h : m.Flat) : m.keys.Nodup := by
  rw [List.nodup_iff_injective_getElem]
  intro i j hij
  have hi := h.index_iff.mpr (List.getElem?_eq_getElem i.isLt)
  have hj := h.index_iff.mpr (List.getElem?_eq_getElem j.isLt)
  have hij' : m.keys[i.val] = m.keys[j.val] := hij
  rw [← hij', hi, Option.some.injEq] at hj
  exact Fin.ext hj

/-- `FindRoot` stops at once. -/
theorem findRoot (h : m.Flat) {i : ℕ} (hi : i < m.keys.length) : m.findRoot i = some (i, m) := by
  have hlt : i < m.nodes.length := by
    rw [h.nodes_length]
    exact hi
  have hnode : m.nodes[i]? = some m.nodes[i] := List.getElem?_eq_getElem hlt
  have hparent := h.parent hnode
  unfold UnionFindMap.findRoot
  rw [findRootLoop]
  simp only [hparent, hnode, if_true]

/-- `Find` yields the key itself and changes nothing. -/
theorem find_of_get (h : m.Flat) {v : V} (hv : m.get k = some v) :
    ∃ i, m.find k = some (some ⟨k, v, i⟩, m) := by
  rcases hi : m.keyToIndex k with _ | i
  · rw [h.get_eq_none_iff.mpr hi] at hv
    cases hv
  · obtain ⟨v', hvalue, hv'⟩ := h.get_eq hi
    obtain rfl : v' = v := Option.some.inj (hv'.symm.trans hv)
    refine ⟨i, ?_⟩
    rw [find, hi]
    simp only [h.findRoot (h.index_lt hi), h.index_iff.mp hi, hvalue]

theorem find_of_none (h : m.Flat) (hk : m.get k = none) : m.find k = some (none, m) := by
  rw [find, h.get_eq_none_iff.mp hk]

variable [DecidableEq K]

/-- `Insert` keeps a map flat. -/
theorem insertWith (h : m.Flat) (k : K) (v : V) (merge : V → V → V) :
    ∃ m', m.insertWith k v merge = some m' ∧ m'.Flat ∧ ∀ k', m'.get k' =
      if k' = k then some (((m.get k).map fun old => merge old v).getD v) else m.get k' := by
  rcases hi : m.keyToIndex k with _ | i
  · have hk : m.get k = none := h.get_eq_none_iff.mpr hi
    have hindex : ∀ {k' i}, m.keyToIndex k' = some i → i < m.keys.length := fun hi => h.index_lt hi
    refine ⟨_, by rw [UnionFindMap.insertWith, hi], ?_, ?_⟩
    · refine ⟨by simp [h.values_length], by simp [h.nodes_length], ?_, ?_⟩
      · intro k' i
        by_cases hk' : k' = k
        · subst hk'
          simp only [Function.update_self, Option.some.injEq]
          rw [h.nodes_length, List.getElem?_append]
          split
          · rw [← h.index_iff, hi]
            simp only [reduceCtorEq, iff_false]
            omega
          · rw [List.getElem?_singleton]
            split
            · simp only [iff_true]
              omega
            · simp only [reduceCtorEq, iff_false]
              omega
        · simp only [Function.update_of_ne hk']
          rw [h.index_iff, List.getElem?_append]
          split
          · exact Iff.rfl
          · rw [List.getElem?_eq_none (by omega), List.getElem?_singleton]
            split
            · simp only [reduceCtorEq, Option.some.injEq, false_iff]
              exact Ne.symm hk'
            · exact Iff.rfl
      · intro i node hnode
        rw [List.getElem?_append] at hnode
        split at hnode
        · exact h.parent hnode
        · rw [List.getElem?_singleton] at hnode
          split at hnode
          · cases hnode
            show m.nodes.length = i
            omega
          · cases hnode
    · intro k'
      rw [hk, Option.map_none]
      by_cases hk' : k' = k
      · subst hk'
        rw [get]
        simp [h.nodes_length, ← h.values_length]
      · rw [if_neg hk', get, get]
        simp only [Function.update_of_ne hk']
        rcases hi' : m.keyToIndex k' with _ | i'
        · rfl
        · have := hindex hi'
          rw [Option.bind_some, Option.bind_some, List.getElem?_append_left]
          rw [h.values_length]
          exact this
  · obtain ⟨old, hvalue, hold⟩ := h.get_eq hi
    have hlt := h.index_lt hi
    refine ⟨m.assign i (merge old v), ?_, ?_, ?_⟩
    · rw [UnionFindMap.insertWith, hi]
      simp only [h.findRoot hlt, hvalue]
    · exact ⟨by simp [assign, h.values_length], h.nodes_length, h.index_iff, h.parent⟩
    · intro k'
      rw [hold, Option.map_some]
      by_cases hk' : k' = k
      · subst hk'
        have hlt' : i < m.values.length := by
          rw [h.values_length]
          exact hlt
        rw [if_pos rfl]
        show (m.keyToIndex k').bind _ = _
        rw [hi]
        exact List.getElem?_set_self hlt'
      · rw [if_neg hk', get, get]
        show (m.keyToIndex k').bind _ = _
        rcases hi' : m.keyToIndex k' with _ | i'
        · rfl
        · have hne : i ≠ i' := by
            rintro rfl
            have := (h.index_iff.mp hi).symm.trans (h.index_iff.mp hi')
            exact hk' (Option.some.inj this).symm
          exact List.getElem?_set_ne hne

/-- The representatives are the keys. -/
theorem getRepresentatives (h : m.Flat) : m.getRepresentatives = some (m.keys, m) := by
  have hloop : ∀ l₁ l₂ : List K, (l₁ ++ l₂).Nodup → (∀ k ∈ l₂, k ∈ m.keys) →
      l₂.foldlM addRepresentative (l₁, m) = some (l₁ ++ l₂, m) := by
    intro l₁ l₂
    induction l₂ generalizing l₁ with
    | nil => intro _ _; rw [List.append_nil]; rfl
    | cons k l₂ ih =>
      intro hnodup hmem
      have hk : m.get k ≠ none := h.mem_keys_iff.mp (hmem k List.mem_cons_self)
      obtain ⟨v, hv⟩ := Option.ne_none_iff_exists'.mp hk
      obtain ⟨i, hfind⟩ := h.find_of_get hv
      have hnew : k ∉ l₁ := fun hk =>
        (List.nodup_append.mp hnodup).2.2 k hk k List.mem_cons_self rfl
      have hbody : addRepresentative (l₁, m) k = some (l₁ ++ [k], m) := by
        simp [addRepresentative, hfind, hnew]
      have hcons : l₁ ++ k :: l₂ = l₁ ++ [k] ++ l₂ := List.append_cons ..
      rw [hcons] at hnodup ⊢
      rw [List.foldlM_cons, hbody]
      exact ih (l₁ ++ [k]) hnodup fun k' hk' => hmem k' (List.mem_cons_of_mem _ hk')
  exact hloop [] m.keys (by simpa using h.nodup_keys) fun _ hk => hk

end Flat

end UnionFindMap

end Xls
