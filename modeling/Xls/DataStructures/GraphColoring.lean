/-
# Recursive largest first colouring

`FindMaximalIndependentSet` and `RecursiveLargestFirstColoring`
(`xls/data_structures/graph_coloring.h`), and the colouring of `ComputeMergeClasses`
(`xls/scheduling/mutual_exclusion_pass.cc`), where a node usually is its own neighbour.  The
sets which are walked without an order are only counted.  `none` is a failed `XLS_CHECK`, the
value of an empty optional, and running out of the fuel for a loop.

* `chooseBest_spec` : a vertex is chosen as long as there is one which may be;
* `findMaximalIndependentSet_spec` : the set is independent and maximal;
* `recursiveLargestFirstColoring_proper` : the colouring is proper, and each class maximal.
-/
import Xls.Lib.GreedyColoring
import Xls.Lib.InOrder
import Mathlib.Data.List.Induction

namespace Xls

namespace GraphColoring

open GreedyColoring

/-! ## The source -/

section Source

variable {V : Type} [LinearOrder V] (neighborhood : V → Finset V)

/-- `result`, `available` and `neighboring_result`: S, X and Y. -/
structure Search (V : Type) where
  result : Finset V
  available : Finset V
  neighboringResult : Finset V

/-- `add_to_result`. -/
def addToResult (s : Search V) (vertex : V) : Search V where
  result := insert vertex s.result
  available := s.available.erase vertex
  neighboringResult := s.neighboringResult ∪ neighborhood vertex

/-- `vertex_with_most_neighbors`: the last one of the largest degree. -/
def mostNeighbors (available : Finset V) : Option V :=
  (available.inOrder.foldl (fun best vertex =>
    if (neighborhood vertex).card ≥ best.1 then ((neighborhood vertex).card, some vertex)
    else best) (0, none)).2

/-- `vertex_measure`: the number of neighbours in Y and the negated number of those in X. -/
def vertexMeasure (s : Search V) (vertex : V) : ℤ × ℤ :=
  (((neighborhood vertex).filter (· ∈ s.neighboringResult)).card,
    -((neighborhood vertex).filter (· ∈ s.available)).card)

/-- The order of pairs. -/
def pairGreater (x y : ℤ × ℤ) : Bool := decide (x.1 > y.1) || (x.1 == y.1 && decide (x.2 > y.2))

/-- One candidate for the best vertex. -/
def improveBest (s : Search V) (best : (ℤ × ℤ) × Option V) (vertex : V) : (ℤ × ℤ) × Option V :=
  if vertex ∈ s.neighboringResult then best
  else if pairGreater (vertexMeasure neighborhood s vertex) best.1 then
    (vertexMeasure neighborhood s vertex, some vertex)
  else best

/-- `best`: the vertex with the largest measure, outside of Y. -/
def chooseBest (s : Search V) : Option V :=
  (s.available.inOrder.foldl (improveBest neighborhood s) ((-1, -1), none)).2

/-- The loop which adds the best vertices. -/
def addBest : ℕ → Search V → Option (Search V)
  | 0, _ => none
  | fuel + 1, s =>
    if s.available = ∅ then some s
    else
      match chooseBest neighborhood s with
      | none => some s
      | some vertex => addBest fuel (addToResult neighborhood s vertex)

/-- `FindMaximalIndependentSet`. -/
def findMaximalIndependentSet (fuel : ℕ) (vertices : Finset V) : Option (Finset V) :=
  if vertices = ∅ then none
  else (mostNeighbors neighborhood vertices).bind fun vertex =>
    (addBest neighborhood fuel (addToResult neighborhood ⟨∅, vertices, ∅⟩ vertex)).map
      Search.result

/-- The loop of `RecursiveLargestFirstColoring`, over what is available. -/
def colorRest (fuel : ℕ) : ℕ → Finset V → List (Finset V) → Option (List (Finset V))
  | 0, _, _ => none
  | rounds + 1, available, result =>
    if available = ∅ then some result
    else
      (findMaximalIndependentSet (fun v => (neighborhood v).filter (· ∈ available)) fuel
        available).bind fun chosen =>
          colorRest fuel rounds (available \ chosen) (result ++ [chosen])

/-- `RecursiveLargestFirstColoring`. -/
def recursiveLargestFirstColoring (fuel : ℕ) (vertices : Finset V) : Option (List (Finset V)) :=
  colorRest neighborhood fuel fuel vertices []

end Source

/-! ## Choices -/

section Choices

variable {V : Type} [LinearOrder V] (neighborhood : V → Finset V) {s : Search V} {vertex : V}

/-- Some vertex has the most neighbours. -/
theorem mostNeighbors_spec {available : Finset V} (hne : available ≠ ∅) :
    ∃ vertex, mostNeighbors neighborhood available = some vertex ∧ vertex ∈ available := by
  have hfold : ∀ l : List V, (l = [] ∧ l.foldl (fun (best : ℕ × Option V) vertex =>
      if (neighborhood vertex).card ≥ best.1 then ((neighborhood vertex).card, some vertex)
      else best) (0, none) = (0, none)) ∨
      ∃ n vertex, l.foldl (fun (best : ℕ × Option V) vertex =>
        if (neighborhood vertex).card ≥ best.1 then ((neighborhood vertex).card, some vertex)
        else best) (0, none) = (n, some vertex) ∧ vertex ∈ l := by
    intro l
    induction l using List.reverseRecOn with
    | nil => exact Or.inl ⟨rfl, rfl⟩
    | append_singleton l v ih =>
      right
      rw [List.foldl_append, List.foldl_cons]
      rcases ih with ⟨rfl, hnone⟩ | ⟨n, vertex, hsome, hmem⟩
      · exact ⟨_, v, rfl, List.mem_append_right _ (List.mem_singleton_self v)⟩
      · rw [hsome]
        split
        · exact ⟨_, v, rfl, List.mem_append_right _ (List.mem_singleton_self v)⟩
        · exact ⟨n, vertex, rfl, List.mem_append_left _ hmem⟩
  rcases hfold available.inOrder with ⟨hnil, -⟩ | ⟨n, vertex, hsome, hmem⟩
  · obtain ⟨v, hv⟩ := Finset.nonempty_iff_ne_empty.mpr hne
    exact absurd hnil (Finset.inOrder_ne_nil.mpr ⟨v, hv⟩)
  · exact ⟨vertex, by rw [mostNeighbors, hsome], Finset.mem_inOrder.mp hmem⟩

/-- What has been found among some candidates. -/
theorem foldl_improveBest (l : List V) :
    (l.foldl (improveBest neighborhood s) ((-1, -1), none) = ((-1, -1), none) ∧
      ∀ v ∈ l, v ∈ s.neighboringResult) ∨
    ∃ m vertex, l.foldl (improveBest neighborhood s) ((-1, -1), none) = (m, some vertex) ∧
      vertex ∈ l ∧ vertex ∉ s.neighboringResult := by
  induction l using List.reverseRecOn with
  | nil => exact Or.inl ⟨rfl, fun v hv => absurd hv List.not_mem_nil⟩
  | append_singleton l v ih =>
    rw [List.foldl_append, List.foldl_cons]
    rcases ih with ⟨hnone, hall⟩ | ⟨m, vertex, hsome, hmem, hnot⟩
    · rw [hnone, improveBest]
      by_cases hv : v ∈ s.neighboringResult
      · rw [if_pos hv]
        refine Or.inl ⟨rfl, fun u hu => ?_⟩
        rcases List.mem_append.mp hu with hu | hu
        · exact hall u hu
        · rwa [List.mem_singleton.mp hu]
      · rw [if_neg hv]
        exact Or.inr ⟨_, v, rfl, List.mem_append_right _ (List.mem_singleton_self v), hv⟩
    · right
      rw [hsome, improveBest]
      split
      · exact ⟨m, vertex, rfl, List.mem_append_left _ hmem, hnot⟩
      · rename_i hv
        split
        · exact ⟨_, v, rfl, List.mem_append_right _ (List.mem_singleton_self v), hv⟩
        · exact ⟨m, vertex, rfl, List.mem_append_left _ hmem, hnot⟩

/-- A vertex outside of Y is chosen, unless there is none. -/
theorem chooseBest_spec :
    (chooseBest neighborhood s = none ∧ ∀ v ∈ s.available, v ∈ s.neighboringResult) ∨
      ∃ vertex, chooseBest neighborhood s = some vertex ∧ vertex ∈ s.available ∧
        vertex ∉ s.neighboringResult := by
  rcases foldl_improveBest neighborhood (s := s) s.available.inOrder with
    ⟨hnone, hall⟩ | ⟨m, vertex, hsome, hmem, hnot⟩
  · exact Or.inl ⟨by rw [chooseBest, hnone], fun v hv => hall v (Finset.mem_inOrder.mpr hv)⟩
  · exact Or.inr ⟨vertex, by rw [chooseBest, hsome], Finset.mem_inOrder.mp hmem, hnot⟩

end Choices

/-! ## Independent sets -/

section Independent

variable {V : Type} [LinearOrder V] {neighborhood : V → Finset V} {vertices : Finset V}
  {s : Search V} {fuel : ℕ}

/-- The neighbourhoods of a set of vertices are symmetric. -/
def Symmetric (neighborhood : V → Finset V) (vertices : Finset V) : Prop :=
  ∀ u ∈ vertices, ∀ v ∈ vertices, v ∈ neighborhood u → u ∈ neighborhood v

/-- What holds between the choices. -/
structure Independent (neighborhood : V → Finset V) (vertices : Finset V) (s : Search V) :
    Prop where
  subset : s.result ⊆ vertices
  mem_available : ∀ v, v ∈ s.available ↔ v ∈ vertices ∧ v ∉ s.result
  mem_neighboring : ∀ v, v ∈ s.neighboringResult ↔ ∃ u ∈ s.result, v ∈ neighborhood u
  independent : ∀ u ∈ s.result, ∀ v ∈ s.result, u ≠ v → v ∉ neighborhood u

/-- A vertex outside of Y is added; it may be its own neighbour. -/
theorem Independent.add (h : Independent neighborhood vertices s)
    (hsymm : Symmetric neighborhood vertices) {vertex : V} (hmem : vertex ∈ s.available)
    (hnot : vertex ∉ s.neighboringResult) :
    Independent neighborhood vertices (addToResult neighborhood s vertex) := by
  obtain ⟨hvertex, hnew⟩ := (h.mem_available vertex).mp hmem
  have hfar : ∀ u ∈ s.result, vertex ∉ neighborhood u := fun u hu hadj =>
    hnot ((h.mem_neighboring vertex).mpr ⟨u, hu, hadj⟩)
  constructor
  · exact Finset.insert_subset hvertex h.subset
  · intro v
    rw [addToResult, Finset.mem_erase, h.mem_available, Finset.mem_insert]
    tauto
  · intro v
    rw [addToResult, Finset.mem_union, h.mem_neighboring]
    constructor
    · rintro (⟨u, hu, hv⟩ | hv)
      · exact ⟨u, Finset.mem_insert_of_mem hu, hv⟩
      · exact ⟨vertex, Finset.mem_insert_self .., hv⟩
    · rintro ⟨u, hu, hv⟩
      rcases Finset.mem_insert.mp hu with rfl | hu
      · exact Or.inr hv
      · exact Or.inl ⟨u, hu, hv⟩
  · intro u hu v hv hne
    rcases Finset.mem_insert.mp hu with rfl | hu'
    · rcases Finset.mem_insert.mp hv with rfl | hv'
      · exact absurd rfl hne
      · exact fun hadj => hfar v hv' (hsymm u hvertex v (h.subset hv') hadj)
    · rcases Finset.mem_insert.mp hv with rfl | hv'
      · exact hfar u hu'
      · exact h.independent u hu' v hv' hne

section

variable (hsymm : Symmetric neighborhood vertices)

include hsymm

/-- Vertices are added until all which are left are neighbours. -/
theorem addBest_spec (fuel : ℕ) {s : Search V}
    (h : Independent neighborhood vertices s) (hfuel : s.available.card < fuel) :
    ∃ s', addBest neighborhood fuel s = some s' ∧ Independent neighborhood vertices s' ∧
      s.result ⊆ s'.result ∧ ∀ v ∈ s'.available, v ∈ s'.neighboringResult := by
  induction fuel generalizing s with
  | zero => exact absurd hfuel (Nat.not_lt_zero _)
  | succ fuel ih =>
    rw [addBest]
    by_cases hempty : s.available = ∅
    · rw [if_pos hempty]
      refine ⟨s, rfl, h, subset_rfl, fun v hv => ?_⟩
      rw [hempty] at hv
      exact absurd hv (Finset.notMem_empty v)
    · rw [if_neg hempty]
      rcases chooseBest_spec neighborhood (s := s) with
        ⟨hnone, hall⟩ | ⟨vertex, hsome, hmem, hnot⟩
      · rw [hnone]
        exact ⟨s, rfl, h, subset_rfl, hall⟩
      · rw [hsome]
        have hcard : (addToResult neighborhood s vertex).available.card < fuel := by
          rw [addToResult, Finset.card_erase_of_mem hmem]
          have := Finset.card_pos.mpr ⟨vertex, hmem⟩
          omega
        obtain ⟨s', hadd, hs', hsub, hall⟩ := ih (h.add hsymm hmem hnot) hcard
        exact ⟨s', hadd, hs', (Finset.subset_insert ..).trans hsub, hall⟩

/-- The set is independent, and maximal. -/
theorem findMaximalIndependentSet_spec
    (hne : vertices ≠ ∅) (hfuel : vertices.card ≤ fuel) :
    ∃ chosen, findMaximalIndependentSet neighborhood fuel vertices = some chosen ∧
      IsMaximal (fun u v => v ∈ neighborhood u) vertices chosen := by
  obtain ⟨vertex, hmost, hmem⟩ := mostNeighbors_spec neighborhood hne
  have hstart : Independent neighborhood vertices ⟨∅, vertices, ∅⟩ :=
    ⟨Finset.empty_subset _, by simp, by simp, by simp⟩
  have hcard : (addToResult neighborhood ⟨∅, vertices, ∅⟩ vertex).available.card < fuel := by
    rw [addToResult, Finset.card_erase_of_mem hmem]
    have := Finset.card_pos.mpr ⟨vertex, hmem⟩
    omega
  obtain ⟨s, hadd, hs, hsub, hall⟩ := addBest_spec hsymm fuel
    (hstart.add hsymm hmem (Finset.notMem_empty _)) hcard
  refine ⟨s.result, ?_, ⟨vertex, hsub (Finset.mem_insert_self ..)⟩, hs.subset, hs.independent,
    fun v hv hnot => ?_⟩
  · rw [findMaximalIndependentSet, if_neg hne, hmost, Option.bind_some, hadd]
    rfl
  · obtain ⟨u, hu, hadj⟩ := (hs.mem_neighboring v).mp (hall v ((hs.mem_available v).mpr ⟨hv, hnot⟩))
    exact ⟨u, hu, hsymm u (hs.subset hu) v hv hadj⟩

/-- An independent set of what is available, for the neighbourhoods which are cut to it. -/
theorem findAvailable_spec {available : Finset V}
    (hsub : available ⊆ vertices) (hne : available ≠ ∅) (hfuel : available.card ≤ fuel) :
    ∃ chosen, findMaximalIndependentSet (fun v => (neighborhood v).filter (· ∈ available)) fuel
        available = some chosen ∧
      IsMaximal (fun u v => v ∈ neighborhood u) available chosen := by
  have hsymm' : Symmetric (fun v => (neighborhood v).filter (· ∈ available)) available := by
    intro u hu v hv hadj
    exact Finset.mem_filter.mpr ⟨hsymm u (hsub hu) v (hsub hv) (Finset.mem_filter.mp hadj).1, hu⟩
  obtain ⟨chosen, hfind, hmax⟩ := findMaximalIndependentSet_spec hsymm' hne hfuel
  refine ⟨chosen, hfind, hmax.nonempty, hmax.subset, fun u hu v hv huv hadj => ?_,
    fun v hv hnot => ?_⟩
  · exact hmax.independent u hu v hv huv (Finset.mem_filter.mpr ⟨hadj, hmax.subset hv⟩)
  · obtain ⟨u, hu, hadj⟩ := hmax.maximal v hv hnot
    exact ⟨u, hu, (Finset.mem_filter.mp hadj).1⟩

/-! ## Colourings -/

/-- The rounds end, with all vertices coloured. -/
theorem colorRest_spec (rounds : ℕ)
    {available : Finset V} {result : List (Finset V)}
    (h : Colored (fun u v => v ∈ neighborhood u) vertices available result)
    (hrounds : available.card < rounds) (hfuel : available.card ≤ fuel) :
    ∃ classes, colorRest neighborhood fuel rounds available result = some classes ∧
      Colored (fun u v => v ∈ neighborhood u) vertices ∅ classes := by
  induction rounds generalizing available result with
  | zero => exact absurd hrounds (Nat.not_lt_zero _)
  | succ rounds ih =>
    rw [colorRest]
    by_cases hempty : available = ∅
    · rw [if_pos hempty]
      exact ⟨result, rfl, hempty ▸ h⟩
    · rw [if_neg hempty]
      have hsub : available ⊆ vertices := fun v hv => (h.cover v).mpr (Or.inl hv)
      obtain ⟨chosen, hfind, hmax⟩ := findAvailable_spec hsymm hsub hempty hfuel
      have hcard : (available \ chosen).card < available.card := by
        obtain ⟨v, hv⟩ := hmax.nonempty
        exact Finset.card_lt_card (Finset.sdiff_ssubset hmax.subset ⟨v, hv⟩)
      rw [hfind]
      exact ih (h.concat hmax) (by omega) (by omega)

end

/-- The classes are not empty and partition the vertices, no class has two neighbours, and a
vertex has a neighbour in every earlier class. -/
structure Proper (neighborhood : V → Finset V) (vertices : Finset V)
    (classes : List (Finset V)) : Prop where
  nonempty : ∀ c ∈ classes, c.Nonempty
  disjoint : classes.Pairwise Disjoint
  cover : ∀ v, v ∈ vertices ↔ ∃ c ∈ classes, v ∈ c
  independent : ∀ c ∈ classes, ∀ u ∈ c, ∀ v ∈ c, u ≠ v → v ∉ neighborhood u
  maximal : ∀ earlier c later, classes = earlier ++ c :: later → ∀ v ∈ c, ∀ d ∈ earlier,
    ∃ u ∈ d, u ∈ neighborhood v
  length_le : ∀ k, (∀ v ∈ vertices, (((neighborhood v).filter (· ∈ vertices)).erase v).card ≤ k) →
    classes.length ≤ k + 1

/-- The rounds end, with a proper colouring. -/
theorem recursiveLargestFirstColoring_proper (neighborhood : V → Finset V) (vertices : Finset V)
    (hsymm : Symmetric neighborhood vertices) (fuel : ℕ) (hfuel : vertices.card < fuel) :
    ∃ classes, recursiveLargestFirstColoring neighborhood fuel vertices = some classes ∧
      Proper neighborhood vertices classes := by
  obtain ⟨classes, hcolor, h⟩ := colorRest_spec hsymm fuel Colored.start hfuel hfuel.le
  refine ⟨classes, hcolor, h.nonempty, h.disjoint, ?_, h.independent, h.adjacent, ?_⟩
  · intro v
    rw [h.cover]
    simp
  · intro k hk
    apply h.length_le (fun v => ((neighborhood v).filter (· ∈ vertices)).erase v) _ hk
    intro v _ u hu hne hadj
    exact Finset.mem_erase.mpr ⟨hne, Finset.mem_filter.mpr ⟨hadj, hu⟩⟩

/-- The nodes `0` and `1` are neighbours of each other, and each of itself. -/
theorem recursiveLargestFirstColoring_proper_selfLoops :
    ∃ classes, recursiveLargestFirstColoring (fun _ : ℕ => {0, 1}) 3 {0, 1} = some classes ∧
      Proper (fun _ => {0, 1}) {0, 1} classes :=
  recursiveLargestFirstColoring_proper (fun _ => {0, 1}) {0, 1} (fun _ hu _ _ _ => hu) 3 (by decide)

end Independent

end GraphColoring

end Xls
