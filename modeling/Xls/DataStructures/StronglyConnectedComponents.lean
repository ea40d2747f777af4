/-
# Strongly connected components

`StronglyConnectedComponents` (`xls/data_structures/strongly_connected_components.h`) is
Tarjan's algorithm: a vertex is connected by connecting its neighbours, and when it has the
smallest index that is still reached from it, the vertices above it on the stack are a
component.  `none` is a look-up which fails, and running out of the fuel for the recursion.

* `enter_inv` : a vertex is pushed;
* `visitNeighbor_spec` : one neighbour is visited;
* `popComponent_spec` : the vertices above one with its own low link are a component;
* `strongConnect_spec` : a call keeps the invariant;
* `stronglyConnectedComponents_exact` : the components are the classes of mutual reachability,
  successors first.
-/
import Xls.Lib.InOrder
import Xls.Lib.StrongComponents
import Mathlib.Data.Set.Insert
import Mathlib.Logic.Function.Basic

namespace Xls

namespace Tarjan

open Relation StrongComponents

/-! ## The source -/

/-- A map from nodes to their out-neighbours, in the order of the nodes. -/
structure Graph (V : Type) [LinearOrder V] where
  entries : List (V × Finset V)
  sorted : (entries.map Prod.fst).Pairwise (· < ·)

/-- The variables which `strong_connect` shares with all its calls. -/
structure State (V : Type) where
  index : ℕ
  stack : List V
  result : List (Finset V)
  indexes : V → Option ℕ
  lowLinks : V → Option ℕ
  onStack : Finset V

section Source

variable {V : Type} [LinearOrder V]

/-- `vertices`: those with an edge. -/
def Graph.vertices (graph : Graph V) : Finset V :=
  graph.entries.foldl (fun vertices entry =>
    entry.2.inOrder.foldl (fun vertices target => insert target (insert entry.1 vertices)) vertices) ∅

/-- The neighbours of a vertex, in order; none when the graph does not contain it. -/
def Graph.neighbors (graph : Graph V) (vertex : V) : List V :=
  match graph.entries.lookup vertex with
  | none => []
  | some targets => targets.inOrder

namespace State

/-- What a call does first. -/
def enter (s : State V) (vertex : V) : State V where
  index := s.index + 1
  stack := vertex :: s.stack
  result := s.result
  indexes := Function.update s.indexes vertex (some s.index)
  lowLinks := Function.update s.lowLinks vertex (some s.index)
  onStack := insert vertex s.onStack

/-- The low link of a vertex becomes at most another value. -/
def lower (s : State V) (vertex : V) (other : Option ℕ) : Option (State V) :=
  (s.lowLinks vertex).bind fun low => other.bind fun bound =>
    some { s with lowLinks := Function.update s.lowLinks vertex (some (min low bound)) }

/-- The loop which pops a component. -/
def popUntil (vertex : V) :
    List V → Finset V → Finset V → Option (List V × Finset V × Finset V)
  | [], _, _ => none
  | v :: stack, onStack, scc =>
    if v = vertex then some (stack, onStack.erase v, insert v scc)
    else popUntil vertex stack (onStack.erase v) (insert v scc)

/-- A component is popped and pushed to the result. -/
def popComponent (s : State V) (vertex : V) : Option (State V) :=
  (popUntil vertex s.stack s.onStack ∅).map fun popped =>
    { s with
      stack := popped.1
      onStack := popped.2.1
      result := s.result ++ [popped.2.2] }

end State

/-- The body of the loop over the neighbours. -/
def visitNeighbor (strongConnect : V → State V → Option (State V)) (vertex : V) (s : State V)
    (neighbor : V) : Option (State V) :=
  if s.indexes neighbor = none then
    (strongConnect neighbor s).bind fun s => s.lower vertex (s.lowLinks neighbor)
  else if neighbor ∈ s.onStack then s.lower vertex (s.indexes neighbor)
  else some s

/-- The component of a vertex is popped when its low link is its own index. -/
def finish (vertex : V) (s : State V) : Option (State V) :=
  (s.lowLinks vertex).bind fun low => (s.indexes vertex).bind fun index =>
    if low = index then s.popComponent vertex else some s

/-- `strong_connect`. -/
def strongConnect (graph : Graph V) : ℕ → V → State V → Option (State V)
  | 0, _, _ => none
  | fuel + 1, vertex, s =>
    ((graph.neighbors vertex).foldlM (visitNeighbor (strongConnect graph fuel) vertex)
      (s.enter vertex)).bind (finish vertex)

/-- The state before the first call. -/
def initial : State V where
  index := 0
  stack := []
  result := []
  indexes _ := none
  lowLinks _ := none
  onStack := ∅

/-- The body of the loop over the vertices. -/
def visitVertex (graph : Graph V) (fuel : ℕ) (s : State V) (vertex : V) : Option (State V) :=
  if s.indexes vertex = none then strongConnect graph fuel vertex s else some s

/-- `StronglyConnectedComponents`. -/
def stronglyConnectedComponents (graph : Graph V) (fuel : ℕ) : Option (List (Finset V)) :=
  (graph.vertices.inOrder.foldlM (visitVertex graph fuel) initial).map State.result

/-! ## Edges -/

/-- An edge of the graph. -/
def Graph.Edge (graph : Graph V) (v w : V) : Prop := ∃ targets, (v, targets) ∈ graph.entries ∧
  w ∈ targets

theorem Graph.mem_neighbors {graph : Graph V} {v w : V} :
    w ∈ graph.neighbors v ↔ graph.Edge v w := by
  unfold Graph.neighbors Graph.Edge
  split
  · rename_i hnone
    rw [List.lookup_eq_none_iff] at hnone
    constructor
    · intro h
      exact absurd h List.not_mem_nil
    · rintro ⟨targets, hmem, -⟩
      exact absurd (hnone _ hmem) (by simp)
  · rename_i targets hsome
    obtain ⟨l₁, l₂, heq, hl₁⟩ := List.lookup_eq_some_iff.mp hsome
    rw [Finset.mem_inOrder]
    constructor
    · intro h
      exact ⟨targets, by rw [heq]; simp, h⟩
    · rintro ⟨targets', hmem, h⟩
      -- a node has one entry
      have hsorted := graph.sorted
      rw [heq, List.map_append] at hsorted
      have hafter := (List.pairwise_cons.mp (List.pairwise_append.mp hsorted).2.1).1
      rw [heq] at hmem
      rcases List.mem_append.mp hmem with hmem | hmem
      · exact absurd (hl₁ _ hmem) (by simp)
      · rcases List.mem_cons.mp hmem with hmem | hmem
        · rwa [← (Prod.mk.inj hmem).2]
        · exact absurd (hafter v (List.mem_map_of_mem (f := Prod.fst) hmem)) (lt_irrefl v)

theorem mem_foldl_insert {entry : V × Finset V} {targets : List V} {vertices : Finset V} {v : V} :
    v ∈ targets.foldl (fun vertices target => insert target (insert entry.1 vertices)) vertices ↔
      v ∈ vertices ∨ v ∈ targets ∨ (v = entry.1 ∧ targets ≠ []) := by
  induction targets generalizing vertices with
  | nil => simp
  | cons target targets ih =>
    rw [List.foldl_cons, ih, Finset.mem_insert, Finset.mem_insert, List.mem_cons]
    tauto

theorem Graph.mem_vertices {graph : Graph V} {v : V} :
    v ∈ graph.vertices ↔ ∃ w, graph.Edge v w ∨ graph.Edge w v := by
  have hfold : ∀ (entries : List (V × Finset V)) (vertices : Finset V),
      v ∈ entries.foldl (fun vertices entry => entry.2.inOrder.foldl
        (fun vertices target => insert target (insert entry.1 vertices)) vertices) vertices ↔
      v ∈ vertices ∨ ∃ w, (∃ targets, (v, targets) ∈ entries ∧ w ∈ targets) ∨
        ∃ targets, (w, targets) ∈ entries ∧ v ∈ targets := by
    intro entries
    induction entries with
    | nil => simp
    | cons entry entries ih =>
      intro vertices
      obtain ⟨source, targets⟩ := entry
      rw [List.foldl_cons, ih, mem_foldl_insert, Finset.mem_inOrder, Finset.inOrder_ne_nil]
      constructor
      · rintro ((h | h | ⟨rfl, w, hw⟩) | ⟨w, ⟨t, ht, hw⟩ | ⟨t, ht, hw⟩⟩)
        · exact Or.inl h
        · exact Or.inr ⟨source, Or.inr ⟨targets, List.mem_cons_self .., h⟩⟩
        · exact Or.inr ⟨w, Or.inl ⟨targets, List.mem_cons_self .., hw⟩⟩
        · exact Or.inr ⟨w, Or.inl ⟨t, List.mem_cons_of_mem _ ht, hw⟩⟩
        · exact Or.inr ⟨w, Or.inr ⟨t, List.mem_cons_of_mem _ ht, hw⟩⟩
      · rintro (h | ⟨w, ⟨t, ht, hw⟩ | ⟨t, ht, hw⟩⟩)
        · exact Or.inl (Or.inl h)
        · rcases List.mem_cons.mp ht with ht | ht
          · obtain ⟨rfl, rfl⟩ := Prod.mk.inj ht
            exact Or.inl (Or.inr (Or.inr ⟨rfl, w, hw⟩))
          · exact Or.inr ⟨w, Or.inl ⟨t, ht, hw⟩⟩
        · rcases List.mem_cons.mp ht with ht | ht
          · obtain ⟨rfl, rfl⟩ := Prod.mk.inj ht
            exact Or.inl (Or.inr (Or.inl hw))
          · exact Or.inr ⟨w, Or.inr ⟨t, ht, hw⟩⟩
  rw [vertices, hfold]
  simp [Edge]

end Source

/-! ## The invariant -/

variable {V : Type}

/-- The index of a visited vertex. -/
def State.num (s : State V) (v : V) : ℕ := (s.indexes v).getD 0

/-- What holds between the steps; the calls for the grey vertices have not returned. -/
structure Inv (R : V → V → Prop) (gray : Set V) (s : State V) : Prop where
  index_lt : ∀ {v i}, s.indexes v = some i → i < s.index
  incident : ∀ {v}, s.indexes v ≠ none → ∃ w, R v w ∨ R w v
  sorted : s.stack.Pairwise fun a b => s.num b < s.num a
  mem_onStack : ∀ {v}, v ∈ s.onStack ↔ v ∈ s.stack
  visited_iff : ∀ {v}, s.indexes v ≠ none ↔ v ∈ s.stack ∨ ∃ c ∈ s.result, v ∈ c
  stack_result : ∀ {v c}, v ∈ s.stack → c ∈ s.result → v ∉ c
  emitted : Emitted R s.result
  gray_stack : ∀ {g}, g ∈ gray → g ∈ s.stack
  closed : ∀ {v w}, v ∈ s.stack → v ∉ gray → R v w → s.indexes w ≠ none
  reach_stack : ∀ {g x}, g ∈ gray → x ∈ s.stack → s.num g ≤ s.num x → ReflTransGen R g x
  reach_gray : ∀ {x}, x ∈ s.stack → ∃ g ∈ gray, s.num g ≤ s.num x ∧ ReflTransGen R x g

/-- What a part of the run leaves as it was. -/
structure Extends (s s' : State V) (new : List V) : Prop where
  stack : s'.stack = new ++ s.stack
  indexes : ∀ {v}, s.indexes v ≠ none → s'.indexes v = s.indexes v
  lowLinks : ∀ {v}, s.indexes v ≠ none → s'.lowLinks v = s.lowLinks v
  index_le : s.index ≤ s'.index

/-- What a call for a vertex has done when it returns. -/
structure Connected (R : V → V → Prop) (gray : Set V) (s : State V) (vertex : V)
    (s' : State V) : Prop where
  inv : Inv R gray s'
  visited : s'.indexes vertex ≠ none
  exists_low : ∃ new low, Extends s s' new ∧ s'.lowLinks vertex = some low ∧
    (∀ x ∈ new, ∀ y ∈ s.stack, R x y → low ≤ s.num y) ∧
    ((∃ y ∈ s'.stack, s'.num y = low ∧ ReflTransGen R vertex y) ∨ s.index ≤ low)

/-- What the loop of a vertex has done when it has visited some neighbours. -/
structure Looped (R : V → V → Prop) (gray : Set V) (s : State V) (vertex : V)
    (neighbors : List V) (s' : State V) : Prop where
  inv : Inv R (insert vertex gray) s'
  index_vertex : s'.indexes vertex = some s.index
  visited : ∀ w ∈ neighbors, s'.indexes w ≠ none
  exists_low : ∃ new low, Extends s s' (new ++ [vertex]) ∧ s'.lowLinks vertex = some low ∧
    (∀ x ∈ new, ∀ y ∈ s.stack, R x y → low ≤ s.num y) ∧
    (∀ w ∈ neighbors, w ∈ s.stack → low ≤ s.num w) ∧ low ≤ s.index ∧
    ∃ y ∈ s'.stack, s'.num y = low ∧ ReflTransGen R vertex y

variable {R : V → V → Prop} {gray : Set V} {s s' s'' : State V} {v vertex : V}
  {new new' neighbors : List V}

theorem State.num_eq {i : ℕ} (h : s.indexes v = some i) : s.num v = i := by
  rw [State.num, h]
  rfl

theorem Inv.num_lt (h : Inv R gray s) (hv : s.indexes v ≠ none) : s.num v < s.index := by
  obtain ⟨i, hi⟩ := Option.ne_none_iff_exists'.mp hv
  rw [State.num_eq hi]
  exact h.index_lt hi

theorem Inv.visited (h : Inv R gray s) (hv : v ∈ s.stack) : s.indexes v ≠ none :=
  h.visited_iff.mpr (Or.inl hv)

/-- The low links do not matter. -/
theorem Inv.lowLinks (h : Inv R gray s) (lowLinks : V → Option ℕ) :
    Inv R gray { s with lowLinks := lowLinks } :=
  ⟨h.index_lt, h.incident, h.sorted, h.mem_onStack, h.visited_iff, h.stack_result, h.emitted,
    h.gray_stack, h.closed, h.reach_stack, h.reach_gray⟩

theorem Extends.num_eq (h : Extends s s' new) (hv : s.indexes v ≠ none) : s'.num v = s.num v := by
  rw [State.num, h.indexes hv, State.num]

theorem Extends.visited (h : Extends s s' new) (hv : s.indexes v ≠ none) : s'.indexes v ≠ none := by
  rwa [h.indexes hv]

theorem Extends.trans (h : Extends s s' new) (h' : Extends s' s'' new') :
    Extends s s'' (new' ++ new) where
  stack := by rw [h'.stack, h.stack, List.append_assoc]
  indexes hv := by rw [h'.indexes (h.visited hv), h.indexes hv]
  lowLinks hv := by rw [h'.lowLinks (h.visited hv), h.lowLinks hv]
  index_le := h.index_le.trans h'.index_le

variable (h : Looped R gray s vertex neighbors s') (hs : Inv R gray s)
  (hall : ∀ w, R vertex w → w ∈ neighbors)

include h hs in
/-- What was on the stack stays there, below the vertex. -/
theorem Looped.stack_split (hext : Extends s s' (new ++ [vertex])) :
    (∀ x ∈ new, s.index < s'.num x ∧ x ∉ s.stack) ∧ vertex ∉ s.stack := by
  have hnum := State.num_eq h.index_vertex
  have hsorted := h.inv.sorted
  rw [hext.stack, List.append_assoc] at hsorted
  have hnew : ∀ x ∈ new, s.index < s'.num x := by
    intro x hx
    rw [← hnum]
    exact (List.pairwise_append.mp hsorted).2.2 x hx vertex (List.mem_cons_self ..)
  have hold : ∀ y ∈ s.stack, s'.num y < s.index := by
    intro y hy
    rw [hext.num_eq (hs.visited hy)]
    exact hs.num_lt (hs.visited hy)
  refine ⟨fun x hx => ⟨hnew x hx, fun hy => ?_⟩, fun hy => ?_⟩
  · exact absurd (hnew x hx) (hold x hy).not_gt
  · exact absurd hnum (hold vertex hy).ne

variable [LinearOrder V]

/-! ## Entering a vertex -/

theorem num_enter_self (s : State V) (vertex : V) : (s.enter vertex).num vertex = s.index :=
  State.num_eq (Function.update_self ..)

theorem indexes_enter_of_ne (hne : v ≠ vertex) : (s.enter vertex).indexes v = s.indexes v :=
  Function.update_of_ne hne ..

theorem num_enter_of_ne (hne : v ≠ vertex) : (s.enter vertex).num v = s.num v := by
  rw [State.num, indexes_enter_of_ne hne, State.num]

theorem enter_extends (hnew : s.indexes vertex = none) : Extends s (s.enter vertex) [vertex] := by
  have hne : ∀ {v}, s.indexes v ≠ none → v ≠ vertex := by
    rintro v hv rfl
    exact hv hnew
  exact ⟨rfl, fun hv => indexes_enter_of_ne (hne hv), fun hv => Function.update_of_ne (hne hv) ..,
    Nat.le_succ _⟩

/-- A vertex which the grey ones reach is pushed and becomes grey. -/
theorem enter_inv (h : Inv R gray s) (hnew : s.indexes vertex = none)
    (hincident : ∃ w, R vertex w ∨ R w vertex) (hgray : ∀ g ∈ gray, ReflTransGen R g vertex) :
    Inv R (insert vertex gray) (s.enter vertex) := by
  have hne : ∀ {v}, v ∈ s.stack → v ≠ vertex := by
    rintro v hv rfl
    exact h.visited hv hnew
  have hnum : ∀ {v}, v ∈ s.stack → (s.enter vertex).num v = s.num v := fun hv =>
    num_enter_of_ne (hne hv)
  have hvisited : ∀ {v}, (s.enter vertex).indexes v ≠ none ↔ v = vertex ∨ s.indexes v ≠ none := by
    intro v
    by_cases hv : v = vertex
    · subst hv
      simp [State.enter]
    · rw [indexes_enter_of_ne hv]
      simp [hv]
  have hlt : ∀ {v}, v ∈ s.stack → (s.enter vertex).num v < (s.enter vertex).num vertex := by
    intro v hv
    rw [hnum hv, num_enter_self]
    exact h.num_lt (h.visited hv)
  constructor
  · intro v i hi
    by_cases hv : v = vertex
    · subst hv
      have hi' := State.num_eq hi
      rw [num_enter_self] at hi'
      rw [← hi']
      exact Nat.lt_succ_self _
    · rw [indexes_enter_of_ne hv] at hi
      exact (h.index_lt hi).trans (Nat.lt_succ_self _)
  · intro v hv
    rcases hvisited.mp hv with rfl | hv
    · exact hincident
    · exact h.incident hv
  · refine List.pairwise_cons.mpr ⟨fun v hv => hlt hv, h.sorted.imp_of_mem ?_⟩
    intro a b ha hb hab
    rwa [hnum ha, hnum hb]
  · intro v
    exact Finset.mem_insert.trans ((or_congr_right h.mem_onStack).trans List.mem_cons.symm)
  · intro v
    rw [hvisited, h.visited_iff, ← or_assoc]
    exact or_congr_left List.mem_cons.symm
  · intro v c hv hc
    rcases List.mem_cons.mp hv with rfl | hv
    · exact fun hvc => h.visited_iff.mpr (Or.inr ⟨c, hc, hvc⟩) hnew
    · exact h.stack_result hv hc
  · exact h.emitted
  · rintro g (rfl | hg)
    · exact List.mem_cons_self ..
    · exact List.mem_cons_of_mem _ (h.gray_stack hg)
  · intro v w hv hngray hvw
    rw [Set.mem_insert_iff, not_or] at hngray
    have hv' := (List.mem_cons.mp hv).resolve_left hngray.1
    exact hvisited.mpr (Or.inr (h.closed hv' hngray.2 hvw))
  · rintro g x (rfl | hg) hx hle
    · rcases List.mem_cons.mp hx with rfl | hx
      · exact ReflTransGen.refl
      · exact absurd (hlt hx) hle.not_gt
    · rcases List.mem_cons.mp hx with rfl | hx
      · exact hgray g hg
      · rw [hnum (h.gray_stack hg), hnum hx] at hle
        exact h.reach_stack hg hx hle
  · intro x hx
    rcases List.mem_cons.mp hx with rfl | hx
    · exact ⟨x, Set.mem_insert .., le_rfl, ReflTransGen.refl⟩
    · obtain ⟨g, hg, hle, hreach⟩ := h.reach_gray hx
      refine ⟨g, Set.mem_insert_of_mem _ hg, ?_, hreach⟩
      rwa [hnum (h.gray_stack hg), hnum hx]

theorem enter_looped (h : Inv R gray s) (hnew : s.indexes vertex = none)
    (hincident : ∃ w, R vertex w ∨ R w vertex) (hgray : ∀ g ∈ gray, ReflTransGen R g vertex) :
    Looped R gray s vertex [] (s.enter vertex) where
  inv := enter_inv h hnew hincident hgray
  index_vertex := Function.update_self ..
  visited w hw := absurd hw List.not_mem_nil
  exists_low := by
    refine ⟨[], s.index, enter_extends hnew, Function.update_self .., ?_, ?_, le_rfl, vertex,
      List.mem_cons_self .., num_enter_self s vertex, ReflTransGen.refl⟩
    · exact fun x hx => absurd hx List.not_mem_nil
    · exact fun w hw => absurd hw List.not_mem_nil

/-! ## Visiting the neighbours -/

theorem lower_eq {low : ℕ} (hlow : s.lowLinks vertex = some low) (bound : ℕ) :
    s.lower vertex (some bound) =
      some { s with lowLinks := Function.update s.lowLinks vertex (some (min low bound)) } := by
  rw [State.lower, hlow]
  rfl

/-- The low link of a vertex may change before it returns. -/
theorem Extends.update (h : Extends s s' new) (hnew : s.indexes vertex = none) (low : Option ℕ) :
    Extends s { s' with lowLinks := Function.update s'.lowLinks vertex low } new where
  stack := h.stack
  indexes hv := h.indexes hv
  lowLinks {v} hv := by
    have hne : v ≠ vertex := fun heq => hv (heq ▸ hnew)
    exact (Function.update_of_ne hne ..).trans (h.lowLinks hv)
  index_le := h.index_le

section

include h hs

/-- A neighbour on the stack lowers the low link. -/
theorem Looped.lower_index (hnew : s.indexes vertex = none) {w : V} (hedge : R vertex w)
    (hw : w ∈ s'.stack) :
    ∃ s'', s'.lower vertex (s'.indexes w) = some s'' ∧
      Looped R gray s vertex (neighbors ++ [w]) s'' := by
  obtain ⟨new, low, hext, hlow, hbound, hdirect, hle, y, hy, hnum, hreach⟩ := h.exists_low
  obtain ⟨i, hi⟩ := Option.ne_none_iff_exists'.mp (h.inv.visited hw)
  refine ⟨_, (congrArg (s'.lower vertex) hi).trans (lower_eq hlow i), h.inv.lowLinks _,
    h.index_vertex, ?_, ?_⟩
  · intro w' hw'
    rcases List.mem_append.mp hw' with hw' | hw'
    · exact h.visited w' hw'
    · rw [List.mem_singleton.mp hw']
      exact h.inv.visited hw
  · refine ⟨new, min low i, hext.update hnew _, Function.update_self .., ?_, ?_, ?_, ?_⟩
    · exact fun x hx y hy hxy => (Nat.min_le_left ..).trans (hbound x hx y hy hxy)
    · intro w' hw' hw's
      rcases List.mem_append.mp hw' with hw' | hw'
      · exact (Nat.min_le_left ..).trans (hdirect w' hw' hw's)
      · obtain rfl := List.mem_singleton.mp hw'
        rw [← hext.num_eq (hs.visited hw's), State.num_eq hi]
        exact Nat.min_le_right ..
    · exact (Nat.min_le_left ..).trans hle
    · rcases Nat.le_total low i with hli | hil
      · exact ⟨y, hy, by rw [Nat.min_eq_left hli]; exact hnum, hreach⟩
      · exact ⟨w, hw, by rw [Nat.min_eq_right hil]; exact State.num_eq hi, .single hedge⟩

/-- A neighbour which was connected lowers the low link. -/
theorem Looped.lower_lowLink (hnew : s.indexes vertex = none) {w : V} (hedge : R vertex w)
    (hw : s'.indexes w = none) {s₁ : State V} (hconn : Connected R (insert vertex gray) s' w s₁) :
    ∃ s'', s₁.lower vertex (s₁.lowLinks w) = some s'' ∧
      Looped R gray s vertex (neighbors ++ [w]) s'' := by
  obtain ⟨new, low, hext, hlow, hbound, hdirect, hle, y, hy, hnum, hreach⟩ := h.exists_low
  obtain ⟨new₁, low₁, hext₁, hlow₁, hbound₁, hattained⟩ := hconn.exists_low
  have hvertex : s'.indexes vertex ≠ none := by
    rw [h.index_vertex]
    exact Option.some_ne_none _
  have hlow' : s₁.lowLinks vertex = some low := by rw [hext₁.lowLinks hvertex, hlow]
  have hext' : Extends s s₁ (new₁ ++ new ++ [vertex]) := by
    have := hext.trans hext₁
    rwa [← List.append_assoc] at this
  refine ⟨_, (congrArg (s₁.lower vertex) hlow₁).trans (lower_eq hlow' low₁),
    hconn.inv.lowLinks _, ?_, ?_, ?_⟩
  · exact (hext₁.indexes hvertex).trans h.index_vertex
  · intro w' hw'
    rcases List.mem_append.mp hw' with hw' | hw'
    · exact hext₁.visited (h.visited w' hw')
    · rw [List.mem_singleton.mp hw']
      exact hconn.visited
  · refine ⟨new₁ ++ new, min low low₁, hext'.update hnew _, Function.update_self .., ?_, ?_, ?_, ?_⟩
    · intro x hx y hy hxy
      rcases List.mem_append.mp hx with hx | hx
      · have hy' : y ∈ s'.stack := by
          rw [hext.stack]
          exact List.mem_append_right _ hy
        have := hbound₁ x hx y hy' hxy
        rw [hext.num_eq (hs.visited hy)] at this
        exact (Nat.min_le_right ..).trans this
      · exact (Nat.min_le_left ..).trans (hbound x hx y hy hxy)
    · intro w' hw' hw's
      rcases List.mem_append.mp hw' with hw' | hw'
      · exact (Nat.min_le_left ..).trans (hdirect w' hw' hw's)
      · obtain rfl := List.mem_singleton.mp hw'
        exact absurd hw (hext.visited (hs.visited hw's))
    · exact (Nat.min_le_left ..).trans hle
    · rcases Nat.le_total low low₁ with hll | hll
      · refine ⟨y, ?_, ?_, hreach⟩
        · rw [hext₁.stack]
          exact List.mem_append_right _ hy
        · rw [Nat.min_eq_left hll, ← hnum]
          exact hext₁.num_eq (h.inv.visited hy)
      · rcases hattained with ⟨z, hz, hznum, hzreach⟩ | hge
        · exact ⟨z, hz, by rw [Nat.min_eq_right hll]; exact hznum, .head hedge hzreach⟩
        · -- the neighbour is not on the stack any more, and had a larger index
          have hindex : s.index < s'.index := h.inv.index_lt h.index_vertex
          omega

end

/-- A call for a vertex which is not visited, and which the grey vertices reach. -/
def Connects (R : V → V → Prop) (vertices : Finset V) (fuel : ℕ)
    (connect : V → State V → Option (State V)) : Prop :=
  ∀ {gray : Set V} {s : State V} {vertex : V}, Inv R gray s → s.indexes vertex = none →
    (∃ w, R vertex w ∨ R w vertex) → (∀ g ∈ gray, ReflTransGen R g vertex) →
    (vertices.filter fun v => s.indexes v = none).card ≤ fuel →
    ∃ s', connect vertex s = some s' ∧ Connected R gray s vertex s'

variable {vertices : Finset V} {fuel : ℕ} {connect : V → State V → Option (State V)}

section

variable (h : Looped R gray s vertex neighbors s')

include h

omit [LinearOrder V] in
/-- In the loop of a vertex one more vertex has been visited. -/
theorem Looped.card_lt (hnew : s.indexes vertex = none) (hmem : vertex ∈ vertices) :
    (vertices.filter fun v => s'.indexes v = none).card <
      (vertices.filter fun v => s.indexes v = none).card := by
  obtain ⟨new, low, hext, -⟩ := h.exists_low
  apply Finset.card_lt_card
  refine Finset.ssubset_iff_of_subset ?_ |>.mpr ⟨vertex, ?_, ?_⟩
  · intro v hv
    rw [Finset.mem_filter] at hv ⊢
    refine ⟨hv.1, ?_⟩
    by_contra hvisited
    exact hext.visited hvisited hv.2
  · exact Finset.mem_filter.mpr ⟨hmem, hnew⟩
  · intro hv
    rw [Finset.mem_filter, h.index_vertex] at hv
    exact absurd hv.2 (Option.some_ne_none _)

omit h in
/-- One neighbour is visited. -/
theorem visitNeighbor_spec (hconnect : Connects R vertices fuel connect) (hs : Inv R gray s)
    (hnew : s.indexes vertex = none) (hgray : ∀ g ∈ gray, ReflTransGen R g vertex)
    (h : Looped R gray s vertex neighbors s')
    (hfuel : (vertices.filter fun v => s'.indexes v = none).card ≤ fuel) {w : V}
    (hedge : R vertex w) : ∃ s'', visitNeighbor connect vertex s' w = some s'' ∧
      Looped R gray s vertex (neighbors ++ [w]) s'' := by
  unfold visitNeighbor
  by_cases hw : s'.indexes w = none
  · rw [if_pos hw]
    have hgray' : ∀ g ∈ insert vertex gray, ReflTransGen R g w := by
      rintro g (rfl | hg)
      · exact .single hedge
      · exact (hgray g hg).tail hedge
    obtain ⟨s₁, hcall, hconn⟩ := hconnect h.inv hw ⟨vertex, Or.inr hedge⟩ hgray' hfuel
    rw [hcall]
    exact h.lower_lowLink hs hnew hedge hw hconn
  · rw [if_neg hw]
    by_cases hon : w ∈ s'.onStack
    · rw [if_pos hon]
      exact h.lower_index hs hnew hedge (h.inv.mem_onStack.mp hon)
    · -- the neighbour is in a component
      rw [if_neg hon]
      refine ⟨s', rfl, h.inv, h.index_vertex, ?_, ?_⟩
      · intro w' hw'
        rcases List.mem_append.mp hw' with hw' | hw'
        · exact h.visited w' hw'
        · rwa [List.mem_singleton.mp hw']
      · obtain ⟨new, low, hext, hlow, hbound, hdirect, hrest⟩ := h.exists_low
        refine ⟨new, low, hext, hlow, hbound, fun w' hw' hw's => ?_, hrest⟩
        rcases List.mem_append.mp hw' with hw' | hw'
        · exact hdirect w' hw' hw's
        · obtain rfl := List.mem_singleton.mp hw'
          refine absurd (h.inv.mem_onStack.mpr ?_) hon
          rw [hext.stack]
          exact List.mem_append_right _ hw's

omit h in
/-- All neighbours are visited. -/
theorem foldlM_visitNeighbor (hconnect : Connects R vertices fuel connect) (hs : Inv R gray s)
    (hnew : s.indexes vertex = none) (hmem : vertex ∈ vertices)
    (hgray : ∀ g ∈ gray, ReflTransGen R g vertex)
    (hfuel : (vertices.filter fun v => s.indexes v = none).card ≤ fuel + 1) (rest : List V)
    (hrest : ∀ w ∈ rest, R vertex w) {neighbors : List V} {s' : State V}
    (h : Looped R gray s vertex neighbors s') :
    ∃ s'', rest.foldlM (visitNeighbor connect vertex) s' = some s'' ∧
      Looped R gray s vertex (neighbors ++ rest) s'' := by
  induction rest generalizing neighbors s' with
  | nil => exact ⟨s', rfl, by rwa [List.append_nil]⟩
  | cons w rest ih =>
    have hlt := h.card_lt hnew hmem
    obtain ⟨s₁, hvisit, h₁⟩ := visitNeighbor_spec hconnect hs hnew hgray h (by omega)
      (hrest w (List.mem_cons_self ..))
    obtain ⟨s₂, hfold, h₂⟩ := ih (fun w' hw' => hrest w' (List.mem_cons_of_mem _ hw')) h₁
    refine ⟨s₂, ?_, by rwa [List.append_assoc] at h₂⟩
    rw [List.foldlM_cons, hvisit]
    exact hfold

/-! ## Components -/

omit h in
/-- The vertices above one on the stack are popped with it. -/
theorem popUntil_append (hnew : vertex ∉ new) (rest : List V) (onStack scc : Finset V) :
    ∃ onStack' scc', State.popUntil vertex (new ++ vertex :: rest) onStack scc =
        some (rest, onStack', scc') ∧
      (∀ x, x ∈ onStack' ↔ x ∈ onStack ∧ x ∉ new ∧ x ≠ vertex) ∧
      ∀ x, x ∈ scc' ↔ x ∈ scc ∨ x ∈ new ∨ x = vertex := by
  induction new generalizing onStack scc with
  | nil =>
    refine ⟨onStack.erase vertex, insert vertex scc, ?_, fun x => ?_, fun x => ?_⟩
    · rw [List.nil_append, State.popUntil, if_pos rfl]
    · simp [and_comm]
    · simp [or_comm]
  | cons y new ih =>
    rw [List.mem_cons, not_or] at hnew
    obtain ⟨onStack', scc', hpop, hon, hscc⟩ := ih hnew.2 (onStack.erase y) (insert y scc)
    refine ⟨onStack', scc', ?_, fun x => ?_, fun x => ?_⟩
    · rw [List.cons_append, State.popUntil, if_neg (Ne.symm hnew.1), hpop]
    · rw [hon, Finset.mem_erase, List.mem_cons]
      tauto
    · rw [hscc, Finset.mem_insert, List.mem_cons]
      tauto

omit [LinearOrder V] in
/-- No edge leads from the vertices above one with its own low link, and from it, to below. -/
theorem Looped.successors (hs : Inv R gray s)
    (hall : ∀ w, R vertex w → w ∈ neighbors) (hext : Extends s s' (new ++ [vertex]))
    (hbound : ∀ x ∈ new, ∀ y ∈ s.stack, R x y → s.index ≤ s.num y)
    (hdirect : ∀ w ∈ neighbors, w ∈ s.stack → s.index ≤ s.num w) {x w : V}
    (hx : x ∈ new ∨ x = vertex) (hedge : R x w) :
    (w ∈ new ∨ w = vertex) ∨ ∃ d ∈ s'.result, w ∈ d := by
  obtain ⟨hsplit, -⟩ := h.stack_split hs hext
  have hstack : ∀ {y}, y ∈ s'.stack ↔ (y ∈ new ∨ y = vertex) ∨ y ∈ s.stack := by
    intro y
    rw [hext.stack, List.mem_append, List.mem_append, List.mem_singleton]
  have hvisited : s'.indexes w ≠ none := by
    rcases hx with hx | rfl
    · refine h.inv.closed (hstack.mpr (Or.inl (Or.inl hx))) ?_ hedge
      rintro (rfl | hgray)
      · exact absurd (State.num_eq h.index_vertex) (hsplit _ hx).1.ne'
      · exact (hsplit x hx).2 (hs.gray_stack hgray)
    · exact h.visited w (hall w hedge)
  rcases h.inv.visited_iff.mp hvisited with hw | hw
  · refine Or.inl ((hstack.mp hw).resolve_right fun hold => ?_)
    have hle : s.index ≤ s.num w := by
      rcases hx with hx | rfl
      · exact hbound x hx w hold hedge
      · exact hdirect w (hall w hedge) hold
    exact absurd (hs.num_lt (hs.visited hold)) hle.not_gt
  · exact Or.inr hw

include hs hall in
/-- The vertices above one with its own low link are a component with it. -/
theorem popComponent_spec (hext : Extends s s' (new ++ [vertex]))
    (hbound : ∀ x ∈ new, ∀ y ∈ s.stack, R x y → s.index ≤ s.num y)
    (hdirect : ∀ w ∈ neighbors, w ∈ s.stack → s.index ≤ s.num w) :
    ∃ s'', s'.popComponent vertex = some s'' ∧ Inv R gray s'' ∧ s''.stack = s.stack ∧
      s''.indexes = s'.indexes ∧ s''.lowLinks = s'.lowLinks ∧ s''.index = s'.index := by
  obtain ⟨hsplit, hvertex⟩ := h.stack_split hs hext
  have hnum := State.num_eq h.index_vertex
  have hnotnew : vertex ∉ new := fun hmem => absurd hnum (hsplit vertex hmem).1.ne'
  have hstack : ∀ {y}, y ∈ s'.stack ↔ (y ∈ new ∨ y = vertex) ∨ y ∈ s.stack := by
    intro y
    rw [hext.stack, List.mem_append, List.mem_append, List.mem_singleton]
  obtain ⟨onStack', scc, hpop, hon, hscc⟩ := popUntil_append hnotnew s.stack s'.onStack ∅
  have hmem : ∀ {x}, x ∈ scc ↔ x ∈ new ∨ x = vertex := by
    intro x
    rw [hscc]
    simp
  have hsucc : ∀ u ∈ scc, ∀ w, R u w → w ∈ scc ∨ ∃ d ∈ s'.result, w ∈ d := by
    intro u hu w hedge
    rw [hmem]
    exact h.successors hs hall hext hbound hdirect (hmem.mp hu) hedge
  have hreach : ∀ u ∈ scc, ∀ w, ReflTransGen R u w → w ∈ scc ∨ ∃ d ∈ s'.result, w ∈ d := by
    intro u hu w hw
    induction hw with
    | refl => exact Or.inl hu
    | tail _ hedge ih =>
      rcases ih with hc | hd
      · exact hsucc _ hc _ hedge
      · exact Or.inr (h.inv.emitted.closed hd (.single hedge))
  have hin : ∀ u ∈ scc, u ∈ s'.stack := fun u hu => hstack.mpr (Or.inl (hmem.mp hu))
  have hout : ∀ {y}, y ∈ s.stack → y ∉ scc := by
    intro y hy hys
    rcases hmem.mp hys with hyn | rfl
    · exact (hsplit y hyn).2 hy
    · exact hvertex hy
  have hfrom : ∀ u ∈ scc, ReflTransGen R vertex u := by
    intro u hu
    apply h.inv.reach_stack (Set.mem_insert ..) (hin u hu)
    rcases hmem.mp hu with hun | rfl
    · rw [hnum]
      exact (hsplit u hun).1.le
    · exact le_rfl
  have hto : ∀ u ∈ scc, ReflTransGen R u vertex := by
    intro u hu
    obtain ⟨g, hg, -, hug⟩ := h.inv.reach_gray (hin u hu)
    rcases hg with rfl | hg
    · exact hug
    · -- a grey vertex below would be reached from the component
      have hgs := hs.gray_stack hg
      rcases hreach u hu g hug with hgc | ⟨d, hd, hgd⟩
      · exact absurd hgc (hout hgs)
      · exact absurd hgd (h.inv.stack_result (hstack.mpr (Or.inr hgs)) hd)
  refine ⟨{ s' with stack := s.stack, onStack := onStack', result := s'.result ++ [scc] }, ?_, ?_,
    rfl, rfl, rfl, rfl⟩
  · rw [State.popComponent, hext.stack, List.append_assoc, List.singleton_append, hpop]
    rfl
  have hsub : s.stack.Sublist s'.stack := by
    rw [hext.stack]
    exact List.sublist_append_right _ _
  have hnums : ∀ {y}, y ∈ s.stack → s'.num y = s.num y := fun hy => hext.num_eq (hs.visited hy)
  constructor
  · exact h.inv.index_lt
  · exact h.inv.incident
  · exact h.inv.sorted.sublist hsub
  · intro v
    rw [hon, h.inv.mem_onStack, hstack]
    constructor
    · rintro ⟨hv, hvn, hvv⟩
      exact hv.resolve_left (not_or.mpr ⟨hvn, hvv⟩)
    · intro hv
      have hnot := not_or.mp (mt hmem.mpr (hout hv))
      exact ⟨Or.inr hv, hnot.1, hnot.2⟩
  · intro v
    rw [h.inv.visited_iff, hstack, ← hmem]
    constructor
    · rintro ((hv | hv) | ⟨c, hc, hv⟩)
      · exact Or.inr ⟨scc, List.mem_append_right _ (List.mem_singleton_self _), hv⟩
      · exact Or.inl hv
      · exact Or.inr ⟨c, List.mem_append_left _ hc, hv⟩
    · rintro (hv | ⟨c, hc, hv⟩)
      · exact Or.inl (Or.inr hv)
      · rcases List.mem_append.mp hc with hc | hc
        · exact Or.inr ⟨c, hc, hv⟩
        · rw [List.mem_singleton.mp hc] at hv
          exact Or.inl (Or.inl hv)
  · intro v c hv hc
    rcases List.mem_append.mp hc with hc | hc
    · exact h.inv.stack_result (hstack.mpr (Or.inr hv)) hc
    · rw [List.mem_singleton.mp hc]
      exact hout hv
  · apply h.inv.emitted.concat ⟨vertex, hmem.mpr (Or.inr rfl)⟩
    · exact fun u hu v hv => (hto u hu).trans (hfrom v hv)
    · intro d hd
      rw [Finset.disjoint_left]
      exact fun u hud hu => h.inv.stack_result (hin u hu) hd hud
    · exact hsucc
  · exact hs.gray_stack
  · intro v w hv hngray hedge
    have hne : v ≠ vertex := fun heq => hvertex (heq ▸ hv)
    exact h.inv.closed (hstack.mpr (Or.inr hv)) (by
      rw [Set.mem_insert_iff, not_or]
      exact ⟨hne, hngray⟩) hedge
  · intro g x hg hx hle
    exact h.inv.reach_stack (Set.mem_insert_of_mem _ hg) (hstack.mpr (Or.inr hx)) hle
  · intro x hx
    obtain ⟨g, hg, hle, hxg⟩ := hs.reach_gray hx
    rw [← hnums (hs.gray_stack hg), ← hnums hx] at hle
    exact ⟨g, hg, hle, hxg⟩

include hall in
omit [LinearOrder V] in
/-- A vertex with a smaller low link stays on the stack. -/
theorem Looped.inv_of_low_lt {y : V} (hy : y ∈ s'.stack) (hlt : s'.num y < s.index)
    (hreach : ReflTransGen R vertex y) : Inv R gray s' := by
  refine ⟨h.inv.index_lt, h.inv.incident, h.inv.sorted, h.inv.mem_onStack, h.inv.visited_iff,
    h.inv.stack_result, h.inv.emitted, fun hg => h.inv.gray_stack (Set.mem_insert_of_mem _ hg),
    ?_, fun hg => h.inv.reach_stack (Set.mem_insert_of_mem _ hg), ?_⟩
  · intro v w hv hngray hedge
    by_cases hvv : v = vertex
    · subst hvv
      exact h.visited w (hall w hedge)
    · exact h.inv.closed hv (by
        rw [Set.mem_insert_iff, not_or]
        exact ⟨hvv, hngray⟩) hedge
  · intro x hx
    obtain ⟨g, hg, hle, hxg⟩ := h.inv.reach_gray hx
    rcases hg with rfl | hg
    · -- the vertex reaches a grey one below it
      rw [State.num_eq h.index_vertex] at hle
      obtain ⟨g', hg', hle', hyg'⟩ := h.inv.reach_gray hy
      rcases hg' with rfl | hg'
      · rw [State.num_eq h.index_vertex] at hle'
        exact absurd hlt hle'.not_gt
      · exact ⟨g', hg', hle'.trans (hlt.le.trans hle), hxg.trans (hreach.trans hyg')⟩
    · exact ⟨g, hg, hle, hxg⟩

include hs hall in
/-- A call returns when all neighbours have been visited. -/
theorem finish_spec :
    ∃ s'', finish vertex s' = some s'' ∧ Connected R gray s vertex s'' := by
  obtain ⟨new, low, hext, hlow, hbound, hdirect, hle, y, hy, hnum, hreach⟩ := h.exists_low
  have hvisited : s'.indexes vertex ≠ none := by
    rw [h.index_vertex]
    exact Option.some_ne_none _
  unfold finish
  rw [hlow, h.index_vertex, Option.bind_some, Option.bind_some]
  by_cases heq : low = s.index
  · subst heq
    rw [if_pos rfl]
    obtain ⟨s'', hpop, hinv, hstack, hindexes, hlowLinks, hindex⟩ :=
      popComponent_spec h hs hall hext hbound hdirect
    refine ⟨s'', hpop, hinv, hindexes ▸ hvisited, [], s.index, ⟨hstack, ?_, ?_, ?_⟩, ?_, ?_,
      Or.inr le_rfl⟩
    · intro v hv
      rw [hindexes, hext.indexes hv]
    · intro v hv
      rw [hlowLinks, hext.lowLinks hv]
    · rw [hindex]
      exact hext.index_le
    · rw [hlowLinks, hlow]
    · exact fun x hx => absurd hx List.not_mem_nil
  · rw [if_neg heq]
    have hinv := h.inv_of_low_lt hall hy (hnum ▸ lt_of_le_of_ne hle heq) hreach
    refine ⟨s', rfl, hinv, hvisited, new ++ [vertex], low, hext, hlow, fun x hx y hy hxy => ?_,
      Or.inl ⟨y, hy, hnum, hreach⟩⟩
    rcases List.mem_append.mp hx with hx | hx
    · exact hbound x hx y hy hxy
    · rw [List.mem_singleton.mp hx] at hxy
      exact hdirect y (hall y hxy) hy

end

/-! ## The run -/

section Run

variable (graph : Graph V)

/-- With fuel for all vertices which are not visited, a call returns. -/
theorem strongConnect_spec (fuel : ℕ) :
    Connects graph.Edge graph.vertices fuel (strongConnect graph fuel) := by
  induction fuel with
  | zero =>
    intro gray s vertex hs hnew hincident hgray hfuel
    have hmem : vertex ∈ graph.vertices.filter fun v => s.indexes v = none :=
      Finset.mem_filter.mpr ⟨Graph.mem_vertices.mpr hincident, hnew⟩
    exact absurd (Finset.card_pos.mpr ⟨vertex, hmem⟩) (Nat.not_lt.mpr hfuel)
  | succ fuel ih =>
    intro gray s vertex hs hnew hincident hgray hfuel
    obtain ⟨s', hfold, h⟩ := foldlM_visitNeighbor ih hs hnew (Graph.mem_vertices.mpr hincident)
      hgray hfuel (graph.neighbors vertex) (fun w hw => Graph.mem_neighbors.mp hw)
      (enter_looped hs hnew hincident hgray)
    rw [strongConnect, hfold]
    exact finish_spec h hs fun w hw => Graph.mem_neighbors.mpr hw

theorem inv_initial : Inv graph.Edge ∅ initial where
  index_lt h := by cases h
  incident h := absurd rfl h
  sorted := List.Pairwise.nil
  mem_onStack := by simp [initial]
  visited_iff := by simp [initial]
  stack_result h := absurd h List.not_mem_nil
  emitted := Emitted.nil
  gray_stack h := absurd h (Set.notMem_empty _)
  closed h := absurd h List.not_mem_nil
  reach_stack h := absurd h (Set.notMem_empty _)
  reach_gray h := absurd h List.not_mem_nil

/-- The loop over the vertices visits them. -/
theorem foldlM_visitVertex {fuel : ℕ} (hfuel : graph.vertices.card ≤ fuel) (rest : List V)
    (hrest : ∀ v ∈ rest, v ∈ graph.vertices) {s : State V} (hs : Inv graph.Edge ∅ s) :
    ∃ s', rest.foldlM (visitVertex graph fuel) s = some s' ∧ Inv graph.Edge ∅ s' ∧
      (∀ v ∈ rest, s'.indexes v ≠ none) ∧ ∀ v, s.indexes v ≠ none → s'.indexes v ≠ none := by
  induction rest generalizing s with
  | nil => exact ⟨s, rfl, hs, fun v hv => absurd hv List.not_mem_nil, fun v hv => hv⟩
  | cons vertex rest ih =>
    obtain ⟨s₁, hvisit, hs₁, hvertex, hold⟩ : ∃ s₁, visitVertex graph fuel s vertex = some s₁ ∧
        Inv graph.Edge ∅ s₁ ∧ s₁.indexes vertex ≠ none ∧
        ∀ v, s.indexes v ≠ none → s₁.indexes v ≠ none := by
      unfold visitVertex
      by_cases hnew : s.indexes vertex = none
      · rw [if_pos hnew]
        obtain ⟨s₁, hcall, hconn⟩ := strongConnect_spec graph fuel hs hnew
          (Graph.mem_vertices.mp (hrest vertex (List.mem_cons_self ..)))
          (fun g hg => absurd hg (Set.notMem_empty g))
          ((Finset.card_le_card (Finset.filter_subset _ _)).trans hfuel)
        obtain ⟨new, low, hext, -⟩ := hconn.exists_low
        exact ⟨s₁, hcall, hconn.inv, hconn.visited, fun v hv => hext.visited hv⟩
      · rw [if_neg hnew]
        exact ⟨s, rfl, hs, hnew, fun v hv => hv⟩
    obtain ⟨s₂, hfold, hs₂, hvisited, hold₂⟩ :=
      ih (fun v hv => hrest v (List.mem_cons_of_mem _ hv)) hs₁
    refine ⟨s₂, ?_, hs₂, fun v hv => ?_, fun v hv => hold₂ v (hold v hv)⟩
    · rw [List.foldlM_cons, hvisit]
      exact hfold
    · rcases List.mem_cons.mp hv with rfl | hv
      · exact hold₂ v hvertex
      · exact hvisited v hv

/-- The components are the classes of mutual reachability of the vertices with an edge, and each
comes after all others which are reachable from it. -/
structure Exact (result : List (Finset V)) : Prop where
  disjoint : result.Pairwise Disjoint
  nonempty : ∀ c ∈ result, c.Nonempty
  cover : ∀ v, (∃ c ∈ result, v ∈ c) ↔ ∃ w, graph.Edge v w ∨ graph.Edge w v
  same_iff : ∀ u v, (∃ w, graph.Edge u w ∨ graph.Edge w u) →
    (∃ w, graph.Edge v w ∨ graph.Edge w v) →
    ((∃ c ∈ result, u ∈ c ∧ v ∈ c) ↔ ReflTransGen graph.Edge u v ∧ ReflTransGen graph.Edge v u)
  order : ∀ earlier c later, result = earlier ++ c :: later → ∀ u ∈ c, ∀ w,
    ReflTransGen graph.Edge u w → w ∈ c ∨ ∃ d ∈ earlier, w ∈ d

/-- The calls return, with the strongly connected components. -/
theorem stronglyConnectedComponents_exact (fuel : ℕ) (hfuel : graph.vertices.card ≤ fuel) :
    ∃ result, stronglyConnectedComponents graph fuel = some result ∧ Exact graph result := by
  obtain ⟨s, hfold, hs, hvisited, -⟩ := foldlM_visitVertex graph hfuel graph.vertices.inOrder
    (fun v hv => Finset.mem_inOrder.mp hv) (inv_initial graph)
  have hstack : s.stack = [] := by
    rcases hcase : s.stack with - | ⟨x, rest⟩
    · rfl
    · obtain ⟨g, hg, -⟩ := hs.reach_gray (hcase ▸ List.mem_cons_self .. : x ∈ s.stack)
      exact absurd hg (Set.notMem_empty g)
  have hcover : ∀ v, (∃ c ∈ s.result, v ∈ c) ↔ ∃ w, graph.Edge v w ∨ graph.Edge w v := by
    intro v
    constructor
    · exact fun h => hs.incident (hs.visited_iff.mpr (Or.inr h))
    · intro h
      have hv := hvisited v (Finset.mem_inOrder.mpr (Graph.mem_vertices.mpr h))
      refine (hs.visited_iff.mp hv).resolve_left ?_
      rw [hstack]
      exact List.not_mem_nil
  refine ⟨s.result, ?_, hs.emitted.disjoint, hs.emitted.nonempty, hcover, ?_, ?_⟩
  · rw [stronglyConnectedComponents, hfold]
    rfl
  · intro u v hu _
    constructor
    · rintro ⟨c, hc, huc, hvc⟩
      exact (hs.emitted.same_iff hc huc).mp hvc
    · intro h
      obtain ⟨c, hc, huc⟩ := (hcover u).mpr hu
      exact ⟨c, hc, huc, (hs.emitted.same_iff hc huc).mpr h⟩
  · exact fun earlier c later heq u hu w hw => hs.emitted.reachable heq hu hw

/-- A cycle with a way to a self-edge. -/
def threeVertices : Graph ℕ := ⟨[(0, {1}), (1, {0, 2}), (2, {2})], by decide⟩

theorem card_threeVertices : threeVertices.vertices.card ≤ 3 := by
  have hsub : threeVertices.vertices ⊆ {0, 1, 2} := by
    intro v hv
    obtain ⟨w, h⟩ := Graph.mem_vertices.mp hv
    simp only [Graph.Edge, threeVertices, List.mem_cons] at h
    rcases h with ⟨t, ⟨rfl, -⟩ | ⟨rfl, -⟩ | ⟨rfl, -⟩, -⟩ | ⟨t, ⟨-, rfl⟩ | ⟨-, rfl⟩ | ⟨-, rfl⟩, h⟩ <;>
      simp_all
    omega
  exact Finset.card_le_card hsub

theorem stronglyConnectedComponents_exact_threeVertices :
    ∃ result, stronglyConnectedComponents threeVertices 3 = some result ∧
      Exact threeVertices result :=
  stronglyConnectedComponents_exact threeVertices 3 card_threeVertices

end Run

end Tarjan

end Xls
