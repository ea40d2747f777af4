/-
# Passes which rewrite nodes until none changes

`TransformNodesToFixedPoint` (`xls/passes/optimization_pass.cc`) visits the nodes in the order in
which they were made, again and again, until a sweep changes nothing.  A rewritten node loses its
uses and stays; it is not rewritten again while it is dead.
-/
import Xls.Ir.NodeGraph
import Xls.Lib.StepLoop

namespace Xls

open NodeGraph

/-- The nodes of a function or proc, and those which it returns or takes for its next state. -/
structure NodeFunction where
  nodes : NodeGraph
  implicitUses : List ℕ

namespace NodeFunction

/-- `HasUser`, for any user. -/
def hasUsers (f : NodeFunction) (i : ℕ) : Bool := f.nodes.hasUsers i

/-- `IsDead`. -/
def isDead (f : NodeFunction) (i : ℕ) : Bool := !f.hasUsers i && !decide (i ∈ f.implicitUses)

/-- `ReplaceUsesWith`, which checks the types. -/
def replaceUsesWith (f : NodeFunction) (i r : ℕ) : Option NodeFunction :=
  if f.nodes.typeOf i = f.nodes.typeOf r then
    some ⟨f.nodes.replaceUses i r, f.implicitUses.map (TermGraph.redirect i r)⟩
  else none

/-- The first node which is not before a position. -/
def nodeFrom (f : NodeFunction) (k : ℕ) : Option ℕ :=
  (List.range' k (f.nodes.length - k)).find? fun i => (f.nodes.vertex i).isSome

variable {f : NodeFunction} {i j k : ℕ}

theorem isDead_iff : f.isDead i = true ↔ ¬ f.nodes.Uses i ∧ i ∉ f.implicitUses := by
  rw [isDead, Bool.and_eq_true, Bool.not_eq_true', Bool.not_eq_true', decide_eq_false_iff_not,
    ← Bool.not_eq_true, hasUsers, TermGraph.hasUsers_iff]

theorem nodeFrom_eq_some (h : f.nodeFrom k = some i) :
    k ≤ i ∧ i < f.nodes.length ∧ (f.nodes.vertex i).isSome := by
  have hmem := List.mem_of_find?_eq_some h
  have hsome := List.find?_eq_some_iff_append.mp h
  rw [List.mem_range'_1] at hmem
  exact ⟨hmem.1, by omega, hsome.1⟩

/-- The search does not go past a node. -/
theorem nodeFrom_le (hj : (f.nodes.vertex j).isSome) (hk : k ≤ j) :
    ∃ i, f.nodeFrom k = some i ∧ i ≤ j := by
  obtain ⟨n, hn⟩ := Option.isSome_iff_exists.mp hj
  have hlt := TermGraph.lt_length_of_vertex hn
  have hmem : j ∈ List.range' k (f.nodes.length - k) := by
    rw [List.mem_range'_1]
    omega
  rcases hfind : f.nodeFrom k with - | i
  · have hnone := List.find?_eq_none.mp hfind j hmem
    exact absurd hj hnone
  · refine ⟨i, rfl, ?_⟩
    -- the nodes before the first one are passed
    by_contra hlt'
    rw [not_le] at hlt'
    obtain ⟨-, as, bs, hsplit, has⟩ := List.find?_eq_some_iff_append.mp hfind
    have hsorted : (List.range' k (f.nodes.length - k)).Pairwise (· < ·) := List.pairwise_lt_range'
    rw [hsplit] at hmem hsorted
    rcases List.mem_append.mp hmem with hj' | hj'
    · have hfalse := has j hj'
      rw [hj] at hfalse
      cases hfalse
    · rcases List.mem_cons.mp hj' with rfl | hj'
      · exact absurd hlt' (Nat.lt_irrefl _)
      · have := (List.pairwise_cons.mp (List.pairwise_append.mp hsorted).2.1).1 j hj'
        omega

end NodeFunction

namespace OptimizationPass

/-- The loop: the function, `simplified_node_ids`, `node_it` and the two flags.  Past the last node
there is no `node_it`, also when new nodes follow. -/
structure Sweep where
  f : NodeFunction
  simplifiedNodeIds : List ℕ
  nodeIt : Option ℕ
  changedThisTime : Bool
  changed : Bool

/-- The first sweep begins. -/
def start (f : NodeFunction) : Sweep := ⟨f, [], f.nodeFrom 0, false, false⟩

/-- One round of the loops of `TransformNodesToFixedPoint`.  The result is `changed`, or a failed
check. -/
def step (simplify : NodeFunction → ℕ → Option (Option NodeFunction)) (s : Sweep) :
    Sweep ⊕ Option Bool :=
  match s.nodeIt with
  | none =>
    if s.changedThisTime then
      .inl { s with nodeIt := s.f.nodeFrom 0, changedThisTime := false }
    else .inr (some s.changed)
  | some i =>
    let next := s.f.nodeFrom (i + 1)
    if s.f.isDead i && decide (i ∈ s.simplifiedNodeIds) then .inl { s with nodeIt := next }
    else
      match simplify s.f i with
      | none => .inr none
      | some none => .inl { s with nodeIt := next }
      | some (some f') => .inl ⟨f', i :: s.simplifiedNodeIds, next, true, true⟩

/-- `TransformNodesToFixedPoint`, as far as some number of rounds goes. -/
def transformNodesToFixedPoint (simplify : NodeFunction → ℕ → Option (Option NodeFunction))
    (rounds : ℕ) (f : NodeFunction) : Option (Option Bool) :=
  StepLoop.run (step simplify) rounds (start f)

/-- The node which is given to `simplify`. -/
def visited (s : Sweep) : Option ℕ :=
  s.nodeIt.filter fun i => !(s.f.isDead i && decide (i ∈ s.simplifiedNodeIds))

variable {simplify : NodeFunction → ℕ → Option (Option NodeFunction)} {s s' : Sweep} {i : ℕ}

theorem visited_eq_some : visited s = some i ↔
    s.nodeIt = some i ∧ (s.f.isDead i && decide (i ∈ s.simplifiedNodeIds)) = false := by
  rw [visited, Option.filter_eq_some_iff, Bool.not_eq_true']

/-- A node is rewritten. -/
theorem step_of_rewrite {f' : NodeFunction} (hi : visited s = some i)
    (h : simplify s.f i = some (some f')) : step simplify s =
      .inl ⟨f', i :: s.simplifiedNodeIds, s.f.nodeFrom (i + 1), true, true⟩ := by
  obtain ⟨hit, hlive⟩ := visited_eq_some.mp hi
  rw [step, hit]
  simp only [hlive, h, Bool.false_eq_true, if_false]

/-- A check fails. -/
theorem step_of_failure (hi : visited s = some i) (h : simplify s.f i = none) :
    step simplify s = .inr none := by
  obtain ⟨hit, hlive⟩ := visited_eq_some.mp hi
  rw [step, hit]
  simp only [hlive, h, Bool.false_eq_true, if_false]

/-- A node is passed, since it is dead or has its form. -/
theorem step_of_pass (hit : s.nodeIt = some i)
    (h : visited s = some i → simplify s.f i = some none) :
    step simplify s = .inl { s with nodeIt := s.f.nodeFrom (i + 1) } := by
  rw [step, hit]
  by_cases hlive : (s.f.isDead i && decide (i ∈ s.simplifiedNodeIds)) = true
  · simp only [hlive, if_true]
  · rw [Bool.not_eq_true] at hlive
    simp only [hlive, h (visited_eq_some.mpr ⟨hit, hlive⟩), Bool.false_eq_true, if_false]

/-- The next sweep begins. -/
theorem step_of_none (hit : s.nodeIt = none) (h : s.changedThisTime = true) :
    step simplify s = .inl { s with nodeIt := s.f.nodeFrom 0, changedThisTime := false } := by
  rw [step, hit]
  simp only [h, if_true]

/-- What a round does. -/
theorem step_cases (h : step simplify s = .inl s') : (s.nodeIt = none ∧ s.changedThisTime = true ∧
      s' = { s with nodeIt := s.f.nodeFrom 0, changedThisTime := false }) ∨
    (∃ i, s.nodeIt = some i ∧ s' = { s with nodeIt := s.f.nodeFrom (i + 1) }) ∨
    ∃ i f', visited s = some i ∧ simplify s.f i = some (some f') ∧
      s' = ⟨f', i :: s.simplifiedNodeIds, s.f.nodeFrom (i + 1), true, true⟩ := by
  rcases hit : s.nodeIt with - | i
  · rw [step, hit] at h
    simp only at h
    split at h
    · rename_i hchanged
      exact Or.inl ⟨rfl, hchanged, (Sum.inl.inj h).symm⟩
    · cases h
  · by_cases hpass : visited s = some i → simplify s.f i = some none
    · rw [step_of_pass hit hpass] at h
      exact Or.inr (Or.inl ⟨i, rfl, (Sum.inl.inj h).symm⟩)
    · obtain ⟨hi, hsimplify⟩ := Classical.not_imp.mp hpass
      rcases hresult : simplify s.f i with - | - | f'
      · rw [step_of_failure hi hresult] at h
        cases h
      · exact absurd hresult hsimplify
      · rw [step_of_rewrite hi hresult] at h
        exact Or.inr (Or.inr ⟨i, f', hi, hresult, (Sum.inl.inj h).symm⟩)

end OptimizationPass

end Xls
