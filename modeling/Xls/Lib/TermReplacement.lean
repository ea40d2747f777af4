/-
# Replacing vertices of graphs of terms

A vertex of a graph is replaced by another one with the same value: the uses of it become uses of
the other, and it is removed.  A rank which grows from operands to their users shows that a graph has
no cycles.

* `IsValuation.replaceVertex`, `IsValuation.of_replaceVertex` : the valuations of the two graphs;
* `Rises.make`, `Rises.replaceVertex` : levels, such as a rank, after these edits;
* `IsAcyclic.exists_last` : of some vertices one is used by none of them.
-/
import Xls.Lib.TermGraph
import Mathlib.Data.Finset.Max
import Mathlib.Tactic.SplitIfs

namespace TermGraph

variable {α V : Type} {g : TermGraph α} {n : Vertex α} {i j k : ℕ}

/-! ## Acyclic graphs -/

/-- Some vertices, one of which is used by none of them. -/
theorem IsAcyclic.exists_last (h : g.IsAcyclic) {P : ℕ → Prop}
    (hP : ∀ k, P k → (g.vertex k).isSome = true) (hi : P i) :
    ∃ k, P k ∧ ∀ m, g.UsedBy k m → ¬ P m := by
  classical
  obtain ⟨rank, hrank⟩ := h
  have hlt : ∀ k, P k → k < g.length := by
    intro k hk
    obtain ⟨n, hn⟩ := Option.isSome_iff_exists.mp (hP k hk)
    exact lt_length_of_vertex hn
  obtain ⟨k, hk, hmax⟩ := ((Finset.range g.length).filter P).exists_max_image rank
    ⟨i, Finset.mem_filter.mpr ⟨Finset.mem_range.mpr (hlt i hi), hi⟩⟩
  refine ⟨k, (Finset.mem_filter.mp hk).2, fun m hkm hm => ?_⟩
  have hle := hmax m (Finset.mem_filter.mpr ⟨Finset.mem_range.mpr (hlt m hm), hm⟩)
  exact absurd (hrank.lt hkm) (not_lt.mpr hle)

/-- The level of a user is above that of an operand by the weight of the user, where it has one. -/
def Rises (g : TermGraph α) (weight : α → Option ℕ) (level : ℕ → ℕ) : Prop :=
  ∀ k n w, g.vertex k = some n → weight n.label = some w → ∀ o ∈ n.operands, level o + w ≤ level k

/-- A rank is a level with weight one everywhere. -/
theorem ranks_iff {rank : ℕ → ℕ} : g.Ranks rank ↔ g.Rises (fun _ => some 1) rank := by
  constructor
  · intro h k n w hn hw o ho
    cases hw
    exact h k n hn o ho
  · exact fun h k n hn o ho => h k n 1 hn rfl o ho

variable {weight : α → Option ℕ} {level : ℕ → ℕ} {r : ℕ}

/-- A new vertex gets a level above those of its operands. -/
theorem Rises.make (h : g.Rises weight level) (hbounded : g.Bounded)
    (hn : ∀ o ∈ n.operands, o < g.length ∧ ∀ w, weight n.label = some w → level o + w ≤ r) :
    (g.make n).Rises weight (Function.update level g.length r) := by
  intro k m w hm hw o ho
  by_cases hk : k = g.length
  · rw [hk, vertex_make_length, Option.some.injEq] at hm
    rw [← hm] at ho hw
    obtain ⟨hlt, hr⟩ := hn o ho
    rw [hk, Function.update_self, Function.update_of_ne hlt.ne]
    exact hr w hw
  · rw [vertex_make_of_ne hk] at hm
    rw [Function.update_of_ne hk, Function.update_of_ne (hbounded k m hm o ho).ne]
    exact h k m w hm hw o ho

theorem Ranks.make {rank : ℕ → ℕ} (h : g.Ranks rank) (hbounded : g.Bounded)
    (hn : ∀ o ∈ n.operands, o < g.length ∧ rank o < r) :
    (g.make n).Ranks (Function.update rank g.length r) := by
  refine ranks_iff.mpr ((ranks_iff.mp h).make hbounded fun o ho => ⟨(hn o ho).1, fun w hw => ?_⟩)
  cases hw
  exact (hn o ho).2

/-! ## Replacement -/

/-- The uses of `i` become uses of `j`, and `i` is removed. -/
def replaceVertex (g : TermGraph α) (i j : ℕ) : TermGraph α := (g.replaceUses i j).remove i

theorem vertex_replaceVertex_self : (g.replaceVertex i j).vertex i = none := vertex_remove_self

theorem vertex_replaceVertex_of_ne (hk : k ≠ i) : (g.replaceVertex i j).vertex k =
    (g.vertex k).map fun n => ⟨n.label, n.operands.map (redirect i j)⟩ := by
  rw [replaceVertex, vertex_remove_of_ne hk, vertex_replaceUses]

@[simp] theorem length_replaceVertex : (g.replaceVertex i j).length = g.length := by
  rw [replaceVertex, length_remove, length_replaceUses]

theorem ne_of_vertex_replaceVertex (h : (g.replaceVertex i j).vertex k = some n) : k ≠ i := by
  rintro rfl
  rw [vertex_replaceVertex_self] at h
  cases h

/-- The replaced vertex is not used any more. -/
theorem not_uses_replaceVertex (hij : i ≠ j) : ¬ (g.replaceVertex i j).Uses i := by
  rintro ⟨k, n, hn, hi⟩
  have hk := ne_of_vertex_replaceVertex hn
  rw [replaceVertex, vertex_remove_of_ne hk] at hn
  exact not_uses_replaceUses hij ⟨k, n, hn, hi⟩

theorem Bounded.replaceVertex (h : g.Bounded) (hj : j < g.length) : (g.replaceVertex i j).Bounded := by
  intro k n hn o ho
  have hk := ne_of_vertex_replaceVertex hn
  rw [TermGraph.replaceVertex, vertex_remove_of_ne hk] at hn
  have hlt := h.replaceUses hj k n hn o ho
  rw [length_replaceUses] at hlt
  rw [length_replaceVertex]
  exact hlt

/-- The levels stay right when that of the replacement is no greater. -/
theorem Rises.replaceVertex (h : g.Rises weight level) (hle : level j ≤ level i) :
    (g.replaceVertex i j).Rises weight level := by
  intro k m w hm hw o ho
  rw [vertex_replaceVertex_of_ne (ne_of_vertex_replaceVertex hm), Option.map_eq_some_iff] at hm
  obtain ⟨m', hm', rfl⟩ := hm
  obtain ⟨o', ho', rfl⟩ := List.mem_map.mp ho
  have hrise := h k m' w hm' hw o' ho'
  rw [redirect]
  split_ifs with heq
  · rw [heq] at hrise
    exact (Nat.add_le_add_right hle w).trans hrise
  · exact hrise

theorem Ranks.replaceVertex {rank : ℕ → ℕ} (h : g.Ranks rank) (hle : rank j ≤ rank i) :
    (g.replaceVertex i j).Ranks rank :=
  ranks_iff.mpr ((ranks_iff.mp h).replaceVertex hle)

variable {sem : ℕ → α → List V → Option V} {val : ℕ → V}

/-- A valuation which gives both vertices one value. -/
theorem IsValuation.replaceVertex (h : IsValuation sem g val) (heq : val i = val j) :
    IsValuation sem (g.replaceVertex i j) val := by
  intro k n hn
  have hk := ne_of_vertex_replaceVertex hn
  rw [TermGraph.replaceVertex, vertex_remove_of_ne hk] at hn
  exact (isValuation_replaceUses heq).mpr h k n hn

/-- A valuation after the replacement, when the replaced vertex would have the value of the
replacement. -/
theorem IsValuation.of_replaceVertex (h : IsValuation sem (g.replaceVertex i j) val)
    (hn : g.vertex i = some n) (hi : i ∉ n.operands) (hij : i ≠ j)
    (hsem : sem i n.label (n.operands.map val) = some (val j)) :
    IsValuation sem g (Function.update val i (val j)) := by
  have hval : Function.update val i (val j) i = Function.update val i (val j) j := by
    rw [Function.update_self, Function.update_of_ne (Ne.symm hij)]
  have hvertex : (g.replaceUses i j).vertex i = some ⟨n.label, n.operands.map (redirect i j)⟩ := by
    rw [vertex_replaceUses, hn, Option.map_some]
  refine (isValuation_replaceUses hval).mp ((isValuation_remove hvertex).mpr ⟨?_, ?_⟩)
  · -- the replaced vertex has no part in the rest
    apply h.congr
    intro k m hm
    have hk := ne_of_vertex_replaceVertex hm
    refine ⟨Function.update_of_ne hk _ _, fun o ho => Function.update_of_ne ?_ _ _⟩
    rintro rfl
    exact not_uses_replaceVertex hij ⟨k, m, hm, ho⟩
  · rw [map_redirect hval, Function.update_self, ← hsem]
    congr 1
    apply List.map_congr_left
    intro o ho
    apply Function.update_of_ne
    rintro rfl
    exact hi ho

end TermGraph
