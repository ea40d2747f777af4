/-
# The elements of a set in order

The order in which a loop over a sorted set visits the elements.
-/
import Mathlib.Data.Finset.Sort

namespace Finset

variable {V : Type} [LinearOrder V] {s : Finset V} {v : V}

/-- The elements, the smallest one first. -/
def inOrder (s : Finset V) : List V := s.sort

@[simp]
theorem mem_inOrder : v ∈ s.inOrder ↔ v ∈ s := Finset.mem_sort _

theorem inOrder_ne_nil : s.inOrder ≠ [] ↔ ∃ v, v ∈ s := by
  rw [inOrder, ← List.length_pos_iff, Finset.length_sort, Finset.card_pos]
  exact Iff.rfl

end Finset
