/-
# The smallest elements of a sorted list

A prefix of a list sorted by weight weighs no more than any other choice of at least as many
of its elements, and a prefix is recognised by the keys of its elements.
-/
import Mathlib

namespace SmallestPrefix

variable {α β : Type} {f : α → ℕ}

/-- An element before a sorted list weighs no more than the element behind a prefix. -/
theorem add_sum_take_le {a : α} {l : List α} (ha : ∀ b ∈ l, f a ≤ f b) {n : ℕ}
    (hn : n < l.length) : f a + ((l.take n).map f).sum ≤ ((l.take (n + 1)).map f).sum := by
  rw [List.take_add_one, List.getElem?_eq_getElem hn, Option.toList_some, List.map_append,
    List.sum_append, List.map_singleton, Nat.add_comm]
  exact Nat.add_le_add_left (ha _ (List.getElem_mem hn)) _

/-- A prefix of a sorted list weighs no more than another choice of as many elements. -/
theorem sum_take_le_sum_filter {l : List α} (h : l.Pairwise fun a b => f a ≤ f b)
    (p : α → Bool) {n : ℕ} (hn : n ≤ (l.filter p).length) :
    ((l.take n).map f).sum ≤ ((l.filter p).map f).sum := by
  induction l generalizing n with
  | nil => simp
  | cons a l ih =>
    rw [List.pairwise_cons] at h
    rcases n with _ | n
    · simp
    · by_cases hp : p a
      · -- the first element is chosen as well
        rw [List.filter_cons_of_pos hp, List.length_cons] at hn
        rw [List.filter_cons_of_pos hp, List.take_succ_cons, List.map_cons, List.map_cons]
        exact Nat.add_le_add_left (ih h.2 (by omega)) _
      · rw [List.filter_cons_of_neg hp] at hn ⊢
        have hlength : n < l.length :=
          lt_of_lt_of_le (Nat.lt_of_succ_le hn) (List.length_filter_le p l)
        exact (add_sum_take_le h.1 hlength).trans (ih h.2 hn)

/-- The elements whose keys are among those of a prefix are the prefix. -/
theorem filter_key_mem_take {key : α → β} {l : List α} (h : (l.map key).Nodup) {n : ℕ}
    {q : α → Bool} (hq : ∀ a, q a = true ↔ key a ∈ (l.take n).map key) :
    l.filter q = l.take n := by
  have htake : ∀ a ∈ l.take n, q a = true := fun a ha => (hq a).mpr (List.mem_map_of_mem ha)
  have hdrop : ∀ a ∈ l.drop n, ¬ q a = true := by
    intro a ha hqa
    rw [← List.take_append_drop n l, List.map_append] at h
    exact (List.nodup_append.mp h).2.2 _ ((hq a).mp hqa) _ (List.mem_map_of_mem ha) rfl
  calc l.filter q = (l.take n ++ l.drop n).filter q := by rw [List.take_append_drop]
    _ = l.take n := by
      rw [List.filter_append, List.filter_eq_self.mpr htake, List.filter_eq_nil_iff.mpr hdrop,
        List.append_nil]

end SmallestPrefix
