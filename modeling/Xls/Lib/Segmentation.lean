/-
# Divisions of a segment

The positions below `n` are divided into contiguous, non-empty pieces, in order.  A division
is admissible when all its pieces fit, and pays a price at the last position of every piece.
Its last piece begins somewhere, and what is before it is a division of a shorter segment;
so the cheapest division is found from the cheapest ones of the shorter segments
(`Cheapest.concat`), and where a shorter segment has no admissible division a longer one has
none (`Admissible.restrict`).
-/
import Mathlib.Algebra.BigOperators.Group.List.Basic
import Mathlib.Algebra.Order.Monoid.Unbundled.Basic
import Mathlib.Data.List.Range

namespace Segmentation

/-! ## Divisions -/

/-- The pieces are contiguous, disjoint, not empty and in order, and cover what is below `n`. -/
structure Divides (n : ℕ) (pieces : List (List ℕ)) : Prop where
  flatten : pieces.flatten = List.range n
  nonempty : [] ∉ pieces

variable {n t : ℕ} {pieces front : List (List ℕ)}

theorem Divides.zero : Divides 0 [] := ⟨rfl, List.not_mem_nil⟩

theorem Divides.eq_nil (h : Divides 0 pieces) : pieces = [] := by
  rcases pieces with - | ⟨piece, rest⟩
  · rfl
  · have hnil : piece ++ rest.flatten = [] := h.flatten
    obtain ⟨rfl, -⟩ := List.append_eq_nil_iff.mp hnil
    exact absurd (List.mem_cons_self ..) h.nonempty

theorem range_append {t n : ℕ} (h : t ≤ n) :
    List.range t ++ List.range' t (n - t) = List.range n := by
  have happend := List.range'_append_1 (s := 0) (m := t) (n := n - t)
  rwa [Nat.zero_add, Nat.add_sub_cancel' h, ← List.range_eq_range', ← List.range_eq_range']
    at happend

/-- The last position of a piece. -/
theorem getLastD_range' (ht : t < n) : (List.range' t (n - t)).getLastD 0 = n - 1 := by
  obtain ⟨k, hk⟩ : ∃ k, n - t = k + 1 := ⟨n - t - 1, by omega⟩
  rw [hk, List.range'_concat, List.getLastD_concat]
  omega

/-- One more piece. -/
theorem Divides.concat (h : Divides t front) (ht : t < n) :
    Divides n (front ++ [List.range' t (n - t)]) := by
  constructor
  · rw [List.flatten_append, h.flatten, List.flatten_singleton, range_append ht.le]
  · rw [List.mem_append, List.mem_singleton]
    rintro (hmem | hnil)
    · exact h.nonempty hmem
    · have := congrArg List.length hnil
      rw [List.length_range', List.length_nil] at this
      omega

/-- Where the last piece begins. -/
theorem Divides.exists_last (h : Divides n pieces) (hn : 0 < n) : ∃ t front, t < n ∧
    Divides t front ∧ pieces = front ++ [List.range' t (n - t)] := by
  have hne : pieces ≠ [] := by
    rintro rfl
    have := congrArg List.length h.flatten
    rw [List.flatten_nil, List.length_nil, List.length_range] at this
    omega
  obtain ⟨front, last, rfl⟩ : ∃ front last, pieces = front ++ [last] :=
    ⟨_, _, (List.dropLast_append_getLast hne).symm⟩
  have hflat : front.flatten ++ last = List.range n := by
    rw [← h.flatten, List.flatten_append, List.flatten_singleton]
  have hlast : last ≠ [] := fun hnil => h.nonempty (by simp [hnil])
  have hlen : front.flatten.length + last.length = n := by
    rw [← List.length_append, hflat, List.length_range]
  have hpos : 0 < last.length := List.length_pos_iff.mpr hlast
  -- the two parts are as long as the two parts of the range
  rw [← range_append (t := front.flatten.length) (by omega)] at hflat
  obtain ⟨hfront, hrest⟩ := List.append_inj hflat (by rw [List.length_range])
  refine ⟨front.flatten.length, front, by omega, ⟨hfront, fun hmem => ?_⟩, by rw [← hrest]⟩
  exact h.nonempty (List.mem_append_left _ hmem)

/-! ## Admissible divisions -/

/-- A division all of whose pieces fit. -/
structure Admissible (fits : List ℕ → Prop) (n : ℕ) (pieces : List (List ℕ)) : Prop
    extends Divides n pieces where
  allFit : ∀ piece ∈ pieces, fits piece

variable {fits : List ℕ → Prop}

theorem Admissible.zero : Admissible fits 0 [] :=
  ⟨Divides.zero, fun _ h => absurd h List.not_mem_nil⟩

theorem Admissible.concat (h : Admissible fits t front) (ht : t < n)
    (hfits : fits (List.range' t (n - t))) :
    Admissible fits n (front ++ [List.range' t (n - t)]) := by
  refine ⟨h.toDivides.concat ht, fun piece hp => ?_⟩
  rcases List.mem_append.mp hp with hp | hp
  · exact h.allFit piece hp
  · rw [List.mem_singleton.mp hp]
    exact hfits

theorem Admissible.exists_last (h : Admissible fits n pieces) (hn : 0 < n) : ∃ t front, t < n ∧
    Admissible fits t front ∧ fits (List.range' t (n - t)) ∧
      pieces = front ++ [List.range' t (n - t)] := by
  obtain ⟨t, front, ht, hfront, rfl⟩ := h.toDivides.exists_last hn
  refine ⟨t, front, ht, ⟨hfront, fun piece hp => ?_⟩, ?_, rfl⟩
  · exact h.allFit piece (List.mem_append_left _ hp)
  · exact h.allFit _ (List.mem_append_right _ (List.mem_singleton_self _))

/-- When the beginning of what fits fits, a shorter segment has a division where a longer one
has. -/
theorem Admissible.restrict (hfits : ∀ p q : List ℕ, fits (p ++ q) → fits p) {m : ℕ}
    (h : Admissible fits n pieces) (hm : m ≤ n) : ∃ pieces', Admissible fits m pieces' := by
  induction n using Nat.strong_induction_on generalizing pieces with
  | _ n ih =>
    rcases hm.eq_or_lt with rfl | hlt
    · exact ⟨pieces, h⟩
    · obtain ⟨t, front, ht, hfront, hlast, rfl⟩ := h.exists_last (by omega)
      rcases Nat.lt_or_ge t m with htm | htm
      · -- the last piece loses its end
        have hsplit : List.range' t (m - t) ++ List.range' m (n - m) = List.range' t (n - t) := by
          have := List.range'_append_1 (s := t) (m := m - t) (n := n - m)
          rwa [Nat.add_sub_cancel' htm.le, show m - t + (n - m) = n - t by omega] at this
        exact ⟨_, hfront.concat htm (hfits _ _ (hsplit ▸ hlast))⟩
      · exact ih t ht hfront htm

/-! ## Prices -/

section Price

variable {C : Type*} [AddCommMonoid C] (price : ℕ → C)

/-- The prices of the last positions of all pieces. -/
def cost (pieces : List (List ℕ)) : C := (pieces.map fun piece => price (piece.getLastD 0)).sum

@[simp] theorem cost_nil : cost price [] = 0 := rfl

theorem cost_append (front back : List (List ℕ)) :
    cost price (front ++ back) = cost price front + cost price back := by
  rw [cost, List.map_append, List.sum_append, cost, cost]

/-- The last piece pays at the end of the segment. -/
theorem cost_concat (ht : t < n) :
    cost price (front ++ [List.range' t (n - t)]) = cost price front + price (n - 1) := by
  rw [cost_append, cost, cost, List.map_singleton, List.sum_singleton, getLastD_range' ht]

variable [Preorder C]

/-- An admissible division which no other one is cheaper than. -/
structure Cheapest (fits : List ℕ → Prop) (n : ℕ) (pieces : List (List ℕ)) : Prop
    extends Admissible fits n pieces where
  minimal : ∀ other, Admissible fits n other → cost price pieces ≤ cost price other

theorem Cheapest.zero : Cheapest price fits 0 [] :=
  ⟨Admissible.zero, fun other h => by rw [h.eq_nil]⟩

variable {price}

/-- When the part before the last piece is the cheapest among all choices of the last piece,
so is the whole. -/
theorem Cheapest.concat [AddRightMono C] (h : Admissible fits t front) (ht : t < n)
    (hfits : fits (List.range' t (n - t)))
    (hmin : ∀ t' front', t' < n → fits (List.range' t' (n - t')) →
      Admissible fits t' front' → cost price front ≤ cost price front') :
    Cheapest price fits n (front ++ [List.range' t (n - t)]) := by
  refine ⟨h.concat ht hfits, fun other hother => ?_⟩
  obtain ⟨t', front', ht', hfront', hfits', rfl⟩ := hother.exists_last (by omega)
  rw [cost_concat price ht, cost_concat price ht']
  exact add_le_add_left (hmin t' front' ht' hfits' hfront') _

end Price

end Segmentation
