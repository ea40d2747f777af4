/-
# Division by multiplication

A fixed-point number `m / 2 ^ scale` which is above `1 / d`, but not by more than one part in
`2 ^ prec`, replaces the division by `d` of the numbers below `2 ^ prec`.

* `IsReciprocal.mul_div_eq` : the quotient of natural numbers;
* `IsReciprocal.mul_ediv_eq` : the quotient of integers, truncated toward zero;
* `IsReciprocal.of_quotients` : such a number is found between two quotients, and stays one while
  they are halved and differ.
-/
import Mathlib.Tactic.Ring
import Mathlib.Tactic.Linarith
import Mathlib.Tactic.Positivity
import Mathlib.Algebra.Order.Ring.Nat

/-- `m / 2 ^ scale` is above `1 / d` by at most `1 / (d * 2 ^ prec)`. -/
structure IsReciprocal (m d scale prec : ℕ) : Prop where
  prec_le : prec ≤ scale
  lt : 2 ^ scale < m * d
  le : m * d ≤ 2 ^ scale + 2 ^ (scale - prec)

namespace IsReciprocal

variable {m d scale prec : ℕ}

section

variable (h : IsReciprocal m d scale prec)

include h

theorem pos : 0 < d := by
  by_contra hd
  have hlt := h.lt
  rw [Nat.eq_zero_of_not_pos hd] at hlt
  exact Nat.not_lt_zero _ hlt

/-- The error of a product, scaled up. -/
theorem error_mul_le {n : ℕ} (hn : n ≤ 2 ^ prec) : m * d * n ≤ 2 ^ scale * n + 2 ^ scale := by
  calc m * d * n ≤ (2 ^ scale + 2 ^ (scale - prec)) * n := Nat.mul_le_mul_right n h.le
    _ = 2 ^ scale * n + 2 ^ (scale - prec) * n := Nat.add_mul ..
    _ ≤ 2 ^ scale * n + 2 ^ (scale - prec) * 2 ^ prec :=
        Nat.add_le_add_left (Nat.mul_le_mul_left _ hn) _
    _ = 2 ^ scale * n + 2 ^ scale := by rw [← pow_add, Nat.sub_add_cancel h.prec_le]

/-- The quotient of a number below `2 ^ prec`. -/
theorem mul_div_eq {n : ℕ} (hn : n < 2 ^ prec) : m * n / 2 ^ scale = n / d := by
  have hd := h.pos
  have hlow := Nat.div_mul_le_self n d
  have hhigh : n + 1 ≤ (n / d + 1) * d := Nat.lt_mul_of_div_lt (Nat.lt_succ_self _) hd
  apply Nat.div_eq_of_lt_le
  · -- the product is not below the quotient
    refine Nat.le_of_mul_le_mul_right ?_ hd
    calc n / d * 2 ^ scale * d = 2 ^ scale * (n / d * d) := by ring
      _ ≤ m * d * n := Nat.mul_le_mul h.lt.le hlow
      _ = m * n * d := by ring
  · -- and the error does not reach the next one
    refine Nat.lt_of_mul_lt_mul_right (a := d) ?_
    have hdn : m * d * n < 2 ^ scale * (n + 1) := by
      have hstrict : m * d * n ≤ 2 ^ scale * n + 2 ^ (scale - prec) * n := by
        rw [← Nat.add_mul]
        exact Nat.mul_le_mul_right n h.le
      have herror : 2 ^ (scale - prec) * n < 2 ^ scale := by
        calc 2 ^ (scale - prec) * n < 2 ^ (scale - prec) * 2 ^ prec :=
              Nat.mul_lt_mul_of_pos_left hn (Nat.two_pow_pos _)
          _ = 2 ^ scale := by rw [← pow_add, Nat.sub_add_cancel h.prec_le]
      rw [Nat.mul_succ]
      omega
    calc m * n * d = m * d * n := by ring
      _ < 2 ^ scale * (n + 1) := hdn
      _ ≤ 2 ^ scale * ((n / d + 1) * d) := Nat.mul_le_mul_left _ hhigh
      _ = (n / d + 1) * 2 ^ scale * d := by ring

/-- Rounded up, the product with a positive number is one above the quotient. -/
theorem ceil_mul_div {n : ℕ} (hpos : 0 < n) (hn : n ≤ 2 ^ prec) :
    n / d * 2 ^ scale < m * n ∧ m * n ≤ (n / d + 1) * 2 ^ scale := by
  have hd := h.pos
  have hlow := Nat.div_mul_le_self n d
  have hhigh : n + 1 ≤ (n / d + 1) * d := Nat.lt_mul_of_div_lt (Nat.lt_succ_self _) hd
  constructor
  · refine Nat.lt_of_mul_lt_mul_right (a := d) ?_
    calc n / d * 2 ^ scale * d = 2 ^ scale * (n / d * d) := by ring
      _ ≤ 2 ^ scale * n := Nat.mul_le_mul_left _ hlow
      _ < m * d * n := Nat.mul_lt_mul_of_pos_right h.lt hpos
      _ = m * n * d := by ring
  · refine Nat.le_of_mul_le_mul_right ?_ hd
    calc m * n * d = m * d * n := by ring
      _ ≤ 2 ^ scale * n + 2 ^ scale := h.error_mul_le hn
      _ = 2 ^ scale * (n + 1) := by ring
      _ ≤ 2 ^ scale * ((n / d + 1) * d) := Nat.mul_le_mul_left _ hhigh
      _ = (n / d + 1) * 2 ^ scale * d := by ring

/-- The quotient of an integer: rounded down, the product is one below it for a negative
number. -/
theorem mul_ediv_eq {n : ℤ} (hlow : -2 ^ prec ≤ n) (hhigh : n < 2 ^ prec) :
    (m : ℤ) * n / 2 ^ scale = n.tdiv d - if n < 0 then 1 else 0 := by
  by_cases hneg : n < 0
  · obtain ⟨k, rfl⟩ : ∃ k : ℕ, n = -(k : ℤ) := ⟨n.natAbs, by omega⟩
    have hk : k ≤ 2 ^ prec := by
      have : (k : ℤ) ≤ 2 ^ prec := by omega
      exact_mod_cast this
    obtain ⟨hlt, hle⟩ := h.ceil_mul_div (by omega : 0 < k) hk
    have hlt' : ((k / d : ℕ) : ℤ) * 2 ^ scale < m * k := by exact_mod_cast hlt
    have hle' : (m : ℤ) * k ≤ ((k / d : ℕ) + 1) * 2 ^ scale := by exact_mod_cast hle
    have hpow : (0 : ℤ) < 2 ^ scale := by positivity
    rw [if_pos hneg, Int.neg_tdiv, ← Int.ofNat_tdiv, Int.ediv_eq_iff_of_pos hpow]
    constructor
    · nlinarith
    · nlinarith
  · obtain ⟨k, rfl⟩ : ∃ k : ℕ, n = k := ⟨n.toNat, by omega⟩
    have hk : k < 2 ^ prec := by exact_mod_cast hhigh
    rw [if_neg hneg, ← Int.ofNat_tdiv, ← h.mul_div_eq hk]
    rfl

end

/-- Between two quotients, halved any number of times, lies a reciprocal while they differ. -/
theorem of_quotients {e k : ℕ} (hd : 0 < d) (hk : prec + k ≤ e)
    (hlt : 2 ^ e / d / 2 ^ k < (2 ^ e + 2 ^ (e - prec)) / d / 2 ^ k) :
    IsReciprocal ((2 ^ e + 2 ^ (e - prec)) / d / 2 ^ k) d (e - k) prec := by
  have hlow : 2 ^ e / d / 2 ^ k = 2 ^ (e - k) / d := by
    rw [Nat.div_right_comm, Nat.pow_div (by omega) (by norm_num)]
  have hhigh : (2 ^ e + 2 ^ (e - prec)) / d / 2 ^ k = (2 ^ (e - k) + 2 ^ (e - k - prec)) / d := by
    have hsplit : 2 ^ e + 2 ^ (e - prec) = (2 ^ (e - k) + 2 ^ (e - k - prec)) * 2 ^ k := by
      rw [Nat.add_mul, ← pow_add, ← pow_add, Nat.sub_add_cancel (by omega),
        show e - k - prec + k = e - prec by omega]
    rw [Nat.div_right_comm, hsplit, Nat.mul_div_cancel _ (Nat.two_pow_pos k)]
  rw [hlow] at hlt
  refine ⟨by omega, ?_, ?_⟩
  · calc 2 ^ (e - k) < (2 ^ (e - k) / d + 1) * d :=
          Nat.lt_mul_of_div_lt (Nat.lt_succ_self _) hd
      _ ≤ _ := Nat.mul_le_mul_right d hlt
  · rw [hhigh]
    exact Nat.div_mul_le_self _ d

end IsReciprocal
