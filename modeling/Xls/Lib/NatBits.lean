/-
# Bits of natural numbers in a range

Facts about single bits of natural numbers: when a bit is set somewhere between two
bounds, a number built by setting a row of bits, and the number whose lowest set
bit is a given one.
-/
import Mathlib.Data.Nat.Bitwise
import Mathlib.Tactic.Ring
import Mathlib.Tactic.NormNum

namespace NatBits

/-- A bit as the parity of a quotient. -/
theorem testBit_iff_div_mod (x p : ℕ) : x.testBit p = true ↔ x / 2 ^ p % 2 = 1 := by
  rw [Nat.testBit_eq_decide_div_mod_eq, decide_eq_true_eq]

theorem div_two_pow_succ (x p : ℕ) : x / 2 ^ (p + 1) = x / 2 ^ p / 2 := by
  rw [pow_succ, Nat.div_div_eq_div_mul]

/-- A bit is set somewhere between two bounds exactly when it is set in a bound or the
bounds differ above it. -/
theorem exists_testBit_between {a b : ℕ} (hab : a ≤ b) (p : ℕ) :
    (∃ x, a ≤ x ∧ x ≤ b ∧ x.testBit p = true) ↔
      a.testBit p = true ∨ b.testBit p = true ∨ a / 2 ^ (p + 1) ≠ b / 2 ^ (p + 1) := by
  constructor
  · rintro ⟨x, hax, hxb, hx⟩
    by_contra hnone
    simp only [testBit_iff_div_mod, div_two_pow_succ] at hnone hx
    have h1 : a / 2 ^ p ≤ x / 2 ^ p := Nat.div_le_div_right hax
    have h2 : x / 2 ^ p ≤ b / 2 ^ p := Nat.div_le_div_right hxb
    omega
  · rintro (ha | hb | hne)
    · exact ⟨a, le_rfl, hab, ha⟩
    · exact ⟨b, hab, le_rfl, hb⟩
    · -- all ones below the common part of the lower bound
      have hpos : 0 < 2 ^ p := Nat.two_pow_pos p
      set q := a / 2 ^ (p + 1) with hq
      have hle : q ≤ b / 2 ^ (p + 1) := Nat.div_le_div_right hab
      have hpow : 2 ^ (p + 1) = 2 * 2 ^ p := by ring
      have ha : a < (q + 1) * 2 ^ (p + 1) := by
        exact Nat.lt_mul_of_div_lt (Nat.lt_succ_self _) (Nat.two_pow_pos _)
      have hb : (q + 1) * 2 ^ (p + 1) ≤ b := by
        rw [← Nat.le_div_iff_mul_le (Nat.two_pow_pos _)]
        omega
      refine ⟨(q + 1) * 2 ^ (p + 1) - 1, by omega, by omega, ?_⟩
      have hform : (q + 1) * 2 ^ (p + 1) - 1 = (2 ^ p - 1) + 2 ^ p * (2 * q + 1) := by
        rw [hpow]
        have : (q + 1) * (2 * 2 ^ p) = 2 ^ p + 2 ^ p * (2 * q + 1) := by ring
        omega
      rw [testBit_iff_div_mod, hform, Nat.add_mul_div_left _ _ hpos, Nat.div_eq_of_lt (by omega)]
      omega

/-- Two numbers have a common set bit exactly when their conjunction is not zero. -/
theorem land_eq_zero_iff (a b : ℕ) :
    a &&& b = 0 ↔ ∀ p, a.testBit p = true → b.testBit p = false := by
  constructor
  · intro h p ha
    have hp : (a &&& b).testBit p = false := by rw [h, Nat.zero_testBit]
    rw [Nat.testBit_land, ha] at hp
    exact hp
  · intro h
    refine Nat.eq_of_testBit_eq fun p => ?_
    rw [Nat.testBit_land, Nat.zero_testBit]
    cases ha : a.testBit p with
    | false => rfl
    | true => rw [h p ha, Bool.and_false]

/-- Setting a row of bits one by one. -/
theorem testBit_foldl_lor (l : List ℕ) :
    ∀ m p, (l.foldl (fun m i => m ||| 2 ^ i) m).testBit p = (m.testBit p || l.contains p) := by
  induction l with
  | nil => intro m p; simp
  | cons i rest ih =>
    intro m p
    rw [List.foldl_cons, ih, Nat.testBit_lor, List.contains_cons]
    by_cases h : i = p
    · simp [h]
    · have : (p == i) = false := by simpa [beq_eq_false_iff_ne] using fun hp => h hp.symm
      simp [h, this]

/-- A number with no bit set up to `p` is a multiple of `2 ^ (p + 1)`. -/
theorem two_pow_dvd_of_testBit {a p : ℕ} (h : ∀ q ≤ p, a.testBit q = false) : 2 ^ (p + 1) ∣ a := by
  rw [Nat.dvd_iff_mod_eq_zero]
  refine Nat.eq_of_testBit_eq fun q => ?_
  rw [Nat.testBit_mod_two_pow, Nat.zero_testBit]
  by_cases hq : q < p + 1
  · rw [h q (by omega), Bool.and_false]
  · simp [hq]

/-- A number with no bit set up to `p`, with bit `p` set on top: `p` is its lowest set
bit. -/
theorem testBit_add_two_pow {a p : ℕ} (h : ∀ q ≤ p, a.testBit q = false) :
    (a + 2 ^ p).testBit p = true ∧ ∀ q < p, (a + 2 ^ p).testBit q = false := by
  obtain ⟨k, rfl⟩ := two_pow_dvd_of_testBit h
  constructor
  · rw [testBit_iff_div_mod, pow_succ, Nat.mul_assoc, Nat.mul_add_div (Nat.two_pow_pos p),
      Nat.div_self (Nat.two_pow_pos p)]
    omega
  · intro q hq
    have hsplit : 2 ^ (p + 1) * k + 2 ^ p = 2 ^ (q + 1) * (2 ^ (p - q) * k + 2 ^ (p - q - 1)) := by
      rw [Nat.mul_add, ← Nat.mul_assoc, ← pow_add, ← pow_add]
      congr 3 <;> omega
    rw [← Bool.not_eq_true, testBit_iff_div_mod, hsplit, pow_succ, Nat.mul_assoc,
      Nat.mul_div_cancel_left _ (Nat.two_pow_pos q)]
    omega

end NatBits
