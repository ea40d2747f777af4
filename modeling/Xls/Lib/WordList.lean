/-
# Numbers as lists of machine words

A list of `k`-bit words, least significant word first, writes the number whose digits in
base `2 ^ k` they are.  Bit `i` of the number is bit `i % k` of word `i / k`
(`testBit_value`), so that an operation on the words is understood through its bits, and
numbers are compared from the most significant word down (`value_take_lt`).
-/
import Mathlib

namespace WordList

variable {k : ℕ}

/-- The number written by a list of words. -/
def value (ws : List (BitVec k)) : ℕ := Nat.ofDigits (2 ^ k) (ws.map BitVec.toNat)

/-- Bit `i` of a list of words. -/
def bit (ws : List (BitVec k)) (i : ℕ) : Bool := (ws.getD (i / k) 0).getLsbD (i % k)

@[simp] theorem value_nil : value ([] : List (BitVec k)) = 0 := rfl

@[simp] theorem value_cons (w : BitVec k) (ws : List (BitVec k)) :
    value (w :: ws) = w.toNat + 2 ^ k * value ws := by
  simp [value, Nat.ofDigits_cons]

theorem value_append (ws vs : List (BitVec k)) :
    value (ws ++ vs) = value ws + 2 ^ (k * ws.length) * value vs := by
  rw [value, List.map_append, Nat.ofDigits_append, List.length_map, ← pow_mul]
  rfl

theorem digits_lt (ws : List (BitVec k)) : ∀ d ∈ ws.map BitVec.toNat, d < 2 ^ k := by
  intro d hd
  obtain ⟨w, -, rfl⟩ := List.mem_map.mp hd
  exact w.isLt

theorem value_lt (hk : 0 < k) (ws : List (BitVec k)) : value ws < 2 ^ (k * ws.length) := by
  have h := Nat.ofDigits_lt_base_pow_length (Nat.one_lt_two_pow hk.ne') (digits_lt ws)
  rwa [List.length_map, ← pow_mul] at h

/-! ## Bits -/

/-- The bits of the number are the bits of the words. -/
theorem testBit_value (hk : 0 < k) (ws : List (BitVec k)) :
    ∀ i, (value ws).testBit i = bit ws i := by
  induction ws with
  | nil => intro i; simp [bit]
  | cons w ws ih =>
    intro i
    rw [value_cons, Nat.add_comm, Nat.testBit_two_pow_mul_add _ w.isLt]
    by_cases hi : i < k
    · simp [hi, bit, Nat.div_eq_of_lt hi, Nat.mod_eq_of_lt hi, BitVec.getLsbD]
    · have hdiv : i / k = (i - k) / k + 1 := by
        rw [Nat.div_eq_sub_div hk (by omega)]
      have hmod : i % k = (i - k) % k := Nat.mod_eq_sub_mod (by omega)
      simp [hi, ih, bit, hdiv, hmod]

variable {ws : List (BitVec k)}

theorem bit_of_le {i : ℕ} (h : ws.length ≤ i / k) : bit ws i = false := by
  rw [bit, List.getD_eq_default _ _ h]
  exact BitVec.getLsbD_zero

/-- Two lists of the same length which write the same number are equal. -/
theorem eq_of_value_eq (hk : 0 < k) {vs : List (BitVec k)} (hl : ws.length = vs.length)
    (h : value ws = value vs) : ws = vs := by
  have hdigits := Nat.ofDigits_inj_of_len_eq (Nat.one_lt_two_pow hk.ne') (by simpa using hl)
    (digits_lt ws) (digits_lt vs) h
  exact (List.map_inj_right fun _ _ hw => BitVec.eq_of_toNat_eq hw).mp hdigits

theorem value_eq_of_bit (hk : 0 < k) {n : ℕ} (h : ∀ i, bit ws i = n.testBit i) : value ws = n :=
  Nat.eq_of_testBit_eq fun i => by rw [testBit_value hk, h]

theorem value_lt_of_bit (hk : 0 < k) {n : ℕ} (h : ∀ i, n ≤ i → bit ws i = false) :
    value ws < 2 ^ n :=
  Nat.lt_pow_two_of_testBit _ fun i hi => by rw [testBit_value hk, h i hi]

/-! ## One word -/

/-- Changing one word changes the bits of that word. -/
theorem bit_modify (ws : List (BitVec k)) (j : ℕ) (f : BitVec k → BitVec k) (i : ℕ) :
    bit (ws.modify j f) i =
      if i / k = j ∧ j < ws.length then (f (ws.getD j 0)).getLsbD (i % k) else bit ws i := by
  unfold bit
  by_cases hij : j = i / k
  · subst hij
    by_cases hlt : i / k < ws.length
    · simp [hlt]
    · simp [hlt]
  · have hne : i / k ≠ j := fun h => hij h.symm
    simp [hij, hne]

/-- The word `j` is a digit of the number. -/
theorem getD_toNat (hk : 0 < k) (ws : List (BitVec k)) (j : ℕ) :
    (ws.getD j 0).toNat = value ws / 2 ^ (k * j) % 2 ^ k := by
  refine Nat.eq_of_testBit_eq fun i => ?_
  rw [Nat.testBit_mod_two_pow, Nat.testBit_div_two_pow, testBit_value hk]
  by_cases hi : i < k
  · have hdiv : (i + k * j) / k = j := by
      rw [Nat.add_mul_div_left _ _ hk, Nat.div_eq_of_lt hi, Nat.zero_add]
    have hmod : (i + k * j) % k = i := by
      rw [Nat.add_mul_mod_self_left, Nat.mod_eq_of_lt hi]
    simp only [bit, hdiv, hmod, hi]
    rfl
  · have hlt : (ws.getD j 0).toNat < 2 ^ i :=
      (BitVec.isLt _).trans_le (Nat.pow_le_pow_right (by norm_num) (by omega))
    rw [Nat.testBit_lt_two_pow hlt, decide_eq_false hi, Bool.false_and]

theorem value_take_succ {n : ℕ} (hn : n < ws.length) :
    value (ws.take (n + 1)) = value (ws.take n) + 2 ^ (k * n) * (ws.getD n 0).toNat := by
  rw [List.take_succ_eq_append_getElem hn, value_append, List.length_take, Nat.min_eq_left hn.le,
    value_cons, value_nil, Nat.mul_zero, Nat.add_zero, List.getD_eq_getElem _ _ hn]

theorem value_take_lt (hk : 0 < k) (ws : List (BitVec k)) (n : ℕ) :
    value (ws.take n) < 2 ^ (k * n) :=
  (value_lt hk _).trans_le (Nat.pow_le_pow_right (by norm_num)
    (Nat.mul_le_mul_left k (List.length_take_le n ws)))

/-- Replacing a word replaces a digit. -/
theorem value_set (ws : List (BitVec k)) : ∀ (j : ℕ) (v : BitVec k), j < ws.length →
    value (ws.set j v) + 2 ^ (k * j) * (ws.getD j 0).toNat = value ws + 2 ^ (k * j) * v.toNat := by
  induction ws with
  | nil => intro j v hj; cases hj
  | cons w ws ih =>
    intro j v hj
    rcases j with _ | j
    · simp only [List.set_cons_zero, value_cons, List.getD_cons_zero]
      ring
    · have htail := ih j v (by simpa using hj)
      calc w.toNat + 2 ^ k * value (ws.set j v) + 2 ^ (k * (j + 1)) * (ws.getD j 0).toNat
          = w.toNat + 2 ^ k * (value (ws.set j v) + 2 ^ (k * j) * (ws.getD j 0).toNat) := by ring
        _ = w.toNat + 2 ^ k * value ws + 2 ^ (k * (j + 1)) * v.toNat := by
            rw [htail]
            ring

/-- Digits below a more significant word do not matter for the order. -/
theorem lt_of_digit_lt {b x y u v : ℕ} (hx : x < b) (h : u < v) : x + b * u < y + b * v := by
  calc x + b * u < b + b * u := by omega
    _ = b * (u + 1) := by ring
    _ ≤ b * v := Nat.mul_le_mul_left _ h
    _ ≤ y + b * v := Nat.le_add_left _ _

end WordList
