/-
# Signed arithmetic on bits

A vector is the two's complement of its signed value (`ofInt_toInt`).  Here the operations of
`xls/ir/bits_ops.cc` are written in this form, so that a sequence of them is a calculation with
integers.

* `toInt_ofInt_of_bounds` : a value within the range of its width is read back;
* `slice_eq_ofInt`, `shiftRightArith_eq_ofInt` : both divide and round down;
* `sDiv_eq_ofInt` : the signed quotient.
-/
import Xls.Ir.BitmapOps

namespace Xls

/-- `bits_ops::SMul`: the full product of the signed values, as wide as both operands
together. -/
def BitsOps.sMul (lhs rhs : Bits) : Bits :=
  Bits.ofInt (lhs.bitCount + rhs.bitCount) (BitsOps.toInt lhs * BitsOps.toInt rhs)

namespace SignedBits

open BitsOps BitmapBits BitmapOps

@[simp] theorem ofInt_bitCount (w : ℕ) (x : ℤ) : (Bits.ofInt w x).bitCount = w := rfl

/-- A vector is known by its width and its value modulo the range. -/
theorem eq_ofInt_of_emod {b : Bits} {w : ℕ} {x : ℤ} (hw : b.bitCount = w)
    (h : (b.toNat : ℤ) % 2 ^ w = x % 2 ^ w) : b = Bits.ofInt w x := by
  subst hw
  rw [← ofInt_congr h]
  apply eq_ofInt
  have hlt : (b.toNat : ℤ) < 2 ^ b.bitCount := by exact_mod_cast b.isLt
  rw [Int.emod_eq_of_lt (by positivity) hlt]

theorem ofNat_eq_ofInt (w n : ℕ) : Bits.ofNat w n = Bits.ofInt w n := by
  refine eq_ofInt_of_emod (w := w) rfl ?_
  rw [Bits.ofNat_toNat, Int.natCast_mod, Nat.cast_pow, Nat.cast_ofNat, Int.emod_emod]

/-- A value within the range of its width is read back. -/
theorem toInt_ofInt_of_bounds {w : ℕ} {x : ℤ} (hw : 0 < w) (hlow : -2 ^ (w - 1) ≤ x)
    (hhigh : x < 2 ^ (w - 1)) : toInt (Bits.ofInt w x) = x :=
  toInt_ofInt ((minBitCountSigned_le_iff hw).mpr ⟨hlow, hhigh⟩)

/-- The signed value is the unsigned one, less the range when the sign bit is set. -/
theorem exists_toInt_eq (b : Bits) : ∃ k : ℤ, toInt b = b.toNat - k * 2 ^ b.bitCount := by
  unfold toInt
  split
  · exact ⟨1, by rw [one_mul]⟩
  · exact ⟨0, by rw [zero_mul, sub_zero]⟩

theorem add_eq_ofInt (a b : Bits) (hb : b.bitCount = a.bitCount) :
    add a b = Bits.ofInt a.bitCount (toInt a + toInt b) := by
  have hb' := toInt_emod b
  rw [hb] at hb'
  have hsum : (add a b).toNat = (a.toNat + b.toNat) % 2 ^ a.bitCount := rfl
  refine eq_ofInt_of_emod (w := a.bitCount) rfl ?_
  rw [hsum, Int.add_emod (toInt a), toInt_emod a, hb']
  push_cast
  rw [Int.emod_emod, Int.add_emod]

theorem sub_eq_ofInt (a b : Bits) (hb : b.bitCount = a.bitCount) :
    sub a b = Bits.ofInt a.bitCount (toInt a - toInt b) := by
  have hb' := toInt_emod b
  have hlt := b.isLt
  rw [hb] at hb' hlt
  have hdiff : (sub a b).toNat = (a.toNat + (2 ^ a.bitCount - b.toNat)) % 2 ^ a.bitCount := rfl
  have hcast : ((2 ^ a.bitCount - b.toNat : ℕ) : ℤ) = 2 ^ a.bitCount - b.toNat := by
    rw [Nat.cast_sub hlt.le]
    norm_cast
  refine eq_ofInt_of_emod (w := a.bitCount) rfl ?_
  rw [hdiff, Int.sub_emod (toInt a), toInt_emod a, hb', ← Int.sub_emod]
  push_cast
  rw [Int.emod_emod, hcast, show (a.toNat : ℤ) + (2 ^ a.bitCount - b.toNat) =
    a.toNat - b.toNat + 2 ^ a.bitCount by ring, Int.add_emod_right]

theorem negate_eq_ofInt (a : Bits) : negate a = Bits.ofInt a.bitCount (-toInt a) := by
  have hneg : (negate a).toNat = (2 ^ a.bitCount - a.toNat) % 2 ^ a.bitCount := rfl
  have hcast : ((2 ^ a.bitCount - a.toNat : ℕ) : ℤ) = 2 ^ a.bitCount - a.toNat := by
    rw [Nat.cast_sub a.isLt.le]
    norm_cast
  refine eq_ofInt_of_emod (w := a.bitCount) rfl ?_
  rw [hneg, ← zero_sub, Int.sub_emod, toInt_emod a, ← Int.sub_emod]
  push_cast
  rw [Int.emod_emod, hcast, show (2 : ℤ) ^ a.bitCount - a.toNat = 0 - a.toNat + 2 ^ a.bitCount by
    ring, Int.add_emod_right]

theorem toInt_ofInt_emod (w : ℕ) (x : ℤ) : toInt (Bits.ofInt w x) % 2 ^ w = x % 2 ^ w := by
  have hx := toInt_emod (Bits.ofInt w x)
  rwa [ofInt_bitCount, ofInt_toNat, Int.emod_emod] at hx

/-- The difference of two's complements. -/
theorem ofInt_toInt_sub (w : ℕ) (x y : ℤ) :
    Bits.ofInt w (toInt (Bits.ofInt w x) - toInt (Bits.ofInt w y)) = Bits.ofInt w (x - y) := by
  refine ofInt_congr (w := w) ?_
  rw [Int.sub_emod, toInt_ofInt_emod, toInt_ofInt_emod, ← Int.sub_emod]

/-- The negation of a two's complement. -/
theorem ofInt_neg_toInt (w : ℕ) (x : ℤ) :
    Bits.ofInt w (-toInt (Bits.ofInt w x)) = Bits.ofInt w (-x) := by
  refine ofInt_congr (w := w) ?_
  rw [← zero_sub, ← zero_sub x, Int.sub_emod, toInt_ofInt_emod, ← Int.sub_emod]

/-- A quotient by a power of two, taken apart at the range. -/
theorem sub_mul_two_pow_ediv (x k : ℤ) {s w : ℕ} (hs : s ≤ w) :
    (x - k * 2 ^ w) / 2 ^ s = x / 2 ^ s - k * 2 ^ (w - s) := by
  have hsplit : k * 2 ^ w = 2 ^ s * (k * 2 ^ (w - s)) := by
    rw [mul_left_comm, ← pow_add, Nat.add_sub_cancel' hs]
  rw [hsplit, sub_eq_add_neg, ← mul_neg, Int.add_mul_ediv_left _ _ (by positivity), ← sub_eq_add_neg]

/-- A slice divides by a power of two and rounds down. -/
theorem slice_eq_ofInt (b : Bits) {s w : ℕ} (h : s + w ≤ b.bitCount) :
    slice b s w = Bits.ofInt w (toInt b / 2 ^ s) := by
  obtain ⟨k, hk⟩ := exists_toInt_eq b
  have hvalue : (slice b s w).toNat = b.toNat / 2 ^ s % 2 ^ w := rfl
  have hpow : k * (2 : ℤ) ^ (b.bitCount - s) = 2 ^ w * (k * 2 ^ (b.bitCount - s - w)) := by
    rw [mul_left_comm, ← pow_add, Nat.add_sub_cancel' (by omega)]
  refine eq_ofInt_of_emod (w := w) rfl ?_
  rw [hvalue, hk, sub_mul_two_pow_ediv _ _ (by omega), hpow, Int.sub_mul_emod_self_left]
  push_cast
  rw [Int.emod_emod]

/-- An unsigned reading of the same. -/
theorem slice_eq_ofNat (b : Bits) (s w : ℕ) : slice b s w = Bits.ofNat w (b.toNat / 2 ^ s) := rfl

theorem signExtend_eq_ofInt {b : Bits} {w : ℕ} (h : b.bitCount ≤ w) :
    signExtend b w = Bits.ofInt w (toInt b) := by
  apply eq_ofInt_of_emod (signExtend_bitCount h)
  have hcast : ((2 ^ w - 2 ^ b.bitCount : ℕ) : ℤ) = 2 ^ w - 2 ^ b.bitCount := by
    rw [Nat.cast_sub (Nat.pow_le_pow_right (by norm_num) h)]
    norm_cast
  rw [signExtend_toNat h, toInt]
  split
  · rw [Nat.cast_add, hcast, show (b.toNat : ℤ) + (2 ^ w - 2 ^ b.bitCount) =
      b.toNat - 2 ^ b.bitCount + 2 ^ w by ring, Int.add_emod_right]
  · rfl

theorem truncateOrSignExtend_eq_ofInt (b : Bits) (w : ℕ) :
    truncateOrSignExtend b w = Bits.ofInt w (toInt b) := by
  apply eq_ofInt_of_emod (truncateOrSignExtend_bitCount b w)
  rw [truncateOrSignExtend_toNat, Int.emod_emod]

/-- The signed quotient. -/
theorem sDiv_eq_ofInt (a : Bits) {b : Bits} (hb : b.toNat ≠ 0) :
    sDiv a b = Bits.ofInt a.bitCount ((toInt a).tdiv (toInt b)) := by
  rw [sDiv, if_neg (by simpa [Bits.isZero] using hb), truncateOrSignExtend_eq_ofInt,
    toInt_toSignedBits]

/-- The full product is read back. -/
theorem toInt_sMul (a b : Bits) : toInt (sMul a b) = toInt a * toInt b :=
  toInt_ofInt (minBitCountSigned_mul a b)

/-- All signed values of a width lie between these bounds. -/
theorem toInt_range (b : Bits) : -2 ^ b.bitCount ≤ toInt b ∧ toInt b < 2 ^ b.bitCount := by
  have hlt : (b.toNat : ℤ) < 2 ^ b.bitCount := by exact_mod_cast b.isLt
  unfold toInt
  split
  · exact ⟨by omega, by omega⟩
  · exact ⟨by omega, hlt⟩

/-- Shifts by more than the width give the sign. -/
theorem toInt_ediv_min (b : Bits) (k : ℕ) : toInt b / 2 ^ min k b.bitCount = toInt b / 2 ^ k := by
  rcases Nat.le_total k b.bitCount with hk | hk
  · rw [Nat.min_eq_left hk]
  · rw [Nat.min_eq_right hk]
    obtain ⟨hlow, hhigh⟩ := toInt_range b
    have hpow : (2 : ℤ) ^ b.bitCount ≤ 2 ^ k := pow_le_pow_right₀ (by norm_num) hk
    by_cases hneg : toInt b < 0
    · have hone : ∀ p : ℤ, 2 ^ b.bitCount ≤ p → toInt b / p = -1 := by
        intro p hp
        rw [Int.ediv_eq_iff_of_pos (by omega)]
        exact ⟨by omega, by omega⟩
      rw [hone _ le_rfl, hone _ hpow]
    · rw [Int.ediv_eq_zero_of_lt (by omega) (by omega),
        Int.ediv_eq_zero_of_lt (by omega) (by omega)]

theorem toNat_slice_of_le (b : Bits) {k : ℕ} (hk : k ≤ b.bitCount) :
    (slice b k (b.bitCount - k)).toNat = b.toNat / 2 ^ k := by
  apply Nat.mod_eq_of_lt
  apply Nat.div_lt_of_lt_mul
  rw [← pow_add, Nat.add_sub_cancel' hk]
  exact b.isLt

/-- An arithmetic shift divides by a power of two and rounds down. -/
theorem shiftRightArith_eq_ofInt (b : Bits) (k : ℕ) :
    shiftRightArith b k = Bits.ofInt b.bitCount (toInt b / 2 ^ k) := by
  rw [← toInt_ediv_min]
  unfold shiftRightArith
  generalize hs : min k b.bitCount = s
  have hle : s ≤ b.bitCount := hs ▸ Nat.min_le_right _ _
  have hq : (slice b s (b.bitCount - s)).toNat = b.toNat / 2 ^ s := toNat_slice_of_le b hle
  have hsplit : (2 : ℤ) ^ s * 2 ^ (b.bitCount - s) = 2 ^ b.bitCount := by
    rw [← pow_add, Nat.add_sub_cancel' hle]
  apply eq_ofInt_of_emod
  · split <;> simp [Nat.add_sub_cancel' hle]
  · simp only [append_toNat, slice_bitCount, hq]
    rw [toInt]
    split
    · have hcast : ((2 ^ s - 1 : ℕ) : ℤ) = 2 ^ s - 1 := by
        rw [Nat.cast_sub Nat.one_le_two_pow]
        norm_cast
      have hsub := sub_mul_two_pow_ediv b.toNat 1 hle
      rw [one_mul, one_mul] at hsub
      rw [hsub, Bits.allOnes_toNat, Nat.cast_add, Nat.cast_mul, hcast]
      push_cast
      rw [show ((2 : ℤ) ^ s - 1) * 2 ^ (b.bitCount - s) + b.toNat / 2 ^ s =
        b.toNat / 2 ^ s - 2 ^ (b.bitCount - s) + 2 ^ s * 2 ^ (b.bitCount - s) by ring, hsplit,
        Int.add_emod_right]
    · rw [Bits.zero_toNat, Nat.zero_mul, Nat.zero_add]
      rfl

theorem shiftRightArith_bitCount (b : Bits) (k : ℕ) :
    (shiftRightArith b k).bitCount = b.bitCount := by
  rw [shiftRightArith_eq_ofInt]
  rfl

/-- A logical shift divides the unsigned value. -/
theorem shiftRightLogical_eq_ofNat (b : Bits) (k : ℕ) :
    shiftRightLogical b k = Bits.ofNat b.bitCount (b.toNat / 2 ^ k) := by
  have hlt := b.isLt
  unfold shiftRightLogical
  have hwidth : min k b.bitCount + (b.bitCount - min k b.bitCount) = b.bitCount := by omega
  apply Bits.ext
  · simp only [append_bitCount, Bits.zero_bitCount, slice_bitCount, Bits.ofNat_bitCount, hwidth]
  · simp only [append_toNat, Bits.zero_toNat, Nat.zero_mul, Nat.zero_add, Bits.ofNat_toNat]
    rw [toNat_slice_of_le b (Nat.min_le_right _ _),
      Nat.mod_eq_of_lt (lt_of_le_of_lt (Nat.div_le_self _ _) hlt)]
    rcases Nat.le_total k b.bitCount with hk | hk
    · rw [Nat.min_eq_left hk]
    · rw [Nat.min_eq_right hk, Nat.div_eq_of_lt hlt, Nat.div_eq_of_lt
        (lt_of_lt_of_le hlt (Nat.pow_le_pow_right (by norm_num) hk))]

end SignedBits

end Xls
