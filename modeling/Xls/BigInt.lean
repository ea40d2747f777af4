/-
# Big integers and the divisions of `bits_ops`

`xls/ir/big_int.cc` wraps an arbitrary-precision library; a `BigInt` is an integer here,
its division truncates toward zero and its remainder has the sign of the dividend.  The
conversions to bits follow the source: a signed value takes the fewest bits of a
two's-complement number, none at all when it is zero.  Over them stand `UMod`, `SDiv` and
`SMod` of `xls/ir/bits_ops.cc`.

* `toInt_toSignedBits` : `MakeSigned` reads back what `ToSignedBits` wrote;
* `truncateOrSignExtend_toNat` : truncation or extension is reduction modulo a power of two.
-/
import Xls.Bits

namespace Xls

namespace BigInt

/-- `BigInt::SignedBitCount`. -/
def signedBitCount (x : ℤ) : ℕ :=
  if x = 0 then 0
  else if x < 0 then Nat.size (x.natAbs - 1) + 1
  else Nat.size x.natAbs + 1

/-- `BigInt::ToSignedBits`: a negative value is stored as its magnitude minus one,
inverted, below a set sign bit. -/
def toSignedBits (x : ℤ) : Bits :=
  if x = 0 then Bits.zero 0
  else
    let width := signedBitCount x - 1
    if x < 0 then
      BitsOps.append (Bits.allOnes 1) (Bits.ofNat width (2 ^ width - 1 - (x.natAbs - 1)))
    else BitsOps.append (Bits.zero 1) (Bits.ofNat width x.natAbs)

/-- `BigInt::ToUnsignedBits`. -/
def toUnsignedBits (n : ℕ) : Bits := ⟨Nat.size n, n, Nat.lt_size_self n⟩

/-! The functions below are called on values which are not negative. -/

/-- `BigInt::Exp2`: the exponent must fit an `int` and not be negative. -/
def exp2 (e : ℤ) : Option ℕ :=
  if e < 0 then none
  else if e = 0 then some 1
  else if e ≤ 2 ^ 31 - 1 then some (2 ^ e.toNat)
  else none

/-- `BigInt::Div`; the library fails on a division by zero. -/
def div (lhs rhs : ℕ) : Option ℕ := if rhs = 0 then none else some (lhs / rhs)

/-- `BigInt::IsEven`. -/
def isEven (input : ℕ) : Bool := input % 2 == 0

/-- `BigInt::IsPowerOfTwo`. -/
def isPowerOfTwo (input : ℕ) : Option Bool :=
  if input < 1 then some false
  else do
    let power ← exp2 (Nat.size input - 1)
    some (decide (power = input))

/-- `BigInt::CeilingLog2`. -/
def ceilingLog2 (input : ℕ) : Option ℤ :=
  if input = 0 then some (-2 ^ 63)
  else if input = 1 then some 0
  else do
    let power ← exp2 (Nat.size input - 1)
    some (if power = input then Nat.size input - 1 else Nat.size input)

/-- The loop of `FactorizePowerOfTwo`, which halves its number in every round. -/
def factorizeLoop : ℕ → ℕ → ℕ → ℕ × ℕ
  | 0, x, power => (x, power)
  | rounds + 1, x, power =>
    if isEven x ∧ x ≠ 0 then factorizeLoop rounds (x / 2) (power + 1) else (x, power)

/-- `BigInt::FactorizePowerOfTwo`: the odd factor and the exponent. -/
def factorizePowerOfTwo (input : ℕ) : ℕ × ℕ := factorizeLoop (Nat.size input) input 0

theorem exp2_natCast {e : ℕ} (h : e < 2 ^ 31) : exp2 e = some (2 ^ e) := by
  unfold exp2
  rw [if_neg (by omega)]
  split
  · rename_i h0
    have h0 : e = 0 := by exact_mod_cast h0
    rw [h0, pow_zero]
  · rw [if_pos (by omega)]
    rfl

theorem exp2_eq_none {e : ℤ} (h : 2 ^ 31 ≤ e) : exp2 e = none := by
  unfold exp2
  rw [if_neg (by omega), if_neg (by omega), if_neg (by omega)]

/-- The leading bit of a number is worth at most the number. -/
theorem two_pow_size_sub_one_le {n : ℕ} (hn : n ≠ 0) : 2 ^ (n.size - 1) ≤ n := by
  have hpos : 0 < n.size := Nat.size_pos.mpr (Nat.pos_of_ne_zero hn)
  exact Nat.lt_size.mp (by omega)

theorem exp2_size_sub_one {n : ℕ} (hn : n ≠ 0) (h : n.size ≤ 2 ^ 31) :
    exp2 (n.size - 1) = some (2 ^ (n.size - 1)) := by
  have hpos : 0 < n.size := Nat.size_pos.mpr (Nat.pos_of_ne_zero hn)
  rw [← exp2_natCast (by omega), Nat.cast_sub hpos]
  rfl

theorem isPowerOfTwo_eq {n : ℕ} (hsize : n.size ≤ 2 ^ 31) (hpow : ∀ k, n ≠ 2 ^ k) :
    isPowerOfTwo n = some false := by
  unfold isPowerOfTwo
  split
  · rfl
  · rw [exp2_size_sub_one (by omega) hsize]
    simp only [Option.bind_eq_bind, Option.bind_some, Option.some.injEq, decide_eq_false_iff_not]
    exact fun heq => hpow _ heq.symm

/-- The logarithm, rounded up. -/
theorem ceilingLog2_eq {n : ℕ} (hn : n ≠ 0) (hsize : n.size ≤ 2 ^ 31) :
    ceilingLog2 n = some (Nat.clog 2 n : ℤ) := by
  have hlt := Nat.lt_size_self n
  have hle := two_pow_size_sub_one_le hn
  have hpos : 0 < n.size := Nat.size_pos.mpr (Nat.pos_of_ne_zero hn)
  unfold ceilingLog2
  rw [if_neg hn]
  split
  · rename_i h1
    subst h1
    rfl
  · rw [exp2_size_sub_one hn hsize]
    simp only [Option.bind_eq_bind, Option.bind_some]
    split
    · rename_i heq
      have hclog : Nat.clog 2 n = n.size - 1 := by
        have hpow := Nat.clog_pow 2 (n.size - 1) (by norm_num)
        rwa [heq] at hpow
      rw [hclog, Nat.cast_sub hpos]
      rfl
    · rename_i hne
      have hclog : Nat.clog 2 n = n.size := by
        apply le_antisymm
        · exact Nat.clog_le_of_le_pow hlt.le
        · by_contra hlow
          have hpow : n ≤ 2 ^ (n.size - 1) :=
            (Nat.le_pow_clog (by norm_num) n).trans (Nat.pow_le_pow_right (by norm_num) (by omega))
          exact hne (le_antisymm hle hpow)
      rw [hclog]

theorem factorizeLoop_spec {rounds : ℕ} : ∀ (x power : ℕ), x ≠ 0 → x < 2 ^ rounds →
    ∃ e, (factorizeLoop rounds x power).2 = power + e ∧
      x = (factorizeLoop rounds x power).1 * 2 ^ e ∧ (factorizeLoop rounds x power).1 % 2 = 1 := by
  induction rounds with
  | zero =>
    intro x power hx hlt
    omega
  | succ rounds ih =>
    intro x power hx hlt
    rw [factorizeLoop]
    by_cases heven : isEven x ∧ x ≠ 0
    · have hmod : x % 2 = 0 := by simpa [isEven] using heven.1
      rw [if_pos heven]
      obtain ⟨e, hpower, hfactor, hodd⟩ :=
        ih (x / 2) (power + 1) (by omega) (by omega)
      refine ⟨e + 1, by rw [hpower]; ring, ?_, hodd⟩
      rw [pow_succ, ← mul_assoc]
      omega
    · have hmod : x % 2 ≠ 0 := fun h => heven ⟨by simpa [isEven] using h, hx⟩
      rw [if_neg heven]
      exact ⟨0, rfl, by rw [pow_zero, mul_one], by omega⟩

/-- An odd number times a power of two. -/
theorem factorizePowerOfTwo_spec {n : ℕ} (hn : n ≠ 0) :
    n = (factorizePowerOfTwo n).1 * 2 ^ (factorizePowerOfTwo n).2 ∧
      (factorizePowerOfTwo n).1 % 2 = 1 := by
  obtain ⟨e, hpower, hfactor, hodd⟩ := factorizeLoop_spec n 0 hn (Nat.lt_size_self n)
  unfold factorizePowerOfTwo
  rw [hpower, zero_add]
  exact ⟨hfactor, hodd⟩

end BigInt

namespace BitsOps

/-- `TruncateOrSignExtend`. -/
def truncateOrSignExtend (bits : Bits) (bitCount : ℕ) : Bits :=
  if bits.bitCount = bitCount then bits
  else if bits.bitCount < bitCount then signExtend bits bitCount
  else slice bits 0 bitCount

/-- `bits_ops::UMod`: zero on division by zero. -/
def uMod (lhs rhs : Bits) : Bits :=
  if rhs.isZero then Bits.zero rhs.bitCount
  else zeroExtend (BigInt.toUnsignedBits (lhs.toNat % rhs.toNat)) rhs.bitCount

/-- `bits_ops::SDiv`: on division by zero the largest value of the sign of the dividend. -/
def sDiv (lhs rhs : Bits) : Bits :=
  if rhs.isZero then
    if lhs.bitCount = 0 then Bits.zero 0
    else if sLessThan lhs (Bits.zero lhs.bitCount) then
      concat [Bits.ofNat 1 1, Bits.zero (lhs.bitCount - 1)]
    else zeroExtend (Bits.allOnes (lhs.bitCount - 1)) lhs.bitCount
  else
    truncateOrSignExtend (BigInt.toSignedBits ((toInt lhs).tdiv (toInt rhs))) lhs.bitCount

/-- `bits_ops::SMod`: zero on division by zero. -/
def sMod (lhs rhs : Bits) : Bits :=
  if rhs.isZero then Bits.zero rhs.bitCount
  else truncateOrSignExtend (BigInt.toSignedBits ((toInt lhs).tmod (toInt rhs))) rhs.bitCount

/-! ## Signed values -/

/-- The unsigned value is the signed one modulo the range. -/
theorem toNat_eq_toInt_emod (b : Bits) : (b.toNat : ℤ) = toInt b % 2 ^ b.bitCount := by
  have hlt : (b.toNat : ℤ) < 2 ^ b.bitCount := by exact_mod_cast b.isLt
  unfold toInt
  split
  · rw [Int.sub_emod, Int.emod_self, sub_zero, Int.emod_emod_of_dvd _ dvd_rfl,
      Int.emod_eq_of_lt (by positivity) hlt]
  · rw [Int.emod_eq_of_lt (by positivity) hlt]

/-- A number below half of the range of its width is its own signed value. -/
theorem toInt_append_zero (b : Bits) : toInt (append (Bits.zero 1) b) = b.toNat := by
  have hlt := b.isLt
  have hval : (append (Bits.zero 1) b).toNat = b.toNat := by simp [append_toNat]
  have hmsb : (append (Bits.zero 1) b).msb = false := by
    rw [← Bool.not_eq_true, msb_eq_true_iff]
    rintro ⟨-, hle⟩
    rw [append_bitCount, Bits.zero_bitCount, Nat.add_sub_cancel_left] at hle
    omega
  rw [toInt, hmsb, hval]
  rfl

/-- Below a set sign bit. -/
theorem toInt_append_allOnes (b : Bits) :
    toInt (append (Bits.allOnes 1) b) = (b.toNat : ℤ) - 2 ^ b.bitCount := by
  have hval : (append (Bits.allOnes 1) b).toNat = 2 ^ b.bitCount + b.toNat := by
    simp [append_toNat]
  have hmsb : (append (Bits.allOnes 1) b).msb = true := by
    rw [msb_eq_true_iff, append_bitCount, Bits.allOnes_bitCount, Nat.add_sub_cancel_left]
    omega
  rw [toInt, hmsb, if_pos rfl, hval, append_bitCount, Bits.allOnes_bitCount]
  push_cast
  ring

/-- `MakeSigned` reads back what `ToSignedBits` wrote. -/
theorem toInt_toSignedBits (x : ℤ) : toInt (BigInt.toSignedBits x) = x := by
  unfold BigInt.toSignedBits BigInt.signedBitCount
  by_cases h0 : x = 0
  · subst h0
    rfl
  · by_cases hneg : x < 0
    · have hsize := Nat.lt_size_self (x.natAbs - 1)
      simp only [h0, hneg, if_false, if_true, Nat.add_sub_cancel]
      rw [toInt_append_allOnes, Bits.ofNat_toNat, Bits.ofNat_bitCount, Nat.mod_eq_of_lt (by omega)]
      have hcast : ((2 ^ (x.natAbs - 1).size : ℕ) : ℤ) = 2 ^ (x.natAbs - 1).size := by norm_cast
      omega
    · have hsize := Nat.lt_size_self x.natAbs
      simp only [h0, hneg, if_false, Nat.add_sub_cancel]
      rw [toInt_append_zero, Bits.ofNat_toNat, Nat.mod_eq_of_lt hsize]
      omega

theorem truncateOrSignExtend_bitCount (b : Bits) (w : ℕ) :
    (truncateOrSignExtend b w).bitCount = w := by
  unfold truncateOrSignExtend
  split
  · assumption
  · split
    · exact signExtend_bitCount (by omega)
    · rfl

/-- Truncation or sign extension reduces the signed value modulo the new range. -/
theorem truncateOrSignExtend_toNat (b : Bits) (w : ℕ) :
    ((truncateOrSignExtend b w).toNat : ℤ) = toInt b % 2 ^ w := by
  have hlt : (b.toNat : ℤ) < 2 ^ b.bitCount := by exact_mod_cast b.isLt
  unfold truncateOrSignExtend
  split
  · rename_i heq
    rw [toNat_eq_toInt_emod, heq]
  · split
    · rename_i hne hw
      have hpow : (2 : ℤ) ^ b.bitCount ≤ 2 ^ w := pow_le_pow_right₀ (by norm_num) hw.le
      rw [signExtend_toNat hw.le, toInt]
      split
      · -- a negative value: the range is added once
        have hcast : ((2 ^ w - 2 ^ b.bitCount : ℕ) : ℤ) = 2 ^ w - 2 ^ b.bitCount := by
          rw [Nat.cast_sub (Nat.pow_le_pow_right (by norm_num) hw.le)]
          norm_cast
        rw [Nat.cast_add, hcast, ← Int.add_emod_right, Int.emod_eq_of_lt (by omega) (by omega)]
        ring
      · rw [Int.emod_eq_of_lt (by positivity) (by omega)]
    · have hdvd : (2 : ℤ) ^ w ∣ 2 ^ b.bitCount := pow_dvd_pow 2 (by omega)
      have hslice : (slice b 0 w).toNat = b.toNat % 2 ^ w := by simp [slice]
      rw [hslice, Int.natCast_mod, Nat.cast_pow, Nat.cast_ofNat, toNat_eq_toInt_emod,
        Int.emod_emod_of_dvd _ hdvd]

theorem uMod_bitCount (a b : Bits) : (uMod a b).bitCount = b.bitCount := by
  unfold uMod
  split
  · rfl
  · refine zeroExtend_bitCount ?_
    rename_i hb
    have hpos : 0 < b.toNat := Nat.pos_of_ne_zero (by simpa [Bits.isZero] using hb)
    exact Nat.size_le.mpr ((Nat.mod_lt _ hpos).trans b.isLt)

theorem uMod_toNat (a b : Bits) :
    (uMod a b).toNat = if b.toNat = 0 then 0 else a.toNat % b.toNat := by
  unfold uMod Bits.isZero
  by_cases h : b.toNat = 0
  · simp [h]
  · simp [h, BigInt.toUnsignedBits]

theorem sDiv_bitCount (a b : Bits) : (sDiv a b).bitCount = a.bitCount := by
  unfold sDiv
  split
  · split
    · rename_i h
      exact h.symm
    · split
      · simp [concat]
        omega
      · exact zeroExtend_bitCount (Nat.sub_le _ _)
  · exact truncateOrSignExtend_bitCount _ _

theorem sMod_bitCount (a b : Bits) : (sMod a b).bitCount = b.bitCount := by
  unfold sMod
  split
  · rfl
  · exact truncateOrSignExtend_bitCount _ _

theorem toInt_zero (w : ℕ) : toInt (Bits.zero w) = 0 := by
  have hmsb : (Bits.zero w).msb = false := by
    rw [← Bool.not_eq_true, msb_eq_true_iff]
    rintro ⟨-, hle⟩
    have := Nat.two_pow_pos ((Bits.zero w).bitCount - 1)
    rw [Bits.zero_toNat] at hle
    omega
  rw [toInt, hmsb]
  rfl

/-- `SLessThan` with zero looks at the sign bit. -/
theorem sLessThan_zero (b : Bits) (w : ℕ) : sLessThan b (Bits.zero w) = b.msb := by
  have hlt : (b.toNat : ℤ) < 2 ^ b.bitCount := by exact_mod_cast b.isLt
  rw [sLessThan, toInt_zero, toInt, Bool.eq_iff_iff, decide_eq_true_eq]
  split
  · rename_i h
    exact ⟨fun _ => h, fun _ => by omega⟩
  · rename_i h
    exact ⟨fun h' => absurd h' (by omega), fun h' => absurd h' h⟩

/-- The value of a signed quotient. -/
theorem sDiv_toNat {a : Bits} (b : Bits) (ha : 0 < a.bitCount) : ((sDiv a b).toNat : ℤ) =
    if b.toNat = 0 then (if a.msb then 2 ^ (a.bitCount - 1) else 2 ^ (a.bitCount - 1) - 1)
    else (toInt a).tdiv (toInt b) % 2 ^ a.bitCount := by
  have hcast : ((2 ^ (a.bitCount - 1) : ℕ) : ℤ) = 2 ^ (a.bitCount - 1) := Nat.cast_pow 2 _
  have hpow := Nat.two_pow_pos (a.bitCount - 1)
  unfold sDiv
  by_cases hb : b.toNat = 0
  · rw [if_pos (by simp [Bits.isZero, hb]), if_neg ha.ne', sLessThan_zero, if_pos hb]
    cases a.msb
    · simp only [Bool.false_eq_true, if_false, zeroExtend_toNat, Bits.allOnes_toNat]
      omega
    · simp [concat, append_toNat]
  · rw [if_neg (by simp [Bits.isZero, hb]), if_neg hb, truncateOrSignExtend_toNat,
      toInt_toSignedBits]

/-- The value of a signed remainder. -/
theorem sMod_toNat (a b : Bits) : ((sMod a b).toNat : ℤ) =
    if b.toNat = 0 then 0 else (toInt a).tmod (toInt b) % 2 ^ b.bitCount := by
  unfold sMod
  by_cases hb : b.toNat = 0
  · rw [if_pos (by simp [Bits.isZero, hb]), if_pos hb]
    rfl
  · rw [if_neg (by simp [Bits.isZero, hb]), if_neg hb, truncateOrSignExtend_toNat,
      toInt_toSignedBits]

end BitsOps
end Xls
