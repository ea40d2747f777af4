/-
# Bit vectors of dynamic width

The value layer of the IR (`xls/ir/bits.h`, `xls/ir/bits_ops.cc`).  A `Bits`
object is a width together with an unsigned value below `2 ^ width`; the
operations of `bits_ops` are written on the unsigned value, with the reduction
modulo `2 ^ width` explicit wherever the source truncates.  The source selects a
word-sized or a big-integer path by width; both compute the functions below.

Comparisons go through `UCmp`, which compares values whatever the two widths.
-/
import Mathlib

namespace Xls

/-! ## The data type -/

/-- A `Bits` object: a width and an unsigned value which fits in it. -/
@[ext]
structure Bits where
  bitCount : ℕ
  toNat : ℕ
  isLt : toNat < 2 ^ bitCount
  deriving DecidableEq, Repr

namespace Bits

/-- The value `n` truncated to `w` bits. -/
def ofNat (w n : ℕ) : Bits := ⟨w, n % 2 ^ w, Nat.mod_lt _ (Nat.two_pow_pos w)⟩

/-- `Bits(w)`: all zeros. -/
def zero (w : ℕ) : Bits := ⟨w, 0, Nat.two_pow_pos w⟩

theorem two_pow_sub_one_lt (w : ℕ) : 2 ^ w - 1 < 2 ^ w :=
  Nat.sub_lt (Nat.two_pow_pos w) Nat.one_pos

/-- `Bits::AllOnes(w)`; the empty `Bits` when `w = 0`. -/
def allOnes (w : ℕ) : Bits := ⟨w, 2 ^ w - 1, two_pow_sub_one_lt w⟩

/-- `UBits(value, w)`: fails (the `.value()` of an error status) when `value`
needs more than `w` bits. -/
def uBits (value w : ℕ) : Option Bits :=
  if h : value < 2 ^ w then some ⟨w, value, h⟩ else none

/-- `Bits::Get`: bit `i`, counted from the least significant one. -/
def get (b : Bits) (i : ℕ) : Bool := b.toNat.testBit i

/-- `Bits::msb`, false for the empty `Bits`. -/
def msb (b : Bits) : Bool := if b.bitCount = 0 then false else b.get (b.bitCount - 1)

/-- `Bits::IsZero`. -/
def isZero (b : Bits) : Bool := b.toNat == 0

/-- `Bits::IsAllOnes`. -/
def isAllOnes (b : Bits) : Bool := b.toNat == 2 ^ b.bitCount - 1

/-- `Bits::IsOne`: the unsigned value is one. -/
def isOne (b : Bits) : Bool := b.toNat == 1

/-- `Bits::PopCount`. -/
def popCount (b : Bits) : ℕ := (List.range b.bitCount).countP b.get

/-- `Bits::CountTrailingZeros`; the width when no bit is set. -/
def countTrailingZeros (b : Bits) : ℕ :=
  ((List.range b.bitCount).find? b.get).getD b.bitCount

/-- `Bits::CountLeadingZeros`; the width when no bit is set. -/
def countLeadingZeros (b : Bits) : ℕ :=
  ((List.range b.bitCount).find? fun i => b.get (b.bitCount - 1 - i)).getD b.bitCount

/-- `Bits::FitsInNBitsUnsigned`: every bit at or above `n` is clear. -/
def fitsInNBitsUnsigned (b : Bits) (n : ℕ) : Bool :=
  (List.range b.bitCount).all fun i => decide (i < n) || !b.get i

/-- `Bits::MinBitCountUnsigned`. -/
def minBitCountUnsigned (value : ℕ) : ℕ := if value = 0 then 0 else value.log2 + 1

@[simp] theorem ofNat_bitCount (w n : ℕ) : (ofNat w n).bitCount = w := rfl
@[simp] theorem ofNat_toNat (w n : ℕ) : (ofNat w n).toNat = n % 2 ^ w := rfl
@[simp] theorem zero_bitCount (w : ℕ) : (zero w).bitCount = w := rfl
@[simp] theorem zero_toNat (w : ℕ) : (zero w).toNat = 0 := rfl
@[simp] theorem allOnes_bitCount (w : ℕ) : (allOnes w).bitCount = w := rfl
@[simp] theorem allOnes_toNat (w : ℕ) : (allOnes w).toNat = 2 ^ w - 1 := rfl

/-- The value of a `Bits` is at most that of the all-ones vector. -/
theorem toNat_le (b : Bits) : b.toNat ≤ 2 ^ b.bitCount - 1 := by
  have := b.isLt
  omega

/-- A zero-width `Bits` has value zero. -/
theorem toNat_eq_zero_of_bitCount {b : Bits} (h : b.bitCount = 0) : b.toNat = 0 := by
  have hlt := b.isLt
  rw [h] at hlt
  simpa using hlt

theorem uBits_eq_some {value w : ℕ} {b : Bits} (h : uBits value w = some b) :
    b.bitCount = w ∧ b.toNat = value := by
  unfold uBits at h
  split at h
  · cases h
    exact ⟨rfl, rfl⟩
  · cases h

/-- A value fits in a width exactly when the width has the bits which it needs. -/
theorem minBitCountUnsigned_le_iff {n w : ℕ} : minBitCountUnsigned n ≤ w ↔ n < 2 ^ w := by
  unfold minBitCountUnsigned
  split
  · rename_i h
    simp [h]
  · rename_i h
    rw [Nat.succ_le_iff, Nat.log2_lt h]

/-- A set bit lies below the width. -/
theorem lt_of_get {b : Bits} {i : ℕ} (h : b.get i = true) : i < b.bitCount := by
  by_contra hge
  have hlt : b.toNat < 2 ^ i :=
    lt_of_lt_of_le b.isLt (Nat.pow_le_pow_right (by norm_num) (by omega))
  rw [get, Nat.testBit_lt_two_pow hlt] at h
  cases h

/-- A vector which fits in `n` bits has a value below `2 ^ n`. -/
theorem lt_of_fitsInNBitsUnsigned {b : Bits} {n : ℕ} (h : b.fitsInNBitsUnsigned n = true) :
    b.toNat < 2 ^ n := by
  refine Nat.lt_pow_two_of_testBit b.toNat fun i hi => ?_
  by_contra hbit
  have hget : b.get i = true := by simpa [get] using hbit
  have := List.all_eq_true.mp h i (List.mem_range.mpr (lt_of_get hget))
  simp only [hget, Bool.not_true, Bool.or_false, decide_eq_true_eq] at this
  omega

/-- Behind the leading zeros the value fits. -/
theorem lt_two_pow_sub_countLeadingZeros (b : Bits) :
    b.toNat < 2 ^ (b.bitCount - b.countLeadingZeros) := by
  refine Nat.lt_pow_two_of_testBit b.toNat fun i hi => ?_
  by_contra hbit
  have hget : b.get i = true := by simpa [get] using hbit
  have hlt := lt_of_get hget
  unfold countLeadingZeros at hi
  cases hf : (List.range b.bitCount).find? fun i => b.get (b.bitCount - 1 - i) with
  | none =>
    have := List.find?_eq_none.mp hf (b.bitCount - 1 - i) (List.mem_range.mpr (by omega))
    rw [show b.bitCount - 1 - (b.bitCount - 1 - i) = i by omega] at this
    exact this hget
  | some k =>
    rw [hf, Option.getD_some] at hi
    rw [List.find?_range_eq_some] at hf
    obtain ⟨-, hk, hbefore⟩ := hf
    have := hbefore (b.bitCount - 1 - i) (by omega)
    rw [show b.bitCount - 1 - (b.bitCount - 1 - i) = i by omega, hget] at this
    cases this

end Bits

/-! ## `bits_ops` -/

namespace BitsOps

/-- `bits_ops::ULessThan`. -/
def uLessThan (lhs rhs : Bits) : Bool := decide (lhs.toNat < rhs.toNat)

/-- `bits_ops::ULessThanOrEqual`. -/
def uLessThanOrEqual (lhs rhs : Bits) : Bool := decide (lhs.toNat ≤ rhs.toNat)

/-- `bits_ops::UEqual`: equal values, whatever the widths. -/
def uEqual (lhs rhs : Bits) : Bool := decide (lhs.toNat = rhs.toNat)

/-- The two's-complement reading of a `Bits` (`BigInt::MakeSigned`). -/
def toInt (b : Bits) : ℤ := if b.msb then (b.toNat : ℤ) - 2 ^ b.bitCount else b.toNat

/-- `bits_ops::SLessThan`. -/
def sLessThan (lhs rhs : Bits) : Bool := decide (toInt lhs < toInt rhs)

/-- `bits_ops::SLessThanOrEqual`. -/
def sLessThanOrEqual (lhs rhs : Bits) : Bool := decide (toInt lhs ≤ toInt rhs)

/-- `bits_ops::Add`, modulo `2 ^ width`. -/
def add (lhs rhs : Bits) : Bits := Bits.ofNat lhs.bitCount (lhs.toNat + rhs.toNat)

/-- `bits_ops::Sub`, modulo `2 ^ width`. -/
def sub (lhs rhs : Bits) : Bits :=
  Bits.ofNat lhs.bitCount (lhs.toNat + (2 ^ lhs.bitCount - rhs.toNat))

/-- `bits_ops::Increment`. -/
def increment (x : Bits) : Bits := Bits.ofNat x.bitCount (x.toNat + 1)

/-- `bits_ops::Decrement`. -/
def decrement (x : Bits) : Bits := Bits.ofNat x.bitCount (x.toNat + (2 ^ x.bitCount - 1))

/-- `bits_ops::Negate`. -/
def negate (x : Bits) : Bits := Bits.ofNat x.bitCount (2 ^ x.bitCount - x.toNat)

/-- `bits_ops::UMul`: the full product, as wide as both operands together. -/
def uMul (lhs rhs : Bits) : Bits :=
  Bits.ofNat (lhs.bitCount + rhs.bitCount) (lhs.toNat * rhs.toNat)

/-- `bits_ops::UDiv`: all ones on division by zero. -/
def uDiv (lhs rhs : Bits) : Bits :=
  if rhs.isZero then Bits.allOnes lhs.bitCount
  else Bits.ofNat lhs.bitCount (lhs.toNat / rhs.toNat)

/-- Two vectors side by side, the first one more significant. -/
def append (hi lo : Bits) : Bits :=
  Bits.ofNat (hi.bitCount + lo.bitCount) (hi.toNat * 2 ^ lo.bitCount + lo.toNat)

/-- `bits_ops::Concat`: the first input becomes the most significant bits. -/
def concat (inputs : List Bits) : Bits := inputs.foldl append (Bits.zero 0)

/-- `Bits::Slice(start, width)`. -/
def slice (b : Bits) (start width : ℕ) : Bits := Bits.ofNat width (b.toNat / 2 ^ start)

/-- `bits_ops::ZeroExtend` (the source checks `bits.bit_count() <= newBitCount`). -/
def zeroExtend (b : Bits) (newBitCount : ℕ) : Bits :=
  concat [Bits.zero (newBitCount - b.bitCount), b]

/-- `bits_ops::SignExtend` (the source checks `bits.bit_count() <= newBitCount`). -/
def signExtend (b : Bits) (newBitCount : ℕ) : Bits :=
  let extWidth := newBitCount - b.bitCount
  concat [if b.msb then Bits.allOnes extWidth else Bits.zero extWidth, b]

/-- `bits_ops::DropLeadingZeroes`. -/
def dropLeadingZeroes (b : Bits) : Bits := slice b 0 (b.bitCount - b.countLeadingZeros)

/-- A one-bit `Bits` holding a boolean. -/
def ofBool (b : Bool) : Bits := Bits.ofNat 1 b.toNat

/-- `bits_ops::AndReduce`. -/
def andReduce (b : Bits) : Bits := ofBool b.isAllOnes

/-- `bits_ops::OrReduce`. -/
def orReduce (b : Bits) : Bits := ofBool (!b.isZero)

/-- `bits_ops::XorReduce`. -/
def xorReduce (b : Bits) : Bits := ofBool (b.popCount % 2 == 1)

/-- `bits_ops::And`. -/
def and (lhs rhs : Bits) : Bits := Bits.ofNat lhs.bitCount (lhs.toNat &&& rhs.toNat)

/-- `bits_ops::ShiftLeftLogical`: zeros shifted in, the width kept. -/
def shiftLeftLogical (b : Bits) (shiftAmount : ℕ) : Bits :=
  let amount := min shiftAmount b.bitCount
  append (slice b 0 (b.bitCount - amount)) (Bits.zero amount)

/-- `bits_ops::ShiftRightLogical`. -/
def shiftRightLogical (b : Bits) (shiftAmount : ℕ) : Bits :=
  let amount := min shiftAmount b.bitCount
  append (Bits.zero amount) (slice b amount (b.bitCount - amount))

/-- `bits_ops::ShiftRightArith`: copies of the sign bit shifted in. -/
def shiftRightArith (b : Bits) (shiftAmount : ℕ) : Bits :=
  let amount := min shiftAmount b.bitCount
  append (if b.msb then Bits.allOnes amount else Bits.zero amount)
    (slice b amount (b.bitCount - amount))

/-- `bits_ops::BitSliceUpdate`: the parts below, inside and above the updated slice. -/
def bitSliceUpdate (toUpdate : Bits) (start : ℕ) (updateValue : Bits) : Bits :=
  if start ≥ toUpdate.bitCount then toUpdate
  else
    let lsbSlice := slice toUpdate 0 start
    let updateSlice := slice updateValue 0 (min updateValue.bitCount (toUpdate.bitCount - start))
    let msbStart := min toUpdate.bitCount (start + updateValue.bitCount)
    let msbSlice := slice toUpdate msbStart (max 0 (toUpdate.bitCount - msbStart))
    concat [msbSlice, updateSlice, lsbSlice]

/-! ## Widths and values -/

@[simp] theorem add_bitCount (a b : Bits) : (add a b).bitCount = a.bitCount := rfl
@[simp] theorem sub_bitCount (a b : Bits) : (sub a b).bitCount = a.bitCount := rfl
@[simp] theorem increment_bitCount (a : Bits) : (increment a).bitCount = a.bitCount := rfl
@[simp] theorem decrement_bitCount (a : Bits) : (decrement a).bitCount = a.bitCount := rfl
@[simp] theorem negate_bitCount (a : Bits) : (negate a).bitCount = a.bitCount := rfl
@[simp] theorem append_bitCount (a b : Bits) :
    (append a b).bitCount = a.bitCount + b.bitCount := rfl
@[simp] theorem slice_bitCount (b : Bits) (s w : ℕ) : (slice b s w).bitCount = w := rfl
@[simp] theorem ofBool_bitCount (b : Bool) : (ofBool b).bitCount = 1 := rfl
@[simp] theorem ofBool_toNat (b : Bool) : (ofBool b).toNat = b.toNat := by
  cases b <;> rfl

@[simp] theorem uDiv_bitCount (a b : Bits) : (uDiv a b).bitCount = a.bitCount := by
  unfold uDiv
  split <;> rfl

variable {a b : Bits}

theorem add_toNat_of_lt (h : a.toNat + b.toNat < 2 ^ a.bitCount) :
    (add a b).toNat = a.toNat + b.toNat := Nat.mod_eq_of_lt h

theorem sub_toNat_of_le (h : b.toNat ≤ a.toNat) : (sub a b).toNat = a.toNat - b.toNat := by
  have ha := a.isLt
  show (a.toNat + (2 ^ a.bitCount - b.toNat)) % 2 ^ a.bitCount = _
  rw [show a.toNat + (2 ^ a.bitCount - b.toNat) = a.toNat - b.toNat + 2 ^ a.bitCount by omega,
    Nat.add_mod_right, Nat.mod_eq_of_lt (by omega)]

theorem increment_toNat_of_lt (h : a.toNat + 1 < 2 ^ a.bitCount) :
    (increment a).toNat = a.toNat + 1 := Nat.mod_eq_of_lt h

theorem decrement_toNat_of_pos (h : 0 < a.toNat) : (decrement a).toNat = a.toNat - 1 := by
  have ha := a.isLt
  show (a.toNat + (2 ^ a.bitCount - 1)) % 2 ^ a.bitCount = _
  rw [show a.toNat + (2 ^ a.bitCount - 1) = a.toNat - 1 + 2 ^ a.bitCount by omega,
    Nat.add_mod_right, Nat.mod_eq_of_lt (by omega)]

/-- Negation is `0` at `0` and `2 ^ w - x` elsewhere. -/
theorem negate_toNat (a : Bits) :
    (negate a).toNat = if a.toNat = 0 then 0 else 2 ^ a.bitCount - a.toNat := by
  have ha := a.isLt
  show (2 ^ a.bitCount - a.toNat) % 2 ^ a.bitCount = _
  split
  · rename_i h0
    rw [h0, Nat.sub_zero, Nat.mod_self]
  · rw [Nat.mod_eq_of_lt (by omega)]

theorem uMul_toNat (a b : Bits) : (uMul a b).toNat = a.toNat * b.toNat := by
  show a.toNat * b.toNat % 2 ^ (a.bitCount + b.bitCount) = _
  rw [Nat.mod_eq_of_lt]
  rw [pow_add]
  exact Nat.mul_lt_mul'' a.isLt b.isLt

theorem uDiv_toNat (a b : Bits) :
    (uDiv a b).toNat = if b.toNat = 0 then 2 ^ a.bitCount - 1 else a.toNat / b.toNat := by
  unfold uDiv Bits.isZero
  by_cases h : b.toNat = 0
  · simp [h]
  · have hlt : a.toNat / b.toNat < 2 ^ a.bitCount := lt_of_le_of_lt (Nat.div_le_self _ _) a.isLt
    simp [h, Nat.mod_eq_of_lt hlt]

theorem append_toNat (a b : Bits) : (append a b).toNat = a.toNat * 2 ^ b.bitCount + b.toNat := by
  have ha := a.isLt
  have hb := b.isLt
  show (a.toNat * 2 ^ b.bitCount + b.toNat) % 2 ^ (a.bitCount + b.bitCount) = _
  rw [Nat.mod_eq_of_lt]
  calc a.toNat * 2 ^ b.bitCount + b.toNat
      < a.toNat * 2 ^ b.bitCount + 2 ^ b.bitCount := by omega
    _ = (a.toNat + 1) * 2 ^ b.bitCount := by ring
    _ ≤ 2 ^ a.bitCount * 2 ^ b.bitCount := Nat.mul_le_mul_right _ ha
    _ = 2 ^ (a.bitCount + b.bitCount) := by rw [pow_add]

theorem zeroExtend_bitCount {n : ℕ} (h : b.bitCount ≤ n) : (zeroExtend b n).bitCount = n := by
  simp only [zeroExtend, concat, List.foldl_cons, List.foldl_nil, append_bitCount,
    Bits.zero_bitCount]
  omega

@[simp] theorem zeroExtend_toNat (b : Bits) (n : ℕ) : (zeroExtend b n).toNat = b.toNat := by
  simp [zeroExtend, concat, append_toNat]

theorem signExtend_bitCount {n : ℕ} (h : b.bitCount ≤ n) : (signExtend b n).bitCount = n := by
  unfold signExtend concat
  split <;>
    simp only [List.foldl_cons, List.foldl_nil, append_bitCount, Bits.zero_bitCount,
      Bits.allOnes_bitCount] <;>
    omega

/-- The most significant bit of a vector says whether its value reaches half of
the range. -/
theorem msb_eq_true_iff (b : Bits) : b.msb = true ↔ 0 < b.bitCount ∧
    2 ^ (b.bitCount - 1) ≤ b.toNat := by
  unfold Bits.msb Bits.get
  by_cases h : b.bitCount = 0
  · simp [h]
  · have hlt := b.isLt
    rw [show b.bitCount = b.bitCount - 1 + 1 by omega] at hlt
    rw [if_neg h, Nat.testBit_eq_decide_div_mod_eq, decide_eq_true_eq]
    have hq : b.toNat / 2 ^ (b.bitCount - 1) < 2 :=
      Nat.div_lt_of_lt_mul (by omega)
    constructor
    · intro h1
      by_contra hcon
      rw [Nat.div_eq_of_lt (by omega)] at h1
      cases h1
    · rintro ⟨-, hle⟩
      have hpos : 0 < b.toNat / 2 ^ (b.bitCount - 1) :=
        Nat.div_pos hle (Nat.two_pow_pos _)
      omega

/-- Sign extension keeps the value of a vector whose sign bit is clear and adds
`2 ^ n - 2 ^ w` otherwise. -/
theorem signExtend_toNat {n : ℕ} (h : b.bitCount ≤ n) : (signExtend b n).toNat =
      if b.msb then b.toNat + (2 ^ n - 2 ^ b.bitCount) else b.toNat := by
  unfold signExtend concat
  by_cases hm : b.msb
  · simp only [hm, if_true, List.foldl_cons, List.foldl_nil, append_toNat, Bits.zero_toNat,
      Bits.allOnes_toNat, Nat.zero_mul, Nat.zero_add, Nat.sub_mul, Nat.one_mul]
    rw [← pow_add, show n - b.bitCount + b.bitCount = n by omega, Nat.add_comm]
  · simp [hm, append_toNat]

theorem dropLeadingZeroes_toNat (b : Bits) : (dropLeadingZeroes b).toNat = b.toNat := by
  show b.toNat / 2 ^ 0 % 2 ^ (b.bitCount - b.countLeadingZeros) = b.toNat
  rw [pow_zero, Nat.div_one, Nat.mod_eq_of_lt b.lt_two_pow_sub_countLeadingZeros]

end BitsOps

end Xls
