/-
# Arithmetic and comparisons on bitmaps

`Add`, `Sub`, `Increment`, `Decrement`, `SMul`, `UMul`, `Negate` and the comparisons of
`xls/ir/bits_ops.cc`, on the bitmaps which hold the operands.  Most of them have two paths:
one on machine words for vectors of at most 64 bits, and one on big integers whose result is
truncated or extended.

* `arithmetic_exact` : on every bitmap which operations lead to, both paths return the
  mathematical result in a clean bitmap, and the comparisons, word-wise equality and hashing
  are those of the bits.
-/
import Xls.Ir.BitmapBits

namespace Xls
namespace BitmapOps

open InlineBitmap BitmapBits

/-! ## The operations -/

def concat (inputs : List InlineBitmap) : Option InlineBitmap :=
  (inputs.reverse.foldl BitsRope.pushBack
    (BitsRope.make (inputs.map InlineBitmap.bitCount).sum)).build

def signExtend (bits : InlineBitmap) (newBitCount : ℕ) : Option InlineBitmap :=
  if newBitCount < bits.bitCount then none
  else do
    let extWidth := newBitCount - bits.bitCount
    let ext ← if msb bits then allOnes extWidth else some (zero extWidth)
    concat [ext, bits]

def truncateOrSignExtend (bits : InlineBitmap) (bitCount : ℕ) : Option InlineBitmap :=
  if bits.bitCount = bitCount then some bits
  else if bits.bitCount < bitCount then signExtend bits bitCount
  else slice bits 0 bitCount

def add (lhs rhs : InlineBitmap) : Option InlineBitmap :=
  if lhs.bitCount ≠ rhs.bitCount then none
  else if lhs.bitCount ≤ 64 then do
    let lhsInt ← toUint64 lhs
    let rhsInt ← toUint64 rhs
    uBits ((lhsInt + rhsInt) &&& mask lhs.bitCount) lhs.bitCount
  else do
    let sum ← BigInt.toSignedBitmap (BigInt.makeSigned lhs + BigInt.makeSigned rhs)
    truncateOrSignExtend sum lhs.bitCount

def sub (lhs rhs : InlineBitmap) : Option InlineBitmap :=
  if lhs.bitCount ≠ rhs.bitCount then none
  else if lhs.bitCount ≤ 64 then do
    let lhsInt ← toUint64 lhs
    let rhsInt ← toUint64 rhs
    uBits ((lhsInt - rhsInt) &&& mask lhs.bitCount) lhs.bitCount
  else do
    let diff ← BigInt.toSignedBitmap (BigInt.makeSigned lhs - BigInt.makeSigned rhs)
    truncateOrSignExtend diff lhs.bitCount

/-- The loop of `Increment`: a word which is not all ones takes the carry and ends it. -/
def incrementFrom (result : InlineBitmap) : List ℕ → InlineBitmap
  | [] => result
  | i :: rest =>
    let word := result.getWord i
    if word < BitVec.allOnes 64 then result.setWord i (word + 1)
    else incrementFrom (result.setWord i 0) rest

def increment (x : InlineBitmap) : InlineBitmap := incrementFrom x (List.range x.wordCount)

/-- The loop of `Decrement`: a word which is not zero takes the borrow and ends it. -/
def decrementFrom (result : InlineBitmap) : List ℕ → InlineBitmap
  | [] => result
  | i :: rest =>
    let word := result.getWord i
    if word > 0 then result.setWord i (word - 1)
    else decrementFrom (result.setWord i (~~~0)) rest

def decrement (x : InlineBitmap) : InlineBitmap := decrementFrom x (List.range x.wordCount)

def sMul (lhs rhs : InlineBitmap) : Option InlineBitmap :=
  let resultWidth := lhs.bitCount + rhs.bitCount
  if resultWidth ≤ 64 then do
    let lhsInt ← toInt64 lhs
    let rhsInt ← toInt64 rhs
    sBits (lhsInt * rhsInt) resultWidth
  else
    BigInt.toSignedBitmapWithBitCount (BigInt.makeSigned lhs * BigInt.makeSigned rhs) resultWidth

def uMul (lhs rhs : InlineBitmap) : Option InlineBitmap :=
  let resultWidth := lhs.bitCount + rhs.bitCount
  if resultWidth ≤ 64 then do
    let lhsInt ← toUint64 lhs
    let rhsInt ← toUint64 rhs
    uBits (lhsInt * rhsInt) resultWidth
  else
    BigInt.toUnsignedBitmapWithBitCount (BigInt.makeUnsigned lhs * BigInt.makeUnsigned rhs)
      resultWidth

def negate (bits : InlineBitmap) : Option InlineBitmap :=
  if bits.bitCount < 64 then do
    let word ← toInt64 bits
    uBits (-word &&& mask bits.bitCount) bits.bitCount
  else do
    let negated ← BigInt.toSignedBitmap (-BigInt.makeSigned bits)
    truncateOrSignExtend negated bits.bitCount

def uCmp (lhs rhs : InlineBitmap) : ℤ := lhs.uCmp rhs

def uEqual (lhs rhs : InlineBitmap) : Bool := uCmp lhs rhs == 0

def uGreaterThanOrEqual (lhs rhs : InlineBitmap) : Bool := uCmp lhs rhs ≥ 0

def uGreaterThan (lhs rhs : InlineBitmap) : Bool := uCmp lhs rhs > 0

def uLessThanOrEqual (lhs rhs : InlineBitmap) : Bool := uCmp lhs rhs ≤ 0

def uLessThan (lhs rhs : InlineBitmap) : Bool := uCmp lhs rhs < 0

def sEqual (lhs rhs : InlineBitmap) : Bool := BigInt.makeSigned lhs == BigInt.makeSigned rhs

def sLessThan (lhs rhs : InlineBitmap) : Option Bool :=
  if lhs.bitCount ≤ 64 ∧ rhs.bitCount ≤ 64 then do
    let lhsInt ← toInt64 lhs
    let rhsInt ← toInt64 rhs
    some (lhsInt.slt rhsInt)
  else some (BigInt.makeSigned lhs < BigInt.makeSigned rhs)

def sLessThanOrEqual (lhs rhs : InlineBitmap) : Option Bool :=
  if sEqual lhs rhs then some true else sLessThan lhs rhs

def sGreaterThanOrEqual (lhs rhs : InlineBitmap) : Option Bool := (sLessThan lhs rhs).map not

def sGreaterThan (lhs rhs : InlineBitmap) : Option Bool := (sLessThanOrEqual lhs rhs).map not

/-- The overloads of the unsigned comparisons for an `int64_t`, which must not be negative. -/
def withUint64 (compare : InlineBitmap → InlineBitmap → Bool) (lhs : InlineBitmap)
    (rhs : BitVec 64) : Option Bool :=
  if rhs.toInt < 0 then none else (uBits rhs 64).map (compare lhs)

/-- The overloads of the signed comparisons for an `int64_t`. -/
def withInt64 (compare : InlineBitmap → InlineBitmap → Option Bool) (lhs : InlineBitmap)
    (rhs : BitVec 64) : Option Bool :=
  (sBits rhs 64).bind (compare lhs)

def uEqualInt64 : InlineBitmap → BitVec 64 → Option Bool := withUint64 uEqual

def uGreaterThanOrEqualInt64 : InlineBitmap → BitVec 64 → Option Bool :=
  withUint64 uGreaterThanOrEqual

def uGreaterThanInt64 : InlineBitmap → BitVec 64 → Option Bool := withUint64 uGreaterThan

def uLessThanOrEqualInt64 : InlineBitmap → BitVec 64 → Option Bool := withUint64 uLessThanOrEqual

def uLessThanInt64 : InlineBitmap → BitVec 64 → Option Bool := withUint64 uLessThan

def sEqualInt64 : InlineBitmap → BitVec 64 → Option Bool :=
  withInt64 fun lhs rhs => some (sEqual lhs rhs)

def sGreaterThanOrEqualInt64 : InlineBitmap → BitVec 64 → Option Bool :=
  withInt64 sGreaterThanOrEqual

def sGreaterThanInt64 : InlineBitmap → BitVec 64 → Option Bool := withInt64 sGreaterThan

def sLessThanOrEqualInt64 : InlineBitmap → BitVec 64 → Option Bool := withInt64 sLessThanOrEqual

def sLessThanInt64 : InlineBitmap → BitVec 64 → Option Bool := withInt64 sLessThan

/-! ## Widths -/

variable {m n : InlineBitmap} {a b : Bits}

variable {w : ℕ} {x : ℤ}

theorem toNat_and_mask (x : BitVec 64) (hw : w ≤ 64) : (x &&& mask w).toNat = x.toNat % 2 ^ w := by
  rw [BitVec.toNat_and, toNat_mask hw, Nat.and_two_pow_sub_one_eq_mod]

theorem ofInt_toNat (w : ℕ) (x : ℤ) : ((Bits.ofInt w x).toNat : ℤ) = x % 2 ^ w := by
  show ((BitVec.ofInt w x).toNat : ℤ) = _
  rw [BitVec.toNat_ofInt, Int.toNat_of_nonneg (Int.emod_nonneg _ (by positivity))]
  norm_cast

/-- A vector is known by its value modulo the range. -/
theorem eq_ofInt (h : (b.toNat : ℤ) = x % 2 ^ b.bitCount) : b = Bits.ofInt b.bitCount x := by
  refine Bits.ext rfl ?_
  have heq := ofInt_toNat b.bitCount x
  rw [← h] at heq
  exact_mod_cast heq.symm

theorem truncateOrSignExtend_toSignedBits (x : ℤ) (w : ℕ) :
    BitsOps.truncateOrSignExtend (BigInt.toSignedBits x) w = Bits.ofInt w x := by
  have hcount := BitsOps.truncateOrSignExtend_bitCount (BigInt.toSignedBits x) w
  have hvalue := BitsOps.truncateOrSignExtend_toNat (BigInt.toSignedBits x) w
  rw [BitsOps.toInt_toSignedBits] at hvalue
  have heq := eq_ofInt (b := BitsOps.truncateOrSignExtend (BigInt.toSignedBits x) w) (x := x)
    (by rw [hvalue, hcount])
  rwa [hcount] at heq

theorem concat_two (hm : Represents m a) (hn : Represents n b) :
    ∃ r, concat [m, n] = some r ∧ Represents r (BitsOps.append a b) := by
  refine BitsRope.build_two _ hn hm ?_
  rw [List.map_cons, List.map_cons, List.map_nil, List.sum_cons, List.sum_cons, List.sum_nil,
    hm.bitCount, hn.bitCount, Nat.add_zero]

theorem signExtend_spec (h : Represents m b) (hw : b.bitCount ≤ w) :
    ∃ r, signExtend m w = some r ∧ Represents r (BitsOps.signExtend b w) := by
  have happend : ∀ e : Bits, BitsOps.concat [e, b] = BitsOps.append e b := by
    intro e
    refine Bits.ext ?_ ?_
    · simp [BitsOps.concat]
    · simp [BitsOps.concat, BitsOps.append_toNat]
  unfold signExtend BitsOps.signExtend
  rw [if_neg (by rw [h.bitCount]; omega), happend, h.msb, h.bitCount]
  by_cases hmsb : b.msb = true
  · obtain ⟨ext, hext, hones⟩ := allOnes_spec (w - b.bitCount)
    obtain ⟨r, hr, hrep⟩ := concat_two hones h
    refine ⟨r, ?_, by rwa [if_pos hmsb]⟩
    simp only [hmsb, if_true, hext, Option.bind_eq_bind, Option.bind_some, hr]
  · obtain ⟨r, hr, hrep⟩ := concat_two (.zero (w - b.bitCount)) h
    refine ⟨r, ?_, by rwa [if_neg hmsb]⟩
    simp only [hmsb, Bool.false_eq_true, if_false, Option.bind_eq_bind, Option.bind_some, hr]

theorem truncateOrSignExtend_spec (h : Represents m b) (w : ℕ) :
    ∃ r, truncateOrSignExtend m w = some r ∧ Represents r (BitsOps.truncateOrSignExtend b w) := by
  unfold truncateOrSignExtend BitsOps.truncateOrSignExtend
  rw [h.bitCount]
  split
  · exact ⟨m, rfl, h⟩
  · split
    · exact signExtend_spec h (by omega)
    · exact slice_spec h (by omega)

/-- The big-integer path of a result which is taken modulo the range. -/
theorem bigInt_spec (x : ℤ) (w : ℕ) :
    ∃ r, ((BigInt.toSignedBitmap x).bind fun bits => truncateOrSignExtend bits w) = some r ∧
      Represents r (Bits.ofInt w x) := by
  obtain ⟨bits, hbits, hrep⟩ := BigInt.toSignedBitmap_spec x
  obtain ⟨r, hr, hrep⟩ := truncateOrSignExtend_spec hrep w
  refine ⟨r, by rw [hbits]; exact hr, ?_⟩
  rwa [truncateOrSignExtend_toSignedBits] at hrep

/-- The word path of such a result. -/
theorem word_spec {word : BitVec 64} (hw : w ≤ 64) (hword : (word.toNat : ℤ) = x % 2 ^ 64) :
    ∃ r, uBits (word &&& mask w) w = some r ∧ Represents r (Bits.ofInt w x) := by
  have hvalue : ((Bits.ofInt w x).toNat : ℤ) = (word &&& mask w).toNat := by
    rw [toNat_and_mask word hw, ofInt_toNat, Int.natCast_mod, hword, Nat.cast_pow, Nat.cast_ofNat,
      Int.emod_emod_of_dvd _ (pow_dvd_pow 2 hw)]
  have hlt : (word &&& mask w).toNat < 2 ^ w := by
    rw [toNat_and_mask word hw]
    exact Nat.mod_lt _ (Nat.two_pow_pos w)
  exact uBits_spec (b := Bits.ofInt w x) hlt (by exact_mod_cast hvalue)

/-! ## Sums, differences and products -/

theorem toNat_lt_of_le (hw : b.bitCount ≤ 64) : b.toNat < 2 ^ 64 :=
  b.isLt.trans_le (Nat.pow_le_pow_right (by norm_num) hw)

/-- The unsigned and the signed value agree modulo the range. -/
theorem toInt_emod (b : Bits) : BitsOps.toInt b % 2 ^ b.bitCount = (b.toNat : ℤ) % 2 ^ b.bitCount := by
  have hlt : (b.toNat : ℤ) < 2 ^ b.bitCount := by exact_mod_cast b.isLt
  rw [← BitsOps.toNat_eq_toInt_emod, Int.emod_eq_of_lt (by omega) hlt]

theorem ofInt_congr {y : ℤ} (h : x % 2 ^ w = y % 2 ^ w) : Bits.ofInt w x = Bits.ofInt w y :=
  eq_ofInt (b := Bits.ofInt w x) (by rw [ofInt_toNat, h]; rfl)

section

variable (hm : Represents m a)

include hm

section

variable (hn : Represents n b)

include hn

theorem add_spec (hab : a.bitCount = b.bitCount) :
    ∃ r, add m n = some r ∧ Represents r (Bits.ofInt a.bitCount (a.toNat + b.toNat)) := by
  have hcount : m.bitCount = n.bitCount := by rw [hm.bitCount, hn.bitCount, hab]
  unfold add
  rw [if_neg (not_not.mpr hcount), hm.bitCount]
  by_cases hw : a.bitCount ≤ 64
  · obtain ⟨l, hl, hlnat⟩ := toUint64_spec hm (toNat_lt_of_le hw)
    obtain ⟨r, hr, hrnat⟩ := toUint64_spec hn (toNat_lt_of_le (hab ▸ hw))
    rw [if_pos hw]
    simp only [hl, hr]
    refine word_spec hw ?_
    rw [BitVec.toNat_add, hlnat, hrnat]
    norm_cast
  · rw [if_neg hw, BigInt.makeSigned_spec hm, BigInt.makeSigned_spec hn]
    have hsum : (BitsOps.toInt a + BitsOps.toInt b) % 2 ^ a.bitCount =
        ((a.toNat : ℤ) + b.toNat) % 2 ^ a.bitCount := by
      have hb := toInt_emod b
      rw [← hab] at hb
      rw [Int.add_emod, toInt_emod a, hb, ← Int.add_emod]
    rw [← ofInt_congr hsum]
    exact bigInt_spec _ _

theorem sub_spec (hab : a.bitCount = b.bitCount) :
    ∃ r, sub m n = some r ∧ Represents r (Bits.ofInt a.bitCount (a.toNat - b.toNat)) := by
  have hcount : m.bitCount = n.bitCount := by rw [hm.bitCount, hn.bitCount, hab]
  unfold sub
  rw [if_neg (not_not.mpr hcount), hm.bitCount]
  by_cases hw : a.bitCount ≤ 64
  · obtain ⟨l, hl, hlnat⟩ := toUint64_spec hm (toNat_lt_of_le hw)
    obtain ⟨r, hr, hrnat⟩ := toUint64_spec hn (toNat_lt_of_le (hab ▸ hw))
    rw [if_pos hw]
    simp only [hl, hr]
    refine word_spec hw ?_
    rw [BitVec.toNat_sub]
    omega
  · rw [if_neg hw, BigInt.makeSigned_spec hm, BigInt.makeSigned_spec hn]
    have hdiff : (BitsOps.toInt a - BitsOps.toInt b) % 2 ^ a.bitCount =
        ((a.toNat : ℤ) - b.toNat) % 2 ^ a.bitCount := by
      have hb := toInt_emod b
      rw [← hab] at hb
      rw [Int.sub_emod, toInt_emod a, hb, ← Int.sub_emod]
    rw [← ofInt_congr hdiff]
    exact bigInt_spec _ _

omit hn in
omit hm in
theorem toNat_eq_toInt (word : BitVec 64) : (word.toNat : ℤ) = word.toInt % 2 ^ 64 := by
  rw [BitVec.toInt_eq_toNat_bmod, Int.bmod_def]
  split <;> omega

omit hn in
theorem negate_spec : ∃ r, negate m = some r ∧ Represents r (Bits.ofInt a.bitCount (-a.toNat)) := by
  have hneg : (-BitsOps.toInt a) % 2 ^ a.bitCount = (-(a.toNat : ℤ)) % 2 ^ a.bitCount := by
    have hsub := toInt_emod a
    rw [← zero_sub, ← zero_sub, Int.sub_emod, hsub, ← Int.sub_emod]
  rw [← ofInt_congr hneg]
  unfold negate
  rw [hm.bitCount]
  by_cases hw : a.bitCount < 64
  · obtain ⟨word, hword, hint⟩ := toInt64_spec hm hw.le
    rw [if_pos hw]
    simp only [hword]
    refine word_spec hw.le ?_
    rw [← hint, BitVec.toNat_neg]
    have hnat := toNat_eq_toInt word
    omega
  · rw [if_neg hw, BigInt.makeSigned_spec hm]
    exact bigInt_spec _ _

theorem uMul_spec :
    ∃ r, uMul m n = some r ∧ Represents r (BitsOps.uMul a b) := by
  have hlt : a.toNat * b.toNat < 2 ^ (a.bitCount + b.bitCount) := by
    rw [pow_add]
    exact Nat.mul_lt_mul'' a.isLt b.isLt
  have hvalue := BitsOps.uMul_toNat a b
  unfold uMul
  rw [hm.bitCount, hn.bitCount]
  by_cases hw : a.bitCount + b.bitCount ≤ 64
  · obtain ⟨l, hl, hlnat⟩ := toUint64_spec hm (toNat_lt_of_le (by omega))
    obtain ⟨r, hr, hrnat⟩ := toUint64_spec hn (toNat_lt_of_le (by omega))
    have hproduct : (l * r).toNat = a.toNat * b.toNat := by
      rw [BitVec.toNat_mul, hlnat, hrnat, Nat.mod_eq_of_lt (hlt.trans_le
        (Nat.pow_le_pow_right (by norm_num) hw))]
    simp only [if_pos hw, hl, hr]
    exact uBits_spec (b := BitsOps.uMul a b) (by rw [hproduct]; exact hlt) (by rw [hvalue, hproduct])
  · simp only [if_neg hw]
    rw [BigInt.makeUnsigned_spec hm, BigInt.makeUnsigned_spec hn]
    obtain ⟨r, hr, hrep⟩ := BigInt.toUnsignedBitmapWithBitCount_spec hlt
    refine ⟨r, by exact_mod_cast hr, hrep.congr (Bits.ext rfl hvalue.symm)⟩

omit hn in
omit hm in
/-- The two ways of counting the bits of a signed value agree. -/
theorem signedBitCount_eq (x : ℤ) : BigInt.signedBitCount x = minBitCountSigned x := by
  have hsize : ∀ k, Bits.minBitCountUnsigned k = k.size := by
    intro k
    refine le_antisymm ?_ ?_
    · exact Bits.minBitCountUnsigned_le_iff.mpr (Nat.lt_size_self k)
    · exact Nat.size_le.mpr (Bits.minBitCountUnsigned_le_iff.mp le_rfl)
  unfold BigInt.signedBitCount minBitCountSigned
  split
  · rfl
  · split
    · rw [hsize]
      congr 2
      omega
    · rw [hsize]
      congr 2
      omega

omit hn in
omit hm in
theorem toInt_bounds (b : Bits) : b.bitCount = 0 ∧ BitsOps.toInt b = 0 ∨
    0 < b.bitCount ∧ -(2 ^ (b.bitCount - 1)) ≤ BitsOps.toInt b ∧
      BitsOps.toInt b < 2 ^ (b.bitCount - 1) := by
  rcases Nat.eq_zero_or_pos b.bitCount with hzero | hpos
  · refine .inl ⟨hzero, ?_⟩
    rw [BitsOps.toInt, Bits.msb, if_pos hzero, Bits.toNat_eq_zero_of_bitCount hzero]
    rfl
  · refine .inr ⟨hpos, ?_, ?_⟩
    · rw [← toInt_toBitVec]
      exact b.toBitVec.le_toInt
    · rw [← toInt_toBitVec]
      exact b.toBitVec.toInt_lt

omit hn in
omit hm in
/-- The product of two signed values fits in the sum of their widths. -/
theorem minBitCountSigned_mul (a b : Bits) :
    minBitCountSigned (BitsOps.toInt a * BitsOps.toInt b) ≤ a.bitCount + b.bitCount := by
  rcases toInt_bounds a with ⟨-, hzero⟩ | ⟨ha, hage, halt⟩
  · rw [hzero, zero_mul]
    exact Nat.zero_le _
  · rcases toInt_bounds b with ⟨-, hzero⟩ | ⟨hb, hbge, hblt⟩
    · rw [hzero, mul_zero]
      exact Nat.zero_le _
    · have habs : |BitsOps.toInt a * BitsOps.toInt b| ≤
          2 ^ (a.bitCount - 1) * 2 ^ (b.bitCount - 1) := by
        rw [abs_mul]
        exact mul_le_mul (abs_le.mpr ⟨hage, halt.le⟩) (abs_le.mpr ⟨hbge, hblt.le⟩) (abs_nonneg _)
          (by positivity)
      have hlt : (2 : ℤ) ^ (a.bitCount - 1) * 2 ^ (b.bitCount - 1) <
          2 ^ (a.bitCount + b.bitCount - 1) := by
        rw [← pow_add]
        exact pow_lt_pow_right₀ (by norm_num) (by omega)
      rw [minBitCountSigned_le_iff (by omega)]
      obtain ⟨hge, hle⟩ := abs_le.mp habs
      exact ⟨by omega, by omega⟩

theorem sMul_spec : ∃ r, sMul m n = some r ∧
    Represents r (Bits.ofInt (a.bitCount + b.bitCount) (BitsOps.toInt a * BitsOps.toInt b)) := by
  have hfits := minBitCountSigned_mul a b
  unfold sMul
  rw [hm.bitCount, hn.bitCount]
  by_cases hw : a.bitCount + b.bitCount ≤ 64
  · obtain ⟨l, hl, hlint⟩ := toInt64_spec hm (by omega)
    obtain ⟨r, hr, hrint⟩ := toInt64_spec hn (by omega)
    -- the product does not overflow a word
    have hproduct : (l * r).toInt = BitsOps.toInt a * BitsOps.toInt b := by
      have h64 : minBitCountSigned (BitsOps.toInt a * BitsOps.toInt b) ≤ 64 := hfits.trans hw
      rw [minBitCountSigned_le_iff (by norm_num)] at h64
      rw [BitVec.toInt_mul, hlint, hrint]
      exact Int.bmod_eq_of_le (by omega) (by omega)
    simp only [if_pos hw, hl, hr]
    have hspec := sBits_spec
      (show minBitCountSigned (l * r).toInt ≤ a.bitCount + b.bitCount by rwa [hproduct])
    rwa [hproduct] at hspec
  · simp only [if_neg hw]
    rw [BigInt.makeSigned_spec hm, BigInt.makeSigned_spec hn]
    have hspec := BigInt.toSignedBitmapWithBitCount_spec
      (x := BitsOps.toInt a * BitsOps.toInt b) (w := a.bitCount + b.bitCount)
      (by rwa [signedBitCount_eq])
    rwa [truncateOrSignExtend_toSignedBits] at hspec

/-! ## Comparisons -/

theorem uCmp_spec : uCmp m n = Int.sign ((a.toNat : ℤ) - b.toNat) := by
  rw [uCmp, uCmp_eq, hm.value, hn.value]

theorem uEqual_spec : uEqual m n = decide (a.toNat = b.toNat) := by
  rw [uEqual, uCmp_spec hm hn, Bool.eq_iff_iff, beq_iff_eq, Int.sign_eq_zero_iff_zero,
    decide_eq_true_eq]
  omega

theorem uLessThan_spec : uLessThan m n = decide (a.toNat < b.toNat) := by
  rw [uLessThan, uCmp_spec hm hn, decide_eq_decide, Int.sign_neg_iff]
  omega

theorem uLessThanOrEqual_spec :
    uLessThanOrEqual m n = decide (a.toNat ≤ b.toNat) := by
  rw [uLessThanOrEqual, uCmp_spec hm hn, decide_eq_decide, ← not_lt, Int.sign_pos_iff]
  omega

theorem uGreaterThan_spec :
    uGreaterThan m n = decide (a.toNat > b.toNat) := by
  rw [uGreaterThan, uCmp_spec hm hn, decide_eq_decide, gt_iff_lt, Int.sign_pos_iff]
  omega

theorem uGreaterThanOrEqual_spec :
    uGreaterThanOrEqual m n = decide (a.toNat ≥ b.toNat) := by
  rw [uGreaterThanOrEqual, uCmp_spec hm hn, decide_eq_decide, ge_iff_le, ← not_lt, Int.sign_neg_iff]
  omega

theorem sEqual_spec :
    sEqual m n = decide (BitsOps.toInt a = BitsOps.toInt b) := by
  rw [sEqual, BigInt.makeSigned_spec hm, BigInt.makeSigned_spec hn]
  rfl

theorem sLessThan_spec :
    sLessThan m n = some (decide (BitsOps.toInt a < BitsOps.toInt b)) := by
  unfold sLessThan
  rw [hm.bitCount, hn.bitCount]
  split
  · rename_i hw
    obtain ⟨l, hl, hlint⟩ := toInt64_spec hm hw.1
    obtain ⟨r, hr, hrint⟩ := toInt64_spec hn hw.2
    simp only [hl, hr, Option.bind_eq_bind, Option.bind_some, BitVec.slt, hlint, hrint]
  · rw [BigInt.makeSigned_spec hm, BigInt.makeSigned_spec hn]

theorem sLessThanOrEqual_spec :
    sLessThanOrEqual m n = some (decide (BitsOps.toInt a ≤ BitsOps.toInt b)) := by
  rw [sLessThanOrEqual, sEqual_spec hm hn, sLessThan_spec hm hn]
  by_cases heq : BitsOps.toInt a = BitsOps.toInt b
  · simp [heq]
  · simp [heq, le_iff_lt_or_eq]

theorem sGreaterThanOrEqual_spec :
    sGreaterThanOrEqual m n = some (decide (BitsOps.toInt a ≥ BitsOps.toInt b)) := by
  rw [sGreaterThanOrEqual, sLessThan_spec hm hn, Option.map_some, ← decide_not]
  simp only [not_lt]

theorem sGreaterThan_spec :
    sGreaterThan m n = some (decide (BitsOps.toInt a > BitsOps.toInt b)) := by
  rw [sGreaterThan, sLessThanOrEqual_spec hm hn, Option.map_some, ← decide_not]
  simp only [not_le]

end

end

/-- A word which is not negative as an `int64_t`. -/
theorem withUint64_spec {compare : InlineBitmap → InlineBitmap → Bool} {p : ℕ → ℕ → Bool}
    (hcompare : ∀ {n b}, Represents n b → compare m n = p a.toNat b.toNat) {rhs : BitVec 64}
    (hrhs : 0 ≤ rhs.toInt) : withUint64 compare m rhs = some (p a.toNat rhs.toNat) := by
  obtain ⟨r, hr, hrep⟩ := uBits_spec (b := ⟨64, rhs.toNat, rhs.isLt⟩) rhs.isLt rfl
  rw [withUint64, if_neg (not_lt.mpr hrhs), hr, Option.map_some, hcompare hrep]

theorem withInt64_spec {compare : InlineBitmap → InlineBitmap → Option Bool} {p : ℤ → ℤ → Bool}
    (hcompare : ∀ {n b}, Represents n b →
      compare m n = some (p (BitsOps.toInt a) (BitsOps.toInt b))) (rhs : BitVec 64) :
    withInt64 compare m rhs = some (p (BitsOps.toInt a) rhs.toInt) := by
  have hfits : minBitCountSigned rhs.toInt ≤ 64 := by
    rw [minBitCountSigned_le_iff (by norm_num)]
    exact ⟨rhs.le_toInt, rhs.toInt_lt⟩
  obtain ⟨r, hr, hrep⟩ := sBits_spec hfits
  have hvalue : BitsOps.toInt (Bits.ofInt 64 rhs.toInt) = rhs.toInt := by
    rw [← toInt_toBitVec]
    have hvec : (Bits.ofInt 64 rhs.toInt).toBitVec = rhs := by
      refine BitVec.eq_of_toNat_eq ?_
      show (BitVec.ofInt 64 rhs.toInt).toNat = rhs.toNat
      rw [BitVec.ofInt_toInt]
    exact congrArg BitVec.toInt hvec
  rw [withInt64, hr, Option.bind_some, hcompare hrep, hvalue]

/-! ## Increments and decrements -/

/-- Replacing a word changes the number by a multiple of its place, modulo the range. -/
theorem value_setWord_modEq (hm : m.Clean) {j : ℕ} (hj : j < m.wordCount) (v : BitVec 64) :
    ((m.setWord j v).value : ℤ) ≡
      m.value + 2 ^ (64 * j) * ((v.toNat : ℤ) - (m.getWord j).toNat) [ZMOD 2 ^ m.bitCount] := by
  have hmasked : (2 ^ (64 * j) * ((v &&& m.maskForWord j).toNat : ℤ)) ≡
      2 ^ (64 * j) * v.toNat [ZMOD 2 ^ m.bitCount] := by
    by_cases hrest : m.bitCount - 64 * j < 64
    · -- the last word: what is masked away is a multiple of the range
      have hmod : (v &&& m.maskForWord j).toNat = v.toNat % 2 ^ (m.bitCount - 64 * j) := by
        refine Nat.eq_of_testBit_eq fun i => ?_
        rw [BitVec.toNat_and, Nat.testBit_land, Nat.testBit_mod_two_pow, Bool.and_comm]
        by_cases hi : i < 64
        · have hmask := getLsbD_maskForWord hm.length hj hi
          rw [BitVec.getLsbD] at hmask
          rw [hmask]
          congr 1
          rw [decide_eq_decide]
          omega
        · have hlt : v.toNat < 2 ^ i :=
            v.isLt.trans_le (Nat.pow_le_pow_right (by norm_num) (not_lt.mp hi))
          rw [Nat.testBit_lt_two_pow hlt, Bool.and_false, Bool.and_false]
      have hle := ceilOfRatio_lt m.bitCount
      rw [← hm.length] at hle
      have hplace : 64 * j ≤ m.bitCount := by
        rw [wordCount] at hj
        omega
      have hpow : (2 : ℤ) ^ m.bitCount = 2 ^ (64 * j) * 2 ^ (m.bitCount - 64 * j) := by
        rw [← pow_add, Nat.add_sub_cancel' hplace]
      rw [hmod, hpow, Int.natCast_mod, Nat.cast_pow]
      exact Int.ModEq.mul_left' (Int.mod_modEq _ _)
    · have hall : v &&& m.maskForWord j = v := by
        refine BitVec.eq_of_getLsbD_eq fun i hi => ?_
        rw [BitVec.getLsbD_and, getLsbD_maskForWord hm.length hj hi, decide_eq_true (by omega),
          Bool.and_true]
      rw [hall]
  have hset : ((m.setWord j v).value : ℤ) + 2 ^ (64 * j) * (m.getWord j).toNat =
      m.value + 2 ^ (64 * j) * (v &&& m.maskForWord j).toNat := by
    have hvalue := WordList.value_set m.data j (v &&& m.maskForWord j) hj
    exact_mod_cast hvalue
  calc ((m.setWord j v).value : ℤ)
      = m.value + 2 ^ (64 * j) * (v &&& m.maskForWord j).toNat -
          2 ^ (64 * j) * (m.getWord j).toNat := by rw [← hset]; ring
    _ ≡ m.value + 2 ^ (64 * j) * v.toNat - 2 ^ (64 * j) * (m.getWord j).toNat
          [ZMOD 2 ^ m.bitCount] := ((hmasked.add_left _).sub_right _)
    _ = _ := by ring

/-- A place above all words does not matter. -/
theorem place_modEq_zero (hm : m.Clean) {i : ℕ} (hi : m.wordCount ≤ i) :
    (2 : ℤ) ^ (64 * i) ≡ 0 [ZMOD 2 ^ m.bitCount] := by
  have hle := le_ceilOfRatio m.bitCount
  rw [← hm.length] at hle
  rw [wordCount] at hi
  exact (Int.modEq_zero_iff_dvd).mpr (pow_dvd_pow 2 (by omega))

/-- From word `i` on, the increment adds the place of that word. -/
theorem incrementFrom_spec (k : ℕ) : ∀ (m : InlineBitmap) (i : ℕ), m.Clean → i + k = m.wordCount →
    (incrementFrom m (List.range' i k)).Clean ∧
      (incrementFrom m (List.range' i k)).bitCount = m.bitCount ∧
      ((incrementFrom m (List.range' i k)).value : ℤ) ≡ m.value + 2 ^ (64 * i)
        [ZMOD 2 ^ m.bitCount] := by
  induction k with
  | zero =>
    intro m i hm hi
    refine ⟨hm, rfl, ?_⟩
    have hplace := (place_modEq_zero hm (i := i) (by omega)).add_left m.value
    exact hplace.symm
  | succ k ih =>
    intro m i hm hi
    have hj : i < m.wordCount := by omega
    rw [List.range'_succ]
    unfold incrementFrom
    by_cases hword : m.getWord i < BitVec.allOnes 64
    · have hlt : (m.getWord i).toNat < 2 ^ 64 - 1 := hword
      have hsucc : ((m.getWord i + 1).toNat : ℤ) - (m.getWord i).toNat = 1 := by
        rw [BitVec.toNat_add, show (1 : BitVec 64).toNat = 1 from rfl, Nat.mod_eq_of_lt (by omega)]
        push_cast
        ring
      simp only [if_pos hword]
      refine ⟨hm.setWord hj _, rfl, ?_⟩
      have hset := value_setWord_modEq hm hj (m.getWord i + 1)
      rwa [hsucc, mul_one] at hset
    · have hall : ((m.getWord i).toNat : ℤ) = 2 ^ 64 - 1 := by
        have hge : ¬ (m.getWord i).toNat < 2 ^ 64 - 1 := hword
        omega
      simp only [if_neg hword]
      obtain ⟨hclean, hcount, hvalue⟩ := ih (m.setWord i 0) (i + 1) (hm.setWord hj 0) (by
        rw [wordCount, InlineBitmap.setWord, List.length_set]
        rw [wordCount] at hi
        omega)
      refine ⟨hclean, hcount, hvalue.trans ?_⟩
      have hset := (value_setWord_modEq hm hj 0).add_right (2 ^ (64 * (i + 1)))
      have hcarry : (m.value : ℤ) + 2 ^ (64 * i) * (0 - (2 ^ 64 - 1)) + 2 ^ (64 * (i + 1)) =
          m.value + 2 ^ (64 * i) := by ring
      rwa [hall, show ((0 : BitVec 64).toNat : ℤ) = 0 from rfl, hcarry] at hset

/-- From word `i` on, the decrement subtracts the place of that word. -/
theorem decrementFrom_spec (k : ℕ) : ∀ (m : InlineBitmap) (i : ℕ), m.Clean → i + k = m.wordCount →
    (decrementFrom m (List.range' i k)).Clean ∧
      (decrementFrom m (List.range' i k)).bitCount = m.bitCount ∧
      ((decrementFrom m (List.range' i k)).value : ℤ) ≡ m.value - 2 ^ (64 * i)
        [ZMOD 2 ^ m.bitCount] := by
  induction k with
  | zero =>
    intro m i hm hi
    refine ⟨hm, rfl, ?_⟩
    have hplace := (place_modEq_zero hm (i := i) (by omega)).sub_left m.value
    exact hplace.symm
  | succ k ih =>
    intro m i hm hi
    have hj : i < m.wordCount := by omega
    rw [List.range'_succ]
    unfold decrementFrom
    by_cases hword : m.getWord i > 0
    · have hpos : 0 < (m.getWord i).toNat := hword
      have hpred : ((m.getWord i - 1).toNat : ℤ) - (m.getWord i).toNat = -1 := by
        rw [BitVec.toNat_sub, show (1 : BitVec 64).toNat = 1 from rfl]
        omega
      simp only [if_pos hword]
      refine ⟨hm.setWord hj _, rfl, ?_⟩
      have hset := value_setWord_modEq hm hj (m.getWord i - 1)
      rwa [hpred, mul_neg_one] at hset
    · have hzero : ((m.getWord i).toNat : ℤ) = 0 := by
        have hnot : ¬ 0 < (m.getWord i).toNat := hword
        omega
      have hones : (((~~~0 : BitVec 64).toNat : ℕ) : ℤ) = 2 ^ 64 - 1 := by
        rw [show (~~~0 : BitVec 64) = BitVec.allOnes 64 from rfl]
        norm_num
      simp only [if_neg hword]
      generalize (~~~0 : BitVec 64) = ones at hones ⊢
      obtain ⟨hclean, hcount, hvalue⟩ := ih (m.setWord i ones) (i + 1) (hm.setWord hj _) (by
        rw [wordCount, InlineBitmap.setWord, List.length_set]
        rw [wordCount] at hi
        omega)
      refine ⟨hclean, hcount, hvalue.trans ?_⟩
      have hset := (value_setWord_modEq hm hj ones).sub_right (2 ^ (64 * (i + 1)))
      have hnext : (2 : ℤ) ^ (64 * (i + 1)) = 2 ^ (64 * i) * 2 ^ 64 := by rw [← pow_add]; rfl
      rw [hzero, hones] at hset
      rw [hnext] at hset ⊢
      generalize (2 : ℤ) ^ 64 = base at hset ⊢
      refine hset.trans ?_
      rw [show (m.value : ℤ) + 2 ^ (64 * i) * (base - 1 - 0) - 2 ^ (64 * i) * base =
        m.value - 2 ^ (64 * i) by ring]

/-- A clean bitmap holds the value which its number is equal to modulo the range. -/
theorem represents_of_modEq (hm : m.Clean) (hcount : m.bitCount = w)
    (hvalue : (m.value : ℤ) ≡ x [ZMOD 2 ^ w]) : Represents m (Bits.ofInt w x) := by
  have hlt : (m.value : ℤ) < 2 ^ w := by exact_mod_cast hcount ▸ hm.value_lt
  refine ⟨hcount, hm, ?_⟩
  have heq : (m.value : ℤ) = ((Bits.ofInt w x).toNat : ℤ) := by
    rw [ofInt_toNat, ← hvalue.eq, Int.emod_eq_of_lt (by omega) hlt]
  exact_mod_cast heq

theorem increment_spec (hm : Represents m a) :
    Represents (increment m) (Bits.ofInt a.bitCount (a.toNat + 1)) := by
  obtain ⟨hclean, hcount, hvalue⟩ := incrementFrom_spec m.wordCount m 0 hm.clean (Nat.zero_add _)
  rw [hm.bitCount, hm.value] at hvalue
  rw [increment, List.range_eq_range']
  exact represents_of_modEq hclean (hcount.trans hm.bitCount) hvalue

theorem decrement_spec (hm : Represents m a) :
    Represents (decrement m) (Bits.ofInt a.bitCount (a.toNat - 1)) := by
  obtain ⟨hclean, hcount, hvalue⟩ := decrementFrom_spec m.wordCount m 0 hm.clean (Nat.zero_add _)
  rw [hm.bitCount, hm.value] at hvalue
  rw [decrement, List.range_eq_range']
  exact represents_of_modEq hclean (hcount.trans hm.bitCount) hvalue

/-! ## Exact arithmetic -/

/-- The value of a bitmap in two's complement. -/
def signedValue (m : InlineBitmap) : ℤ := (m.value : ℤ).bmod (2 ^ m.bitCount)

/-- The outcome is a clean bitmap of a width which holds a value. -/
def Yields (result : Option InlineBitmap) (width : ℕ) (value : ℤ) : Prop :=
  ∃ m, result = some m ∧ m.bitCount = width ∧ m.Clean ∧ (m.value : ℤ) = value

/-- The operations return the mathematical results, the comparisons compare the values. -/
structure ExactOn (a b : InlineBitmap) : Prop where
  add : a.bitCount = b.bitCount →
    Yields (add a b) a.bitCount ((a.value + b.value) % 2 ^ a.bitCount)
  sub : a.bitCount = b.bitCount →
    Yields (sub a b) a.bitCount ((a.value - b.value) % 2 ^ a.bitCount)
  negate : Yields (negate a) a.bitCount ((-a.value) % 2 ^ a.bitCount)
  increment : Yields (some (increment a)) a.bitCount ((a.value + 1) % 2 ^ a.bitCount)
  decrement : Yields (some (decrement a)) a.bitCount ((a.value - 1) % 2 ^ a.bitCount)
  uMul : Yields (uMul a b) (a.bitCount + b.bitCount) (a.value * b.value)
  sMul : Yields (sMul a b) (a.bitCount + b.bitCount)
    ((signedValue a * signedValue b) % 2 ^ (a.bitCount + b.bitCount))
  sMul_signedValue : ∀ m, BitmapOps.sMul a b = some m →
    signedValue m = signedValue a * signedValue b
  uCmp : uCmp a b = Int.sign ((a.value : ℤ) - b.value)
  uEqual : uEqual a b = decide (a.value = b.value)
  uLessThan : uLessThan a b = decide (a.value < b.value)
  uLessThanOrEqual : uLessThanOrEqual a b = decide (a.value ≤ b.value)
  uGreaterThan : uGreaterThan a b = decide (a.value > b.value)
  uGreaterThanOrEqual : uGreaterThanOrEqual a b = decide (a.value ≥ b.value)
  sEqual : sEqual a b = decide (signedValue a = signedValue b)
  sLessThan : sLessThan a b = some (decide (signedValue a < signedValue b))
  sLessThanOrEqual : sLessThanOrEqual a b = some (decide (signedValue a ≤ signedValue b))
  sGreaterThan : sGreaterThan a b = some (decide (signedValue a > signedValue b))
  sGreaterThanOrEqual : sGreaterThanOrEqual a b = some (decide (signedValue a ≥ signedValue b))

/-- The comparisons with an `int64_t`, of which the unsigned ones want it not negative. -/
structure ExactOnWord (a : InlineBitmap) (rhs : BitVec 64) : Prop where
  uEqual : 0 ≤ rhs.toInt → uEqualInt64 a rhs = some (decide ((a.value : ℤ) = rhs.toInt))
  uLessThan : 0 ≤ rhs.toInt → uLessThanInt64 a rhs = some (decide ((a.value : ℤ) < rhs.toInt))
  uLessThanOrEqual : 0 ≤ rhs.toInt →
    uLessThanOrEqualInt64 a rhs = some (decide ((a.value : ℤ) ≤ rhs.toInt))
  uGreaterThan : 0 ≤ rhs.toInt →
    uGreaterThanInt64 a rhs = some (decide ((a.value : ℤ) > rhs.toInt))
  uGreaterThanOrEqual : 0 ≤ rhs.toInt →
    uGreaterThanOrEqualInt64 a rhs = some (decide ((a.value : ℤ) ≥ rhs.toInt))
  sEqual : sEqualInt64 a rhs = some (decide (signedValue a = rhs.toInt))
  sLessThan : sLessThanInt64 a rhs = some (decide (signedValue a < rhs.toInt))
  sLessThanOrEqual : sLessThanOrEqualInt64 a rhs = some (decide (signedValue a ≤ rhs.toInt))
  sGreaterThan : sGreaterThanInt64 a rhs = some (decide (signedValue a > rhs.toInt))
  sGreaterThanOrEqual : sGreaterThanOrEqualInt64 a rhs = some (decide (signedValue a ≥ rhs.toInt))

/-- Word-wise equality, hashing and comparison are those of the bits. -/
structure SameAsBits (a b : InlineBitmap) : Prop where
  beq : a.beq b = true ↔ a.bitCount = b.bitCount ∧ ∀ i < a.bitCount, a.get i = b.get i
  hash : a.hashState = b.hashState ↔
    a.bitCount = b.bitCount ∧ ∀ i < a.bitCount, a.get i = b.get i
  uCmp : a.uCmp b = Int.sign ((a.value : ℤ) - b.value)
  get : ∀ i, a.get i = a.value.testBit i

theorem signedValue_eq (h : Represents m b) : signedValue m = BitsOps.toInt b := by
  rw [signedValue, h.bitCount, h.value, ← toInt_toBitVec, BitVec.toInt_eq_toNat_bmod]
  rfl

theorem yields_of_represents {result : Option InlineBitmap}
    (h : ∃ r, result = some r ∧ Represents r b) : Yields result b.bitCount b.toNat := by
  obtain ⟨r, hr, hrep⟩ := h
  exact ⟨r, hr, hrep.bitCount, hrep.clean, by rw [hrep.value]⟩

theorem yields_ofInt {result : Option InlineBitmap}
    (h : ∃ r, result = some r ∧ Represents r (Bits.ofInt w x)) : Yields result w (x % 2 ^ w) := by
  have hyields := yields_of_represents h
  rwa [ofInt_toNat] at hyields

/-- A signed value which fits its width is read back. -/
theorem toInt_ofInt (hfits : minBitCountSigned x ≤ w) : BitsOps.toInt (Bits.ofInt w x) = x := by
  have hvec : BitsOps.toInt (Bits.ofInt w x) = x.bmod (2 ^ w) := by
    rw [← toInt_toBitVec, ← BitVec.toInt_ofInt]
    rfl
  rw [hvec]
  rcases Nat.eq_zero_or_pos w with rfl | hw
  · have hx : x = 0 := by
      by_contra hne
      unfold minBitCountSigned at hfits
      rw [if_neg hne] at hfits
      split at hfits <;> omega
    rw [hx]
    rfl
  · rw [minBitCountSigned_le_iff hw] at hfits
    have hpow : (2 : ℕ) ^ w = 2 * 2 ^ (w - 1) := by
      rw [← pow_succ', Nat.sub_add_cancel hw]
    have hcast : ((2 ^ (w - 1) : ℕ) : ℤ) = 2 ^ (w - 1) := Nat.cast_pow 2 _
    exact Int.bmod_eq_of_le (by omega) (by omega)

theorem sameAsBits {a b : InlineBitmap} (ha : a.Clean) (hb : b.Clean) : SameAsBits a b where
  beq := ha.beq_iff_bits hb
  hash := ha.hashState_eq_iff hb
  uCmp := uCmp_eq a b
  get := (Represents.of_clean ha).testBit

theorem exactOn {a b : InlineBitmap} (hca : a.Clean) (hcb : b.Clean) : ExactOn a b := by
  have ha := Represents.of_clean hca
  have hb := Represents.of_clean hcb
  have hsa := signedValue_eq ha
  have hsb := signedValue_eq hb
  constructor
  case add => exact fun hab => yields_ofInt (add_spec ha hb hab)
  case sub => exact fun hab => yields_ofInt (sub_spec ha hb hab)
  case negate => exact yields_ofInt (negate_spec ha)
  case increment => exact yields_ofInt ⟨_, rfl, increment_spec ha⟩
  case decrement => exact yields_ofInt ⟨_, rfl, decrement_spec ha⟩
  case uMul =>
    have hyields := yields_of_represents (uMul_spec ha hb)
    rw [BitsOps.uMul_toNat] at hyields
    exact_mod_cast hyields
  case sMul =>
    rw [hsa, hsb]
    exact yields_ofInt (sMul_spec ha hb)
  case sMul_signedValue =>
    intro m hm
    obtain ⟨r, hr, hrep⟩ := sMul_spec ha hb
    obtain rfl : r = m := Option.some.inj (hr.symm.trans hm)
    rw [signedValue_eq hrep, toInt_ofInt (minBitCountSigned_mul _ _), hsa, hsb]
  case uCmp => exact uCmp_spec ha hb
  case uEqual => exact uEqual_spec ha hb
  case uLessThan => exact uLessThan_spec ha hb
  case uLessThanOrEqual => exact uLessThanOrEqual_spec ha hb
  case uGreaterThan => exact uGreaterThan_spec ha hb
  case uGreaterThanOrEqual => exact uGreaterThanOrEqual_spec ha hb
  case sEqual => rw [hsa, hsb]; exact sEqual_spec ha hb
  case sLessThan => rw [hsa, hsb]; exact sLessThan_spec ha hb
  case sLessThanOrEqual => rw [hsa, hsb]; exact sLessThanOrEqual_spec ha hb
  case sGreaterThan => rw [hsa, hsb]; exact sGreaterThan_spec ha hb
  case sGreaterThanOrEqual => rw [hsa, hsb]; exact sGreaterThanOrEqual_spec ha hb

theorem exactOnWord {a : InlineBitmap} (hca : a.Clean) (rhs : BitVec 64) : ExactOnWord a rhs := by
  have ha := Represents.of_clean hca
  have hsa := signedValue_eq ha
  have hnat : 0 ≤ rhs.toInt → (rhs.toNat : ℤ) = rhs.toInt := fun hrhs => by
    have hlt := rhs.toInt_lt
    rw [toNat_eq_toInt, Int.emod_eq_of_lt hrhs (by omega)]
  constructor
  case uEqual =>
    intro hrhs
    rw [uEqualInt64, withUint64_spec (p := fun x y => decide (x = y)) (uEqual_spec ha) hrhs,
      ← hnat hrhs]
    norm_cast
  case uLessThan =>
    intro hrhs
    rw [uLessThanInt64, withUint64_spec (p := fun x y => decide (x < y)) (uLessThan_spec ha) hrhs,
      ← hnat hrhs]
    norm_cast
  case uLessThanOrEqual =>
    intro hrhs
    rw [uLessThanOrEqualInt64, withUint64_spec (p := fun x y => decide (x ≤ y))
      (uLessThanOrEqual_spec ha) hrhs, ← hnat hrhs]
    norm_cast
  case uGreaterThan =>
    intro hrhs
    rw [uGreaterThanInt64, withUint64_spec (p := fun x y => decide (x > y))
      (uGreaterThan_spec ha) hrhs, ← hnat hrhs]
    norm_cast
  case uGreaterThanOrEqual =>
    intro hrhs
    rw [uGreaterThanOrEqualInt64, withUint64_spec (p := fun x y => decide (x ≥ y))
      (uGreaterThanOrEqual_spec ha) hrhs, ← hnat hrhs]
    norm_cast
  case sEqual =>
    rw [hsa]
    exact withInt64_spec (p := fun x y => decide (x = y))
      (fun hb => congrArg some (sEqual_spec ha hb)) rhs
  case sLessThan =>
    rw [hsa]
    exact withInt64_spec (p := fun x y => decide (x < y)) (sLessThan_spec ha) rhs
  case sLessThanOrEqual =>
    rw [hsa]
    exact withInt64_spec (p := fun x y => decide (x ≤ y)) (sLessThanOrEqual_spec ha) rhs
  case sGreaterThan =>
    rw [hsa]
    exact withInt64_spec (p := fun x y => decide (x > y)) (sGreaterThan_spec ha) rhs
  case sGreaterThanOrEqual =>
    rw [hsa]
    exact withInt64_spec (p := fun x y => decide (x ≥ y)) (sGreaterThanOrEqual_spec ha) rhs

/-- Operations on bitmaps lead to clean bitmaps, on which equality, hashing, comparisons and
arithmetic are those of the bits and of the numbers. -/
theorem arithmetic_exact : (∀ m, Built m → m.Clean) ∧
      ∀ a b, Built a → Built b → SameAsBits a b ∧ ExactOn a b ∧ ∀ rhs, ExactOnWord a rhs :=
  ⟨fun _ hm => hm.clean, fun _ _ ha hb =>
    ⟨sameAsBits ha.clean hb.clean, exactOn ha.clean hb.clean, exactOnWord ha.clean⟩⟩

/-- A carry out of the first word. -/
theorem arithmetic_exact_carry :
    Yields (some (increment (fromWord (BitVec.allOnes 64) 65 false))) 65 (2 ^ 64) := by
  have hvalue : ((fromWord (BitVec.allOnes 64) 65 false).value + 1 : ℤ) % 2 ^ 65 = 2 ^ 64 := by
    rw [show (fromWord (BitVec.allOnes 64) 65 false).value = 2 ^ 64 - 1 by decide]
    norm_num
  have hexact := (arithmetic_exact.2 _ _ (.fromWord (BitVec.allOnes 64) 65 false)
    (.fromWord 0 65 false)).2.1
  have hincrement := hexact.increment
  rw [fromWord_bitCount, hvalue] at hincrement
  exact hincrement

end BitmapOps
end Xls
