/-
# Bits held in a bitmap

`Bits` (`xls/ir/bits.h`, `xls/ir/bits.cc`) and the conversions of `BigInt`
(`xls/ir/big_int.cc`) as they work on an `InlineBitmap`: words for values of at most 64 bits,
bytes for big integers, single bits for slices and ropes.  `Represents` says that a clean
bitmap holds a `Bits` of the value layer; every function here computes what its counterpart
there does.

A big integer is an integer; its binary forms are those of the library which the source uses
(big-endian bytes, as many as asked for).

* `toUint64_spec`, `toInt64_spec`, `uBits_spec`, `sBits_spec` : words and bits;
* `makeUnsigned_spec`, `makeSigned_spec`, `toSignedBitmap_spec`, `toUnsignedBitmap_spec` : big
  integers and bits.
-/
import Xls.DataStructures.InlineBitmap
import Xls.BigInt

namespace Xls

open InlineBitmap

/-! ## `Bits` -/

namespace BitmapBits

/-- `Bits(bit_count)`. -/
def zero (bitCount : ℕ) : InlineBitmap := InlineBitmap.make bitCount false

def msb (b : InlineBitmap) : Bool := if b.bitCount = 0 then false else b.get (b.bitCount - 1)

def fitsInNBitsUnsigned (b : InlineBitmap) (n : ℕ) : Bool :=
  (List.range' n (b.bitCount - n)).all fun i => !b.get i

def fitsInNBitsSigned (b : InlineBitmap) (n : ℕ) : Bool :=
  if n = 0 then b.isAllZeroes
  else (List.range' (n - 1) (b.bitCount - (n - 1))).all fun i => b.get i == msb b

def toUint64 (b : InlineBitmap) : Option (BitVec 64) :=
  if b.bitCount = 0 then some 0
  else if fitsInNBitsUnsigned b 64 then some (b.getWord 0) else none

def toInt64 (b : InlineBitmap) : Option (BitVec 64) :=
  if fitsInNBitsSigned b 64 then
    let word := b.getWord 0
    some (if msb b ∧ b.bitCount < 64 then word ||| ((-1#64) <<< b.bitCount) else word)
  else none

/-- `MinBitCountSigned`. -/
def minBitCountSigned (value : ℤ) : ℕ :=
  if value = 0 then 0
  else if value < 0 then Bits.minBitCountUnsigned (-(value + 1)).toNat + 1
  else Bits.minBitCountUnsigned value.toNat + 1

def uBits (value : BitVec 64) (bitCount : ℕ) : Option InlineBitmap :=
  if Bits.minBitCountUnsigned value.toNat > bitCount then none
  else some (InlineBitmap.fromWord value bitCount false)

def sBits (value : BitVec 64) (bitCount : ℕ) : Option InlineBitmap :=
  if minBitCountSigned value.toInt > bitCount then none
  else
    let fill := value.sshiftRight 63 != 0
    some (InlineBitmap.fromWord value bitCount fill)

def allOnes (bitCount : ℕ) : Option InlineBitmap :=
  if bitCount = 0 then some (zero 0) else sBits (-1) bitCount

def slice (b : InlineBitmap) (start width : ℕ) : Option InlineBitmap :=
  if start + width ≤ b.bitCount then
    some ((List.range width).foldl
      (fun result i => if b.get (start + i) then result.set i true else result) (zero width))
  else none

end BitmapBits

/-- `BitsRope`: bits which are strung together, and how many there are already. -/
structure BitsRope where
  bitmap : InlineBitmap
  index : ℕ

namespace BitsRope

def make (totalBitCount : ℕ) : BitsRope := ⟨InlineBitmap.make totalBitCount false, 0⟩

def pushBack (rope : BitsRope) (bits : InlineBitmap) : BitsRope :=
  ⟨(List.range bits.bitCount).foldl (fun m i => m.set (rope.index + i) (bits.get i)) rope.bitmap,
    rope.index + bits.bitCount⟩

def build (rope : BitsRope) : Option InlineBitmap :=
  if rope.index = rope.bitmap.bitCount then some rope.bitmap else none

end BitsRope

/-! ## `BigInt` -/

namespace BigInt

/-- `BN_bin2bn`: a number from its bytes, the most significant one first. -/
def bin2bn (bytes : List (BitVec 8)) : ℕ := bytes.foldl (fun n byte => n * 256 + byte.toNat) 0

/-- `BN_num_bytes`. -/
def numBytes (n : ℕ) : ℕ := (n.size + 7) / 8

/-- `BN_bn2bin_padded`: the bytes of a number, the most significant one first. -/
def bn2binPadded (n len : ℕ) : List (BitVec 8) :=
  ((List.range len).map fun i => BitVec.ofNat 8 (n / 256 ^ i)).reverse

def makeUnsigned (bits : InlineBitmap) : ℤ := bin2bn bits.toBytes.reverse

/-- `MakeSigned`: the magnitude of a negative number is its inverse plus one. -/
def makeSigned (bits : InlineBitmap) : ℤ :=
  if bits.bitCount = 0 ∨ BitmapBits.msb bits = false then makeUnsigned bits
  else
    let byteVector := bits.toBytes.reverse.map (~~~ ·)
    let bitsInMsb := bits.bitCount % 8
    let byteVector := if bitsInMsb ≠ 0 then byteVector.modify 0 (· &&& (mask bitsInMsb).setWidth 8)
      else byteVector
    (-(bin2bn byteVector + 1 : ℤ))

/-- `ToSignedBits`. -/
def toSignedBitmap (x : ℤ) : Option InlineBitmap :=
  if x = 0 then some (BitmapBits.zero 0)
  else do
    let isNegative := decide (x < 0)
    let decrementedIfNegative := if isNegative then x.natAbs - 1 else x.natAbs
    let byteVector := bn2binPadded decrementedIfNegative (numBytes decrementedIfNegative)
    let byteVector := if isNegative then byteVector.map (~~~ ·) else byteVector
    let resultBitCount := signedBitCount x
    let bits ← InlineBitmap.fromBytes (resultBitCount - 1) byteVector.reverse
    let sign ← if isNegative then BitmapBits.allOnes 1 else some (BitmapBits.zero 1)
    (((BitsRope.make resultBitCount).pushBack bits).pushBack sign).build

/-- `ToUnsignedBits`. -/
def toUnsignedBitmap (x : ℤ) : Option InlineBitmap :=
  if x < 0 then none
  else
    InlineBitmap.fromBytes x.natAbs.size (bn2binPadded x.natAbs (numBytes x.natAbs)).reverse

/-- `ToSignedBitsWithBitCount`. -/
def toSignedBitmapWithBitCount (x : ℤ) (bitCount : ℕ) : Option InlineBitmap :=
  if bitCount < signedBitCount x then none
  else do
    let bits ← toSignedBitmap x
    let extension ← if x < 0 then BitmapBits.allOnes (bitCount - signedBitCount x)
      else some (BitmapBits.zero (bitCount - signedBitCount x))
    (((BitsRope.make bitCount).pushBack bits).pushBack extension).build

/-- `ToUnsignedBitsWithBitCount`. -/
def toUnsignedBitmapWithBitCount (x : ℤ) (bitCount : ℕ) : Option InlineBitmap :=
  if x < 0 then none
  else if bitCount < x.natAbs.size then none
  else do
    let bits ← toUnsignedBitmap x
    (((BitsRope.make bitCount).pushBack bits).pushBack
      (BitmapBits.zero (bitCount - x.natAbs.size))).build

end BigInt

/-! ## Bitmaps which hold a value -/

/-- A clean bitmap holds the bits of a value. -/
structure Represents (m : InlineBitmap) (b : Bits) : Prop where
  bitCount : m.bitCount = b.bitCount
  clean : m.Clean
  value : m.value = b.toNat

namespace Represents

variable {m n : InlineBitmap} {b c : Bits} (h : Represents m b)

section

include h

theorem testBit (i : ℕ) : m.get i = b.toNat.testBit i := by
  rw [get_eq_bit, ← h.value]
  exact (WordList.testBit_value (by norm_num) m.data i).symm

theorem get (i : ℕ) : m.get i = b.get i := h.testBit i

end

/-- Every clean bitmap holds a value. -/
theorem of_clean (h : m.Clean) : Represents m ⟨m.bitCount, m.value, h.value_lt⟩ := ⟨rfl, h, rfl⟩

include h in
theorem congr (hbits : b = c) : Represents m c := hbits ▸ h

/-- A clean bitmap is known by its bits. -/
theorem of_bits (hcount : m.bitCount = b.bitCount) (hclean : m.Clean)
    (hbit : ∀ i, m.bit i = b.toNat.testBit i) : Represents m b :=
  ⟨hcount, hclean, WordList.value_eq_of_bit (by norm_num) hbit⟩

theorem zero (w : ℕ) : Represents (BitmapBits.zero w) (Bits.zero w) := by
  refine of_bits (make_bitCount _ _) (clean_make _ _) fun i => ?_
  rw [BitmapBits.zero, bit_make, Bool.false_and, Bits.zero_toNat, Nat.zero_testBit]

include h in
theorem msb : BitmapBits.msb m = b.msb := by
  rw [BitmapBits.msb, Bits.msb, h.bitCount]
  split
  · rfl
  · exact h.get _

/-- The single bits of a range are pushed at a position. -/
theorem foldl_set_from (n : InlineBitmap) (start : ℕ) (hm : m.Clean)
    (hfits : start + n.bitCount ≤ m.bitCount) :
    ((List.range n.bitCount).foldl (fun m i => m.set (start + i) (n.get i)) m).bitCount =
        m.bitCount ∧
      ((List.range n.bitCount).foldl (fun m i => m.set (start + i) (n.get i)) m).Clean ∧
      ∀ i, ((List.range n.bitCount).foldl (fun m i => m.set (start + i) (n.get i)) m).bit i =
        if start ≤ i ∧ i < start + n.bitCount then n.get (i - start) else m.bit i := by
  have hfold : (List.range n.bitCount).foldl (fun m i => m.set (start + i) (n.get i)) m =
      ((List.range n.bitCount).map (start + ·)).foldl
        (fun m index => m.set index (n.get (index - start))) m := by
    rw [List.foldl_map]
    simp only [Nat.add_sub_cancel_left]
  obtain ⟨hcount, hclean, hbit⟩ := foldl_set (v := fun index => n.get (index - start))
    ((List.range n.bitCount).map (start + ·)) hm fun index hindex => by
      obtain ⟨i, hi, rfl⟩ := List.mem_map.mp hindex
      have := List.mem_range.mp hi
      omega
  rw [hfold]
  refine ⟨hcount, hclean, fun i => ?_⟩
  rw [hbit]
  by_cases hi : start ≤ i ∧ i < start + n.bitCount
  · rw [if_pos hi, if_pos (List.mem_map.mpr ⟨i - start, List.mem_range.mpr (by omega), by omega⟩)]
  · rw [if_neg hi, if_neg]
    intro hmem
    obtain ⟨j, hj, rfl⟩ := List.mem_map.mp hmem
    have := List.mem_range.mp hj
    exact hi ⟨by omega, by omega⟩

end Represents

/-! ## Words and bits -/

namespace BitmapBits

variable {m n : InlineBitmap} {b c : Bits}

/-- A word which fits. -/
theorem represents_fromWord {value : BitVec 64} (hcount : value.toNat < 2 ^ b.bitCount)
    (hvalue : b.toNat = value.toNat) :
    Represents (fromWord value b.bitCount false) b := by
  refine .of_bits (fromWord_bitCount _ _ _) (clean_fromWord _ _ _) fun i => ?_
  rw [bit_fromWord, hvalue]
  by_cases hi : i < b.bitCount
  · rw [decide_eq_true hi]
    split
    · rfl
    · exact (BitVec.getLsbD_of_ge value i (by omega)).symm
  · rw [decide_eq_false hi]
    exact (Nat.testBit_lt_two_pow (hcount.trans_le
      (Nat.pow_le_pow_right (by norm_num) (not_lt.mp hi)))).symm

theorem uBits_spec {value : BitVec 64} (hfits : value.toNat < 2 ^ b.bitCount)
    (hvalue : b.toNat = value.toNat) :
    ∃ r, uBits value b.bitCount = some r ∧ Represents r b := by
  refine ⟨_, ?_, represents_fromWord hfits hvalue⟩
  rw [uBits, if_neg (not_lt.mpr (Bits.minBitCountUnsigned_le_iff.mpr hfits))]

end BitmapBits

/-- The two's complement of an integer. -/
def Bits.ofInt (w : ℕ) (x : ℤ) : Bits := ⟨w, (BitVec.ofInt w x).toNat, (BitVec.ofInt w x).isLt⟩

/-- The bits as a bit vector. -/
def Bits.toBitVec (b : Bits) : BitVec b.bitCount := BitVec.ofNatLT b.toNat b.isLt

namespace BitmapBits

variable {m n : InlineBitmap} {b c : Bits} (h : Represents m b)

theorem msb_toBitVec (b : Bits) : b.toBitVec.msb = b.msb := by
  rw [BitVec.msb_eq_getLsbD_last, Bits.msb]
  split
  · rename_i h
    rw [BitVec.getLsbD, show b.toBitVec.toNat = b.toNat from rfl, Bits.toNat_eq_zero_of_bitCount h,
      Nat.zero_testBit]
  · rfl

theorem toInt_toBitVec (b : Bits) : b.toBitVec.toInt = BitsOps.toInt b := by
  rw [BitVec.toInt_eq_msb_cond, msb_toBitVec]
  rfl

/-- The signed value of a vector determines it. -/
theorem ofInt_toInt (b : Bits) : Bits.ofInt b.bitCount (BitsOps.toInt b) = b := by
  rw [← toInt_toBitVec]
  exact Bits.ext rfl (by simp [Bits.ofInt, Bits.toBitVec])

theorem minBitCountSigned_le_iff {x : ℤ} {w : ℕ} (hw : 0 < w) :
    minBitCountSigned x ≤ w ↔ -(2 ^ (w - 1)) ≤ x ∧ x < 2 ^ (w - 1) := by
  have hcast : ((2 ^ (w - 1) : ℕ) : ℤ) = 2 ^ (w - 1) := Nat.cast_pow 2 _
  have hpos := Nat.two_pow_pos (w - 1)
  unfold minBitCountSigned
  split
  · rename_i h
    constructor
    · intro _
      omega
    · intro _
      exact Nat.zero_le _
  · split
    · rw [← Nat.le_sub_iff_add_le hw, Bits.minBitCountUnsigned_le_iff]
      show _ < 2 ^ (w - 1) ↔ _
      omega
    · rw [← Nat.le_sub_iff_add_le hw, Bits.minBitCountUnsigned_le_iff]
      show _ < 2 ^ (w - 1) ↔ _
      omega

/-- A signed word which fits. -/
theorem sBits_spec {value : BitVec 64} {w : ℕ} (hfits : minBitCountSigned value.toInt ≤ w) :
    ∃ r, sBits value w = some r ∧ Represents r (Bits.ofInt w value.toInt) := by
  refine ⟨_, by rw [sBits, if_neg (not_lt.mpr hfits)], ?_⟩
  have hfill : (value.sshiftRight 63 != 0) = value.msb := by
    have hshift : (value.sshiftRight 63).toInt = value.toInt >>> (63 : ℕ) :=
      BitVec.toInt_sshiftRight
    rw [Int.shiftRight_eq_div_pow] at hshift
    have hlt := value.toInt_lt
    have hge := value.le_toInt
    rw [BitVec.msb_eq_toInt, Bool.eq_iff_iff, bne_iff_ne, decide_eq_true_eq, ne_eq,
      ← BitVec.toInt_inj, show (0 : BitVec 64).toInt = 0 from rfl]
    omega
  refine .of_bits (fromWord_bitCount _ _ _) (clean_fromWord _ _ _) fun i => ?_
  rw [bit_fromWord, hfill]
  show _ = (value.signExtend w).getLsbD i
  rw [BitVec.getLsbD_signExtend]

section

include h

theorem fitsInNBitsUnsigned_iff (w : ℕ) :
    fitsInNBitsUnsigned m w = true ↔ b.toNat < 2 ^ w := by
  unfold fitsInNBitsUnsigned
  rw [List.all_eq_true]
  constructor
  · intro hall
    refine Nat.lt_pow_two_of_testBit _ fun i hi => ?_
    by_cases hlt : i < b.bitCount
    · have hclear := hall i (List.mem_range'_1.mpr (by rw [h.bitCount]; omega))
      rw [h.testBit] at hclear
      simpa using hclear
    · exact Nat.testBit_lt_two_pow (b.isLt.trans_le
        (Nat.pow_le_pow_right (by norm_num) (not_lt.mp hlt)))
  · intro hlt i hi
    have hle := (List.mem_range'_1.mp hi).1
    rw [h.testBit, Nat.testBit_lt_two_pow (hlt.trans_le (Nat.pow_le_pow_right (by norm_num) hle))]
    rfl

/-- The first word holds the low bits. -/
theorem toNat_getWord_zero : (m.getWord 0).toNat = b.toNat % 2 ^ 64 := by
  rw [← h.value]
  have hword := WordList.getD_toNat (k := 64) (by norm_num) m.data 0
  rw [pow_zero, Nat.div_one] at hword
  exact hword

theorem toUint64_spec (hlt : b.toNat < 2 ^ 64) :
    ∃ word, toUint64 m = some word ∧ word.toNat = b.toNat := by
  unfold toUint64
  by_cases hzero : m.bitCount = 0
  · rw [if_pos hzero]
    exact ⟨0, rfl, (Bits.toNat_eq_zero_of_bitCount (h.bitCount ▸ hzero)).symm⟩
  · rw [if_neg hzero, if_pos ((fitsInNBitsUnsigned_iff h 64).mpr hlt)]
    exact ⟨_, rfl, by rw [toNat_getWord_zero h, Nat.mod_eq_of_lt hlt]⟩

/-- A vector of at most 64 bits is sign-extended to a word. -/
theorem toInt64_spec (hw : b.bitCount ≤ 64) :
    ∃ word, toInt64 m = some word ∧ word.toInt = BitsOps.toInt b := by
  have hfits : fitsInNBitsSigned m 64 = true := by
    unfold fitsInNBitsSigned
    rw [if_neg (by norm_num), List.all_eq_true]
    intro i hi
    obtain ⟨hge, hlt⟩ := List.mem_range'_1.mp hi
    rw [h.bitCount] at hlt
    have hlast : i = m.bitCount - 1 := by
      rw [h.bitCount]
      omega
    rw [msb, if_neg (by omega), ← hlast]
    exact beq_self_eq_true _
  have hlow : b.toNat < 2 ^ 64 := b.isLt.trans_le (Nat.pow_le_pow_right (by norm_num) hw)
  have hword : ∀ i, (m.getWord 0).getLsbD i = b.toBitVec.getLsbD i := by
    intro i
    rw [BitVec.getLsbD, toNat_getWord_zero h, Nat.mod_eq_of_lt hlow]
    rfl
  unfold toInt64
  rw [if_pos hfits]
  refine ⟨_, rfl, ?_⟩
  rw [← toInt_toBitVec, ← BitVec.toInt_signExtend_of_le hw]
  congr 1
  refine BitVec.eq_of_getLsbD_eq fun i hi => ?_
  rw [BitVec.getLsbD_signExtend, msb_toBitVec, h.msb, h.bitCount]
  have hones : ((-1#64) <<< b.bitCount).getLsbD i = decide (b.bitCount ≤ i) := by
    rw [BitVec.getLsbD_shiftLeft, show -1#64 = BitVec.allOnes 64 from rfl, BitVec.getLsbD_allOnes,
      decide_eq_true hi, decide_eq_true (show i - b.bitCount < 64 by omega), Bool.true_and,
      Bool.and_true, ← decide_not, decide_eq_decide, not_lt]
  by_cases hin : i < b.bitCount
  · rw [decide_eq_true hi, Bool.true_and, ← hword]
    split
    · rw [BitVec.getLsbD_or, hones, decide_eq_false (not_le.mpr hin), Bool.or_false]
    · rfl
  · have hout : (m.getWord 0).getLsbD i = false := by
      rw [hword]
      exact BitVec.getLsbD_of_ge _ _ (not_lt.mp hin)
    rw [decide_eq_true hi, Bool.true_and]
    split
    · rename_i hneg
      rw [BitVec.getLsbD_or, hones, decide_eq_true (not_lt.mp hin), Bool.or_true, hneg.1]
    · rename_i hneg
      have hmsb : b.msb = false := by
        rw [← Bool.not_eq_true]
        exact fun hmsb => hneg ⟨hmsb, by omega⟩
      rw [hout, hmsb]

end

theorem allOnes_spec (w : ℕ) : ∃ r, allOnes w = some r ∧ Represents r (Bits.allOnes w) := by
  unfold allOnes
  by_cases hw : w = 0
  · subst hw
    exact ⟨_, if_pos rfl, (Represents.zero 0).congr rfl⟩
  · have hfits : minBitCountSigned (-1 : BitVec 64).toInt ≤ w := by
      show 1 ≤ w
      omega
    obtain ⟨r, hr, hrep⟩ := sBits_spec hfits
    refine ⟨r, by rw [if_neg hw, hr], hrep.congr (Bits.ext rfl ?_)⟩
    show (BitVec.ofInt w (-1)).toNat = 2 ^ w - 1
    have hpos := Nat.two_pow_pos w
    rw [BitVec.toNat_ofInt, Nat.cast_pow, Nat.cast_ofNat]
    have hcast : ((2 ^ w : ℕ) : ℤ) = 2 ^ w := Nat.cast_pow 2 _
    rw [Int.emod_eq_add_self_emod, Int.emod_eq_of_lt (by omega) (by omega)]
    omega

/-- The bits of a slice are set one by one. -/
theorem foldl_setIf {p : ℕ → Bool} (l : List ℕ) : ∀ {m : InlineBitmap}, m.Clean →
    (∀ i ∈ l, i < m.bitCount) →
    (l.foldl (fun m i => if p i then m.set i true else m) m).bitCount = m.bitCount ∧
      (l.foldl (fun m i => if p i then m.set i true else m) m).Clean ∧
      ∀ i, (l.foldl (fun m i => if p i then m.set i true else m) m).bit i =
        (m.bit i || (decide (i ∈ l) && p i)) := by
  induction l with
  | nil =>
    intro m hm _
    exact ⟨rfl, hm, fun i => by simp⟩
  | cons j l ih =>
    intro m hm hl
    have hj := hl j List.mem_cons_self
    rw [List.foldl_cons]
    by_cases hp : p j = true
    · rw [if_pos hp]
      obtain ⟨hcount, hclean, hbit⟩ := ih (hm.set hj true) fun i hi =>
        hl i (List.mem_cons_of_mem _ hi)
      refine ⟨hcount, hclean, fun i => ?_⟩
      rw [hbit, bit_set hm.length hj]
      by_cases heq : i = j
      · subst heq
        simp [hp]
      · simp [heq]
    · rw [if_neg hp]
      obtain ⟨hcount, hclean, hbit⟩ := ih hm fun i hi => hl i (List.mem_cons_of_mem _ hi)
      refine ⟨hcount, hclean, fun i => ?_⟩
      rw [hbit]
      by_cases heq : i = j
      · subst heq
        simp [hp]
      · simp [heq]

include h in
theorem slice_spec {start width : ℕ} (hle : start + width ≤ b.bitCount) :
    ∃ r, slice m start width = some r ∧ Represents r (BitsOps.slice b start width) := by
  obtain ⟨hcount, hclean, hbit⟩ := foldl_setIf (p := fun i => m.get (start + i))
    (List.range width) (clean_make width false) fun i hi => by
      exact List.mem_range.mp hi
  have hle' : start + width ≤ m.bitCount := by
    rw [h.bitCount]
    exact hle
  refine ⟨_, if_pos hle', .of_bits ?_ hclean ?_⟩
  · exact hcount.trans (make_bitCount _ _)
  · intro i
    refine (hbit i).trans ?_
    rw [ bit_make, h.testBit]
    show _ = (b.toNat / 2 ^ start % 2 ^ width).testBit i
    rw [Nat.testBit_mod_two_pow, Nat.testBit_div_two_pow, Nat.add_comm start i]
    simp

end BitmapBits

namespace BitsRope

open BitmapBits

variable {m : InlineBitmap} {b c : Bits} {rope : BitsRope} {total : ℕ}

/-- The bits which a rope holds already. -/
structure Holds (rope : BitsRope) (total : ℕ) (b : Bits) : Prop where
  index : rope.index = b.bitCount
  bitCount : rope.bitmap.bitCount = total
  clean : rope.bitmap.Clean
  bit : ∀ i, rope.bitmap.bit i = b.toNat.testBit i

theorem holds_make (total : ℕ) : Holds (make total) total (Bits.zero 0) := by
  refine ⟨rfl, make_bitCount total false, clean_make total false, fun i => ?_⟩
  show (InlineBitmap.make total false).bit i = _
  rw [bit_make, Bool.false_and, Bits.zero_toNat, Nat.zero_testBit]

/-- What is pushed becomes the more significant part. -/
theorem Holds.pushBack (h : Holds rope total b) (hm : Represents m c)
    (hfits : b.bitCount + c.bitCount ≤ total) :
    Holds (rope.pushBack m) total (BitsOps.append c b) := by
  obtain ⟨hcount, hclean, hbit⟩ := Represents.foldl_set_from m rope.index h.clean
    (by rw [h.index, hm.bitCount, h.bitCount]; exact hfits)
  refine ⟨?_, hcount.trans h.bitCount, hclean, fun i => ?_⟩
  · show rope.index + m.bitCount = c.bitCount + b.bitCount
    rw [h.index, hm.bitCount, Nat.add_comm]
  · show ((List.range m.bitCount).foldl _ rope.bitmap).bit i = _
    rw [hbit, h.bit, h.index, hm.testBit, BitsOps.append_toNat, Nat.mul_comm,
      Nat.testBit_two_pow_mul_add _ b.isLt]
    by_cases hlow : i < b.bitCount
    · rw [if_neg (by omega), if_pos hlow]
    · rw [if_neg hlow]
      by_cases hin : i < b.bitCount + m.bitCount
      · rw [if_pos ⟨by omega, hin⟩]
      · rw [hm.bitCount] at hin
        rw [if_neg (by rw [hm.bitCount]; omega),
          Nat.testBit_lt_two_pow (b.isLt.trans_le (Nat.pow_le_pow_right (by norm_num) (by omega))),
          Nat.testBit_lt_two_pow (c.isLt.trans_le (Nat.pow_le_pow_right (by norm_num) (by omega)))]

theorem Holds.build (h : Holds rope total b) (htotal : b.bitCount = total) :
    ∃ r, rope.build = some r ∧ Represents r b := by
  refine ⟨rope.bitmap, ?_, .of_bits (h.bitCount.trans htotal.symm) h.clean h.bit⟩
  rw [BitsRope.build, if_pos (by rw [h.index, h.bitCount, htotal])]

/-- Nothing in front of the bits. -/
theorem append_zero_right (b : Bits) : BitsOps.append b (Bits.zero 0) = b := by
  refine Bits.ext rfl ?_
  rw [BitsOps.append_toNat]
  simp

/-- A rope of two parts. -/
theorem build_two (total : ℕ) {lo hi : InlineBitmap} (hlo : Represents lo b) (hhi : Represents hi c)
    (htotal : c.bitCount + b.bitCount = total) :
    ∃ r, (((make total).pushBack lo).pushBack hi).build = some r ∧
      Represents r (BitsOps.append c b) := by
  have hfirst := (holds_make total).pushBack hlo (by rw [Bits.zero_bitCount]; omega)
  rw [append_zero_right] at hfirst
  exact (hfirst.pushBack hhi (by omega)).build (by rw [BitsOps.append_bitCount, htotal])

end BitsRope

/-! ## Big integers -/

namespace BigInt

variable {m : InlineBitmap} {b : Bits} (h : Represents m b)

/-- Bytes with the most significant one first. -/
theorem bin2bn_reverse (bytes : List (BitVec 8)) : bin2bn bytes.reverse = WordList.value bytes := by
  induction bytes with
  | nil => rfl
  | cons byte bytes ih =>
    rw [bin2bn, List.foldl_reverse] at ih ⊢
    rw [List.foldr_cons, ih, WordList.value_cons]
    ring

section

include h

/-- The bits of the bytes are the bits of the bitmap. -/
theorem bit_toBytes (i : ℕ) :
    WordList.bit m.toBytes i = b.toNat.testBit i := by
  have hle := le_ceilOfRatio_eight m.bitCount
  rw [← h.testBit, get_eq_bit]
  by_cases hi : i / 8 < m.byteCount
  · have hbyte : i / 8 / 8 = i / 64 := by omega
    have hoff : 8 * (i / 8 % 8) + i % 8 = i % 64 := by omega
    have h8 : i % 8 < 8 := Nat.mod_lt _ (by norm_num)
    rw [WordList.bit, toBytes, List.getD_eq_getElem?_getD, List.getElem?_map,
      List.getElem?_range hi, Option.map_some, Option.getD_some, getByte, BitVec.getLsbD_setWidth,
      BitVec.getLsbD_ushiftRight, hbyte, hoff, decide_eq_true h8]
    rfl
  · have hclear : m.bit i = false := h.clean.bit i (by rw [byteCount] at hi; omega)
    rw [hclear]
    exact WordList.bit_of_le (by simpa [toBytes] using hi)

theorem makeUnsigned_spec : makeUnsigned m = b.toNat := by
  rw [makeUnsigned, bin2bn_reverse, WordList.value_eq_of_bit (by norm_num) (bit_toBytes h)]

end

/-- The first of the reversed elements is the last one. -/
theorem reverse_modify_zero {α : Type} (l : List α) (f : α → α) :
    (l.reverse.modify 0 f).reverse = l.modify (l.length - 1) f := by
  rcases List.eq_nil_or_concat l with rfl | ⟨init, x, rfl⟩
  · rfl
  · refine List.ext_getElem? fun i => ?_
    rcases lt_trichotomy i init.length with hlt | rfl | hgt
    · simp [List.getElem?_append_left hlt, hlt.ne']
    · simp
    · simp [List.getElem?_append_right hgt.le, hgt.ne, Nat.sub_ne_zero_of_lt hgt]

/-- Inverted bytes. -/
theorem bit_map_not (bytes : List (BitVec 8)) (i : ℕ) :
    WordList.bit (bytes.map (~~~ ·)) i = (decide (i / 8 < bytes.length) && !WordList.bit bytes i) := by
  have h8 : i % 8 < 8 := Nat.mod_lt _ (by norm_num)
  by_cases hi : i / 8 < bytes.length
  · simp [WordList.bit, hi, h8]
  · rw [WordList.bit_of_le (by simpa using hi), decide_eq_false hi, Bool.false_and]

/-- The complement of a number below a power of two. -/
theorem testBit_complement {n w : ℕ} (h : n < 2 ^ w) (i : ℕ) :
    (2 ^ w - 1 - n).testBit i = (decide (i < w) && !n.testBit i) := by
  rw [Nat.sub_sub, Nat.add_comm 1 n, Nat.testBit_two_pow_sub_succ h]

include h in
/-- The magnitude of a negative number is the inverse of its bits plus one. -/
theorem makeSigned_spec : makeSigned m = BitsOps.toInt b := by
  unfold makeSigned
  by_cases hpos : m.bitCount = 0 ∨ BitmapBits.msb m = false
  · have hmsb : b.msb = false := by
      rcases hpos with hzero | hmsb
      · rw [h.bitCount] at hzero
        rw [Bits.msb, if_pos hzero]
      · rwa [h.msb] at hmsb
    rw [if_pos hpos, makeUnsigned_spec h, BitsOps.toInt, hmsb]
    rfl
  · push Not at hpos
    obtain ⟨hne, hmsb⟩ := hpos
    have hmsb : b.msb = true := by
      rw [← h.msb]
      simpa using hmsb
    have hle := le_ceilOfRatio_eight m.bitCount
    have hlt := ceilOfRatio_eight_lt m.bitCount
    have hlength : m.toBytes.length = ceilOfRatio m.bitCount 8 := by simp [toBytes, byteCount]
    have hinverse : bin2bn (if m.bitCount % 8 ≠ 0 then
          (m.toBytes.reverse.map (~~~ ·)).modify 0 (· &&& (mask (m.bitCount % 8)).setWidth 8)
        else m.toBytes.reverse.map (~~~ ·)) = 2 ^ b.bitCount - 1 - b.toNat := by
      have hnot : ∀ i, WordList.bit (m.toBytes.map (~~~ ·)) i =
          (decide (i / 8 < ceilOfRatio m.bitCount 8) && !b.toNat.testBit i) := by
        intro i
        rw [bit_map_not, bit_toBytes h, hlength]
      rw [List.map_reverse]
      split
      · -- the pad bits of the last byte are cleared
        rw [← List.reverse_reverse (List.modify _ 0 _), bin2bn_reverse, reverse_modify_zero]
        refine WordList.value_eq_of_bit (by norm_num) fun i => ?_
        rw [testBit_complement b.isLt, ← h.bitCount, WordList.bit_modify, List.length_map, hlength]
        by_cases hlast : i / 8 = ceilOfRatio m.bitCount 8 - 1
        · have h8 : i % 8 < 8 := Nat.mod_lt _ (by norm_num)
          have hmask : ((mask (m.bitCount % 8)).setWidth 8).getLsbD (i % 8) =
              decide (i < m.bitCount) := by
            rw [BitVec.getLsbD_setWidth, getLsbD_mask (by omega), decide_eq_true h8, Bool.true_and,
              decide_eq_decide]
            omega
          have hbit := hnot i
          rw [WordList.bit, hlast, decide_eq_true (by omega), Bool.true_and] at hbit
          rw [if_pos ⟨hlast, by omega⟩, BitVec.getLsbD_and, hmask, hbit, Bool.and_comm]
        · rw [if_neg fun hin => hlast hin.1, hnot]
          congr 1
          rw [decide_eq_decide]
          omega
      · rw [bin2bn_reverse]
        refine WordList.value_eq_of_bit (by norm_num) fun i => ?_
        rw [testBit_complement b.isLt, ← h.bitCount, hnot]
        congr 1
        rw [decide_eq_decide]
        omega
    have hlt := b.isLt
    have hcast : ((2 ^ b.bitCount : ℕ) : ℤ) = 2 ^ b.bitCount := Nat.cast_pow 2 _
    rw [if_neg (by simp [hne, h.msb, hmsb])]
    simp only [hinverse]
    rw [BitsOps.toInt, hmsb, if_pos rfl]
    omega

/-- The bytes of a number hold its bits. -/
theorem bit_bn2binPadded (n len i : ℕ) :
    WordList.bit (bn2binPadded n len).reverse i = (decide (i / 8 < len) && n.testBit i) := by
  have h8 : i % 8 < 8 := Nat.mod_lt _ (by norm_num)
  rw [bn2binPadded, List.reverse_reverse]
  by_cases hi : i / 8 < len
  · have hpow : (256 : ℕ) ^ (i / 8) = 2 ^ (8 * (i / 8)) := by
      rw [pow_mul, show (256 : ℕ) = 2 ^ 8 from rfl]
    have hoff : i % 8 + 8 * (i / 8) = i := Nat.mod_add_div i 8
    rw [WordList.bit, List.getD_eq_getElem?_getD, List.getElem?_map, List.getElem?_range hi,
      Option.map_some, Option.getD_some, BitVec.getLsbD_ofNat, decide_eq_true h8, hpow,
      Nat.testBit_div_two_pow, hoff, decide_eq_true hi]
  · rw [WordList.bit_of_le (by simpa using hi), decide_eq_false hi, Bool.false_and]

theorem length_bn2binPadded (n len : ℕ) : (bn2binPadded n len).length = len := by
  simp [bn2binPadded]

theorem numBytes_eq (n : ℕ) : numBytes n = ceilOfRatio n.size 8 := by
  unfold numBytes ceilOfRatio
  split <;> omega

/-- A number is read back from its bytes. -/
theorem fromBytes_bn2binPadded (n : ℕ) :
    ∃ r, fromBytes n.size (bn2binPadded n (numBytes n)).reverse = some r ∧
      Represents r (toUnsignedBits n) := by
  have hlength : (bn2binPadded n (numBytes n)).reverse.length = ceilOfRatio n.size 8 := by
    rw [List.length_reverse, length_bn2binPadded, numBytes_eq]
  have hle := le_ceilOfRatio_eight n.size
  obtain ⟨r, hr, hcount, hclean, hbit⟩ := fromBytes_spec hlength
  refine ⟨r, hr, .of_bits hcount hclean fun i => ?_⟩
  rw [hbit, bit_bn2binPadded, numBytes_eq]
  show _ = n.testBit i
  by_cases hi : i < n.size
  · rw [decide_eq_true hi, decide_eq_true (by omega), Bool.true_and, Bool.and_true]
  · rw [decide_eq_false hi, Bool.and_false, Nat.testBit_lt_two_pow ((Nat.lt_size_self n).trans_le
      (Nat.pow_le_pow_right (by norm_num) (not_lt.mp hi)))]

/-- Its complement is read back from the inverted bytes. -/
theorem fromBytes_bn2binPadded_not (n : ℕ) :
    ∃ r, fromBytes n.size ((bn2binPadded n (numBytes n)).map (~~~ ·)).reverse = some r ∧
      Represents r (Bits.ofNat n.size (2 ^ n.size - 1 - n)) := by
  have hlength : ((bn2binPadded n (numBytes n)).map (~~~ ·)).reverse.length =
      ceilOfRatio n.size 8 := by
    rw [List.length_reverse, List.length_map, length_bn2binPadded, numBytes_eq]
  have hle := le_ceilOfRatio_eight n.size
  have hpos := Nat.two_pow_pos n.size
  obtain ⟨r, hr, hcount, hclean, hbit⟩ := fromBytes_spec hlength
  refine ⟨r, hr, .of_bits hcount hclean fun i => ?_⟩
  rw [hbit, ← List.map_reverse, bit_map_not, bit_bn2binPadded, List.length_reverse,
    length_bn2binPadded, numBytes_eq, Bits.ofNat_toNat, Nat.mod_eq_of_lt (by omega),
    testBit_complement (Nat.lt_size_self n)]
  by_cases hi : i < n.size
  · rw [decide_eq_true hi, decide_eq_true (by omega), Bool.true_and, Bool.true_and, Bool.true_and,
      Bool.and_true]
  · rw [decide_eq_false hi, Bool.and_false, Bool.false_and]

theorem toSignedBits_bitCount (x : ℤ) : (toSignedBits x).bitCount = signedBitCount x := by
  unfold toSignedBits
  by_cases h0 : x = 0
  · rw [if_pos h0, signedBitCount, if_pos h0]
    rfl
  · rw [if_neg h0]
    have hpos : 0 < signedBitCount x := by
      unfold signedBitCount
      rw [if_neg h0]
      split <;> omega
    by_cases hneg : x < 0
    · simp only [if_pos hneg, BitsOps.append_bitCount, Bits.allOnes_bitCount, Bits.ofNat_bitCount]
      omega
    · simp only [if_neg hneg, BitsOps.append_bitCount, Bits.zero_bitCount, Bits.ofNat_bitCount]
      omega

theorem toSignedBitmap_spec (x : ℤ) :
    ∃ r, toSignedBitmap x = some r ∧ Represents r (toSignedBits x) := by
  unfold toSignedBitmap toSignedBits
  by_cases h0 : x = 0
  · rw [if_pos h0, if_pos h0]
    exact ⟨_, rfl, .zero 0⟩
  · rw [if_neg h0, if_neg h0]
    by_cases hneg : x < 0
    · have hsize : signedBitCount x - 1 = (x.natAbs - 1).size := by
        rw [signedBitCount, if_neg h0, if_pos hneg, Nat.add_sub_cancel]
      have htotal : signedBitCount x = 1 + (x.natAbs - 1).size := by
        rw [signedBitCount, if_neg h0, if_pos hneg, Nat.add_comm]
      obtain ⟨bits, hbits, hrep⟩ := fromBytes_bn2binPadded_not (x.natAbs - 1)
      obtain ⟨sign, hsign, hones⟩ := BitmapBits.allOnes_spec 1
      obtain ⟨r, hr, hrep⟩ := BitsRope.build_two (signedBitCount x) hrep hones htotal.symm
      refine ⟨r, ?_, hrep.congr (by rw [if_pos hneg, hsize])⟩
      simp only [hneg, decide_true, if_true, hsize, hbits, hsign, Option.bind_eq_bind,
        Option.bind_some, hr]
    · have hsize : signedBitCount x - 1 = x.natAbs.size := by
        rw [signedBitCount, if_neg h0, if_neg hneg, Nat.add_sub_cancel]
      have htotal : signedBitCount x = 1 + x.natAbs.size := by
        rw [signedBitCount, if_neg h0, if_neg hneg, Nat.add_comm]
      obtain ⟨bits, hbits, hrep⟩ := fromBytes_bn2binPadded x.natAbs
      obtain ⟨r, hr, hrep⟩ := BitsRope.build_two (signedBitCount x) hrep (.zero 1) htotal.symm
      refine ⟨r, ?_, hrep.congr ?_⟩
      · simp only [hneg, decide_false, Bool.false_eq_true, if_false, hsize, hbits,
          Option.bind_eq_bind, Option.bind_some, hr]
      · rw [if_neg hneg, hsize]
        congr 1
        exact Bits.ext rfl (Nat.mod_eq_of_lt (Nat.lt_size_self _)).symm

theorem toUnsignedBitmap_spec (n : ℕ) :
    ∃ r, toUnsignedBitmap n = some r ∧ Represents r (toUnsignedBits n) := by
  unfold toUnsignedBitmap
  exact fromBytes_bn2binPadded n

theorem toInt_neg_iff (b : Bits) : BitsOps.toInt b < 0 ↔ b.msb = true := by
  have hlt : (b.toNat : ℤ) < 2 ^ b.bitCount := by exact_mod_cast b.isLt
  unfold BitsOps.toInt
  split
  · rename_i h
    exact ⟨fun _ => h, fun _ => by omega⟩
  · rename_i h
    exact ⟨fun hneg => absurd hneg (by omega), fun hmsb => absurd hmsb h⟩

/-- A value which fits is extended by its sign. -/
theorem toSignedBitmapWithBitCount_spec {x : ℤ} {w : ℕ} (hw : signedBitCount x ≤ w) :
    ∃ r, toSignedBitmapWithBitCount x w = some r ∧
      Represents r (BitsOps.truncateOrSignExtend (toSignedBits x) w) := by
  have hcount := toSignedBits_bitCount x
  have hext : BitsOps.signExtend (toSignedBits x) w = BitsOps.truncateOrSignExtend
      (toSignedBits x) w := by
    refine Bits.ext ?_ ?_
    · rw [BitsOps.signExtend_bitCount (by omega), BitsOps.truncateOrSignExtend_bitCount]
    · unfold BitsOps.truncateOrSignExtend
      split
      · rename_i heq
        rw [BitsOps.signExtend_toNat (by omega), heq]
        simp
      · rw [if_pos (by omega)]
  obtain ⟨bits, hbits, hrep⟩ := toSignedBitmap_spec x
  have htotal : w - signedBitCount x + (toSignedBits x).bitCount = w := by omega
  have hmsb := toInt_neg_iff (toSignedBits x)
  rw [BitsOps.toInt_toSignedBits] at hmsb
  have happend : ∀ e : Bits, BitsOps.concat [e, toSignedBits x] =
      BitsOps.append e (toSignedBits x) := by
    intro e
    refine Bits.ext ?_ ?_
    · simp [BitsOps.concat]
    · simp [BitsOps.concat, BitsOps.append_toNat]
  rw [← hext, BitsOps.signExtend, happend, hcount]
  unfold toSignedBitmapWithBitCount
  rw [if_neg (not_lt.mpr hw)]
  by_cases hneg : x < 0
  · obtain ⟨e, he, hones⟩ := BitmapBits.allOnes_spec (w - signedBitCount x)
    obtain ⟨r, hr, hrep⟩ := BitsRope.build_two w hrep hones htotal
    refine ⟨r, ?_, by rwa [if_pos (hmsb.mp hneg)]⟩
    simp only [hbits, hneg, if_true, he, Option.bind_eq_bind, Option.bind_some, hr]
  · obtain ⟨r, hr, hrep⟩ := BitsRope.build_two w hrep (.zero (w - signedBitCount x)) htotal
    refine ⟨r, ?_, by rwa [if_neg (mt hmsb.mpr hneg)]⟩
    simp only [hbits, hneg, if_false, Option.bind_eq_bind, Option.bind_some, hr]

theorem toUnsignedBitmapWithBitCount_spec {n w : ℕ} (hw : n < 2 ^ w) :
    ∃ r, toUnsignedBitmapWithBitCount n w = some r ∧ Represents r ⟨w, n, hw⟩ := by
  have hsize : n.size ≤ w := Nat.size_le.mpr hw
  obtain ⟨bits, hbits, hrep⟩ := toUnsignedBitmap_spec n
  obtain ⟨r, hr, hrep⟩ := BitsRope.build_two w hrep (.zero (w - n.size)) (by
    show w - n.size + n.size = w
    omega)
  refine ⟨r, ?_, hrep.congr (Bits.ext ?_ ?_)⟩
  · unfold toUnsignedBitmapWithBitCount
    rw [if_neg (by omega), Int.natAbs_natCast, if_neg (not_lt.mpr hsize)]
    simp only [hbits, Option.bind_eq_bind, Option.bind_some, hr]
  · show w - n.size + n.size = w
    omega
  · rw [BitsOps.append_toNat]
    simp [toUnsignedBits]

end BigInt

end Xls
