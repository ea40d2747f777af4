/-
# Printing bits

`BitsToString` writes a decimal number by way of `BigInt`, and a binary or hexadecimal number
digit by digit, with a separator after every fourth digit and without leading zeros.  Without
its separators, the digits which are written are those of the number (`rawDigits_spec`).

Decimal numbers are written by the big number library, `bnToDec` below.
-/
import Xls.BigInt
import Xls.Lib.Numeral

namespace Xls

/-- `FormatPreference`. -/
inductive FormatPreference where
  | default
  | binary
  | signedDecimal
  | unsignedDecimal
  | hex
  | plainBinary
  | plainHex
  deriving DecidableEq, Repr

namespace FormatPreference

/-- The number of a format. -/
def number : FormatPreference → ℕ
  | default => 0
  | binary => 1
  | signedDecimal => 2
  | unsignedDecimal => 3
  | hex => 4
  | plainBinary => 5
  | plainHex => 6

end FormatPreference

namespace BitsOps

/-- The loop of `BitsToRawDigits`, from the given number of digits down.  The last digit is
written even when it is zero. -/
def rawDigits (bits : Bits) (digitWidth : ℕ) (includeSeparators : Bool) :
    ℕ → Bool → List Char → List Char
  | 0, _, result => result
  | digitNo + 1, elidingLeadingZeros, result =>
    let separated :=
      if includeSeparators && (digitNo + 1) % 4 == 0 && !result.isEmpty then result ++ ['_']
      else result
    let start := digitNo * digitWidth
    let width := min digitWidth (bits.bitCount - start)
    let digitValue := (slice bits start width).toNat
    if digitValue == 0 && elidingLeadingZeros && digitNo != 0 then
      rawDigits bits digitWidth includeSeparators digitNo elidingLeadingZeros separated
    else
      rawDigits bits digitWidth includeSeparators digitNo false
        (separated ++ Nat.toDigits 16 digitValue)

/-- `BitsToRawDigits`. -/
def bitsToRawDigits (bnToDec : ℤ → List Char) (bits : Bits) (preference : FormatPreference)
    (emitLeadingZeros : Bool) : Option (List Char) :=
  match preference with
  | .default => none
  | .signedDecimal => if emitLeadingZeros then none else some (bnToDec (toInt bits))
  | .unsignedDecimal => if emitLeadingZeros then none else some (bnToDec bits.toNat)
  | _ =>
    if bits.bitCount = 0 then some ['0']
    else
      let binaryFormat := preference == .binary || preference == .plainBinary
      let plainFormat := preference == .plainBinary || preference == .plainHex
      let digitWidth := if binaryFormat then 1 else 4
      let digitCount := (bits.bitCount + digitWidth - 1) / digitWidth
      some (rawDigits bits digitWidth (!plainFormat) digitCount (!emitLeadingZeros) [])

/-- `BitsToString`. -/
def bitsToString (bnToDec : ℤ → List Char) (bits : Bits) (preference : FormatPreference)
    (includeBitCount : Bool) : Option (List Char) := do
  let preference :=
    if preference == .default then
      if bits.bitCount ≤ 64 then .unsignedDecimal else .hex
    else preference
  let pre :=
    if preference == .binary then ['0', 'b'] else if preference == .hex then ['0', 'x'] else []
  let digits ← bitsToRawDigits bnToDec bits preference false
  some (pre ++ digits ++
    if includeBitCount then " [".toList ++ Nat.toDigits 10 bits.bitCount ++ " bits]".toList
    else [])

/-! ## The digits -/

/-- The value of one digit; the most significant one may have fewer bits. -/
theorem digitValue_eq (bits : Bits) (start digitWidth : ℕ) :
    (slice bits start (min digitWidth (bits.bitCount - start))).toNat =
      bits.toNat / 2 ^ start % 2 ^ digitWidth := by
  show bits.toNat / 2 ^ start % 2 ^ min digitWidth (bits.bitCount - start) = _
  refine Nat.eq_of_testBit_eq fun i => ?_
  rw [Nat.testBit_mod_two_pow, Nat.testBit_mod_two_pow, Nat.testBit_div_two_pow]
  by_cases hi : i + start < bits.bitCount
  · congr 1
    rw [decide_eq_decide]
    omega
  · rw [Nat.testBit_lt_two_pow (bits.isLt.trans_le (Nat.pow_le_pow_right Nat.two_pos (by omega))),
      Bool.and_false, Bool.and_false]

theorem toDigits_sixteen {d : ℕ} (h : d < 16) : Nat.toDigits 16 d = [Nat.digitChar d] :=
  Nat.toDigits_of_lt_base h

theorem digitChar_ne_underscore {d : ℕ} (h : d < 16) : Nat.digitChar d ≠ '_' := by
  interval_cases d <;> decide

/-- Without its separators, the text goes on with digits which write the rest of the number;
as long as zeros are not elided, with all of them. -/
theorem rawDigits_spec (bits : Bits) {digitWidth : ℕ} (hwidth : digitWidth ≤ 4)
    (includeSeparators : Bool) (n : ℕ) (eliding : Bool) (result : List Char) : ∃ ds : List ℕ,
    (∀ d ∈ ds, d < 2 ^ digitWidth) ∧
      (rawDigits bits digitWidth includeSeparators n eliding result).filter (· ≠ '_') =
        result.filter (· ≠ '_') ++ ds.map Nat.digitChar ∧
      Numeral.value (2 ^ digitWidth) ds = bits.toNat % 2 ^ (digitWidth * n) ∧
      (eliding = false → ds.length = n) ∧ (0 < n → ds ≠ []) := by
  have hbase : 2 ^ digitWidth ≤ 16 := (Nat.pow_le_pow_right Nat.two_pos hwidth).trans_eq (by decide)
  induction n generalizing eliding result with
  | zero =>
    refine ⟨[], by simp, by simp [rawDigits], ?_, fun _ => rfl, fun h => absurd h (by simp)⟩
    simp [Nat.mod_one]
  | succ digitNo ih =>
    set digit := bits.toNat / 2 ^ (digitNo * digitWidth) % 2 ^ digitWidth with hdigit
    have hlt : digit < 2 ^ digitWidth := Nat.mod_lt _ (Nat.two_pow_pos _)
    have hrest : bits.toNat % 2 ^ (digitWidth * (digitNo + 1)) =
        digit * 2 ^ (digitWidth * digitNo) + bits.toNat % 2 ^ (digitWidth * digitNo) := by
      rw [Nat.mul_succ, pow_add, Nat.mod_mul, hdigit, Nat.mul_comm digitNo digitWidth,
        Nat.mul_comm (_ % _), Nat.add_comm]
    set separated :=
      if includeSeparators && (digitNo + 1) % 4 == 0 && !result.isEmpty then result ++ ['_']
      else result with hseparated
    have hfilter : separated.filter (· ≠ '_') = result.filter (· ≠ '_') := by
      rw [hseparated]
      split <;> simp
    rw [rawDigits]
    simp only [digitValue_eq]
    by_cases helide : (digit == 0 && eliding && digitNo != 0) = true
    · -- a leading zero
      rw [if_pos helide]
      simp only [Bool.and_eq_true, beq_iff_eq, bne_iff_ne] at helide
      obtain ⟨ds, hds, htext, hvalue, -, hne⟩ := ih eliding separated
      refine ⟨ds, hds, by rw [htext, hfilter], ?_, ?_, fun _ => hne (by omega)⟩
      · rw [hvalue, hrest, helide.1.1, Nat.zero_mul, Nat.zero_add]
      · rw [helide.1.2]
        exact fun h => absurd h (by simp)
    · rw [if_neg helide, toDigits_sixteen (hlt.trans_le hbase)]
      obtain ⟨ds, hds, htext, hvalue, hlength, -⟩ := ih false (separated ++ [Nat.digitChar digit])
      refine ⟨digit :: ds, ?_, ?_, ?_, ?_, by simp⟩
      · intro d hd
        rcases List.mem_cons.mp hd with rfl | hd
        · exact hlt
        · exact hds d hd
      · rw [htext, List.filter_append, hfilter]
        simp [digitChar_ne_underscore (hlt.trans_le hbase)]
      · rw [Numeral.value_cons, hlength rfl, ← pow_mul, hvalue, hrest]
      · exact fun _ => by rw [List.length_cons, hlength rfl]

/-- Without its separators, a binary or hexadecimal text lists digits which write the number. -/
theorem bitsToRawDigits_spec (bnToDec : ℤ → List Char) (bits : Bits) {preference : FormatPreference}
    {digitWidth : ℕ}
    (hpreference : preference = .binary ∧ digitWidth = 1 ∨ preference = .hex ∧ digitWidth = 4) :
    ∃ text ds, bitsToRawDigits bnToDec bits preference false = some text ∧
      text.filter (· ≠ '_') = ds.map Nat.digitChar ∧ (∀ d ∈ ds, d < 2 ^ digitWidth) ∧ ds ≠ [] ∧
      Numeral.value (2 ^ digitWidth) ds = bits.toNat := by
  have hwidth : 0 < digitWidth ∧ digitWidth ≤ 4 := by
    rcases hpreference with ⟨-, rfl⟩ | ⟨-, rfl⟩ <;> decide
  by_cases hzero : bits.bitCount = 0
  · refine ⟨['0'], [0], ?_, rfl, by simp, by simp, ?_⟩
    · rcases hpreference with ⟨rfl, -⟩ | ⟨rfl, -⟩ <;> simp [bitsToRawDigits, hzero]
    · rw [Bits.toNat_eq_zero_of_bitCount hzero]
      simp [Numeral.value]
  · set digitCount := (bits.bitCount + digitWidth - 1) / digitWidth with hdigitCount
    have hcover : bits.bitCount ≤ digitWidth * digitCount := by
      have h := Nat.lt_mul_div_succ (bits.bitCount + digitWidth - 1) hwidth.1
      rw [Nat.mul_add, ← hdigitCount] at h
      omega
    have hpos : 0 < digitCount := Nat.pos_of_ne_zero fun h => by
      rw [h] at hcover
      omega
    obtain ⟨ds, hds, htext, hvalue, -, hne⟩ :=
      rawDigits_spec bits hwidth.2 true digitCount true []
    refine ⟨rawDigits bits digitWidth true digitCount true [], ds, ?_, by simpa using htext, hds,
      hne hpos, ?_⟩
    · rcases hpreference with ⟨rfl, rfl⟩ | ⟨rfl, rfl⟩ <;> exact if_neg hzero
    · rw [hvalue, Nat.mod_eq_of_lt (bits.isLt.trans_le (Nat.pow_le_pow_right Nat.two_pos hcover))]

end BitsOps
end Xls
