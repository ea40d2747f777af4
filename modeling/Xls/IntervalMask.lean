/-
# Mask queries on intervals

`Interval::IsTrueWhenAndWith` (`xls/ir/interval.cc`) and
`IntervalSet::IsTrueWhenMaskWith` (`xls/ir/interval_set.cc`).  The answer is taken
from a mask computed from the trailing zeros of both bounds of an interval and the
leading zeros of its upper bound.

The header documents the query as exact: true if and only if some covered value has
a set bit in common with the mask.  The positions of the computed mask are the
`span` of an interval.  Bits below the span are missed although an interval with
more than one point sets them, and the span holds bits which no point sets; both
directions of the equivalence can fail.
-/
import Xls.IntervalSet
import Xls.Lib.NatBits

namespace Xls

namespace Bits

/-- `SetRange(start, end)`: the bits from `start` up to, not including, `stop` are
set. -/
def setRange (b : Bits) (start stop : ℕ) : Bits :=
  ofNat b.bitCount ((List.range' start (stop - start)).foldl (fun m i => m ||| 2 ^ i) b.toNat)

end Bits

/-- `right_index` of `IsTrueWhenAndWith`. -/
def Interval.rightIndex {w : ℕ} (i : Interval w) : ℕ :=
  min i.lowerBound.countTrailingZeros i.upperBound.countTrailingZeros

/-- `left_index` of `IsTrueWhenAndWith`. -/
def Interval.leftIndex {w : ℕ} (i : Interval w) : ℕ := w - i.upperBound.countLeadingZeros

/-- `Interval::IsTrueWhenAndWith`, for a value of the width of the interval. -/
def Interval.isTrueWhenAndWith {w : ℕ} (i : Interval w) (value : Bits) : Bool :=
  let intervalMaskValue := (Bits.zero w).setRange i.rightIndex i.leftIndex
  !(BitsOps.and intervalMaskValue value).isZero

/-- `IntervalSet::IsTrueWhenMaskWith`; fails on a value of another width. -/
def IntervalSet.isTrueWhenMaskWith (s : IntervalSet) (value : Bits) : Option Bool :=
  if value.bitCount = s.bitCount then
    some (s.intervals.any fun i => i.isTrueWhenAndWith value)
  else none

namespace Bits

/-- Below its trailing zeros a vector has no bit set. -/
theorem get_of_lt_countTrailingZeros {b : Bits} {p : ℕ} (h : p < b.countTrailingZeros) :
    b.get p = false := by
  by_contra hset
  rw [Bool.not_eq_false] at hset
  have hlt := lt_of_get hset
  unfold countTrailingZeros at h
  cases hf : (List.range b.bitCount).find? b.get with
  | none => exact List.find?_eq_none.mp hf p (List.mem_range.mpr hlt) hset
  | some k =>
    rw [hf] at h
    obtain ⟨-, -, hbefore⟩ := List.find?_range_eq_some.mp hf
    have := hbefore p h
    rw [hset] at this
    cases this

/-- The bits of a row of set bits. -/
theorem get_setRange_zero {w start stop p : ℕ} (hstop : stop ≤ w) :
    ((Bits.zero w).setRange start stop).get p = true ↔ start ≤ p ∧ p < stop := by
  unfold setRange get
  rw [ofNat_toNat, Nat.testBit_mod_two_pow, NatBits.testBit_foldl_lor]
  have hmem : (List.range' start (stop - start)).contains p = true ↔ start ≤ p ∧ p < stop := by
    rw [List.contains_iff_mem, List.mem_range'_1]
    omega
  rw [Bool.and_eq_true, decide_eq_true_eq, zero_toNat, Nat.zero_testBit, Bool.false_or, hmem]
  exact and_iff_right_of_imp fun h => lt_of_lt_of_le h.2 hstop

end Bits

namespace Interval

variable {w : ℕ}

/-- The positions set in `interval_mask_value`. -/
def Spans (i : Interval w) (p : ℕ) : Prop := i.rightIndex ≤ p ∧ p < i.leftIndex

instance (i : Interval w) (p : ℕ) : Decidable (i.Spans p) := inferInstanceAs (Decidable (_ ∧ _))

/-- The positions which a bound sets, or above which the bounds differ. -/
def Attains (i : Interval w) (p : ℕ) : Prop :=
  i.lower.testBit p = true ∨ i.upper.testBit p = true ∨
    i.lower / 2 ^ (p + 1) ≠ i.upper / 2 ^ (p + 1)

/-- `IsTrueWhenAndWith` finds the set bits of the mask inside the span. -/
theorem isTrueWhenAndWith_iff (i : Interval w) {m : Bits} (hm : m.bitCount = w) :
    i.isTrueWhenAndWith m = true ↔ ∃ p, i.Spans p ∧ m.get p = true := by
  have hleft : i.leftIndex ≤ w := Nat.sub_le _ _
  unfold isTrueWhenAndWith
  simp only [Bits.isZero, BitsOps.and, Bits.ofNat_toNat, Bool.not_eq_true', beq_eq_false_iff_ne]
  have hlt : ((Bits.zero w).setRange i.rightIndex i.leftIndex).toNat &&& m.toNat <
      2 ^ ((Bits.zero w).setRange i.rightIndex i.leftIndex).bitCount := by
    refine lt_of_le_of_lt Nat.and_le_right ?_
    show m.toNat < 2 ^ w
    rw [← hm]
    exact m.isLt
  rw [Nat.mod_eq_of_lt hlt, Ne, NatBits.land_eq_zero_iff]
  push Not
  refine exists_congr fun p => ?_
  rw [Ne, Bool.not_eq_false]
  exact and_congr (Bits.get_setRange_zero hleft) Iff.rfl

variable {i : Interval w} {p : ℕ}

/-- Some point of a proper interval sets a bit exactly when the interval attains it. -/
theorem exists_get_iff (hi : i.Proper) (p : ℕ) :
    (∃ b : Bits, b.bitCount = w ∧ i.covers b.toNat = true ∧ b.get p = true) ↔ i.Attains p := by
  rw [Attains, ← NatBits.exists_testBit_between hi p]
  constructor
  · rintro ⟨b, hb, hcov, hget⟩
    rw [covers_iff_of_proper hi (by rw [← hb]; exact b.isLt)] at hcov
    exact ⟨b.toNat, hcov.1, hcov.2, hget⟩
  · rintro ⟨x, h1, h2, h3⟩
    exact ⟨⟨w, x, lt_of_le_of_lt h2 i.upper_lt⟩, rfl, covers_of_between h1 h2, h3⟩

theorem lower_testBit_of_lt_rightIndex (h : p < i.rightIndex) : i.lower.testBit p = false :=
  Bits.get_of_lt_countTrailingZeros (b := i.lowerBound) (lt_of_lt_of_le h (min_le_left _ _))

theorem upper_testBit_of_lt_rightIndex (h : p < i.rightIndex) : i.upper.testBit p = false :=
  Bits.get_of_lt_countTrailingZeros (b := i.upperBound) (lt_of_lt_of_le h (min_le_right _ _))

/-- An attained bit lies in the span, or below it in an interval with more than one
point. -/
theorem spans_or_below (hi : i.Proper) (h : i.Attains p) :
    i.Spans p ∨ (i.lower < i.upper ∧ p < i.rightIndex) := by
  by_cases hright : i.rightIndex ≤ p
  · left
    refine ⟨hright, ?_⟩
    by_contra hleft
    -- above the highest set bit of the upper bound nothing is attained
    have hup : i.upper < 2 ^ p :=
      lt_of_lt_of_le i.upperBound.lt_two_pow_sub_countLeadingZeros
        (Nat.pow_le_pow_right (by norm_num) (not_lt.mp hleft))
    have hlow : i.lower < 2 ^ p := lt_of_le_of_lt hi hup
    obtain h | h | h := h
    · rw [Nat.testBit_lt_two_pow hlow] at h
      cases h
    · rw [Nat.testBit_lt_two_pow hup] at h
      cases h
    · rw [Nat.div_eq_of_lt (by omega), Nat.div_eq_of_lt (by omega)] at h
      exact h rfl
  · right
    unfold Proper at hi
    by_contra hge
    have heq : i.lower = i.upper := by omega
    obtain h | h | h := h
    · rw [lower_testBit_of_lt_rightIndex (not_le.mp hright)] at h
      cases h
    · rw [upper_testBit_of_lt_rightIndex (not_le.mp hright)] at h
      cases h
    · exact h (by rw [heq])

/-- Below the span, an interval with more than one point has a point whose lowest set
bit is the given one. -/
theorem exists_lowest_bit (hlt : i.lower < i.upper) (hp : p < i.rightIndex) :
    ∃ b : Bits, b.bitCount = w ∧ i.covers b.toNat = true ∧ b.get p = true ∧
      ∀ q < p, b.get q = false := by
  have hlow : ∀ q ≤ p, i.lower.testBit q = false :=
    fun q hq => lower_testBit_of_lt_rightIndex (by omega)
  have hup : ∀ q ≤ p, i.upper.testBit q = false :=
    fun q hq => upper_testBit_of_lt_rightIndex (by omega)
  obtain ⟨h1, h2⟩ := NatBits.testBit_add_two_pow hlow
  -- the bounds are multiples of `2 ^ (p + 1)`
  have hgap : i.lower + 2 ^ p ≤ i.upper := by
    have hl := NatBits.two_pow_dvd_of_testBit hlow
    have hu := NatBits.two_pow_dvd_of_testBit hup
    obtain ⟨k, hk⟩ := hl
    obtain ⟨m, hm⟩ := hu
    have hkm : k < m := by
      rw [hk, hm] at hlt
      exact Nat.lt_of_mul_lt_mul_left hlt
    have hstep : 2 ^ (p + 1) * (k + 1) ≤ 2 ^ (p + 1) * m := Nat.mul_le_mul_left _ hkm
    rw [Nat.mul_add, pow_succ] at hstep
    rw [hk, hm, pow_succ]
    omega
  refine ⟨⟨w, i.lower + 2 ^ p, lt_of_le_of_lt hgap i.upper_lt⟩, rfl, ?_, h1, h2⟩
  exact covers_of_between (Nat.le_add_right _ _) hgap

theorem attains_of_below (hlt : i.lower < i.upper) (hp : p < i.rightIndex) : i.Attains p := by
  obtain ⟨b, hb, hcov, hget, -⟩ := exists_lowest_bit hlt hp
  exact (exists_get_iff hlt.le p).mp ⟨b, hb, hcov, hget⟩

end Interval

namespace IntervalSet

/-- The documented meaning of `IsTrueWhenMaskWith`: some covered value has a bit in
common with the mask. -/
def MaskHit (s : IntervalSet) (m : Bits) : Prop :=
  ∃ x : Bits, s.Covers x ∧ (BitsOps.and x m).isZero = false

/-- When the query is exact: each mask bit below the span of an interval with more than
one point comes with a mask bit in some span, and each mask bit in a span comes with a
mask bit which some interval attains. -/
def MaskExact (s : IntervalSet) (m : Bits) : Prop :=
  (∀ i ∈ s.intervals, i.lower < i.upper → ∀ p < i.rightIndex, m.get p = true →
    ∃ j ∈ s.intervals, ∃ q, j.Spans q ∧ m.get q = true) ∧
  (∀ i ∈ s.intervals, ∀ p, i.Spans p → m.get p = true →
    ∃ j ∈ s.intervals, ∃ q, j.Attains q ∧ m.get q = true)

theorem isTrueWhenMaskWith_iff {s : IntervalSet} {m : Bits} (hm : m.bitCount = s.bitCount) :
    s.isTrueWhenMaskWith m = some true ↔ ∃ i ∈ s.intervals, ∃ p, i.Spans p ∧ m.get p = true := by
  unfold isTrueWhenMaskWith
  rw [if_pos hm, Option.some.injEq, List.any_eq_true]
  refine exists_congr fun i => and_congr_right fun _ => ?_
  exact i.isTrueWhenAndWith_iff hm

theorem and_isZero_eq_false_iff {x m : Bits} :
    (BitsOps.and x m).isZero = false ↔ ∃ p, x.get p = true ∧ m.get p = true := by
  have hlt : x.toNat &&& m.toNat < 2 ^ x.bitCount := lt_of_le_of_lt Nat.and_le_left x.isLt
  simp only [Bits.isZero, BitsOps.and, Bits.ofNat_toNat, beq_eq_false_iff_ne]
  rw [Nat.mod_eq_of_lt hlt, Ne, NatBits.land_eq_zero_iff]
  push Not
  refine exists_congr fun p => ?_
  rw [Ne, Bool.not_eq_false]
  rfl

/-- A normalized set meets a mask exactly when some interval attains a bit of it. -/
theorem maskHit_iff {s : IntervalSet} (hs : s.isNormalized = true) (m : Bits) :
    s.MaskHit m ↔ ∃ i ∈ s.intervals, ∃ p, i.Attains p ∧ m.get p = true := by
  constructor
  · rintro ⟨x, hx, hand⟩
    obtain ⟨p, hxp, hmp⟩ := and_isZero_eq_false_iff.mp hand
    obtain ⟨i, hi, hcov⟩ := hx.exists_interval
    have hproper := (s.normal hs).proper hi
    exact ⟨i, hi, p, (Interval.exists_get_iff hproper p).mp ⟨x, hx.1, hcov, hxp⟩, hmp⟩
  · rintro ⟨i, hi, p, hatt, hmp⟩
    obtain ⟨x, hxw, hcov, hxp⟩ :=
      (Interval.exists_get_iff ((s.normal hs).proper hi) p).mpr hatt
    exact ⟨x, ⟨hxw, coversPoint_of_mem hi hcov⟩, and_isZero_eq_false_iff.mpr ⟨p, hxp, hmp⟩⟩

/-- The query agrees with its documentation exactly under `MaskExact`. -/
theorem isTrueWhenMaskWith_exact_iff {s : IntervalSet} (hs : s.isNormalized = true) {m : Bits}
    (hm : m.bitCount = s.bitCount) :
    (s.isTrueWhenMaskWith m = some true ↔ s.MaskHit m) ↔ s.MaskExact m := by
  rw [isTrueWhenMaskWith_iff hm, maskHit_iff hs]
  constructor
  · intro h
    refine ⟨?_, ?_⟩
    · intro i hi hlt p hp hmp
      exact h.mpr ⟨i, hi, p, Interval.attains_of_below hlt hp, hmp⟩
    · intro i hi p hp hmp
      exact h.mp ⟨i, hi, p, hp, hmp⟩
  · rintro ⟨hbelow, hspan⟩
    constructor
    · rintro ⟨i, hi, p, hp, hmp⟩
      exact hspan i hi p hp hmp
    · rintro ⟨i, hi, p, hatt, hmp⟩
      obtain hp | ⟨hlt, hp⟩ := Interval.spans_or_below ((s.normal hs).proper hi) hatt
      · exact ⟨i, hi, p, hp, hmp⟩
      · exact hbelow i hi hlt p hp hmp

end IntervalSet

end Xls
