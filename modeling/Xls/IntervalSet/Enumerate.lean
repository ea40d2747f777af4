/-
# Counting and indexing the points of an interval set

`Size` and `Index` (`xls/ir/interval_set.cc`) over `SizeBits` and `Size` of an interval
(`xls/ir/interval.cc`).  The size of one interval is guarded against the range of `int64_t`,
the running total is not.

* `pointCount_eq_pointSum` : the intervals of a normal form count its points;
* `sizeFrom_eq` : what the loop of `Size` yields, and when its total overflows;
* `index_eq` : `Index` finds the point with the given number of points before it;
* `size_index_exact_iff` : when `Size` and `Index` enumerate the set.
-/
import Xls.IntervalSet

namespace Xls

variable {w : ℕ}

namespace Interval

/-! ## The source -/

/-- `SizeBits`, a vector of `w + 1` bits given by its value. -/
def sizeBits (i : Interval w) : ℕ :=
  if i.upper < i.lower then (2 ^ w - 1 - i.lower + 1 + (i.upper + 1)) % 2 ^ (w + 1)
  else i.upper - i.lower + 1

/-- `Size`: none beyond the range of `int64_t`. -/
def size (i : Interval w) : Option ℕ :=
  if i.sizeBits < 2 ^ 63 then some i.sizeBits else none

end Interval

namespace IntervalSet

/-- The loop of `Size`, `totalSize` being an `int64_t`; `none` when the sum overflows. -/
def sizeFrom : List (Interval w) → ℕ → Option (Option ℕ)
  | [], totalSize => some (some totalSize)
  | interval :: rest, totalSize =>
    match interval.size with
    | some size => if totalSize + size < 2 ^ 63 then sizeFrom rest (totalSize + size) else none
    | none => some none

/-- `Size`: the set must be normalized. -/
def size (s : IntervalSet) : Option (Option ℕ) :=
  if s.isNormalized then sizeFrom s.intervals 0 else none

/-- The loop of `Index`: the interval to index and what is left of the index. -/
def toIndex : List (Interval w) → Bits → Option (Interval w × Bits)
  | [], _ => none
  | interval :: rest, soFar =>
    let size := Bits.ofNat (w + 1) interval.sizeBits
    if BitsOps.uLessThan soFar size then some (interval, soFar)
    else toIndex rest (BitsOps.sub soFar size)

/-- `Index`: the outer `none` is a failed CHECK. -/
def index (s : IntervalSet) (i : Bits) : Option (Option Bits) :=
  if s.isNormalized ∧ i.bitCount = s.bitCount then
    match toIndex s.intervals (BitsOps.zeroExtend i (s.bitCount + 1)) with
    | none => some none
    | some (interval, soFar) =>
      let result := BitsOps.add soFar (BitsOps.zeroExtend interval.lowerBound (s.bitCount + 1))
      if result.msb then none else some (some (BitsOps.slice result 0 s.bitCount))
  else none

end IntervalSet

/-! ## Counting points -/

/-- The number of points of a proper interval. -/
def Interval.pointCount (i : Interval w) : ℕ := i.upper - i.lower + 1

/-- The number of points of a list of disjoint intervals. -/
def pointSum (l : List (Interval w)) : ℕ := (l.map Interval.pointCount).sum

@[simp] theorem pointSum_nil : pointSum ([] : List (Interval w)) = 0 := rfl

@[simp] theorem pointSum_cons (i : Interval w) (l : List (Interval w)) :
    pointSum (i :: l) = i.pointCount + pointSum l := by
  unfold pointSum
  rw [List.map_cons, List.sum_cons]

variable {i : Interval w}

theorem Interval.sizeBits_eq (h : i.Proper) : i.sizeBits = i.pointCount := by
  unfold Proper at h
  exact if_neg (by omega)

theorem Interval.pointCount_le : i.pointCount ≤ 2 ^ w := by
  have := i.upper_lt
  unfold pointCount
  omega

/-- The points of a proper interval below a bound. -/
theorem Interval.count_covers (h : i.Proper) {n : ℕ} (hn : n ≤ 2 ^ w) :
    Nat.count (fun m => i.covers m = true) n = min n (i.upper + 1) - i.lower := by
  induction n with
  | zero => simp
  | succ n ih =>
    rw [Nat.count_succ, ih (by omega)]
    have hcov := covers_iff_of_proper h (show n < 2 ^ w by omega)
    split_ifs with hc
    · have := hcov.mp hc
      omega
    · have := mt hcov.mpr hc
      omega

/-- The points of a normal form below a bound, counted interval by interval. -/
theorem Normal.count_cons {rest : List (Interval w)} (h : Normal (i :: rest)) {n : ℕ}
    (hn : n ≤ 2 ^ w) :
    Nat.count (fun m => coversPoint (i :: rest) m = true) n =
      Nat.count (fun m => i.covers m = true) n +
        Nat.count (fun m => coversPoint rest m = true) n := by
  induction n with
  | zero => simp
  | succ n ih =>
    rw [Nat.count_succ, Nat.count_succ, Nat.count_succ]
    have hcons : coversPoint (i :: rest) n = true ↔
        i.covers n = true ∨ coversPoint rest n = true := by
      rw [coversPoint_cons, Bool.or_eq_true]
    -- no point lies in the first interval and in a later one
    have hdisjoint : i.covers n = true → ¬ coversPoint rest n = true := by
      intro hi hrest
      obtain ⟨j, hj, hjn⟩ := coversPoint_eq_true.mp hrest
      have hgap := h.gap hj
      rw [Interval.covers_iff_of_proper (h.proper List.mem_cons_self) (by omega)] at hi
      rw [Interval.covers_iff_of_proper (h.tail.proper hj) (by omega)] at hjn
      omega
    split_ifs <;> first | omega | tauto

/-- The points of a normal form up to the end of the range. -/
theorem Normal.count_eq_pointSum {l : List (Interval w)} (h : Normal l) :
    Nat.count (fun m => coversPoint l m = true) (2 ^ w) = pointSum l := by
  induction l with
  | nil =>
    rw [pointSum_nil, Nat.count_iff_forall_not]
    intro m _
    simp
  | cons i rest ih =>
    have hproper : i.Proper := h.proper List.mem_cons_self
    have hu := i.upper_lt
    rw [h.count_cons le_rfl, Interval.count_covers hproper le_rfl, ih h.tail, pointSum_cons]
    unfold Interval.Proper at hproper
    unfold Interval.pointCount
    omega

/-- A normal form has no points below its first interval. -/
theorem Normal.count_tail_eq_zero {rest : List (Interval w)} (h : Normal (i :: rest)) {n : ℕ}
    (hn : n ≤ i.upper + 1) : Nat.count (fun m => coversPoint rest m = true) n = 0 := by
  have hu := i.upper_lt
  rw [Nat.count_iff_forall_not]
  intro m hm hcov
  obtain ⟨j, hj, hjm⟩ := coversPoint_eq_true.mp hcov
  rw [Interval.covers_iff_of_proper (h.tail.proper hj) (by omega)] at hjm
  have := h.gap hj
  omega

namespace IntervalSet

/-- The number of points of a set. -/
def pointCount (s : IntervalSet) : ℕ := Nat.count (fun n => s.covers n = true) (2 ^ s.bitCount)

theorem pointCount_eq_pointSum {s : IntervalSet} (hs : s.isNormalized = true) :
    s.pointCount = pointSum s.intervals := (s.normal hs).count_eq_pointSum

/-! ## `Size` -/

/-- The running total stays in the range of `int64_t` until the end, or until an interval
which is too large by itself. -/
def TotalFits (l : List (Interval w)) (totalSize : ℕ) : Prop :=
  totalSize + pointSum l < 2 ^ 63 ∨
  ∃ l₁ i l₂, l = l₁ ++ i :: l₂ ∧ 2 ^ 63 ≤ i.pointCount ∧ totalSize + pointSum l₁ < 2 ^ 63

theorem totalFits_nil {totalSize : ℕ} (h : totalSize < 2 ^ 63) :
    TotalFits ([] : List (Interval w)) totalSize := .inl h

theorem totalFits_cons {i : Interval w} {rest : List (Interval w)} {totalSize : ℕ}
    (h : totalSize < 2 ^ 63) : TotalFits (i :: rest) totalSize ↔ 2 ^ 63 ≤ i.pointCount ∨
        (totalSize + i.pointCount < 2 ^ 63 ∧ TotalFits rest (totalSize + i.pointCount)) := by
  unfold TotalFits
  rw [pointSum_cons]
  constructor
  · rintro (hsum | ⟨l₁, j, l₂, heq, hj, hsum⟩)
    · right
      exact ⟨by omega, .inl (by omega)⟩
    · rcases l₁ with _ | ⟨k, l₁⟩
      · obtain ⟨rfl, rfl⟩ := List.cons.inj heq
        exact .inl hj
      · obtain ⟨rfl, rfl⟩ := List.cons.inj heq
        rw [pointSum_cons] at hsum
        right
        exact ⟨by omega, .inr ⟨l₁, j, l₂, rfl, hj, by omega⟩⟩
  · rintro (hi | ⟨hi, hsum | ⟨l₁, j, l₂, rfl, hj, hsum⟩⟩)
    · exact .inr ⟨[], i, rest, rfl, hi, by rw [pointSum_nil]; omega⟩
    · omega
    · refine .inr ⟨i :: l₁, j, l₂, rfl, hj, ?_⟩
      rw [pointSum_cons]
      omega

/-- The loop of `Size` counts the points as long as its total fits. -/
theorem sizeFrom_eq {l : List (Interval w)} (hl : ∀ i ∈ l, i.Proper) :
    ∀ {totalSize : ℕ}, totalSize < 2 ^ 63 → (TotalFits l totalSize →
        sizeFrom l totalSize = some (if totalSize + pointSum l < 2 ^ 63 then
          some (totalSize + pointSum l) else none)) ∧
      (¬ TotalFits l totalSize → sizeFrom l totalSize = none) := by
  induction l with
  | nil =>
    intro totalSize htotal
    refine ⟨fun _ => ?_, fun h => absurd (totalFits_nil htotal) h⟩
    rw [sizeFrom, pointSum_nil, Nat.add_zero, if_pos htotal]
  | cons i rest ih =>
    intro totalSize htotal
    have hsize := Interval.sizeBits_eq (hl i List.mem_cons_self)
    have hrest : ∀ j ∈ rest, j.Proper := fun j hj => hl j (List.mem_cons_of_mem i hj)
    rw [totalFits_cons htotal, pointSum_cons, sizeFrom, Interval.size, hsize]
    by_cases hi : i.pointCount < 2 ^ 63
    · rw [if_pos hi]
      simp only
      by_cases hsum : totalSize + i.pointCount < 2 ^ 63
      · obtain ⟨hfits, hoverflows⟩ := ih hrest hsum
        rw [if_pos hsum, ← Nat.add_assoc]
        constructor
        · rintro (hlarge | ⟨-, h⟩)
          · omega
          · exact hfits h
        · intro h
          exact hoverflows fun hfit => h (.inr ⟨hsum, hfit⟩)
      · rw [if_neg hsum]
        constructor
        · rintro (hlarge | ⟨h, -⟩)
          · omega
          · exact absurd h hsum
        · intro _
          rfl
    · rw [if_neg hi]
      refine ⟨fun _ => ?_, fun h => absurd (.inl (by omega)) h⟩
      rw [if_neg (by omega)]

/-! ## `Index` -/

/-- The loop of `Index` ends in the interval which holds the point with as many points
before it as the index says. -/
theorem toIndex_spec {l : List (Interval w)} (hl : Normal l) :
    ∀ {soFar : Bits}, soFar.bitCount = w + 1 → (pointSum l ≤ soFar.toNat → toIndex l soFar = none) ∧
      (soFar.toNat < pointSum l → ∃ i rest', toIndex l soFar = some (i, rest') ∧ i ∈ l ∧
        rest'.bitCount = w + 1 ∧ i.lower + rest'.toNat ≤ i.upper ∧
        Nat.count (fun m => coversPoint l m = true) (i.lower + rest'.toNat) = soFar.toNat) := by
  induction l with
  | nil =>
    intro soFar _
    exact ⟨fun _ => rfl, fun h => absurd h (Nat.not_lt_zero _)⟩
  | cons i rest ih =>
    intro soFar hwidth
    have hproper : i.Proper := hl.proper List.mem_cons_self
    have hupper := i.upper_lt
    have hcount : i.pointCount = i.upper - i.lower + 1 := rfl
    have hsize : (Bits.ofNat (w + 1) i.sizeBits).toNat = i.pointCount := by
      rw [Bits.ofNat_toNat, Interval.sizeBits_eq hproper, Nat.mod_eq_of_lt]
      exact lt_of_le_of_lt Interval.pointCount_le (Nat.pow_lt_pow_succ (by norm_num))
    rw [pointSum_cons, toIndex]
    simp only [BitsOps.uLessThan, hsize, decide_eq_true_eq]
    unfold Interval.Proper at hproper
    by_cases hlt : soFar.toNat < i.pointCount
    · rw [if_pos hlt]
      refine ⟨fun h => by omega, fun _ => ⟨i, soFar, rfl, List.mem_cons_self, hwidth, by omega, ?_⟩⟩
      rw [hl.count_cons (by omega), hl.count_tail_eq_zero (by omega),
        Interval.count_covers hproper (by omega)]
      omega
    · rw [if_neg hlt]
      have hsub : (BitsOps.sub soFar (Bits.ofNat (w + 1) i.sizeBits)).toNat =
          soFar.toNat - i.pointCount := by
        rw [BitsOps.sub_toNat_of_le (by omega), hsize]
      obtain ⟨hnone, hsome⟩ := @ih hl.tail
        (BitsOps.sub soFar (Bits.ofNat (w + 1) i.sizeBits)) hwidth
      refine ⟨fun h => hnone (by omega), fun h => ?_⟩
      obtain ⟨j, rest', heq, hj, hwidth', hle, hcount'⟩ := hsome (by omega)
      clear hnone hsome
      refine ⟨j, rest', heq, List.mem_cons_of_mem i hj, hwidth', hle, ?_⟩
      have hgap := hl.gap hj
      have hju := j.upper_lt
      rw [hl.count_cons (by omega), Interval.count_covers hproper (by omega)]
      omega

/-- `Index` is exact: nothing from the number of points on, and below it the covered
vector with that many covered vectors before it. -/
def IndexExact (s : IntervalSet) (i : Bits) : Prop :=
  ∃ r, s.index i = some r ∧ (r = none ↔ s.pointCount ≤ i.toNat) ∧
    ∀ p, r = some p → s.Covers p ∧ Nat.count (fun n => s.covers n = true) p.toNat = i.toNat

/-- `Index` finds the point with the given number of points before it. -/
theorem index_eq {s : IntervalSet} (hs : s.isNormalized = true) {i : Bits}
    (hi : i.bitCount = s.bitCount) : s.IndexExact i := by
  unfold IndexExact index
  rw [if_pos ⟨hs, hi⟩, pointCount_eq_pointSum hs]
  have hnormal := s.normal hs
  obtain ⟨hnone, hsome⟩ := toIndex_spec hnormal
    (BitsOps.zeroExtend_bitCount (b := i) (n := s.bitCount + 1) (by omega))
  rw [BitsOps.zeroExtend_toNat] at hnone hsome
  by_cases hlt : i.toNat < pointSum s.intervals
  · obtain ⟨j, soFar, heq, hj, hwidth, hle, hcount⟩ := hsome hlt
    have hju := j.upper_lt
    have hresult : (BitsOps.add soFar
        (BitsOps.zeroExtend j.lowerBound (s.bitCount + 1))).toNat = j.lower + soFar.toNat := by
      rw [BitsOps.add_toNat_of_lt]
      · rw [BitsOps.zeroExtend_toNat, Nat.add_comm]
        rfl
      · rw [BitsOps.zeroExtend_toNat, hwidth]
        show soFar.toNat + j.lower < _
        omega
    have hmsb : (BitsOps.add soFar
        (BitsOps.zeroExtend j.lowerBound (s.bitCount + 1))).msb = false := by
      rw [← Bool.not_eq_true, BitsOps.msb_eq_true_iff, BitsOps.add_bitCount, hwidth,
        Nat.add_sub_cancel]
      omega
    have hslice : (BitsOps.slice (BitsOps.add soFar
        (BitsOps.zeroExtend j.lowerBound (s.bitCount + 1))) 0 s.bitCount).toNat =
          j.lower + soFar.toNat := by
      show (BitsOps.add soFar _).toNat / 2 ^ 0 % 2 ^ s.bitCount = _
      rw [hresult, pow_zero, Nat.div_one, Nat.mod_eq_of_lt (by omega)]
    rw [heq]
    simp only [hmsb]
    refine ⟨_, rfl, ⟨by simp, fun h => by omega⟩, ?_⟩
    rintro p ⟨⟩
    refine ⟨⟨rfl, ?_⟩, ?_⟩
    · rw [hslice]
      exact coversPoint_eq_true.mpr ⟨j, hj, Interval.covers_of_between (by omega) hle⟩
    · rw [hslice]
      exact hcount
  · rw [hnone (by omega)]
    refine ⟨none, rfl, ⟨fun _ => by omega, fun _ => rfl⟩, ?_⟩
    rintro p ⟨⟩

/-! ## Both together -/

/-- `Size` yields the number of points whenever it is an `int64_t`, and nothing otherwise. -/
def SizeExact (s : IntervalSet) : Prop :=
  s.size = some (if s.pointCount < 2 ^ 63 then some s.pointCount else none)

/-- `Size` is exact as long as its running total fits. -/
theorem sizeExact_iff {s : IntervalSet} (hs : s.isNormalized = true) :
    s.SizeExact ↔ TotalFits s.intervals 0 := by
  unfold SizeExact size
  rw [if_pos hs, pointCount_eq_pointSum hs]
  obtain ⟨hfits, hoverflows⟩ := sizeFrom_eq (fun i hi => (s.normal hs).proper hi)
    (show 0 < 2 ^ 63 by norm_num)
  rw [Nat.zero_add] at hfits
  constructor
  · intro h
    by_contra hcon
    rw [hoverflows hcon] at h
    cases h
  · exact hfits

/-- `Size` and `Index` enumerate a normalized set exactly as long as the total of `Size`
fits; `Index` always does. -/
theorem size_index_exact_iff {s : IntervalSet} (hs : s.isNormalized = true) :
    (s.SizeExact ∧ ∀ i : Bits, i.bitCount = s.bitCount → s.IndexExact i) ↔
      TotalFits s.intervals 0 := by
  rw [sizeExact_iff hs]
  exact and_iff_left fun i hi => index_eq hs hi

/-- The points `2`, `3` and `5`, `6`, `7` of width 3. -/
theorem size_index_exact_iff_five :
    let s := (ofIntervals [(⟨2, 3, by decide, by decide⟩ : Interval 3),
      ⟨5, 7, by decide, by decide⟩]).normalize
    (s.SizeExact ∧ ∀ i : Bits, i.bitCount = s.bitCount → s.IndexExact i) ↔
      TotalFits s.intervals 0 := size_index_exact_iff (normalize_isNormalized _)

/-- All vectors of 64 bits below `2 ^ 63` but the last one, and the vector behind it. -/
def halfAndOne : IntervalSet where
  bitCount := 64
  isNormalized := true
  intervals := [⟨0, 2 ^ 63 - 2, by norm_num, by norm_num⟩, ⟨2 ^ 63, 2 ^ 63, by norm_num, by norm_num⟩]
  normal _ := by
    constructor
    · simp [Interval.Proper]
    · simp

/-- Together they are `2 ^ 63` points, and the total overflows. -/
theorem halfAndOne_not_exact : halfAndOne.isNormalized = true ∧ halfAndOne.pointCount = 2 ^ 63 ∧
    halfAndOne.size = none ∧
    ¬ (halfAndOne.SizeExact ∧
      ∀ i : Bits, i.bitCount = halfAndOne.bitCount → halfAndOne.IndexExact i) := by
  have hsize : halfAndOne.size = none := by
    simp [size, sizeFrom, Interval.size, Interval.sizeBits, halfAndOne]
  refine ⟨rfl, ?_, hsize, ?_⟩
  · rw [pointCount_eq_pointSum rfl]
    simp [pointSum, Interval.pointCount, halfAndOne]
  · rintro ⟨hexact, -⟩
    rw [SizeExact, hsize] at hexact
    cases hexact

end IntervalSet

end Xls
