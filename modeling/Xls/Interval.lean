/-
# Intervals of bit vectors

`xls/ir/interval.cc`.  An `Interval w` holds the unsigned values of its two
inclusive bounds, both of width `w`.  An interval whose upper bound is below its
lower bound is *improper*: it wraps around the end of the range.  The functions
which the source restricts to proper intervals (`Overlaps`, `Abuts`,
`ConvexHull`, `Intersect`, `Difference`) are only called on proper ones.

The width is an index of the type, so that the bit-count checks of the source
hold by construction; a `Bits` argument enters by its unsigned value.
-/
import Xls.Bits
import Xls.Lib.Visit

namespace Xls

/-- An interval of `w`-bit vectors, given by its inclusive unsigned bounds. -/
@[ext]
structure Interval (w : ℕ) where
  lower : ℕ
  upper : ℕ
  lower_lt : lower < 2 ^ w
  upper_lt : upper < 2 ^ w
  deriving Repr

instance {w : ℕ} : DecidableEq (Interval w) :=
  fun _ _ => decidable_of_iff _ Interval.ext_iff.symm

namespace Interval

variable {w : ℕ}

/-- `LowerBound()`, as a bit vector. -/
def lowerBound (i : Interval w) : Bits := ⟨w, i.lower, i.lower_lt⟩

/-- `UpperBound()`, as a bit vector. -/
def upperBound (i : Interval w) : Bits := ⟨w, i.upper, i.upper_lt⟩

/-- `Interval::Maximal`. -/
def maximal (w : ℕ) : Interval w :=
  ⟨0, 2 ^ w - 1, Nat.two_pow_pos w, Bits.two_pow_sub_one_lt w⟩

/-- `Interval::Precise`. -/
def precise (b : Bits) : Interval b.bitCount := ⟨b.toNat, b.toNat, b.isLt, b.isLt⟩

/-- The interval read at an equal width. -/
def cast {w' : ℕ} (h : w = w') (i : Interval w) : Interval w' :=
  ⟨i.lower, i.upper, h ▸ i.lower_lt, h ▸ i.upper_lt⟩

/-- `IsImproper`: the upper bound is strictly below the lower bound. -/
def isImproper (i : Interval w) : Bool :=
  if w = 0 then false else decide (i.upper < i.lower)

/-- `IsPrecise`: exactly one point is covered. -/
def isPrecise (i : Interval w) : Bool :=
  if w = 0 then true else decide (i.lower = i.upper)

/-- `IsMaximal`: every point is covered. -/
def isMaximal (i : Interval w) : Bool :=
  if w = 0 then true else decide (i.lower = 0) && decide (i.upper = 2 ^ w - 1)

/-- `Covers`, on the unsigned value of a `w`-bit point. -/
def covers (i : Interval w) (point : ℕ) : Bool :=
  if w = 0 then true
  else if i.isImproper then decide (i.lower ≤ point) || decide (point ≤ i.upper)
  else decide (i.lower ≤ point) && decide (point ≤ i.upper)

/-- `Overlaps` on proper intervals. -/
def overlaps (lhs rhs : Interval w) : Bool :=
  if w = 0 then true
  else decide (rhs.lower ≤ lhs.upper) && decide (lhs.lower ≤ rhs.upper)

/-- `Disjoint` on proper intervals. -/
def disjoint (lhs rhs : Interval w) : Bool := !overlaps lhs rhs

/-- `Abuts` on proper intervals `[a, b]` and `[c, d]`: `b + 1 = c` or `d + 1 = a`,
found by comparing `b + 1` with `c` first. -/
def abuts (lhs rhs : Interval w) : Bool :=
  if w = 0 then false
  else if lhs.upper ≠ 2 ^ w - 1 ∧ lhs.upper + 1 = rhs.lower then true
  else if lhs.upper ≠ 2 ^ w - 1 ∧ lhs.upper + 1 < rhs.lower then false
  else decide (rhs.upper ≠ 2 ^ w - 1) && decide (rhs.upper + 1 = lhs.lower)

/-- `ConvexHull` of two proper intervals. -/
def convexHull (lhs rhs : Interval w) : Interval w :=
  ⟨min lhs.lower rhs.lower, max lhs.upper rhs.upper,
    lt_of_le_of_lt (min_le_left _ _) lhs.lower_lt, max_lt lhs.upper_lt rhs.upper_lt⟩

/-- `Intersect` of two proper intervals, when it is not empty. -/
def intersect (lhs rhs : Interval w) : Option (Interval w) :=
  let intersection : Interval w :=
    ⟨max lhs.lower rhs.lower, min lhs.upper rhs.upper,
      max_lt lhs.lower_lt rhs.lower_lt, lt_of_le_of_lt (min_le_left _ _) lhs.upper_lt⟩
  if intersection.isImproper then none else some intersection

/-- `RightOpen(a, b)`: `[a, b - 1]`, the decrement wrapping at zero. -/
def rightOpen (lowerBound upperBound : ℕ) (hl : lowerBound < 2 ^ w) : Interval w :=
  ⟨lowerBound, (upperBound + (2 ^ w - 1)) % 2 ^ w, hl, Nat.mod_lt _ (Nat.two_pow_pos w)⟩

/-- `LeftOpen(a, b)`: `[a + 1, b]`, the increment wrapping at the maximum. -/
def leftOpen (lowerBound upperBound : ℕ) (hu : upperBound < 2 ^ w) : Interval w :=
  ⟨(lowerBound + 1) % 2 ^ w, upperBound, Nat.mod_lt _ (Nat.two_pow_pos w), hu⟩

/-- `Difference` of two proper intervals. -/
def difference (lhs rhs : Interval w) : List (Interval w) :=
  match intersect lhs rhs with
  | none => [lhs]
  | some intersection =>
    (if lhs.lower < intersection.lower then
      [rightOpen lhs.lower intersection.lower lhs.lower_lt] else []) ++
    (if intersection.upper < lhs.upper then
      [leftOpen intersection.upper lhs.upper lhs.upper_lt] else [])

/-- `Complement` of a proper interval. -/
def complement (i : Interval w) : List (Interval w) := difference (maximal w) i

/-- `operator<`: lexicographic on lower, then upper bound. -/
def lt (lhs rhs : Interval w) : Bool :=
  if lhs.lower < rhs.lower then true
  else if rhs.lower < lhs.lower then false
  else decide (lhs.upper < rhs.upper)

/-- The points of an interval in the order of `ForEachElement`: an improper interval
is read from its lower bound to the maximum and then from zero to its upper bound. -/
def elements (i : Interval w) : List ℕ :=
  if i.isImproper then
    List.range' i.lower (2 ^ w - i.lower) ++ List.range' 0 (i.upper + 1)
  else List.range' i.lower (i.upper - i.lower + 1)

/-- `ForEachElement`. -/
def forEachElement {σ : Type} (i : Interval w) (callback : σ → ℕ → Option (σ × Bool)) (s : σ) :
    Option (σ × Bool) := Visit.visit callback i.elements s

/-! ## Points of an interval -/

/-- A proper interval: the lower bound does not exceed the upper bound. -/
def Proper (i : Interval w) : Prop := i.lower ≤ i.upper

/-- In a zero-width interval both bounds are zero. -/
theorem bounds_eq_zero (hw : w = 0) (i : Interval w) : i.lower = 0 ∧ i.upper = 0 := by
  have hl := i.lower_lt
  have hu := i.upper_lt
  subst hw
  omega

theorem isImproper_eq_false_iff (i : Interval w) : i.isImproper = false ↔ i.Proper := by
  unfold isImproper Proper
  by_cases hw : w = 0
  · obtain ⟨hl, hu⟩ := bounds_eq_zero hw i
    simp [hl]
  · simp [hw]

variable {i a b : Interval w} {n : ℕ}

/-- The bounds of a precise interval coincide. -/
theorem eq_of_isPrecise (h : i.isPrecise = true) : i.lower = i.upper := by
  unfold isPrecise at h
  split at h
  · rename_i hw
    obtain ⟨hl, hu⟩ := bounds_eq_zero hw i
    rw [hl, hu]
  · simpa using h

theorem isImproper_iff (i : Interval w) : i.isImproper = true ↔ i.upper < i.lower := by
  rw [← Bool.not_eq_false, isImproper_eq_false_iff, Proper, not_le]

/-- The points of a proper interval are those between its bounds. -/
theorem covers_iff_of_proper (hi : i.Proper) (hn : n < 2 ^ w) :
    i.covers n = true ↔ i.lower ≤ n ∧ n ≤ i.upper := by
  unfold covers
  by_cases hw : w = 0
  · obtain ⟨hl, hu⟩ := bounds_eq_zero hw i
    have hn0 : n = 0 := by subst hw; simpa using hn
    simp [hl, hn0]
  · rw [if_neg hw, (isImproper_eq_false_iff i).mpr hi]
    simp

/-- The points of an improper interval lie on either side of the gap. -/
theorem covers_iff_of_improper (hi : i.upper < i.lower) :
    i.covers n = true ↔ i.lower ≤ n ∨ n ≤ i.upper := by
  have hw : w ≠ 0 := by
    intro hw
    obtain ⟨hl, hu⟩ := bounds_eq_zero hw i
    omega
  unfold covers
  rw [if_neg hw, (isImproper_iff i).mpr hi]
  simp

@[simp] theorem covers_cast {w' : ℕ} (h : w = w') (i : Interval w) (n : ℕ) :
    (i.cast h).covers n = i.covers n := by
  subst h
  rfl

/-- A point between the bounds of an interval is covered, proper or not. -/
theorem covers_of_between (hl : i.lower ≤ n) (hu : n ≤ i.upper) : i.covers n = true := by
  have hi : i.Proper := hl.trans hu
  exact (covers_iff_of_proper hi (lt_of_le_of_lt hu i.upper_lt)).mpr ⟨hl, hu⟩

theorem overlaps_iff (a b : Interval w) :
    a.overlaps b = true ↔ b.lower ≤ a.upper ∧ a.lower ≤ b.upper := by
  unfold overlaps
  by_cases hw : w = 0
  · obtain ⟨hl, hu⟩ := bounds_eq_zero hw a
    obtain ⟨hl', hu'⟩ := bounds_eq_zero hw b
    simp [hl, hl']
  · simp [hw]

/-- Two intervals overlap or abut exactly when neither leaves a gap before the
other. -/
theorem touches_iff (ha : a.Proper) (hb : b.Proper) :
    (a.overlaps b || a.abuts b) = true ↔ b.lower ≤ a.upper + 1 ∧ a.lower ≤ b.upper + 1 := by
  have hau := a.upper_lt
  have hbu := b.upper_lt
  unfold Proper at ha hb
  rw [Bool.or_eq_true, overlaps_iff]
  unfold abuts
  by_cases hw : w = 0
  · obtain ⟨hl, hu⟩ := bounds_eq_zero hw a
    obtain ⟨hl', hu'⟩ := bounds_eq_zero hw b
    simp [hl, hl']
  · split_ifs with h1 h2
    · simp only [or_true, true_iff]
      omega
    · simp only [or_false]
      omega
    · simp only [Bool.and_eq_true, decide_eq_true_eq]
      omega

theorem convexHull_proper (ha : a.Proper) : (a.convexHull b).Proper := by
  unfold Proper convexHull at *
  simp only
  omega

/-- The hull of two touching intervals covers exactly their union. -/
theorem convexHull_covers_iff (ha : a.Proper) (hb : b.Proper) (h1 : b.lower ≤ a.upper + 1)
    (h2 : a.lower ≤ b.upper + 1) (hn : n < 2 ^ w) :
    (a.convexHull b).covers n = true ↔ a.covers n = true ∨ b.covers n = true := by
  rw [covers_iff_of_proper (convexHull_proper ha) hn, covers_iff_of_proper ha hn,
    covers_iff_of_proper hb hn]
  simp only [convexHull]
  omega

/-- `Intersect` covers exactly the common points. -/
theorem intersect_some {c : Interval w} (h : a.intersect b = some c) :
    c.Proper ∧ c.lower = max a.lower b.lower ∧ c.upper = min a.upper b.upper := by
  unfold intersect at h
  simp only at h
  split at h
  · cases h
  · rename_i hp
    cases h
    exact ⟨(isImproper_eq_false_iff _).mp (by simpa using hp), rfl, rfl⟩

theorem intersect_none (h : a.intersect b = none) : min a.upper b.upper < max a.lower b.lower := by
  unfold intersect at h
  simp only at h
  split at h
  · rename_i hp
    exact (isImproper_iff _).mp hp
  · cases h

theorem maximal_proper (w : ℕ) : (maximal w).Proper := Nat.zero_le _

theorem maximal_covers (hn : n < 2 ^ w) : (maximal w).covers n = true :=
  covers_of_between (Nat.zero_le _) (Nat.le_sub_one_of_lt hn)

/-- The elements of a proper interval before a covered point are smaller. -/
theorem elements_split (hi : i.Proper) (hl : i.lower ≤ n) (hu : n ≤ i.upper) :
    ∃ l₁ l₂, i.elements = l₁ ++ n :: l₂ ∧ ∀ v ∈ l₁, v < n := by
  refine ⟨List.range' i.lower (n - i.lower), List.range' (n + 1) (i.upper - n), ?_, ?_⟩
  · unfold elements
    rw [(isImproper_eq_false_iff i).mpr hi, if_neg (by simp),
      show i.upper - i.lower + 1 = (n - i.lower) + (i.upper - n + 1) by omega,
      ← List.range'_append_1, show i.lower + (n - i.lower) = n by omega, List.range'_succ]
  · intro v hv
    have := (List.mem_range'_1.mp hv).2
    omega

end Interval

end Xls
