/-
# Interval sets

`xls/ir/interval_set.cc`.  An `IntervalSet` is a bit count, a list of intervals
of that width and the flag `isNormalized`; the structure carries the invariant
behind the flag, so that a set which claims to be normalized is.  Where the
source CHECKs a bit count or the flag, the function returns `none` on failure.
-/
import Xls.IntervalSet.Intersect

namespace Xls

/-- A set of `bitCount`-bit vectors given by intervals. -/
structure IntervalSet where
  bitCount : ℕ
  isNormalized : Bool
  intervals : List (Interval bitCount)
  normal : isNormalized = true → Normal intervals

namespace IntervalSet

/-! ## Construction -/

/-- `IntervalSet(bit_count)`: no points. -/
def empty (w : ℕ) : IntervalSet := ⟨w, true, [], fun _ => Normal.nil⟩

/-- A set with the given intervals, not normalized (what repeated calls of
`AddInterval` leave behind). -/
def ofIntervals {w : ℕ} (intervals : List (Interval w)) : IntervalSet :=
  ⟨w, false, intervals, fun h => by cases h⟩

/-- `AddInterval`. -/
def addInterval (s : IntervalSet) (i : Interval s.bitCount) : IntervalSet :=
  ofIntervals (s.intervals ++ [i])

/-- `Normalize`. -/
def normalize (s : IntervalSet) : IntervalSet :=
  if s.isNormalized then s
  else ⟨s.bitCount, true, normalizeIntervals s.intervals,
    fun _ => (normalizeIntervals_spec s.intervals).1⟩

/-- `IntervalSet::Maximal`. -/
def maximal (w : ℕ) : IntervalSet := (ofIntervals [Interval.maximal w]).normalize

/-- `IntervalSet::Precise`. -/
def precise (b : Bits) : IntervalSet := (ofIntervals [Interval.precise b]).normalize

/-- `IntervalSet::Combine`. -/
def combine (lhs rhs : IntervalSet) : Option IntervalSet :=
  if h : rhs.bitCount = lhs.bitCount then
    some (ofIntervals (lhs.intervals ++ rhs.intervals.map (Interval.cast h))).normalize
  else none

/-- `IntervalSet::Intersect`. -/
def intersect (lhs rhs : IntervalSet) : Option IntervalSet :=
  if h : rhs.bitCount = lhs.bitCount then
    if lhs.isNormalized && rhs.isNormalized then
      (intersectIntervals lhs.intervals (rhs.intervals.map (Interval.cast h))).map
        fun res => (ofIntervals res).normalize
    else none
  else none

/-- `IntervalSet::Complement`: the intersection of the complements of the
intervals. -/
def complement (s : IntervalSet) : Option IntervalSet :=
  if s.isNormalized then
    s.intervals.foldlM (fun result i => result.intersect (ofIntervals i.complement).normalize)
      (maximal s.bitCount)
  else none

/-! ## Queries -/

/-- `Covers`, on the value of a point of the set's width. -/
def covers (s : IntervalSet) (n : ℕ) : Bool := coversPoint s.intervals n

/-- `LowerBound`: the first bound of a normalized set, else the least one. -/
def lowerBound (s : IntervalSet) : Option (Fin (2 ^ s.bitCount)) :=
  if s.isNormalized then s.intervals.head?.map fun i => ⟨i.lower, i.lower_lt⟩
  else s.intervals.foldl (fun lower i =>
    match lower with
    | some b => if i.lower < b.val then some ⟨i.lower, i.lower_lt⟩ else some b
    | none => some ⟨i.lower, i.lower_lt⟩) none

/-- `UpperBound`: the last bound of a normalized set, else the greatest one. -/
def upperBound (s : IntervalSet) : Option (Fin (2 ^ s.bitCount)) :=
  if s.isNormalized then s.intervals.getLast?.map fun i => ⟨i.upper, i.upper_lt⟩
  else s.intervals.foldl (fun upper i =>
    match upper with
    | some b => if b.val < i.upper then some ⟨i.upper, i.upper_lt⟩ else some b
    | none => some ⟨i.upper, i.upper_lt⟩) none

/-- `ConvexHull`. -/
def convexHull (s : IntervalSet) : Option (Interval s.bitCount) := do
  let lower ← s.lowerBound
  let upper ← s.upperBound
  return ⟨lower.val, upper.val, lower.isLt, upper.isLt⟩

/-- The loop of `IsPrecise`: every interval is precise and equal to the one before. -/
def isPreciseFrom {w : ℕ} : Option (Interval w) → List (Interval w) → Bool
  | _, [] => true
  | precisely, i :: rest =>
    if precisely.isSome && decide (precisely ≠ some i) then false
    else if !i.isPrecise then false
    else isPreciseFrom (some i) rest

/-- `IsPrecise`. -/
def isPrecise (s : IntervalSet) : Bool := isPreciseFrom none s.intervals

/-- `GetPreciseValue`: the outer `none` is a failed CHECK. -/
def getPreciseValue (s : IntervalSet) : Option (Option Bits) :=
  if s.isNormalized then
    if !s.isPrecise then some none
    else
      match s.intervals with
      | [i] => some (if i.isPrecise then some i.lowerBound else none)
      | _ => none
  else none

/-- `IsMaximal` of a normalized set. -/
def isMaximal (s : IntervalSet) : Bool := s.intervals.any Interval.isMaximal

/-- `IsEmpty` of a normalized set. -/
def isEmpty (s : IntervalSet) : Bool := s.intervals.isEmpty

/-! ## Points -/

/-- A bit vector of the set's width lies in the set. -/
def Covers (s : IntervalSet) (b : Bits) : Prop :=
  b.bitCount = s.bitCount ∧ s.covers b.toNat = true

instance (s : IntervalSet) (b : Bits) : Decidable (s.Covers b) :=
  inferInstanceAs (Decidable (_ ∧ _))

variable {s lhs rhs : IntervalSet} {b : Bits} {w : ℕ}

theorem Covers.exists_interval (h : s.Covers b) :
    ∃ i ∈ s.intervals, i.covers b.toNat = true := coversPoint_eq_true.mp h.2

theorem Covers.lt (h : s.Covers b) : b.toNat < 2 ^ s.bitCount := by
  rw [← h.1]
  exact b.isLt

@[simp] theorem empty_bitCount (w : ℕ) : (empty w).bitCount = w := rfl
@[simp] theorem empty_isNormalized (w : ℕ) : (empty w).isNormalized = true := rfl
@[simp] theorem ofIntervals_bitCount (l : List (Interval w)) : (ofIntervals l).bitCount = w := rfl
@[simp] theorem addInterval_bitCount (s : IntervalSet) (i : Interval s.bitCount) :
    (s.addInterval i).bitCount = s.bitCount := rfl

@[simp] theorem normalize_bitCount (s : IntervalSet) : s.normalize.bitCount = s.bitCount := by
  unfold normalize
  split <;> rfl

@[simp] theorem normalize_isNormalized (s : IntervalSet) : s.normalize.isNormalized = true := by
  unfold normalize
  split
  · assumption
  · rfl

theorem normalize_covers (s : IntervalSet) {n : ℕ} (hn : n < 2 ^ s.bitCount) :
    s.normalize.covers n = s.covers n := by
  unfold normalize
  split
  · rfl
  · exact (normalizeIntervals_spec s.intervals).2 n hn

/-- `Normalize` keeps the points of a set. -/
@[simp] theorem normalize_Covers (s : IntervalSet) (b : Bits) :
    s.normalize.Covers b ↔ s.Covers b := by
  unfold Covers
  rw [normalize_bitCount]
  refine and_congr_right fun hb => ?_
  rw [normalize_covers s (by rw [← hb]; exact b.isLt)]

theorem ofIntervals_Covers (l : List (Interval w)) (b : Bits) :
    (ofIntervals l).Covers b ↔ b.bitCount = w ∧ ∃ i ∈ l, i.covers b.toNat = true := by
  unfold Covers covers
  rw [coversPoint_eq_true]
  rfl

theorem addInterval_Covers (s : IntervalSet) (i : Interval s.bitCount) (b : Bits) :
    (s.addInterval i).Covers b ↔ s.Covers b ∨ (b.bitCount = s.bitCount ∧ i.covers b.toNat = true) := by
  unfold addInterval Covers covers
  simp only [ofIntervals, coversPoint_append, coversPoint_cons, Bool.or_eq_true]
  tauto

@[simp] theorem maximal_bitCount (w : ℕ) : (maximal w).bitCount = w := by
  simp [maximal]

@[simp] theorem maximal_isNormalized (w : ℕ) : (maximal w).isNormalized = true :=
  normalize_isNormalized _

/-- The maximal set covers every vector of its width. -/
theorem maximal_Covers (hb : b.bitCount = w) : (maximal w).Covers b := by
  subst hb
  unfold maximal
  rw [normalize_Covers, ofIntervals_Covers]
  exact ⟨rfl, _, List.mem_singleton_self _, Interval.maximal_covers b.isLt⟩

@[simp] theorem precise_bitCount (b : Bits) : (precise b).bitCount = b.bitCount := by
  simp [precise]

@[simp] theorem precise_isNormalized (b : Bits) : (precise b).isNormalized = true :=
  normalize_isNormalized _

theorem precise_Covers (b : Bits) : (precise b).Covers b := by
  unfold precise
  rw [normalize_Covers, ofIntervals_Covers]
  exact ⟨rfl, _, List.mem_singleton_self _, Interval.covers_of_between le_rfl le_rfl⟩

theorem coversPoint_map_cast {w' : ℕ} (h : w = w') (l : List (Interval w)) (n : ℕ) :
    coversPoint (l.map (Interval.cast h)) n = coversPoint l n := by
  subst h
  unfold coversPoint
  rw [List.any_map]
  rfl

theorem normal_map_cast {w' : ℕ} (h : w = w') {l : List (Interval w)} (hl : Normal l) :
    Normal (l.map (Interval.cast h)) := by
  subst h
  have hid : (Interval.cast rfl : Interval w → Interval w) = id := rfl
  rw [hid, List.map_id]
  exact hl

/-- `Combine` succeeds on sets of one width and covers the union. -/
theorem combine_eq_some {res : IntervalSet} (h : lhs.combine rhs = some res) :
    rhs.bitCount = lhs.bitCount ∧ res.bitCount = lhs.bitCount ∧ res.isNormalized = true ∧
    ∀ b, res.Covers b ↔ lhs.Covers b ∨ rhs.Covers b := by
  unfold combine at h
  split at h
  · rename_i hw
    cases h
    refine ⟨hw, by simp, by simp, ?_⟩
    intro b
    rw [normalize_Covers]
    unfold Covers covers
    simp only [ofIntervals, coversPoint_append, coversPoint_map_cast, Bool.or_eq_true, hw]
    tauto
  · cases h

theorem combine_isSome (h : rhs.bitCount = lhs.bitCount) :
    ∃ res, lhs.combine rhs = some res := ⟨_, dif_pos h⟩

/-- `Intersect` succeeds on normalized sets of one width. -/
theorem intersect_isSome (h : rhs.bitCount = lhs.bitCount) (hl : lhs.isNormalized = true)
    (hr : rhs.isNormalized = true) : ∃ res, lhs.intersect rhs = some res := by
  obtain ⟨res, hres, -⟩ := intersectIntervals_spec (lhs.normal hl) (normal_map_cast h (rhs.normal hr))
  refine ⟨(ofIntervals res).normalize, ?_⟩
  unfold intersect
  rw [dif_pos h, hl, hr, Bool.and_self, hres]
  rfl

/-- `Intersect` covers exactly the common points. -/
theorem intersect_eq_some {res : IntervalSet} (h : lhs.intersect rhs = some res) :
    rhs.bitCount = lhs.bitCount ∧ res.bitCount = lhs.bitCount ∧ res.isNormalized = true ∧
    ∀ b, res.Covers b ↔ lhs.Covers b ∧ rhs.Covers b := by
  unfold intersect at h
  split at h
  · rename_i hw
    split at h
    · rename_i hnorm
      rw [Bool.and_eq_true] at hnorm
      obtain ⟨l, hl, rfl⟩ := Option.map_eq_some_iff.mp h
      obtain ⟨l', hl', hcov⟩ := intersectIntervals_spec (lhs.normal hnorm.1)
        (normal_map_cast hw (rhs.normal hnorm.2))
      rw [hl] at hl'
      cases hl'
      refine ⟨hw, by simp, by simp, ?_⟩
      intro b
      rw [normalize_Covers]
      unfold Covers covers
      simp only [ofIntervals]
      by_cases hb : b.bitCount = lhs.bitCount
      · rw [hcov b.toNat (by rw [← hb]; exact b.isLt), coversPoint_map_cast]
        simp [hb, hw]
      · simp [hb]
    · cases h
  · cases h

/-! ## Bounds of a normalized set -/

/-- The convex hull of a normalized set contains its points. -/
theorem convexHull_of_Covers (hs : s.isNormalized = true) (h : s.Covers b) :
    ∃ hull, s.convexHull = some hull ∧ hull.lower ≤ b.toNat ∧ b.toNat ≤ hull.upper := by
  obtain ⟨i, hi, hcov⟩ := h.exists_interval
  have hnormal := s.normal hs
  rw [Interval.covers_iff_of_proper (hnormal.proper hi) h.lt] at hcov
  have hne := List.ne_nil_of_mem hi
  obtain ⟨first, hfirst⟩ : ∃ i, s.intervals.head? = some i := ⟨_, List.head?_eq_some_head hne⟩
  obtain ⟨last, hlast⟩ : ∃ i, s.intervals.getLast? = some i :=
    ⟨_, List.getLast?_eq_some_getLast hne⟩
  refine ⟨⟨first.lower, last.upper, first.lower_lt, last.upper_lt⟩, ?_, ?_, ?_⟩
  · simp [convexHull, lowerBound, upperBound, hs, hfirst, hlast]
  · exact (hnormal.head_lower_le hfirst hi).trans hcov.1
  · show b.toNat ≤ last.upper
    exact hcov.2.trans (hnormal.upper_le_last hlast hi)

/-- The upper bound of a normalized set bounds its points. -/
theorem upperBound_of_Covers (hs : s.isNormalized = true) (h : s.Covers b) :
    ∃ ub, s.upperBound = some ub ∧ b.toNat ≤ ub.val := by
  obtain ⟨i, hi, hcov⟩ := h.exists_interval
  have hnormal := s.normal hs
  rw [Interval.covers_iff_of_proper (hnormal.proper hi) h.lt] at hcov
  obtain ⟨last, hlast⟩ : ∃ i, s.intervals.getLast? = some i :=
    ⟨_, List.getLast?_eq_some_getLast (List.ne_nil_of_mem hi)⟩
  refine ⟨⟨last.upper, last.upper_lt⟩, ?_, hcov.2.trans (hnormal.upper_le_last hlast hi)⟩
  simp [upperBound, hs, hlast]

/-- In a precise list every interval is precise and equal to the one before. -/
theorem isPreciseFrom_spec (l : List (Interval w)) :
    ∀ p : Option (Interval w), isPreciseFrom p l = true →
      ∀ i ∈ l, i.lower = i.upper ∧ (∀ q, p = some q → i = q) ∧ ∀ j ∈ l, i = j := by
  induction l with
  | nil => intro p _ i hi; cases hi
  | cons a rest ih =>
    intro p h
    rw [isPreciseFrom] at h
    split_ifs at h with h1 h2
    have hpa : ∀ q, p = some q → a = q := by
      intro q hq
      subst hq
      have hqa : q = a := by simpa using h1
      exact hqa.symm
    have hlu : a.lower = a.upper := Interval.eq_of_isPrecise (by simpa using h2)
    have hrest := ih (some a) h
    intro i hi
    obtain rfl | hi := List.mem_cons.mp hi
    · refine ⟨hlu, hpa, ?_⟩
      intro j hj
      obtain rfl | hj := List.mem_cons.mp hj
      · rfl
      · exact ((hrest j hj).2.1 i rfl).symm
    · obtain ⟨hp, heq, -⟩ := hrest i hi
      have hia : i = a := heq a rfl
      subst hia
      refine ⟨hp, hpa, ?_⟩
      intro j hj
      obtain rfl | hj := List.mem_cons.mp hj
      · rfl
      · exact ((hrest j hj).2.1 i rfl).symm

/-- The points of a precise set coincide with the bounds of its intervals. -/
theorem toNat_eq_of_isPrecise (hs : s.isNormalized = true) (hp : s.isPrecise = true)
    (h : s.Covers b) {i : Interval s.bitCount} (hi : i ∈ s.intervals) :
    b.toNat = i.lower ∧ b.toNat = i.upper := by
  obtain ⟨j, hj, hcov⟩ := h.exists_interval
  obtain ⟨hlu, -, hall⟩ := isPreciseFrom_spec s.intervals none hp i hi
  rw [← hall j hj, Interval.covers_iff_of_proper ((s.normal hs).proper hi) h.lt] at hcov
  omega


end IntervalSet

end Xls
