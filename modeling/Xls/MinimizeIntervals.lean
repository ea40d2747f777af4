/-
# Reducing the number of intervals

`MinimizeIntervals` (`xls/passes/range_query_engine.cc`): neighbouring intervals
with the smallest gaps between them are merged until few enough remain.  The merged
intervals are added to the set and `Normalize` absorbs the parts, so that no point
is lost.
-/
import Xls.IntervalSet

namespace Xls

/-- `BitsWithIndex::operator<`. -/
def bitsWithIndexLt (lhs rhs : ℕ × ℕ) : Bool :=
  if lhs.1 < rhs.1 then true
  else if lhs.1 = rhs.1 then decide (lhs.2 < rhs.2)
  else false

/-- The contiguous runs of a sorted list of indices, as `MergeInterval`s. -/
def contiguousRuns (start last : ℕ) : List ℕ → List (ℕ × ℕ)
  | [] => [(start, last)]
  | i :: rest =>
    if last + 1 = i then contiguousRuns start i rest
    else (start, last) :: contiguousRuns i i rest

/-- `ReduceByMerging`: the ranges of elements to merge so that `desiredSize` remain. -/
def reduceByMerging (elements : List ℕ) (desiredSize : ℕ) : List (ℕ × ℕ) :=
  if elements.length ≤ desiredSize then []
  else
    let elementsWithIndex := elements.zipIdx.insertionSort fun a b => bitsWithIndexLt b a = false
    let indexesToMerge := ((elementsWithIndex.take (elements.length - desiredSize)).map
      Prod.snd).insertionSort (· ≤ ·)
    match indexesToMerge with
    | [] => []
    | i :: rest => contiguousRuns i i rest

/-- The gaps between neighbouring intervals. -/
def gapVector {w : ℕ} : List (Interval w) → List ℕ
  | x :: y :: rest => (BitsOps.sub y.lowerBound x.upperBound).toNat :: gapVector (y :: rest)
  | _ => []

/-- The hull of the intervals `start .. end + 1`; there are that many. -/
def mergedInterval {w : ℕ} (intervals : List (Interval w)) (m : ℕ × ℕ) : Option (Interval w) :=
  match intervals.drop m.1 with
  | [] => none
  | first :: rest =>
    some (((first :: rest).take (m.2 + 2 - m.1)).foldl Interval.convexHull first)

/-- `MinimizeIntervals`. -/
def minimizeIntervals (intervals : IntervalSet) (size : ℕ) : IntervalSet :=
  let s := intervals.normalize
  if s.intervals.length ≤ 1 then s
  else
    let merges := reduceByMerging (gapVector s.intervals) (size - 1)
    match merges.filterMap (mergedInterval s.intervals) with
    | [] => s
    | merged => (IntervalSet.ofIntervals (s.intervals ++ merged)).normalize

/-- The default argument of `MinimizeIntervals`. -/
def defaultMinimizeSize : ℕ := 16

@[simp] theorem minimizeIntervals_bitCount (s : IntervalSet) (size : ℕ) :
    (minimizeIntervals s size).bitCount = s.bitCount := by
  unfold minimizeIntervals
  simp only
  split
  · exact IntervalSet.normalize_bitCount s
  · split <;> simp

@[simp] theorem minimizeIntervals_isNormalized (s : IntervalSet) (size : ℕ) :
    (minimizeIntervals s size).isNormalized = true := by
  unfold minimizeIntervals
  simp only
  split
  · exact IntervalSet.normalize_isNormalized s
  · split <;> simp

/-- `MinimizeIntervals` loses no point. -/
theorem minimizeIntervals_Covers {s : IntervalSet} {b : Bits} (h : s.Covers b) (size : ℕ) :
    (minimizeIntervals s size).Covers b := by
  have hn : s.normalize.Covers b := (IntervalSet.normalize_Covers s b).mpr h
  unfold minimizeIntervals
  simp only
  split
  · exact hn
  · split
    · exact hn
    · rw [IntervalSet.normalize_Covers, IntervalSet.ofIntervals_Covers]
      obtain ⟨i, hi, hcov⟩ := hn.exists_interval
      exact ⟨hn.1, i, List.mem_append_left _ hi, hcov⟩

end Xls
