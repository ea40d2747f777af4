/-
# Closing gaps of an interval set

What may become of a normal form when some of the gaps between its intervals are filled.
The gaps are numbered from the first one on; `closed` says which of them are filled.

* `closeGaps_covers` : the points are those of the form and of the closed gaps;
* `length_closeGaps` : every closed gap saves an interval;
* `pointSum_closeGaps` : every closed gap adds its points.
-/
import Xls.MinimizeIntervals
import Xls.IntervalSet.Enumerate

namespace Xls

variable {w : ℕ}

/-- A normal form which starts with `cur`, some of its gaps filled. -/
def closeGaps (closed : ℕ → Bool) (cur : Interval w) : List (Interval w) → List (Interval w)
  | [] => [cur]
  | next :: rest =>
    if closed 0 then closeGaps (fun k => closed (k + 1)) (cur.convexHull next) rest
    else cur :: closeGaps (fun k => closed (k + 1)) next rest

/-- A point between an interval and the next one. -/
def InGap (l : List (Interval w)) (k n : ℕ) : Prop :=
  ∃ x y, l[k]? = some x ∧ l[k + 1]? = some y ∧ x.upper < n ∧ n < y.lower

/-- The sizes and the numbers of the closed gaps. -/
def chosenGaps (closed : ℕ → Bool) (gaps : List ℕ) : List (ℕ × ℕ) :=
  gaps.zipIdx.filter fun gap => closed gap.2

/-! ## Normal forms -/

variable {l rest : List (Interval w)} {x y : Interval w} {n : ℕ}

theorem Normal.cons {i : Interval w} (hi : i.Proper) (hl : Normal l)
    (hgap : ∀ j ∈ l, i.upper + 1 < j.lower) : Normal (i :: l) := by
  refine ⟨?_, List.pairwise_cons.mpr ⟨hgap, hl.2⟩⟩
  intro j hj
  rcases List.mem_cons.mp hj with rfl | hj
  · exact hi
  · exact hl.1 j hj

/-- The hull of the first two intervals of a normal form. -/
theorem Normal.hull_bounds {cur next : Interval w} (h : Normal (cur :: next :: rest)) :
    (cur.convexHull next).lower = cur.lower ∧ (cur.convexHull next).upper = next.upper := by
  have hgap := h.gap List.mem_cons_self
  have hcur : cur.Proper := h.proper List.mem_cons_self
  have hnext : next.Proper := h.tail.proper List.mem_cons_self
  unfold Interval.Proper at hcur hnext
  constructor
  · exact Nat.min_eq_left (by omega)
  · exact Nat.max_eq_right (by omega)

/-- Closing the first gap leaves a normal form. -/
theorem Normal.merge_head {cur next : Interval w} (h : Normal (cur :: next :: rest)) :
    Normal (cur.convexHull next :: rest) := by
  apply Normal.cons
  · exact Interval.convexHull_proper (h.proper List.mem_cons_self)
  · exact h.tail.tail
  · intro j hj
    rw [h.hull_bounds.2]
    exact h.tail.gap hj

/-- Closing gaps leaves a normal form with the same start. -/
theorem Normal.closeGaps : ∀ {closed : ℕ → Bool} {cur : Interval w}, Normal (cur :: rest) →
      Normal (closeGaps closed cur rest) ∧
        ∀ i ∈ Xls.closeGaps closed cur rest, cur.lower ≤ i.lower := by
  induction rest with
  | nil =>
    intro closed cur h
    refine ⟨h, fun i hi => ?_⟩
    rw [Xls.closeGaps, List.mem_singleton] at hi
    rw [hi]
  | cons next rest ih =>
    intro closed cur h
    have hgap := h.gap List.mem_cons_self
    have hcur : cur.Proper := h.proper List.mem_cons_self
    unfold Interval.Proper at hcur
    rw [Xls.closeGaps]
    split
    · obtain ⟨hnormal, hle⟩ := @ih (fun k => closed (k + 1)) _ h.merge_head
      rw [h.hull_bounds.1] at hle
      exact ⟨hnormal, hle⟩
    · obtain ⟨hnormal, hle⟩ := @ih (fun k => closed (k + 1)) _ h.tail
      constructor
      · apply Normal.cons hcur hnormal
        intro j hj
        have := hle j hj
        omega
      · intro i hi
        rcases List.mem_cons.mp hi with rfl | hi
        · exact le_rfl
        · have := hle i hi
          omega

/-- `closeGaps` on a whole normal form. -/
def closeGapsOf (closed : ℕ → Bool) : List (Interval w) → List (Interval w)
  | [] => []
  | cur :: rest => closeGaps closed cur rest

theorem Normal.closeGapsOf {closed : ℕ → Bool} (h : Normal l) : Normal (closeGapsOf closed l) := by
  cases l with
  | nil => exact h
  | cons cur rest => exact h.closeGaps.1

/-- A set with some of the gaps between its intervals filled. -/
def IntervalSet.closing (s : IntervalSet) (closed : ℕ → Bool) : IntervalSet where
  bitCount := s.bitCount
  isNormalized := s.isNormalized
  intervals := closeGapsOf closed s.intervals
  normal h := (s.normal h).closeGapsOf

/-! ## Points -/

theorem inGap_zero : InGap (x :: y :: l) 0 n ↔ x.upper < n ∧ n < y.lower := by
  constructor
  · rintro ⟨x', y', hx, hy, h⟩
    cases hx
    cases hy
    exact h
  · intro h
    exact ⟨x, y, rfl, rfl, h⟩

/-- Of the first interval, the gaps know only the end. -/
theorem inGap_congr (h : x.upper = y.upper) {k : ℕ} : InGap (x :: l) k n ↔ InGap (y :: l) k n := by
  rcases k with _ | k
  · rcases l with _ | ⟨z, l⟩
    · constructor <;> (rintro ⟨_, _, _, hz, _⟩; cases hz)
    · rw [inGap_zero, inGap_zero, h]
  · exact Iff.rfl

theorem or_rotate {a b c d : Prop} : (a ∨ b ∨ c ∨ d) ↔ (b ∨ c ∨ a ∨ d) := by tauto

/-- The points after closing gaps: those of the intervals and those of the closed gaps. -/
theorem closeGaps_covers (hn : n < 2 ^ w) :
    ∀ {closed : ℕ → Bool} {cur : Interval w}, Normal (cur :: rest) →
      (coversPoint (closeGaps closed cur rest) n = true ↔
        coversPoint (cur :: rest) n = true ∨ ∃ k, closed k = true ∧ InGap (cur :: rest) k n) := by
  induction rest with
  | nil =>
    intro closed cur h
    refine ⟨.inl, ?_⟩
    rintro (hcov | ⟨k, -, x, y, -, hy, -⟩)
    · exact hcov
    · simp at hy
  | cons next rest ih =>
    intro closed cur h
    have hgap := h.gap List.mem_cons_self
    have hcur : cur.Proper := h.proper List.mem_cons_self
    have hnext : next.Proper := h.tail.proper List.mem_cons_self
    -- the gaps from the second one on are those of the tail
    have hshift : (∃ k, closed k = true ∧ InGap (cur :: next :: rest) k n) ↔
        (closed 0 = true ∧ cur.upper < n ∧ n < next.lower) ∨
          ∃ k, closed (k + 1) = true ∧ InGap (next :: rest) k n := by
      constructor
      · rintro ⟨_ | k, hk, hin⟩
        · exact .inl ⟨hk, inGap_zero.mp hin⟩
        · exact .inr ⟨k, hk, hin⟩
      · rintro (⟨hk, hin⟩ | ⟨k, hk, hin⟩)
        · exact ⟨0, hk, inGap_zero.mpr hin⟩
        · exact ⟨k + 1, hk, hin⟩
    rw [hshift, closeGaps, coversPoint_cons, coversPoint_cons, Bool.or_eq_true, Bool.or_eq_true,
      Interval.covers_iff_of_proper hcur hn, Interval.covers_iff_of_proper hnext hn]
    unfold Interval.Proper at hcur hnext
    split
    · rename_i hclosed
      obtain ⟨hlower, hupper⟩ := h.hull_bounds
      have hhull : (cur.convexHull next).Proper :=
        h.merge_head.proper List.mem_cons_self
      have hcongr : (∃ k, closed (k + 1) = true ∧ InGap (cur.convexHull next :: rest) k n) ↔
          ∃ k, closed (k + 1) = true ∧ InGap (next :: rest) k n :=
        exists_congr fun k => and_congr_right fun _ => inGap_congr hupper
      rw [ih h.merge_head, hcongr, coversPoint_cons, Bool.or_eq_true,
        Interval.covers_iff_of_proper hhull hn, hlower, hupper]
      have hsplit : (cur.lower ≤ n ∧ n ≤ next.upper) ↔ (cur.lower ≤ n ∧ n ≤ cur.upper) ∨
          (cur.upper < n ∧ n < next.lower) ∨ (next.lower ≤ n ∧ n ≤ next.upper) := by omega
      rw [hsplit, hclosed]
      simp only [true_and, or_assoc]
      exact or_congr_right or_rotate
    · rename_i hopen
      have hopen' : closed 0 = false := by simpa using hopen
      rw [coversPoint_cons, Bool.or_eq_true, Interval.covers_iff_of_proper hcur hn,
        ih h.tail, coversPoint_cons, Bool.or_eq_true, Interval.covers_iff_of_proper hnext hn,
        hopen']
      simp only [Bool.false_eq_true, false_and, false_or, or_assoc]

/-! ## Counting -/

theorem gapVector_cons (h : x.upper ≤ y.lower) :
    gapVector (x :: y :: l) = (y.lower - x.upper) :: gapVector (y :: l) := by
  rw [gapVector, BitsOps.sub_toNat_of_le h]
  rfl

/-- Of the first interval, the gap vector knows only the end. -/
theorem gapVector_congr (h : x.upper = y.upper) : gapVector (x :: l) = gapVector (y :: l) := by
  rcases l with _ | ⟨z, l⟩
  · rfl
  · have hbound : x.upperBound = y.upperBound := Bits.ext rfl h
    rw [gapVector, gapVector, hbound]

theorem length_gapVector (x : Interval w) (l : List (Interval w)) :
    (gapVector (x :: l)).length = l.length := by
  induction l generalizing x with
  | nil => rfl
  | cons y l ih => rw [gapVector, List.length_cons, ih, List.length_cons]

theorem chosenGaps_cons (closed : ℕ → Bool) (g : ℕ) (gaps : List ℕ) :
    chosenGaps closed (g :: gaps) = (if closed 0 then [(g, 0)] else []) ++
      (chosenGaps (fun k => closed (k + 1)) gaps).map fun gap => (gap.1, gap.2 + 1) := by
  unfold chosenGaps
  rw [List.zipIdx_cons, List.zipIdx_succ, List.filter_cons, List.filter_map]
  split <;> rfl

/-- Every closed gap saves an interval. -/
theorem length_closeGaps : ∀ {closed : ℕ → Bool} {cur : Interval w}, Normal (cur :: rest) →
      (closeGaps closed cur rest).length +
        (chosenGaps closed (gapVector (cur :: rest))).length = rest.length + 1 := by
  induction rest with
  | nil => intro closed cur _; rfl
  | cons next rest ih =>
    intro closed cur h
    have hgap := h.gap List.mem_cons_self
    rw [gapVector_cons (by omega), chosenGaps_cons, closeGaps, List.length_append,
      List.length_map, List.length_cons]
    split
    · have := @ih (fun k => closed (k + 1)) _ h.merge_head
      rw [gapVector_congr h.hull_bounds.2] at this
      rw [List.length_singleton]
      omega
    · have := @ih (fun k => closed (k + 1)) _ h.tail
      rw [List.length_nil, List.length_cons]
      omega

/-- The points added by closing gaps. -/
def addedPoints (gaps : List (ℕ × ℕ)) : ℕ := (gaps.map fun gap => gap.1 - 1).sum

/-- Every closed gap adds its points. -/
theorem pointSum_closeGaps : ∀ {closed : ℕ → Bool} {cur : Interval w}, Normal (cur :: rest) →
      pointSum (closeGaps closed cur rest) =
        pointSum (cur :: rest) + addedPoints (chosenGaps closed (gapVector (cur :: rest))) := by
  unfold addedPoints
  induction rest with
  | nil => intro closed cur _; rfl
  | cons next rest ih =>
    intro closed cur h
    have hgap := h.gap List.mem_cons_self
    have hcur : cur.Proper := h.proper List.mem_cons_self
    have hnext : next.Proper := h.tail.proper List.mem_cons_self
    unfold Interval.Proper at hcur hnext
    rw [gapVector_cons (by omega), chosenGaps_cons, closeGaps, List.map_append, List.sum_append,
      List.map_map, pointSum_cons, pointSum_cons]
    have hmap : ((fun gap : ℕ × ℕ => gap.1 - 1) ∘ fun gap : ℕ × ℕ => (gap.1, gap.2 + 1)) =
        fun gap : ℕ × ℕ => gap.1 - 1 := rfl
    rw [hmap]
    split
    · obtain ⟨hlower, hupper⟩ := h.hull_bounds
      rw [ih h.merge_head, gapVector_congr hupper, pointSum_cons, List.map_singleton,
        List.sum_singleton]
      unfold Interval.pointCount
      omega
    · rw [pointSum_cons, ih h.tail, pointSum_cons, List.map_nil, List.sum_nil]
      omega

end Xls
