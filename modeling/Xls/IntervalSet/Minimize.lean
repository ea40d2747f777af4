/-
# `MinimizeIntervals` closes the smallest gaps

The result of `MinimizeIntervals` (`xls/passes/range_query_engine.cc`) is its normalized
argument with the smallest gaps filled, as many of them as the budget asks for.

* `contiguousRuns_spec`, `mergedInterval_spec` : the runs are the chosen gaps, and a run is
  replaced by the hull of the intervals around its gaps;
* `minimizeIntervals_eq_closing` : the result as a closing of gaps;
* `minimizeIntervals_minimal` : the budget is kept, and no other closing adds fewer points.
-/
import Xls.IntervalSet.Complement
import Xls.IntervalSet.GapClosing
import Xls.Lib.SmallestPrefix

namespace Xls

variable {w : ℕ}

/-! ## Runs of indices -/

/-- The runs of a sorted list of indices hold exactly these indices. -/
theorem contiguousRuns_spec {rest : List ℕ} :
    ∀ {start last : ℕ}, start ≤ last → (last :: rest).Pairwise (· < ·) →
      (∀ k, (∃ m ∈ contiguousRuns start last rest, m.1 ≤ k ∧ k ≤ m.2) ↔
        (start ≤ k ∧ k ≤ last) ∨ k ∈ rest) ∧
      ∀ m ∈ contiguousRuns start last rest, m.1 ≤ m.2 := by
  induction rest with
  | nil =>
    intro start last hle _
    simp [contiguousRuns, hle]
  | cons i rest ih =>
    intro start last hle hsorted
    have htail : (i :: rest).Pairwise (· < ·) := (List.pairwise_cons.mp hsorted).2
    rw [contiguousRuns]
    split
    · -- the index continues the run
      obtain ⟨hmem, hrun⟩ := @ih start i (by omega) htail
      refine ⟨fun k => ?_, hrun⟩
      rw [hmem k, List.mem_cons]
      have hsplit : (start ≤ k ∧ k ≤ i) ↔ (start ≤ k ∧ k ≤ last) ∨ k = i := by omega
      rw [hsplit, or_assoc]
    · obtain ⟨hmem, hrun⟩ := @ih i i le_rfl htail
      constructor
      · intro k
        have hsplit : (i ≤ k ∧ k ≤ i) ↔ k = i := by omega
        rw [List.exists_mem_cons_iff, hmem k, hsplit, List.mem_cons]
      · intro m hm
        rcases List.mem_cons.mp hm with rfl | hm
        · exact hle
        · exact hrun m hm

/-! ## Hulls of neighbours -/

variable {l : List (Interval w)} {y : Interval w}

/-- The hull of a normal form reaches from its first to its last interval. -/
theorem Normal.foldl_convexHull :
    ∀ {cur last : Interval w}, Normal (cur :: l) → (cur :: l).getLast? = some last →
      (l.foldl Interval.convexHull cur).lower = cur.lower ∧
        (l.foldl Interval.convexHull cur).upper = last.upper := by
  induction l with
  | nil =>
    intro cur last _ hlast
    cases hlast
    exact ⟨rfl, rfl⟩
  | cons next l ih =>
    intro cur last h hlast
    obtain ⟨hlower, hupper⟩ := h.hull_bounds
    rcases l with _ | ⟨z, l⟩
    · rw [List.getLast?_cons_cons, List.getLast?_singleton, Option.some.injEq] at hlast
      subst hlast
      exact ⟨hlower, hupper⟩
    · rw [← hlower]
      refine ih h.merge_head ?_
      exact hlast

theorem Normal.take (h : Normal l) (n : ℕ) : Normal (l.take n) :=
  ⟨fun i hi => h.1 i (List.mem_of_mem_take hi), h.2.sublist (List.take_sublist n l)⟩

theorem Normal.drop (h : Normal l) (n : ℕ) : Normal (l.drop n) :=
  ⟨fun i hi => h.1 i (List.mem_of_mem_drop hi), h.2.sublist (List.drop_sublist n l)⟩

theorem convexHull_self (i : Interval w) : i.convexHull i = i :=
  Interval.ext (min_self _) (max_self _)

/-- The hull of the intervals `start .. end + 1`. -/
theorem mergedInterval_spec (h : Normal l) {a b : ℕ} (hab : a ≤ b) {x : Interval w}
    (hx : l[a]? = some x) (hy : l[b + 1]? = some y) :
    ∃ i, mergedInterval l (a, b) = some i ∧ i.lower = x.lower ∧ i.upper = y.upper := by
  have hdrop : l.drop a = x :: l.drop (a + 1) := by
    obtain ⟨hlt, rfl⟩ := List.getElem?_eq_some_iff.mp hx
    exact List.drop_eq_getElem_cons hlt
  have hnormal : Normal (x :: (l.drop (a + 1)).take (b + 1 - a)) := by
    rw [← List.take_succ_cons, ← hdrop]
    exact (h.drop a).take _
  have hlast : (x :: (l.drop (a + 1)).take (b + 1 - a)).getLast? = some y := by
    obtain ⟨hlt, -⟩ := List.getElem?_eq_some_iff.mp hy
    rw [← List.take_succ_cons, ← hdrop, List.getLast?_eq_getElem?, List.length_take,
      List.length_drop, List.getElem?_take_of_lt (by omega), List.getElem?_drop, ← hy]
    congr 1
    omega
  refine ⟨_, ?_, hnormal.foldl_convexHull hlast⟩
  unfold mergedInterval
  rw [hdrop]
  simp only
  rw [show b + 2 - a = b + 1 - a + 1 by omega, List.take_succ_cons, List.foldl_cons,
    convexHull_self]

/-! ## Points of a hull -/

/-- Intervals of a normal form are ordered as their indices. -/
theorem Normal.lt_of_getElem? (h : Normal l) {i j : ℕ} (hij : i < j) {x : Interval w}
    (hx : l[i]? = some x) (hy : l[j]? = some y) : x.upper + 1 < y.lower := by
  obtain ⟨hi, rfl⟩ := List.getElem?_eq_some_iff.mp hx
  obtain ⟨hj, rfl⟩ := List.getElem?_eq_some_iff.mp hy
  exact List.pairwise_iff_getElem.mp h.2 i j hi hj hij

/-- A point between the bounds of two intervals lies in an interval or in a gap between
them. -/
theorem covers_or_inGap {n : ℕ} (d : ℕ) :
    ∀ {a : ℕ} {x : Interval w}, l[a]? = some x → l[a + d]? = some y → x.lower ≤ n →
      n ≤ y.upper → coversPoint l n = true ∨ ∃ k, a ≤ k ∧ k + 1 ≤ a + d ∧ InGap l k n := by
  induction d with
  | zero =>
    intro a x hx hy hl hu
    rw [Nat.add_zero, hx] at hy
    cases hy
    exact .inl (coversPoint_of_mem (List.mem_of_getElem? hx) (Interval.covers_of_between hl hu))
  | succ d ih =>
    intro a x hx hy hl hu
    by_cases hxn : n ≤ x.upper
    · exact .inl (coversPoint_of_mem (List.mem_of_getElem? hx) (Interval.covers_of_between hl hxn))
    · have hlt : a + 1 < l.length := by
        obtain ⟨hlt, -⟩ := List.getElem?_eq_some_iff.mp hy
        omega
      have hz : l[a + 1]? = some l[a + 1] := List.getElem?_eq_getElem hlt
      by_cases hzn : n < l[a + 1].lower
      · exact .inr ⟨a, le_rfl, by omega, x, _, hx, hz, by omega, hzn⟩
      · rw [show a + (d + 1) = a + 1 + d by omega] at hy
        rcases ih hz hy (by omega) hu with hcov | ⟨k, hk, hkd, hgap⟩
        · exact .inl hcov
        · exact .inr ⟨k, by omega, by omega, hgap⟩

/-- The merged interval of a run adds the points of its gaps. -/
theorem mergedInterval_covers (h : Normal l) {n : ℕ} (hn : n < 2 ^ w) {a b : ℕ} (hab : a ≤ b)
    (hb : b + 1 < l.length) :
    ∃ i, mergedInterval l (a, b) = some i ∧
      (i.covers n = true → coversPoint l n = true ∨ ∃ k, a ≤ k ∧ k ≤ b ∧ InGap l k n) ∧
      ((∃ k, a ≤ k ∧ k ≤ b ∧ InGap l k n) → i.covers n = true) := by
  have hx : l[a]? = some l[a] := List.getElem?_eq_getElem (by omega)
  have hy : l[b + 1]? = some l[b + 1] := List.getElem?_eq_getElem hb
  obtain ⟨i, hi, hlower, hupper⟩ := mergedInterval_spec h hab hx hy
  have hspan := h.lt_of_getElem? (show a < b + 1 by omega) hx hy
  have hxp : l[a].Proper := h.proper (List.getElem_mem _)
  have hyp : l[b + 1].Proper := h.proper (List.getElem_mem _)
  unfold Interval.Proper at hxp hyp
  have hproper : i.Proper := by
    unfold Interval.Proper
    omega
  refine ⟨i, hi, ?_, ?_⟩
  · intro hcov
    rw [Interval.covers_iff_of_proper hproper hn, hlower, hupper] at hcov
    have hy' : l[a + (b + 1 - a)]? = some l[b + 1] := by
      rw [show a + (b + 1 - a) = b + 1 by omega]
      exact hy
    rcases covers_or_inGap _ hx hy' hcov.1 hcov.2 with hl | ⟨k, hk, hkb, hgap⟩
    · exact .inl hl
    · exact .inr ⟨k, hk, by omega, hgap⟩
  · rintro ⟨k, hk, hkb, x, y, hkx, hky, hxn, hny⟩
    rw [Interval.covers_iff_of_proper hproper hn]
    have hxp' : x.Proper := h.proper (List.mem_of_getElem? hkx)
    have hyp' : y.Proper := h.proper (List.mem_of_getElem? hky)
    unfold Interval.Proper at hxp' hyp'
    constructor
    · rcases Nat.eq_or_lt_of_le hk with rfl | hlt
      · rw [hx] at hkx
        cases hkx
        omega
      · have := h.lt_of_getElem? hlt hx hkx
        omega
    · rcases Nat.eq_or_lt_of_le hkb with rfl | hlt
      · rw [hy] at hky
        cases hky
        omega
      · have := h.lt_of_getElem? (show k + 1 < b + 1 by omega) hky hy
        omega

/-! ## The chosen gaps -/

/-- The gaps in the order in which they are closed. -/
def gapOrder (elements : List ℕ) : List (ℕ × ℕ) :=
  elements.zipIdx.insertionSort fun a b => bitsWithIndexLt b a = false

/-- The gaps to close so that `desiredSize` remain. -/
def gapsToMerge (elements : List ℕ) (desiredSize : ℕ) : List (ℕ × ℕ) :=
  (gapOrder elements).take (elements.length - desiredSize)

/-- Whether a gap is closed. -/
def isMerged (elements : List ℕ) (desiredSize : ℕ) (k : ℕ) : Bool :=
  decide (k ∈ (gapsToMerge elements desiredSize).map Prod.snd)

theorem bitsWithIndexLt_eq_false {a b : ℕ × ℕ} :
    bitsWithIndexLt b a = false ↔ a.1 < b.1 ∨ (a.1 = b.1 ∧ a.2 ≤ b.2) := by
  unfold bitsWithIndexLt
  split_ifs with h1 h2
  · simp only [false_iff]
    omega
  · rw [decide_eq_false_iff_not]
    omega
  · simp only [true_iff]
    omega

instance : Std.Total fun a b : ℕ × ℕ => bitsWithIndexLt b a = false where
  total a b := by
    rw [bitsWithIndexLt_eq_false, bitsWithIndexLt_eq_false]
    omega

instance : IsTrans (ℕ × ℕ) fun a b => bitsWithIndexLt b a = false where
  trans a b c := by
    rw [bitsWithIndexLt_eq_false, bitsWithIndexLt_eq_false, bitsWithIndexLt_eq_false]
    omega

theorem gapOrder_perm (elements : List ℕ) : (gapOrder elements).Perm elements.zipIdx :=
  List.perm_insertionSort _ _

/-- The gaps are sorted by the points they would add. -/
theorem gapOrder_sorted (elements : List ℕ) :
    (gapOrder elements).Pairwise fun a b => a.1 - 1 ≤ b.1 - 1 := by
  have hsorted := List.pairwise_insertionSort (fun a b : ℕ × ℕ => bitsWithIndexLt b a = false)
    elements.zipIdx
  refine List.Pairwise.imp ?_ hsorted
  intro a b hab
  rw [bitsWithIndexLt_eq_false] at hab
  omega

theorem gapOrder_keys (elements : List ℕ) :
    ((gapOrder elements).map Prod.snd).Perm (List.range elements.length) := by
  have h := (gapOrder_perm elements).map Prod.snd
  rwa [List.zipIdx_map_snd, ← List.range_eq_range'] at h

/-- The chosen gaps are those which are closed. -/
theorem chosenGaps_isMerged (elements : List ℕ) (desiredSize : ℕ) :
    (chosenGaps (isMerged elements desiredSize) elements).Perm
      (gapsToMerge elements desiredSize) := by
  have hnodup : ((gapOrder elements).map Prod.snd).Nodup :=
    (gapOrder_keys elements).nodup_iff.mpr List.nodup_range
  have hfilter : (gapOrder elements).filter (fun gap => isMerged elements desiredSize gap.2) =
      gapsToMerge elements desiredSize :=
    SmallestPrefix.filter_key_mem_take hnodup fun gap => decide_eq_true_iff
  rw [← hfilter]
  exact ((gapOrder_perm elements).filter _).symm

theorem length_gapsToMerge (elements : List ℕ) (desiredSize : ℕ) :
    (gapsToMerge elements desiredSize).length = elements.length - desiredSize := by
  unfold gapsToMerge
  rw [List.length_take, (gapOrder_perm elements).length_eq, List.length_zipIdx]
  exact Nat.min_eq_left (Nat.sub_le _ _)

/-- No choice of at least as many gaps adds fewer points. -/
theorem addedPoints_isMerged_le (elements : List ℕ) {desiredSize : ℕ} {closed : ℕ → Bool}
    (h : elements.length - desiredSize ≤ (chosenGaps closed elements).length) :
    addedPoints (chosenGaps (isMerged elements desiredSize) elements) ≤
      addedPoints (chosenGaps closed elements) := by
  have hperm : ((gapOrder elements).filter fun gap => closed gap.2).Perm
      (chosenGaps closed elements) := (gapOrder_perm elements).filter _
  unfold addedPoints
  rw [((chosenGaps_isMerged elements desiredSize).map _).sum_eq, ← (hperm.map _).sum_eq]
  apply SmallestPrefix.sum_take_le_sum_filter (gapOrder_sorted elements)
  rw [hperm.length_eq]
  exact h

/-- The runs of `ReduceByMerging` hold exactly the closed gaps. -/
theorem reduceByMerging_spec {elements : List ℕ} {desiredSize : ℕ}
    (h : desiredSize < elements.length) :
    (∀ k, (∃ m ∈ reduceByMerging elements desiredSize, m.1 ≤ k ∧ k ≤ m.2) ↔
      isMerged elements desiredSize k = true) ∧
    ∀ m ∈ reduceByMerging elements desiredSize, m.1 ≤ m.2 := by
  have hperm : (((gapsToMerge elements desiredSize).map Prod.snd).insertionSort (· ≤ ·)).Perm
      ((gapsToMerge elements desiredSize).map Prod.snd) := List.perm_insertionSort _ _
  have hnodup : ((gapsToMerge elements desiredSize).map Prod.snd).Nodup := by
    unfold gapsToMerge
    rw [List.map_take]
    exact ((gapOrder_keys elements).nodup_iff.mpr List.nodup_range).sublist (List.take_sublist _ _)
  have hsorted := List.pairwise_insertionSort (· ≤ ·)
    ((gapsToMerge elements desiredSize).map Prod.snd)
  have hlength := hperm.length_eq
  rw [List.length_map, length_gapsToMerge] at hlength
  have hmem : ∀ k, isMerged elements desiredSize k = true ↔
      k ∈ ((gapsToMerge elements desiredSize).map Prod.snd).insertionSort (· ≤ ·) := by
    intro k
    rw [hperm.mem_iff]
    exact decide_eq_true_iff
  have hstrict : (((gapsToMerge elements desiredSize).map Prod.snd).insertionSort
      (· ≤ ·)).Pairwise (· < ·) := by
    refine (hsorted.and (hperm.nodup_iff.mpr hnodup)).imp ?_
    rintro a b ⟨hle, hne⟩
    exact lt_of_le_of_ne hle hne
  rcases hindices : ((gapsToMerge elements desiredSize).map Prod.snd).insertionSort (· ≤ ·) with
    _ | ⟨i, rest⟩
  · rw [hindices, List.length_nil] at hlength
    omega
  · rw [hindices] at hstrict hmem
    have hunfold : reduceByMerging elements desiredSize = contiguousRuns i i rest := by
      rw [reduceByMerging, if_neg (by omega)]
      unfold gapsToMerge gapOrder at hindices
      simp only [hindices]
    rw [hunfold]
    obtain ⟨hruns, hle⟩ := @contiguousRuns_spec rest i i le_rfl hstrict
    refine ⟨fun k => ?_, hle⟩
    have hi : (i ≤ k ∧ k ≤ i) ↔ k = i := by omega
    rw [hruns k, hmem k, hi, List.mem_cons]

/-- The index of a closed gap is that of a gap. -/
theorem lt_of_isMerged {elements : List ℕ} {desiredSize k : ℕ}
    (h : isMerged elements desiredSize k = true) : k < elements.length := by
  have hmem : k ∈ (gapOrder elements).map Prod.snd := by
    have := of_decide_eq_true h
    unfold gapsToMerge at this
    rw [List.map_take] at this
    exact List.mem_of_mem_take this
  rwa [(gapOrder_keys elements).mem_iff, List.mem_range] at hmem

/-! ## The result -/

/-- The bounds of the hull of a normalized set. -/
def IntervalSet.hullBounds (s : IntervalSet) : Option (ℕ × ℕ) :=
  s.convexHull.map fun hull => (hull.lower, hull.upper)

theorem coversPoint_closeGapsOf (h : Normal l) {closed : ℕ → Bool} {n : ℕ} (hn : n < 2 ^ w) :
    coversPoint (closeGapsOf closed l) n = true ↔
      coversPoint l n = true ∨ ∃ k, closed k = true ∧ InGap l k n := by
  cases l with
  | nil =>
    refine ⟨.inl, ?_⟩
    rintro (hcov | ⟨k, -, x, y, hx, -⟩)
    · exact hcov
    · simp at hx
  | cons cur rest => exact closeGaps_covers hn h

theorem closeGaps_false {rest : List (Interval w)} :
    ∀ {cur : Interval w}, closeGaps (fun _ => false) cur rest = cur :: rest := by
  induction rest with
  | nil => intro cur; rfl
  | cons next rest ih =>
    intro cur
    rw [closeGaps, if_neg (by simp), ih]

theorem length_closeGapsOf (h : Normal l) (closed : ℕ → Bool) :
    (closeGapsOf closed l).length + (chosenGaps closed (gapVector l)).length = l.length := by
  cases l with
  | nil => rfl
  | cons cur rest => exact length_closeGaps h

theorem pointSum_closeGapsOf (h : Normal l) (closed : ℕ → Bool) : pointSum (closeGapsOf closed l) =
      pointSum l + addedPoints (chosenGaps closed (gapVector l)) := by
  cases l with
  | nil => rfl
  | cons cur rest => exact pointSum_closeGaps h

/-- Closing gaps keeps the start of the first and the end of the last interval. -/
theorem closeGaps_bounds {rest : List (Interval w)} :
    ∀ {closed : ℕ → Bool} {cur : Interval w}, Normal (cur :: rest) →
      ((closeGaps closed cur rest).head?.map Interval.lower = some cur.lower) ∧
        (closeGaps closed cur rest).getLast?.map Interval.upper =
          (cur :: rest).getLast?.map Interval.upper := by
  induction rest with
  | nil => intro closed cur _; exact ⟨rfl, rfl⟩
  | cons next rest ih =>
    intro closed cur h
    obtain ⟨hlower, hupper⟩ := h.hull_bounds
    rw [closeGaps, List.getLast?_cons_cons]
    split
    · obtain ⟨hhead, hlast⟩ := @ih (fun k => closed (k + 1)) _ h.merge_head
      rw [hhead, hlast, hlower]
      refine ⟨rfl, ?_⟩
      rcases rest with _ | ⟨z, rest⟩
      · exact congrArg some hupper
      · rw [List.getLast?_cons_cons, List.getLast?_cons_cons]
    · obtain ⟨hhead, hlast⟩ := @ih (fun k => closed (k + 1)) _ h.tail
      refine ⟨rfl, ?_⟩
      rw [← hlast]
      rcases hclose : closeGaps (fun k => closed (k + 1)) next rest with _ | ⟨z, tail⟩
      · rw [hclose] at hhead
        cases hhead
      · rw [List.getLast?_cons_cons]

namespace IntervalSet

variable {s : IntervalSet}

variable {s : IntervalSet} (hs : s.isNormalized = true)

section

include hs

theorem hullBounds_eq :
    s.hullBounds = (s.intervals.head?.map Interval.lower).bind fun l =>
      (s.intervals.getLast?.map Interval.upper).map fun u => (l, u) := by
  unfold hullBounds convexHull lowerBound upperBound
  rw [if_pos hs, if_pos hs]
  rcases s.intervals.head? with _ | first
  · rfl
  · rcases s.intervals.getLast? with _ | last
    · rfl
    · rfl

/-- Closing gaps keeps the convex hull. -/
theorem hullBounds_closing (closed : ℕ → Bool) :
    (s.closing closed).hullBounds = s.hullBounds := by
  have hnormal := s.normal hs
  rw [hullBounds_eq hs, hullBounds_eq (s := s.closing closed) hs]
  show ((closeGapsOf closed s.intervals).head?.map Interval.lower).bind _ = _
  have hbounds : ∀ l : List (Interval s.bitCount), Normal l →
      (closeGapsOf closed l).head?.map Interval.lower = l.head?.map Interval.lower ∧
        (closeGapsOf closed l).getLast?.map Interval.upper = l.getLast?.map Interval.upper := by
    intro l hl
    cases l with
    | nil => exact ⟨rfl, rfl⟩
    | cons cur rest => exact closeGaps_bounds hl
  obtain ⟨hhead, hlast⟩ := hbounds s.intervals hnormal
  rw [hhead]
  show (s.intervals.head?.map Interval.lower).bind (fun l =>
    ((closeGapsOf closed s.intervals).getLast?.map Interval.upper).map fun u => (l, u)) = _
  rw [hlast]

end

theorem closing_false (s : IntervalSet) : s.closing (fun _ => false) = s := by
  rcases s with ⟨w, flag, l, hl⟩
  have hlist : closeGapsOf (fun _ => false) l = l := by
    cases l with
    | nil => rfl
    | cons cur rest => exact closeGaps_false
  unfold closing
  simp only [hlist]

section

include hs

theorem closing_covers (closed : ℕ → Bool) (b : Bits) :
    (s.closing closed).Covers b ↔ s.Covers b ∨
      (b.bitCount = s.bitCount ∧ ∃ k, closed k = true ∧ InGap s.intervals k b.toNat) := by
  by_cases hb : b.bitCount = s.bitCount
  · have hn : b.toNat < 2 ^ s.bitCount := lt_of_lt_of_eq b.isLt (congrArg (2 ^ ·) hb)
    have := @coversPoint_closeGapsOf _ _ (s.normal hs) closed _ hn
    unfold Covers
    show b.bitCount = s.bitCount ∧ coversPoint (closeGapsOf closed s.intervals) b.toNat = true ↔ _
    rw [this]
    simp only [hb, true_and]
    rfl
  · refine ⟨fun h => absurd h.1 hb, ?_⟩
    rintro (h | h)
    · exact absurd h.1 hb
    · exact absurd h.1 hb

theorem length_closing (closed : ℕ → Bool) :
    (s.closing closed).intervals.length +
      (chosenGaps closed (gapVector s.intervals)).length = s.intervals.length :=
  length_closeGapsOf (s.normal hs) closed

theorem pointCount_closing (closed : ℕ → Bool) :
    (s.closing closed).pointCount =
      s.pointCount + addedPoints (chosenGaps closed (gapVector s.intervals)) := by
  rw [pointCount_eq_pointSum hs, pointCount_eq_pointSum (s := s.closing closed) hs]
  exact pointSum_closeGapsOf (s.normal hs) closed

end

end IntervalSet

theorem length_gapVector_eq (l : List (Interval w)) : (gapVector l).length = l.length - 1 := by
  cases l with
  | nil => rfl
  | cons x l => exact length_gapVector x l

/-- The intervals which `MinimizeIntervals` adds fill exactly the closed gaps. -/
theorem coversPoint_merged {l : List (Interval w)} (h : Normal l) {desiredSize : ℕ}
    (hsize : desiredSize < (gapVector l).length) {n : ℕ} (hn : n < 2 ^ w) :
    coversPoint (l ++ (reduceByMerging (gapVector l) desiredSize).filterMap (mergedInterval l)) n =
        true ↔
      coversPoint l n = true ∨ ∃ k, isMerged (gapVector l) desiredSize k = true ∧ InGap l k n := by
  obtain ⟨hruns, hle⟩ := reduceByMerging_spec hsize
  have hlength := length_gapVector_eq l
  -- a run ends with a closed gap, so the interval behind it exists
  have hend : ∀ m ∈ reduceByMerging (gapVector l) desiredSize, m.2 + 1 < l.length := by
    intro m hm
    have := lt_of_isMerged ((hruns m.2).mp ⟨m, hm, hle m hm, le_rfl⟩)
    omega
  rw [coversPoint_append, Bool.or_eq_true, coversPoint_eq_true (l := List.filterMap _ _)]
  constructor
  · rintro (hcov | ⟨i, hi, hcov⟩)
    · exact .inl hcov
    · obtain ⟨m, hm, hmi⟩ := List.mem_filterMap.mp hi
      obtain ⟨i', hi', honly, -⟩ := mergedInterval_covers h hn (hle m hm) (hend m hm)
      rw [hmi] at hi'
      cases hi'
      rcases honly hcov with hl | ⟨k, hk, hkb, hgap⟩
      · exact .inl hl
      · exact .inr ⟨k, (hruns k).mp ⟨m, hm, hk, hkb⟩, hgap⟩
  · rintro (hcov | ⟨k, hk, hgap⟩)
    · exact .inl hcov
    · obtain ⟨m, hm, hkm⟩ := (hruns k).mpr hk
      obtain ⟨i, hi, -, hall⟩ := mergedInterval_covers h hn (hle m hm) (hend m hm)
      exact .inr ⟨i, List.mem_filterMap.mpr ⟨m, hm, hi⟩, hall ⟨k, hkm.1, hkm.2, hgap⟩⟩

/-- Within its budget `MinimizeIntervals` only normalizes. -/
theorem minimizeIntervals_eq_normalize {s : IntervalSet} {size : ℕ}
    (h : s.normalize.intervals.length ≤ size) : minimizeIntervals s size = s.normalize := by
  have hreduce : reduceByMerging (gapVector s.normalize.intervals) (size - 1) = [] := by
    apply if_pos
    rw [length_gapVector_eq]
    omega
  unfold minimizeIntervals
  simp only [hreduce]
  split <;> rfl

/-- Beyond its budget `MinimizeIntervals` closes gaps. -/
theorem minimizeIntervals_eq_closing {s : IntervalSet} {size : ℕ} (hsize : 1 ≤ size)
    (h : size < s.normalize.intervals.length) : minimizeIntervals s size =
      s.normalize.closing (isMerged (gapVector s.normalize.intervals) (size - 1)) := by
  have hs := s.normalize_isNormalized
  have hlength := length_gapVector_eq s.normalize.intervals
  have hmerged := fun {n : ℕ} => @coversPoint_merged _ _ (s.normalize.normal hs) (size - 1)
    (by omega) n
  apply IntervalSet.eq_of_covers (minimizeIntervals_isNormalized s size)
  · exact hs
  · rw [minimizeIntervals_bitCount]
    exact s.normalize_bitCount.symm
  · intro b
    rw [IntervalSet.closing_covers hs]
    unfold minimizeIntervals
    simp only
    rw [if_neg (by omega)]
    by_cases hb : b.bitCount = s.normalize.bitCount
    · have hn : b.toNat < 2 ^ s.normalize.bitCount :=
        lt_of_lt_of_eq b.isLt (congrArg (2 ^ ·) hb)
      have hpoints := hmerged hn
      have hcovers : s.normalize.Covers b ↔ coversPoint s.normalize.intervals b.toNat = true :=
        and_iff_right hb
      rw [hcovers, and_iff_right hb, ← hpoints]
      split
      · rename_i hnone
        rw [hnone, List.append_nil]
        exact and_iff_right hb
      · rw [IntervalSet.normalize_Covers]
        exact and_iff_right hb
    · constructor
      · intro hcov
        exfalso
        apply hb
        split at hcov
        · exact hcov.1
        · exact hcov.1
      · rintro (hcov | hcov)
        · exact absurd hcov.1 hb
        · exact absurd hcov.1 hb

/-- `MinimizeIntervals` keeps its budget and, of all ways to close gaps which do, adds the
fewest points. -/
theorem minimizeIntervals_minimal (s : IntervalSet) {size : ℕ} (hsize : 1 ≤ size) :
    (minimizeIntervals s size).isNormalized = true ∧
    (∀ b, s.Covers b → (minimizeIntervals s size).Covers b) ∧
    (minimizeIntervals s size).intervals.length ≤ size ∧
    (s.normalize.intervals.length ≤ size → minimizeIntervals s size = s.normalize) ∧
    (minimizeIntervals s size).hullBounds = s.normalize.hullBounds ∧
    (∃ closed, minimizeIntervals s size = s.normalize.closing closed) ∧
    ∀ closed, (s.normalize.closing closed).intervals.length ≤ size →
      (minimizeIntervals s size).pointCount ≤ (s.normalize.closing closed).pointCount := by
  have hs := s.normalize_isNormalized
  refine ⟨minimizeIntervals_isNormalized s size, fun b hb => minimizeIntervals_Covers hb size, ?_⟩
  rcases Nat.lt_or_ge size s.normalize.intervals.length with hlt | hge
  · -- gaps are closed
    have heq := minimizeIntervals_eq_closing hsize hlt
    have hlength := length_gapVector_eq s.normalize.intervals
    have hmerged : (chosenGaps (isMerged (gapVector s.normalize.intervals) (size - 1))
        (gapVector s.normalize.intervals)).length = s.normalize.intervals.length - size := by
      rw [(chosenGaps_isMerged _ _).length_eq, length_gapsToMerge, hlength]
      omega
    refine ⟨?_, fun h => by omega, ?_, ⟨_, heq⟩, ?_⟩
    · have := IntervalSet.length_closing hs (isMerged (gapVector s.normalize.intervals) (size - 1))
      rw [heq]
      omega
    · rw [heq, IntervalSet.hullBounds_closing hs]
    · intro closed hclosed
      have := IntervalSet.length_closing hs closed
      rw [heq, IntervalSet.pointCount_closing hs, IntervalSet.pointCount_closing hs]
      apply Nat.add_le_add_left
      apply addedPoints_isMerged_le
      omega
  · -- nothing is closed
    have heq := minimizeIntervals_eq_normalize hge
    rw [heq]
    refine ⟨hge, fun _ => rfl, rfl, ⟨fun _ => false, s.normalize.closing_false.symm⟩, ?_⟩
    intro closed _
    rw [IntervalSet.pointCount_closing hs]
    exact Nat.le_add_right _ _

/-- Three intervals of width 4 within a budget of two. -/
theorem minimizeIntervals_minimal_two :
    let s := IntervalSet.ofIntervals [(⟨0, 1, by decide, by decide⟩ : Interval 4),
      ⟨5, 5, by decide, by decide⟩, ⟨8, 9, by decide, by decide⟩]
    (minimizeIntervals s 2).isNormalized = true ∧
    (∀ b, s.Covers b → (minimizeIntervals s 2).Covers b) ∧
    (minimizeIntervals s 2).intervals.length ≤ 2 ∧
    (s.normalize.intervals.length ≤ 2 → minimizeIntervals s 2 = s.normalize) ∧
    (minimizeIntervals s 2).hullBounds = s.normalize.hullBounds ∧
    (∃ closed, minimizeIntervals s 2 = s.normalize.closing closed) ∧
    ∀ closed, (s.normalize.closing closed).intervals.length ≤ 2 →
      (minimizeIntervals s 2).pointCount ≤ (s.normalize.closing closed).pointCount :=
  minimizeIntervals_minimal _ (by decide)

/-- A wrapping interval is one interval, but two after `Normalize`: within a budget of one
`MinimizeIntervals` closes the gap between them. -/
theorem minimizeIntervals_wrapping :
    let s := IntervalSet.ofIntervals [(⟨6, 1, by decide, by decide⟩ : Interval 3)]
    s.intervals.length ≤ 1 ∧ (minimizeIntervals s 1).covers 3 = true ∧ s.covers 3 = false := by
  decide

end Xls
