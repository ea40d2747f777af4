/-
# The canonical form of an interval set

`Normalize` is documented to reach a normal form of smallest size.  This file proves
that the normal form is determined by the points of the set, so that `operator==`,
which compares the intervals after `Normalize`, is equality of the sets of points.
-/
import Xls.IntervalSet

namespace Xls

variable {w : ℕ}

/-! ## Normal forms are determined by their points -/

variable {i : Interval w} {rest l : List (Interval w)} {n : ℕ}

section

variable (h : Normal (i :: rest))

include h

theorem Normal.covers_head_iff (hn : n < 2 ^ w) :
    i.covers n = true ↔ i.lower ≤ n ∧ n ≤ i.upper :=
  Interval.covers_iff_of_proper (h.proper List.mem_cons_self) hn

/-- The points behind the first interval of a normal form lie behind a gap. -/
theorem Normal.lt_of_covers_tail (hn : n < 2 ^ w)
    (hcov : coversPoint rest n = true) : i.upper + 1 < n := by
  obtain ⟨j, hj, hjn⟩ := coversPoint_eq_true.mp hcov
  rw [Interval.covers_iff_of_proper (h.tail.proper hj) hn] at hjn
  have := h.gap hj
  omega

theorem Normal.covers_iff (hn : n < 2 ^ w) :
    coversPoint (i :: rest) n = true ↔ (i.lower ≤ n ∧ n ≤ i.upper) ∨ coversPoint rest n = true := by
  rw [coversPoint_cons, Bool.or_eq_true, h.covers_head_iff hn]

/-- The first interval of a normal form starts at its least point. -/
theorem Normal.lower_le_of_covers (hn : n < 2 ^ w)
    (hcov : coversPoint (i :: rest) n = true) : i.lower ≤ n := by
  have hproper : i.Proper := h.proper List.mem_cons_self
  unfold Interval.Proper at hproper
  rcases (h.covers_iff hn).mp hcov with hhead | htail
  · exact hhead.1
  · have := h.lt_of_covers_tail hn htail
    omega

/-- The first interval of a normal form reaches at least as far as that of another with
the same points and the same start. -/
theorem Normal.upper_le_of_covers {j : Interval w} {rest' : List (Interval w)}
    (h' : Normal (j :: rest')) (hlower : i.lower = j.lower)
    (hpoints : ∀ n < 2 ^ w, coversPoint (i :: rest) n = coversPoint (j :: rest') n) :
    j.upper ≤ i.upper := by
  by_contra hlt
  -- the point behind `i` would be covered by `j`
  have hproper : i.Proper := h.proper List.mem_cons_self
  unfold Interval.Proper at hproper
  have hn : i.upper + 1 < 2 ^ w := lt_of_le_of_lt (by omega) j.upper_lt
  have hcov : coversPoint (j :: rest') (i.upper + 1) = true :=
    (h'.covers_iff hn).mpr (.inl (by omega))
  rw [← hpoints _ hn] at hcov
  rcases (h.covers_iff hn).mp hcov with hhead | htail
  · omega
  · have := h.lt_of_covers_tail hn htail
    omega

theorem coversPoint_lower : coversPoint (i :: rest) i.lower = true := by
  have hproper : i.Proper := h.proper List.mem_cons_self
  exact (h.covers_iff i.lower_lt).mpr (.inl ⟨le_rfl, hproper⟩)

end

/-- Two normal forms with the same points are equal. -/
theorem Normal.eq_of_covers {l' : List (Interval w)} (h : Normal l) (h' : Normal l')
    (hpoints : ∀ n < 2 ^ w, coversPoint l n = coversPoint l' n) : l = l' := by
  induction l generalizing l' with
  | nil =>
    rcases l' with _ | ⟨j, rest'⟩
    · rfl
    · have hcov := coversPoint_lower h'
      rw [← hpoints _ j.lower_lt] at hcov
      simp at hcov
  | cons i rest ih =>
    rcases l' with _ | ⟨j, rest'⟩
    · have hcov := coversPoint_lower h
      rw [hpoints _ i.lower_lt] at hcov
      simp at hcov
    · have hle : i.lower ≤ j.lower := by
        apply h.lower_le_of_covers j.lower_lt
        rw [hpoints _ j.lower_lt]
        exact coversPoint_lower h'
      have hge : j.lower ≤ i.lower := by
        apply h'.lower_le_of_covers i.lower_lt
        rw [← hpoints _ i.lower_lt]
        exact coversPoint_lower h
      have hlower : i.lower = j.lower := le_antisymm hle hge
      have hupper : i.upper = j.upper :=
        le_antisymm (h'.upper_le_of_covers h hlower.symm fun n hn => (hpoints n hn).symm)
          (h.upper_le_of_covers h' hlower hpoints)
      obtain rfl : i = j := Interval.ext hlower hupper
      congr 1
      apply ih h.tail h'.tail
      intro n hn
      have hn' := hpoints n hn
      rw [Bool.eq_iff_iff, h.covers_iff hn, h'.covers_iff hn] at hn'
      rw [Bool.eq_iff_iff]
      constructor
      · intro hcov
        have := h.lt_of_covers_tail hn hcov
        rcases hn'.mp (.inr hcov) with hhead | htail
        · omega
        · exact htail
      · intro hcov
        have := h'.lt_of_covers_tail hn hcov
        rcases hn'.mpr (.inr hcov) with hhead | htail
        · omega
        · exact htail

/-! ## Size -/

theorem length_normalizeIntervals_le (h : ∀ i ∈ l, i.Proper) :
    (normalizeIntervals l).length ≤ l.length := by
  have hmerge : (mergeSorted (sortIntervals (expandImproper l))).length ≤ l.length := by
    rw [expandImproper_eq_self h]
    have hlength : (sortIntervals l).length = l.length := List.length_insertionSort _ l
    rcases hsorted : sortIntervals l with _ | ⟨i, rest⟩
    · simp [mergeSorted]
    · rw [← hlength, hsorted]
      exact (mergeInto_length rest i).1
  unfold normalizeIntervals
  split
  · split
    · exact hmerge
    · exact le_rfl
  · exact hmerge

/-- The intervals of a normal form are strictly increasing, and no two of them overlap or
abut. -/
theorem Normal.pairwise (h : Normal l) : l.Pairwise fun a b => a.lt b = true ∧
      a.overlaps b = false ∧ b.overlaps a = false ∧ a.abuts b = false ∧ b.abuts a = false := by
  refine List.Pairwise.imp_of_mem ?_ h.2
  intro a b ha hb hgap
  have hpa : a.Proper := h.proper ha
  have hpb : b.Proper := h.proper hb
  have hab : ¬ (a.overlaps b || a.abuts b) = true := by
    rw [Interval.touches_iff hpa hpb]
    omega
  have hba : ¬ (b.overlaps a || b.abuts a) = true := by
    rw [Interval.touches_iff hpb hpa]
    omega
  rw [Bool.or_eq_true, not_or, Bool.not_eq_true, Bool.not_eq_true] at hab hba
  refine ⟨?_, hab.1, hba.1, hab.2, hba.2⟩
  rw [lt_eq_true_iff]
  unfold Interval.Proper at hpa
  omega

namespace IntervalSet

/-! ## Interval sets -/

/-- The comparison of the bit counts and the intervals in `operator==`. -/
def sameIntervals (lhs rhs : IntervalSet) : Bool :=
  if h : rhs.bitCount = lhs.bitCount then
    decide (lhs.intervals = rhs.intervals.map (Interval.cast h))
  else false

/-- `operator==`, which normalizes its copies of the two sets. -/
def equal (lhs rhs : IntervalSet) : Bool := sameIntervals lhs.normalize rhs.normalize

theorem sameIntervals_self (s : IntervalSet) : s.sameIntervals s = true := by
  have hcast : Interval.cast (rfl : s.bitCount = s.bitCount) = id := rfl
  simp [sameIntervals, hcast]

variable {s t : IntervalSet}

theorem covers_of_sameIntervals (h : s.sameIntervals t = true) :
    s.bitCount = t.bitCount ∧ ∀ b, s.Covers b ↔ t.Covers b := by
  unfold sameIntervals at h
  split at h
  · rename_i hwidth
    refine ⟨hwidth.symm, fun b => ?_⟩
    rw [Covers, Covers, covers, of_decide_eq_true h, coversPoint_map_cast]
    exact and_congr_left' (by rw [hwidth])
  · cases h

/-- Sets of one width with the same points are the same set after `Normalize`. -/
theorem normalize_eq_of_covers (hw : s.bitCount = t.bitCount) (h : ∀ b, s.Covers b ↔ t.Covers b) :
    s.normalize = t.normalize := by
  have hwidth : s.normalize.bitCount = t.normalize.bitCount := by simpa using hw
  have hcovers : ∀ b, s.normalize.Covers b ↔ t.normalize.Covers b := by simpa using h
  have hs := s.normalize_isNormalized
  have ht := t.normalize_isNormalized
  generalize s.normalize = s' at *
  generalize t.normalize = t' at *
  obtain ⟨w, sFlag, sList, hsNormal⟩ := s'
  obtain ⟨w', tFlag, tList, htNormal⟩ := t'
  obtain rfl : w = w' := hwidth
  obtain rfl : sFlag = true := hs
  obtain rfl : tFlag = true := ht
  have hlists : sList = tList := by
    apply (hsNormal rfl).eq_of_covers (htNormal rfl)
    intro n hn
    have := hcovers ⟨w, n, hn⟩
    simpa [Covers, covers] using this
  subst hlists
  rfl

theorem equal_iff : s.equal t = true ↔ s.bitCount = t.bitCount ∧ ∀ b, s.Covers b ↔ t.Covers b := by
  constructor
  · intro h
    simpa using covers_of_sameIntervals h
  · rintro ⟨hw, hpoints⟩
    rw [equal, normalize_eq_of_covers hw hpoints]
    exact sameIntervals_self _

/-- `Normalize` reaches the canonical form of a set. -/
theorem normalize_canonical (s : IntervalSet) : (∀ b, s.normalize.Covers b ↔ s.Covers b) ∧
    (∀ i ∈ s.normalize.intervals, i.isImproper = false) ∧
    (s.normalize.intervals.Pairwise fun a b => a.lt b = true ∧
      a.overlaps b = false ∧ b.overlaps a = false ∧ a.abuts b = false ∧ b.abuts a = false) ∧
    (∀ t : IntervalSet, s.bitCount = t.bitCount → (∀ b, s.Covers b ↔ t.Covers b) →
      s.normalize = t.normalize) ∧
    (∀ t : IntervalSet, s.equal t = true ↔ s.bitCount = t.bitCount ∧ ∀ b, s.Covers b ↔ t.Covers b) ∧
    ∀ l : List (Interval s.bitCount), (∀ i ∈ l, i.isImproper = false) →
      (∀ b, (ofIntervals l).Covers b ↔ s.Covers b) →
      s.normalize.intervals.length ≤ l.length := by
  have hnormal := s.normalize.normal s.normalize_isNormalized
  refine ⟨s.normalize_Covers, ?_, hnormal.pairwise, fun t => normalize_eq_of_covers,
    fun t => equal_iff, ?_⟩
  · intro i hi
    exact (Interval.isImproper_eq_false_iff i).mpr (hnormal.proper hi)
  · intro l hl hpoints
    have hproper : ∀ i ∈ l, i.Proper := fun i hi => (Interval.isImproper_eq_false_iff i).mp (hl i hi)
    have heq : (ofIntervals l).normalize = s.normalize := normalize_eq_of_covers rfl hpoints
    rw [← heq]
    exact length_normalizeIntervals_le hproper

/-- The wrapping interval `[6, 1]` of width 3 and its two halves. -/
theorem normalize_canonical_wrapping :
    (ofIntervals [(⟨6, 1, by decide, by decide⟩ : Interval 3)]).normalize =
      (ofIntervals [(⟨7, 7, by decide, by decide⟩ : Interval 3),
        ⟨0, 1, by decide, by decide⟩, ⟨6, 6, by decide, by decide⟩]).normalize := by
  refine (normalize_canonical _).2.2.2.1 _ rfl ?_
  intro b
  refine and_congr_right fun hb => ?_
  have hpoints : ∀ n : Fin (2 ^ 3),
      coversPoint [(⟨6, 1, by decide, by decide⟩ : Interval 3)] n = true ↔
        coversPoint [(⟨7, 7, by decide, by decide⟩ : Interval 3),
          ⟨0, 1, by decide, by decide⟩, ⟨6, 6, by decide, by decide⟩] n = true := by
    decide
  have hlt : b.toNat < 2 ^ 3 := lt_of_lt_of_eq b.isLt (congrArg (2 ^ ·) hb)
  exact hpoints ⟨b.toNat, hlt⟩

end IntervalSet

end Xls
