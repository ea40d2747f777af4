/-
# Expressions over interval sets

`Combine`, `Intersect`, `Complement` and `ZeroExtend` (`xls/ir/interval_set.cc`) in any
composition.  The set which comes out has exactly the points which the expression denotes, and
only depends on them, so that equality, `IsMaximal` and `IsEmpty` decide facts about points.
-/
import Xls.IntervalSet.Complement

namespace Xls

namespace Interval

/-- `Interval::ZeroExtend`. -/
def zeroExtend {w w' : ℕ} (h : w ≤ w') (i : Interval w) : Interval w' :=
  ⟨i.lower, i.upper, lt_of_lt_of_le i.lower_lt (Nat.pow_le_pow_right Nat.two_pos h),
    lt_of_lt_of_le i.upper_lt (Nat.pow_le_pow_right Nat.two_pos h)⟩

/-- A proper interval keeps its points. -/
theorem covers_zeroExtend {w w' n : ℕ} (h : w ≤ w') {i : Interval w} (hi : i.Proper)
    (hn : n < 2 ^ w') : (i.zeroExtend h).covers n = true ↔ n < 2 ^ w ∧ i.covers n = true := by
  have hproper : (i.zeroExtend h).Proper := hi
  rw [covers_iff_of_proper hproper hn]
  constructor
  · rintro ⟨hl, hu⟩
    have hlt : n < 2 ^ w := lt_of_le_of_lt hu i.upper_lt
    exact ⟨hlt, (covers_iff_of_proper hi hlt).mpr ⟨hl, hu⟩⟩
  · rintro ⟨hlt, hcovers⟩
    exact (covers_iff_of_proper hi hlt).mp hcovers

end Interval

namespace IntervalSet

/-- `IntervalSet::ZeroExtend`. -/
def zeroExtend (s : IntervalSet) (w : ℕ) : Option IntervalSet :=
  if h : s.bitCount ≤ w then some (ofIntervals (s.intervals.map (Interval.zeroExtend h))).normalize
  else none

variable {s t : IntervalSet} {w : ℕ} {P Q : Bits → Prop}

theorem Exactly.combine (hs : s.Exactly w P) (ht : t.Exactly w Q) :
    ∃ res, s.combine t = some res ∧ res.Exactly w fun b => P b ∨ Q b := by
  obtain ⟨res, hres⟩ := combine_isSome (ht.bitCount.trans hs.bitCount.symm)
  obtain ⟨-, hwidth, hnormal, hcovers⟩ := combine_eq_some hres
  refine ⟨res, hres, hwidth.trans hs.bitCount, hnormal, fun b hb => ?_⟩
  rw [hcovers b, hs.covers b hb, ht.covers b hb]

theorem Exactly.complement (hs : s.Exactly w P) :
    ∃ res, s.complement = some res ∧ res.Exactly w fun b => ¬ P b := by
  obtain ⟨res, hres, hexact⟩ := complement_spec hs.isNormalized
  rw [hs.bitCount] at hexact
  refine ⟨res, hres, hexact.bitCount, hexact.isNormalized, fun b hb => ?_⟩
  rw [hexact.covers b hb, hs.covers b hb]

/-- The points of a wider set are the old ones, written with more bits. -/
theorem Exactly.zeroExtend (hs : s.Exactly w P) {w' : ℕ} (h : w ≤ w') :
    ∃ res, s.zeroExtend w' = some res ∧
      res.Exactly w' fun b => ∃ hb : b.toNat < 2 ^ w, P ⟨w, b.toNat, hb⟩ := by
  obtain rfl := hs.bitCount
  refine ⟨_, dif_pos h, by simp, normalize_isNormalized _, fun b hb => ?_⟩
  rw [normalize_Covers, ofIntervals_Covers, and_iff_right hb]
  have hn : b.toNat < 2 ^ w' := hb ▸ b.isLt
  have hproper : ∀ i ∈ s.intervals, i.Proper := fun i hi => (s.normal hs.isNormalized).proper hi
  constructor
  · rintro ⟨i', hi', hcovers⟩
    obtain ⟨i, hi, rfl⟩ := List.mem_map.mp hi'
    obtain ⟨hlt, hcovers⟩ := (Interval.covers_zeroExtend h (hproper i hi) hn).mp hcovers
    refine ⟨hlt, (hs.covers ⟨s.bitCount, b.toNat, hlt⟩ rfl).mp ⟨rfl, ?_⟩⟩
    exact coversPoint_eq_true.mpr ⟨i, hi, hcovers⟩
  · rintro ⟨hlt, hP⟩
    obtain ⟨-, hcovers⟩ := (hs.covers ⟨s.bitCount, b.toNat, hlt⟩ rfl).mpr hP
    obtain ⟨i, hi, hcovers⟩ := coversPoint_eq_true.mp hcovers
    exact ⟨_, List.mem_map_of_mem hi,
      (Interval.covers_zeroExtend h (hproper i hi) hn).mpr ⟨hlt, hcovers⟩⟩

/-- Sets of one width are equal when they have the same points. -/
theorem Exactly.eq_iff (hs : s.Exactly w P) (ht : t.Exactly w Q) :
    s = t ↔ ∀ b : Bits, b.bitCount = w → (P b ↔ Q b) := by
  constructor
  · rintro rfl b hb
    rw [← hs.covers b hb, ht.covers b hb]
  · intro h
    apply eq_of_covers hs.isNormalized ht.isNormalized (hs.bitCount.trans ht.bitCount.symm)
    intro b
    by_cases hb : b.bitCount = w
    · rw [hs.covers b hb, ht.covers b hb, h b hb]
    · exact ⟨fun hc => absurd (hc.1.trans hs.bitCount) hb,
        fun hc => absurd (hc.1.trans ht.bitCount) hb⟩

/-- The set of one maximal interval. -/
theorem exactly_whole (w : ℕ) :
    (⟨w, true, [Interval.maximal w], fun _ => .singleton (Interval.maximal_proper w)⟩ :
      IntervalSet).Exactly w fun _ => True := by
  refine ⟨rfl, rfl, fun b hb => iff_true_intro ⟨hb, coversPoint_eq_true.mpr ?_⟩⟩
  exact ⟨_, List.mem_singleton_self _, Interval.maximal_covers (hb ▸ b.isLt)⟩

theorem Exactly.isMaximal_iff (hs : s.Exactly w P) :
    s.isMaximal = true ↔ ∀ b : Bits, b.bitCount = w → P b := by
  constructor
  · intro h b hb
    obtain ⟨i, hi, hmaximal⟩ := List.any_eq_true.mp h
    refine (hs.covers b hb).mp ⟨hb.trans hs.bitCount.symm, coversPoint_eq_true.mpr ⟨i, hi, ?_⟩⟩
    have hlt : b.toNat < 2 ^ s.bitCount := (hb.trans hs.bitCount.symm) ▸ b.isLt
    rw [Interval.isMaximal] at hmaximal
    split at hmaximal
    · rename_i hw
      obtain ⟨hl, hu⟩ := Interval.bounds_eq_zero hw i
      rw [hw, pow_zero] at hlt
      exact Interval.covers_of_between (by omega) (by omega)
    · rw [Bool.and_eq_true, decide_eq_true_eq, decide_eq_true_eq] at hmaximal
      exact Interval.covers_of_between (by omega) (by omega)
  · intro h
    have heq := (hs.eq_iff (exactly_whole w)).mpr fun b hb => iff_true_intro (h b hb)
    rw [heq]
    simp [isMaximal, Interval.isMaximal, Interval.maximal]

theorem Exactly.isEmpty_iff (hs : s.Exactly w P) :
    s.isEmpty = true ↔ ∀ b : Bits, b.bitCount = w → ¬ P b := by
  have hempty : (empty w).Exactly w fun _ => False :=
    ⟨rfl, rfl, fun b _ => iff_false_intro fun h => Bool.false_ne_true h.2⟩
  constructor
  · intro h b hb hP
    obtain ⟨-, hcovers⟩ := (hs.covers b hb).mpr hP
    obtain ⟨i, hi, -⟩ := coversPoint_eq_true.mp hcovers
    rw [List.isEmpty_iff.mp h] at hi
    cases hi
  · intro h
    rw [(hs.eq_iff hempty).mpr fun b hb => iff_false_intro (h b hb)]
    rfl

end IntervalSet

/-- A composition of operations on interval sets. -/
inductive SetExpr where
  | intervals (w : ℕ) (l : List (Interval w))
  | combine (a b : SetExpr)
  | intersect (a b : SetExpr)
  | complement (a : SetExpr)
  | zeroExtend (a : SetExpr) (w : ℕ)

namespace SetExpr

/-- The operations, one after another; a failed check gives no set. -/
def run : SetExpr → Option IntervalSet
  | intervals _ l => some (IntervalSet.ofIntervals l).normalize
  | combine a b => do (← a.run).combine (← b.run)
  | intersect a b => do (← a.run).intersect (← b.run)
  | complement a => do (← a.run).complement
  | zeroExtend a w => do (← a.run).zeroExtend w

/-- The width of the points. -/
def width : SetExpr → ℕ
  | intervals w _ => w
  | combine a _ => a.width
  | intersect a _ => a.width
  | complement a => a.width
  | zeroExtend _ w => w

/-- The widths fit together. -/
def WellSized : SetExpr → Prop
  | intervals _ _ => True
  | combine a b => a.WellSized ∧ b.WellSized ∧ b.width = a.width
  | intersect a b => a.WellSized ∧ b.WellSized ∧ b.width = a.width
  | complement a => a.WellSized
  | zeroExtend a w => a.WellSized ∧ a.width ≤ w

/-- The points of an expression; intervals may wrap around. -/
def Denotes : SetExpr → Bits → Prop
  | intervals _ l, b => ∃ i ∈ l, i.covers b.toNat = true
  | combine a b, x => a.Denotes x ∨ b.Denotes x
  | intersect a b, x => a.Denotes x ∧ b.Denotes x
  | complement a, x => ¬ a.Denotes x
  | zeroExtend a _, x => ∃ h : x.toNat < 2 ^ a.width, a.Denotes ⟨a.width, x.toNat, h⟩

theorem run_spec (e : SetExpr) (h : e.WellSized) :
    ∃ s, e.run = some s ∧ s.Exactly e.width e.Denotes := by
  induction e with
  | intervals w l =>
    refine ⟨_, rfl, by simp [width], IntervalSet.normalize_isNormalized _, fun b hb => ?_⟩
    rw [IntervalSet.normalize_Covers, IntervalSet.ofIntervals_Covers]
    exact and_iff_right hb
  | combine a b iha ihb =>
    obtain ⟨ha, hb, hw⟩ := h
    obtain ⟨s, hs, hexact⟩ := iha ha
    obtain ⟨t, ht, hexact'⟩ := ihb hb
    rw [hw] at hexact'
    obtain ⟨res, hres, hfinal⟩ := hexact.combine hexact'
    exact ⟨res, by rw [run, hs, ht]; exact hres, hfinal⟩
  | intersect a b iha ihb =>
    obtain ⟨ha, hb, hw⟩ := h
    obtain ⟨s, hs, hexact⟩ := iha ha
    obtain ⟨t, ht, hexact'⟩ := ihb hb
    rw [hw] at hexact'
    obtain ⟨res, hres, hfinal⟩ := hexact.intersect hexact'
    exact ⟨res, by rw [run, hs, ht]; exact hres, hfinal⟩
  | complement a ih =>
    obtain ⟨s, hs, hexact⟩ := ih h
    obtain ⟨res, hres, hfinal⟩ := hexact.complement
    exact ⟨res, by rw [run, hs]; exact hres, hfinal⟩
  | zeroExtend a w ih =>
    obtain ⟨s, hs, hexact⟩ := ih h.1
    obtain ⟨res, hres, hfinal⟩ := hexact.zeroExtend h.2
    exact ⟨res, by rw [run, hs]; exact hres, hfinal⟩

/-- The set of an expression has its points, and is the same for each expression with these
points; `IsMaximal` and `IsEmpty` answer for them. -/
theorem run_canonical (e : SetExpr) (h : e.WellSized) :
    ∃ s, e.run = some s ∧ s.Exactly e.width e.Denotes ∧
      (s.isMaximal = true ↔ ∀ b : Bits, b.bitCount = e.width → e.Denotes b) ∧
      (s.isEmpty = true ↔ ∀ b : Bits, b.bitCount = e.width → ¬ e.Denotes b) ∧
      ∀ e' : SetExpr, e'.WellSized → e'.width = e.width →
        (e'.run = some s ↔ ∀ b : Bits, b.bitCount = e.width → (e'.Denotes b ↔ e.Denotes b)) := by
  obtain ⟨s, hs, hexact⟩ := e.run_spec h
  refine ⟨s, hs, hexact, hexact.isMaximal_iff, hexact.isEmpty_iff, fun e' h' hw => ?_⟩
  obtain ⟨t, ht, hexact'⟩ := e'.run_spec h'
  rw [hw] at hexact'
  rw [ht, Option.some.injEq, hexact'.eq_iff hexact]

/-- The points of width 4 which are not below 8, as those of width 3 complemented. -/
def upperHalf : SetExpr := complement (zeroExtend (intervals 3 [Interval.maximal 3]) 4)

theorem run_canonical_upperHalf : ∃ s, upperHalf.run = some s ∧ s.Exactly 4 upperHalf.Denotes ∧
      (s.isMaximal = true ↔ ∀ b : Bits, b.bitCount = 4 → upperHalf.Denotes b) ∧
      (s.isEmpty = true ↔ ∀ b : Bits, b.bitCount = 4 → ¬ upperHalf.Denotes b) ∧
      ∀ e' : SetExpr, e'.WellSized → e'.width = 4 →
        (e'.run = some s ↔ ∀ b : Bits, b.bitCount = 4 → (e'.Denotes b ↔ upperHalf.Denotes b)) :=
  run_canonical upperHalf ⟨trivial, by decide⟩

end SetExpr

end Xls
