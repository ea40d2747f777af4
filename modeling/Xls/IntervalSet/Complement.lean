/-
# Complements of interval sets

`Interval::Difference` and `IntervalSet::Complement` (`xls/ir/interval.cc`,
`xls/ir/interval_set.cc`).  The complement of a set is computed as the intersection of the
complements of its intervals, by repeated calls of `Intersect`.

* `Interval.difference_spec`: the pieces of a difference cover exactly its points;
* `IntervalSet.complement_spec`: the complement of a normalized set exists and covers
  exactly the points the set does not cover;
* `IntervalSet.intersect_complement_exact`: with the exactness of `Intersect`, complementing
  twice gives the set back.
-/
import Xls.IntervalSet.Canonical

namespace Xls

variable {w : ℕ}

/-! ## Differences of intervals -/

namespace Interval

/-- `RightOpen(a, b)` with `a < b` ends right before `b`. -/
theorem rightOpen_bounds {a b : ℕ} (ha : a < 2 ^ w) (hab : a < b) (hb : b < 2 ^ w) :
    (rightOpen a b ha : Interval w).lower = a ∧ (rightOpen a b ha : Interval w).upper + 1 = b := by
  refine ⟨rfl, ?_⟩
  show (b + (2 ^ w - 1)) % 2 ^ w + 1 = b
  rw [show b + (2 ^ w - 1) = (b - 1) + 2 ^ w by omega, Nat.add_mod_right,
    Nat.mod_eq_of_lt (by omega)]
  omega

/-- `LeftOpen(a, b)` with `a < b` starts right behind `a`. -/
theorem leftOpen_bounds {a b : ℕ} (hb : b < 2 ^ w) (hab : a < b) :
    (leftOpen a b hb : Interval w).lower = a + 1 ∧ (leftOpen a b hb : Interval w).upper = b :=
  ⟨Nat.mod_eq_of_lt (by omega), rfl⟩

/-- The pieces of a difference are proper and cover its points. -/
theorem difference_spec {a b : Interval w} (ha : a.Proper) (hb : b.Proper) :
    (∀ i ∈ a.difference b, i.Proper) ∧
    ∀ n < 2 ^ w, (coversPoint (a.difference b) n = true ↔
      a.covers n = true ∧ ¬ b.covers n = true) := by
  unfold difference
  rcases h : a.intersect b with _ | c
  · -- disjoint intervals
    have hdisjoint := intersect_none h
    constructor
    · intro i hi
      rw [List.mem_singleton] at hi
      subst hi
      exact ha
    · intro n hn
      rw [coversPoint_cons, coversPoint_nil, Bool.or_false, covers_iff_of_proper ha hn,
        covers_iff_of_proper hb hn]
      omega
  · obtain ⟨hc, hlower, hupper⟩ := intersect_some h
    have hcl := c.lower_lt
    unfold Proper at ha hb hc
    simp only
    constructor
    · intro i hi
      rcases List.mem_append.mp hi with hi | hi
      · split_ifs at hi with hfront
        · rw [List.mem_singleton] at hi
          obtain ⟨hl, hu⟩ := rightOpen_bounds a.lower_lt hfront hcl
          subst hi
          unfold Proper
          omega
        · cases hi
      · split_ifs at hi with hback
        · rw [List.mem_singleton] at hi
          obtain ⟨hl, hu⟩ := leftOpen_bounds a.upper_lt hback
          subst hi
          unfold Proper
          omega
        · cases hi
    · intro n hn
      rw [coversPoint_append, Bool.or_eq_true, covers_iff_of_proper ha hn,
        covers_iff_of_proper hb hn]
      have hfront : coversPoint (if a.lower < c.lower then
          [rightOpen a.lower c.lower a.lower_lt] else []) n = true ↔
          a.lower ≤ n ∧ n < c.lower := by
        split_ifs with hlt
        · obtain ⟨hl, hu⟩ := rightOpen_bounds a.lower_lt hlt hcl
          rw [coversPoint_cons, coversPoint_nil, Bool.or_false,
            covers_iff_of_proper (by unfold Proper; omega) hn]
          omega
        · simp only [coversPoint_nil, Bool.false_eq_true, false_iff]
          omega
      have hback : coversPoint (if c.upper < a.upper then
          [leftOpen c.upper a.upper a.upper_lt] else []) n = true ↔
          c.upper < n ∧ n ≤ a.upper := by
        split_ifs with hlt
        · obtain ⟨hl, hu⟩ := leftOpen_bounds a.upper_lt hlt
          rw [coversPoint_cons, coversPoint_nil, Bool.or_false,
            covers_iff_of_proper (by unfold Proper; omega) hn]
          omega
        · simp only [coversPoint_nil, Bool.false_eq_true, false_iff]
          omega
      rw [hfront, hback]
      omega

/-- The pieces of a complement cover what the interval does not. -/
theorem complement_covers {i : Interval w} (hi : i.Proper) {n : ℕ} (hn : n < 2 ^ w) :
    coversPoint i.complement n = true ↔ ¬ i.covers n = true := by
  unfold complement
  rw [(difference_spec (maximal_proper w) hi).2 n hn]
  simp only [maximal_covers hn, true_and]

end Interval

namespace IntervalSet

/-! ## The complement of a set -/

/-- A normalized set is left alone by `Normalize`. -/
theorem normalize_eq_self {s : IntervalSet} (hs : s.isNormalized = true) : s.normalize = s :=
  if_pos hs

/-- Normalized sets of one width with the same points are equal. -/
theorem eq_of_covers {s t : IntervalSet} (hs : s.isNormalized = true) (ht : t.isNormalized = true)
    (hw : s.bitCount = t.bitCount) (h : ∀ b, s.Covers b ↔ t.Covers b) : s = t := by
  rw [← normalize_eq_self hs, ← normalize_eq_self ht]
  exact normalize_eq_of_covers hw h

/-- A set which covers, of its width, the vectors with a property. -/
structure Exactly (s : IntervalSet) (w : ℕ) (P : Bits → Prop) : Prop where
  bitCount : s.bitCount = w
  isNormalized : s.isNormalized = true
  covers : ∀ b : Bits, b.bitCount = w → (s.Covers b ↔ P b)

/-- The normalized complement of one interval covers what the interval does not. -/
theorem exactly_complement_interval {i : Interval w} (hi : i.Proper) :
    (ofIntervals i.complement).normalize.Exactly w fun b => ¬ i.covers b.toNat = true := by
  refine ⟨by simp, normalize_isNormalized _, ?_⟩
  intro b hb
  rw [normalize_Covers]
  unfold Covers
  have hn : b.toNat < 2 ^ w := lt_of_lt_of_eq b.isLt (congrArg (2 ^ ·) hb)
  have hpoints : (ofIntervals i.complement).covers b.toNat = true ↔ ¬ i.covers b.toNat = true :=
    Interval.complement_covers hi hn
  rw [hpoints]
  exact ⟨And.right, fun h => ⟨hb, h⟩⟩

/-- One round of the loop of `Complement` removes the points of one more interval. -/
theorem Exactly.intersect {s t : IntervalSet} {P Q : Bits → Prop} (hs : s.Exactly w P)
    (ht : t.Exactly w Q) :
    ∃ res, s.intersect t = some res ∧ res.Exactly w fun b => P b ∧ Q b := by
  obtain ⟨res, hres⟩ := intersect_isSome (ht.bitCount.trans hs.bitCount.symm) hs.isNormalized
    ht.isNormalized
  obtain ⟨-, hwidth, hnormal, hcovers⟩ := intersect_eq_some hres
  refine ⟨res, hres, hwidth.trans hs.bitCount, hnormal, ?_⟩
  intro b hb
  rw [hcovers b, hs.covers b hb, ht.covers b hb]

/-- The loop of `Complement` removes the points of all intervals. -/
theorem foldlM_complement (l : List (Interval w)) (hl : ∀ i ∈ l, i.Proper) :
    ∀ {s : IntervalSet} {P : Bits → Prop}, s.Exactly w P →
      ∃ res, l.foldlM (fun result i => result.intersect (ofIntervals i.complement).normalize) s =
          some res ∧
        res.Exactly w fun b => P b ∧ ¬ coversPoint l b.toNat = true := by
  induction l with
  | nil =>
    intro s P hs
    refine ⟨s, rfl, hs.bitCount, hs.isNormalized, ?_⟩
    intro b hb
    simpa using hs.covers b hb
  | cons i rest ih =>
    intro s P hs
    have hi : i.Proper := hl i List.mem_cons_self
    obtain ⟨next, hnext, hexact⟩ := hs.intersect (exactly_complement_interval hi)
    obtain ⟨res, hres, hrest⟩ := ih (fun j hj => hl j (List.mem_cons_of_mem i hj)) hexact
    refine ⟨res, ?_, hrest.bitCount, hrest.isNormalized, ?_⟩
    · rw [List.foldlM_cons, hnext]
      exact hres
    · intro b hb
      rw [hrest.covers b hb, coversPoint_cons, Bool.or_eq_true, not_or, and_assoc]

/-- The complement of a normalized set exists and covers what the set does not. -/
theorem complement_spec {s : IntervalSet} (hs : s.isNormalized = true) :
    ∃ c, s.complement = some c ∧ c.Exactly s.bitCount fun b => ¬ s.Covers b := by
  have hmaximal : (maximal s.bitCount).Exactly s.bitCount fun _ => True :=
    ⟨maximal_bitCount _, maximal_isNormalized _, fun b hb => iff_true_intro (maximal_Covers hb)⟩
  obtain ⟨c, hc, hexact⟩ := foldlM_complement s.intervals
    (fun i hi => (s.normal hs).proper hi) hmaximal
  refine ⟨c, (if_pos hs).trans hc, hexact.bitCount, hexact.isNormalized, ?_⟩
  intro b hb
  rw [hexact.covers b hb, true_and]
  exact not_congr ⟨fun h => ⟨hb, h⟩, And.right⟩

/-- The complement of the complement is the set itself. -/
theorem complement_complement {s c : IntervalSet} (hs : s.isNormalized = true)
    (hc : c.Exactly s.bitCount fun b => ¬ s.Covers b) : c.complement = some s := by
  obtain ⟨d, hd, hexact⟩ := complement_spec hc.isNormalized
  have hwidth : d.bitCount = s.bitCount := hexact.bitCount.trans hc.bitCount
  rw [hd, eq_of_covers hexact.isNormalized hs hwidth]
  intro b
  by_cases hb : b.bitCount = s.bitCount
  · rw [hexact.covers b (hb.trans hc.bitCount.symm), hc.covers b hb, not_not]
  · -- vectors of another width are in neither set
    exact ⟨fun h => absurd (h.1.trans hwidth) hb, fun h => absurd h.1 hb⟩

/-- `Intersect` ends with a normalized set of the common points; `Complement` therefore
with one of the missing points, and complementing twice changes nothing. -/
theorem intersect_complement_exact {s t : IntervalSet} (hs : s.isNormalized = true)
    (ht : t.isNormalized = true) (hw : t.bitCount = s.bitCount) :
    (∃ res, s.intersect t = some res ∧ res.bitCount = s.bitCount ∧ res.isNormalized = true ∧
      ∀ b, res.Covers b ↔ s.Covers b ∧ t.Covers b) ∧
    ∃ c, s.complement = some c ∧ c.bitCount = s.bitCount ∧ c.isNormalized = true ∧
      (∀ b : Bits, b.bitCount = s.bitCount → (c.Covers b ↔ ¬ s.Covers b)) ∧
      c.complement = some s := by
  constructor
  · obtain ⟨res, hres⟩ := intersect_isSome hw hs ht
    obtain ⟨-, hwidth, hnormal, hcovers⟩ := intersect_eq_some hres
    exact ⟨res, hres, hwidth, hnormal, hcovers⟩
  · obtain ⟨c, hc, hexact⟩ := complement_spec hs
    exact ⟨c, hc, hexact.bitCount, hexact.isNormalized, hexact.covers,
      complement_complement hs hexact⟩

/-- The points `1` to `5` of width 3, and `2` to `3`, which the loop cuts out of them. -/
theorem intersect_complement_exact_split :
    let s := (ofIntervals [(⟨1, 5, by decide, by decide⟩ : Interval 3)]).normalize
    let t := (ofIntervals [(⟨2, 3, by decide, by decide⟩ : Interval 3)]).normalize
    (∃ res, s.intersect t = some res ∧ res.bitCount = s.bitCount ∧ res.isNormalized = true ∧
      ∀ b, res.Covers b ↔ s.Covers b ∧ t.Covers b) ∧
    ∃ c, s.complement = some c ∧ c.bitCount = s.bitCount ∧ c.isNormalized = true ∧
      (∀ b : Bits, b.bitCount = s.bitCount → (c.Covers b ↔ ¬ s.Covers b)) ∧
      c.complement = some s :=
  intersect_complement_exact (normalize_isNormalized _) (normalize_isNormalized _) (by simp)

end IntervalSet

end Xls
