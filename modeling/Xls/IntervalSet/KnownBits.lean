/-
# Known bits of an interval set

`ExtractKnownBits` (`xls/ir/interval_ops.cc`) over `LongestCommonPrefixMSB` and
`LongestCommonPrefixLSB` (`xls/ir/bits_ops.cc`).  `none` is a failed `XLS_CHECK`.

* `longestCommonPrefixMSB_eq` : the prefix of any number of vectors is the longest one which
  they share;
* `testBit_eq_of_between` : numbers between two bounds share the leading bits of the bounds;
* `exists_differ` : below these bits two of them differ everywhere;
* `extractKnownBits_exact` : the known bits of a set are sound, and of one interval tight.
-/
import Xls.IntervalSet
import Xls.Ir.LogicBits

namespace Xls

namespace BitsOps

/-! ## The source -/

/-- The loop of `LongestCommonPrefixLSB`, up to the first place where a vector differs. -/
def commonPrefixLSB (bitsSpan : List Bits) (first : Bits) : Bits :=
  Bits.ofBools (((List.range first.bitCount).takeWhile fun i =>
    bitsSpan.all fun bits => bits.get i == first.get i).map first.get)

/-- `LongestCommonPrefixLSB`. -/
def longestCommonPrefixLSB (bitsSpan : List Bits) : Option Bits :=
  match bitsSpan with
  | [] => some (Bits.zero 0)
  | first :: _ =>
    if ∀ bits ∈ bitsSpan, bits.bitCount = first.bitCount then some (commonPrefixLSB bitsSpan first)
    else none

/-- `LongestCommonPrefixMSB`. -/
def longestCommonPrefixMSB (bitsSpan : List Bits) : Option Bits :=
  (longestCommonPrefixLSB (bitsSpan.map reverse)).map reverse

end BitsOps

namespace IntervalOps

/-- `KnownBits`. -/
structure KnownBits where
  knownBits : Bits
  knownBitValues : Bits
  deriving DecidableEq

/-- `ExtractKnownBits`. -/
def extractKnownBits (intervals : IntervalSet) : Option KnownBits :=
  if intervals.isNormalized then
    match intervals.intervals.head?, intervals.intervals.getLast? with
    | some front, some back => do
      let lcp ← BitsOps.longestCommonPrefixMSB [front.lowerBound, back.upperBound]
      let remainder := Bits.zero (intervals.bitCount - lcp.bitCount)
      some ⟨BitsOps.concat [Bits.allOnes lcp.bitCount, remainder],
        BitsOps.concat [lcp, remainder]⟩
    | _, _ => none
  else none

end IntervalOps

/-! ## Common prefixes -/

namespace BitsOps

/-- No bit is set beyond the width. -/
theorem get_eq_false {b : Bits} {i : ℕ} (h : b.bitCount ≤ i) : b.get i = false := by
  rw [← Bool.not_eq_true]
  exact fun hget => absurd (Bits.lt_of_get hget) (not_lt.mpr h)

theorem get_ofBools (v : List Bool) (i : ℕ) : (Bits.ofBools v).get i = v.getD i false :=
  BoolList.testBit_value v i

theorem bitCount_reverse (b : Bits) : (reverse b).bitCount = b.bitCount := by
  show b.toBitVector.reverse.length = b.bitCount
  rw [List.length_reverse, Evaluator.length_toBitVector]

theorem get_reverse {b : Bits} {i : ℕ} (h : i < b.bitCount) :
    (reverse b).get i = b.get (b.bitCount - 1 - i) := by
  have hlen := Evaluator.length_toBitVector b
  rw [reverse, get_ofBools, List.getD_eq_getElem _ _ (by rw [List.length_reverse, hlen]; exact h),
    List.getElem_reverse]
  simp only [Bits.toBitVector, List.length_map, List.length_range, List.getElem_map,
    List.getElem_range]

/-- The numbers taken from the start of a range. -/
theorem exists_takeWhile_range (p : ℕ → Bool) (n : ℕ) : ∃ k ≤ n,
    (List.range n).takeWhile p = List.range k ∧ (∀ i < k, p i = true) ∧ (k < n → p k = false) := by
  induction n with
  | zero => exact ⟨0, le_rfl, rfl, fun i hi => absurd hi (Nat.not_lt_zero i),
      fun h => absurd h (Nat.lt_irrefl 0)⟩
  | succ n ih =>
    obtain ⟨k, hk, heq, hall, hnext⟩ := ih
    rw [List.range_succ, List.takeWhile_append, heq, List.length_range, List.length_range]
    rcases hk.eq_or_lt with rfl | hlt
    · rw [if_pos rfl]
      rcases hp : p k with - | -
      · refine ⟨k, Nat.le_succ k, ?_, hall, fun _ => hp⟩
        rw [List.takeWhile_cons_of_neg (by rw [hp]; exact Bool.false_ne_true), List.append_nil]
      · refine ⟨k + 1, le_rfl, ?_, fun i hi => ?_, fun h => absurd h (Nat.lt_irrefl _)⟩
        · rw [List.takeWhile_cons_of_pos hp, List.takeWhile_nil, List.range_succ]
        · rcases Nat.lt_succ_iff_lt_or_eq.mp hi with hi | rfl
          · exact hall i hi
          · exact hp
    · rw [if_neg hlt.ne]
      exact ⟨k, hlt.le.trans (Nat.le_succ n), rfl, hall, fun _ => hnext hlt⟩

/-- What the longest common prefix of vectors of one width is, `place` being the bit of a vector
which comes at a step. -/
structure IsLongestPrefix (bitsSpan : List Bits) (w : ℕ) (place : ℕ → ℕ) (k : ℕ) : Prop where
  le : k ≤ w
  same : ∀ a ∈ bitsSpan, ∀ b ∈ bitsSpan, ∀ i < k, a.get (place i) = b.get (place i)
  differ : k < w → ∃ a ∈ bitsSpan, ∃ b ∈ bitsSpan, a.get (place k) ≠ b.get (place k)

theorem longestCommonPrefixLSB_eq {bitsSpan : List Bits} {w : ℕ}
    (hw : ∀ b ∈ bitsSpan, b.bitCount = w) {first : Bits} (hfirst : first ∈ bitsSpan) :
    ∃ lcp, longestCommonPrefixLSB bitsSpan = some lcp ∧ IsLongestPrefix bitsSpan w id lcp.bitCount ∧
      ∀ i < lcp.bitCount, lcp.get i = first.get i := by
  rcases bitsSpan with - | ⟨head, rest⟩
  · cases hfirst
  · have hhead : head.bitCount = w := hw head (List.mem_cons_self ..)
    have hcheck : ∀ b ∈ head :: rest, b.bitCount = head.bitCount := fun b hb =>
      (hw b hb).trans hhead.symm
    obtain ⟨k, hk, heq, hall, hnext⟩ := exists_takeWhile_range
      (fun i => (head :: rest).all fun bits => bits.get i == head.get i) head.bitCount
    have hlcp : commonPrefixLSB (head :: rest) head = Bits.ofBools ((List.range k).map head.get) :=
      congrArg (fun l : List ℕ => Bits.ofBools (l.map head.get)) heq
    have hcount : (Bits.ofBools ((List.range k).map head.get)).bitCount = k := by
      show ((List.range k).map head.get).length = k
      rw [List.length_map, List.length_range]
    -- all vectors have the bits of the first one
    have hsame : ∀ a ∈ head :: rest, ∀ i < k, a.get i = head.get i := fun a ha i hi =>
      eq_of_beq (List.all_eq_true.mp (hall i hi) a ha)
    refine ⟨_, (if_pos hcheck).trans (congrArg some hlcp), ?_, ?_⟩
    · rw [hcount]
      refine ⟨hhead ▸ hk, fun a ha b hb i hi => ?_, fun hlt => ?_⟩
      · rw [id_eq, hsame a ha i hi, hsame b hb i hi]
      · have hfalse := hnext (hhead.symm ▸ hlt)
        rw [List.all_eq_false] at hfalse
        obtain ⟨a, ha, hne⟩ := hfalse
        exact ⟨a, ha, head, List.mem_cons_self .., fun h => hne (beq_iff_eq.mpr h)⟩
    · intro i hi
      rw [hcount] at hi
      rw [hsame first hfirst i hi, get_ofBools, List.getD_eq_getElem _ _ (by
        rw [List.length_map, List.length_range]
        exact hi), List.getElem_map, List.getElem_range]

/-- The leading bits of any number of vectors of one width. -/
theorem longestCommonPrefixMSB_eq {bitsSpan : List Bits} {w : ℕ}
    (hw : ∀ b ∈ bitsSpan, b.bitCount = w) {first : Bits} (hfirst : first ∈ bitsSpan) :
    ∃ lcp, longestCommonPrefixMSB bitsSpan = some lcp ∧
      IsLongestPrefix bitsSpan w (fun i => w - 1 - i) lcp.bitCount ∧
      ∀ i < lcp.bitCount, lcp.get i = first.get (w - lcp.bitCount + i) := by
  have hreverse : ∀ b ∈ bitsSpan.map reverse, b.bitCount = w := by
    intro b hb
    obtain ⟨a, ha, rfl⟩ := List.mem_map.mp hb
    rw [bitCount_reverse, hw a ha]
  obtain ⟨lcp, hlcp, hprefix, hget⟩ :=
    longestCommonPrefixLSB_eq hreverse (List.mem_map_of_mem hfirst)
  have hle := hprefix.le
  have hbit : ∀ a ∈ bitsSpan, ∀ i < w, (reverse a).get i = a.get (w - 1 - i) := by
    intro a ha i hi
    rw [get_reverse (by rw [hw a ha]; exact hi), hw a ha]
  refine ⟨reverse lcp, ?_, ?_, ?_⟩
  · rw [longestCommonPrefixMSB, hlcp, Option.map_some]
  · rw [bitCount_reverse]
    refine ⟨hle, fun a ha b hb i hi => ?_, fun hlt => ?_⟩
    · rw [← hbit a ha i (hi.trans_le hle), ← hbit b hb i (hi.trans_le hle)]
      exact hprefix.same _ (List.mem_map_of_mem ha) _ (List.mem_map_of_mem hb) i hi
    · obtain ⟨x, hx, y, hy, hne⟩ := hprefix.differ hlt
      obtain ⟨a, ha, rfl⟩ := List.mem_map.mp hx
      obtain ⟨b, hb, rfl⟩ := List.mem_map.mp hy
      rw [id_eq, hbit a ha _ hlt, hbit b hb _ hlt] at hne
      exact ⟨a, ha, b, hb, hne⟩
  · intro i hi
    rw [bitCount_reverse] at hi ⊢
    rw [get_reverse hi, hget _ (by omega), hbit first hfirst _ (by omega)]
    congr 1
    omega

end BitsOps

/-! ## Numbers between two bounds -/

namespace IntervalOps

/-- Numbers between two bounds share the leading bits of the bounds. -/
theorem testBit_eq_of_between {lower upper n k : ℕ} (hl : lower ≤ n) (hu : n ≤ upper)
    (h : lower / 2 ^ k = upper / 2 ^ k) {i : ℕ} (hi : k ≤ i) : n.testBit i = lower.testBit i := by
  have hn : n / 2 ^ k = lower / 2 ^ k :=
    le_antisymm ((Nat.div_le_div_right hu).trans h.ge) (Nat.div_le_div_right hl)
  have hbit : ∀ m : ℕ, m.testBit i = (m / 2 ^ k).testBit (i - k) := by
    intro m
    rw [Nat.testBit_div_two_pow, Nat.sub_add_cancel hi]
  rw [hbit n, hbit lower, hn]

/-- Where the bounds differ below shared leading bits, two numbers between them have no bit in
common from there on. -/
theorem exists_differ {lower upper k : ℕ} (hle : lower ≤ upper)
    (h : lower / 2 ^ (k + 1) = upper / 2 ^ (k + 1)) (hne : lower.testBit k ≠ upper.testBit k) :
    ∃ m, lower ≤ m ∧ m + 1 ≤ upper ∧ ∀ i ≤ k, m.testBit i ≠ (m + 1).testBit i := by
  have hpos : 0 < 2 ^ k := Nat.two_pow_pos k
  have hhalf : ∀ n : ℕ, n / 2 ^ (k + 1) = n / 2 ^ k / 2 := fun n => by
    rw [Nat.div_div_eq_div_mul, pow_succ]
  have hparity : lower / 2 ^ k % 2 ≠ upper / 2 ^ k % 2 := by
    rw [Nat.testBit_eq_decide_div_mod_eq, Nat.testBit_eq_decide_div_mod_eq] at hne
    exact fun heq => hne (by rw [heq])
  rw [hhalf, hhalf] at h
  have hdiv : lower / 2 ^ k ≤ upper / 2 ^ k := Nat.div_le_div_right hle
  -- the bit is clear in the lower bound and set in the upper one
  obtain ⟨q, hq⟩ : ∃ q, q = lower / 2 ^ k / 2 := ⟨_, rfl⟩
  have hlower : lower / 2 ^ k = 2 * q := by omega
  have hupper : upper / 2 ^ k = 2 * q + 1 := by omega
  have hlt : lower < 2 ^ k * (2 * q + 1) := by
    rw [← hlower]
    exact Nat.lt_mul_div_succ lower hpos
  have hge : 2 ^ k * (2 * q + 1) ≤ upper := by
    rw [← hupper]
    exact Nat.mul_div_le upper (2 ^ k)
  have hmul : 2 ^ k * (2 * q + 1) = 2 ^ k * (2 * q) + 2 ^ k := by rw [Nat.mul_succ]
  refine ⟨2 ^ k * (2 * q) + (2 ^ k - 1), by omega, by omega, fun i hi => ?_⟩
  have hnext : 2 ^ k * (2 * q) + (2 ^ k - 1) + 1 = 2 ^ k * (2 * q + 1) + 0 := by omega
  rw [hnext, Nat.testBit_two_pow_mul_add _ (by omega), Nat.testBit_two_pow_mul_add _ hpos]
  rcases hi.eq_or_lt with rfl | hlt
  · simp
  · rw [if_pos hlt, if_pos hlt, Nat.testBit_two_pow_sub_one, decide_eq_true hlt, Nat.zero_testBit]
    exact Bool.noConfusion

/-! ## The known bits of a set -/

/-- Every known bit has its value in each point of the set. -/
def KnownBits.Sound (known : KnownBits) (intervals : IntervalSet) : Prop :=
  ∀ i, known.knownBits.get i = true → ∀ b, intervals.Covers b →
    b.get i = known.knownBitValues.get i

/-- Every bit which has one value in all points of the set is known. -/
def KnownBits.Tight (known : KnownBits) (intervals : IntervalSet) : Prop :=
  ∀ i < intervals.bitCount, (∀ a b, intervals.Covers a → intervals.Covers b → a.get i = b.get i) →
    known.knownBits.get i = true

theorem get_concat_two (a b : Bits) (i : ℕ) : (BitsOps.concat [a, b]).get i =
    if i < b.bitCount then b.get i else a.get (i - b.bitCount) := by
  show (BitsOps.append (BitsOps.append (Bits.zero 0) a) b).toNat.testBit i = _
  rw [Evaluator.testBit_append, Evaluator.testBit_append, Bits.zero_toNat, Nat.zero_testBit]
  split
  · rfl
  · split
    · rfl
    · exact (BitsOps.get_eq_false (by omega)).symm

/-- The prefix is known, and nothing behind it. -/
theorem get_knownBits (lcp : Bits) (w i : ℕ) :
    (BitsOps.concat [Bits.allOnes lcp.bitCount, Bits.zero (w - lcp.bitCount)]).get i =
      decide (w - lcp.bitCount ≤ i ∧ i < w - lcp.bitCount + lcp.bitCount) := by
  rw [get_concat_two, Bits.zero_bitCount, Bits.get, Bits.get, Bits.zero_toNat, Nat.zero_testBit,
    Bits.allOnes_toNat, Nat.testBit_two_pow_sub_one]
  split
  · rename_i hi
    exact (decide_eq_false fun h => absurd hi (not_lt.mpr h.1)).symm
  · exact decide_eq_decide.mpr (by omega)

/-- The bounds of a set, with the longest prefix of theirs. -/
theorem extractKnownBits_eq {intervals : IntervalSet} (hnormal : intervals.isNormalized = true)
    {front back : Interval intervals.bitCount} (hfront : intervals.intervals.head? = some front)
    (hback : intervals.intervals.getLast? = some back) :
    ∃ lcp, extractKnownBits intervals = some
        ⟨BitsOps.concat [Bits.allOnes lcp.bitCount, Bits.zero (intervals.bitCount - lcp.bitCount)],
          BitsOps.concat [lcp, Bits.zero (intervals.bitCount - lcp.bitCount)]⟩ ∧
      BitsOps.IsLongestPrefix [front.lowerBound, back.upperBound] intervals.bitCount
        (fun i => intervals.bitCount - 1 - i) lcp.bitCount ∧
      ∀ i < lcp.bitCount, lcp.get i =
        front.lowerBound.get (intervals.bitCount - lcp.bitCount + i) := by
  have hw : ∀ b ∈ [front.lowerBound, back.upperBound], b.bitCount = intervals.bitCount := by
    intro b hb
    rcases List.mem_pair.mp hb with rfl | rfl
    · rfl
    · rfl
  obtain ⟨lcp, hlcp, hprefix, hget⟩ :=
    BitsOps.longestCommonPrefixMSB_eq hw (List.mem_cons_self ..)
  refine ⟨lcp, ?_, hprefix, hget⟩
  unfold extractKnownBits
  rw [if_pos hnormal, hfront, hback]
  simp only [hlcp]
  rfl

/-- The leading bits which the bounds share. -/
theorem div_eq_of_prefix {w k : ℕ} {a b : Bits} (ha : a.bitCount = w) (hb : b.bitCount = w)
    (h : BitsOps.IsLongestPrefix [a, b] w (fun i => w - 1 - i) k) :
    a.toNat / 2 ^ (w - k) = b.toNat / 2 ^ (w - k) := by
  have hle := h.le
  refine Nat.eq_of_testBit_eq fun i => ?_
  rw [Nat.testBit_div_two_pow, Nat.testBit_div_two_pow]
  by_cases hi : i < k
  · have hsame := h.same a (List.mem_cons_self ..) b
      (List.mem_cons_of_mem a (List.mem_cons_self ..)) (k - 1 - i) (by omega)
    rwa [show w - 1 - (k - 1 - i) = i + (w - k) by omega] at hsame
  · have hbeyond : w ≤ i + (w - k) := by omega
    rw [show a.toNat.testBit (i + (w - k)) = false from BitsOps.get_eq_false (ha ▸ hbeyond),
      show b.toNat.testBit (i + (w - k)) = false from BitsOps.get_eq_false (hb ▸ hbeyond)]

/-- The points of a normal form lie between the bounds of the set. -/
theorem between_of_covers {intervals : IntervalSet} (hnormal : intervals.isNormalized = true)
    {front back : Interval intervals.bitCount} (hfront : intervals.intervals.head? = some front)
    (hback : intervals.intervals.getLast? = some back) {b : Bits} (h : intervals.Covers b) :
    front.lower ≤ b.toNat ∧ b.toNat ≤ back.upper := by
  obtain ⟨i, hi, hcovers⟩ := h.exists_interval
  have hl := intervals.normal hnormal
  rw [Interval.covers_iff_of_proper (hl.proper hi) h.lt] at hcovers
  exact ⟨(hl.head_lower_le hfront hi).trans hcovers.1, hcovers.2.trans (hl.upper_le_last hback hi)⟩

/-- **Known bits of a set.**  They have their values in every point of the set, and of a single
interval they are all the bits which have one value. -/
theorem extractKnownBits_exact (intervals : IntervalSet) (hnormal : intervals.isNormalized = true)
    (hne : intervals.intervals ≠ []) :
    ∃ known, extractKnownBits intervals = some known ∧
      known.knownBits.bitCount = intervals.bitCount ∧
      known.knownBitValues.bitCount = intervals.bitCount ∧
      known.Sound intervals ∧ (intervals.intervals.length = 1 → known.Tight intervals) := by
  obtain ⟨front, hfront⟩ : ∃ i, intervals.intervals.head? = some i :=
    ⟨_, List.head?_eq_some_head hne⟩
  obtain ⟨back, hback⟩ : ∃ i, intervals.intervals.getLast? = some i :=
    ⟨_, List.getLast?_eq_some_getLast hne⟩
  obtain ⟨lcp, hknown, hprefix, hget⟩ := extractKnownBits_eq hnormal hfront hback
  have hle := hprefix.le
  have hdiv : front.lower / 2 ^ (intervals.bitCount - lcp.bitCount) =
      back.upper / 2 ^ (intervals.bitCount - lcp.bitCount) :=
    div_eq_of_prefix (a := front.lowerBound) (b := back.upperBound) rfl rfl hprefix
  have hwidth : lcp.bitCount + (intervals.bitCount - lcp.bitCount) = intervals.bitCount := by omega
  refine ⟨_, hknown, ?_, ?_, ?_, ?_⟩
  · rw [Evaluator.bitCount_concat]
    simpa using hwidth
  · rw [Evaluator.bitCount_concat]
    simpa using hwidth
  · intro i hi b hb
    rw [get_knownBits, decide_eq_true_eq] at hi
    obtain ⟨hlower, hupper⟩ := between_of_covers hnormal hfront hback hb
    rw [get_concat_two, Bits.zero_bitCount, if_neg (by omega), hget _ (by omega),
      show intervals.bitCount - lcp.bitCount + (i - (intervals.bitCount - lcp.bitCount)) = i by omega]
    exact testBit_eq_of_between hlower hupper hdiv hi.1
  · intro hone i hi hsame
    rw [get_knownBits, decide_eq_true_eq]
    by_contra hunknown
    -- the bounds differ in the bit below the prefix
    have hlt : lcp.bitCount < intervals.bitCount := by omega
    obtain ⟨interval, hsingle⟩ := List.length_eq_one_iff.mp hone
    rw [hsingle] at hfront hback
    obtain rfl : interval = front := Option.some.inj hfront
    obtain rfl : interval = back := Option.some.inj hback
    have hproper : interval.lower ≤ interval.upper :=
      (intervals.normal hnormal).proper (hsingle ▸ List.mem_singleton_self interval)
    obtain ⟨k, hk⟩ : ∃ k, intervals.bitCount - lcp.bitCount = k + 1 :=
      Nat.exists_eq_succ_of_ne_zero (by omega)
    have hdiffer : interval.lower.testBit k ≠ interval.upper.testBit k := by
      obtain ⟨a, ha, b, hb, hab⟩ := hprefix.differ hlt
      rw [show intervals.bitCount - 1 - lcp.bitCount = k by omega] at hab
      rcases List.mem_pair.mp ha with rfl | rfl <;> rcases List.mem_pair.mp hb with rfl | rfl
      · exact absurd rfl hab
      · exact hab
      · exact hab.symm
      · exact absurd rfl hab
    rw [hk] at hdiv
    obtain ⟨m, hlower, hupper, hall⟩ := exists_differ hproper hdiv hdiffer
    have hbound := interval.upper_lt
    have hcovers : ∀ n, interval.lower ≤ n → (hn : n ≤ interval.upper) →
        intervals.Covers ⟨intervals.bitCount, n, hn.trans_lt hbound⟩ := by
      intro n hln hnu
      refine ⟨rfl, coversPoint_eq_true.mpr ⟨interval, ?_, Interval.covers_of_between hln hnu⟩⟩
      rw [hsingle]
      exact List.mem_singleton_self interval
    exact hall i (by omega) (hsame _ _ (hcovers m hlower (by omega))
      (hcovers (m + 1) (by omega) hupper))

/-- The numbers from four to five, in three bits. -/
def fourToFive : IntervalSet :=
  (IntervalSet.ofIntervals [(⟨4, 5, by decide, by decide⟩ : Interval 3)]).normalize

theorem extractKnownBits_exact_fourToFive : ∃ known, extractKnownBits fourToFive = some known ∧
      known.knownBits.bitCount = fourToFive.bitCount ∧
      known.knownBitValues.bitCount = fourToFive.bitCount ∧
      known.Sound fourToFive ∧ (fourToFive.intervals.length = 1 → known.Tight fourToFive) :=
  extractKnownBits_exact fourToFive (IntervalSet.normalize_isNormalized _) (by decide)

/-- The two leading bits are known. -/
example : extractKnownBits fourToFive = some ⟨Bits.ofNat 3 6, Bits.ofNat 3 4⟩ := by decide

end IntervalOps

end Xls
