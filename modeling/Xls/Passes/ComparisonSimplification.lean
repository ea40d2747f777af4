/-
# Comparison simplification

`ComparisonSimplificationPass` (`xls/passes/comparison_simplification_pass.cc`): conditions on
one node, comparisons of it with literals and logic operations on these, are summed up by the
set of the values for which they hold; a node with a simple set becomes a constant or a single
comparison.  `none` is a failed `XLS_CHECK` or a status which is not OK.

* `computeRangeEquivalence`, `simplifyNode` : the pass;
* `Pointwise.foldlM`, `decides_complement` : the sets are computed point by point;
* `compareEquivalence_spec` : the set of a comparison with a literal.
-/
import Xls.Ir.VerifiedBuilder
import Xls.IntervalSet.Complement
import Xls.Lib.FoldM

namespace Xls

/-! ## Interval sets -/

namespace IntervalSet

/-- The set of one interval. -/
def ofBounds (lower upper : Bits) (h : upper.bitCount = lower.bitCount) : IntervalSet :=
  (ofIntervals
    [(⟨lower.toNat, upper.toNat, lower.isLt, h ▸ upper.isLt⟩ : Interval lower.bitCount)]).normalize

theorem ofBounds_exactly (lower upper : Bits) (h : upper.bitCount = lower.bitCount)
    (hle : lower.toNat ≤ upper.toNat) : (ofBounds lower upper h).Exactly lower.bitCount
      fun b => lower.toNat ≤ b.toNat ∧ b.toNat ≤ upper.toNat := by
  refine ⟨rfl, normalize_isNormalized _, fun b hb => ?_⟩
  have hproper : (⟨lower.toNat, upper.toNat, lower.isLt, h ▸ upper.isLt⟩ :
      Interval lower.bitCount).Proper := hle
  unfold ofBounds
  rw [normalize_Covers, ofIntervals_Covers]
  constructor
  · rintro ⟨-, i, hi, hcov⟩
    rwa [List.mem_singleton.mp hi, Interval.covers_iff_of_proper hproper (hb ▸ b.isLt)] at hcov
  · exact fun hbetween =>
      ⟨hb, _, List.mem_singleton_self _, Interval.covers_of_between hbetween.1 hbetween.2⟩

theorem empty_exactly (w : ℕ) : (empty w).Exactly w fun _ => False :=
  ⟨rfl, rfl, fun _ _ => ⟨fun h => absurd h.2 Bool.false_ne_true, False.elim⟩⟩

theorem precise_exactly (value : Bits) : (precise value).Exactly value.bitCount
    fun b => b = value := by
  refine ⟨precise_bitCount value, precise_isNormalized value, fun b hb => ?_⟩
  unfold precise
  rw [normalize_Covers, ofIntervals_Covers]
  constructor
  · rintro ⟨-, i, hi, hcov⟩
    rw [List.mem_singleton.mp hi, Interval.covers_iff_of_proper le_rfl (hb ▸ b.isLt)] at hcov
    exact Bits.ext hb (le_antisymm hcov.2 hcov.1)
  · rintro rfl
    exact ⟨hb, _, List.mem_singleton_self _, Interval.covers_of_between le_rfl le_rfl⟩

variable {s : IntervalSet} {b : Bits}

/-- The points of a set with one interval. -/
theorem covers_singleton {i : Interval s.bitCount} (hs : s.isNormalized = true)
    (hi : s.intervals = [i]) (hb : b.bitCount = s.bitCount) :
    s.Covers b ↔ i.lower ≤ b.toNat ∧ b.toNat ≤ i.upper := by
  have hproper : i.Proper := (s.normal hs).proper (hi ▸ List.mem_singleton_self i)
  unfold Covers covers
  rw [hi, coversPoint_cons, coversPoint_nil, Bool.or_false,
    Interval.covers_iff_of_proper hproper (hb ▸ b.isLt)]
  exact and_iff_right hb

/-- A maximal set covers everything. -/
theorem covers_of_isMaximal (h : s.isMaximal = true) (hb : b.bitCount = s.bitCount) :
    s.Covers b := by
  obtain ⟨i, hi, hmax⟩ := List.any_eq_true.mp h
  refine ⟨hb, coversPoint_of_mem hi ?_⟩
  unfold Interval.isMaximal at hmax
  unfold Interval.covers
  split at hmax
  · rename_i hw
    rw [if_pos hw]
  · rename_i hw
    rw [Bool.and_eq_true, decide_eq_true_eq, decide_eq_true_eq] at hmax
    have hle := b.toNat_le
    rw [hb] at hle
    rw [hmax.1, hmax.2]
    simp [hle]

/-- A normalized set which covers everything is maximal. -/
theorem isMaximal_of_covers (hs : s.isNormalized = true)
    (h : ∀ b : Bits, b.bitCount = s.bitCount → s.Covers b) : s.isMaximal = true := by
  have hnormal := s.normal hs
  have hpos := Nat.two_pow_pos s.bitCount
  have hpoint : ∀ n < 2 ^ s.bitCount, ∃ i ∈ s.intervals, i.lower ≤ n ∧ n ≤ i.upper := by
    intro n hn
    obtain ⟨i, hi, hcov⟩ := (h ⟨s.bitCount, n, hn⟩ rfl).exists_interval
    exact ⟨i, hi, (Interval.covers_iff_of_proper (hnormal.proper hi) hn).mp hcov⟩
  obtain ⟨i, hi, hlower, -⟩ := hpoint 0 hpos
  refine List.any_eq_true.mpr ⟨i, hi, ?_⟩
  unfold Interval.isMaximal
  split
  · rfl
  · rw [Bool.and_eq_true, decide_eq_true_eq, decide_eq_true_eq]
    have hupper := i.upper_lt
    by_contra hne
    -- no other interval has the point after this one
    obtain ⟨j, hj, hjl, hju⟩ := hpoint (i.upper + 1) (by omega)
    obtain ⟨a, ha, rfl⟩ := List.getElem_of_mem hi
    obtain ⟨c, hc, rfl⟩ := List.getElem_of_mem hj
    have hpair := List.pairwise_iff_getElem.mp hnormal.2
    rcases lt_trichotomy a c with hac | rfl | hca
    · have := hpair a c ha hc hac
      omega
    · omega
    · have := hpair c a hc ha hca
      omega

/-- A set without intervals covers nothing. -/
theorem not_covers_of_isEmpty (h : s.isEmpty = true) : ¬ s.Covers b := by
  rintro ⟨-, hcov⟩
  rw [covers, List.isEmpty_iff.mp h] at hcov
  cases hcov

/-- The precise value of a set with points is found, or there is none. -/
theorem getPreciseValue_spec (hs : s.isNormalized = true) (hne : s.isEmpty = false) :
    s.getPreciseValue = some none ∨ ∃ value, s.getPreciseValue = some (some value) ∧
      value.bitCount = s.bitCount ∧
      ∀ b : Bits, b.bitCount = s.bitCount → (s.Covers b ↔ b = value) := by
  have hnormal := s.normal hs
  unfold getPreciseValue
  rw [if_pos hs]
  by_cases hp : s.isPrecise = true
  · rw [hp]
    right
    have hspec := isPreciseFrom_spec s.intervals none hp
    rcases hint : s.intervals with - | ⟨i, rest⟩
    · rw [isEmpty, hint] at hne
      cases hne
    · rw [hint] at hspec
      have hmem : i ∈ i :: rest := List.mem_cons_self ..
      have hrest : rest = [] := by
        rcases rest with - | ⟨j, rest⟩
        · rfl
        · -- two equal intervals would have a gap between them
          have hij := (hspec i hmem).2.2 j (by simp)
          have hgap := (hint ▸ hnormal : Normal (i :: j :: rest)).gap (by simp : j ∈ j :: rest)
          have := (hspec i hmem).1
          rw [← hij] at hgap
          omega
      subst hrest
      have hlu := (hspec i hmem).1
      have hip : i.isPrecise = true := by
        unfold Interval.isPrecise
        split
        · rfl
        · exact decide_eq_true hlu
      refine ⟨i.lowerBound, by simp [hip], rfl, fun b hb => ?_⟩
      rw [covers_singleton hs hint hb, ← hlu]
      constructor
      · exact fun h => Bits.ext hb (le_antisymm h.2 h.1)
      · rintro rfl
        exact ⟨le_rfl, le_rfl⟩
  · rw [Bool.eq_false_iff.mpr hp]
    exact Or.inl rfl

end IntervalSet

namespace ComparisonSimplification

open NodeBuilder

/-! ## The source -/

/-- `RangeEquivalence`: the condition that a node holds a value in a range. -/
structure RangeEquivalence where
  node : ℕ
  range : IntervalSet

/-- `ReduceEquivalence`. -/
def reduceEquivalence (equivalences : List RangeEquivalence)
    (reduce : IntervalSet → IntervalSet → Option IntervalSet) (complement : Bool) :
    Option (Option RangeEquivalence) :=
  match equivalences with
  | [] => some none
  | first :: rest =>
    if rest.all fun c => c.node == first.node then
      (rest.foldlM (fun result c => reduce result c.range) first.range).bind fun result =>
        (if complement then result.normalize.complement else some result.normalize).map
          fun result => some ⟨first.node, result⟩
    else some none

/-- `MakeULtRange`. -/
def makeULtRange (limit : Bits) : IntervalSet :=
  if limit.isZero then IntervalSet.empty limit.bitCount
  else IntervalSet.ofBounds (Bits.zero limit.bitCount) (BitsOps.decrement limit) rfl

/-- `MakeUGtRange`. -/
def makeUGtRange (limit : Bits) : IntervalSet :=
  if limit.isAllOnes then IntervalSet.empty limit.bitCount
  else IntervalSet.ofBounds (BitsOps.increment limit) (Bits.allOnes limit.bitCount) rfl

/-- `OpIsCompare`. -/
def opIsCompare : LogicOp → Bool
  | .core .eq | .core .ne | .core .ugt | .core .uge | .core .ult | .core .ule | .core .sgt
  | .core .sge | .core .slt | .core .sle => true
  | _ => false

/-- The bits of a literal. -/
def literalBits (nodes : List LogicNode) (i : ℕ) : Option Bits :=
  match nodes[i]?.map LogicNode.op with
  | some (.core (.literal (.bits value))) => some value
  | _ => none

/-- The literal operand of a comparison, the other operand, and whether the literal is the
second one. -/
def literalOperand (nodes : List LogicNode) : List ℕ → Option (Bits × ℕ × Bool)
  | [lhs, rhs] =>
    match literalBits nodes lhs with
    | some value => some (value, rhs, false)
    | none => (literalBits nodes rhs).map fun value => (value, lhs, true)
  | _ => none

/-- The equivalence of a comparison with a literal. -/
def compareEquivalence (op : LogicOp) (limit : Bits) (otherOperand : ℕ) (literalOnRhs : Bool) :
    Option (Option RangeEquivalence) :=
  match op with
  | .core .eq => some (some ⟨otherOperand, IntervalSet.precise limit⟩)
  | .core .ne =>
    (IntervalSet.precise limit).complement.map fun range => some ⟨otherOperand, range⟩
  -- the comparisons which are not strict are left to another pass
  | .core .ult =>
    some (some ⟨otherOperand, if literalOnRhs then makeULtRange limit else makeUGtRange limit⟩)
  | .core .ugt =>
    some (some ⟨otherOperand, if literalOnRhs then makeUGtRange limit else makeULtRange limit⟩)
  | _ => some none

/-- The equivalence of a logic operation. -/
def logicEquivalence (op : LogicOp) (equivalences : List RangeEquivalence) :
    Option (Option RangeEquivalence) :=
  match op with
  | .and => reduceEquivalence equivalences IntervalSet.intersect false
  | .or => reduceEquivalence equivalences IntervalSet.combine false
  | .not | .nand => reduceEquivalence equivalences IntervalSet.intersect true
  | .nor => reduceEquivalence equivalences IntervalSet.combine true
  | _ => some none

/-- Whether the first operand has bits type. -/
def firstOperandIsBits (nodes : List LogicNode) (n : LogicNode) : Bool :=
  match n.operands with
  | o :: _ => (nodes[o]?.map fun n => n.type.isBits).getD false
  | [] => false

/-- `ComputeRangeEquivalence`; the equivalences of the nodes before are given by position. -/
def computeRangeEquivalence (nodes : List LogicNode)
    (equivalences : List (Option RangeEquivalence)) (n : LogicNode) :
    Option (Option RangeEquivalence) :=
  if n.type ≠ .bits 1 ∨ (opIsCompare n.op = true ∧ firstOperandIsBits nodes n = false) then
    some none
  else
    match if opIsCompare n.op then literalOperand nodes n.operands else none with
    | some (limit, otherOperand, literalOnRhs) =>
      compareEquivalence n.op limit otherOperand literalOnRhs
    | none =>
      match n.operands.mapM fun o => (equivalences[o]?).join with
      | none => some none
      | some operandEquivalences => logicEquivalence n.op operandEquivalences

/-- The first loop of the pass. -/
def computeEquivalences (nodes : List LogicNode) : Option (List (Option RangeEquivalence)) :=
  nodes.foldlM (fun equivalences n =>
    (computeRangeEquivalence nodes equivalences n).map fun e => equivalences ++ [e]) []

/-- `GetULtInterval`. -/
def getULtInterval (range : IntervalSet) : Option Bits :=
  match range.intervals with
  | [interval] =>
    if interval.lowerBound.isZero && !interval.upperBound.isAllOnes then
      some (BitsOps.increment interval.upperBound)
    else none
  | _ => none

/-- `GetUGtInterval`. -/
def getUGtInterval (range : IntervalSet) : Option Bits :=
  match range.intervals with
  | [interval] =>
    if !interval.lowerBound.isZero && interval.upperBound.isAllOnes then
      some (BitsOps.decrement interval.lowerBound)
    else none
  | _ => none

/-- A node is replaced with a comparison with a new literal. -/
def replaceWithCompare (node : ℕ) (value : Bits) (op : Op) : NodeM (Option ℕ) := do
  let literal ← makeBitsLiteral value
  some <$> makeVerified (.core op) [node, literal] (.bits 1)

/-- The body of the second loop of the pass: the node which replaces a node, if any. -/
def simplifyNode (op : LogicOp) (e : RangeEquivalence) : NodeM (Option ℕ) := do
  if e.range.isMaximal then return some (← makeBitsLiteral (Bits.allOnes 1))
  else if e.range.isEmpty then return some (← makeBitsLiteral (Bits.zero 1))
  else
    match ← StateT.lift e.range.getPreciseValue with
    | some value =>
      if op = .core .eq ∨ op = .core .ne then return none
      else replaceWithCompare e.node value .eq
    | none =>
      match ← StateT.lift (e.range.complement.bind IntervalSet.getPreciseValue) with
      | some value =>
        if op = .core .eq ∨ op = .core .ne then return none
        else replaceWithCompare e.node value .ne
      | none =>
        match getULtInterval e.range with
        | some limit => if opIsCompare op then return none else replaceWithCompare e.node limit .ult
        | none =>
          match getUGtInterval e.range with
          | some limit =>
            if opIsCompare op then return none else replaceWithCompare e.node limit .ugt
          | none => return none

/-! ## Reductions of sets -/

theorem covers_eq_decide {s : IntervalSet} {w n : ℕ} {P : Bits → Prop} [DecidablePred P]
    (hs : s.Exactly w P) (hn : n < 2 ^ w) : s.covers n = decide (P ⟨w, n, hn⟩) := by
  have hcovers := hs.covers ⟨w, n, hn⟩ rfl
  have hwidth : w = s.bitCount := hs.bitCount.symm
  rw [Bool.eq_iff_iff, decide_eq_true_eq, ← hcovers]
  exact (and_iff_right hwidth).symm

/-- A reduction decides about each point by itself. -/
def Pointwise (reduce : IntervalSet → IntervalSet → Option IntervalSet)
    (g : Bool → Bool → Bool) : Prop :=
  ∀ s t : IntervalSet, s.isNormalized = true → t.isNormalized = true → t.bitCount = s.bitCount →
    ∃ r, reduce s t = some r ∧ r.bitCount = s.bitCount ∧ r.isNormalized = true ∧
      ∀ n < 2 ^ s.bitCount, r.covers n = g (s.covers n) (t.covers n)

theorem pointwise_intersect : Pointwise IntervalSet.intersect and := by
  intro s t hs ht hw
  obtain ⟨r, hr⟩ := IntervalSet.intersect_isSome hw hs ht
  obtain ⟨-, hwidth, hnormal, hcovers⟩ := IntervalSet.intersect_eq_some hr
  refine ⟨r, hr, hwidth, hnormal, fun n hn => ?_⟩
  have h := hcovers ⟨s.bitCount, n, hn⟩
  rw [IntervalSet.Covers, IntervalSet.Covers, IntervalSet.Covers, hwidth, hw] at h
  simp only [true_and] at h
  rw [Bool.eq_iff_iff, Bool.and_eq_true]
  exact h

theorem pointwise_combine : Pointwise IntervalSet.combine or := by
  intro s t hs ht hw
  obtain ⟨r, hr⟩ := IntervalSet.combine_isSome hw
  obtain ⟨-, hwidth, hnormal, hcovers⟩ := IntervalSet.combine_eq_some hr
  refine ⟨r, hr, hwidth, hnormal, fun n hn => ?_⟩
  have h := hcovers ⟨s.bitCount, n, hn⟩
  rw [IntervalSet.Covers, IntervalSet.Covers, IntervalSet.Covers, hwidth, hw] at h
  simp only [true_and] at h
  rw [Bool.eq_iff_iff, Bool.or_eq_true]
  exact h

variable {reduce : IntervalSet → IntervalSet → Option IntervalSet} {g : Bool → Bool → Bool}
  {equivalences : List (Option RangeEquivalence)} {limit : Bits} {literalOnRhs : Bool}
  {es : List RangeEquivalence} {e : RangeEquivalence}

/-- The loop of `ReduceEquivalence`. -/
theorem Pointwise.foldlM (h : Pointwise reduce g) (rest : List RangeEquivalence) {s : IntervalSet}
    (hs : s.isNormalized = true)
    (hrest : ∀ c ∈ rest, c.range.isNormalized = true ∧ c.range.bitCount = s.bitCount) :
    ∃ r, rest.foldlM (fun result c => reduce result c.range) s = some r ∧
      r.bitCount = s.bitCount ∧ r.isNormalized = true ∧
      ∀ n < 2 ^ s.bitCount,
        r.covers n = (rest.map fun c => c.range.covers n).foldl g (s.covers n) := by
  induction rest generalizing s with
  | nil => exact ⟨s, rfl, rfl, hs, fun n _ => rfl⟩
  | cons c rest ih =>
    obtain ⟨hc, hcw⟩ := hrest c (List.mem_cons_self ..)
    obtain ⟨t, ht, htw, htn, htc⟩ := h s c.range hs hc hcw
    obtain ⟨r, hr, hrw, hrn, hrc⟩ := ih htn fun d hd => by
      rw [htw]
      exact hrest d (List.mem_cons_of_mem _ hd)
    refine ⟨r, ?_, hrw.trans htw, hrn, fun n hn => ?_⟩
    · rw [List.foldlM_cons, ht]
      exact hr
    · rw [hrc n (htw.symm ▸ hn), htc n hn, List.map_cons, List.foldl_cons]

/-- The set of a logic operation. -/
theorem reduceEquivalence_spec (h : Pointwise reduce g) (complement : Bool)
    {equivalences : List RangeEquivalence} (hsets : ∀ c ∈ equivalences, c.range.isNormalized = true)
    (hwidth : ∀ c ∈ equivalences,
      ∀ d ∈ equivalences, c.node = d.node → c.range.bitCount = d.range.bitCount) :
    (reduceEquivalence equivalences reduce complement = some none ∧
      ¬ ∃ x, equivalences ≠ [] ∧ ∀ c ∈ equivalences, c.node = x) ∨
    ∃ first rest range, equivalences = first :: rest ∧ (∀ c ∈ rest, c.node = first.node) ∧
      reduceEquivalence equivalences reduce complement = some (some ⟨first.node, range⟩) ∧
      range.bitCount = first.range.bitCount ∧ range.isNormalized = true ∧
      ∀ n < 2 ^ range.bitCount, range.covers n =
        ((rest.map fun c => c.range.covers n).foldl g (first.range.covers n) != complement) := by
  rcases equivalences with - | ⟨first, rest⟩
  · exact Or.inl ⟨rfl, fun ⟨_, hne, _⟩ => hne rfl⟩
  · by_cases hsame : ∀ c ∈ rest, c.node = first.node
    · right
      obtain ⟨r, hr, hrw, hrn, hrc⟩ := h.foldlM rest (hsets first (List.mem_cons_self ..))
        fun c hc => ⟨hsets c (List.mem_cons_of_mem _ hc),
          hwidth c (List.mem_cons_of_mem _ hc) first (List.mem_cons_self ..) (hsame c hc)⟩
      have hall : (rest.all fun c => c.node == first.node) = true :=
        List.all_eq_true.mpr fun c hc => beq_iff_eq.mpr (hsame c hc)
      have hnorm : r.normalize = r := IntervalSet.normalize_eq_self hrn
      have hreduce : reduceEquivalence (first :: rest) reduce complement =
          (if complement then r.complement else some r).map fun r => some ⟨first.node, r⟩ := by
        show (if (rest.all fun c => c.node == first.node) = true then _ else _) = _
        rw [if_pos hall, hr, Option.bind_some, hnorm]
      rw [hreduce]
      rcases complement with - | -
      · exact ⟨first, rest, r, rfl, hsame, rfl, hrw, hrn, fun n hn => by
          rw [hrc n (hrw ▸ hn), Bool.bne_false]⟩
      · obtain ⟨c, hc, hexact⟩ := IntervalSet.complement_spec hrn
        refine ⟨first, rest, c, rfl, hsame, ?_, hexact.bitCount.trans hrw, hexact.isNormalized,
          fun n hn => ?_⟩
        · rw [if_pos rfl, hc, Option.map_some]
        · have hn' : n < 2 ^ r.bitCount := hexact.bitCount ▸ hn
          rw [covers_eq_decide hexact hn', Bool.bne_true, ← hrc n (hrw ▸ hn'), decide_not]
          congr 1
          rw [Bool.eq_iff_iff, decide_eq_true_eq]
          exact and_iff_right rfl
    · refine Or.inl ⟨?_, fun ⟨x, _, hx⟩ => hsame fun c hc => ?_⟩
      · refine if_neg fun hall => hsame fun c hc => ?_
        exact beq_iff_eq.mp (List.all_eq_true.mp hall c hc)
      · exact (hx c (List.mem_cons_of_mem _ hc)).trans (hx first (List.mem_cons_self ..)).symm

/-! ## The sets of comparisons -/

/-- The set has the points for which a test holds. -/
structure Decides (s : IntervalSet) (w : ℕ) (test : ℕ → Bool) : Prop where
  bitCount : s.bitCount = w
  isNormalized : s.isNormalized = true
  covers : ∀ n < 2 ^ w, s.covers n = test n

theorem decides_of_exactly {s : IntervalSet} {w : ℕ} {test : ℕ → Bool}
    (hs : s.Exactly w fun b => test b.toNat = true) : Decides s w test where
  bitCount := hs.bitCount
  isNormalized := hs.isNormalized
  covers n hn := by rw [covers_eq_decide hs hn, Bool.decide_eq_true]

theorem decides_precise (limit : Bits) :
    Decides (IntervalSet.precise limit) limit.bitCount fun n => decide (n = limit.toNat) := by
  obtain ⟨hw, hn, hc⟩ := IntervalSet.precise_exactly limit
  refine decides_of_exactly ⟨hw, hn, fun b hb => ?_⟩
  rw [hc b hb, decide_eq_true_eq]
  exact ⟨congrArg Bits.toNat, Bits.ext hb⟩

theorem decides_complement {s : IntervalSet} {w : ℕ} {test : ℕ → Bool} (hs : Decides s w test) :
    ∃ c, s.complement = some c ∧ Decides c w fun n => !test n := by
  obtain ⟨c, hc, hw, hn, hcovers⟩ := IntervalSet.complement_spec hs.isNormalized
  refine ⟨c, hc, decides_of_exactly ⟨hw.trans hs.bitCount, hn, fun b hb => ?_⟩⟩
  have hb' : b.bitCount = s.bitCount := hb.trans hs.bitCount.symm
  rw [hcovers b hb', Bool.not_eq_true', ← hs.covers b.toNat (hb ▸ b.isLt), ← Bool.not_eq_true]
  exact not_congr (and_iff_right hb')

theorem decides_makeULtRange (limit : Bits) :
    Decides (makeULtRange limit) limit.bitCount fun n => decide (n < limit.toNat) := by
  unfold makeULtRange
  by_cases hzero : limit.isZero = true
  · rw [if_pos hzero]
    obtain ⟨hw, hn, hc⟩ := IntervalSet.empty_exactly limit.bitCount
    refine decides_of_exactly ⟨hw, hn, fun b hb => ?_⟩
    rw [hc b hb, decide_eq_true_eq, beq_iff_eq.mp hzero]
    exact (iff_false_intro (Nat.not_lt_zero _)).symm
  · rw [if_neg hzero]
    have hpos : 0 < limit.toNat := Nat.pos_of_ne_zero fun h => hzero (beq_iff_eq.mpr h)
    have hdec := BitsOps.decrement_toNat_of_pos hpos
    obtain ⟨hw, hn, hc⟩ := IntervalSet.ofBounds_exactly (Bits.zero limit.bitCount)
      (BitsOps.decrement limit) rfl (Nat.zero_le _)
    refine decides_of_exactly ⟨hw, hn, fun b hb => ?_⟩
    rw [hc b hb, decide_eq_true_eq]
    show 0 ≤ b.toNat ∧ _ ↔ _
    omega

theorem decides_makeUGtRange (limit : Bits) :
    Decides (makeUGtRange limit) limit.bitCount fun n => decide (limit.toNat < n) := by
  unfold makeUGtRange
  by_cases hones : limit.isAllOnes = true
  · rw [if_pos hones]
    obtain ⟨hw, hn, hc⟩ := IntervalSet.empty_exactly limit.bitCount
    refine decides_of_exactly ⟨hw, hn, fun b hb => ?_⟩
    have hle := b.toNat_le
    rw [hb] at hle
    rw [hc b hb, decide_eq_true_eq, beq_iff_eq.mp hones]
    exact (iff_false_intro hle.not_gt).symm
  · rw [if_neg hones]
    have hle := limit.toNat_le
    have hne : limit.toNat ≠ 2 ^ limit.bitCount - 1 := fun h => hones (beq_iff_eq.mpr h)
    have hinc := BitsOps.increment_toNat_of_lt (a := limit) (by omega)
    have hbounds : (BitsOps.increment limit).toNat ≤ (Bits.allOnes limit.bitCount).toNat := by
      show _ ≤ 2 ^ limit.bitCount - 1
      omega
    obtain ⟨hw, hn, hc⟩ := IntervalSet.ofBounds_exactly (BitsOps.increment limit)
      (Bits.allOnes limit.bitCount) rfl hbounds
    refine decides_of_exactly ⟨hw, hn, fun b hb => ?_⟩
    have hb' : b.bitCount = limit.bitCount := hb
    have hmax := b.toNat_le
    rw [hb'] at hmax
    rw [hc b hb, decide_eq_true_eq]
    show _ ∧ b.toNat ≤ 2 ^ limit.bitCount - 1 ↔ _
    omega

/-- The operands of a comparison with a literal. -/
def compareOperands (limit v : Bits) (literalOnRhs : Bool) : List Bits :=
  if literalOnRhs then [v, limit] else [limit, v]

/-- The set of a comparison decides it. -/
theorem compareEquivalence_spec (op : LogicOp) (limit : Bits) (x : ℕ) (literalOnRhs : Bool) :
    ∃ r, compareEquivalence op limit x literalOnRhs = some r ∧ ∀ e, r = some e → e.node = x ∧
      e.range.bitCount = limit.bitCount ∧ e.range.isNormalized = true ∧
      ∀ v : Bits, v.bitCount = limit.bitCount → ∀ env id operands h,
        LogicInterpreter.evalNode env id ⟨op, operands, .bits 1, h⟩
          ((compareOperands limit v literalOnRhs).map .bits) =
            some (.bits (BitsOps.ofBool (e.range.covers v.toNat))) := by
  have hbits : ∀ a b : Bits, a.bitCount = b.bitCount →
      decide (Value.bits a = Value.bits b) = decide (a.toNat = b.toNat) := by
    intro a b hab
    rw [decide_eq_decide, Value.bits.injEq]
    exact ⟨congrArg Bits.toNat, Bits.ext hab⟩
  -- each comparison is a test of the number of the operand
  have hspec : ∀ (range : IntervalSet) (test : ℕ → Bool), Decides range limit.bitCount test →
      (∀ v : Bits, v.bitCount = limit.bitCount → ∀ env id operands h,
        LogicInterpreter.evalNode env id ⟨op, operands, .bits 1, h⟩
          ((compareOperands limit v literalOnRhs).map .bits) =
            Interpreter.boolResult (.bits 1) (test v.toNat)) →
      ∀ e : RangeEquivalence, some ⟨x, range⟩ = some e → e.node = x ∧
        e.range.bitCount = limit.bitCount ∧ e.range.isNormalized = true ∧
        ∀ v : Bits, v.bitCount = limit.bitCount → ∀ env id operands h,
          LogicInterpreter.evalNode env id ⟨op, operands, .bits 1, h⟩
            ((compareOperands limit v literalOnRhs).map .bits) =
              some (.bits (BitsOps.ofBool (e.range.covers v.toNat))) := by
    rintro range test hrange htest e he
    cases he
    refine ⟨rfl, hrange.bitCount, hrange.isNormalized, fun v hv env id operands h => ?_⟩
    rw [htest v hv env id operands h, hrange.covers v.toNat (hv ▸ v.isLt),
      boolResult_one]
  unfold compareEquivalence
  split
  · refine ⟨_, rfl, hspec _ _ (decides_precise limit) fun v hv env id operands h => ?_⟩
    rcases literalOnRhs with - | -
    · show Interpreter.boolResult (.bits 1) (decide (Value.bits limit = .bits v) == true) = _
      rw [hbits _ _ hv.symm, beq_true]
      exact congrArg _ (decide_eq_decide.mpr eq_comm)
    · show Interpreter.boolResult (.bits 1) (decide (Value.bits v = .bits limit) == true) = _
      rw [hbits _ _ hv, beq_true]
  · obtain ⟨c, hc, hdecides⟩ := decides_complement (decides_precise limit)
    rw [hc]
    refine ⟨_, rfl, hspec _ _ hdecides fun v hv env id operands h => ?_⟩
    rcases literalOnRhs with - | -
    · show Interpreter.boolResult (.bits 1) (decide (Value.bits limit = .bits v) == false) = _
      rw [hbits _ _ hv.symm, beq_false]
      exact congrArg (fun b => Interpreter.boolResult (.bits 1) (!b)) (decide_eq_decide.mpr eq_comm)
    · show Interpreter.boolResult (.bits 1) (decide (Value.bits v = .bits limit) == false) = _
      rw [hbits _ _ hv, beq_false]
  · refine ⟨_, rfl, ?_⟩
    rcases literalOnRhs with - | -
    · exact hspec _ _ (decides_makeUGtRange limit) fun v hv env id operands h => rfl
    · exact hspec _ _ (decides_makeULtRange limit) fun v hv env id operands h => rfl
  · refine ⟨_, rfl, ?_⟩
    rcases literalOnRhs with - | -
    · exact hspec _ _ (decides_makeULtRange limit) fun v hv env id operands h => rfl
    · exact hspec _ _ (decides_makeUGtRange limit) fun v hv env id operands h => rfl
  · exact ⟨none, rfl, fun e he => by cases he⟩

end ComparisonSimplification

end Xls
