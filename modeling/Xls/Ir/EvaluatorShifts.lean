/-
# Shifts, selects and slice updates of the boolean evaluator

The evaluator shifts by a one-hot select over the amounts which its operand can express, with
one more case for over-shifting; `bits_ops` turns the amount into a number and joins slices.
For the boolean instance the two agree, whatever the width of the amount.

* `bool_shift_left`, `bool_shift_right` : a shift by a select returns the shifted vector;
* `bool_bitSliceUpdate_eq` : the masked combination is the joined slices;
* `bool_select_eq`, `bool_prioritySelect_eq`, `bool_oneHotSelect_eq` : what the selects return;
* `bool_shifts_and_selects_eq_bitsOps` : all of them against `bits_ops`.
-/
import Xls.Ir.EvaluatorDivision

namespace Xls
namespace Evaluator

open BoolList

/-! ## Shifts -/

/-- The numbers below a bound are taken from a range. -/
theorem takeWhile_range_lt {p : ℕ → Bool} {bound : ℕ} (hp : ∀ i, p i = true ↔ i < bound) (n : ℕ) :
    (List.range n).takeWhile p = List.range (min n bound) := by
  induction n with
  | zero => simp
  | succ n ih =>
    rw [List.range_succ]
    by_cases hn : n < bound
    · rw [List.takeWhile_append_of_pos, Nat.min_eq_left hn, List.range_succ]
      · rw [List.takeWhile_cons_of_pos ((hp n).mpr hn), List.takeWhile_nil]
      · intro i hi
        exact (hp i).mpr ((List.mem_range.mp hi).trans hn)
    · rw [List.takeWhile_append, ih, List.length_range, List.length_range,
        List.takeWhile_cons_of_neg fun h => hn ((hp n).mp h), List.append_nil,
        Nat.min_eq_right (not_lt.mp hn), Nat.min_eq_right (by omega)]
      split
      · rename_i heq
        rw [heq]
      · rfl

/-- The selector of a shift is one-hot, and marks the amount or, from the size of the input on,
the last case. -/
theorem bool_shiftSelector (input amount : List Bool) : ∃ count,
    min (value amount) input.length < count ∧ count ≤ input.length + 1 ∧
      bool.shiftSelector input amount =
        some ((List.range count).map fun i => decide (min (value amount) input.length = i)) := by
  have hlt := value_lt amount
  unfold shiftSelector
  by_cases hover : input.length < 2 ^ amount.length
  · -- over-shifting can be expressed
    obtain ⟨bound, hbound, hl, hvalue⟩ := bool_uBitsVector hover
    have hfits := Bits.minBitCountUnsigned_le_iff.mpr hover
    refine ⟨input.length + 1, by omega, le_rfl, ?_⟩
    rw [takeWhile_range_lt fun i => by
        rw [decide_eq_true_eq, Bits.minBitCountUnsigned_le_iff], Nat.min_eq_left hover.le,
      bool_mapM_equalsConstant hover.le]
    simp only [Option.bind_eq_bind, Option.bind_some, hbound, bool_uLessThan hl.symm, hvalue, hfits,
      if_true]
    rw [List.range_succ, List.map_append]
    congr 2
    · refine List.map_congr_left fun i hi => ?_
      have := List.mem_range.mp hi
      rw [decide_eq_decide]
      omega
    · show [!decide (value amount < input.length)] = [decide _]
      rw [← decide_not, List.cons.injEq]
      refine ⟨?_, rfl⟩
      rw [decide_eq_decide]
      omega
  · have hfits := mt Bits.minBitCountUnsigned_le_iff.mp hover
    refine ⟨2 ^ amount.length, by omega, by omega, ?_⟩
    rw [takeWhile_range_lt fun i => by
        rw [decide_eq_true_eq, Bits.minBitCountUnsigned_le_iff],
      Nat.min_eq_right (not_lt.mp hover), bool_mapM_equalsConstant le_rfl,
      Nat.min_eq_left (show value amount ≤ input.length by omega)]
    simp only [Option.bind_eq_bind, Option.bind_some, hfits, if_false]

theorem length_shiftCases {input : List Bool} {count : ℕ} (right arithmetic : Bool) :
    ∀ c ∈ bool.shiftCases input count right arithmetic, c.length = input.length := by
  intro c hc
  rcases right with _ | _
  · obtain ⟨i, hi, rfl⟩ := List.mem_map.mp hc
    have := List.mem_range.mp hi
    simp
    omega
  · obtain ⟨i, hi, rfl⟩ := List.mem_map.mp hc
    have := List.mem_range.mp hi
    simp
    omega

variable {cases : List (List Bool)} {w : ℕ} {selector : List Bool}

/-- A one-hot selector picks the case of its number. -/
theorem bool_oneHotSelect_range {k : ℕ} (hk : k < cases.length) (hcases : ∀ c ∈ cases, c.length = w)
    (canBeZero : Bool) :
    bool.oneHotSelect ((List.range cases.length).map fun i => decide (k = i)) cases canBeZero =
      some cases[k] := by
  have hw : cases[k].length = w := hcases _ (List.getElem_mem hk)
  have hone := bool_oneHotSelect (cases.take k) (cases.drop (k + 1)) cases[k] canBeZero
    (fun x hx => (hcases x (List.mem_of_mem_take hx)).trans hw.symm)
    (fun x hx => (hcases x (List.mem_of_mem_drop hx)).trans hw.symm)
  rw [map_decide_range hk]
  rw [List.length_take, Nat.min_eq_left hk.le, List.length_drop,
    List.cons_getElem_drop_succ, List.take_append_drop] at hone
  exact hone

/-- A shift returns the case of the amount. -/
theorem bool_shift_eq (input amount : List Bool) (right arithmetic : Bool) : ∃ count,
    ∃ h : min (value amount) input.length < (bool.shiftCases input count right arithmetic).length,
      bool.shift input amount right arithmetic =
          some (bool.shiftCases input count right arithmetic)[min (value amount) input.length] ∧
        min (value amount) input.length < count := by
  obtain ⟨count, hlt, -, hselector⟩ := bool_shiftSelector input amount
  have hcount : (bool.shiftCases input count right arithmetic).length = count := by
    cases right <;> simp [shiftCases]
  have h : min (value amount) input.length < (bool.shiftCases input count right arithmetic).length :=
    hcount.symm ▸ hlt
  refine ⟨count, h, ?_, hlt⟩
  have hone := bool_oneHotSelect_range h (length_shiftCases right arithmetic) false
  rw [hcount] at hone
  rw [shift, hselector]
  simpa using hone

/-- A shift to the left brings in zeros below. -/
theorem bool_shift_left (input amount : List Bool) : bool.shiftLeftLogical input amount =
    some (List.replicate (min (value amount) input.length) false ++
      input.take (input.length - min (value amount) input.length)) := by
  obtain ⟨count, h, hshift, hlt⟩ := bool_shift_eq input amount false false
  set k := min (value amount) input.length with hk
  rw [shiftLeftLogical, hshift]
  have hle : k ≤ input.length := Nat.min_le_right _ _
  simp only [shiftCases, Bool.false_eq_true, if_false, List.getElem_map, List.getElem_range]
  rw [List.drop_append_of_le_length (by simp), List.drop_replicate,
    show count - 1 - (count - 1 - k) = k by omega, List.take_append, List.take_replicate,
    List.length_replicate, Nat.min_eq_right hle]
  rfl

/-- A shift to the right brings in zeros, or copies of the sign bit, above. -/
theorem bool_shift_right (input amount : List Bool) (arithmetic : Bool) :
    bool.shift input amount true arithmetic = some (input.drop (min (value amount) input.length) ++
        List.replicate (min (value amount) input.length) (arithmetic && input.getLastD false)) := by
  obtain ⟨count, h, hshift, hlt⟩ := bool_shift_eq input amount true arithmetic
  set k := min (value amount) input.length with hk
  rw [hshift]
  have hle : k ≤ input.length := Nat.min_le_right _ _
  have hpad : (if arithmetic then input.getLastD bool.zero else bool.zero) =
      (arithmetic && input.getLastD false) := by
    cases arithmetic <;> rfl
  simp only [shiftCases, if_true, List.getElem_map, List.getElem_range, hpad]
  rw [List.drop_append_of_le_length hle, List.take_append, List.take_of_length_le (by simp),
    List.take_replicate, List.length_drop, show input.length - (input.length - k) = k by omega,
    Nat.min_eq_left (by omega)]

/-! ## Shifts against `bits_ops` -/

theorem bool_shiftLeftLogical_eq (b amount : Bits) :
    bool.shiftLeftLogical (bool.bitsToVector b) (bool.bitsToVector amount) =
      some (bool.bitsToVector (BitsOps.shiftLeftLogical b amount.toNat)) := by
  rw [bool_shift_left]
  congr 1
  refine eq_bool_bitsToVector ?_ ?_
  · simp [BitsOps.shiftLeftLogical]
  · rw [value_append, value_replicate_false, value_take, value_bool_bitsToVector,
      List.length_replicate, BitsOps.shiftLeftLogical, BitsOps.append_toNat]
    simp [BitsOps.slice, Nat.mul_comm]

/-- The bits which stay when a vector is shifted to the right. -/
theorem slice_toNat_of_le (b : Bits) {k : ℕ} (hk : k ≤ b.bitCount) :
    (BitsOps.slice b k (b.bitCount - k)).toNat = b.toNat / 2 ^ k := by
  refine Nat.mod_eq_of_lt (Nat.div_lt_of_lt_mul ?_)
  rw [← pow_add, Nat.add_sub_cancel' hk]
  exact b.isLt

theorem bool_shiftRightLogical_eq (b amount : Bits) :
    bool.shiftRightLogical (bool.bitsToVector b) (bool.bitsToVector amount) =
      some (bool.bitsToVector (BitsOps.shiftRightLogical b amount.toNat)) := by
  have hle := Nat.min_le_right amount.toNat b.bitCount
  rw [shiftRightLogical, bool_shift_right, Bool.false_and]
  congr 1
  refine eq_bool_bitsToVector ?_ ?_
  · simp [BitsOps.shiftRightLogical]
  · rw [value_append, value_drop, BitsOps.shiftRightLogical, BitsOps.append_toNat,
      slice_toNat_of_le b hle]
    simp

theorem bool_shiftRightArith_eq (b amount : Bits) :
    bool.shiftRightArith (bool.bitsToVector b) (bool.bitsToVector amount) =
      some (bool.bitsToVector (BitsOps.shiftRightArith b amount.toNat)) := by
  have hle := Nat.min_le_right amount.toNat b.bitCount
  rw [shiftRightArith, bool_shift_right, value_bool_bitsToVector, Bool.true_and]
  congr 1
  refine eq_bool_bitsToVector ?_ ?_
  · simp only [List.length_append, List.length_drop, length_bool_bitsToVector,
      List.length_replicate, BitsOps.shiftRightArith, BitsOps.append_bitCount,
      BitsOps.slice_bitCount]
    split
    · rw [Bits.allOnes_bitCount]
      omega
    · rw [Bits.zero_bitCount]
      omega
  · rw [value_append, value_drop, value_bool_bitsToVector, List.length_drop,
      length_bool_bitsToVector, BitsOps.shiftRightArith, BitsOps.append_toNat,
      slice_toNat_of_le b hle, BitsOps.slice_bitCount]
    rcases Nat.eq_zero_or_pos b.bitCount with hzero | hpos
    · have hmin : min amount.toNat b.bitCount = 0 := by omega
      rw [hmin]
      split <;> simp
    · rw [getLastD_bitsToVector hpos]
      cases b.msb
      · simp
      · rw [if_pos rfl, value_replicate_true, Bits.allOnes_toNat, Nat.mul_comm, Nat.add_comm]

/-! ## Slice updates -/

theorem naryOp_pair {f : Bool → Bool → Bool} {a b : List Bool} (h : a.length ≤ b.length) :
    naryOp f [a, b] = some (List.zipWith f a b) := by
  rw [naryOp, if_pos fun c hc => List.mem_singleton.mp hc ▸ h]
  rfl

/-- The elements of a vector which has been shifted to the left. -/
theorem getD_replicate_append (k n i : ℕ) (v : List Bool) :
    (List.replicate k false ++ v.take n).getD i false =
      (decide (k ≤ i ∧ i - k < n) && v.getD (i - k) false) := by
  by_cases hk : k ≤ i
  · rw [List.getD_append_right _ _ _ _ (by simpa using hk), List.getD_eq_getElem?_getD,
      List.getElem?_take]
    by_cases hn : i - k < n <;> simp [hk, hn]
  · rw [List.getD_append _ _ _ _ (by simpa using hk)]
    simp [hk]

/-- The vector of a slice update, element by element. -/
theorem bool_bitSliceUpdate (input start v : List Bool) :
    bool.bitSliceUpdate input start v = some ((List.range input.length).map fun i =>
      let k := min (value start) input.length
      if k ≤ i ∧ i - k < v.length then v.getD (i - k) false else input.getD i false) := by
  set k := min (value start) input.length with hk
  set ones := bool.bitsToVector
    (BitsOps.zeroExtend (Bits.allOnes (min input.length v.length)) input.length) with hones
  have honesLength : ones.length = input.length := by
    rw [length_bool_bitsToVector]
    exact BitsOps.zeroExtend_bitCount (Nat.min_le_left _ _)
  have honesGet : ∀ (i : ℕ) (hi : i < ones.length), ones[i] = decide (i < v.length) := by
    intro i hi
    have hvalue := testBit_value ones i
    rw [hones, value_bool_bitsToVector, BitsOps.zeroExtend_toNat, Bits.allOnes_toNat,
      Nat.testBit_two_pow_sub_one, ← hones, List.getD_eq_getElem _ _ hi] at hvalue
    rw [← hvalue, decide_eq_decide]
    omega
  obtain ⟨adjusted, hadjusted, hadjustedLength, hadjustedGet⟩ : ∃ adjusted,
      bool.adjustValue v input.length = some adjusted ∧ adjusted.length = input.length ∧
        ∀ (i : ℕ) (hi : i < adjusted.length), adjusted[i] = v.getD i false := by
    unfold adjustValue
    split
    · rename_i hwide
      refine ⟨v.take input.length, ?_, by simpa using hwide, ?_⟩
      · rw [bitSlice, if_pos (by omega), List.drop_zero]
      · intro i hi
        rw [List.getElem_take, List.getD_eq_getElem]
    · refine ⟨v ++ List.replicate (input.length - v.length) false, ?_, ?_, ?_⟩
      · rw [zeroExtend, if_pos (by omega)]
        simp [concat, bool]
      · simp
        omega
      · intro i hi
        rw [List.getElem_append]
        split
        · rw [List.getD_eq_getElem]
        · rw [List.getElem_replicate, List.getD_eq_default _ _ (by omega)]
  unfold bitSliceUpdate
  simp only [← hones]
  rw [bool_shift_left, honesLength]
  simp only [Option.bind_eq_bind, Option.bind_some, hadjusted]
  rw [bool_shift_left, hadjustedLength]
  set shiftedOnes := List.replicate k false ++ ones.take (input.length - k) with hshiftedOnes
  set shiftedValue := List.replicate k false ++ adjusted.take (input.length - k) with hshiftedValue
  have hlo : shiftedOnes.length = input.length := by simp [hshiftedOnes]; omega
  have hlv : shiftedValue.length = input.length := by simp [hshiftedValue]; omega
  have hkeep : bool.bitwiseAnd [bool.bitwiseNot shiftedOnes, input] =
      some (List.zipWith Bool.and (shiftedOnes.map Bool.not) input) :=
    naryOp_pair (by rw [bitwiseNot, List.length_map, hlo])
  have hjoin : bool.bitwiseOr [List.zipWith Bool.and (shiftedOnes.map Bool.not) input, shiftedValue] =
      some (List.zipWith Bool.or (List.zipWith Bool.and (shiftedOnes.map Bool.not) input)
        shiftedValue) :=
    naryOp_pair (by simp [hlv])
  rw [hkeep, Option.bind_some, Option.bind_some, hjoin]
  congr 1
  refine List.ext_getElem (by simp [hlo, hlv]) fun i hi _ => ?_
  have hin : i < input.length := by simpa [hlo, hlv] using hi
  have hones' := getD_replicate_append k (input.length - k) i ones
  have hvalue' := getD_replicate_append k (input.length - k) i adjusted
  rw [← hshiftedOnes, List.getD_eq_getElem _ _ (by omega)] at hones'
  rw [← hshiftedValue, List.getD_eq_getElem _ _ (by omega)] at hvalue'
  rw [List.getElem_zipWith, List.getElem_zipWith, List.getElem_map, List.getElem_map,
    List.getElem_range, hones', hvalue']
  by_cases hki : k ≤ i
  · rw [List.getD_eq_getElem ones _ (by omega), honesGet,
      List.getD_eq_getElem adjusted _ (by omega), hadjustedGet, List.getD_eq_getElem input _ hin]
    by_cases hv : i - k < v.length
    · simp [hki, hv, show i - k < input.length - k by omega]
    · simp [hki, hv]
  · rw [List.getD_eq_getElem input _ hin]
    simp [hki]

theorem getD_bool_bitsToVector (b : Bits) (i : ℕ) :
    (bool.bitsToVector b).getD i false = b.toNat.testBit i := by
  rw [← testBit_value, value_bool_bitsToVector]

theorem testBit_append (a b : Bits) (i : ℕ) : (BitsOps.append a b).toNat.testBit i =
    if i < b.bitCount then b.toNat.testBit i else a.toNat.testBit (i - b.bitCount) := by
  rw [BitsOps.append_toNat, Nat.mul_comm, Nat.testBit_two_pow_mul_add _ b.isLt]

theorem testBit_slice (b : Bits) (start width i : ℕ) :
    (BitsOps.slice b start width).toNat.testBit i =
      (decide (i < width) && b.toNat.testBit (i + start)) := by
  show (b.toNat / 2 ^ start % 2 ^ width).testBit i = _
  rw [Nat.testBit_mod_two_pow, Nat.testBit_div_two_pow]

/-- A slice update is the joined slices. -/
theorem bool_bitSliceUpdate_eq (toUpdate start updateValue : Bits) :
    bool.bitSliceUpdate (bool.bitsToVector toUpdate) (bool.bitsToVector start)
        (bool.bitsToVector updateValue) =
      some (bool.bitsToVector (BitsOps.bitSliceUpdate toUpdate start.toNat updateValue)) := by
  rw [bool_bitSliceUpdate, value_bool_bitsToVector, length_bool_bitsToVector]
  congr 1
  have hcount : (BitsOps.bitSliceUpdate toUpdate start.toNat updateValue).bitCount =
      toUpdate.bitCount := by
    unfold BitsOps.bitSliceUpdate
    split
    · rfl
    · simp [BitsOps.concat]
      omega
  refine List.ext_getElem (by simp [hcount]) fun i hi hi' => ?_
  have hin : i < toUpdate.bitCount := by simpa using hi
  rw [List.getElem_map, List.getElem_range, length_bool_bitsToVector,
    ← List.getD_eq_getElem _ false hi']
  simp only [getD_bool_bitsToVector]
  unfold BitsOps.bitSliceUpdate
  by_cases hstart : start.toNat ≥ toUpdate.bitCount
  · -- nothing is updated
    rw [if_pos hstart]
    exact if_neg fun h => absurd h.1 (by omega)
  · rw [if_neg hstart, Nat.min_eq_left (by omega)]
    simp only [BitsOps.concat, List.foldl_cons, List.foldl_nil, testBit_append, testBit_slice,
      BitsOps.slice_bitCount]
    by_cases hbelow : i < start.toNat
    · simp [hbelow]
    · by_cases hinside : i - start.toNat < updateValue.bitCount
      · have hslice : i - start.toNat < toUpdate.bitCount - start.toNat := by omega
        simp [hinside, hslice, not_lt.mp hbelow]
      · -- above the updated slice
        have hmsb : min toUpdate.bitCount (start.toNat + updateValue.bitCount) =
            start.toNat + updateValue.bitCount := Nat.min_eq_right (by omega)
        have hwidth : min updateValue.bitCount (toUpdate.bitCount - start.toNat) =
            updateValue.bitCount := Nat.min_eq_left (by omega)
        simp only [hbelow, hinside, hwidth, hmsb, and_false, if_false]
        rw [show i - start.toNat - updateValue.bitCount + (start.toNat + updateValue.bitCount) = i
          by omega, decide_eq_true (by omega), Bool.true_and, if_pos (by omega)]

/-! ## Selects -/

/-- A select returns the case whose number the selector is, and the default beyond the cases. -/
theorem bool_select_eq {defaultValue : Option (List Bool)} (hne : cases ≠ [])
    (hcases : ∀ c ∈ cases, c.length = w) (hdefault : ∀ d ∈ defaultValue, d.length = w)
    (hfit : cases.length ≤ 2 ^ selector.length) (hsize : cases.length ≤ 2 ^ 64)
    (hvalue : value selector < cases.length ∨ defaultValue.isSome) :
    bool.select selector cases defaultValue = cases[value selector]?.or defaultValue := by
  by_cases hs : value selector < cases.length
  · rw [bool_select_case hcases hdefault hfit hsize hs, List.getElem?_eq_getElem hs]
    rfl
  · rcases defaultValue with _ | d
    · exact absurd hvalue (by simpa using hs)
    · have hd : d.length = w := hdefault d rfl
      rw [bool_select_default (fun c hc => (hcases c hc).trans hd.symm) hne hfit hsize (not_lt.mp hs),
        List.getElem?_eq_none (not_lt.mp hs), Option.none_or]

/-- The loop of a priority select leaves the first case whose element of the selector is set. -/
theorem bool_priorityResult (hcases : ∀ c ∈ cases, c.length = w) :
    bool.priorityResult selector cases w =
      (((selector.zip cases).find? Prod.fst).map Prod.snd).getD (List.replicate w false) := by
  induction selector generalizing cases with
  | nil => rfl
  | cons b selector ih =>
    rcases cases with _ | ⟨c, cases⟩
    · rfl
    · have hc : c.length = w := hcases c (by simp)
      have hrest := ih fun x hx => hcases x (List.mem_cons_of_mem _ hx)
      have hlength : (bool.priorityResult selector cases w).length = c.length := by
        rw [hrest]
        rcases hfind : (selector.zip cases).find? Prod.fst with _ | p
        · simpa using hc.symm
        · exact (hcases _ (List.mem_cons_of_mem _
            (List.of_mem_zip (List.mem_of_find?_eq_some hfind)).2)).trans hc.symm
      rw [priorityResult, List.zip_cons_cons]
      show List.zipWith _ (bool.priorityResult selector cases w) c = _
      rcases b with _ | _
      · rw [List.find?_cons_of_neg (by simp), ← hrest]
        refine List.ext_getElem (by simp [hlength]) fun i hi hi' => ?_
        simp [bool]
      · refine List.ext_getElem (by simp [hlength]) fun i hi hi' => ?_
        simp [bool]

/-- A priority select returns the first case whose element of the selector is set, and zeros
when there is none. -/
theorem bool_prioritySelect_eq (hne : cases ≠ []) (hlength : selector.length = cases.length)
    (hcases : ∀ c ∈ cases, c.length = w) : bool.prioritySelect selector cases true =
      some ((((selector.zip cases).find? Prod.fst).map Prod.snd).getD
        (List.replicate w false)) := by
  rw [prioritySelect, selectInternal_of_width bool true hne hlength hcases, if_pos rfl,
    bool_priorityResult hcases]

/-- The loop of a one-hot select collects, element by element, the cases which are set. -/
theorem foldl_oneHot {pairs : List (Bool × List Bool)} {r : List Bool}
    (hpairs : ∀ p ∈ pairs, p.2.length = r.length) :
    pairs.foldl (fun result (s, c) =>
        List.zipWith (fun r e => bool.or r (bool.and e s)) result c) r =
      (List.range r.length).map fun j =>
        r.getD j false || pairs.any fun p => p.1 && p.2.getD j false := by
  induction pairs generalizing r with
  | nil =>
    refine List.ext_getElem (by simp) fun i hi _ => ?_
    rw [List.getElem_map, List.getElem_range, List.any_nil, Bool.or_false,
      List.getD_eq_getElem r _ hi]
    rfl
  | cons p pairs ih =>
    have hp : p.2.length = r.length := hpairs p (by simp)
    have hstep : (List.zipWith (fun r e => bool.or r (bool.and e p.1)) r p.2).length =
        r.length := by simp [hp]
    rw [List.foldl_cons, ih fun q hq => (hpairs q (List.mem_cons_of_mem _ hq)).trans hstep.symm,
      hstep]
    refine List.map_congr_left fun j hj => ?_
    have hj' := List.mem_range.mp hj
    rw [List.any_cons, ← Bool.or_assoc, List.getD_eq_getElem _ _ (hstep.symm ▸ hj'),
      List.getElem_zipWith, List.getD_eq_getElem r _ hj', List.getD_eq_getElem p.2 _ (hp ▸ hj')]
    show (r[j] || (p.2[j] && p.1) || _) = _
    rw [Bool.and_comm p.1]

/-- A one-hot select is the disjunction of the cases whose element of the selector is set. -/
theorem bool_oneHotSelect_eq (hne : cases ≠ []) (hlength : selector.length = cases.length)
    (hcases : ∀ c ∈ cases, c.length = w) : bool.oneHotSelect selector cases true =
      some ((List.range w).map fun j =>
        (selector.zip cases).any fun p => p.1 && p.2.getD j false) := by
  rw [oneHotSelect, selectInternal_of_width bool true hne hlength hcases]
  rw [oneHotResult, foldl_oneHot fun p hp => by
    rw [hcases p.2 (List.of_mem_zip hp).2]; exact (List.length_replicate ..).symm]
  simp [bool]

/-! ## All of them -/

/-- **Shifts, slice updates and selects.**  A shift or a slice update of the boolean evaluator
is that of `bits_ops` by the number of its amount, which is read at any width.  Among cases of
one width, as many as the selector can number, a select is the indexing of the cases, with the
default beyond them; with one element of the selector for each case, a priority select returns
the first case which is set and a one-hot select the disjunction of those which are set. -/
theorem bool_shifts_and_selects_eq_bitsOps : (∀ input amount : Bits,
      bool.shiftLeftLogical (bool.bitsToVector input) (bool.bitsToVector amount) =
          some (bool.bitsToVector (BitsOps.shiftLeftLogical input amount.toNat)) ∧
        bool.shiftRightLogical (bool.bitsToVector input) (bool.bitsToVector amount) =
          some (bool.bitsToVector (BitsOps.shiftRightLogical input amount.toNat)) ∧
        bool.shiftRightArith (bool.bitsToVector input) (bool.bitsToVector amount) =
          some (bool.bitsToVector (BitsOps.shiftRightArith input amount.toNat))) ∧
    (∀ toUpdate start updateValue : Bits,
      bool.bitSliceUpdate (bool.bitsToVector toUpdate) (bool.bitsToVector start)
          (bool.bitsToVector updateValue) =
        some (bool.bitsToVector (BitsOps.bitSliceUpdate toUpdate start.toNat updateValue))) ∧
    (∀ (cases : List (List Bool)) (w : ℕ), cases ≠ [] → (∀ c ∈ cases, c.length = w) →
      (∀ (selector : List Bool) (defaultValue : Option (List Bool)),
        (∀ d ∈ defaultValue, d.length = w) → cases.length ≤ 2 ^ selector.length →
        cases.length ≤ 2 ^ 64 → (value selector < cases.length ∨ defaultValue.isSome) →
        bool.select selector cases defaultValue = cases[value selector]?.or defaultValue) ∧
      ∀ selector : List Bool, selector.length = cases.length →
        bool.prioritySelect selector cases true =
            some ((((selector.zip cases).find? Prod.fst).map Prod.snd).getD
              (List.replicate w false)) ∧
          bool.oneHotSelect selector cases true = some ((List.range w).map fun j =>
            (selector.zip cases).any fun p => p.1 && p.2.getD j false)) := by
  refine ⟨fun input amount => ?_, bool_bitSliceUpdate_eq, fun cases w hne hcases => ?_⟩
  · exact ⟨bool_shiftLeftLogical_eq input amount, bool_shiftRightLogical_eq input amount,
      bool_shiftRightArith_eq input amount⟩
  · constructor
    · intro selector defaultValue hdefault hfit hsize hvalue
      exact bool_select_eq hne hcases hdefault hfit hsize hvalue
    · intro selector hlength
      exact ⟨bool_prioritySelect_eq hne hlength hcases, bool_oneHotSelect_eq hne hlength hcases⟩

/-- Of three cases `1`, `2` and `3` a selector `2` picks the last, a priority select with the
last two set the middle one, and a one-hot select `3`. -/
theorem bool_shifts_and_selects_three :
    let cases := [[true, false], [false, true], [true, true]]
    bool.select [false, true] cases (some [false, false]) = some [true, true] ∧
      bool.prioritySelect [false, true, true] cases true = some [false, true] ∧
      bool.oneHotSelect [false, true, true] cases true = some [true, true] := by
  have h := bool_shifts_and_selects_eq_bitsOps.2.2
    [[true, false], [false, true], [true, true]] 2 (by decide) (by decide)
  have hset := h.2 [false, true, true] rfl
  exact ⟨h.1 [false, true] (some [false, false]) (by decide) (by decide) (by decide)
    (Or.inl (by decide)), hset.1, hset.2⟩

end Evaluator
end Xls
