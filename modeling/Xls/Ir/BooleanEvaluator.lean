/-
# The boolean instance of the abstract evaluator

What the operations of `Evaluator.bool` compute, as facts about the numbers written by
their operands: comparisons decide the comparison of numbers, addition and negation are
arithmetic modulo a power of two, and a select returns the case its selector chooses.
-/
import Xls.Ir.AbstractEvaluator
import Xls.Lib.BoolList

namespace Xls
namespace Evaluator

open BoolList

/-! ## Constants and comparisons -/

theorem bool_zero : bool.zero = false := rfl
theorem bool_one : bool.one = true := rfl

theorem bool_bitsToVector (b : Bits) :
    bool.bitsToVector b = (List.range b.bitCount).map b.toNat.testBit := by
  refine List.map_congr_left fun i _ => ?_
  show (if b.toNat.testBit i then true else false) = b.toNat.testBit i
  cases b.toNat.testBit i <;> rfl

@[simp] theorem length_bool_bitsToVector (b : Bits) :
    (bool.bitsToVector b).length = b.bitCount := by
  rw [bool_bitsToVector, List.length_map, List.length_range]

@[simp] theorem value_bool_bitsToVector (b : Bits) : value (bool.bitsToVector b) = b.toNat := by
  rw [bool_bitsToVector, value_map_testBit, Nat.mod_eq_of_lt b.isLt]

/-- A vector is the image of the bits with its length and its number. -/
theorem eq_bool_bitsToVector {v : List Bool} {b : Bits} (hl : v.length = b.bitCount)
    (hv : value v = b.toNat) : v = bool.bitsToVector b :=
  eq_of_value_eq (by simpa using hl) (by simpa using hv)

variable {b a c s : List Bool} {n : ℕ}

/-- A constant which fits is written by a vector of the given width. -/
theorem bool_uBitsVector {w : ℕ} (h : n < 2 ^ w) :
    ∃ v, bool.uBitsVector n w = some v ∧ v.length = w ∧ value v = n :=
  ⟨bool.bitsToVector ⟨w, n, h⟩, by simp [uBitsVector, Bits.uBits, h], by simp, by simp⟩

/-- The loop of `Equals` from a given result. -/
theorem foldl_equals (a b : List Bool) (r : Bool) (h : a.length = b.length) :
    (a.zip b).foldl (fun result (x, y) =>
      bool.and result (bool.or (bool.and x y) (bool.and (bool.not x) (bool.not y)))) r =
      (r && decide (a = b)) := by
  induction a generalizing b r with
  | nil =>
    simp [List.length_eq_zero_iff.mp h.symm]
  | cons x a ih =>
    rcases b with _ | ⟨y, b⟩
    · cases h
    · rw [List.zip_cons_cons, List.foldl_cons, ih b _ (by simpa using h)]
      cases r <;> cases x <;> cases y <;> simp [bool]

theorem bool_equals (h : a.length = b.length) : bool.equals a b = some (decide (a = b)) := by
  rw [equals, if_pos h, foldl_equals a b _ h]
  simp [bool]

/-- The loop of `ULessThan`: the result compares the numbers, and as long as it is not
set `upper_bits_lte` says that they are equal. -/
theorem foldr_uLessThanStep (a b : List Bool) (h : a.length = b.length) :
    ∀ s, s = (a.zip b).foldr bool.uLessThanStep (false, true) →
      s.1 = decide (value a < value b) ∧ (s.1 = false → s.2 = decide (value a = value b)) := by
  induction a generalizing b with
  | nil =>
    rintro s rfl
    simp [List.length_eq_zero_iff.mp h.symm]
  | cons x a ih =>
    rcases b with _ | ⟨y, b⟩
    · cases h
    · rintro s rfl
      obtain ⟨h1, h2⟩ := ih b (by simpa using h) _ rfl
      rw [List.zip_cons_cons, List.foldr_cons]
      set t := (a.zip b).foldr bool.uLessThanStep (false, true)
      rcases t with ⟨lt, lte⟩
      simp only at h1 h2
      subst h1
      by_cases hlt : value a < value b
      · have : x.toNat + 2 * value a < y.toNat + 2 * value b := by
          have := x.toNat_le
          omega
        simp [uLessThanStep, bool, hlt, this]
      · rw [h2 (by simpa using hlt)]
        by_cases heq : value a = value b
        · cases x <;> cases y <;> simp [uLessThanStep, bool, heq]
        · have : ¬ x.toNat + 2 * value a < y.toNat + 2 * value b := by
            have := y.toNat_le
            omega
          have hne : x.toNat + 2 * value a ≠ y.toNat + 2 * value b := by
            have := y.toNat_le
            omega
          simp [uLessThanStep, bool, hlt, heq, this, hne]

theorem bool_uLessThan (h : a.length = b.length) :
    bool.uLessThan a b = some (decide (value a < value b)) := by
  rw [uLessThan, if_pos h]
  exact congrArg some (foldr_uLessThanStep a b h _ rfl).1

theorem bool_equalsConstant {i : ℕ} (h : i < 2 ^ a.length) :
    bool.equalsConstant a i = some (decide (value a = i)) := by
  obtain ⟨v, hv, hl, rfl⟩ := bool_uBitsVector h
  rw [equalsConstant, hv]
  show bool.equals a v = _
  rw [bool_equals hl.symm]
  exact congrArg some (decide_eq_decide.mpr (value_eq_iff hl.symm).symm)

theorem bool_orReduce (d : List Bool) : bool.orReduce d = [decide (0 < value d)] := by
  have hfold : ∀ (v : List Bool) (r : Bool), v.foldl Bool.or r = (r || decide (true ∈ v)) := by
    intro v
    induction v with
    | nil => simp
    | cons b v ih => intro r; rw [List.foldl_cons, ih]; cases r <;> cases b <;> simp
  show [d.foldl Bool.or false] = _
  rw [hfold, Bool.false_or, decide_eq_decide.mpr (value_pos_iff d)]

/-! ## Sums -/

theorem bool_fullAdder (a b c : Bool) : (bool.fullAdder a b c).sum.toNat +
    2 * (bool.fullAdder a b c).carry.toNat = a.toNat + b.toNat + c.toNat := by
  cases a <;> cases b <;> cases c <;> rfl

theorem length_addLoop (a b : List Bool) (c : Bool) (h : a.length ≤ b.length) :
    (bool.addLoop c a b).length = a.length := by
  induction a generalizing b c with
  | nil => simp [addLoop]
  | cons x a ih =>
    rcases b with _ | ⟨y, b⟩
    · cases h
    · rw [addLoop, List.length_cons, List.length_cons, ih b _ (by simpa using h)]

/-- The loop of `Add` writes the sum modulo the width. -/
theorem value_addLoop (a b : List Bool) (c : Bool) (h : a.length = b.length) :
    value (bool.addLoop c a b) = (value a + value b + c.toNat) % 2 ^ a.length := by
  induction a generalizing b c with
  | nil => simp [addLoop, Nat.mod_one]
  | cons x a ih =>
    rcases b with _ | ⟨y, b⟩
    · cases h
    · have hadd := bool_fullAdder x y c
      have hsum : (bool.fullAdder x y c).sum.toNat ≤ 1 := Bool.toNat_le _
      rw [addLoop, value_cons, ih b _ (by simpa using h), List.length_cons, pow_succ,
        Nat.mul_comm (2 ^ a.length) 2, value_cons, value_cons, Nat.mod_mul,
        show x.toNat + 2 * value a + (y.toNat + 2 * value b) + c.toNat =
        (bool.fullAdder x y c).sum.toNat +
          2 * (value a + value b + (bool.fullAdder x y c).carry.toNat) by omega,
        Nat.add_mul_mod_self_left, Nat.mod_eq_of_lt (Nat.lt_succ_of_le hsum),
        Nat.add_mul_div_left _ _ Nat.two_pos, Nat.div_eq_of_lt (Nat.lt_succ_of_le hsum),
        Nat.zero_add]

theorem bool_add (h : a.length = b.length) : ∃ v, bool.add a b = some v ∧ v.length = a.length ∧
      value v = (value a + value b) % 2 ^ a.length := by
  refine ⟨_, if_pos h.le, length_addLoop a b _ h.le, ?_⟩
  rw [value_addLoop a b _ h]
  rfl

theorem bool_neg {x : List Bool} (h : x ≠ []) : ∃ v, bool.neg x = some v ∧ v.length = x.length ∧
      value v = (2 ^ x.length - value x) % 2 ^ x.length := by
  have hpos : 0 < x.length := List.length_pos_iff.mpr h
  obtain ⟨one, hone, hl, hval⟩ := bool_uBitsVector (Nat.one_lt_two_pow hpos.ne')
  have hnot : (bool.bitwiseNot x).length = one.length := by rw [bitwiseNot, List.length_map, hl]
  obtain ⟨v, hv, hvl, hvv⟩ := bool_add hnot
  refine ⟨v, ?_, ?_, ?_⟩
  · rw [neg, hone]
    exact hv
  · rw [hvl, hnot, hl]
  · have hlt := value_lt x
    rw [hvv, hnot, hl, hval]
    show (value (x.map Bool.not) + 1) % _ = _
    rw [value_map_not, show 2 ^ x.length - 1 - value x + 1 = 2 ^ x.length - value x by omega]

/-- `ZeroExtend` by one element. -/
theorem bool_zeroExtend_succ (d : List Bool) :
    bool.zeroExtend d (d.length + 1) = some (d ++ [false]) := by
  rw [zeroExtend]
  simp [concat, bool]

/-! ## Selects -/

/-- An element of the selector which is not set adds nothing to the result. -/
theorem zipWith_or_and_false {r : List Bool} (h : r.length = c.length) :
    List.zipWith (fun r e => bool.or r (bool.and e false)) r c = r := by
  induction r generalizing c with
  | nil => rfl
  | cons x r ih =>
    rcases c with _ | ⟨y, c⟩
    · cases h
    · rw [List.zipWith_cons_cons, ih (by simpa using h)]
      simp [bool]

theorem zipWith_or_and_true :
    List.zipWith (fun r e => bool.or r (bool.and e true)) (List.replicate c.length false) c = c := by
  induction c with
  | nil => rfl
  | cons y c ih =>
    rw [List.length_cons, List.replicate_succ, List.zipWith_cons_cons, ih]
    simp [bool]

theorem zipWith_and_ones : List.zipWith bool.and (List.replicate c.length true) c = c := by
  induction c with
  | nil => rfl
  | cons y c ih =>
    rw [List.length_cons, List.replicate_succ, List.zipWith_cons_cons, ih]
    simp [bool]

/-- Cases which are not selected leave the result of the one-hot loop. -/
theorem foldl_oneHot_zeros {spans : List (List Bool)} {r : List Bool}
    (h : ∀ c ∈ spans, c.length = r.length) :
    ((List.replicate spans.length false).zip spans).foldl (fun result (s, c) =>
      List.zipWith (fun r e => bool.or r (bool.and e s)) result c) r = r := by
  induction spans with
  | nil => rfl
  | cons c spans ih =>
    show List.foldl _ (List.zipWith (fun r e => bool.or r (bool.and e false)) r c) _ = r
    rw [zipWith_or_and_false (h c (by simp)).symm]
    exact ih fun c hc => h c (by simp [hc])

/-- Cases which are not kept leave the mask. -/
theorem foldl_andReduction_zeros {spans : List (List Bool)} {m : List Bool} :
    ((List.replicate spans.length false).zip spans).foldl (fun m (k, c) =>
      if k then List.zipWith bool.and m c else m) m = m := by
  induction spans with
  | nil => rfl
  | cons c spans ih =>
    exact ih

theorem bool_bitwiseOr_self (c : List Bool) : bool.bitwiseOr [c, c] = some c := by
  have hself : List.zipWith bool.or c c = c := by
    induction c with
    | nil => rfl
    | cons y c ih =>
      simp [bool]
  rw [bitwiseOr, naryOp, if_pos (by simp), List.foldl_cons, List.foldl_nil, hself]

/-- A select whose cases have all the same width passes its checks. -/
theorem selectInternal_of_width {α : Type*} [DecidableEq α] (E : Evaluator α)
    {result : List α → List (List α) → ℕ → List α} {selector : List α} {cases : List (List α)}
    {w : ℕ} (canBeZero : Bool) (hne : cases ≠ []) (hlen : selector.length = cases.length)
    (hw : ∀ c ∈ cases, c.length = w) :
    E.selectInternal result selector cases canBeZero =
      if canBeZero then some (result selector cases w)
      else E.bitwiseOr [E.andReduction (selector.map fun s => decide (s ≠ E.zero)) cases w,
        result selector cases w] := by
  have hspans : cases.map (List.take w) = cases := by
    conv_rhs => rw [← List.map_id cases]
    refine List.map_congr_left fun x hx => ?_
    rw [List.take_of_length_le (hw x hx).le, id]
  rcases cases with _ | ⟨front, rest⟩
  · exact absurd rfl hne
  · have hfront : front.length = w := hw front (by simp)
    subst hfront
    simp only [selectInternal, hspans]
    rw [if_pos ⟨hlen, fun x hx => (hw x hx).ge⟩]

/-- A one-hot select returns the selected case. -/
theorem bool_oneHotSelect (pre post : List (List Bool)) (c : List Bool) (canBeZero : Bool)
    (hpre : ∀ x ∈ pre, x.length = c.length) (hpost : ∀ x ∈ post, x.length = c.length) :
    bool.oneHotSelect (List.replicate pre.length false ++ true :: List.replicate post.length false)
      (pre ++ c :: post) canBeZero = some c := by
  have hall : ∀ x ∈ pre ++ c :: post, x.length = c.length := by
    intro x hx
    rcases List.mem_append.mp hx with hx | hx
    · exact hpre x hx
    · rcases List.mem_cons.mp hx with rfl | hx
      · rfl
      · exact hpost x hx
  have hresult : bool.oneHotResult
      (List.replicate pre.length false ++ true :: List.replicate post.length false)
      (pre ++ c :: post) c.length = c := by
    have hbefore := foldl_oneHot_zeros (r := List.replicate c.length false) (by simpa using hpre)
    rw [oneHotResult, List.zip_append (by simp), List.foldl_append, List.zip_cons_cons]
    show List.foldl _ (List.zipWith _ (List.foldl _ (List.replicate c.length false) _) c) _ = c
    rw [hbefore, zipWith_or_and_true]
    exact foldl_oneHot_zeros hpost
  have hmask : bool.andReduction
      ((List.replicate pre.length false ++ true :: List.replicate post.length false).map
        fun s => decide (s ≠ bool.zero)) (pre ++ c :: post) c.length = c := by
    have hkeep : ((List.replicate pre.length false ++ true :: List.replicate post.length false).map
        fun s => decide (s ≠ bool.zero)) =
        List.replicate pre.length false ++ true :: List.replicate post.length false := by
      simp [bool]
    rw [hkeep, andReduction, List.zip_append (by simp), List.foldl_append, List.zip_cons_cons,
      List.foldl_cons, foldl_andReduction_zeros, foldl_andReduction_zeros]
    exact zipWith_and_ones
  rw [oneHotSelect, selectInternal_of_width bool canBeZero (by simp) (by simp) hall, hresult,
    hmask, bool_bitwiseOr_self, ite_self]

/-- The comparisons of a selector with the case numbers. -/
theorem bool_mapM_equalsConstant (h : n ≤ 2 ^ s.length) :
    (List.range n).mapM (bool.equalsConstant s) =
      some ((List.range n).map fun i => decide (value s = i)) := by
  induction n with
  | zero => rfl
  | succ n ih =>
    rw [List.range_succ, List.mapM_append, ih (by omega)]
    simp [bool_equalsConstant (show n < 2 ^ s.length by omega)]

/-- The comparisons with the numbers below `n` are one-hot when the number is below `n`. -/
theorem map_decide_range {k : ℕ} (h : k < n) : (List.range n).map (fun i => decide (k = i)) =
      List.replicate k false ++ true :: List.replicate (n - (k + 1)) false := by
  refine List.ext_getElem (by simp; omega) fun i hi _ => ?_
  rw [List.getElem_map, List.getElem_range, List.getElem_append]
  split
  · rename_i hlt
    rw [List.length_replicate] at hlt
    simp only [List.getElem_replicate, decide_eq_false_iff_not]
    omega
  · rename_i hge
    rw [List.length_replicate] at hge
    rw [List.getElem_cons]
    split
    · rename_i hzero
      rw [List.length_replicate] at hzero
      rw [decide_eq_true_eq]
      omega
    · rename_i hpos
      rw [List.length_replicate] at hpos
      simp only [List.getElem_replicate, decide_eq_false_iff_not]
      omega

theorem map_decide_range_of_le {k : ℕ} (h : n ≤ k) :
    (List.range n).map (fun i => decide (k = i)) = List.replicate n false := by
  refine List.eq_replicate_iff.mpr ⟨by simp, ?_⟩
  intro b hb
  obtain ⟨i, hi, rfl⟩ := List.mem_map.mp hb
  have := List.mem_range.mp hi
  simp only [decide_eq_false_iff_not]
  omega

/-- A select whose selector is the number of a case returns that case. -/
theorem bool_select_case {cases : List (List Bool)} {defaultValue : Option (List Bool)} {w : ℕ}
    (hcases : ∀ c ∈ cases, c.length = w) (hdefault : ∀ c ∈ defaultValue, c.length = w)
    (hfit : cases.length ≤ 2 ^ s.length) (hwrap : cases.length ≤ 2 ^ 64)
    (hs : value s < cases.length) :
    bool.select s cases defaultValue = some (cases.get ⟨value s, hs⟩) := by
  obtain ⟨pre, c, post, hsplit, hpre⟩ : ∃ pre c post, cases = pre ++ c :: post ∧
      pre.length = value s :=
    ⟨cases.take (value s), cases.get ⟨value s, hs⟩, cases.drop (value s + 1), by simp, by
      rw [List.length_take]; omega⟩
  have hget : cases.get ⟨value s, hs⟩ = c := by
    simp [hsplit, ← hpre]
  have hpost : post.length = cases.length - (value s + 1) := by
    rw [hsplit, List.length_append, List.length_cons]
    omega
  have hw : c.length = w := hcases c (by simp [hsplit])
  have hprew : ∀ x ∈ pre, x.length = c.length := fun x hx =>
    (hcases x (by simp [hsplit, hx])).trans hw.symm
  have hpostw : ∀ x ∈ post, x.length = c.length := fun x hx =>
    (hcases x (by simp [hsplit, hx])).trans hw.symm
  rw [select, bool_mapM_equalsConstant hfit, map_decide_range hs, hget]
  rcases defaultValue with _ | d
  · show bool.oneHotSelect _ cases false = some c
    rw [← bool_oneHotSelect pre post c false hprew hpostw, hpre, ← hpost, hsplit]
  · -- the default case comes last and is not selected
    have hlast : sizeMinusOne cases.length = cases.length - 1 := by
      unfold sizeMinusOne
      omega
    obtain ⟨v, hv, hvl, hvv⟩ := bool_uBitsVector (show cases.length - 1 < 2 ^ s.length by omega)
    have habove : bool.uLessThan v s = some false := by
      rw [bool_uLessThan hvl, decide_eq_false (by omega)]
    have hone := bool_oneHotSelect pre (post ++ [d]) c false hprew (by
      intro x hx
      rcases List.mem_append.mp hx with hx | hx
      · exact hpostw x hx
      · rw [List.mem_singleton.mp hx, hdefault d rfl, hw])
    simp only [Option.bind_eq_bind, Option.bind_some, hlast, hv, habove]
    rw [← hone, hpre, ← hpost, List.length_append, List.length_singleton, List.replicate_succ',
      hsplit]
    simp

/-- A select whose selector is not the number of a case returns the default. -/
theorem bool_select_default {cases : List (List Bool)} {d : List Bool}
    (hcases : ∀ c ∈ cases, c.length = d.length) (hne : cases ≠ [])
    (hfit : cases.length ≤ 2 ^ s.length) (hwrap : cases.length ≤ 2 ^ 64)
    (hs : cases.length ≤ value s) : bool.select s cases (some d) = some d := by
  have hpos : 0 < cases.length := List.length_pos_iff.mpr hne
  have hlast : sizeMinusOne cases.length = cases.length - 1 := by
    unfold sizeMinusOne
    omega
  obtain ⟨v, hv, hvl, hvv⟩ := bool_uBitsVector (show cases.length - 1 < 2 ^ s.length by omega)
  have habove : bool.uLessThan v s = some true := by
    rw [bool_uLessThan hvl, decide_eq_true (by omega)]
  have hone := bool_oneHotSelect cases [] d false hcases (by simp)
  rw [select, bool_mapM_equalsConstant hfit, map_decide_range_of_le hs]
  simp only [Option.bind_eq_bind, Option.bind_some, hlast, hv, habove]
  exact hone

/-- The select of the source on a single element. -/
theorem bool_select_two {b : Bool} {x y : List Bool} (h : x.length = y.length) :
    bool.select [b] [x, y] none = some (if b then y else x) := by
  have hw : ∀ c ∈ [x, y], c.length = y.length := by
    intro c hc
    rcases List.mem_pair.mp hc with rfl | rfl
    · exact h
    · rfl
  have hlt : value [b] < [x, y].length := by cases b <;> simp
  rw [bool_select_case hw (by simp) (by simp) (by simp) hlt]
  cases b <;> rfl

end Evaluator
end Xls
