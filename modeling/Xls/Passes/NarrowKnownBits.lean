/-
# Vectors with known bits

Leading zeros and leading ones bound a vector from above and from below, and bits in which two
vectors agree do not count in a comparison.

* `compare_slice` : a comparison of slices without the bits which agree;
* `toInt_slice_of_bounds` : a slice with a sign bit has the signed value of the vector;
* `Consistent` : the values of the nodes are as an engine knows them.
-/
import Xls.Passes.NarrowOperands

namespace Xls

namespace Narrowing

open BitsOps SignedBits

/-! ## Runs of known bits -/

section Counts

variable {known : ℕ → Bool}

theorem countLeading_le (known : ℕ → Bool) (n : ℕ) : countLeading known n ≤ n := by
  induction n with
  | zero => exact le_rfl
  | succ n ih =>
    rw [countLeading]
    split
    · omega
    · exact Nat.zero_le _

/-- The counted bits are known. -/
theorem known_of_countLeading {n i : ℕ} (hi : n - countLeading known n ≤ i) (hlt : i < n) :
    known i = true := by
  induction n with
  | zero => omega
  | succ n ih =>
    rw [countLeading] at hi
    split at hi
    · rename_i hknown
      rcases Nat.lt_succ_iff_lt_or_eq.mp hlt with hlt | rfl
      · exact ih (by omega) hlt
      · exact hknown
    · omega

/-- The count ends at a bit which is not known. -/
theorem not_known_of_countLeading {n : ℕ} (hlt : countLeading known n < n) :
    known (n - 1 - countLeading known n) = false := by
  induction n with
  | zero => omega
  | succ n ih =>
    rw [countLeading] at hlt ⊢
    split
    · rename_i hknown
      rw [if_pos hknown] at hlt
      have := ih (by omega)
      rwa [show n + 1 - 1 - (countLeading known n + 1) = n - 1 - countLeading known n by omega]
    · rename_i hknown
      exact Bool.not_eq_true _ ▸ hknown

theorem known_of_countTrailing {rest i j : ℕ} (hij : i ≤ j)
    (hj : j < countTrailing known i rest) : known j = true := by
  induction rest generalizing i with
  | zero =>
    rw [countTrailing] at hj
    omega
  | succ rest ih =>
    rw [countTrailing] at hj
    split at hj
    · rename_i hknown
      rcases Nat.eq_or_lt_of_le hij with rfl | hlt
      · exact hknown
      · exact ih hlt hj
    · omega

/-- The count does not pass a bit which is not known. -/
theorem countTrailing_le_of_not_known {rest i j : ℕ} (hij : i ≤ j) (hj : known j = false) :
    countTrailing known i rest ≤ j := by
  by_contra hlt
  have hknown := known_of_countTrailing hij (Nat.lt_of_not_le hlt)
  rw [hj] at hknown
  cases hknown

end Counts

/-! ## The values of vectors with known bits -/

section Vectors

variable {x y : Bits}

variable {m : ℕ} {op : ComparisonOp}

theorem slice_toNat_of_lt (h : x.toNat < 2 ^ m) : (slice x 0 m).toNat = x.toNat := by
  show x.toNat / 2 ^ 0 % 2 ^ m = _
  rw [pow_zero, Nat.div_one, Nat.mod_eq_of_lt h]

/-- Leading zeros bound a value from above. -/
theorem toNat_lt_of_zeros (h : ∀ i, m ≤ i → i < x.bitCount → x.get i = false) :
    x.toNat < 2 ^ m := by
  apply Nat.lt_pow_two_of_testBit
  intro i hi
  by_cases hlt : i < x.bitCount
  · exact h i hi hlt
  · by_contra hbit
    exact hlt (Bits.lt_of_get (by simpa [Bits.get] using hbit))

/-- Leading ones bound a value from below. -/
theorem le_toNat_of_ones (h : ∀ i, m ≤ i → i < x.bitCount → x.get i = true) :
    2 ^ x.bitCount ≤ x.toNat + 2 ^ m := by
  have hlt : 2 ^ x.bitCount - (x.toNat + 1) < 2 ^ m := by
    apply Nat.lt_pow_two_of_testBit
    intro i hi
    rw [Nat.testBit_two_pow_sub_succ x.isLt]
    by_cases hlt : i < x.bitCount
    · have hget : x.toNat.testBit i = true := h i hi hlt
      rw [hget, Bool.not_true, Bool.and_false]
    · rw [decide_eq_false hlt, Bool.false_and]
  omega

/-- A slice from the lowest bit on has the signed value, if this fits. -/
theorem toInt_slice_of_bounds (hm : 0 < m) (hle : m ≤ x.bitCount) (hlow : -2 ^ (m - 1) ≤ toInt x)
    (hhigh : toInt x < 2 ^ (m - 1)) : toInt (slice x 0 m) = toInt x := by
  rw [slice_eq_ofInt x (by omega), pow_zero, Int.ediv_one]
  exact toInt_ofInt_of_bounds hm hlow hhigh

/-- A value without its highest bit is its own signed value. -/
theorem toInt_of_lt (hm : m < x.bitCount) (h : x.toNat < 2 ^ m) : toInt x = x.toNat := by
  have hpow : 2 ^ m ≤ 2 ^ (x.bitCount - 1) := Nat.pow_le_pow_right (by norm_num) (by omega)
  have hmsb : x.msb = false := by
    rw [← Bool.not_eq_true, BitsOps.msb_eq_true_iff]
    rintro ⟨-, hge⟩
    omega
  rw [toInt, hmsb, if_neg Bool.false_ne_true]

/-- All but one of some leading zeros can be cut. -/
theorem toInt_slice_of_zeros {k : ℕ} (hk : 0 < k) (hle : k ≤ x.bitCount)
    (h : x.toNat < 2 ^ (x.bitCount - k)) :
    toInt (slice x 0 (x.bitCount - k + 1)) = toInt x := by
  have hvalue := toInt_of_lt (by omega) h
  have hcast : (x.toNat : ℤ) < 2 ^ (x.bitCount - k) := by exact_mod_cast h
  apply toInt_slice_of_bounds (by omega) (by omega)
  · rw [Nat.add_sub_cancel]
    omega
  · rw [hvalue]
    exact hcast

/-- All but one of some leading ones can be cut. -/
theorem toInt_slice_of_ones {k : ℕ} (hk : 0 < k) (hle : k ≤ x.bitCount)
    (h : 2 ^ x.bitCount ≤ x.toNat + 2 ^ (x.bitCount - k)) :
    toInt (slice x 0 (x.bitCount - k + 1)) = toInt x := by
  have hlt := x.isLt
  have hsplit : 2 ^ x.bitCount = 2 ^ (x.bitCount - 1) + 2 ^ (x.bitCount - 1) := by
    rw [← two_mul, ← pow_succ', Nat.sub_add_cancel (by omega)]
  have hpow : 2 ^ (x.bitCount - k) ≤ 2 ^ (x.bitCount - 1) :=
    Nat.pow_le_pow_right (by norm_num) (by omega)
  have hmsb : x.msb = true := BitsOps.msb_eq_true_iff x |>.mpr ⟨by omega, by omega⟩
  have hvalue : toInt x = x.toNat - 2 ^ x.bitCount := by rw [toInt, hmsb, if_pos rfl]
  have hcast : (2 : ℤ) ^ x.bitCount ≤ x.toNat + 2 ^ (x.bitCount - k) := by exact_mod_cast h
  have hcastlt : (x.toNat : ℤ) < 2 ^ x.bitCount := by exact_mod_cast hlt
  apply toInt_slice_of_bounds (by omega) (by omega)
  · rw [Nat.add_sub_cancel]
    omega
  · rw [Nat.add_sub_cancel]
    omega

/-- A signed value does not change with the width. -/
theorem toInt_signExtend {w : ℕ} (h : x.bitCount ≤ w) : toInt (signExtend x w) = toInt x := by
  rw [signExtend_eq_ofInt h]
  rcases BitmapOps.toInt_bounds x with ⟨-, hzero⟩ | ⟨hpos, hlow, hhigh⟩
  · rw [hzero]
    exact BitmapOps.toInt_ofInt (Nat.zero_le _)
  · have hpow : (2 : ℤ) ^ (x.bitCount - 1) ≤ 2 ^ (w - 1) :=
      pow_le_pow_right₀ (by norm_num) (by omega)
    exact toInt_ofInt_of_bounds (by omega) (by omega) (by omega)

/-- A sign-extended vector can be cut to any width at which it has its value. -/
theorem toInt_slice_signExtend {w : ℕ} (hx : x.bitCount ≤ m) (hm : m ≤ w) :
    toInt (slice (signExtend x w) 0 m) = toInt (signExtend x w) := by
  have hwidth : (signExtend x w).bitCount = w := signExtend_bitCount (by omega)
  have hvalue := toInt_signExtend (x := x) (w := w) (by omega)
  rcases BitmapOps.toInt_bounds x with ⟨hzero, hxzero⟩ | ⟨hpos, hlow, hhigh⟩
  · rw [slice_eq_ofInt _ (by omega), hvalue, hxzero]
    exact BitmapOps.toInt_ofInt (Nat.zero_le _)
  · have hpow : (2 : ℤ) ^ (x.bitCount - 1) ≤ 2 ^ (m - 1) :=
      pow_le_pow_right₀ (by norm_num) (by omega)
    exact toInt_slice_of_bounds (by omega) (by omega) (by omega) (by omega)

/-- Of two numbers with one quotient the remainders decide. -/
theorem lt_iff_mod_lt {a b p : ℕ} (h : a / p = b / p) : a < b ↔ a % p < b % p := by
  have ha := Nat.div_add_mod a p
  have hb := Nat.div_add_mod b p
  rw [h] at ha
  omega

/-- Of two numbers with one remainder the quotients decide. -/
theorem lt_iff_div_lt {a b p : ℕ} (hp : 0 < p) (h : a % p = b % p) : a < b ↔ a / p < b / p := by
  have ha := Nat.div_add_mod a p
  have hb := Nat.div_add_mod b p
  constructor
  · intro hlt
    have hmul : p * (a / p) < p * (b / p) := by omega
    exact Nat.lt_of_mul_lt_mul_left hmul
  · intro hlt
    have hmul := Nat.mul_lt_mul_of_pos_left hlt hp
    omega

/-- Vectors which agree in their highest and in their lowest bits compare as what lies between
them. -/
theorem toNat_lt_iff_slice_lt {leading trailing : ℕ} (hwidth : x.bitCount = y.bitCount)
    (hle : leading + trailing ≤ x.bitCount)
    (hleading : ∀ i, x.bitCount - leading ≤ i → i < x.bitCount → x.get i = y.get i)
    (htrailing : ∀ i, i < trailing → x.get i = y.get i) :
    x.toNat < y.toNat ↔ (slice x trailing (x.bitCount - leading - trailing)).toNat <
        (slice y trailing (x.bitCount - leading - trailing)).toNat := by
  have hlow : x.toNat % 2 ^ trailing = y.toNat % 2 ^ trailing := by
    apply Nat.eq_of_testBit_eq
    intro i
    rw [Nat.testBit_mod_two_pow, Nat.testBit_mod_two_pow]
    by_cases hi : i < trailing
    · have hbit : x.toNat.testBit i = y.toNat.testBit i := htrailing i hi
      rw [hbit]
    · rw [decide_eq_false hi, Bool.false_and, Bool.false_and]
  have hhigh : x.toNat / 2 ^ trailing / 2 ^ (x.bitCount - leading - trailing) =
      y.toNat / 2 ^ trailing / 2 ^ (x.bitCount - leading - trailing) := by
    rw [Nat.div_div_eq_div_mul, Nat.div_div_eq_div_mul, ← pow_add]
    apply Nat.eq_of_testBit_eq
    intro i
    rw [Nat.testBit_div_two_pow, Nat.testBit_div_two_pow]
    by_cases hi : i + (trailing + (x.bitCount - leading - trailing)) < x.bitCount
    · exact hleading _ (by omega) hi
    · -- both vectors end before
      have hx : ¬ x.get (i + (trailing + (x.bitCount - leading - trailing))) = true :=
        fun hget => hi (Bits.lt_of_get hget)
      have hy : ¬ y.get (i + (trailing + (x.bitCount - leading - trailing))) = true :=
        fun hget => hi ((Bits.lt_of_get hget).trans_eq hwidth.symm)
      exact (Bool.eq_false_of_not_eq_true hx).trans (Bool.eq_false_of_not_eq_true hy).symm
  calc x.toNat < y.toNat ↔ x.toNat / 2 ^ trailing < y.toNat / 2 ^ trailing :=
        lt_iff_div_lt (Nat.two_pow_pos _) hlow
    _ ↔ _ := lt_iff_mod_lt hhigh

/-- Equality and the unsigned comparisons follow the order of the values. -/
theorem evalCompareOp_of_lt_iff (hop : isSignedCompare op = false) {x' y' : Bits}
    (hwidth : x.bitCount = y.bitCount) (hwidth' : x'.bitCount = y'.bitCount)
    (hlt : x.toNat < y.toNat ↔ x'.toNat < y'.toNat) (hgt : y.toNat < x.toNat ↔ y'.toNat < x'.toNat) :
    BitsNode.evalCompareOp op x' y' = BitsNode.evalCompareOp op x y := by
  have heq : x' = y' ↔ x = y := by
    rw [Bits.ext_iff, Bits.ext_iff]
    omega
  have hle : x'.toNat ≤ y'.toNat ↔ x.toNat ≤ y.toNat := by omega
  have hge : y'.toNat ≤ x'.toNat ↔ y.toNat ≤ x.toNat := by omega
  cases op with
  | eq => exact decide_eq_decide.mpr heq
  | ne =>
    show (!decide (x' = y')) = !decide (x = y)
    rw [decide_eq_decide.mpr heq]
  | uge => exact decide_eq_decide.mpr hge
  | ugt => exact decide_eq_decide.mpr hgt.symm
  | ule => exact decide_eq_decide.mpr hle
  | ult => exact decide_eq_decide.mpr hlt.symm
  | sge | sgt | sle | slt => cases hop

/-- The comparison of slices without the bits in which both vectors agree. -/
theorem compare_slice (hop : isSignedCompare op = false) {leading trailing : ℕ}
    (hwidth : x.bitCount = y.bitCount) (hle : leading + trailing ≤ x.bitCount)
    (hleading : ∀ i, x.bitCount - leading ≤ i → i < x.bitCount → x.get i = y.get i)
    (htrailing : ∀ i, i < trailing → x.get i = y.get i) :
    BitsNode.evalCompareOp op (slice x trailing (x.bitCount - leading - trailing))
      (slice y trailing (x.bitCount - leading - trailing)) = BitsNode.evalCompareOp op x y := by
  have hlt := toNat_lt_iff_slice_lt hwidth hle hleading htrailing
  have hgt := toNat_lt_iff_slice_lt (x := y) (y := x) hwidth.symm (hwidth ▸ hle)
    (fun i hi hlt => (hleading i (hwidth ▸ hi) (hwidth ▸ hlt)).symm)
    (fun i hi => (htrailing i hi).symm)
  rw [← hwidth] at hgt
  exact evalCompareOp_of_lt_iff hop hwidth rfl hlt hgt

/-- The signed comparisons follow the signed values. -/
theorem evalCompareOp_of_toInt_eq (hop : isSignedCompare op = true) {x' y' : Bits}
    (hx : toInt x' = toInt x) (hy : toInt y' = toInt y) :
    BitsNode.evalCompareOp op x' y' = BitsNode.evalCompareOp op x y := by
  cases op with
  | sge | sgt | sle | slt =>
    simp only [BitsNode.evalCompareOp, sLessThan, sLessThanOrEqual, hx, hy]
  | eq | ne | uge | ugt | ule | ult => cases hop

end Vectors

/-! ## What an engine knows -/

/-- The values of the nodes are as the engine knows them. -/
structure Consistent (engine : QueryEngine) (env : ℕ → Bits) (nodes : List NodePtr) : Prop where
  zero : ∀ n ∈ nodes, ∀ v, n.node.eval env = some v → ∀ i < v.bitCount,
    engine.isTracked n = true → engine.getTernary ⟨n, i⟩ = .kKnownZero → v.get i = false
  one : ∀ n ∈ nodes, ∀ v, n.node.eval env = some v → ∀ i < v.bitCount,
    engine.isTracked n = true → engine.getTernary ⟨n, i⟩ = .kKnownOne → v.get i = true
  equals : ∀ n ∈ nodes, ∀ m ∈ nodes, ∀ v u, n.node.eval env = some v → m.node.eval env = some u →
    ∀ i < v.bitCount, ∀ j < u.bitCount, engine.knownEquals ⟨n, i⟩ ⟨m, j⟩ = true →
      v.get i = u.get j

section Engine

variable {engine : QueryEngine} {env : ℕ → Bits} {nodes : List NodePtr} {n lhs rhs : NodePtr}
variable {v x y : Bits}

theorem isZero_eq_true {i : ℕ} (h : engine.isZero ⟨n, i⟩ = true) :
    engine.isTracked n = true ∧ engine.getTernary ⟨n, i⟩ = .kKnownZero := by
  unfold QueryEngine.isZero QueryEngine.isKnown at h
  cases htracked : engine.isTracked n with
  | false => simp [htracked] at h
  | true =>
    cases hternary : engine.getTernary ⟨n, i⟩ with
    | kKnownZero => exact ⟨rfl, rfl⟩
    | kKnownOne => simp [hternary] at h
    | kUnknown => simp [hternary] at h

theorem isOne_eq_true {i : ℕ} (h : engine.isOne ⟨n, i⟩ = true) :
    engine.isTracked n = true ∧ engine.getTernary ⟨n, i⟩ = .kKnownOne := by
  unfold QueryEngine.isOne QueryEngine.isKnown at h
  cases htracked : engine.isTracked n with
  | false => simp [htracked] at h
  | true =>
    cases hternary : engine.getTernary ⟨n, i⟩ with
    | kKnownZero => simp [hternary] at h
    | kKnownOne => exact ⟨rfl, rfl⟩
    | kUnknown => simp [hternary] at h

variable (h : Consistent engine env nodes) (hn : n ∈ nodes) (hverified : n.node.Verified)
  (hv : n.node.eval env = some v)

section

include h hn hverified hv

/-- The leading zeros of a node are those of its value. -/
theorem Consistent.toNat_lt :
    v.toNat < 2 ^ (v.bitCount - countLeadingKnownZeros engine n) := by
  have hwidth := BitsNode.eval_bitCount hverified hv
  apply toNat_lt_of_zeros
  intro i hi hlt
  rw [countLeadingKnownZeros, ← hwidth] at hi
  obtain ⟨htracked, hternary⟩ := isZero_eq_true (known_of_countLeading hi hlt)
  exact h.zero n hn v hv i hlt htracked hternary

/-- The leading ones of a node are those of its value. -/
theorem Consistent.le_toNat :
    2 ^ v.bitCount ≤ v.toNat + 2 ^ (v.bitCount - countLeadingKnownOnes engine n) := by
  have hwidth := BitsNode.eval_bitCount hverified hv
  apply le_toNat_of_ones
  intro i hi hlt
  rw [countLeadingKnownOnes, ← hwidth] at hi
  obtain ⟨htracked, hternary⟩ := isOne_eq_true (known_of_countLeading hi hlt)
  exact h.one n hn v hv i hlt htracked hternary

end

theorem countLeadingKnownZeros_le (engine : QueryEngine) {w : ℕ} (hwidth : n.node.bitCount = w) :
    countLeadingKnownZeros engine n ≤ w := by
  rw [countLeadingKnownZeros, hwidth]
  exact countLeading_le _ w

theorem countLeadingKnownOnes_le (engine : QueryEngine) {w : ℕ} (hwidth : n.node.bitCount = w) :
    countLeadingKnownOnes engine n ≤ w := by
  rw [countLeadingKnownOnes, hwidth]
  exact countLeading_le _ w

include h hn hverified hv in
/-- All but one of the leading zeros, or of the leading ones, can be cut. -/
theorem Consistent.toInt_slice {k : ℕ} (hk : 0 < k)
    (hle : k ≤ countLeadingKnownZeros engine n ∨ k ≤ countLeadingKnownOnes engine n) :
    toInt (slice v 0 (v.bitCount - k + 1)) = toInt v := by
  have hwidth := (BitsNode.eval_bitCount hverified hv).symm
  rcases hle with hle | hle
  · have hpow : 2 ^ (v.bitCount - countLeadingKnownZeros engine n) ≤ 2 ^ (v.bitCount - k) :=
      Nat.pow_le_pow_right (by norm_num) (by omega)
    exact toInt_slice_of_zeros hk (hle.trans (countLeadingKnownZeros_le engine hwidth))
      ((h.toNat_lt hn hverified hv).trans_le hpow)
  · have hpow : 2 ^ (v.bitCount - countLeadingKnownOnes engine n) ≤ 2 ^ (v.bitCount - k) :=
      Nat.pow_le_pow_right (by norm_num) (by omega)
    exact toInt_slice_of_ones hk (hle.trans (countLeadingKnownOnes_le engine hwidth))
      ((h.le_toNat hn hverified hv).trans (Nat.add_le_add_left hpow _))

/-- The common leading bits are zeros of both operands, or ones of both. -/
theorem commonLeadingOnesOrZeros_le (engine : QueryEngine) (lhs rhs : NodePtr) :
    (commonLeadingOnesOrZeros engine lhs rhs ≤ countLeadingKnownZeros engine lhs ∧
      commonLeadingOnesOrZeros engine lhs rhs ≤ countLeadingKnownZeros engine rhs) ∨
    (commonLeadingOnesOrZeros engine lhs rhs ≤ countLeadingKnownOnes engine lhs ∧
      commonLeadingOnesOrZeros engine lhs rhs ≤ countLeadingKnownOnes engine rhs) := by
  unfold commonLeadingOnesOrZeros
  dsimp only
  split
  · right
    exact ⟨Nat.min_le_left _ _, Nat.min_le_right _ _⟩
  · left
    exact ⟨Nat.min_le_left _ _, Nat.min_le_right _ _⟩

end Engine

end Narrowing

end Xls
