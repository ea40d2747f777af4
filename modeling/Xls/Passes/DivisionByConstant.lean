/-
# Division by a constant is division

`ChooseMultiplier` finds a fixed-point reciprocal of the divisor, whatever the divisor and the
width; the nodes which the pass builds from it compute the quotient.  The widths are those for
which the exponents of `ChooseMultiplier` fit an `int`, as `BigInt::Exp2` checks.

* `chooseMultiplier_spec` : the multiplier is a reciprocal;
* `matchUnsignedDivide_exact` : the unsigned quotient;
* `matchSignedDivide_exact` : the signed quotient, truncated toward zero and wrapped.
-/
import Xls.Passes.ArithSimplification
import Xls.Lib.Reciprocal

namespace Xls

namespace ArithSimplification

open BitsNode

/-! ## The multiplier -/

/-- The loop halves both numbers while they differ. -/
theorem halve_spec {postShift : ℕ} : ∀ {mLow mHigh : ℕ}, mLow < mHigh →
    ∃ k ≤ postShift, halve postShift mLow mHigh = (mHigh / 2 ^ k, postShift - k) ∧
      mLow / 2 ^ k < mHigh / 2 ^ k := by
  induction postShift with
  | zero =>
    intro mLow mHigh h
    exact ⟨0, le_rfl, by rw [halve, pow_zero, Nat.div_one], by simpa using h⟩
  | succ postShift ih =>
    intro mLow mHigh h
    rw [halve]
    by_cases hlt : mLow / 2 < mHigh / 2
    · obtain ⟨k, hk, hhalve, hdiffer⟩ := ih hlt
      rw [if_pos hlt]
      rw [Nat.div_div_eq_div_mul, Nat.div_div_eq_div_mul, ← pow_succ'] at hdiffer
      rw [Nat.div_div_eq_div_mul, ← pow_succ'] at hhalve
      exact ⟨k + 1, by omega, by rw [hhalve, Nat.add_sub_add_right], hdiffer⟩
    · rw [if_neg hlt]
      exact ⟨0, Nat.zero_le _, by rw [pow_zero, Nat.div_one, Nat.sub_zero], by simpa using h⟩

theorem size_le_clog (d : ℕ) : d.size ≤ Nat.clog 2 d + 1 := by
  rw [Nat.size_le]
  exact lt_of_le_of_lt (Nat.le_pow_clog (by norm_num) d) (Nat.pow_lt_pow_succ (by norm_num))

/-- `ChooseMultiplier` finds a reciprocal of the divisor. -/
theorem chooseMultiplier_spec {numBits divisor precision : ℕ} (hd : divisor ≠ 0)
    (hprec : precision ≤ numBits) (hbound : numBits + Nat.clog 2 divisor < 2 ^ 31) :
    ∃ m postShift, chooseMultiplier numBits divisor precision =
        some (m, postShift, (Nat.clog 2 divisor : ℤ)) ∧
      postShift ≤ Nat.clog 2 divisor ∧ IsReciprocal m divisor (numBits + postShift) precision := by
  have hsize := size_le_clog divisor
  have hdl : divisor ≤ 2 ^ Nat.clog 2 divisor := Nat.le_pow_clog (by norm_num) divisor
  have hlog := BigInt.ceilingLog2_eq hd (by omega)
  generalize Nat.clog 2 divisor = l at hbound hsize hdl hlog ⊢
  have hscale : BigInt.exp2 ((numBits : ℤ) + l) = some (2 ^ (numBits + l)) := by
    rw [← BigInt.exp2_natCast hbound, Nat.cast_add]
  have herror : BigInt.exp2 ((numBits : ℤ) + l - precision) =
      some (2 ^ (numBits + l - precision)) := by
    rw [← BigInt.exp2_natCast (by omega), Nat.cast_sub (by omega), Nat.cast_add]
  have hlt : 2 ^ (numBits + l) / divisor <
      (2 ^ (numBits + l) + 2 ^ (numBits + l - precision)) / divisor := by
    -- the error is at least the divisor
    have hle : divisor ≤ 2 ^ (numBits + l - precision) :=
      hdl.trans (Nat.pow_le_pow_right (by norm_num) (by omega))
    calc 2 ^ (numBits + l) / divisor < 2 ^ (numBits + l) / divisor + 1 := Nat.lt_succ_self _
      _ = (2 ^ (numBits + l) + divisor) / divisor :=
          (Nat.add_div_right _ (Nat.pos_of_ne_zero hd)).symm
      _ ≤ _ := Nat.div_le_div_right (Nat.add_le_add_left hle _)
  obtain ⟨k, hk, hhalve, hdiffer⟩ := @halve_spec l _ _ hlt
  refine ⟨(2 ^ (numBits + l) + 2 ^ (numBits + l - precision)) / divisor / 2 ^ k, l - k, ?_,
    Nat.sub_le l k, ?_⟩
  · unfold chooseMultiplier BigInt.div
    simp only [hlog, hscale, herror, if_neg hd, Option.bind_eq_bind, Option.bind_some,
      Int.toNat_natCast, hhalve]
  · rw [← Nat.add_sub_assoc hk]
    exact .of_quotients (Nat.pos_of_ne_zero hd) (by omega) hdiffer

/-- The constants of an unsigned division: a reciprocal of the divisor behind the shift, with
as much precision as the shifted dividend needs. -/
theorem computeUnsignedDivisionConstants_spec {numBits divisor : ℕ} (hlt : divisor < 2 ^ numBits)
    (hd : divisor ≠ 0) (hpow : ∀ k, divisor ≠ 2 ^ k)
    (hbound : numBits + Nat.clog 2 divisor < 2 ^ 31) :
    ∃ m preShift postShift factor : ℕ, computeUnsignedDivisionConstants numBits divisor =
        some ⟨numBits, m, preShift, postShift⟩ ∧
      divisor = factor * 2 ^ preShift ∧ preShift ≤ numBits ∧ factor < 2 ^ (numBits - preShift) ∧
      postShift < 2 ^ 31 ∧
      IsReciprocal m factor (numBits + postShift) (numBits - preShift) := by
  have hsize := size_le_clog divisor
  have hpower := BigInt.isPowerOfTwo_eq (by omega) hpow
  have hrange : BigInt.exp2 (numBits : ℤ) = some (2 ^ numBits) := BigInt.exp2_natCast (by omega)
  obtain ⟨m, postShift, hchoose, hpost, hrec⟩ := chooseMultiplier_spec hd le_rfl hbound
  by_cases hcase : m ≥ 2 ^ numBits ∧ BigInt.isEven divisor
  · -- the divisor is even, and its odd factor needs less precision
    obtain ⟨hfactor, hodd⟩ := BigInt.factorizePowerOfTwo_spec hd
    generalize hpair : BigInt.factorizePowerOfTwo divisor = pair at hfactor hodd
    obtain ⟨factor, e⟩ := pair
    have hf0 : factor ≠ 0 := by omega
    have he : 2 ^ e < 2 ^ numBits := by
      refine lt_of_le_of_lt ?_ hlt
      calc 2 ^ e = 1 * 2 ^ e := (one_mul _).symm
        _ ≤ factor * 2 ^ e := Nat.mul_le_mul_right _ (by omega)
        _ = divisor := hfactor.symm
    have he' : e < numBits := (Nat.pow_lt_pow_iff_right (by norm_num)).mp he
    have hclog : Nat.clog 2 factor ≤ Nat.clog 2 divisor := by
      apply Nat.clog_mono_right
      rw [hfactor]
      exact Nat.le_mul_of_pos_right _ (Nat.two_pow_pos e)
    obtain ⟨m', postShift', hchoose', hpost', hrec'⟩ :=
      chooseMultiplier_spec hf0 (Nat.sub_le numBits e) (by omega)
    refine ⟨m', e, postShift', factor, ?_, hfactor, he'.le, ?_, by omega, hrec'⟩
    · rw [Nat.cast_sub he'.le] at hchoose'
      unfold computeUnsignedDivisionConstants
      simp only [hpower, hchoose, hrange, hpair, hchoose', Option.bind_eq_bind, Option.bind_some,
        if_pos hcase, Bool.false_eq_true, if_false]
    · refine Nat.lt_of_mul_lt_mul_right (a := 2 ^ e) ?_
      rw [← hfactor, ← pow_add, Nat.sub_add_cancel he'.le]
      exact hlt
  · refine ⟨m, 0, postShift, divisor, ?_, by rw [pow_zero, mul_one], Nat.zero_le _, hlt, by omega,
      hrec⟩
    unfold computeUnsignedDivisionConstants
    simp only [hpower, hchoose, hrange, Option.bind_eq_bind, Option.bind_some, if_neg hcase]
    rfl

/-! ## What the nodes compute -/

/-- A verified node of width `w` whose value is a function of the dividend. -/
structure Computes (dividend x : BitsNode) (w : ℕ) (f : Bits → Bits) : Prop where
  verified : x.Verified
  bitCount : x.bitCount = w
  value : ∀ {env n}, dividend.eval env = some n → x.eval env = some (f n)

namespace Computes

variable {dividend x y : BitsNode} {w v : ℕ} {f h : Bits → Bits}

section

variable (hx : Computes dividend x w f)

include hx

theorem width {env : ℕ → Bits} {n : Bits}
    (hn : dividend.eval env = some n) : (f n).bitCount = w := by
  have hwidth := eval_bitCount hx.verified (hx.value hn)
  rw [hx.bitCount] at hwidth
  exact_mod_cast hwidth

omit hx in
theorem self (hverified : dividend.Verified) (hwidth : dividend.bitCount = w) :
    Computes dividend dividend w id :=
  ⟨hverified, hwidth, fun hn => hn⟩

/-- A function is known by its values on the values of the dividend. -/
theorem congr (heq : ∀ {env n}, dividend.eval env = some n → f n = h n) : Computes dividend x w h :=
  ⟨hx.verified, hx.bitCount, fun hn => (hx.value hn).trans (congrArg some (heq hn))⟩

omit hx in
theorem literal (dividend : BitsNode) (b : Bits) :
    Computes dividend (.literal b) b.bitCount fun _ => b :=
  ⟨trivial, rfl, fun _ => rfl⟩

theorem shrl (hy : Computes dividend y v h) : (binOp .shrl x y).makeNode = some (binOp .shrl x y) ∧
      Computes dividend (binOp .shrl x y) w
        fun n => Bits.ofNat w ((f n).toNat / 2 ^ (h n).toNat) := by
  refine ⟨makeNode_eq_some rfl, ⟨rfl, hx.verified, hy.verified⟩, hx.bitCount, fun hn => ?_⟩
  rw [eval_shrl (hx.value hn) (hy.value hn), hx.width hn]

theorem shra (hy : Computes dividend y v h) : (binOp .shra x y).makeNode = some (binOp .shra x y) ∧
      Computes dividend (binOp .shra x y) w
        fun n => Bits.ofInt w (BitsOps.toInt (f n) / 2 ^ (h n).toNat) := by
  refine ⟨makeNode_eq_some rfl, ⟨rfl, hx.verified, hy.verified⟩, hx.bitCount, fun hn => ?_⟩
  rw [eval_shra (hx.value hn) (hy.value hn), hx.width hn]

theorem add (hy : Computes dividend y w h) : (binOp .add x y).makeNode = some (binOp .add x y) ∧
      Computes dividend (binOp .add x y) w
        fun n => Bits.ofInt w (BitsOps.toInt (f n) + BitsOps.toInt (h n)) := by
  have hverify : (binOp .add x y).verify = true := by
    simp [verify, hx.bitCount, hy.bitCount]
  refine ⟨makeNode_eq_some hverify, ⟨hverify, hx.verified, hy.verified⟩, hx.bitCount, fun hn => ?_⟩
  have hwidth := (hy.width hn).trans (hx.width hn).symm
  rw [eval_add (hx.value hn) (hy.value hn) hwidth, hx.width hn]

theorem sub (hy : Computes dividend y w h) : (binOp .sub x y).makeNode = some (binOp .sub x y) ∧
      Computes dividend (binOp .sub x y) w
        fun n => Bits.ofInt w (BitsOps.toInt (f n) - BitsOps.toInt (h n)) := by
  have hverify : (binOp .sub x y).verify = true := by
    simp [verify, hx.bitCount, hy.bitCount]
  refine ⟨makeNode_eq_some hverify, ⟨hverify, hx.verified, hy.verified⟩, hx.bitCount, fun hn => ?_⟩
  have hwidth := (hy.width hn).trans (hx.width hn).symm
  rw [eval_sub (hx.value hn) (hy.value hn) hwidth, hx.width hn]

theorem neg : (BitsNode.neg x).makeNode = some (BitsNode.neg x) ∧
    Computes dividend (BitsNode.neg x) w fun n => Bits.ofInt w (-BitsOps.toInt (f n)) := by
  refine ⟨makeNode_eq_some rfl, hx.verified, hx.bitCount, fun hn => ?_⟩
  rw [eval_neg (hx.value hn), hx.width hn]

/-- The full product. -/
theorem umul (hy : Computes dividend y v h) :
    (arithOp .umul x y (x.bitCount + y.bitCount)).makeNode =
        some (arithOp .umul x y (x.bitCount + y.bitCount)) ∧
      Computes dividend (arithOp .umul x y (x.bitCount + y.bitCount)) (w + v)
        fun n => Bits.ofNat (w + v) ((f n).toNat * (h n).toNat) := by
  have hsum : x.bitCount + y.bitCount = ((w + v : ℕ) : ℤ) := by
    rw [hx.bitCount, hy.bitCount, Nat.cast_add]
  have hverify : (arithOp .umul x y ((w + v : ℕ) : ℤ)).verify = true :=
    decide_eq_true (Int.natCast_nonneg (w + v))
  rw [hsum]
  refine ⟨makeNode_eq_some hverify, ⟨hverify, hx.verified, hy.verified⟩, rfl, fun hn => ?_⟩
  exact eval_umul (hx.value hn) (hy.value hn) _

theorem smul (hy : Computes dividend y v h) :
    (arithOp .smul x y (x.bitCount + y.bitCount)).makeNode =
        some (arithOp .smul x y (x.bitCount + y.bitCount)) ∧
      Computes dividend (arithOp .smul x y (x.bitCount + y.bitCount)) (w + v)
        fun n => Bits.ofInt (w + v) (BitsOps.toInt (f n) * BitsOps.toInt (h n)) := by
  have hsum : x.bitCount + y.bitCount = ((w + v : ℕ) : ℤ) := by
    rw [hx.bitCount, hy.bitCount, Nat.cast_add]
  have hverify : (arithOp .smul x y ((w + v : ℕ) : ℤ)).verify = true :=
    decide_eq_true (Int.natCast_nonneg (w + v))
  rw [hsum]
  refine ⟨makeNode_eq_some hverify, ⟨hverify, hx.verified, hy.verified⟩, rfl, fun hn => ?_⟩
  exact eval_smul (hx.value hn) (hy.value hn) _

/-- The bits of a node from `start` on. -/
theorem sliceFrom (start : ℕ) (hle : start ≤ w) : (bitSlice x start (x.bitCount - start)).makeNode =
        some (bitSlice x start (x.bitCount - start)) ∧
      Computes dividend (bitSlice x start (x.bitCount - start)) (w - start)
        fun n => BitsOps.slice (f n) start (w - start) := by
  have hwidth : x.bitCount - start = ((w - start : ℕ) : ℤ) := by
    rw [hx.bitCount, Nat.cast_sub hle]
  rw [hwidth]
  have hverify : (bitSlice x start ((w - start : ℕ) : ℤ)).verify = true := by
    simp only [verify, Bool.and_eq_true, decide_eq_true_eq]
    omega
  refine ⟨makeNode_eq_some hverify, ⟨hverify, hx.verified⟩, rfl, fun hn => ?_⟩
  apply eval_bitSlice (hx.value hn)
  rw [hx.width hn]
  omega

/-- `NarrowOrExtend` computes what the extension, the slice and the node itself have in common. -/
theorem resize {isSigned : Bool} {r : ℕ}
    (hextend : ∀ {env n}, (f n).bitCount ≤ r → eval env x = some (f n) →
      eval env (extendOp (if isSigned then .signExt else .zeroExt) x r) = some (h n))
    (hslice : ∀ n, 0 + r ≤ (f n).bitCount → BitsOps.slice (f n) 0 r = h n)
    (hsame : ∀ n, (f n).bitCount = r → f n = h n) :
    ∃ e, narrowOrExtend x isSigned r = some e ∧ Computes dividend e r h := by
  unfold narrowOrExtend
  rw [hx.bitCount]
  by_cases hlt : (w : ℤ) < r
  · have hverify : (extendOp (if isSigned then .signExt else .zeroExt) x r).verify = true := by
      simp [verify, hx.bitCount, hlt.le]
    rw [if_pos hlt]
    refine ⟨_, makeNode_eq_some hverify, ⟨hverify, hx.verified⟩, rfl, fun hn => ?_⟩
    refine hextend ?_ (hx.value hn)
    rw [hx.width hn]
    omega
  · rw [if_neg hlt]
    by_cases hgt : (w : ℤ) > r
    · have hverify : (bitSlice x 0 r).verify = true := by
        simp [verify, hx.bitCount, hgt.le]
      rw [if_pos hgt]
      refine ⟨_, makeNode_eq_some hverify, ⟨hverify, hx.verified⟩, rfl, fun {env n} hn => ?_⟩
      have hfits : 0 + r ≤ (f n).bitCount := by
        rw [hx.width hn]
        omega
      rw [← hslice n hfits]
      exact eval_bitSlice (hx.value hn) hfits
    · rw [if_neg hgt]
      obtain rfl : w = r := by omega
      refine ⟨x, rfl, hx.verified, hx.bitCount, fun {env n} hn => ?_⟩
      rw [hx.value hn, hsame n (hx.width hn)]

/-- `NarrowOrExtend` keeps the unsigned value modulo the new range. -/
theorem resizeUnsigned (r : ℕ) : ∃ e, narrowOrExtend x false r = some e ∧
      Computes dividend e r fun n => Bits.ofNat r (f n).toNat := by
  refine hx.resize (fun hle hn => eval_zeroExt hn hle) (fun n _ => ?_) fun n hw => ?_
  · rw [SignedBits.slice_eq_ofNat, pow_zero, Nat.div_one]
  · apply Bits.ext hw
    rw [Bits.ofNat_toNat, Nat.mod_eq_of_lt (hw ▸ (f n).isLt)]

/-- `NarrowOrExtend` keeps the signed value modulo the new range. -/
theorem resizeSigned (r : ℕ) : ∃ e, narrowOrExtend x true r = some e ∧
      Computes dividend e r fun n => Bits.ofInt r (BitsOps.toInt (f n)) := by
  refine hx.resize (fun hle hn => eval_signExt hn hle) (fun n hfits => ?_) fun n hw => ?_
  · rw [SignedBits.slice_eq_ofInt _ hfits, pow_zero, Int.ediv_one]
  · rw [← hw, BitmapBits.ofInt_toInt]

end

end Computes

/-- The literals of the shift amounts. -/
theorem shiftLiteral_spec (amount : ℕ) (h : amount < 2 ^ 64) :
    ∃ b : Bits, b.toNat = amount ∧ shiftLiteral amount = some (.literal b) := by
  have hword : ((amount : ℤ) % 2 ^ 64).toNat = amount := by omega
  have hfits : amount < 2 ^ Bits.minBitCountUnsigned amount :=
    Bits.minBitCountUnsigned_le_iff.mp le_rfl
  refine ⟨⟨_, amount, hfits⟩, rfl, ?_⟩
  unfold shiftLiteral
  simp only [hword, Bits.uBits, dif_pos hfits, Option.bind_eq_bind]
  exact makeNode_eq_some rfl

/-! ## Unsigned division -/

theorem isPowerOfTwo_eq_false {b : Bits} (hpow : ∀ k, b.toNat ≠ 2 ^ k) :
    b.isPowerOfTwo = false := by
  unfold Bits.isPowerOfTwo Bits.popCount
  rw [beq_eq_false_iff_ne]
  intro hcount
  -- the only bit which is set
  rw [List.countP_eq_length_filter, List.length_eq_one_iff] at hcount
  obtain ⟨i, hi⟩ := hcount
  have hmem : ∀ j, b.get j = true ↔ j = i := by
    intro j
    have hsingle : j ∈ [i] ↔ j = i := List.mem_singleton
    rw [← hsingle, ← hi, List.mem_filter, List.mem_range]
    exact ⟨fun h => ⟨Bits.lt_of_get h, h⟩, fun h => h.2⟩
  apply hpow i
  apply Nat.eq_of_testBit_eq
  intro j
  rw [Nat.testBit_two_pow, Bool.eq_iff_iff, decide_eq_true_eq, eq_comm (a := i)]
  exact hmem j

/-- The dividend behind the shift. -/
theorem shiftDividend_spec {dividend : BitsNode} {numBits preShift : ℕ}
    (hverified : dividend.Verified) (hwidth : dividend.bitCount = numBits)
    (hpre : preShift ≤ numBits) :
    ∃ sd f, shiftDividend dividend preShift = some sd ∧ Computes dividend sd (numBits - preShift) f ∧
      ∀ n : Bits, n.bitCount = numBits → (f n).toNat = n.toNat / 2 ^ preShift := by
  have hself := Computes.self hverified hwidth
  unfold shiftDividend
  by_cases hpos : (preShift : ℤ) > 0
  · obtain ⟨hmake, hslice⟩ := hself.sliceFrom preShift hpre
    rw [if_pos hpos]
    refine ⟨_, _, hmake, hslice, fun n hn => ?_⟩
    subst hn
    exact SignedBits.toNat_slice_of_le n hpre
  · obtain rfl : preShift = 0 := by omega
    exact ⟨dividend, id, rfl, hself, fun n _ => by rw [pow_zero, Nat.div_one, id]⟩

/-- A multiplier which is a reciprocal has more bits than are shifted out before. -/
theorem preShift_lt_size {m factor numBits preShift postShift : ℕ}
    (hrec : IsReciprocal m factor (numBits + postShift) (numBits - preShift))
    (hfactor : factor < 2 ^ (numBits - preShift)) (hpre : preShift ≤ numBits) :
    preShift < m.size := by
  rw [Nat.lt_size]
  by_contra hlt
  have hm : m * factor ≤ 2 ^ preShift * 2 ^ (numBits - preShift) :=
    Nat.mul_le_mul (not_le.mp hlt).le hfactor.le
  rw [← pow_add, Nat.add_sub_cancel' hpre] at hm
  have hscale : 2 ^ numBits ≤ 2 ^ (numBits + postShift) :=
    Nat.pow_le_pow_right (by norm_num) (Nat.le_add_right _ _)
  exact absurd hrec.lt (not_lt.mpr (hm.trans hscale))

/-- The nodes of an unsigned division compute the quotient. -/
theorem matchUnsignedDivide_computes {dividend : BitsNode} {d : Bits}
    (hverified : (binOp .udiv dividend (.literal d)).Verified) (hzero : d.toNat ≠ 0)
    (hpow : ∀ k, d.toNat ≠ 2 ^ k) (hbound : d.bitCount + Nat.clog 2 d.toNat < 2 ^ 31) :
    ∃ e, matchUnsignedDivide (.binOp .udiv dividend (.literal d)) = some (some e) ∧
      Computes dividend e d.bitCount fun n => Bits.ofNat d.bitCount (n.toNat / d.toNat) := by
  obtain ⟨hverify, hdividend, -⟩ := hverified
  have hwidth : dividend.bitCount = d.bitCount := of_decide_eq_true hverify
  obtain ⟨m, pre, post, factor, hconstants, hfactor, hpre, hlt, hpost, hrec⟩ :=
    computeUnsignedDivisionConstants_spec d.isLt hzero hpow hbound
  have hsize := preShift_lt_size hrec hlt hpre
  obtain ⟨sd, f, hsd, hcomputes, hf⟩ := shiftDividend_spec hdividend hwidth hpre
  obtain ⟨hmul, hproduct⟩ :=
    (Computes.literal dividend (BigInt.toUnsignedBits m)).umul hcomputes
  have hm : (BigInt.toUnsignedBits m).bitCount = m.size := rfl
  obtain ⟨hslice, hinteger⟩ := hproduct.sliceFrom d.bitCount (by omega)
  obtain ⟨amount, hamount, hliteral⟩ := shiftLiteral_spec post (by omega)
  obtain ⟨hshift, hquotient⟩ := hinteger.shrl (Computes.literal dividend amount)
  obtain ⟨e, hresize, he⟩ := hquotient.resizeUnsigned d.bitCount
  refine ⟨e, ?_, he.verified, he.bitCount, fun {env n} hn => ?_⟩
  · have hmatch : ¬ d.isPowerOfTwo = true ∧ ¬ d.isZero = true :=
      ⟨by simp [isPowerOfTwo_eq_false hpow], by simpa [Bits.isZero] using hzero⟩
    have hlit : (BitsNode.literal (BigInt.toUnsignedBits m)).makeNode =
        some (.literal (BigInt.toUnsignedBits m)) := makeNode_eq_some rfl
    have hresult : (binOp .udiv dividend (.literal d)).bitCount = d.bitCount := hwidth
    unfold matchUnsignedDivide
    simp only [if_pos hmatch, hresult, hwidth, hconstants, hsd, hlit, hmul, hslice, hliteral,
      hshift, hresize, Option.bind_eq_bind, Option.bind_some]
  · -- the quotient of the numbers
    rw [he.value hn]
    have hn' : n.bitCount = d.bitCount := by
      have := eval_bitCount hdividend hn
      rw [hwidth] at this
      exact_mod_cast this
    have hdiv : n.toNat / 2 ^ pre < 2 ^ (d.bitCount - pre) := by
      apply Nat.div_lt_of_lt_mul
      rw [← pow_add, Nat.add_sub_cancel' hpre, ← hn']
      exact n.isLt
    have hproduct : m * (f n).toNat < 2 ^ (m.size + (d.bitCount - pre)) := by
      rw [hf n hn', pow_add]
      exact Nat.mul_lt_mul'' (Nat.lt_size_self m) hdiv
    have hinteger : m * (f n).toNat / 2 ^ d.bitCount <
        2 ^ (m.size + (d.bitCount - pre) - d.bitCount) := by
      apply Nat.div_lt_of_lt_mul
      rw [← pow_add, Nat.add_sub_cancel' (by omega)]
      exact hproduct
    have hquotient : m * (f n).toNat / 2 ^ d.bitCount / 2 ^ post = n.toNat / d.toNat := by
      rw [Nat.div_div_eq_div_mul, ← pow_add, hf n hn', hrec.mul_div_eq hdiv,
        Nat.div_div_eq_div_mul, Nat.mul_comm, ← hfactor]
    have hlast := lt_of_le_of_lt (Nat.div_le_self _ (2 ^ post)) hinteger
    rw [hquotient] at hlast
    simp only [SignedBits.slice_eq_ofNat, Bits.ofNat_toNat, Nat.mod_eq_of_lt hproduct,
      Nat.mod_eq_of_lt hinteger, hamount, BigInt.toUnsignedBits, hquotient, Nat.mod_eq_of_lt hlast]

/-- An unsigned division by a constant which is not zero and not a power of two is replaced by
nodes which pass the verifier and compute the quotient. -/
theorem matchUnsignedDivide_exact {dividend : BitsNode} {d : Bits}
    (hverified : (binOp .udiv dividend (.literal d)).Verified) (hzero : d.toNat ≠ 0)
    (hpow : ∀ k, d.toNat ≠ 2 ^ k) (hbound : d.bitCount + Nat.clog 2 d.toNat < 2 ^ 31) :
    ∃ e, matchUnsignedDivide (.binOp .udiv dividend (.literal d)) = some (some e) ∧
      e.Verified ∧ e.bitCount = d.bitCount ∧
      ∀ env n, dividend.eval env = some n →
        e.eval env = some (Bits.ofNat d.bitCount (n.toNat / d.toNat)) := by
  obtain ⟨e, hmatch, he⟩ := matchUnsignedDivide_computes hverified hzero hpow hbound
  exact ⟨e, hmatch, he.verified, he.bitCount, fun _ _ => he.value⟩

theorem matchUnsignedDivide_exact_seven :
    ∃ e, matchUnsignedDivide (.binOp .udiv (.source 0 8) (.literal (Bits.ofNat 8 7))) =
        some (some e) ∧ e.Verified ∧ e.bitCount = 8 ∧
      ∀ env n, (BitsNode.source 0 8).eval env = some n →
        e.eval env = some (Bits.ofNat 8 (n.toNat / 7)) := by
  refine matchUnsignedDivide_exact (d := Bits.ofNat 8 7) ⟨rfl, trivial, trivial⟩ (by decide) ?_ ?_
  · intro k hk
    have hseven : (Bits.ofNat 8 7).toNat = 7 := rfl
    rw [hseven] at hk
    rcases k with _ | k
    · cases hk
    · rw [pow_succ] at hk
      omega
  · have hclog : Nat.clog 2 (Bits.ofNat 8 7).toNat ≤ 3 := Nat.clog_le_of_le_pow (by decide)
    have hwidth : (Bits.ofNat 8 7).bitCount = 8 := rfl
    omega

/-- Beyond the bound the exponent does not fit an `int`. -/
theorem chooseMultiplier_eq_none {numBits divisor : ℕ} {precision : ℤ} (hd : divisor ≠ 0)
    (hsize : divisor.size ≤ 2 ^ 31) (hbound : 2 ^ 31 ≤ numBits + Nat.clog 2 divisor) :
    chooseMultiplier numBits divisor precision = none := by
  have hscale : BigInt.exp2 ((numBits : ℤ) + (Nat.clog 2 divisor : ℕ)) = none := by
    apply BigInt.exp2_eq_none
    exact_mod_cast hbound
  unfold chooseMultiplier
  simp only [BigInt.ceilingLog2_eq hd hsize, hscale, Option.bind_eq_bind, Option.bind_some,
    Option.bind_none]

/-- Three, as wide as it takes. -/
theorem three_toNat {w : ℕ} (hw : 2 ≤ w) : (Bits.ofNat w 3).toNat = 3 := by
  apply Nat.mod_eq_of_lt
  calc 3 < 2 ^ 2 := by norm_num
    _ ≤ 2 ^ w := Nat.pow_le_pow_right (by norm_num) hw

theorem verified_three (op : BinaryOp) (w : ℕ) :
    (binOp op (.source 0 w) (.literal (Bits.ofNat w 3))).Verified :=
  ⟨by simp [verify, bitCount], trivial, trivial⟩

/-- The check of `Exp2` fails on the widest dividends. -/
theorem matchUnsignedDivide_eq_none {w : ℕ} (hw : 2 ^ 31 ≤ w) :
    matchUnsignedDivide (.binOp .udiv (.source 0 w) (.literal (Bits.ofNat w 3))) = none := by
  have hthree : (Bits.ofNat w 3).toNat = 3 := three_toNat (by omega)
  have hpow : ∀ k, (3 : ℕ) ≠ 2 ^ k := by
    intro k hk
    rcases k with _ | k
    · cases hk
    · omega
  have hmatch : ¬ (Bits.ofNat w 3).isPowerOfTwo = true ∧ ¬ (Bits.ofNat w 3).isZero = true :=
    ⟨by simp [isPowerOfTwo_eq_false (b := Bits.ofNat w 3) (by rw [hthree]; exact hpow)],
      by rw [Bits.isZero, hthree]; decide⟩
  have hsize : Nat.size 3 ≤ 2 ^ 31 := (Nat.size_le.mpr (by norm_num : 3 < 2 ^ 2)).trans (by norm_num)
  have hchoose : chooseMultiplier w 3 w = none :=
    chooseMultiplier_eq_none (by norm_num) hsize (by omega)
  have hwidth : (BitsNode.source 0 w).bitCount = w := rfl
  unfold matchUnsignedDivide computeUnsignedDivisionConstants
  simp only [if_pos hmatch, hthree, hwidth, BigInt.isPowerOfTwo_eq hsize hpow, hchoose,
    Option.bind_eq_bind, Option.bind_some, Option.bind_none, Bool.false_eq_true, if_false]

/-- The division by three of a dividend of `2 ^ 31` bits is verified and not replaced. -/
theorem matchUnsignedDivide_tooWide :
    (binOp .udiv (.source 0 (2 ^ 31)) (.literal (Bits.ofNat (2 ^ 31) 3))).Verified ∧
      (Bits.ofNat (2 ^ 31) 3).toNat = 3 ∧
      matchUnsignedDivide (.binOp .udiv (.source 0 (2 ^ 31))
        (.literal (Bits.ofNat (2 ^ 31) 3))) = none :=
  ⟨verified_three .udiv _, three_toNat (by norm_num), matchUnsignedDivide_eq_none le_rfl⟩

/-! ## Signed division -/

/-- A division by a power of two rounds down; a negative number is biased to be rounded up. -/
theorem add_bias_ediv {x : ℤ} (hx : x < 0) (l : ℕ) :
    (x + (2 ^ l - 1)) / 2 ^ l = x.tdiv (2 ^ l) := by
  obtain ⟨k, rfl⟩ : ∃ k : ℕ, x = -(k : ℤ) := ⟨x.natAbs, by omega⟩
  have hpos : (0 : ℤ) < 2 ^ l := by positivity
  have hdiv := Int.emod_add_mul_ediv (k : ℤ) (2 ^ l)
  have hlow := Int.emod_nonneg (k : ℤ) hpos.ne'
  have hhigh := Int.emod_lt_of_pos (k : ℤ) hpos
  rw [Int.neg_tdiv, Int.tdiv_eq_ediv_of_nonneg (by omega), Int.ediv_eq_iff_of_pos hpos]
  constructor
  · linarith
  · linarith

/-- The sign bits which a negative number leaves at the bottom are its bias. -/
theorem sign_bits_toNat {w l : ℕ} (hl : 1 ≤ l) (hlw : l < w) {x : ℤ} (hlow : -2 ^ (w - 1) ≤ x)
    (hhigh : x < 2 ^ (w - 1)) :
    (Bits.ofInt w (x / 2 ^ (l - 1))).toNat / 2 ^ (w - l) = if x < 0 then 2 ^ l - 1 else 0 := by
  have hpos : (0 : ℤ) < 2 ^ (l - 1) := by positivity
  have hsplit : (2 : ℤ) ^ (w - 1) = 2 ^ (w - l) * 2 ^ (l - 1) := by
    rw [← pow_add, show w - l + (l - 1) = w - 1 by omega]
  have hwhole : (2 : ℤ) ^ w = 2 ^ l * 2 ^ (w - l) := by
    rw [← pow_add, Nat.add_sub_cancel' hlw.le]
  have hroom : (2 : ℤ) ^ (w - l) ≤ 2 ^ w := pow_le_pow_right₀ (by norm_num) (Nat.sub_le w l)
  have hylow : -2 ^ (w - l) ≤ x / 2 ^ (l - 1) := by
    rw [Int.le_ediv_iff_mul_le hpos]
    linarith
  have hyhigh : x / 2 ^ (l - 1) < 2 ^ (w - l) := by
    rw [Int.ediv_lt_iff_lt_mul hpos]
    linarith
  have hvalue := BitmapOps.ofInt_toNat w (x / 2 ^ (l - 1))
  split
  · rename_i hneg
    have hyneg : x / 2 ^ (l - 1) < 0 := Int.ediv_neg_of_neg_of_pos hneg hpos
    rw [← Int.add_emod_right, Int.emod_eq_of_lt (by omega) (by omega)] at hvalue
    have hone : 1 ≤ 2 ^ l := Nat.one_le_two_pow
    apply Nat.div_eq_of_lt_le
    · zify [hone]
      linarith
    · zify
      rw [hvalue, Nat.cast_sub hone]
      push_cast
      linarith
  · have hynonneg : 0 ≤ x / 2 ^ (l - 1) := Int.ediv_nonneg (by omega) hpos.le
    rw [Int.emod_eq_of_lt hynonneg (by omega)] at hvalue
    apply Nat.div_eq_of_lt
    zify
    rw [hvalue]
    exact hyhigh

/-- The signed value of a dividend lies in the range of its width. -/
theorem dividend_bounds {dividend : BitsNode} {w : ℕ} (hverified : dividend.Verified)
    (hwidth : dividend.bitCount = w) (hw : 0 < w) {env : ℕ → Bits} {n : Bits}
    (hn : dividend.eval env = some n) :
    n.bitCount = w ∧ -2 ^ (w - 1) ≤ BitsOps.toInt n ∧ BitsOps.toInt n < 2 ^ (w - 1) := by
  have hcount := eval_bitCount hverified hn
  rw [hwidth] at hcount
  have hcount : n.bitCount = w := by exact_mod_cast hcount
  rcases BitmapOps.toInt_bounds n with ⟨hzero, -⟩ | ⟨-, hlow, hhigh⟩
  · omega
  · rw [hcount] at hlow hhigh
    exact ⟨hcount, hlow, hhigh⟩

/-- The quotient by a power of two. -/
theorem divideByPowerOfTwo_spec {dividend : BitsNode} {w l : ℕ} (hverified : dividend.Verified)
    (hwidth : dividend.bitCount = w) (hl : 1 ≤ l) (hlw : l < w) (hw : w < 2 ^ 31) :
    ∃ e, divideByPowerOfTwo dividend l = some e ∧
      Computes dividend e w fun n => Bits.ofInt w ((BitsOps.toInt n).tdiv (2 ^ l)) := by
  have hself := Computes.self hverified hwidth
  obtain ⟨first, hfirst, hfirstLiteral⟩ := shiftLiteral_spec (l - 1) (by omega)
  obtain ⟨second, hsecond, hsecondLiteral⟩ := shiftLiteral_spec (w - l) (by omega)
  obtain ⟨third, hthird, hthirdLiteral⟩ := shiftLiteral_spec l (by omega)
  obtain ⟨hmakeSra, hsra⟩ := hself.shra (Computes.literal dividend first)
  obtain ⟨hmakeSrl, hsrl⟩ := hsra.shrl (Computes.literal dividend second)
  obtain ⟨hmakeAdd, hadd⟩ := hself.add hsrl
  obtain ⟨hmakeLast, hlast⟩ := hadd.shra (Computes.literal dividend third)
  refine ⟨_, ?_, hlast.congr fun {env n} hn => ?_⟩
  · have hone : (l : ℤ) - 1 = ((l - 1 : ℕ) : ℤ) := by omega
    have hrest : (w : ℤ) - l = ((w - l : ℕ) : ℤ) := by omega
    unfold divideByPowerOfTwo
    simp only [hwidth, hone, hrest, hfirstLiteral, hsecondLiteral, hthirdLiteral, hmakeSra,
      hmakeSrl, hmakeAdd, hmakeLast, Option.bind_eq_bind, Option.bind_some]
  · obtain ⟨-, hlow, hhigh⟩ := dividend_bounds hverified hwidth (by omega) hn
    have hbias := sign_bits_toNat hl hlw hlow hhigh
    have hpow : (2 : ℤ) ^ l ≤ 2 ^ (w - 1) := pow_le_pow_right₀ (by norm_num) (by omega)
    simp only [id, hfirst, hsecond, hthird, hbias]
    rw [SignedBits.ofNat_eq_ofInt]
    by_cases hneg : BitsOps.toInt n < 0
    · have hcast : ((2 ^ l - 1 : ℕ) : ℤ) = 2 ^ l - 1 := by
        rw [Nat.cast_sub Nat.one_le_two_pow]
        norm_cast
      have hb : BitsOps.toInt (Bits.ofInt w (2 ^ l - 1)) = 2 ^ l - 1 :=
        SignedBits.toInt_ofInt_of_bounds (by omega) (by omega) (by omega)
      have hsum : BitsOps.toInt (Bits.ofInt w (BitsOps.toInt n + (2 ^ l - 1))) =
          BitsOps.toInt n + (2 ^ l - 1) :=
        SignedBits.toInt_ofInt_of_bounds (by omega) (by omega) (by omega)
      rw [if_pos hneg, hcast, hb, hsum, add_bias_ediv hneg]
    · have hb : BitsOps.toInt (Bits.ofInt w 0) = 0 :=
        SignedBits.toInt_ofInt_of_bounds (by omega) (by omega) (by omega)
      have hsum : BitsOps.toInt (Bits.ofInt w (BitsOps.toInt n)) = BitsOps.toInt n :=
        SignedBits.toInt_ofInt_of_bounds (by omega) hlow hhigh
      rw [if_neg hneg, Nat.cast_zero, hb, add_zero, hsum, Int.tdiv_eq_ediv_of_nonneg (by omega)]

/-- A quotient by a power of two stays in the range. -/
theorem ediv_two_pow_bounds {x : ℤ} {w : ℕ} (hlow : -2 ^ w ≤ x) (hhigh : x < 2 ^ w) (k : ℕ) :
    -2 ^ w ≤ x / 2 ^ k ∧ x / 2 ^ k < 2 ^ w := by
  have hk : (1 : ℤ) ≤ 2 ^ k := one_le_pow₀ (by norm_num)
  constructor
  · rw [Int.le_ediv_iff_mul_le (by omega)]
    nlinarith
  · rw [Int.ediv_lt_iff_lt_mul (by omega)]
    nlinarith

/-- The sign of a number, shifted out. -/
theorem sign_ediv {x : ℤ} {w : ℕ} (hlow : -2 ^ (w - 1) ≤ x) (hhigh : x < 2 ^ (w - 1)) :
    x / 2 ^ (w - 1) = if x < 0 then -1 else 0 := by
  have hpos : (0 : ℤ) < 2 ^ (w - 1) := by positivity
  split
  · rw [Int.ediv_eq_iff_of_pos hpos]
    exact ⟨by omega, by omega⟩
  · rw [Int.ediv_eq_iff_of_pos hpos]
    exact ⟨by omega, by omega⟩

/-- The integer part of a product with a fixed-point number of `w` fractional bits fits in the
width of the number. -/
theorem integer_part_bounds {b : Bits} {m w : ℕ} {x : ℤ} (hb : BitsOps.toInt b = m) (hw : 1 ≤ w)
    (hpos : 0 < m) (hlow : -2 ^ (w - 1) ≤ x) (hhigh : x < 2 ^ (w - 1)) :
    0 < b.bitCount ∧ -2 ^ (b.bitCount - 1) ≤ (m : ℤ) * x / 2 ^ w ∧
      (m : ℤ) * x / 2 ^ w < 2 ^ (b.bitCount - 1) := by
  rcases BitmapOps.toInt_bounds b with ⟨-, hzero⟩ | ⟨hcount, -, hm⟩
  · omega
  · have hrange : (2 : ℤ) ^ w = 2 * 2 ^ (w - 1) := by
      rw [← pow_succ', Nat.sub_add_cancel hw]
    have hscale : (0 : ℤ) < 2 ^ w := by positivity
    refine ⟨hcount, ?_, ?_⟩
    · rw [Int.le_ediv_iff_mul_le hscale]
      nlinarith
    · rw [Int.ediv_lt_iff_lt_mul hscale]
      nlinarith

/-- The quotient by any other divisor. -/
theorem divideByMultiplying_spec {dividend : BitsNode} {w m postShift divisor : ℕ}
    (hverified : dividend.Verified) (hwidth : dividend.bitCount = w) (hw : 1 ≤ w)
    (hpost : postShift < 2 ^ 31) (hw' : w < 2 ^ 31)
    (hrec : IsReciprocal m divisor (w + postShift) (w - 1)) :
    ∃ e, divideByMultiplying dividend m postShift = some e ∧
      Computes dividend e w fun n => Bits.ofInt w ((BitsOps.toInt n).tdiv divisor) := by
  have hself := Computes.self hverified hwidth
  obtain ⟨first, hfirst, hfirstLiteral⟩ := shiftLiteral_spec postShift (by omega)
  obtain ⟨second, hsecond, hsecondLiteral⟩ := shiftLiteral_spec (w - 1) (by omega)
  generalize hmult : BigInt.toSignedBits m = multiplicand
  have hmultInt : BitsOps.toInt multiplicand = m := by
    rw [← hmult, BitsOps.toInt_toSignedBits]
  obtain ⟨hmakeMul, hmul⟩ := (Computes.literal dividend multiplicand).smul hself
  obtain ⟨hmakeSlice, hslice⟩ := hmul.sliceFrom w (by omega)
  rw [Nat.add_sub_cancel] at hslice
  obtain ⟨hmakeShift, hshift⟩ := hslice.shra (Computes.literal dividend first)
  obtain ⟨hmakeSign, hsign⟩ := hself.shra (Computes.literal dividend second)
  obtain ⟨resized, hresize, hresized⟩ := hshift.resizeSigned w
  obtain ⟨hmakeSub, hsub⟩ := hresized.sub hsign
  refine ⟨_, ?_, hsub.congr fun {env n} hn => ?_⟩
  · have hone : (w : ℤ) - 1 = ((w - 1 : ℕ) : ℤ) := by omega
    have hlit : (BitsNode.literal multiplicand).makeNode = some (.literal multiplicand) :=
      makeNode_eq_some rfl
    rw [hwidth] at hmakeMul hmakeSlice hmakeShift hresize
    unfold divideByMultiplying
    simp only [hmult, hwidth, hone, hfirstLiteral, hsecondLiteral, hlit, hmakeMul, hmakeSlice,
      hmakeShift, hmakeSign, hresize, hmakeSub, Option.bind_eq_bind, Option.bind_some]
  · obtain ⟨hcount, hlow, hhigh⟩ := dividend_bounds hverified hwidth (by omega) hn
    have hquotient := hrec.mul_ediv_eq hlow hhigh
    rw [pow_add, ← Int.ediv_ediv_of_nonneg (by positivity)] at hquotient
    have hm : 0 < m := by
      by_contra hm
      have hlt := hrec.lt
      rw [Nat.eq_zero_of_not_pos hm, Nat.zero_mul] at hlt
      exact Nat.not_lt_zero _ hlt
    obtain ⟨hpos, hpartLow, hpartHigh⟩ := integer_part_bounds hmultInt hw hm hlow hhigh
    have hproduct : BitsOps.toInt (Bits.ofInt (multiplicand.bitCount + w) (m * BitsOps.toInt n)) =
        m * BitsOps.toInt n := by
      have := SignedBits.toInt_sMul multiplicand n
      rwa [BitsOps.sMul, hmultInt, hcount] at this
    have hpart : BitsOps.toInt (BitsOps.slice
        (Bits.ofInt (multiplicand.bitCount + w) (m * BitsOps.toInt n)) w multiplicand.bitCount) =
        m * BitsOps.toInt n / 2 ^ w := by
      rw [SignedBits.slice_eq_ofInt _ (by rw [SignedBits.ofInt_bitCount]; omega), hproduct,
        SignedBits.toInt_ofInt_of_bounds hpos hpartLow hpartHigh]
    -- the shift keeps the number in the range
    have hshifted : BitsOps.toInt (Bits.ofInt multiplicand.bitCount
        (m * BitsOps.toInt n / 2 ^ w / 2 ^ postShift)) =
        m * BitsOps.toInt n / 2 ^ w / 2 ^ postShift := by
      obtain ⟨hlow', hhigh'⟩ := ediv_two_pow_bounds hpartLow hpartHigh postShift
      exact SignedBits.toInt_ofInt_of_bounds hpos hlow' hhigh'
    rw [hquotient] at hshifted
    simp only [id, hfirst, hsecond, hmultInt, hpart, hquotient, hshifted,
      SignedBits.ofInt_toInt_sub]
    rw [sign_ediv hlow hhigh]
    by_cases hneg : BitsOps.toInt n < 0
    · rw [if_pos hneg, if_pos hneg]
      ring_nf
    · rw [if_neg hneg, if_neg hneg]
      ring_nf

theorem maybeNegate_spec {dividend x : BitsNode} {w : ℕ} {q : Bits → ℤ} (negative : Bool)
    (hx : Computes dividend x w fun n => Bits.ofInt w (q n)) :
    ∃ e, maybeNegate negative x = some e ∧
      Computes dividend e w fun n => Bits.ofInt w (if negative then -q n else q n) := by
  cases negative with
  | false => exact ⟨x, rfl, hx⟩
  | true =>
    obtain ⟨hmake, hneg⟩ := hx.neg
    refine ⟨_, hmake, hneg.congr fun {env n} _ => ?_⟩
    rw [SignedBits.ofInt_neg_toInt, if_pos rfl]

/-- The nodes of a signed division compute the quotient. -/
theorem matchSignedDivide_computes {dividend : BitsNode} {d : Bits}
    (hverified : (binOp .sdiv dividend (.literal d)).Verified) (hzero : d.toNat ≠ 0)
    (hbound : d.bitCount + Nat.clog 2 (BitsOps.toInt d).natAbs < 2 ^ 31) :
    ∃ e, matchSignedDivide (.binOp .sdiv dividend (.literal d)) = some (some e) ∧
      Computes dividend e d.bitCount fun n => BitsOps.sDiv n d := by
  obtain ⟨hverify, hdividend, -⟩ := hverified
  have hwidth : dividend.bitCount = d.bitCount := of_decide_eq_true hverify
  -- the divisor is not zero, so there is a sign bit
  have hint : BitsOps.toInt d ≠ 0 := by
    intro hd
    have := BitsOps.toNat_eq_toInt_emod d
    rw [hd] at this
    exact hzero (by exact_mod_cast this)
  obtain ⟨hw, hlow, hhigh⟩ : 0 < d.bitCount ∧ -2 ^ (d.bitCount - 1) ≤ BitsOps.toInt d ∧
      BitsOps.toInt d < 2 ^ (d.bitCount - 1) := by
    rcases BitmapOps.toInt_bounds d with ⟨-, hd⟩ | h
    · exact absurd hd hint
    · exact h
  generalize hmag : (BitsOps.toInt d).natAbs = magnitude at hbound
  have hmag0 : magnitude ≠ 0 := by omega
  have hmagle : magnitude ≤ 2 ^ (d.bitCount - 1) := by
    zify
    omega
  obtain ⟨m, post, hchoose, hpost, hrec⟩ :=
    chooseMultiplier_spec hmag0 (Nat.sub_le d.bitCount 1) hbound
  have hprec : (d.bitCount : ℤ) - 1 = ((d.bitCount - 1 : ℕ) : ℤ) := by omega
  rw [← hprec] at hchoose
  have hmatch : ¬ d.isZero = true := by simpa [Bits.isZero] using hzero
  -- the quotient by the magnitude, and the sign
  have hsign : ∀ x : ℤ, x.tdiv (BitsOps.toInt d) =
      if decide (BitsOps.toInt d < 0) then -x.tdiv magnitude else x.tdiv magnitude := by
    intro x
    by_cases hneg : BitsOps.toInt d < 0
    · rw [if_pos (decide_eq_true hneg), ← Int.tdiv_neg]
      congr 1
      omega
    · rw [if_neg (by simpa using hneg)]
      congr 1
      omega
  have hgoal : ∀ {q : BitsNode}, (Computes dividend q d.bitCount fun n =>
        Bits.ofInt d.bitCount ((BitsOps.toInt n).tdiv magnitude)) →
      ∃ e, maybeNegate (decide (BitsOps.toInt d < 0)) q = some e ∧
        Computes dividend e d.bitCount fun n => BitsOps.sDiv n d := by
    intro q hq
    obtain ⟨e, hnegate, he⟩ := maybeNegate_spec (decide (BitsOps.toInt d < 0)) hq
    refine ⟨e, hnegate, he.congr fun {env n} hn => ?_⟩
    obtain ⟨hcount, -⟩ := dividend_bounds hdividend hwidth hw hn
    rw [SignedBits.sDiv_eq_ofInt n hzero, hcount, hsign]
  unfold matchSignedDivide
  simp only [if_pos hmatch, hwidth, hmag, hchoose, Option.bind_eq_bind, Option.bind_some]
  by_cases hone : magnitude = 1
  · -- the divisor is one or minus one
    have hself : Computes dividend dividend d.bitCount fun n =>
        Bits.ofInt d.bitCount ((BitsOps.toInt n).tdiv magnitude) := by
      refine (Computes.self hdividend hwidth).congr fun {env n} hn => ?_
      obtain ⟨hcount, -⟩ := dividend_bounds hdividend hwidth hw hn
      rw [hone, Nat.cast_one, Int.tdiv_one, ← hcount, BitmapBits.ofInt_toInt, id]
    obtain ⟨e, hnegate, he⟩ := hgoal hself
    rw [if_pos hone, hnegate]
    exact ⟨e, rfl, he⟩
  · rw [if_neg hone]
    have hpower : BigInt.exp2 (Nat.clog 2 magnitude : ℤ) = some (2 ^ Nat.clog 2 magnitude) :=
      BigInt.exp2_natCast (by omega)
    have hquotient : ∃ q, divideByMagnitude dividend
        (decide (magnitude = 2 ^ Nat.clog 2 magnitude)) (Nat.clog 2 magnitude : ℤ) m post = some q ∧
        Computes dividend q d.bitCount fun n =>
          Bits.ofInt d.bitCount ((BitsOps.toInt n).tdiv magnitude) := by
      unfold divideByMagnitude
      by_cases hpow : magnitude = 2 ^ Nat.clog 2 magnitude
      · rw [if_pos (decide_eq_true hpow)]
        have hl : 1 ≤ Nat.clog 2 magnitude := by
          by_contra hl
          rw [Nat.lt_one_iff.mp (not_le.mp hl)] at hpow
          exact hone hpow
        have hlw : Nat.clog 2 magnitude < d.bitCount := by
          have hle := Nat.clog_le_of_le_pow hmagle
          omega
        obtain ⟨q, hq, hcomputes⟩ := divideByPowerOfTwo_spec hdividend hwidth hl hlw (by omega)
        refine ⟨q, hq, hcomputes.congr fun {env n} _ => ?_⟩
        have hcast : ((2 : ℤ) ^ Nat.clog 2 magnitude) = magnitude := by exact_mod_cast hpow.symm
        rw [hcast]
      · rw [if_neg (by simpa using hpow)]
        exact divideByMultiplying_spec hdividend hwidth hw (by omega) (by omega) hrec
    obtain ⟨q, hq, hcomputes⟩ := hquotient
    obtain ⟨e, hnegate, he⟩ := hgoal hcomputes
    simp only [hpower, Option.bind_some, hq, hnegate]
    exact ⟨e, rfl, he⟩

/-- A signed division by a constant which is not zero is replaced by nodes which pass the
verifier and compute the quotient of `bits_ops::SDiv`. -/
theorem matchSignedDivide_exact {dividend : BitsNode} {d : Bits}
    (hverified : (binOp .sdiv dividend (.literal d)).Verified) (hzero : d.toNat ≠ 0)
    (hbound : d.bitCount + Nat.clog 2 (BitsOps.toInt d).natAbs < 2 ^ 31) :
    ∃ e, matchSignedDivide (.binOp .sdiv dividend (.literal d)) = some (some e) ∧
      e.Verified ∧ e.bitCount = d.bitCount ∧
      ∀ env n, dividend.eval env = some n → e.eval env = some (BitsOps.sDiv n d) := by
  obtain ⟨e, hmatch, he⟩ := matchSignedDivide_computes hverified hzero hbound
  exact ⟨e, hmatch, he.verified, he.bitCount, fun _ _ => he.value⟩

/-- The most negative dividend by minus one is itself. -/
theorem matchSignedDivide_exact_minusOne :
    ∃ e, matchSignedDivide (.binOp .sdiv (.source 0 8) (.literal (Bits.ofNat 8 255))) =
        some (some e) ∧ e.Verified ∧ e.bitCount = 8 ∧
      ∀ env n, (BitsNode.source 0 8).eval env = some n →
        e.eval env = some (BitsOps.sDiv n (Bits.ofNat 8 255)) := by
  refine matchSignedDivide_exact (d := Bits.ofNat 8 255) ⟨rfl, trivial, trivial⟩ (by decide) ?_
  have hint : (BitsOps.toInt (Bits.ofNat 8 255)).natAbs = 1 := rfl
  have hwidth : (Bits.ofNat 8 255).bitCount = 8 := rfl
  rw [hint, hwidth, Nat.clog_one_right]
  norm_num

theorem toInt_three {w : ℕ} (hw : 3 ≤ w) : BitsOps.toInt (Bits.ofNat w 3) = 3 := by
  rw [SignedBits.ofNat_eq_ofInt]
  have hpow : (2 : ℤ) ^ 2 ≤ 2 ^ (w - 1) := pow_le_pow_right₀ (by norm_num) (by omega)
  exact SignedBits.toInt_ofInt_of_bounds (by omega) (by omega) (by omega)

theorem matchSignedDivide_eq_none {w : ℕ} (hw : 2 ^ 31 ≤ w) :
    matchSignedDivide (.binOp .sdiv (.source 0 w) (.literal (Bits.ofNat w 3))) = none := by
  have hthree : (Bits.ofNat w 3).toNat = 3 := three_toNat (by omega)
  have hint : (BitsOps.toInt (Bits.ofNat w 3)).natAbs = 3 := by
    rw [toInt_three (by omega)]
    rfl
  have hmatch : ¬ (Bits.ofNat w 3).isZero = true := by rw [Bits.isZero, hthree]; decide
  have hsize : Nat.size 3 ≤ 2 ^ 31 := (Nat.size_le.mpr (by norm_num : 3 < 2 ^ 2)).trans (by norm_num)
  have hchoose : chooseMultiplier w 3 (w - 1) = none :=
    chooseMultiplier_eq_none (by norm_num) hsize (by omega)
  have hwidth : (BitsNode.source 0 w).bitCount = w := rfl
  unfold matchSignedDivide
  simp only [if_pos hmatch, hint, hwidth, hchoose, Option.bind_eq_bind, Option.bind_none]

/-- The division by three of a dividend of `2 ^ 31` bits is verified and not replaced. -/
theorem matchSignedDivide_tooWide :
    (binOp .sdiv (.source 0 (2 ^ 31)) (.literal (Bits.ofNat (2 ^ 31) 3))).Verified ∧
      (Bits.ofNat (2 ^ 31) 3).toNat = 3 ∧
      matchSignedDivide (.binOp .sdiv (.source 0 (2 ^ 31))
        (.literal (Bits.ofNat (2 ^ 31) 3))) = none :=
  ⟨verified_three .sdiv _, three_toNat (by norm_num), matchSignedDivide_eq_none le_rfl⟩

end ArithSimplification

end Xls
