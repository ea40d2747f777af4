/-
# Narrowed comparisons, shifts and additions

Within the bounds which a consistent engine gives, the narrowed operands have the values of the
operands.

* `Replaces`, `Preserves` : what a handler shows of the node which it substitutes;
* `narrowCompareOperands_preserves`, `maybeNarrowCompare_preserves` : comparisons;
* `maybeNarrowShiftAmount_preserves`, `handleAdd_preserves` : shifts and additions.
-/
import Xls.Passes.NarrowKnownBits

namespace Xls

namespace Narrowing

open BitsOps SignedBits

/-! ## The nodes of the handlers -/

section Nodes

variable {env : ℕ → Bits} {n lhs rhs : BitsNode} {v x y : Bits}

/-- The width of a verified node is not negative. -/
theorem exists_bitCount (h : n.Verified) : ∃ w : ℕ, n.bitCount = w := by
  apply Int.eq_ofNat_of_zero_le
  induction n with
  | source id width => exact Int.natCast_nonneg width
  | literal value => exact Int.natCast_nonneg _
  | neg operand ih => exact ih h
  | binOp op lhs rhs ihl _ => exact ihl h.2.1
  | arithOp op lhs rhs width _ _ => exact of_decide_eq_true h.1
  | compareOp op lhs rhs _ _ => exact Int.one_nonneg
  | bitSlice operand start width _ =>
    have hchecks := h.1
    simp only [BitsNode.verify, Bool.and_eq_true, decide_eq_true_eq] at hchecks
    exact hchecks.1.2
  | extendOp op operand newBitCount _ =>
    have hchecks := h.1
    simp only [BitsNode.verify, Bool.and_eq_true, decide_eq_true_eq] at hchecks
    exact hchecks.1

/-- A slice within the bounds of its operand passes the verifier. -/
theorem verify_bitSlice {w start width : ℕ} (hwidth : n.bitCount = w)
    (hle : start + width ≤ w) : (BitsNode.bitSlice n start width).verify = true := by
  rw [BitsNode.verify]
  simp only [Bool.and_eq_true, decide_eq_true_eq]
  omega

/-- `MakeNode` of a slice within the bounds. -/
theorem makeNode_bitSlice {w start width : ℕ} (hwidth : n.bitCount = w)
    (hle : start + width ≤ w) : BitsNode.makeNode (.bitSlice n start width) =
      some (.bitSlice n start width) :=
  BitsNode.makeNode_eq_some (verify_bitSlice hwidth hle)

/-- The same of the lowest bits. -/
theorem verify_lowBits {w width : ℕ} (hwidth : n.bitCount = w) (hle : width ≤ w) :
    (BitsNode.bitSlice n 0 width).verify = true := by
  have hverify : (BitsNode.bitSlice n (0 : ℕ) width).verify = true :=
    verify_bitSlice hwidth (by omega)
  exact hverify

theorem makeNode_lowBits {w width : ℕ} (hwidth : n.bitCount = w) (hle : width ≤ w) :
    BitsNode.makeNode (.bitSlice n 0 width) = some (.bitSlice n 0 width) :=
  BitsNode.makeNode_eq_some (verify_lowBits hwidth hle)

theorem eval_lowBits (hx : n.eval env = some x) {width : ℕ} (hle : width ≤ x.bitCount) :
    (BitsNode.bitSlice n 0 width).eval env = some (slice x 0 width) := by
  have heval : (BitsNode.bitSlice n (0 : ℕ) width).eval env = some (slice x 0 width) :=
    BitsNode.eval_bitSlice hx (by omega)
  exact heval

theorem replaceUsesWithNew_eq {bitCount : ℤ} (hverify : n.verify = true)
    (hwidth : n.bitCount = bitCount) : replaceUsesWithNew bitCount n = some (some n) := by
  rw [replaceUsesWithNew, BitsNode.makeNode_eq_some hverify, Option.bind_some, replaceUsesWith,
    if_pos hwidth]

end Nodes

/-! ## The handlers -/

/-- The node which replaces another one is verified, has its width, and has its value whenever the
values of the operands are as the engine knows them. -/
structure Replaces (engine : QueryEngine) (operands : List NodePtr) (node result : BitsNode) :
    Prop where
  verified : result.Verified
  bitCount : result.bitCount = node.bitCount
  eval : ∀ env, Consistent engine env operands → ∀ v, node.eval env = some v →
    result.eval env = some v

/-- A handler fails no check, and a node which it substitutes replaces the node at hand. -/
def Preserves (engine : QueryEngine) (operands : List NodePtr) (node : BitsNode)
    (outcome : Option (Option BitsNode)) : Prop :=
  ∃ result, outcome = some result ∧ ∀ n ∈ result, Replaces engine operands node n

section Handlers

variable {engine : QueryEngine} {operands : List NodePtr} {node n : BitsNode}
variable {lhs rhs : NodePtr} {w : ℕ}

theorem preserves_noChange : Preserves engine operands node (some none) := by
  refine ⟨none, rfl, ?_⟩
  intro n hn
  cases hn

theorem preserves_of_replaces {outcome : Option (Option BitsNode)}
    (houtcome : outcome = some (some n)) (h : Replaces engine operands node n) :
    Preserves engine operands node outcome := by
  refine ⟨some n, houtcome, ?_⟩
  intro m hm
  cases hm
  exact h

variable {l r : BitsNode}

/-- The values of the operands of a node with two operands. -/
theorem eval_compareOp_eq_some {env : ℕ → Bits} {op : ComparisonOp} {v : Bits}
    (h : (BitsNode.compareOp op l r).eval env = some v) :
    ∃ x y, l.eval env = some x ∧ r.eval env = some y ∧
      v = ofBool (BitsNode.evalCompareOp op x y) := by
  obtain ⟨x, hx, h⟩ := Option.bind_eq_some_iff.mp h
  obtain ⟨y, hy, h⟩ := Option.bind_eq_some_iff.mp h
  exact ⟨x, y, hx, hy, (Option.some.inj h).symm⟩

theorem eval_compareOp {env : ℕ → Bits} {op : ComparisonOp} {x y : Bits} (hx : l.eval env = some x)
    (hy : r.eval env = some y) :
    (BitsNode.compareOp op l r).eval env = some (ofBool (BitsNode.evalCompareOp op x y)) := by
  simp only [BitsNode.eval, hx, hy, Option.bind_eq_bind, Option.bind_some]

/-- The comparison of slices of the operands, where it has the value of the comparison. -/
theorem narrowCompareOperands_preserves {op : ComparisonOp} (hl : lhs.node.Verified)
    (hr : rhs.node.Verified) (hwl : lhs.node.bitCount = w) (hwr : rhs.node.bitCount = w)
    (start bitCount : ℕ) (hle : start + bitCount ≤ w)
    (hvalue : ∀ env, Consistent engine env [lhs, rhs] → ∀ x y, lhs.node.eval env = some x →
      rhs.node.eval env = some y → x.bitCount = w → y.bitCount = w →
      BitsNode.evalCompareOp op (slice x start bitCount) (slice y start bitCount) =
        BitsNode.evalCompareOp op x y) :
    Preserves engine [lhs, rhs] (.compareOp op lhs.node rhs.node)
      (narrowCompareOperands op lhs.node rhs.node start bitCount) := by
  have hverify : (BitsNode.compareOp op (.bitSlice lhs.node start bitCount)
      (.bitSlice rhs.node start bitCount)).verify = true := decide_eq_true rfl
  refine preserves_of_replaces (n := .compareOp op (.bitSlice lhs.node start bitCount)
    (.bitSlice rhs.node start bitCount)) ?_ ⟨⟨hverify, ⟨verify_bitSlice hwl hle, hl⟩,
      verify_bitSlice hwr hle, hr⟩, rfl, ?_⟩
  · rw [narrowCompareOperands, makeNode_bitSlice hwl hle, Option.bind_eq_bind,
      makeNode_bitSlice hwr hle]
    exact replaceUsesWithNew_eq hverify rfl
  · intro env hconsistent v hv
    obtain ⟨x, y, hx, hy, rfl⟩ := eval_compareOp_eq_some hv
    have hwx : x.bitCount = w := by
      have := BitsNode.eval_bitCount hl hx
      omega
    have hwy : y.bitCount = w := by
      have := BitsNode.eval_bitCount hr hy
      omega
    rw [eval_compareOp (BitsNode.eval_bitSlice hx (hwx.symm ▸ hle))
      (BitsNode.eval_bitSlice hy (hwy.symm ▸ hle)), hvalue env hconsistent x y hx hy hwx hwy]

theorem maxUnextendedWidth_eq_some {width : ℤ} (h : maxUnextendedWidth l r = some width) :
    ∃ a b wa wb, l = .extendOp .signExt a wa ∧ r = .extendOp .signExt b wb ∧
      width = max a.bitCount b.bitCount := by
  unfold maxUnextendedWidth at h
  split at h
  · cases h
    exact ⟨_, _, _, _, rfl, rfl, rfl⟩
  · cases h

/-- The value of a sign-extension. -/
theorem eval_signExt_eq_some {env : ℕ → Bits} {a : BitsNode} {wa : ℤ} {v : Bits}
    (h : (BitsNode.extendOp .signExt a wa).eval env = some v) :
    ∃ u, a.eval env = some u ∧ v = signExtend u v.bitCount ∧ u.bitCount ≤ v.bitCount := by
  obtain ⟨u, hu, h⟩ := Option.bind_eq_some_iff.mp h
  unfold BitsNode.evalExtendOp at h
  rw [Option.ite_none_right_eq_some] at h
  obtain ⟨⟨hnonneg, hle⟩, h⟩ := h
  have hle' : u.bitCount ≤ wa.toNat := by omega
  have hv : v = signExtend u wa.toNat := (Option.some.inj h).symm
  have hwidth : v.bitCount = wa.toNat := by rw [hv, signExtend_bitCount hle']
  exact ⟨u, hu, hwidth.symm ▸ hv, by omega⟩

/-- `MaybeNarrowCompare`. -/
theorem maybeNarrowCompare_preserves (lhs rhs : NodePtr) {op : ComparisonOp} (hl : lhs.node.Verified)
    (hr : rhs.node.Verified) (hsame : lhs.node.bitCount = rhs.node.bitCount) :
    Preserves engine [lhs, rhs] (.compareOp op lhs.node rhs.node)
      (maybeNarrowCompare engine op lhs rhs) := by
  obtain ⟨w, hwl⟩ := exists_bitCount hl
  have hwr : rhs.node.bitCount = w := hsame ▸ hwl
  have hmeml : lhs ∈ [lhs, rhs] := List.mem_cons_self
  have hmemr : rhs ∈ [lhs, rhs] := List.mem_cons_of_mem _ List.mem_cons_self
  unfold maybeNarrowCompare
  by_cases hmatched : (isUnsignedCompare op ∨ op = .eq ∨ op = .ne) ∧
      (matchedLeadingOperandBits engine lhs rhs > 0 ∨
        matchedTrailingOperandBits engine lhs rhs > 0) ∧
      !decide ((matchedLeadingOperandBits engine lhs rhs : ℤ) = lhs.node.bitCount)
  · -- the bits which agree at both ends
    rw [if_pos hmatched]
    obtain ⟨hop, -, hnotall⟩ := hmatched
    have hop : isSignedCompare op = false := by cases op <;> simp_all [isUnsignedCompare,
      isSignedCompare]
    have hleading : matchedLeadingOperandBits engine lhs rhs < w := by
      have hle : matchedLeadingOperandBits engine lhs rhs ≤ w := by
        rw [matchedLeadingOperandBits, hwl]
        exact countLeading_le _ w
      simp only [Bool.not_eq_true', decide_eq_false_iff_not, hwl] at hnotall
      omega
    -- the bit at which the leading ones end stops the trailing ones as well
    have htrailing : matchedTrailingOperandBits engine lhs rhs ≤
        w - 1 - matchedLeadingOperandBits engine lhs rhs := by
      apply countTrailing_le_of_not_known (Nat.zero_le _)
      rw [matchedLeadingOperandBits, hwl] at hleading ⊢
      exact not_known_of_countLeading hleading
    have hcast : lhs.node.bitCount - matchedLeadingOperandBits engine lhs rhs -
        matchedTrailingOperandBits engine lhs rhs =
        ((w - matchedLeadingOperandBits engine lhs rhs -
          matchedTrailingOperandBits engine lhs rhs : ℕ) : ℤ) := by omega
    rw [hcast]
    apply narrowCompareOperands_preserves hl hr hwl hwr _ _ (by omega)
    intro env hconsistent x y hx hy hwx hwy
    rw [← hwx]
    apply compare_slice hop (hwx.trans hwy.symm) (by omega)
    · intro i hi hlt
      rw [matchedLeadingOperandBits, hwl, hwx] at hi
      exact hconsistent.equals lhs hmeml rhs hmemr x y hx hy i hlt i (by omega)
        (known_of_countLeading hi (by omega))
    · intro i hi
      exact hconsistent.equals lhs hmeml rhs hmemr x y hx hy i (by omega) i (by omega)
        (known_of_countTrailing (Nat.zero_le i) hi)
  · rw [if_neg hmatched]
    by_cases hcommon : isSignedCompare op = true ∧ commonLeadingOnesOrZeros engine lhs rhs > 1
    · -- the leading zeros or ones which both operands have
      rw [if_pos hcommon]
      obtain ⟨hop, hgt⟩ := hcommon
      have hzl := countLeadingKnownZeros_le engine hwl
      have hol := countLeadingKnownOnes_le engine hwl
      have hbound := commonLeadingOnesOrZeros_le engine lhs rhs
      have hcast : lhs.node.bitCount - commonLeadingOnesOrZeros engine lhs rhs + 1 =
          ((w - commonLeadingOnesOrZeros engine lhs rhs + 1 : ℕ) : ℤ) := by omega
      rw [hcast]
      apply narrowCompareOperands_preserves hl hr hwl hwr 0 _ (by omega)
      intro env hconsistent x y hx hy hwx hwy
      have hxslice := hconsistent.toInt_slice hmeml hl hx
        (k := commonLeadingOnesOrZeros engine lhs rhs) (by omega) (by omega)
      have hyslice := hconsistent.toInt_slice hmemr hr hy
        (k := commonLeadingOnesOrZeros engine lhs rhs) (by omega) (by omega)
      rw [hwx] at hxslice
      rw [hwy] at hyslice
      exact evalCompareOp_of_toInt_eq hop hxslice hyslice
    · rw [if_neg hcommon]
      by_cases hop : isSignedCompare op = true
      · rw [if_pos hop]
        cases hwidths : maxUnextendedWidth lhs.node rhs.node with
        | none => exact preserves_noChange
        | some width =>
          dsimp only
          by_cases hlt : width < lhs.node.bitCount
          · -- both operands are sign-extended
            rw [if_pos hlt]
            obtain ⟨a, b, wa, wb, hla, hrb, hmax⟩ := maxUnextendedWidth_eq_some hwidths
            have hal : a.Verified := by
              rw [hla] at hl
              exact hl.2
            have hbr : b.Verified := by
              rw [hrb] at hr
              exact hr.2
            obtain ⟨ua, hua⟩ := exists_bitCount hal
            obtain ⟨ub, hub⟩ := exists_bitCount hbr
            have hcast : width = ((max ua ub : ℕ) : ℤ) := by rw [hmax, hua, hub, Nat.cast_max]
            rw [hcast] at hlt ⊢
            apply narrowCompareOperands_preserves hl hr hwl hwr 0 _ (by omega)
            intro env _ x y hx hy hwx hwy
            rw [hla] at hx
            rw [hrb] at hy
            obtain ⟨u, hu, hxu, -⟩ := eval_signExt_eq_some hx
            obtain ⟨t, ht, hyt, -⟩ := eval_signExt_eq_some hy
            have hwu := BitsNode.eval_bitCount hal hu
            have hwt := BitsNode.eval_bitCount hbr ht
            apply evalCompareOp_of_toInt_eq hop
            · rw [hxu]
              exact toInt_slice_signExtend (by omega) (by omega)
            · rw [hyt]
              exact toInt_slice_signExtend (by omega) (by omega)
          · rw [if_neg hlt]
            exact preserves_noChange
      · rw [if_neg hop]
        exact preserves_noChange

/-! ### Shifts -/

theorem eval_binOp_eq_some {env : ℕ → Bits} {op : BinaryOp} {v : Bits}
    (h : (BitsNode.binOp op l r).eval env = some v) :
    ∃ x y, l.eval env = some x ∧ r.eval env = some y ∧ BitsNode.evalBinOp op x y = some v := by
  obtain ⟨x, hx, h⟩ := Option.bind_eq_some_iff.mp h
  obtain ⟨y, hy, h⟩ := Option.bind_eq_some_iff.mp h
  exact ⟨x, y, hx, hy, h⟩

theorem eval_binOp {env : ℕ → Bits} {op : BinaryOp} {x y : Bits} (hx : l.eval env = some x)
    (hy : r.eval env = some y) : (BitsNode.binOp op l r).eval env = BitsNode.evalBinOp op x y := by
  simp only [BitsNode.eval, hx, hy, Option.bind_eq_bind, Option.bind_some]

/-- Of a shift amount only the value counts. -/
theorem evalBinOp_of_toNat_eq {op : BinaryOp} (hop : op.isShift = true) (x : Bits) {y y' : Bits}
    (h : y'.toNat = y.toNat) : BitsNode.evalBinOp op x y' = BitsNode.evalBinOp op x y := by
  cases op with
  | shll =>
    rw [BitsNode.evalBinOp, BitsNode.evalBinOp, BitsNode.shiftLeftLogical_bounded,
      BitsNode.shiftLeftLogical_bounded, h]
  | shra =>
    rw [BitsNode.evalBinOp, BitsNode.evalBinOp, BitsNode.shiftRightArith_bounded,
      BitsNode.shiftRightArith_bounded, h]
  | shrl =>
    rw [BitsNode.evalBinOp, BitsNode.evalBinOp, BitsNode.shiftRightLogical_bounded,
      BitsNode.shiftRightLogical_bounded, h]
  | add | sub | udiv | sdiv => cases hop

theorem ofNat_toNat_eq (x : Bits) : Bits.ofNat x.bitCount x.toNat = x :=
  Bits.ext rfl (Nat.mod_eq_of_lt x.isLt)

theorem shiftLeftLogical_zero (x : Bits) : shiftLeftLogical x 0 = x := by
  unfold shiftLeftLogical
  rw [Nat.zero_min]
  apply Bits.ext
  · rfl
  · rw [append_toNat, Nat.sub_zero, slice_toNat_of_lt x.isLt]
    simp

/-- A shift by zero is the vector. -/
theorem evalBinOp_of_toNat_eq_zero {op : BinaryOp} (hop : op.isShift = true) (x : Bits) {y : Bits}
    (h : y.toNat = 0) : BitsNode.evalBinOp op x y = some x := by
  cases op with
  | shll => rw [BitsNode.evalBinOp, BitsNode.shiftLeftLogical_bounded, h, shiftLeftLogical_zero]
  | shra =>
    rw [BitsNode.evalBinOp, BitsNode.shiftRightArith_bounded, h, shiftRightArith_eq_ofInt,
      pow_zero, Int.ediv_one, BitmapBits.ofInt_toInt]
  | shrl =>
    rw [BitsNode.evalBinOp, BitsNode.shiftRightLogical_bounded, h, shiftRightLogical_eq_ofNat,
      pow_zero, Nat.div_one, ofNat_toNat_eq]
  | add | sub | udiv | sdiv => cases hop

/-- `MaybeNarrowShiftAmount`. -/
theorem maybeNarrowShiftAmount_preserves (lhs rhs : NodePtr) {op : BinaryOp} (hop : op.isShift = true)
    (hl : lhs.node.Verified) (hr : rhs.node.Verified) :
    Preserves engine [lhs, rhs] (.binOp op lhs.node rhs.node)
      (maybeNarrowShiftAmount engine op lhs rhs) := by
  obtain ⟨w, hwr⟩ := exists_bitCount hr
  have hmemr : rhs ∈ [lhs, rhs] := List.mem_cons_of_mem _ List.mem_cons_self
  have hle := countLeadingKnownZeros_le engine hwr
  have hshift : (BitsNode.binOp op lhs.node rhs.node).bitCount = lhs.node.bitCount := rfl
  unfold maybeNarrowShiftAmount
  rw [hop, Bool.not_true]
  rw [hshift]
  by_cases hall : (countLeadingKnownZeros engine rhs : ℤ) = rhs.node.bitCount
  · -- the shift amount is zero
    rw [if_pos hall, if_pos rfl]
    refine preserves_of_replaces (if_pos rfl) ⟨hl, rfl, fun env hconsistent v hv => ?_⟩
    obtain ⟨x, y, hx, hy, hvalue⟩ := eval_binOp_eq_some hv
    have hlt := hconsistent.toNat_lt hmemr hr hy
    have hwidth := BitsNode.eval_bitCount hr hy
    rw [show y.bitCount - countLeadingKnownZeros engine rhs = 0 by omega] at hlt
    rw [hx, ← hvalue, evalBinOp_of_toNat_eq_zero hop x (by omega)]
  · rw [if_neg hall]
    by_cases hpos : countLeadingKnownZeros engine rhs > 0
    · -- the leading zeros of the shift amount
      rw [if_pos hpos]
      have hcast : rhs.node.bitCount - countLeadingKnownZeros engine rhs =
          ((w - countLeadingKnownZeros engine rhs : ℕ) : ℤ) := by omega
      have hverify : (BitsNode.binOp op lhs.node (.bitSlice rhs.node 0
          ((w - countLeadingKnownZeros engine rhs : ℕ) : ℤ))).verify = true := by
        rw [BitsNode.verify, hop, Bool.true_or]
      have hslice : w - countLeadingKnownZeros engine rhs ≤ w := Nat.sub_le _ _
      rw [hcast]
      refine preserves_of_replaces (n := .binOp op lhs.node (.bitSlice rhs.node 0
        ((w - countLeadingKnownZeros engine rhs : ℕ) : ℤ))) ?_
        ⟨⟨hverify, hl, verify_lowBits hwr hslice, hr⟩, rfl, fun env hconsistent v hv => ?_⟩
      · rw [Option.bind_eq_bind, makeNode_lowBits hwr hslice]
        exact replaceUsesWithNew_eq hverify rfl
      · obtain ⟨x, y, hx, hy, hvalue⟩ := eval_binOp_eq_some hv
        have hwidth := BitsNode.eval_bitCount hr hy
        have hwy : y.bitCount = w := by omega
        have hlt := hconsistent.toNat_lt hmemr hr hy
        rw [hwy] at hlt
        rw [eval_binOp hx (eval_lowBits hy (hwy.symm ▸ hslice)), ← hvalue]
        exact evalBinOp_of_toNat_eq hop x (slice_toNat_of_lt hlt)
    · rw [if_neg hpos]
      exact preserves_noChange

/-! ### Additions -/

/-- `HandleAdd`. -/
theorem handleAdd_preserves (lhs rhs : NodePtr) (hl : lhs.node.Verified) (hr : rhs.node.Verified)
    (hsame : lhs.node.bitCount = rhs.node.bitCount) :
    Preserves engine [lhs, rhs] (.binOp .add lhs.node rhs.node) (handleAdd engine lhs rhs) := by
  obtain ⟨w, hwl⟩ := exists_bitCount hl
  have hwr : rhs.node.bitCount = w := hsame ▸ hwl
  have hmeml : lhs ∈ [lhs, rhs] := List.mem_cons_self
  have hmemr : rhs ∈ [lhs, rhs] := List.mem_cons_of_mem _ List.mem_cons_self
  have hadd : (BitsNode.binOp .add lhs.node rhs.node).bitCount = w := hwl
  unfold handleAdd
  rw [if_neg (not_not.mpr hsame)]
  rw [hadd]
  generalize hz : min (countLeadingKnownZeros engine lhs) (countLeadingKnownZeros engine rhs) = z
  by_cases hgt : z > 1
  · rw [if_pos hgt]
    by_cases hall : (z : ℤ) = w
    · rw [if_pos hall]
      exact preserves_noChange
    · -- all but one of the common leading zeros
      rw [if_neg hall]
      have hle := countLeadingKnownZeros_le engine hwl
      have hcast : (w : ℤ) - z + 1 = ((w - z + 1 : ℕ) : ℤ) := by omega
      have hslice : w - z + 1 ≤ w := by omega
      have hverifyAdd : (BitsNode.binOp .add (.bitSlice lhs.node 0 ((w - z + 1 : ℕ) : ℤ))
          (.bitSlice rhs.node 0 ((w - z + 1 : ℕ) : ℤ))).verify = true := by
        exact decide_eq_true rfl
      have hverify : (BitsNode.extendOp .zeroExt (.binOp .add
          (.bitSlice lhs.node 0 ((w - z + 1 : ℕ) : ℤ))
          (.bitSlice rhs.node 0 ((w - z + 1 : ℕ) : ℤ))) w).verify = true := by
        rw [BitsNode.verify, Bool.and_eq_true, decide_eq_true_eq, decide_eq_true_eq]
        refine ⟨Int.natCast_nonneg w, ?_⟩
        show ((w - z + 1 : ℕ) : ℤ) ≤ w
        omega
      rw [hcast]
      refine preserves_of_replaces (n := .extendOp .zeroExt (.binOp .add
          (.bitSlice lhs.node 0 ((w - z + 1 : ℕ) : ℤ))
          (.bitSlice rhs.node 0 ((w - z + 1 : ℕ) : ℤ))) w) ?_
        ⟨⟨hverify, hverifyAdd, ⟨verify_lowBits hwl hslice, hl⟩,
          verify_lowBits hwr hslice, hr⟩, hadd.symm, fun env hconsistent v hv => ?_⟩
      · simp only [Option.bind_eq_bind]
        rw [makeNode_lowBits hwl hslice, Option.bind_some,
          makeNode_lowBits hwr hslice, Option.bind_some,
          BitsNode.makeNode_eq_some hverifyAdd]
        exact replaceUsesWithNew_eq hverify rfl
      · obtain ⟨x, y, hx, hy, hvalue⟩ := eval_binOp_eq_some hv
        have hwx : x.bitCount = w := by
          have := BitsNode.eval_bitCount hl hx
          omega
        have hwy : y.bitCount = w := by
          have := BitsNode.eval_bitCount hr hy
          omega
        have hbound : ∀ (m : NodePtr) (u : Bits), m ∈ [lhs, rhs] → m.node.Verified →
            m.node.eval env = some u → u.bitCount = w →
            z ≤ countLeadingKnownZeros engine m → u.toNat < 2 ^ (w - z) := by
          intro m u hm hverified hu hwu hzm
          have hlt := hconsistent.toNat_lt hm hverified hu
          exact hlt.trans_le (Nat.pow_le_pow_right (by norm_num) (by omega))
        have hxlt := hbound lhs x hmeml hl hx hwx (by omega)
        have hylt := hbound rhs y hmemr hr hy hwy (by omega)
        have hpow : 2 ^ (w - z + 1) = 2 ^ (w - z) + 2 ^ (w - z) := by rw [pow_succ, mul_two]
        -- the sum of the slices does not wrap
        have hsx : (slice x 0 (w - z + 1)).toNat = x.toNat := slice_toNat_of_lt (by omega)
        have hsy : (slice y 0 (w - z + 1)).toNat = y.toNat := slice_toNat_of_lt (by omega)
        have hsum : (add (slice x 0 (w - z + 1)) (slice y 0 (w - z + 1))).toNat =
            x.toNat + y.toNat := by
          rw [add_toNat_of_lt, hsx, hsy]
          rw [slice_bitCount]
          omega
        have hnarrow : (BitsNode.binOp .add (.bitSlice lhs.node 0 ((w - z + 1 : ℕ) : ℤ))
            (.bitSlice rhs.node 0 ((w - z + 1 : ℕ) : ℤ))).eval env =
            some (add (slice x 0 (w - z + 1)) (slice y 0 (w - z + 1))) := by
          rw [eval_binOp (eval_lowBits hx (hwx.symm ▸ hslice))
            (eval_lowBits hy (hwy.symm ▸ hslice)), BitsNode.evalBinOp,
            slice_bitCount, slice_bitCount, if_pos rfl]
        rw [BitsNode.evalBinOp, if_pos (hwx.trans hwy.symm)] at hvalue
        rw [BitsNode.eval_zeroExt hnarrow (by rw [add_bitCount, slice_bitCount]; omega), hsum,
          ← hvalue, add, hwx]
  · rw [if_neg hgt]
    exact preserves_noChange

end Handlers

end Narrowing

end Xls
