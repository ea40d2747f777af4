/-
# Narrowing keeps the values

What a consistent engine knows of the operands bounds their values, and within these bounds the
narrowed operands have the values of the operands.

* `product_of_emod_eq` : a product depends on the low bits of its operands;
* `maybeNarrowMultiply_preserves` : multiplications;
* `visit_preserves` : every node which a handler puts in the place of another has its value.
-/
import Xls.Passes.NarrowHandlers

namespace Xls

namespace Narrowing

open BitsOps SignedBits

section Handlers

variable {engine : QueryEngine} {operands : List NodePtr} {node n l r : BitsNode}
variable {lhs rhs : NodePtr} {w : ℕ}

/-! ## Multiplications -/

/-- The product of the operands at a width, which the operation reads as signed or as unsigned. -/
def product (op : ArithmeticOp) (w : ℕ) (x y : Bits) : Bits :=
  match op with
  | .smul => Bits.ofInt w (toInt x * toInt y)
  | .umul => Bits.ofNat w (x.toNat * y.toNat)

theorem eval_arithOp {env : ℕ → Bits} {op : ArithmeticOp} {x y : Bits} (hx : l.eval env = some x)
    (hy : r.eval env = some y) (w : ℕ) :
    (BitsNode.arithOp op l r w).eval env = some (product op w x y) := by
  cases op with
  | smul => exact BitsNode.eval_smul hx hy w
  | umul => exact BitsNode.eval_umul hx hy w

theorem eval_arithOp_eq_some {env : ℕ → Bits} {op : ArithmeticOp} {v : Bits}
    (h : (BitsNode.arithOp op l r w).eval env = some v) :
    ∃ x y, l.eval env = some x ∧ r.eval env = some y ∧ v = product op w x y := by
  obtain ⟨x, hx, hrest⟩ := Option.bind_eq_some_iff.mp h
  obtain ⟨y, hy, -⟩ := Option.bind_eq_some_iff.mp hrest
  rw [eval_arithOp hx hy] at h
  exact ⟨x, y, hx, hy, (Option.some.inj h).symm⟩

@[simp] theorem product_bitCount (op : ArithmeticOp) (w : ℕ) (x y : Bits) :
    (product op w x y).bitCount = w := by
  cases op <;> rfl

/-- Products of operands which agree modulo the range of the result. -/
theorem product_of_emod_eq {op : ArithmeticOp} {x y x' y' : Bits}
    (hx : (x'.toNat : ℤ) % 2 ^ w = x.toNat % 2 ^ w ∧ toInt x' % 2 ^ w = toInt x % 2 ^ w)
    (hy : (y'.toNat : ℤ) % 2 ^ w = y.toNat % 2 ^ w ∧ toInt y' % 2 ^ w = toInt y % 2 ^ w) :
    product op w x' y' = product op w x y := by
  cases op with
  | smul =>
    apply BitmapOps.ofInt_congr
    rw [Int.mul_emod, hx.2, hy.2, ← Int.mul_emod]
  | umul =>
    show Bits.ofNat w (x'.toNat * y'.toNat) = Bits.ofNat w (x.toNat * y.toNat)
    rw [ofNat_eq_ofInt, ofNat_eq_ofInt]
    apply BitmapOps.ofInt_congr
    rw [Nat.cast_mul, Nat.cast_mul, Int.mul_emod, hx.1, hy.1, ← Int.mul_emod]

/-- At the width of both operands it does not matter whether they are signed. -/
theorem product_of_sameWidth {x y : Bits} (hx : x.bitCount = w) (hy : y.bitCount = w)
    (op op' : ArithmeticOp) : product op w x y = product op' w x y := by
  have heq : Bits.ofInt w (toInt x * toInt y) = Bits.ofNat w (x.toNat * y.toNat) := by
    have hxmod := BitmapOps.toInt_emod x
    have hymod := BitmapOps.toInt_emod y
    rw [hx] at hxmod
    rw [hy] at hymod
    rw [ofNat_eq_ofInt]
    apply BitmapOps.ofInt_congr
    rw [Nat.cast_mul, Int.mul_emod, hxmod, hymod, ← Int.mul_emod]
  cases op with
  | smul =>
    cases op' with
    | smul => rfl
    | umul => exact heq
  | umul =>
    cases op' with
    | smul => exact heq.symm
    | umul => rfl

/-- The full product, extended. -/
theorem eval_extended_product {env : ℕ → Bits} {op : ArithmeticOp} {n : BitsNode} {x y : Bits}
    (hn : n.eval env = some (product op (x.bitCount + y.bitCount) x y))
    (hw : x.bitCount + y.bitCount ≤ w) :
    (BitsNode.extendOp (if op == .smul then .signExt else .zeroExt) n w).eval env =
      some (product op w x y) := by
  cases op with
  | smul =>
    have hfull : product .smul (x.bitCount + y.bitCount) x y = sMul x y := rfl
    show (BitsNode.extendOp .signExt n w).eval env = _
    rw [BitsNode.eval_signExt hn (by rwa [product_bitCount]), hfull, toInt_sMul]
    rfl
  | umul =>
    have hfull : product .umul (x.bitCount + y.bitCount) x y = uMul x y := rfl
    show (BitsNode.extendOp .zeroExt n w).eval env = _
    rw [BitsNode.eval_zeroExt hn (by rwa [product_bitCount]), hfull, uMul_toNat]
    rfl

/-- A result wider than the operands together. -/
theorem narrowResult_preserves {op : ArithmeticOp} (hl : lhs.node.Verified)
    (hr : rhs.node.Verified) {a b : ℕ} (ha : lhs.node.bitCount = a) (hb : rhs.node.bitCount = b)
    (hlt : a + b < w) :
    Preserves engine operands (.arithOp op lhs.node rhs.node w)
      ((BitsNode.makeNode (.arithOp op lhs.node rhs.node ((a : ℤ) + b))).bind fun narrowedMul =>
        (maybeExtend narrowedMul w (op == .smul)).bind (replaceUsesWith w)) := by
  have hverifyMul : (BitsNode.arithOp op lhs.node rhs.node ((a : ℤ) + b)).verify = true := by
    rw [BitsNode.verify, decide_eq_true_eq]
    omega
  have hverify : (BitsNode.extendOp (if op == .smul then .signExt else .zeroExt)
      (.arithOp op lhs.node rhs.node ((a : ℤ) + b)) w).verify = true := by
    rw [BitsNode.verify, Bool.and_eq_true, decide_eq_true_eq, decide_eq_true_eq]
    refine ⟨Int.natCast_nonneg w, ?_⟩
    show (a : ℤ) + b ≤ w
    omega
  refine preserves_of_replaces (n := .extendOp (if op == .smul then .signExt else .zeroExt)
      (.arithOp op lhs.node rhs.node ((a : ℤ) + b)) w) ?_
    ⟨⟨hverify, hverifyMul, hl, hr⟩, rfl, fun env _ v hv => ?_⟩
  · have hwidth : (BitsNode.arithOp op lhs.node rhs.node ((a : ℤ) + b)).bitCount = a + b := rfl
    rw [BitsNode.makeNode_eq_some hverifyMul, Option.bind_some, maybeExtend, if_pos (by omega),
      if_neg (by omega), BitsNode.makeNode_eq_some hverify]
    exact if_pos rfl
  · obtain ⟨x, y, hx, hy, rfl⟩ := eval_arithOp_eq_some hv
    have hwx : x.bitCount = a := by
      have := BitsNode.eval_bitCount hl hx
      omega
    have hwy : y.bitCount = b := by
      have := BitsNode.eval_bitCount hr hy
      omega
    apply eval_extended_product
    · rw [hwx, hwy, ← eval_arithOp hx hy (a + b), Nat.cast_add]
    · omega

/-- An operand cut to the width of the result. -/
theorem narrowToResult_spec (hn : n.Verified) (w : ℕ) :
    ∃ m, narrowToResult n w = some m ∧ m.Verified ∧ ∀ env x, n.eval env = some x →
      ∃ x', m.eval env = some x' ∧ (x'.toNat : ℤ) % 2 ^ w = x.toNat % 2 ^ w ∧
        toInt x' % 2 ^ w = toInt x % 2 ^ w := by
  obtain ⟨a, ha⟩ := exists_bitCount hn
  unfold narrowToResult
  by_cases hgt : n.bitCount > w
  · have hle : w ≤ a := by omega
    refine ⟨.bitSlice n 0 w, ?_, ⟨verify_lowBits ha hle, hn⟩, fun env x hx => ?_⟩
    · rw [if_pos hgt, maybeNarrow, if_pos (le_of_lt hgt), if_neg (by omega)]
      exact makeNode_lowBits ha hle
    · have hwx := BitsNode.eval_bitCount hn hx
      refine ⟨slice x 0 w, eval_lowBits hx (by omega), ?_, ?_⟩
      · show ((x.toNat / 2 ^ 0 % 2 ^ w : ℕ) : ℤ) % 2 ^ w = x.toNat % 2 ^ w
        rw [pow_zero, Nat.div_one]
        push_cast
        rw [Int.emod_emod]
      · rw [slice_eq_ofInt x (by omega), pow_zero, Int.ediv_one, toInt_ofInt_emod]
  · refine ⟨n, if_neg hgt, hn, fun env x hx => ⟨x, hx, rfl, rfl⟩⟩

/-- `MaybeNarrowUnsignedOperand`: the value stays. -/
theorem maybeNarrowUnsignedOperand_spec (engine : QueryEngine) (operands : List NodePtr)
    {p : NodePtr} (hn : p.node.Verified) :
    ∃ o, maybeNarrowUnsignedOperand engine p = some o ∧ (o.getD p.node).Verified ∧
      ∀ env, Consistent engine env operands → p ∈ operands → ∀ x, p.node.eval env = some x →
        ∃ x', (o.getD p.node).eval env = some x' ∧ x'.toNat = x.toNat := by
  obtain ⟨a, ha⟩ := exists_bitCount hn
  have hle := countLeadingKnownZeros_le engine ha
  unfold maybeNarrowUnsignedOperand
  by_cases hzero : countLeadingKnownZeros engine p = 0
  · exact ⟨none, if_pos hzero, hn, fun env _ _ x hx => ⟨x, hx, rfl⟩⟩
  · have hcast : p.node.bitCount - countLeadingKnownZeros engine p =
        ((a - countLeadingKnownZeros engine p : ℕ) : ℤ) := by omega
    have hslice : a - countLeadingKnownZeros engine p ≤ a := Nat.sub_le _ _
    rw [if_neg hzero, hcast]
    refine ⟨some (.bitSlice p.node 0 ((a - countLeadingKnownZeros engine p : ℕ) : ℤ)),
      by rw [makeNode_lowBits ha hslice]; rfl, ⟨verify_lowBits ha hslice, hn⟩,
      fun env hconsistent hmem x hx => ?_⟩
    have hwidth := BitsNode.eval_bitCount hn hx
    have hlt := hconsistent.toNat_lt hmem hn hx
    rw [show x.bitCount = a by omega] at hlt
    exact ⟨_, eval_lowBits hx (by omega), slice_toNat_of_lt hlt⟩

/-- `MaybeNarrowSignedOperand`: the signed value stays. -/
theorem maybeNarrowSignedOperand_spec (engine : QueryEngine) (operands : List NodePtr)
    {p : NodePtr} (hn : p.node.Verified) :
    ∃ o, maybeNarrowSignedOperand engine p = some o ∧ (o.getD p.node).Verified ∧
      ∀ env, Consistent engine env operands → p ∈ operands → ∀ x, p.node.eval env = some x →
        ∃ x', (o.getD p.node).eval env = some x' ∧ toInt x' = toInt x := by
  obtain ⟨a, ha⟩ := exists_bitCount hn
  have hle := countLeadingKnownZeros_le engine ha
  unfold maybeNarrowSignedOperand
  split
  · -- the value before the extension
    rename_i before width hnode
    rw [hnode] at hn ⊢
    refine ⟨some before, rfl, hn.2, fun env _ _ x hx => ?_⟩
    obtain ⟨u, hu, hxu, hux⟩ := eval_signExt_eq_some hx
    refine ⟨u, hu, ?_⟩
    rw [hxu, toInt_signExtend hux]
  · by_cases hgt : countLeadingKnownZeros engine p > 1
    · have hcast : p.node.bitCount - countLeadingKnownZeros engine p + 1 =
          ((a - countLeadingKnownZeros engine p + 1 : ℕ) : ℤ) := by omega
      have hslice : a - countLeadingKnownZeros engine p + 1 ≤ a := by omega
      rw [if_pos hgt, hcast, maybeNarrow, if_pos (by omega), if_neg (by omega)]
      refine ⟨some (.bitSlice p.node 0 ((a - countLeadingKnownZeros engine p + 1 : ℕ) : ℤ)),
        by rw [makeNode_lowBits ha hslice]; rfl, ⟨verify_lowBits ha hslice, hn⟩,
        fun env hconsistent hmem x hx => ?_⟩
      have hwidth := BitsNode.eval_bitCount hn hx
      have hsame := hconsistent.toInt_slice hmem hn hx
        (k := countLeadingKnownZeros engine p) (by omega) (Or.inl le_rfl)
      rw [show x.bitCount = a by omega] at hsame
      exact ⟨_, eval_lowBits hx (by omega), hsame⟩
    · exact ⟨none, if_neg hgt, hn, fun env _ _ x hx => ⟨x, hx, rfl⟩⟩

/-- The multiply of the narrowed operands, where it has the value of the multiply. -/
theorem multiplyNarrowed_preserves {op op' : ArithmeticOp} {o₀ o₁ : Option BitsNode}
    (h₀ : (o₀.getD lhs.node).Verified) (h₁ : (o₁.getD rhs.node).Verified)
    (hvalue : ∀ env, Consistent engine env operands → ∀ x y, lhs.node.eval env = some x →
      rhs.node.eval env = some y → ∃ x' y', (o₀.getD lhs.node).eval env = some x' ∧
        (o₁.getD rhs.node).eval env = some y' ∧ product op' w x' y' = product op w x y)
    {otherwise : Option (Option BitsNode)}
    (hotherwise : Preserves engine operands (.arithOp op lhs.node rhs.node w) otherwise) :
    Preserves engine operands (.arithOp op lhs.node rhs.node w)
      (multiplyNarrowed op' lhs.node rhs.node w o₀ o₁ otherwise) := by
  unfold multiplyNarrowed
  split
  · have hverify : (BitsNode.arithOp op' (o₀.getD lhs.node) (o₁.getD rhs.node) w).verify = true :=
      decide_eq_true (Int.natCast_nonneg w)
    refine preserves_of_replaces (replaceUsesWithNew_eq hverify rfl)
      ⟨⟨hverify, h₀, h₁⟩, rfl, fun env hconsistent v hv => ?_⟩
    obtain ⟨x, y, hx, hy, rfl⟩ := eval_arithOp_eq_some hv
    obtain ⟨x', y', hx', hy', hproduct⟩ := hvalue env hconsistent x y hx hy
    rw [eval_arithOp hx' hy', hproduct]
  · exact hotherwise

/-- The signed reading and the unsigned one give the operation its value. -/
theorem product_of_agnostic {op op' : ArithmeticOp} {isSignAgnostic : Bool}
    (hl : lhs.node.Verified) (hr : rhs.node.Verified)
    (hagnostic : isSignAgnostic = true → lhs.node.bitCount = w ∧ rhs.node.bitCount = w)
    (hop : op = op' ∨ isSignAgnostic = true) {env : ℕ → Bits} {x y : Bits}
    (hx : lhs.node.eval env = some x) (hy : rhs.node.eval env = some y) :
    product op' w x y = product op w x y := by
  rcases hop with rfl | hsame
  · rfl
  · obtain ⟨hwl, hwr⟩ := hagnostic hsame
    have hwx := BitsNode.eval_bitCount hl hx
    have hwy := BitsNode.eval_bitCount hr hy
    exact product_of_sameWidth (by omega) (by omega) op' op

theorem narrowSignedOperands_preserves (engine : QueryEngine) (op : ArithmeticOp)
    {isSignAgnostic : Bool}
    (hl : lhs.node.Verified) (hr : rhs.node.Verified)
    (hagnostic : isSignAgnostic = true → lhs.node.bitCount = w ∧ rhs.node.bitCount = w) :
    Preserves engine [lhs, rhs] (.arithOp op lhs.node rhs.node w)
      (narrowSignedOperands engine op lhs rhs w isSignAgnostic) := by
  unfold narrowSignedOperands
  by_cases hop : op = .smul ∨ isSignAgnostic = true
  · obtain ⟨o₀, ho₀, h₀, hvalue₀⟩ :=
      maybeNarrowSignedOperand_spec engine [lhs, rhs] hl
    obtain ⟨o₁, ho₁, h₁, hvalue₁⟩ :=
      maybeNarrowSignedOperand_spec engine [lhs, rhs] hr
    simp only [if_pos hop, ho₀, ho₁]
    refine multiplyNarrowed_preserves h₀ h₁ (fun env hconsistent x y hx hy => ?_) preserves_noChange
    obtain ⟨x', hx', hxx⟩ := hvalue₀ env hconsistent List.mem_cons_self x hx
    obtain ⟨y', hy', hyy⟩ :=
      hvalue₁ env hconsistent (List.mem_cons_of_mem _ List.mem_cons_self) y hy
    refine ⟨x', y', hx', hy', ?_⟩
    calc product .smul w x' y' = product .smul w x y := by rw [product, product, hxx, hyy]
      _ = product op w x y := product_of_agnostic hl hr hagnostic hop hx hy
  · rw [if_neg hop]
    exact preserves_noChange

theorem narrowUnsignedOperands_preserves {op : ArithmeticOp} {isSignAgnostic : Bool}
    (hl : lhs.node.Verified) (hr : rhs.node.Verified)
    (hagnostic : isSignAgnostic = true → lhs.node.bitCount = w ∧ rhs.node.bitCount = w) :
    Preserves engine [lhs, rhs] (.arithOp op lhs.node rhs.node w)
      (narrowUnsignedOperands engine op lhs rhs w isSignAgnostic) := by
  have hsigned := narrowSignedOperands_preserves engine op hl hr hagnostic
  unfold narrowUnsignedOperands
  by_cases hop : op = .umul ∨ isSignAgnostic = true
  · obtain ⟨o₀, ho₀, h₀, hvalue₀⟩ :=
      maybeNarrowUnsignedOperand_spec engine [lhs, rhs] hl
    obtain ⟨o₁, ho₁, h₁, hvalue₁⟩ :=
      maybeNarrowUnsignedOperand_spec engine [lhs, rhs] hr
    simp only [if_pos hop, ho₀, ho₁]
    refine multiplyNarrowed_preserves h₀ h₁ (fun env hconsistent x y hx hy => ?_) hsigned
    obtain ⟨x', hx', hxx⟩ := hvalue₀ env hconsistent List.mem_cons_self x hx
    obtain ⟨y', hy', hyy⟩ :=
      hvalue₁ env hconsistent (List.mem_cons_of_mem _ List.mem_cons_self) y hy
    refine ⟨x', y', hx', hy', ?_⟩
    calc product .umul w x' y' = product .umul w x y := by rw [product, product, hxx, hyy]
      _ = product op w x y := product_of_agnostic hl hr hagnostic hop hx hy
  · rw [if_neg hop]
    exact hsigned

/-- `MaybeNarrowMultiply`. -/
theorem maybeNarrowMultiply_preserves (lhs rhs : NodePtr) {op : ArithmeticOp} (hl : lhs.node.Verified)
    (hr : rhs.node.Verified) (w : ℕ) :
    Preserves engine [lhs, rhs] (.arithOp op lhs.node rhs.node w)
      (maybeNarrowMultiply engine op lhs rhs w) := by
  obtain ⟨a, ha⟩ := exists_bitCount hl
  obtain ⟨b, hb⟩ := exists_bitCount hr
  unfold maybeNarrowMultiply
  rw [ha, hb]
  by_cases hwide : (w : ℤ) > a + b
  · rw [if_pos hwide]
    exact narrowResult_preserves hl hr ha hb (by omega)
  · rw [if_neg hwide]
    by_cases hnarrow : (a : ℤ) > w ∨ (b : ℤ) > w
    · -- the operands at the width of the result
      obtain ⟨l, hlm, hlv, hlvalue⟩ := narrowToResult_spec hl w
      obtain ⟨r, hrm, hrv, hrvalue⟩ := narrowToResult_spec hr w
      have hverify : (BitsNode.arithOp op l r w).verify = true :=
        decide_eq_true (Int.natCast_nonneg w)
      simp only [if_pos hnarrow, hlm, hrm]
      refine preserves_of_replaces (replaceUsesWithNew_eq hverify rfl)
        ⟨⟨hverify, hlv, hrv⟩, rfl, fun env _ v hv => ?_⟩
      obtain ⟨x, y, hx, hy, rfl⟩ := eval_arithOp_eq_some hv
      obtain ⟨x', hx', hxx⟩ := hlvalue env x hx
      obtain ⟨y', hy', hyy⟩ := hrvalue env y hy
      rw [eval_arithOp hx' hy', product_of_emod_eq hxx hyy]
    · rw [if_neg hnarrow]
      apply narrowUnsignedOperands_preserves hl hr
      intro hagnostic
      obtain ⟨hwa, hwb⟩ := of_decide_eq_true hagnostic
      exact ⟨ha.trans hwa.symm, hb.trans hwb.symm⟩

end Handlers

/-! ## The visitor -/

/-- The operands of a node, as the nodes `lhsId` and `rhsId`. -/
def operandPtrs (lhsId rhsId : ℕ) : BitsNode → List NodePtr
  | .compareOp _ lhs rhs | .binOp _ lhs rhs | .arithOp _ lhs rhs _ => [⟨lhsId, lhs⟩, ⟨rhsId, rhs⟩]
  | _ => []

/-- Whatever a consistent engine knows of the operands, the handlers fail no check, and the node
which they put in the place of a comparison, an addition, a shift or a multiplication has its
value. -/
theorem visit_preserves (engine : QueryEngine) (lhsId rhsId : ℕ) {node : BitsNode}
    (hnode : node.Verified) :
    ∃ result, visit engine lhsId rhsId node = some result ∧
      ∀ n ∈ result, n.Verified ∧ n.bitCount = node.bitCount ∧
        ∀ env, Consistent engine env (operandPtrs lhsId rhsId node) → ∀ v,
          node.eval env = some v → n.eval env = some v := by
  have hpreserves : Preserves engine (operandPtrs lhsId rhsId node) node
      (visit engine lhsId rhsId node) := by
    cases node with
    | compareOp op l r =>
      obtain ⟨hverify, hl, hr⟩ := hnode
      exact maybeNarrowCompare_preserves ⟨lhsId, l⟩ ⟨rhsId, r⟩ hl hr (of_decide_eq_true hverify)
    | binOp op l r =>
      obtain ⟨hverify, hl, hr⟩ := hnode
      cases op with
      | add =>
        exact handleAdd_preserves ⟨lhsId, l⟩ ⟨rhsId, r⟩ hl hr (of_decide_eq_true hverify)
      | shll | shra | shrl =>
        exact maybeNarrowShiftAmount_preserves ⟨lhsId, l⟩ ⟨rhsId, r⟩ rfl hl hr
      | sub | udiv | sdiv => exact preserves_noChange
    | arithOp op l r width =>
      obtain ⟨hverify, hl, hr⟩ := hnode
      obtain ⟨w, rfl⟩ := Int.eq_ofNat_of_zero_le (of_decide_eq_true hverify)
      exact maybeNarrowMultiply_preserves ⟨lhsId, l⟩ ⟨rhsId, r⟩ hl hr w
    | source | literal | neg | bitSlice | extendOp => exact preserves_noChange
  obtain ⟨result, hresult, hreplaces⟩ := hpreserves
  refine ⟨result, hresult, fun n hn => ?_⟩
  obtain ⟨hverified, hwidth, heval⟩ := hreplaces n hn
  exact ⟨hverified, hwidth, heval⟩

/-- The high half of the first operand is zero. -/
def highHalfZero : QueryEngine where
  isTracked _ := true
  getTernary bit := if bit.node.id = 0 ∧ 4 ≤ bit.bitIndex then .kKnownZero else .kUnknown
  knownEquals _ _ := false

theorem getTernary_highHalfZero (n : NodePtr) (i : ℕ) : highHalfZero.getTernary ⟨n, i⟩ =
    if n.id = 0 ∧ 4 ≤ i then .kKnownZero else .kUnknown := rfl

/-- A signed multiply whose operands and result have one width. -/
def signedProduct : BitsNode := .arithOp .smul (.source 0 8) (.source 1 8) 8

/-- `5` and `-56`. -/
def twoFactors : ℕ → Bits
  | 0 => Bits.ofNat 8 5
  | _ => Bits.ofNat 8 200

theorem consistent_highHalfZero :
    Consistent highHalfZero twoFactors (operandPtrs 0 1 signedProduct) := by
  have hunknown : ∀ n i, highHalfZero.getTernary ⟨n, i⟩ = .kKnownZero → n.id = 0 ∧ 4 ≤ i := by
    intro n i h
    by_contra hne
    rw [getTernary_highHalfZero, if_neg hne] at h
    cases h
  refine ⟨fun n hn v hv i hi _ hzero => ?_, fun n _ _ _ i _ _ hone => ?_,
    fun _ _ _ _ _ _ _ _ _ _ _ _ hequals => absurd hequals Bool.false_ne_true⟩
  · obtain ⟨hid, hle⟩ := hunknown n i hzero
    rcases List.mem_cons.mp hn with rfl | hn
    · obtain rfl : Bits.ofNat 8 5 = v := Option.some.inj hv
      have hlt : (5 : ℕ) < 2 ^ i :=
        lt_of_lt_of_le (by norm_num) (Nat.pow_le_pow_right (by norm_num) hle)
      exact Nat.testBit_lt_two_pow hlt
    · rw [List.mem_singleton.mp hn] at hid
      cases hid
  · by_cases h : n.id = 0 ∧ 4 ≤ i
    · rw [getTernary_highHalfZero, if_pos h] at hone
      cases hone
    · rw [getTernary_highHalfZero, if_neg h] at hone
      cases hone

/-- The multiply becomes an unsigned one with the low half of the first operand. -/
theorem visit_preserves_signedProduct : ∃ n, visit highHalfZero 0 1 signedProduct = some (some n) ∧
      n.eval twoFactors = some (Bits.ofNat 8 232) := by
  obtain ⟨result, hresult, hpreserves⟩ :=
    visit_preserves highHalfZero 0 1 (show signedProduct.Verified from ⟨rfl, trivial, trivial⟩)
  have hnarrowed : visit highHalfZero 0 1 signedProduct =
      some (some (.arithOp .umul (.bitSlice (.source 0 8) 0 4) (.source 1 8) 8)) := by decide
  rw [hnarrowed] at hresult
  cases hresult
  exact ⟨_, hnarrowed, (hpreserves _ rfl).2.2 twoFactors consistent_highHalfZero _ (by decide)⟩

end Narrowing

end Xls
