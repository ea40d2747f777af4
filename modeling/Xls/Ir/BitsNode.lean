/-
# Nodes over bits

The nodes which the arithmetic passes look at and build, all of bits type: a node is given with
its operands, and the nodes behind which a pass does not look are sources.  `MakeNode` runs the
verifier (`xls/ir/verifier.cc`) on each new node, and the interpreter
(`xls/interpreter/ir_interpreter.cc`) computes the values.  `none` is a failed check or an error
status.

* `eval_bitCount` : the value of a verified node has the width of the node;
* `eval_shrl`, `eval_shra`, `eval_umul`, `eval_smul`, `eval_bitSlice` : the values of the
  operations as numbers.
-/
import Xls.Ir.Function
import Xls.Ir.SignedBits

namespace Xls

/-- The operations of `BinOp`. -/
inductive BinaryOp where
  | add | sub | shll | shra | shrl | udiv | sdiv
  deriving DecidableEq, Repr

/-- A shift takes an amount of any width, the other operations operands of one width. -/
def BinaryOp.isShift : BinaryOp → Bool
  | .shll | .shra | .shrl => true
  | .add | .sub | .udiv | .sdiv => false

/-- The operations of `ArithOp`. -/
inductive ArithmeticOp where
  | smul | umul
  deriving DecidableEq, Repr

/-- The operations of `CompareOp`. -/
inductive ComparisonOp where
  | eq | ne | sge | sgt | sle | slt | uge | ugt | ule | ult
  deriving DecidableEq, Repr

/-- The operations of `ExtendOp`. -/
inductive ExtensionOp where
  | signExt | zeroExt
  deriving DecidableEq, Repr

/-- A node of bits type with its operands. -/
inductive BitsNode where
  /-- A node which is not looked at, by its position. -/
  | source (id width : ℕ)
  | literal (value : Bits)
  | neg (operand : BitsNode)
  | binOp (op : BinaryOp) (lhs rhs : BitsNode)
  | arithOp (op : ArithmeticOp) (lhs rhs : BitsNode) (width : ℤ)
  | compareOp (op : ComparisonOp) (lhs rhs : BitsNode)
  | bitSlice (operand : BitsNode) (start width : ℤ)
  | extendOp (op : ExtensionOp) (operand : BitsNode) (newBitCount : ℤ)
  deriving DecidableEq, Repr

namespace BitsNode

/-- `BitCountOrDie`, of the type which the constructor of the node gives it. -/
def bitCount : BitsNode → ℤ
  | source _ width => width
  | literal value => value.bitCount
  | neg operand => operand.bitCount
  | binOp _ lhs _ => lhs.bitCount
  | arithOp _ _ _ width => width
  | compareOp .. => 1
  | bitSlice _ _ width => width
  | extendOp _ _ newBitCount => newBitCount

/-- `VerifyNode`, and the check of `BitsType` that a width is not negative. -/
def verify : BitsNode → Bool
  | source .. | literal _ | neg _ => true
  | binOp op lhs rhs => op.isShift || decide (lhs.bitCount = rhs.bitCount)
  | arithOp _ _ _ width => decide (0 ≤ width)
  | compareOp _ lhs rhs => decide (lhs.bitCount = rhs.bitCount)
  | bitSlice operand start width =>
    decide (0 ≤ start) && decide (0 ≤ width) && decide (start + width ≤ operand.bitCount)
  | extendOp _ operand newBitCount =>
    decide (0 ≤ newBitCount) && decide (operand.bitCount ≤ newBitCount)

/-- `MakeNode`. -/
def makeNode (n : BitsNode) : Option BitsNode := if n.verify then some n else none

/-- The node and all nodes below it pass the verifier. -/
def Verified : BitsNode → Prop
  | source .. | literal _ => True
  | neg operand => operand.Verified
  | binOp op lhs rhs => (binOp op lhs rhs).verify = true ∧ lhs.Verified ∧ rhs.Verified
  | arithOp op lhs rhs width =>
    (arithOp op lhs rhs width).verify = true ∧ lhs.Verified ∧ rhs.Verified
  | compareOp op lhs rhs => (compareOp op lhs rhs).verify = true ∧ lhs.Verified ∧ rhs.Verified
  | bitSlice operand start width =>
    (bitSlice operand start width).verify = true ∧ operand.Verified
  | extendOp op operand newBitCount =>
    (extendOp op operand newBitCount).verify = true ∧ operand.Verified

/-! ## Values -/

/-- `HandleAdd`, `HandleSub`, the shifts and the divisions. -/
def evalBinOp (op : BinaryOp) (lhs rhs : Bits) : Option Bits :=
  match op with
  | .add => if lhs.bitCount = rhs.bitCount then some (BitsOps.add lhs rhs) else none
  | .sub => if lhs.bitCount = rhs.bitCount then some (BitsOps.sub lhs rhs) else none
  | .shll =>
    some (BitsOps.shiftLeftLogical lhs (Interpreter.bitsToBoundedUint64 rhs lhs.bitCount))
  | .shra =>
    some (BitsOps.shiftRightArith lhs (Interpreter.bitsToBoundedUint64 rhs lhs.bitCount))
  | .shrl =>
    some (BitsOps.shiftRightLogical lhs (Interpreter.bitsToBoundedUint64 rhs lhs.bitCount))
  | .udiv => some (BitsOps.uDiv lhs rhs)
  | .sdiv => some (BitsOps.sDiv lhs rhs)

/-- `HandleSMul` and `HandleUMul`: the full product, cut or extended. -/
def evalArithOp (op : ArithmeticOp) (width : ℤ) (lhs rhs : Bits) : Bits :=
  match op with
  | .smul =>
    let result := BitsOps.sMul lhs rhs
    if result.bitCount > width then BitsOps.slice result 0 width.toNat
    else if result.bitCount < width then BitsOps.signExtend result width.toNat
    else result
  | .umul =>
    let result := BitsOps.uMul lhs rhs
    if result.bitCount > width then BitsOps.slice result 0 width.toNat
    else if result.bitCount < width then BitsOps.zeroExtend result width.toNat
    else result

/-- The comparisons. -/
def evalCompareOp (op : ComparisonOp) (lhs rhs : Bits) : Bool :=
  match op with
  | .eq => decide (lhs = rhs)
  | .ne => !decide (lhs = rhs)
  | .sge => !BitsOps.sLessThan lhs rhs
  | .sgt => !BitsOps.sLessThanOrEqual lhs rhs
  | .sle => BitsOps.sLessThanOrEqual lhs rhs
  | .slt => BitsOps.sLessThan lhs rhs
  | .uge => BitsOps.uLessThanOrEqual rhs lhs
  | .ugt => BitsOps.uLessThan rhs lhs
  | .ule => BitsOps.uLessThanOrEqual lhs rhs
  | .ult => BitsOps.uLessThan lhs rhs

/-- `Bits::Slice`. -/
def evalBitSlice (operand : Bits) (start width : ℤ) : Option Bits :=
  if 0 ≤ width ∧ start + width ≤ operand.bitCount then
    some (BitsOps.slice operand start.toNat width.toNat)
  else none

/-- `SignExtend` and `ZeroExtend`. -/
def evalExtendOp (op : ExtensionOp) (operand : Bits) (newBitCount : ℤ) : Option Bits :=
  if 0 ≤ newBitCount ∧ operand.bitCount ≤ newBitCount then
    some (match op with
      | .signExt => BitsOps.signExtend operand newBitCount.toNat
      | .zeroExt => BitsOps.zeroExtend operand newBitCount.toNat)
  else none

/-- The value of a node; `env` gives the values of the sources. -/
def eval (env : ℕ → Bits) : BitsNode → Option Bits
  | source id width => if (env id).bitCount = width then some (env id) else none
  | literal value => some value
  | neg operand => (eval env operand).map BitsOps.negate
  | binOp op lhs rhs => do
    let l ← eval env lhs
    let r ← eval env rhs
    evalBinOp op l r
  | arithOp op lhs rhs width => do
    let l ← eval env lhs
    let r ← eval env rhs
    some (evalArithOp op width l r)
  | compareOp op lhs rhs => do
    let l ← eval env lhs
    let r ← eval env rhs
    some (BitsOps.ofBool (evalCompareOp op l r))
  | bitSlice operand start width => do
    let x ← eval env operand
    evalBitSlice x start width
  | extendOp op operand newBitCount => do
    let x ← eval env operand
    evalExtendOp op x newBitCount

attribute [local simp] eval

variable {env : ℕ → Bits} {n lhs rhs : BitsNode} {a b : Bits}

/-- A verified node is made. -/
theorem makeNode_eq_some (h : n.verify = true) : makeNode n = some n := if_pos h

/-! ## The values as numbers -/

/-- The amount of a shift is cut where the shift does not change any more. -/
theorem min_bitsToBoundedUint64 (b : Bits) (w : ℕ) :
    min (Interpreter.bitsToBoundedUint64 b w) w = min b.toNat w := by
  unfold Interpreter.bitsToBoundedUint64
  split
  · omega
  · rfl

/-- The bound on the shift amount does not matter. -/
theorem shiftLeftLogical_bounded (a b : Bits) :
    BitsOps.shiftLeftLogical a (Interpreter.bitsToBoundedUint64 b a.bitCount) =
      BitsOps.shiftLeftLogical a b.toNat := by
  unfold BitsOps.shiftLeftLogical
  rw [min_bitsToBoundedUint64]

/-- Nor to the right. -/
theorem shiftRightLogical_bounded (a b : Bits) :
    BitsOps.shiftRightLogical a (Interpreter.bitsToBoundedUint64 b a.bitCount) =
      BitsOps.shiftRightLogical a b.toNat := by
  unfold BitsOps.shiftRightLogical
  rw [min_bitsToBoundedUint64]

/-- Nor with the sign. -/
theorem shiftRightArith_bounded (a b : Bits) :
    BitsOps.shiftRightArith a (Interpreter.bitsToBoundedUint64 b a.bitCount) =
      BitsOps.shiftRightArith a b.toNat := by
  unfold BitsOps.shiftRightArith
  rw [min_bitsToBoundedUint64]

variable (hl : eval env lhs = some a) (hr : eval env rhs = some b)

section

include hl hr

/-- A logical shift to the right is a quotient of the unsigned value. -/
theorem eval_shrl :
    eval env (binOp .shrl lhs rhs) = some (Bits.ofNat a.bitCount (a.toNat / 2 ^ b.toNat)) := by
  rw [← SignedBits.shiftRightLogical_eq_ofNat, ← shiftRightLogical_bounded]
  simp [hl, hr, evalBinOp]

/-- An arithmetic shift to the right is a quotient of the signed value. -/
theorem eval_shra :
    eval env (binOp .shra lhs rhs) =
      some (Bits.ofInt a.bitCount (BitsOps.toInt a / 2 ^ b.toNat)) := by
  rw [← SignedBits.shiftRightArith_eq_ofInt, ← shiftRightArith_bounded]
  simp [hl, hr, evalBinOp]

/-- Sums and differences are those of the signed values, cut to the width. -/
theorem eval_add (hwidth : b.bitCount = a.bitCount) : eval env (binOp .add lhs rhs) =
      some (Bits.ofInt a.bitCount (BitsOps.toInt a + BitsOps.toInt b)) := by
  rw [← SignedBits.add_eq_ofInt a b hwidth]
  simp [hl, hr, evalBinOp, hwidth]

/-- The difference of signed numbers. -/
theorem eval_sub (hwidth : b.bitCount = a.bitCount) : eval env (binOp .sub lhs rhs) =
      some (Bits.ofInt a.bitCount (BitsOps.toInt a - BitsOps.toInt b)) := by
  rw [← SignedBits.sub_eq_ofInt a b hwidth]
  simp [hl, hr, evalBinOp, hwidth]

end

/-- The negative of a signed number. -/
theorem eval_neg (h : eval env n = some a) :
    eval env (neg n) = some (Bits.ofInt a.bitCount (-BitsOps.toInt a)) := by
  rw [eval, h, ← SignedBits.negate_eq_ofInt]
  rfl

/-- A product is the product of the values modulo the range of the node. -/
theorem evalArithOp_umul (a b : Bits) (w : ℕ) :
    evalArithOp .umul w a b = Bits.ofNat w (a.toNat * b.toNat) := by
  have hvalue := BitsOps.uMul_toNat a b
  have hlt := (BitsOps.uMul a b).isLt
  rw [hvalue] at hlt
  unfold evalArithOp
  simp only [Nat.cast_lt]
  split
  · apply Bits.ext
    · rfl
    · show (BitsOps.uMul a b).toNat / 2 ^ 0 % 2 ^ w = _
      rw [hvalue, pow_zero, Nat.div_one]
      rfl
  · split
    · rename_i hlt'
      apply Bits.ext
      · exact BitsOps.zeroExtend_bitCount hlt'.le
      · rw [BitsOps.zeroExtend_toNat, hvalue, Bits.ofNat_toNat, Nat.mod_eq_of_lt
          (hlt.trans_le (Nat.pow_le_pow_right (by norm_num) hlt'.le))]
    · have hw : (BitsOps.uMul a b).bitCount = w := by omega
      apply Bits.ext
      · exact hw
      · rw [hvalue, Bits.ofNat_toNat, Nat.mod_eq_of_lt (hw ▸ hlt)]

/-- A signed product is the product of the signed values, cut to the width of the node. -/
theorem evalArithOp_smul (a b : Bits) (w : ℕ) :
    evalArithOp .smul w a b = Bits.ofInt w (BitsOps.toInt a * BitsOps.toInt b) := by
  rw [← SignedBits.toInt_sMul]
  unfold evalArithOp
  simp only [Nat.cast_lt, Int.toNat_natCast]
  split
  · rw [SignedBits.slice_eq_ofInt _ (by omega), pow_zero, Int.ediv_one]
  · split
    · rename_i hlt
      exact SignedBits.signExtend_eq_ofInt hlt.le
    · have hw : (BitsOps.sMul a b).bitCount = w := by omega
      rw [← hw, BitmapBits.ofInt_toInt]

section

include hl hr

/-! ## Products and widths -/

/-- The unsigned product, cut to the width. -/
theorem eval_umul (w : ℕ) :
    eval env (arithOp .umul lhs rhs w) = some (Bits.ofNat w (a.toNat * b.toNat)) := by
  rw [← evalArithOp_umul]
  simp [hl, hr]

/-- The signed product, cut to the width. -/
theorem eval_smul (w : ℕ) :
    eval env (arithOp .smul lhs rhs w) =
      some (Bits.ofInt w (BitsOps.toInt a * BitsOps.toInt b)) := by
  rw [← evalArithOp_smul]
  simp [hl, hr]

end

/-- A slice in bounds. -/
theorem eval_bitSlice (h : eval env n = some a) {start width : ℕ}
    (hle : start + width ≤ a.bitCount) : eval env (bitSlice n start width) =
      some (BitsOps.slice a start width) := by
  have hfits : 0 ≤ (width : ℤ) ∧ (start : ℤ) + width ≤ a.bitCount := ⟨by omega, by omega⟩
  simp [h, evalBitSlice, hfits]

/-- An extension keeps the signed, or the unsigned, value. -/
theorem eval_signExt (h : eval env n = some a) {w : ℕ} (hle : a.bitCount ≤ w) :
    eval env (extendOp .signExt n w) = some (Bits.ofInt w (BitsOps.toInt a)) := by
  rw [← SignedBits.signExtend_eq_ofInt hle]
  simp [h, evalExtendOp, hle]

/-- The same number at a larger width. -/
theorem eval_zeroExt (h : eval env n = some a) {w : ℕ} (hle : a.bitCount ≤ w) :
    eval env (extendOp .zeroExt n w) = some (Bits.ofNat w a.toNat) := by
  have hext : BitsOps.zeroExtend a w = Bits.ofNat w a.toNat := by
    have hwidth : (BitsOps.zeroExtend a w).bitCount = w := BitsOps.zeroExtend_bitCount hle
    refine Bits.ext hwidth ?_
    rw [BitsOps.zeroExtend_toNat, Bits.ofNat_toNat, Nat.mod_eq_of_lt
      (a.isLt.trans_le (Nat.pow_le_pow_right (by norm_num) hle))]
  rw [← hext]
  simp [h, evalExtendOp, hle]

/-! ## The widths -/

/-- As wide as the first operand. -/
theorem evalBinOp_bitCount {op : BinaryOp} {v : Bits} (h : evalBinOp op a b = some v) :
    v.bitCount = a.bitCount := by
  cases op with
  | add | sub =>
    rw [evalBinOp, Option.ite_none_right_eq_some] at h
    obtain ⟨-, h⟩ := h
    cases h
    rfl
  | shll =>
    cases h
    simp [BitsOps.shiftLeftLogical]
  | shra =>
    cases h
    exact SignedBits.shiftRightArith_bitCount a _
  | shrl =>
    rw [evalBinOp, SignedBits.shiftRightLogical_eq_ofNat] at h
    cases h
    rfl
  | udiv =>
    cases h
    exact BitsOps.uDiv_bitCount a b
  | sdiv =>
    cases h
    exact BitsOps.sDiv_bitCount a b

/-- The value of a verified node has the width of the node. -/
theorem eval_bitCount : ∀ {n : BitsNode} {v : Bits}, n.Verified → eval env n = some v →
    (v.bitCount : ℤ) = n.bitCount := by
  intro n
  induction n with
  | source id width =>
    intro v _ h
    rw [eval, Option.ite_none_right_eq_some] at h
    obtain ⟨hwidth, h⟩ := h
    cases h
    rw [hwidth]
    rfl
  | literal value =>
    intro v _ h
    cases h
    rfl
  | neg operand ih =>
    intro v hverified h
    obtain ⟨x, hx, hv⟩ := Option.map_eq_some_iff.mp h
    rw [← hv, BitsOps.negate_bitCount]
    exact ih hverified hx
  | binOp op lhs rhs ihl _ =>
    intro v hverified h
    obtain ⟨l, hl, h⟩ := Option.bind_eq_some_iff.mp h
    obtain ⟨r, -, h⟩ := Option.bind_eq_some_iff.mp h
    rw [evalBinOp_bitCount h]
    exact ihl hverified.2.1 hl
  | arithOp op lhs rhs width _ _ =>
    intro v hverified h
    obtain ⟨l, -, h⟩ := Option.bind_eq_some_iff.mp h
    obtain ⟨r, -, h⟩ := Option.bind_eq_some_iff.mp h
    obtain ⟨w, rfl⟩ := Int.eq_ofNat_of_zero_le (of_decide_eq_true hverified.1)
    cases h
    cases op with
    | smul =>
      rw [evalArithOp_smul]
      rfl
    | umul =>
      rw [evalArithOp_umul]
      rfl
  | compareOp op lhs rhs _ _ =>
    intro v _ h
    obtain ⟨l, -, h⟩ := Option.bind_eq_some_iff.mp h
    obtain ⟨r, -, h⟩ := Option.bind_eq_some_iff.mp h
    cases h
    rfl
  | bitSlice operand start width _ =>
    intro v _ h
    obtain ⟨x, -, h⟩ := Option.bind_eq_some_iff.mp h
    rw [evalBitSlice, Option.ite_none_right_eq_some] at h
    obtain ⟨⟨hwidth, -⟩, h⟩ := h
    cases h
    exact Int.toNat_of_nonneg hwidth
  | extendOp op operand newBitCount _ =>
    intro v _ h
    obtain ⟨x, -, h⟩ := Option.bind_eq_some_iff.mp h
    unfold evalExtendOp at h
    rw [Option.ite_none_right_eq_some] at h
    obtain ⟨⟨hwidth, hle⟩, h⟩ := h
    have hle' : x.bitCount ≤ newBitCount.toNat := by omega
    cases op with
    | signExt =>
      cases h
      rw [BitsOps.signExtend_bitCount hle']
      exact Int.toNat_of_nonneg hwidth
    | zeroExt =>
      cases h
      rw [BitsOps.zeroExtend_bitCount hle']
      exact Int.toNat_of_nonneg hwidth

end BitsNode

end Xls
