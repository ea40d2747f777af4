/-
# Division by a constant

`MatchUnsignedDivide` and `MatchSignedDivide` (`xls/passes/arith_simplification_pass.cc`): a
division by a literal becomes a multiplication by a fixed-point reciprocal and shifts.  Of the
two results `none` is a failed check or an error status, and `some none` says that the node does
not match.
-/
import Xls.Ir.BitsNode

namespace Xls

/-- `Bits::IsPowerOfTwo`. -/
def Bits.isPowerOfTwo (b : Bits) : Bool := b.popCount == 1

namespace ArithSimplification

/-- `UnsignedDivisionConstants`. -/
structure UnsignedDivisionConstants where
  numBits : ℤ
  m : ℕ
  preShift : ℤ
  postShift : ℕ
  deriving DecidableEq, Repr

/-- The loop of `ChooseMultiplier`. -/
def halve : ℕ → ℕ → ℕ → ℕ × ℕ
  | 0, _, mHigh => (mHigh, 0)
  | postShift + 1, mLow, mHigh =>
    if mLow / 2 < mHigh / 2 then halve postShift (mLow / 2) (mHigh / 2)
    else (mHigh, postShift + 1)

/-- `ChooseMultiplier`: the multiplier, the shift behind it and the logarithm of the divisor. -/
def chooseMultiplier (numBits : ℤ) (divisor : ℕ) (precision : ℤ) : Option (ℕ × ℕ × ℤ) := do
  let l ← BigInt.ceilingLog2 divisor
  let twoNL ← BigInt.exp2 (numBits + l)
  let mLow ← BigInt.div twoNL divisor
  let twoNLP ← BigInt.exp2 (numBits + l - precision)
  let mHigh ← BigInt.div (twoNL + twoNLP) divisor
  let (m, postShift) := halve l.toNat mLow mHigh
  some (m, postShift, l)

/-- `ComputeUnsignedDivisionConstants`. -/
def computeUnsignedDivisionConstants (numBits : ℤ) (divisor : ℕ) :
    Option UnsignedDivisionConstants := do
  let power ← BigInt.isPowerOfTwo divisor
  if power then none
  else
    let (m, postShift, _) ← chooseMultiplier numBits divisor numBits
    let range ← BigInt.exp2 numBits
    if m ≥ range ∧ BigInt.isEven divisor then
      let (oddFactor, exponent) := BigInt.factorizePowerOfTwo divisor
      let (m, postShift, _) ← chooseMultiplier numBits oddFactor (numBits - exponent)
      some ⟨numBits, m, exponent, postShift⟩
    else some ⟨numBits, m, 0, postShift⟩

/-- `NarrowOrExtend`. -/
def narrowOrExtend (n : BitsNode) (nIsSigned : Bool) (resizeTo : ℤ) : Option BitsNode :=
  if resizeTo < 0 then none
  else if n.bitCount < resizeTo then
    (BitsNode.extendOp (if nIsSigned then .signExt else .zeroExt) n resizeTo).makeNode
  else if n.bitCount > resizeTo then (BitsNode.bitSlice n 0 resizeTo).makeNode
  else some n

/-- A literal with the fewest bits, as the shift amounts are made; `UBits` takes a `uint64_t`. -/
def shiftLiteral (amount : ℤ) : Option BitsNode := do
  let word := (amount % 2 ^ 64).toNat
  let value ← Bits.uBits word (Bits.minBitCountUnsigned word)
  (BitsNode.literal value).makeNode

/-- The dividend behind `pre_shift`; a slice is narrower than a shift. -/
def shiftDividend (dividend : BitsNode) (preShift : ℤ) : Option BitsNode :=
  if preShift > 0 then
    (BitsNode.bitSlice dividend preShift (dividend.bitCount - preShift)).makeNode
  else some dividend

/-- `MatchUnsignedDivide`. -/
def matchUnsignedDivide (originalDivOp : BitsNode) : Option (Option BitsNode) :=
  match originalDivOp with
  | .binOp .udiv dividend (.literal rhs) =>
    if ¬ rhs.isPowerOfTwo ∧ ¬ rhs.isZero then do
      let constants ← computeUnsignedDivisionConstants dividend.bitCount rhs.toNat
      let shiftDividend ← shiftDividend dividend constants.preShift
      let multiplicandLiteral ←
        (BitsNode.literal (BigInt.toUnsignedBits constants.m)).makeNode
      let multiply ← (BitsNode.arithOp .umul multiplicandLiteral shiftDividend
        (multiplicandLiteral.bitCount + shiftDividend.bitCount)).makeNode
      -- `m` has `numBits` fractional bits
      let integerPartOfProduct ← (BitsNode.bitSlice multiply constants.numBits
        (multiply.bitCount - constants.numBits)).makeNode
      let shiftAmountLiteral ← shiftLiteral constants.postShift
      let postShift ← (BitsNode.binOp .shrl integerPartOfProduct shiftAmountLiteral).makeNode
      let resizePostShift ← narrowOrExtend postShift false originalDivOp.bitCount
      some (some resizePostShift)
    else some none
  | _ => some none

/-- `maybe_negate`. -/
def maybeNegate (divisorNegative : Bool) (quotient : BitsNode) : Option BitsNode :=
  if divisorNegative then (BitsNode.neg quotient).makeNode else some quotient

/-- The part of `MatchSignedDivide` for a divisor `2 ^ l`: a bias is added to a negative
dividend. -/
def divideByPowerOfTwo (dividend : BitsNode) (clog2Divisor : ℤ) : Option BitsNode := do
  let n := dividend.bitCount
  let firstSraLiteral ← shiftLiteral (clog2Divisor - 1)
  let firstSra ← (BitsNode.binOp .shra dividend firstSraLiteral).makeNode
  let srlLiteral ← shiftLiteral (n - clog2Divisor)
  let srl ← (BitsNode.binOp .shrl firstSra srlLiteral).makeNode
  let add ← (BitsNode.binOp .add dividend srl).makeNode
  let secondSraLiteral ← shiftLiteral clog2Divisor
  (BitsNode.binOp .shra add secondSraLiteral).makeNode

/-- The part of `MatchSignedDivide` for the other divisors. -/
def divideByMultiplying (dividend : BitsNode) (m postShift : ℕ) : Option BitsNode := do
  let n := dividend.bitCount
  let multiplicandLiteral ← (BitsNode.literal (BigInt.toSignedBits m)).makeNode
  let multiply ← (BitsNode.arithOp .smul multiplicandLiteral dividend
    (multiplicandLiteral.bitCount + dividend.bitCount)).makeNode
  let integerPartOfProduct ← (BitsNode.bitSlice multiply n (multiply.bitCount - n)).makeNode
  let shiftRightLiteral ← shiftLiteral postShift
  let shiftRight ← (BitsNode.binOp .shra integerPartOfProduct shiftRightLiteral).makeNode
  let xsignSraLiteral ← shiftLiteral (n - 1)
  let xsign ← (BitsNode.binOp .shra dividend xsignSraLiteral).makeNode
  let resizeShiftRight ← narrowOrExtend shiftRight true dividend.bitCount
  (BitsNode.binOp .sub resizeShiftRight xsign).makeNode

/-- The quotient by the magnitude of the divisor. -/
def divideByMagnitude (dividend : BitsNode) (isPower : Bool) (clog2Divisor : ℤ) (m postShift : ℕ) :
    Option BitsNode :=
  if isPower then divideByPowerOfTwo dividend clog2Divisor
  else divideByMultiplying dividend m postShift

/-- `MatchSignedDivide`. -/
def matchSignedDivide (originalDivOp : BitsNode) : Option (Option BitsNode) :=
  match originalDivOp with
  | .binOp .sdiv dividend (.literal rhs) =>
    if ¬ rhs.isZero then do
      let divisor := BitsOps.toInt rhs
      let magnitudeDivisor := divisor.natAbs
      let divisorNegative := decide (divisor < 0)
      let n := dividend.bitCount
      let (m, postShift, clog2Divisor) ← chooseMultiplier n magnitudeDivisor (n - 1)
      if magnitudeDivisor = 1 then
        let negate ← maybeNegate divisorNegative dividend
        some (some negate)
      else
        let power ← BigInt.exp2 clog2Divisor
        let quotient ← divideByMagnitude dividend (magnitudeDivisor = power) clog2Divisor m postShift
        let negate ← maybeNegate divisorNegative quotient
        some (some negate)
    else some none
  | _ => some none

/-- Seven is a divisor whose multiplier is wider than the dividend. -/
example : ((matchUnsignedDivide (.binOp .udiv (.source 0 4) (.literal (Bits.ofNat 4 7)))).map
    fun e => e.map fun e => (List.range 16).map fun n =>
      (e.eval fun _ => Bits.ofNat 4 n).map Bits.toNat) =
    some (some ((List.range 16).map fun n => some (n / 7))) := by
  decide

end ArithSimplification

end Xls
