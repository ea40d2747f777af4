/-
# Narrowing of operands

The handlers of `NarrowVisitor` (`xls/passes/narrowing_pass.cc`) for comparisons, additions,
shifts and multiplications: what a query engine knows of the operands makes them narrower.  Of
the two results of a handler `none` is a failed check or an error status, and `some none` is
`NoChange`; `some (some n)` is the node which replaces the one at hand.
-/
import Xls.Ir.BitsNode
import Xls.Passes.TernaryEvaluator

namespace Xls

namespace Narrowing

/-- A node as a query engine sees it: what it computes, and which of the nodes it is. -/
structure NodePtr where
  id : ℕ
  node : BitsNode
  deriving DecidableEq, Repr

/-- `TreeBitLocation` in a node of bits type. -/
structure TreeBitLocation where
  node : NodePtr
  bitIndex : ℕ
  deriving DecidableEq, Repr

/-- The virtual methods of `QueryEngine` which the handlers use; `getTernary` is the element of
the ternary vector at a location. -/
structure QueryEngine where
  isTracked : NodePtr → Bool
  getTernary : TreeBitLocation → TernaryValue
  knownEquals : TreeBitLocation → TreeBitLocation → Bool

namespace QueryEngine

variable (engine : QueryEngine)

/-- `IsKnown`. -/
def isKnown (bit : TreeBitLocation) : Bool :=
  if !engine.isTracked bit.node then false else engine.getTernary bit != .kUnknown

/-- `IsOne`. -/
def isOne (bit : TreeBitLocation) : Bool :=
  if !engine.isKnown bit then false else engine.getTernary bit == .kKnownOne

/-- `IsZero`. -/
def isZero (bit : TreeBitLocation) : Bool :=
  if !engine.isKnown bit then false else !(engine.getTernary bit == .kKnownOne)

end QueryEngine

/-- The number of bits from the top of a vector on of which `known` holds in a row. -/
def countLeading (known : ℕ → Bool) : ℕ → ℕ
  | 0 => 0
  | i + 1 => if known i then countLeading known i + 1 else 0

/-- The number of bits from `i` on of which `known` holds in a row, among the next ones. -/
def countTrailing (known : ℕ → Bool) (i : ℕ) : ℕ → ℕ
  | 0 => i
  | rest + 1 => if known i then countTrailing known (i + 1) rest else i

section Handlers

variable (engine : QueryEngine)

/-- `CountLeadingKnownZeros`. -/
def countLeadingKnownZeros (n : NodePtr) : ℕ :=
  countLeading (fun i => engine.isZero ⟨n, i⟩) n.node.bitCount.toNat

/-- `CountLeadingKnownOnes`. -/
def countLeadingKnownOnes (n : NodePtr) : ℕ :=
  countLeading (fun i => engine.isOne ⟨n, i⟩) n.node.bitCount.toNat

/-- `matched_leading_operand_bits`. -/
def matchedLeadingOperandBits (lhs rhs : NodePtr) : ℕ :=
  countLeading (fun i => engine.knownEquals ⟨lhs, i⟩ ⟨rhs, i⟩) lhs.node.bitCount.toNat

/-- `matched_trailing_operand_bits`. -/
def matchedTrailingOperandBits (lhs rhs : NodePtr) : ℕ :=
  countTrailing (fun i => engine.knownEquals ⟨lhs, i⟩ ⟨rhs, i⟩) 0 lhs.node.bitCount.toNat

/-- `MaybeExtend`. -/
def maybeExtend (node : BitsNode) (bitCount : ℤ) (isSigned : Bool) : Option BitsNode :=
  if node.bitCount ≤ bitCount then
    if node.bitCount = bitCount then some node
    else BitsNode.makeNode (.extendOp (if isSigned then .signExt else .zeroExt) node bitCount)
  else none

/-- `MaybeNarrow`. -/
def maybeNarrow (node : BitsNode) (bitCount : ℤ) : Option BitsNode :=
  if node.bitCount ≥ bitCount then
    if node.bitCount = bitCount then some node
    else BitsNode.makeNode (.bitSlice node 0 bitCount)
  else none

/-- `ReplaceUsesWith` of a node of a width, which checks the type of the replacement. -/
def replaceUsesWith (bitCount : ℤ) (replacement : BitsNode) : Option (Option BitsNode) :=
  if replacement.bitCount = bitCount then some (some replacement) else none

/-- `ReplaceUsesWithNew`. -/
def replaceUsesWithNew (bitCount : ℤ) (replacement : BitsNode) : Option (Option BitsNode) :=
  (BitsNode.makeNode replacement).bind (replaceUsesWith bitCount)

/-- `IsUnsignedCompare`. -/
def isUnsignedCompare : ComparisonOp → Bool
  | .ule | .ult | .uge | .ugt => true
  | _ => false

/-- `IsSignedCompare`. -/
def isSignedCompare : ComparisonOp → Bool
  | .sle | .slt | .sge | .sgt => true
  | _ => false

/-- `narrow_compare_operands`. -/
def narrowCompareOperands (op : ComparisonOp) (lhs rhs : BitsNode) (start bitCount : ℤ) :
    Option (Option BitsNode) := do
  let narrowedLhs ← BitsNode.makeNode (.bitSlice lhs start bitCount)
  let narrowedRhs ← BitsNode.makeNode (.bitSlice rhs start bitCount)
  replaceUsesWithNew 1 (.compareOp op narrowedLhs narrowedRhs)

/-- The leading zeros of both operands, or else the leading ones. -/
def commonLeadingOnesOrZeros (lhs rhs : NodePtr) : ℕ :=
  let zeros := min (countLeadingKnownZeros engine lhs) (countLeadingKnownZeros engine rhs)
  if zeros = 0 then min (countLeadingKnownOnes engine lhs) (countLeadingKnownOnes engine rhs)
  else zeros

/-- The wider of two operands before they are sign-extended, if both are. -/
def maxUnextendedWidth : BitsNode → BitsNode → Option ℤ
  | .extendOp .signExt x _, .extendOp .signExt y _ => some (max x.bitCount y.bitCount)
  | _, _ => none

/-- `MaybeNarrowCompare`. -/
def maybeNarrowCompare (op : ComparisonOp) (lhs rhs : NodePtr) : Option (Option BitsNode) :=
  let operandWidth := lhs.node.bitCount
  let matchedLeadingBits := matchedLeadingOperandBits engine lhs rhs
  let matchedTrailingBits := matchedTrailingOperandBits engine lhs rhs
  let allBitsMatch := decide ((matchedLeadingBits : ℤ) = operandWidth)
  if (isUnsignedCompare op ∨ op = .eq ∨ op = .ne) ∧
      (matchedLeadingBits > 0 ∨ matchedTrailingBits > 0) ∧ !allBitsMatch then
    narrowCompareOperands op lhs.node rhs.node matchedTrailingBits
      (operandWidth - matchedLeadingBits - matchedTrailingBits)
  else if isSignedCompare op ∧ commonLeadingOnesOrZeros engine lhs rhs > 1 then
    narrowCompareOperands op lhs.node rhs.node 0
      (operandWidth - commonLeadingOnesOrZeros engine lhs rhs + 1)
  else if isSignedCompare op then
    match maxUnextendedWidth lhs.node rhs.node with
    | some width =>
      if width < operandWidth then narrowCompareOperands op lhs.node rhs.node 0 width
      else some none
    | none => some none
  else some none

/-- `MaybeNarrowShiftAmount`. -/
def maybeNarrowShiftAmount (op : BinaryOp) (lhs rhs : NodePtr) : Option (Option BitsNode) :=
  if !op.isShift then none
  else
    let shiftBitCount := (BitsNode.binOp op lhs.node rhs.node).bitCount
    let leadingZeros := countLeadingKnownZeros engine rhs
    if leadingZeros = rhs.node.bitCount then
      if shiftBitCount = lhs.node.bitCount then replaceUsesWith shiftBitCount lhs.node
      else if shiftBitCount ≤ lhs.node.bitCount then
        replaceUsesWithNew shiftBitCount (.bitSlice lhs.node 0 shiftBitCount)
      else none
    else if leadingZeros > 0 then do
      let narrowedShiftAmount ←
        BitsNode.makeNode (.bitSlice rhs.node 0 (rhs.node.bitCount - leadingZeros))
      replaceUsesWithNew shiftBitCount (.binOp op lhs.node narrowedShiftAmount)
    else some none

/-- `HandleAdd`. -/
def handleAdd (lhs rhs : NodePtr) : Option (Option BitsNode) :=
  let bitCount := (BitsNode.binOp .add lhs.node rhs.node).bitCount
  if lhs.node.bitCount ≠ rhs.node.bitCount then some none
  else
    let commonLeadingZeros :=
      min (countLeadingKnownZeros engine lhs) (countLeadingKnownZeros engine rhs)
    if commonLeadingZeros > 1 then
      if commonLeadingZeros = bitCount then some none
      else do
        let narrowedBitCount := bitCount - commonLeadingZeros + 1
        let narrowedLhs ← BitsNode.makeNode (.bitSlice lhs.node 0 narrowedBitCount)
        let narrowedRhs ← BitsNode.makeNode (.bitSlice rhs.node 0 narrowedBitCount)
        let narrowedAdd ← BitsNode.makeNode (.binOp .add narrowedLhs narrowedRhs)
        replaceUsesWithNew bitCount (.extendOp .zeroExt narrowedAdd bitCount)
    else some none

/-- `MaybeNarrowUnsignedOperand`. -/
def maybeNarrowUnsignedOperand (operand : NodePtr) : Option (Option BitsNode) :=
  let leadingZeros := countLeadingKnownZeros engine operand
  if leadingZeros = 0 then some none
  else (BitsNode.makeNode
    (.bitSlice operand.node 0 (operand.node.bitCount - leadingZeros))).map some

/-- `MaybeNarrowSignedOperand`. -/
def maybeNarrowSignedOperand (operand : NodePtr) : Option (Option BitsNode) :=
  match operand.node with
  | .extendOp .signExt beforeExtension _ => some (some beforeExtension)
  | _ =>
    if countLeadingKnownZeros engine operand > 1 then
      (maybeNarrow operand.node
        (operand.node.bitCount - countLeadingKnownZeros engine operand + 1)).map some
    else some none

/-- The multiply of the operands, those which have become narrower in the place of the old ones;
without any the node stays as far as this step goes. -/
def multiplyNarrowed (op : ArithmeticOp) (lhs rhs : BitsNode) (resultBitCount : ℤ)
    (operand0 operand1 : Option BitsNode) (otherwise : Option (Option BitsNode)) :
    Option (Option BitsNode) :=
  if operand0.isSome ∨ operand1.isSome then
    replaceUsesWithNew resultBitCount
      (.arithOp op (operand0.getD lhs) (operand1.getD rhs) resultBitCount)
  else otherwise

/-- The step of `MaybeNarrowMultiply` for sign-extended operands. -/
def narrowSignedOperands (op : ArithmeticOp) (lhs rhs : NodePtr) (resultBitCount : ℤ)
    (isSignAgnostic : Bool) : Option (Option BitsNode) :=
  if op = .smul ∨ isSignAgnostic then do
    let operand0 ← maybeNarrowSignedOperand engine lhs
    let operand1 ← maybeNarrowSignedOperand engine rhs
    multiplyNarrowed .smul lhs.node rhs.node resultBitCount operand0 operand1 (some none)
  else some none

/-- The step of `MaybeNarrowMultiply` for zero-extended operands. -/
def narrowUnsignedOperands (op : ArithmeticOp) (lhs rhs : NodePtr) (resultBitCount : ℤ)
    (isSignAgnostic : Bool) : Option (Option BitsNode) :=
  if op = .umul ∨ isSignAgnostic then do
    let operand0 ← maybeNarrowUnsignedOperand engine lhs
    let operand1 ← maybeNarrowUnsignedOperand engine rhs
    multiplyNarrowed .umul lhs.node rhs.node resultBitCount operand0 operand1
      (narrowSignedOperands engine op lhs rhs resultBitCount isSignAgnostic)
  else narrowSignedOperands engine op lhs rhs resultBitCount isSignAgnostic

/-- An operand of a multiply, cut to the width of the result if it is wider. -/
def narrowToResult (operand : BitsNode) (resultBitCount : ℤ) : Option BitsNode :=
  if operand.bitCount > resultBitCount then maybeNarrow operand resultBitCount else some operand

/-- `MaybeNarrowMultiply`. -/
def maybeNarrowMultiply (op : ArithmeticOp) (lhs rhs : NodePtr) (resultBitCount : ℤ) :
    Option (Option BitsNode) :=
  let lhsBitCount := lhs.node.bitCount
  let rhsBitCount := rhs.node.bitCount
  if resultBitCount > lhsBitCount + rhsBitCount then do
    let narrowedMul ←
      BitsNode.makeNode (.arithOp op lhs.node rhs.node (lhsBitCount + rhsBitCount))
    let replacement ← maybeExtend narrowedMul resultBitCount (op == .smul)
    replaceUsesWith resultBitCount replacement
  else if lhsBitCount > resultBitCount ∨ rhsBitCount > resultBitCount then do
    let narrowedLhs ← narrowToResult lhs.node resultBitCount
    let narrowedRhs ← narrowToResult rhs.node resultBitCount
    replaceUsesWithNew resultBitCount (.arithOp op narrowedLhs narrowedRhs resultBitCount)
  else
    let isSignAgnostic := decide (resultBitCount = lhsBitCount ∧ resultBitCount = rhsBitCount)
    narrowUnsignedOperands engine op lhs rhs resultBitCount isSignAgnostic

/-- The dispatch of the visitor over the nodes of this model; the operands of a node are the
nodes `lhsId` and `rhsId`. -/
def visit (lhsId rhsId : ℕ) : BitsNode → Option (Option BitsNode)
  | .compareOp op lhs rhs => maybeNarrowCompare engine op ⟨lhsId, lhs⟩ ⟨rhsId, rhs⟩
  | .binOp .add lhs rhs => handleAdd engine ⟨lhsId, lhs⟩ ⟨rhsId, rhs⟩
  | .binOp .shll lhs rhs => maybeNarrowShiftAmount engine .shll ⟨lhsId, lhs⟩ ⟨rhsId, rhs⟩
  | .binOp .shra lhs rhs => maybeNarrowShiftAmount engine .shra ⟨lhsId, lhs⟩ ⟨rhsId, rhs⟩
  | .binOp .shrl lhs rhs => maybeNarrowShiftAmount engine .shrl ⟨lhsId, lhs⟩ ⟨rhsId, rhs⟩
  | .arithOp op lhs rhs width => maybeNarrowMultiply engine op ⟨lhsId, lhs⟩ ⟨rhsId, rhs⟩ width
  | _ => some none

end Handlers

end Narrowing

end Xls
