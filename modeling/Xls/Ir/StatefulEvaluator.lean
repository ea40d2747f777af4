/-
# Abstract evaluators with a state

`xls/ir/abstract_evaluator.h` once more, for primitives which change a state: the evaluator of
`BddFunction` adds nodes to a diagram with each conjunction.  The operations are those of
`Evaluator`, in the order in which the source calls the primitives; the operations which only
move elements (`Concat`, `BitSlice`) are shared with it.

* `StatefulEvaluator.equals`, `uLessThan` : comparisons;
* `StatefulEvaluator.oneHotSelect`, `prioritySelect`, `select` : the selects, with their masks.
-/
import Xls.Ir.AbstractEvaluator

namespace Xls

/-- The primitives of an evaluator over elements of type `α` which changes states of type `S`. -/
structure StatefulEvaluator (S α : Type) where
  one : α
  zero : α
  not : α → StateT S Option α
  and : α → α → StateT S Option α
  or : α → α → StateT S Option α

namespace StatefulEvaluator

variable {S α : Type} (E : StatefulEvaluator S α)

/-- `Xor`. -/
def xor (a b : α) : StateT S Option α := do
  let either ← E.or a b
  let both ← E.and a b
  E.and either (← E.not both)

/-- `BitsToVector`. -/
def bitsToVector (bits : Bits) : List α :=
  (List.range bits.bitCount).map fun i => if bits.get i then E.one else E.zero

/-- `BitsToVector(UBits(value, width))`. -/
def uBitsVector (value width : ℕ) : Option (List α) :=
  (Bits.uBits value width).map E.bitsToVector

/-- `BitwiseNot`. -/
def bitwiseNot (input : List α) : StateT S Option (List α) := input.mapM E.not

/-- `NaryOp`: as wide as the first input; the others may be wider. -/
def naryOp (f : α → α → StateT S Option α) : List (List α) → StateT S Option (List α)
  | [] => failure
  | front :: rest =>
    if ∀ input ∈ rest, front.length ≤ input.length then rest.foldlM (List.zipWithM' f) front
    else failure

/-- `BitwiseAnd`. -/
def bitwiseAnd (inputs : List (List α)) : StateT S Option (List α) := naryOp E.and inputs

/-- `BitwiseOr`. -/
def bitwiseOr (inputs : List (List α)) : StateT S Option (List α) := naryOp E.or inputs

/-- `BitwiseXor`. -/
def bitwiseXor (inputs : List (List α)) : StateT S Option (List α) := naryOp E.xor inputs

/-- One index of the loop of `Equals`. -/
def equalsStep (result : α) (p : α × α) : StateT S Option α := do
  let both ← E.and p.1 p.2
  let neither ← E.and (← E.not p.1) (← E.not p.2)
  E.and result (← E.or both neither)

/-- `Equals`. -/
def equals (a b : List α) : StateT S Option α :=
  if a.length = b.length then (a.zip b).foldlM E.equalsStep E.one else failure

/-- One index of the loop of `ULessThan`, on the result and `upper_bits_lte`. -/
def uLessThanStep (p : α × α) (s : α × α) : StateT S Option (α × α) := do
  let less ← E.and s.2 (← E.and (← E.not p.1) p.2)
  let result ← E.or s.1 less
  let upperBitsLte ← E.and s.2 (← E.or (← E.not p.1) p.2)
  pure (result, upperBitsLte)

/-- `ULessThan`; the loop goes down from the most significant index. -/
def uLessThan (a b : List α) : StateT S Option α :=
  if a.length = b.length then do
    let s ← (a.zip b).foldrM E.uLessThanStep (E.zero, E.one)
    pure s.1
  else failure

/-- `ZeroExtend`. -/
def zeroExtend (input : List α) (newWidth : ℕ) : Option (List α) :=
  if input.length ≤ newWidth then
    some (Evaluator.concat [List.replicate (newWidth - input.length) E.zero, input])
  else none

/-- `AndReduce`. -/
def andReduce (a : List α) : StateT S Option (List α) := do
  pure [← a.foldlM E.and E.one]

/-- `OrReduce`. -/
def orReduce (a : List α) : StateT S Option (List α) := do
  pure [← a.foldlM E.or E.zero]

/-- One element of the loop of `XorReduce`. -/
def xorReduceStep (result e : α) : StateT S Option α := do
  let fromZero ← E.and (← E.not result) e
  let fromOne ← E.and result (← E.not e)
  E.or fromZero fromOne

/-- `XorReduce`. -/
def xorReduce (a : List α) : StateT S Option (List α) := do
  pure [← a.foldlM E.xorReduceStep E.zero]

/-- The loop of `OneHotLsbToMsb`: the elements pushed and the final `all_zero`.  The source
computes `any_one` and does not use it. -/
def oneHotLoop (allZero anyOne : α) : List α → StateT S Option (List α × α)
  | [] => pure ([], allZero)
  | e :: rest => do
    let pushed ← E.and allZero e
    let allZero ← E.and allZero (← E.not e)
    let anyOne ← E.or anyOne e
    let tail ← oneHotLoop allZero anyOne rest
    pure (pushed :: tail.1, tail.2)

/-- `OneHotLsbToMsb`. -/
def oneHotLsbToMsb (input : List α) : StateT S Option (List α) := do
  let result ← E.oneHotLoop E.one E.zero input
  pure (result.1 ++ [result.2])

/-- `OneHotMsbToLsb`: the same loop from the other end. -/
def oneHotMsbToLsb (input : List α) : StateT S Option (List α) := do
  let result ← E.oneHotLoop E.one E.zero input.reverse
  pure (result.1.reverse ++ [result.2])

/-! ## Selects -/

/-- An element of the result of a one-hot select, and that of a case with its selector. -/
def oneHotStep (s r e : α) : StateT S Option α := do
  E.or r (← E.and e s)

/-- The disjunction of the cases, each masked by its element of the selector. -/
def oneHotResult (selector : List α) (spans : List (List α)) (width : ℕ) :
    StateT S Option (List α) :=
  (selector.zip spans).foldlM (fun result p => List.zipWithM' (E.oneHotStep p.1) result p.2)
    (List.replicate width E.zero)

/-- An element of the result of a priority select, and that of a case with its selector. -/
def priorityStep (s r e : α) : StateT S Option α := do
  let fromCase ← E.and e s
  let fromLater ← E.and r (← E.not s)
  E.or fromCase fromLater

/-- The loop of `PrioritySelectInternal`, from the last case to the first. -/
def priorityResult (selector : List α) (spans : List (List α)) (width : ℕ) :
    StateT S Option (List α) :=
  (selector.zip spans).foldrM (fun p result => List.zipWithM' (E.priorityStep p.1) result p.2)
    (List.replicate width E.zero)

/-- The conjunction of the cases which are kept (`and_reduction`). -/
def andReduction (keep : List Bool) (spans : List (List α)) (width : ℕ) :
    StateT S Option (List α) :=
  (keep.zip spans).foldlM (fun m p => if p.1 then List.zipWithM' E.and m p.2 else pure m)
    (List.replicate width E.one)

variable [DecidableEq α]

/-- What `OneHotSelectInternal` and `PrioritySelectInternal` have in common. -/
def selectInternal (result : List α → List (List α) → ℕ → StateT S Option (List α))
    (selector : List α) (cases : List (List α)) (selectorCanBeZero : Bool) :
    StateT S Option (List α) :=
  match cases with
  | [] => failure
  | front :: _ =>
    let width := front.length
    if selector.length = cases.length ∧ ∀ c ∈ cases, width ≤ c.length then do
      let spans := cases.map (List.take width)
      let selected ← result selector spans width
      if selectorCanBeZero then pure selected
      else do
        let mask ← E.andReduction (selector.map fun s => decide (s ≠ E.zero)) spans width
        E.bitwiseOr [mask, selected]
    else failure

/-- `OneHotSelect`, by way of `OneHotSelectInternal`. -/
def oneHotSelect (selector : List α) (cases : List (List α)) (selectorCanBeZero : Bool) :
    StateT S Option (List α) :=
  E.selectInternal E.oneHotResult selector cases selectorCanBeZero

/-- `PrioritySelect`, by way of `PrioritySelectInternal`. -/
def prioritySelect (selector : List α) (cases : List (List α)) (selectorCanBeZero : Bool) :
    StateT S Option (List α) :=
  E.selectInternal E.priorityResult selector cases selectorCanBeZero

omit [DecidableEq α] in
/-- `Equals(input, BitsToVector(UBits(i, input.size())))`. -/
def equalsConstant (input : List α) (i : ℕ) : StateT S Option α := do
  let constant ← StateT.lift (E.uBitsVector i input.length)
  E.equals input constant

/-- `Select`. -/
def select (selector : List α) (cases : List (List α)) (defaultValue : Option (List α)) :
    StateT S Option (List α) := do
  let oneHotSelector ← (List.range cases.length).mapM (E.equalsConstant selector)
  match defaultValue with
  | none => E.oneHotSelect oneHotSelector cases false
  | some value => do
    let last ← StateT.lift
      (E.uBitsVector (Evaluator.sizeMinusOne cases.length) selector.length)
    let above ← E.uLessThan last selector
    E.oneHotSelect (oneHotSelector ++ [above]) (cases ++ [value]) false

omit [DecidableEq α] in
/-- `Decode`. -/
def decode (input : List α) (resultWidth : ℕ) : StateT S Option (List α) :=
  (List.range resultWidth).mapM (E.equalsConstant input)

omit [DecidableEq α] in
/-- One input of the loop of `Encode`. -/
def encodeStep (result : List α) (p : α × ℕ) : StateT S Option (List α) :=
  result.zipIdx.mapM fun q => if p.2.testBit q.2 then E.or q.1 p.1 else pure q.1

omit [DecidableEq α] in
/-- `Encode`: element `j` is the disjunction of the inputs whose index has bit `j` set. -/
def encode (input : List α) : StateT S Option (List α) :=
  input.zipIdx.foldlM E.encodeStep
    (List.replicate (Bits.minBitCountUnsigned (Evaluator.sizeMinusOne input.length)) E.zero)

end StatefulEvaluator

end Xls
