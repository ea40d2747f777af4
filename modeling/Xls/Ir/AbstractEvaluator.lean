/-
# The abstract evaluator

`xls/ir/abstract_evaluator.h`: the operations of the IR on vectors of an arbitrary
element type, built from one, zero, negation, conjunction and disjunction only.  A
vector is a list, least significant element first.

`none` stands for a run which ends in a failed check (`XLS_CHECK`, `UBits` of a value
which does not fit) or reads outside a vector.  No element value decides about it: the
checks are on sizes.  The one place where the source looks at an element is the mask of
the one-hot and priority selects (`selector[i] != Zero()`).

* `Evaluator.oneHotSelect`, `prioritySelect`, `select`, `shift` : the select path;
* `Evaluator.uMul` : the Dadda multiplier, with its queues of partial products;
* `Evaluator.uDivMod`, `sDivMod` : long division.
-/
import Xls.Bits

namespace Xls

/-- The primitives of an evaluator over elements of type `α`. -/
structure Evaluator (α : Type*) where
  one : α
  zero : α
  not : α → α
  and : α → α → α
  or : α → α → α

namespace Evaluator

variable {α : Type*} (E : Evaluator α)

/-! ## Elements -/

/-- `Xor`. -/
def xor (a b : α) : α := E.and (E.or a b) (E.not (E.and a b))

/-- `AdderResult`. -/
structure AdderResult (α : Type*) where
  sum : α
  carry : α
  deriving DecidableEq

/-- `HalfAdder`. -/
def halfAdder (a b : α) : AdderResult α :=
  let carry := E.and a b
  { sum := E.and (E.or a b) (E.not carry), carry := carry }

/-- `FullAdder`. -/
def fullAdder (a b carryIn : α) : AdderResult α :=
  let firstResult := E.halfAdder a b
  let secondResult := E.halfAdder firstResult.sum carryIn
  { sum := secondResult.sum, carry := E.or firstResult.carry secondResult.carry }

/-! ## Vectors -/

/-- `BitsToVector`. -/
def bitsToVector (bits : Bits) : List α :=
  (List.range bits.bitCount).map fun i => if bits.get i then E.one else E.zero

/-- `BitsToVector(UBits(value, width))`. -/
def uBitsVector (value width : ℕ) : Option (List α) :=
  (Bits.uBits value width).map E.bitsToVector

/-- `BitwiseNot`. -/
def bitwiseNot (input : List α) : List α := input.map E.not

/-- `NaryOp`: as wide as the first input; the others may be wider. -/
def naryOp (f : α → α → α) : List (List α) → Option (List α)
  | [] => none
  | front :: rest =>
    if ∀ input ∈ rest, front.length ≤ input.length then some (rest.foldl (List.zipWith f) front)
    else none

/-- `BitwiseAnd`. -/
def bitwiseAnd (inputs : List (List α)) : Option (List α) := naryOp E.and inputs

/-- `BitwiseOr`. -/
def bitwiseOr (inputs : List (List α)) : Option (List α) := naryOp E.or inputs

/-- `BitwiseXor`. -/
def bitwiseXor (inputs : List (List α)) : Option (List α) := naryOp E.xor inputs

/-- `BitSlice`. -/
def bitSlice (input : List α) (start width : ℕ) : Option (List α) :=
  if start + width ≤ input.length then some ((input.drop start).take width) else none

/-- `Concat`: the first input becomes the most significant part. -/
def concat (inputs : List (List α)) : List α := inputs.reverse.flatten

/-- `Equals`. -/
def equals (a b : List α) : Option α :=
  if a.length = b.length then
    some ((a.zip b).foldl (fun result (x, y) =>
      E.and result (E.or (E.and x y) (E.and (E.not x) (E.not y)))) E.one)
  else none

/-- One index of the loop of `ULessThan`, on the result and `upper_bits_lte`. -/
def uLessThanStep (p : α × α) (s : α × α) : α × α :=
  (E.or s.1 (E.and s.2 (E.and (E.not p.1) p.2)), E.and s.2 (E.or (E.not p.1) p.2))

/-- `ULessThan`; the loop goes down from the most significant index. -/
def uLessThan (a b : List α) : Option α :=
  if a.length = b.length then some ((a.zip b).foldr E.uLessThanStep (E.zero, E.one)).1 else none

/-- `SLessThan`. -/
def sLessThan (a b : List α) : Option α := do
  let aBack ← a.getLast?
  let bBack ← b.getLast?
  let less ← E.uLessThan a b
  some (E.or (E.and aBack (E.not bBack)) (E.and (E.not (E.and (E.not aBack) bBack)) less))

/-- `ZeroExtend`. -/
def zeroExtend (input : List α) (newWidth : ℕ) : Option (List α) :=
  if input.length ≤ newWidth then
    some (concat [List.replicate (newWidth - input.length) E.zero, input])
  else none

/-- `SignExtend`. -/
def signExtend (input : List α) (newWidth : ℕ) : Option (List α) := do
  let back ← input.getLast?
  if input.length ≤ newWidth then
    some (concat [List.replicate (newWidth - input.length) back, input])
  else none

/-- `AndReduce`. -/
def andReduce (a : List α) : List α := [a.foldl E.and E.one]

/-- `OrReduce`. -/
def orReduce (a : List α) : List α := [a.foldl E.or E.zero]

/-- `XorReduce`. -/
def xorReduce (a : List α) : List α :=
  [a.foldl (fun result e => E.or (E.and (E.not result) e) (E.and result (E.not e))) E.zero]

/-- The loop of `OneHotLsbToMsb`: the elements pushed and the final `all_zero`.
(`any_one` is computed by the source and not used.) -/
def oneHotLoop (allZero : α) : List α → List α × α
  | [] => ([], allZero)
  | e :: rest =>
    let tail := oneHotLoop (E.and allZero (E.not e)) rest
    (E.and allZero e :: tail.1, tail.2)

/-- `OneHotLsbToMsb`. -/
def oneHotLsbToMsb (input : List α) : List α :=
  let result := E.oneHotLoop E.one input
  result.1 ++ [result.2]

/-- `OneHotMsbToLsb`: the same loop from the other end. -/
def oneHotMsbToLsb (input : List α) : List α :=
  let result := E.oneHotLoop E.one input.reverse
  result.1.reverse ++ [result.2]

/-! ## Selects -/

/-- The disjunction of the cases, each masked by its element of the selector. -/
def oneHotResult (selector : List α) (spans : List (List α)) (width : ℕ) : List α :=
  (selector.zip spans).foldl (fun result (s, c) =>
    List.zipWith (fun r e => E.or r (E.and e s)) result c) (List.replicate width E.zero)

/-- The loop of `PrioritySelectInternal`, from the last case to the first. -/
def priorityResult (selector : List α) (spans : List (List α)) (width : ℕ) : List α :=
  (selector.zip spans).foldr (fun (s, c) result =>
    List.zipWith (fun r e => E.or (E.and e s) (E.and r (E.not s))) result c)
    (List.replicate width E.zero)

/-- The conjunction of the cases which are kept (`and_reduction`). -/
def andReduction (keep : List Bool) (spans : List (List α)) (width : ℕ) : List α :=
  (keep.zip spans).foldl (fun m (k, c) => if k then List.zipWith E.and m c else m)
    (List.replicate width E.one)

variable [DecidableEq α]

/-- What `OneHotSelectInternal` and `PrioritySelectInternal` have in common: the checks,
the width of the first case, of which alone the elements of the others are read, and the
mask which is added when the selector cannot be zero. -/
def selectInternal (result : List α → List (List α) → ℕ → List α)
    (selector : List α) (cases : List (List α)) (selectorCanBeZero : Bool) :
    Option (List α) :=
  match cases with
  | [] => none
  | front :: _ =>
    let width := front.length
    if selector.length = cases.length ∧ ∀ c ∈ cases, width ≤ c.length then
      let spans := cases.map (List.take width)
      if selectorCanBeZero then some (result selector spans width)
      else
        E.bitwiseOr [E.andReduction (selector.map fun s => decide (s ≠ E.zero)) spans width,
          result selector spans width]
    else none

/-- `OneHotSelect`, by way of `OneHotSelectInternal`. -/
def oneHotSelect (selector : List α) (cases : List (List α)) (selectorCanBeZero : Bool) :
    Option (List α) :=
  E.selectInternal E.oneHotResult selector cases selectorCanBeZero

/-- `PrioritySelect`, by way of `PrioritySelectInternal`. -/
def prioritySelect (selector : List α) (cases : List (List α)) (selectorCanBeZero : Bool) :
    Option (List α) :=
  E.selectInternal E.priorityResult selector cases selectorCanBeZero

omit [DecidableEq α] in
/-- `Equals(input, BitsToVector(UBits(i, input.size())))`. -/
def equalsConstant (input : List α) (i : ℕ) : Option α := do
  let constant ← E.uBitsVector i input.length
  E.equals input constant

/-- `size - 1` for a `size_t`. -/
def sizeMinusOne (size : ℕ) : ℕ := (size + 2 ^ 64 - 1) % 2 ^ 64

/-- `Select`. -/
def select (selector : List α) (cases : List (List α)) (defaultValue : Option (List α)) :
    Option (List α) := do
  let oneHotSelector ← (List.range cases.length).mapM (E.equalsConstant selector)
  match defaultValue with
  | none => E.oneHotSelect oneHotSelector cases false
  | some value =>
    let last ← E.uBitsVector (sizeMinusOne cases.length) selector.length
    let above ← E.uLessThan last selector
    E.oneHotSelect (oneHotSelector ++ [above]) (cases ++ [value]) false

omit [DecidableEq α] in
/-- The selector of `Shift`: the comparisons with the shift amounts which `amount` can
express, and one for over-shifting. -/
def shiftSelector (input amount : List α) : Option (List α) := do
  let selector ← ((List.range input.length).takeWhile fun i =>
    decide (Bits.minBitCountUnsigned i ≤ amount.length)).mapM (E.equalsConstant amount)
  if Bits.minBitCountUnsigned input.length ≤ amount.length then
    let bound ← E.uBitsVector input.length amount.length
    let less ← E.uLessThan amount bound
    some (selector ++ [E.not less])
  else some selector

omit [DecidableEq α] in
/-- The cases of `Shift`, slices of the extended input.  The padding of an arithmetic
shift is the last element; of an empty input no padding is pushed. -/
def shiftCases (input : List α) (count : ℕ) (right arithmetic : Bool) : List (List α) :=
  if right then
    let extended := input ++
      List.replicate (count - 1) (if arithmetic then input.getLastD E.zero else E.zero)
    (List.range count).map fun i => (extended.drop i).take input.length
  else
    let extended := List.replicate (count - 1) E.zero ++ input
    (List.range count).map fun i => (extended.drop (count - 1 - i)).take input.length

/-- `Shift`. -/
def shift (input amount : List α) (right arithmetic : Bool) : Option (List α) := do
  let selector ← E.shiftSelector input amount
  E.oneHotSelect selector (E.shiftCases input selector.length right arithmetic) false

/-- `ShiftRightLogical`. -/
def shiftRightLogical (input amount : List α) : Option (List α) := E.shift input amount true false

/-- `ShiftRightArith`. -/
def shiftRightArith (input amount : List α) : Option (List α) := E.shift input amount true true

/-- `ShiftLeftLogical`. -/
def shiftLeftLogical (input amount : List α) : Option (List α) := E.shift input amount false false

omit [DecidableEq α] in
/-- The value of `BitSliceUpdate` at the width of its input, by truncation or
zero-extension. -/
def adjustValue (value : List α) (width : ℕ) : Option (List α) :=
  if width ≤ value.length then bitSlice value 0 width else E.zeroExtend value width

/-- `BitSliceUpdate`. -/
def bitSliceUpdate (input start value : List α) : Option (List α) := do
  let numOnes := min input.length value.length
  let startOnes := BitsOps.zeroExtend (Bits.allOnes numOnes) input.length
  let shiftedOnes ← E.shiftLeftLogical (E.bitsToVector startOnes) start
  let adjustedValue ← E.adjustValue value input.length
  let kept ← E.bitwiseAnd [E.bitwiseNot shiftedOnes, input]
  let shiftedValue ← E.shiftLeftLogical adjustedValue start
  E.bitwiseOr [kept, shiftedValue]

omit [DecidableEq α] in
/-- `Decode`. -/
def decode (input : List α) (resultWidth : ℕ) : Option (List α) :=
  (List.range resultWidth).mapM (E.equalsConstant input)

omit [DecidableEq α] in
/-- `Encode`: element `j` is the disjunction of the inputs whose index has bit `j` set. -/
def encode (input : List α) : List α :=
  let resultWidth := Bits.minBitCountUnsigned (sizeMinusOne input.length)
  input.zipIdx.foldl (fun result (e, i) =>
    result.zipIdx.map fun (r, j) => if i.testBit j then E.or r e else r)
    (List.replicate resultWidth E.zero)

/-! ## Arithmetic -/

omit [DecidableEq α] in
/-- The loop of `Add`, along the first operand. -/
def addLoop (carry : α) : List α → List α → List α
  | a :: as, b :: bs =>
    let r := E.fullAdder a b carry
    r.sum :: addLoop r.carry as bs
  | _, _ => []

omit [DecidableEq α] in
/-- `Add`: as wide as the first operand. -/
def add (a b : List α) : Option (List α) :=
  if a.length ≤ b.length then some (E.addLoop E.zero a b) else none

omit [DecidableEq α] in
/-- `Neg`; there is no `UBits(1, 0)`. -/
def neg (x : List α) : Option (List α) := do
  let one ← E.uBitsVector 1 x.length
  E.add (E.bitwiseNot x) one

/-- `Abs`. -/
def abs (x : List α) : Option (List α) := do
  let back ← x.getLast?
  let negated ← E.neg x
  E.select [back] [x, negated] none

omit [DecidableEq α] in
/-- The partial products: column `i + j` gets the conjunctions of `a[i]` and `b[j]`. -/
def partialProducts (a b : List α) : List (List α) :=
  a.zipIdx.foldl (fun columns (x, i) =>
    b.zipIdx.foldl (fun columns (y, j) => columns.modify (i + j) (· ++ [E.and x y])) columns)
    (List.replicate (a.length + b.length) [])

/-- The first loop over the maximum heights, `2, 3, 4, 6, 9, …` until `size` is reached.
Each height is above the one before, so that `size` rounds are enough. -/
def growHeight (size : ℕ) : ℕ → ℕ → ℕ
  | 0, maxHeight => maxHeight
  | fuel + 1, maxHeight =>
    if maxHeight < size then growHeight size fuel (3 * maxHeight / 2) else maxHeight

omit [DecidableEq α] in
/-- The full adders of one column: they leave the sum at the end of the column and the
carry at the end of the next one.  Each takes two elements out of the column, so that its
size bounds their number. -/
def fullAdders (maxHeight : ℕ) : ℕ → List α → List α → Option (List α × List α)
  | 0, column, next => some (column, next)
  | fuel + 1, column, next =>
    if maxHeight + 1 < column.length then
      match column with
      | a :: b :: c :: rest =>
        let r := E.fullAdder a b c
        fullAdders maxHeight fuel (rest ++ [r.sum]) (next ++ [r.carry])
      | _ => none
    else some (column, next)

omit [DecidableEq α] in
/-- The half adder of one column. -/
def halfAdders (maxHeight : ℕ) (column next : List α) : Option (List α × List α) :=
  if maxHeight < column.length then
    match column with
    | a :: b :: rest =>
      let r := E.halfAdder a b
      some (rest ++ [r.sum], next ++ [r.carry])
    | _ => none
  else some (column, next)

omit [DecidableEq α] in
/-- One stage, from `column` on: every column is brought down to `maxHeight`.  The last
column has no next one and must not need it. -/
def reduceFrom (maxHeight : ℕ) (column : List α) : List (List α) → Option (List (List α))
  | [] => if column.length ≤ maxHeight then some [column] else none
  | next :: rest =>
    if column.length ≤ maxHeight then (reduceFrom maxHeight next rest).map (column :: ·)
    else do
      let full ← E.fullAdders maxHeight column.length column next
      let half ← E.halfAdders maxHeight full.1 full.2
      (reduceFrom maxHeight half.2 rest).map (half.1 :: ·)

omit [DecidableEq α] in
/-- One stage over all columns. -/
def reduceColumns (maxHeight : ℕ) : List (List α) → Option (List (List α))
  | [] => some []
  | column :: rest => E.reduceFrom maxHeight column rest

omit [DecidableEq α] in
/-- The stages, from the largest height down to `2`.  Each height above `2` is below the
one before, so that its value bounds their number. -/
def reduceStages : ℕ → ℕ → List (List α) → Option (List (List α))
  | 0, _, columns => some columns
  | fuel + 1, maxHeight, columns =>
    if 2 < maxHeight then do
      let reduced ← E.reduceColumns ((2 * maxHeight + 2) / 3) columns
      reduceStages fuel ((2 * maxHeight + 2) / 3) reduced
    else some columns

omit [DecidableEq α] in
/-- A column of the ripple-carry adder: the single entry left and the carry, if any. -/
def rippleColumn : List α → Option (α × Option α)
  | [] => some (E.zero, none)
  | [a] => some (a, none)
  | [a, b] => some ((E.halfAdder a b).sum, some (E.halfAdder a b).carry)
  | [a, b, c] => some ((E.fullAdder a b c).sum, some (E.fullAdder a b c).carry)
  | _ => none

omit [DecidableEq α] in
/-- The final ripple-carry adder, from `column` on.  A carry out of the last column would
be pushed past the end. -/
def rippleFrom (column : List α) : List (List α) → Option (List α)
  | [] => do
    let r ← E.rippleColumn column
    if r.2.isNone then some [r.1] else none
  | next :: rest => do
    let r ← E.rippleColumn column
    (rippleFrom (next ++ r.2.toList) rest).map (r.1 :: ·)

omit [DecidableEq α] in
/-- The final ripple-carry adder over all columns. -/
def rippleColumns : List (List α) → Option (List α)
  | [] => some []
  | column :: rest => E.rippleFrom column rest

omit [DecidableEq α] in
/-- `UMul`: a Dadda multiplier. -/
def uMul (a b : List α) : Option (List α) := do
  let size := max a.length b.length
  let maxHeight := growHeight size size 2
  let columns ← E.reduceStages maxHeight maxHeight (E.partialProducts a b)
  E.rippleColumns columns

omit [DecidableEq α] in
/-- `SMul`. -/
def sMul (a b : List α) : Option (List α) := do
  let width := max a.length b.length
  let tempA ← signExtend a (width * 2)
  let tempB ← signExtend b (width * 2)
  let result ← E.uMul tempA tempB
  bitSlice result 0 (a.length + b.length)

/-- `DivisionResult`. -/
structure DivisionResult (α : Type*) where
  quotient : List α
  remainder : List α
  deriving DecidableEq

/-- One index of the loop of `UDivMod`: `bit` is shifted into the remainder, from which
the divisor is subtracted if it fits. -/
def uDivModStep (divisor negDivisor : List α) (bit : α) (s : DivisionResult α) :
    Option (DivisionResult α) := do
  let r := bit :: s.remainder
  let less ← E.uLessThan r divisor
  let q := E.not less
  let difference ← E.add r negDivisor
  let r ← E.select [q] [r, difference] none
  some { quotient := q :: s.quotient, remainder := r.dropLast }

/-- The loop of `UDivMod`, from the most significant index of `n` down. -/
def uDivModLoop (divisor negDivisor : List α) (start : DivisionResult α) :
    List α → Option (DivisionResult α)
  | [] => some start
  | bit :: higher => do
    let s ← uDivModLoop divisor negDivisor start higher
    E.uDivModStep divisor negDivisor bit s

/-- `UDivMod`. -/
def uDivMod (n d : List α) : Option (DivisionResult α) := do
  let nonzeroDivisor := E.orReduce d
  let divisor ← E.zeroExtend d (d.length + 1)
  let negDivisor ← E.neg divisor
  let s ← E.uDivModLoop divisor negDivisor
    { quotient := [], remainder := List.replicate d.length E.zero } n
  let q ← E.select nonzeroDivisor [List.replicate s.quotient.length E.one, s.quotient] none
  let r ← E.select nonzeroDivisor [List.replicate s.remainder.length E.zero, s.remainder] none
  some { quotient := q, remainder := r }

/-- `UDiv`. -/
def uDiv (n d : List α) : Option (List α) := (E.uDivMod n d).map DivisionResult.quotient

/-- `UMod`. -/
def uMod (n d : List α) : Option (List α) := (E.uDivMod n d).map DivisionResult.remainder

omit [DecidableEq α] in
/-- A vector of one element, with the last one replaced. -/
def withBack (width : ℕ) (e back : α) : List α :=
  if width = 0 then [] else List.replicate (width - 1) e ++ [back]

/-- `SDivMod`. -/
def sDivMod (n d : List α) : Option (DivisionResult α) := do
  let nonzeroDivisor ← (E.orReduce d).getLast?
  let nNegative := n.getLastD E.zero
  let dNegative := d.getLastD E.zero
  let absN ← E.abs n
  let absD ← E.abs d
  let result ← E.uDivMod absN absD
  let negRemainder ← E.neg result.remainder
  let remainder ← E.select [nNegative] [result.remainder, negRemainder] none
  let negQuotient ← E.neg result.quotient
  let quotient ← E.select [E.xor nNegative dNegative] [result.quotient, negQuotient] none
  let largestPositive := withBack quotient.length E.one E.zero
  let largestNegative := withBack quotient.length E.zero E.one
  let quotient ← E.select [nNegative, nonzeroDivisor] [largestPositive, largestNegative]
    (some quotient)
  some { quotient := quotient, remainder := remainder }

/-- `SDiv`. -/
def sDiv (n d : List α) : Option (List α) := (E.sDivMod n d).map DivisionResult.quotient

/-- `SMod`. -/
def sMod (n d : List α) : Option (List α) := (E.sDivMod n d).map DivisionResult.remainder

/-- The boolean instance. -/
def bool : Evaluator Bool where
  one := true
  zero := false
  not := Bool.not
  and := Bool.and
  or := Bool.or

end Evaluator

end Xls
