/-
# The range query engine

`xls/passes/range_query_engine.cc`.  The engine stores, for each node, a tree of
interval sets and the bits known from them.  `RangeQueryVisitor` visits the nodes in
topological order; each `Handle` function reads the trees of the operands, and may
store a tree for the node, which is intersected with the one already there.

A result `none` of a function stands for a failed CHECK, an error status, or an
access without a value.  A handler returns `some none` when it stores nothing.  The
type of a node is read off its tree: `SetIntervalSetTree` only stores trees of the
node's type.
-/
import Xls.IntervalMask
import Xls.MathUtil
import Xls.MinimizeIntervals
import Xls.Ir.Function

namespace Xls

/-- `IntervalSetTree`. -/
abbrev IntervalSetTree := LeafTypeTree IntervalSet

/-- `RangeQueryEngine`: `known_bits_` and `known_bit_values_`, and `interval_sets_`. -/
structure RangeQueryEngine where
  knownBits : ℕ → Option (Bits × Bits)
  intervalSets : ℕ → Option IntervalSetTree

namespace Range

/-! ## Variadic operations -/

/-- `Tonicity`; `Unknown` is not supported by the source either. -/
inductive Tonicity where
  | monotone
  | antitone
  deriving DecidableEq, Repr

/-- The operands of the lower bound of a result, from the bounds of the arguments. -/
def lowerArguments : List Tonicity → List Bits → List Bits → List Bits
  | .monotone :: ts, lo :: los, _ :: his => lo :: lowerArguments ts los his
  | .antitone :: ts, _ :: los, hi :: his => hi :: lowerArguments ts los his
  | _, _, _ => []

/-- The intervals chosen by an index vector, one from each operand. -/
def chosenIntervals : List IntervalSet → List ℕ → Option (List (Bits × Bits))
  | s :: operands, i :: indexes =>
    match s.intervals[i]?, chosenIntervals operands indexes with
    | some interval, some rest => some ((interval.lowerBound, interval.upperBound) :: rest)
    | _, _ => none
  | [], [] => some []
  | _, _ => none

/-- `Interval(lower, upper)`, added to a set of width `w`. -/
def intervalOfBits (w : ℕ) (lower upper : Bits) : Option (Interval w) :=
  if h : lower.bitCount = w ∧ upper.bitCount = w then
    some ⟨lower.toNat, upper.toNat, h.1 ▸ lower.isLt, h.2 ▸ upper.isLt⟩
  else none

/-- One choice of intervals in `HandleVariadicOp`: the callback stops when the
implementation gives up on either bound. -/
def variadicCallback (impl : List Bits → Option Bits) (tonicities : List Tonicity) (w : ℕ)
    (operands : List IntervalSet) (resultIntervals : List (Interval w)) (indexes : List ℕ) :
    Option (List (Interval w) × Bool) :=
  match chosenIntervals operands indexes with
  | none => none
  | some chosen =>
    let los := chosen.map Prod.fst
    let his := chosen.map Prod.snd
    match impl (lowerArguments tonicities los his), impl (lowerArguments tonicities his los) with
    | some lower, some upper =>
      match intervalOfBits w lower upper with
      | some interval => some (resultIntervals ++ [interval], false)
      | none => none
    | _, _ => some (resultIntervals, true)

/-- The operand sets, minimized; from the thirteenth operand on to one interval. -/
def minimizeOperands : ℕ → List IntervalSet → List IntervalSet
  | _, [] => []
  | i, s :: rest =>
    minimizeIntervals s (if i < 12 then 5 else 1) :: minimizeOperands (i + 1) rest

/-- The bits operands of a node: `GetIntervalSetTree(operand).Get({})`. -/
def bitsOperands : List IntervalSetTree → Option (List IntervalSet)
  | [] => some []
  | t :: ts =>
    match t.get [], bitsOperands ts with
    | some s, some ss => some (s :: ss)
    | _, _ => none

/-- The tree of a leaf type, to be stored. -/
def storeLeaf (type : Ty) (s : IntervalSet) : Option (Option IntervalSetTree) :=
  match LeafTypeTree.ofLeaf type s with
  | some tree => some (some tree)
  | none => none

/-- `HandleVariadicOp`. -/
def handleVariadicOp (impl : List Bits → Option Bits) (tonicities : List Tonicity) (type : Ty)
    (trees : List IntervalSetTree) : Option (Option IntervalSetTree) :=
  match type, bitsOperands trees with
  | .bits w, some sets =>
    if sets.length = tonicities.length then
      let operands := minimizeOperands 0 sets
      match mixedRadixIterate (operands.map fun s => s.intervals.length)
          (variadicCallback impl tonicities w operands) [] with
      | none => none
      | some (_, true) => some none
      | some (resultIntervals, false) =>
        storeLeaf type
          (minimizeIntervals (IntervalSet.ofIntervals resultIntervals) defaultMinimizeSize)
    else none
  | _, _ => none

/-- A unary implementation. -/
def unary (f : Bits → Option Bits) : List Bits → Option Bits
  | [a] => f a
  | _ => none

/-- A binary implementation. -/
def binary (f : Bits → Bits → Option Bits) : List Bits → Option Bits
  | [a, b] => f a b
  | _ => none

/-- The implementation of `HandleAdd`: gives up on overflow. -/
def addImpl (lhs rhs : Bits) : Option Bits :=
  let paddedSize := max lhs.bitCount rhs.bitCount + 1
  let paddedResult := BitsOps.add (BitsOps.zeroExtend lhs paddedSize)
    (BitsOps.zeroExtend rhs paddedSize)
  if paddedResult.msb then none else some (BitsOps.add lhs rhs)

/-- The implementation of `HandleSub`: gives up on underflow. -/
def subImpl (lhs rhs : Bits) : Option Bits :=
  if BitsOps.uLessThanOrEqual rhs lhs then some (BitsOps.sub lhs rhs) else none

/-- The implementation of `HandleUMul`: gives up when the product does not fit. -/
def umulImpl (bitCount : ℕ) (x y : Bits) : Option Bits :=
  let result := BitsOps.uMul x y
  if result.fitsInNBitsUnsigned bitCount then
    some (BitsOps.zeroExtend (BitsOps.dropLeadingZeroes result) bitCount)
  else none

/-! ## Comparisons -/

/-- The bounds of the intervals of a set. -/
def bounds (s : IntervalSet) : List (ℕ × ℕ) := s.intervals.map fun i => (i.lower, i.upper)

/-- `AnalyzeEq`. -/
def analyzeEq (lhs rhs : IntervalSet) : Option (Option Bool) :=
  if lhs.isNormalized && rhs.isNormalized then
    let isPrecise := lhs.isPrecise && rhs.isPrecise
    match lhs.combine rhs with
    | none => none
    | some combined =>
      let isDisjoint :=
        lhs.intervals.length + rhs.intervals.length == combined.intervals.length
      if isPrecise && decide (bounds lhs = bounds rhs) then some (some true)
      else if isDisjoint then some (some false)
      else some none
  else none

/-- `AnalyzeLt`. -/
def analyzeLt (lhs rhs : IntervalSet) : Option (Option Bool) :=
  match lhs.convexHull, rhs.convexHull with
  | some lhsHull, some rhsHull =>
    if h : rhs.bitCount = lhs.bitCount then
      let rhsHull := rhsHull.cast h
      if lhsHull.disjoint rhsHull then
        if lhsHull.lt rhsHull then some (some true)
        else if rhsHull.lt lhsHull then some (some false)
        else some none
      else some none
    else none
  | _, _ => some none

/-- `FalseIntervalSet` and `TrueIntervalSet`. -/
def boolIntervalSet (b : Bool) : IntervalSet := IntervalSet.precise (BitsOps.ofBool b)

/-- The common end of the comparison handlers. -/
def storeAnalysis (type : Ty) : Option (Option Bool) → Option (Option IntervalSetTree)
  | none => none
  | some none => some none
  | some (some b) => storeLeaf type (boolIntervalSet b)

/-- The two operand sets of a comparison. -/
def twoOperands (trees : List IntervalSetTree) : Option (IntervalSet × IntervalSet) :=
  match bitsOperands trees with
  | some [lhs, rhs] => some (lhs, rhs)
  | _ => none

/-- `HandleEq` and `HandleNe`: operands which are not bits are skipped. -/
def handleEquality (expected : Bool) (type : Ty) (trees : List IntervalSetTree) :
    Option (Option IntervalSetTree) :=
  match trees with
  | [] => none
  | first :: _ =>
    if !first.type.isBits then some none
    else
      match twoOperands trees with
      | some (lhs, rhs) =>
        storeAnalysis type ((analyzeEq lhs rhs).map fun a => a.map (· == expected))
      | none => none

/-- The unsigned order comparisons. -/
def handleCompare (analyze : IntervalSet → IntervalSet → Option (Option Bool)) (type : Ty)
    (trees : List IntervalSetTree) : Option (Option IntervalSetTree) :=
  match twoOperands trees with
  | some (lhs, rhs) => storeAnalysis type (analyze lhs rhs)
  | none => none

/-- The override of `HandleULe` and `HandleUGe` for operands known to be equal. -/
def orEqual (analysis equal : Option (Option Bool)) : Option (Option Bool) :=
  match analysis, equal with
  | some _, some (some true) => some (some true)
  | some a, some _ => some a
  | _, _ => none

/-- `HandleULt`. -/
def handleULt : Ty → List IntervalSetTree → Option (Option IntervalSetTree) :=
  handleCompare analyzeLt

/-- `HandleUGt`. -/
def handleUGt : Ty → List IntervalSetTree → Option (Option IntervalSetTree) :=
  handleCompare fun lhs rhs => analyzeLt rhs lhs

/-- `HandleULe`. -/
def handleULe : Ty → List IntervalSetTree → Option (Option IntervalSetTree) :=
  handleCompare fun lhs rhs => orEqual (analyzeLt lhs rhs) (analyzeEq lhs rhs)

/-- `HandleUGe`. -/
def handleUGe : Ty → List IntervalSetTree → Option (Option IntervalSetTree) :=
  handleCompare fun lhs rhs => orEqual (analyzeLt rhs lhs) (analyzeEq lhs rhs)

/-! ## Reductions -/

/-- `HandleAndReduce`. -/
def handleAndReduce (type : Ty) (trees : List IntervalSetTree) :
    Option (Option IntervalSetTree) :=
  match bitsOperands trees with
  | some [intervals] =>
    let max := 2 ^ intervals.bitCount - 1
    match intervals.convexHull with
    | some hull =>
      if hull.lower = max ∧ hull.upper = max then storeLeaf type (boolIntervalSet true)
      else if !intervals.covers max then storeLeaf type (boolIntervalSet false)
      else some none
    | none =>
      if !intervals.covers max then storeLeaf type (boolIntervalSet false) else some none
  | _ => none

/-- `HandleOrReduce`.  The hull is compared with a one-bit zero; the comparison of
bounds does not look at widths. -/
def handleOrReduce (type : Ty) (trees : List IntervalSetTree) :
    Option (Option IntervalSetTree) :=
  match bitsOperands trees with
  | some [intervals] =>
    match intervals.convexHull with
    | some hull =>
      if hull.lower = 0 ∧ hull.upper = 0 then storeLeaf type (boolIntervalSet false)
      else if !intervals.covers 0 then storeLeaf type (boolIntervalSet true)
      else some none
    | none =>
      if !intervals.covers 0 then storeLeaf type (boolIntervalSet true) else some none
  | _ => none

/-- The loop of `HandleXorReduce`: the common parity of precise intervals; the outer
`none` when the loop returns early. -/
def commonParity {w : ℕ} : Option Bits → List (Interval w) → Option (Option Bits)
  | output, [] => some output
  | output, i :: rest =>
    if !i.isPrecise then none
    else
      let reduced := BitsOps.xorReduce i.lowerBound
      match output with
      | some o => if o ≠ reduced then none else commonParity (some reduced) rest
      | none => commonParity (some reduced) rest

/-- `HandleXorReduce`. -/
def handleXorReduce (type : Ty) (trees : List IntervalSetTree) :
    Option (Option IntervalSetTree) :=
  match bitsOperands trees with
  | some [intervals] =>
    if intervals.isNormalized then
      match commonParity none intervals.intervals with
      | some (some output) => storeLeaf type (IntervalSet.precise output)
      | _ => some none
    else none
  | _ => none

/-! ## Selects and gates -/

/-- `EmptyIntervalSetTree`. -/
def emptyIntervalSetTree (type : Ty) : IntervalSetTree :=
  LeafTypeTree.ofLeafTypes type fun t => IntervalSet.empty t.flatBitCount

/-- `Combine` leaf by leaf. -/
def combineTrees (lhs rhs : IntervalSetTree) : Option IntervalSetTree :=
  LeafTypeTree.zip IntervalSet.combine lhs rhs

/-- `MinimizeIntervals` leaf by leaf. -/
def minimizeTree (tree : IntervalSetTree) : IntervalSetTree :=
  tree.map fun s => minimizeIntervals s defaultMinimizeSize

/-- The callback of `HandleSel` on one selector value: the state is whether the
default is possible and the values seen.  `ToUint64` fails on large values. -/
def selectorCallback (numCases : ℕ) (state : Bool × List ℕ) (value : ℕ) :
    Option ((Bool × List ℕ) × Bool) :=
  if 2 ^ 64 ≤ value then none
  else if numCases ≤ value then some ((true, state.2), true)
  else some ((state.1, value :: state.2), false)

/-- The selector values of all intervals. -/
def selectorValues {w : ℕ} (numCases : ℕ) : List (Interval w) → Bool × List ℕ →
    Option (Bool × List ℕ)
  | [], state => some state
  | i :: rest, state =>
    match i.forEachElement (selectorCallback numCases) state with
    | some (state', _) => selectorValues numCases rest state'
    | none => none

/-- The cases chosen by a predicate on positions, combined into a tree. -/
def combineCases (chosen : ℕ → Bool) : ℕ → List IntervalSetTree → IntervalSetTree →
    Option IntervalSetTree
  | _, [], result => some result
  | i, tree :: rest, result =>
    if chosen i then
      match combineTrees result tree with
      | some result' => combineCases chosen (i + 1) rest result'
      | none => none
    else combineCases chosen (i + 1) rest result

/-- The cases and the default among the operands of a select behind its selector. -/
def selectArmTrees (hasDefault : Bool) (arms : List IntervalSetTree) :
    List IntervalSetTree × Option IntervalSetTree :=
  if hasDefault then (arms.dropLast, arms.getLast?) else (arms, none)

/-- The end of `HandleSel`: the default joins when it is possible. -/
def combineDefault (defaultPossible : Bool) (default : Option IntervalSetTree)
    (result : IntervalSetTree) : Option IntervalSetTree :=
  match defaultPossible, default with
  | true, some tree => combineTrees result tree
  | _, _ => some result

/-- `HandleSel`. -/
def handleSel (hasDefault : Bool) (type : Ty) (trees : List IntervalSetTree) :
    Option (Option IntervalSetTree) :=
  match trees with
  | [] => none
  | selector :: arms =>
    match selector.get [] with
    | none => none
    | some selectorIntervals =>
      let (cases, default) := selectArmTrees hasDefault arms
      if selectorIntervals.isNormalized then
        match selectorValues cases.length selectorIntervals.intervals (false, []) with
        | none => none
        | some (defaultPossible, values) =>
          match combineCases (fun i => values.contains i) 0 cases (emptyIntervalSetTree type) with
          | none => none
          | some result =>
            match combineDefault defaultPossible default result with
            | none => none
            | some result => some (some (minimizeTree result))
      else none

/-- The all-zero default of a priority select. -/
def allZeroDefault (type : Ty) : IntervalSetTree :=
  LeafTypeTree.ofLeafTypes type fun t => IntervalSet.precise (Bits.zero t.flatBitCount)

/-- The mask of case `i` among `numCases` of a priority select:
`ShiftLeftLogical(UBits(1, numCases), i)`. -/
def caseMask (numCases i : ℕ) : Option Bits :=
  (Bits.uBits 1 numCases).map fun one => BitsOps.shiftLeftLogical one i

/-- The answers of the mask query for all cases of a priority select. -/
def possibleCases (selectorIntervals : IntervalSet) (numCases : ℕ) :
    ℕ → Option (List Bool)
  | 0 => some []
  | count + 1 =>
    match possibleCases selectorIntervals numCases count, caseMask numCases count with
    | some answers, some mask =>
      match selectorIntervals.isTrueWhenMaskWith mask with
      | some answer => some (answers ++ [answer])
      | none => none
    | _, _ => none

/-- `HandlePrioritySel`. -/
def handlePrioritySel (type : Ty) (trees : List IntervalSetTree) :
    Option (Option IntervalSetTree) :=
  match trees with
  | [] => none
  | selector :: cases =>
    match selector.get [] with
    | none => none
    | some selectorIntervals =>
      match possibleCases selectorIntervals cases.length cases.length with
      | none => none
      | some answers =>
        match combineDefault (selectorIntervals.covers 0) (some (allZeroDefault type))
            (emptyIntervalSetTree type) with
        | none => none
        | some result =>
          match combineCases (fun i => answers.getD i false) 0 cases result with
          | none => none
          | some result => some (some (minimizeTree result))

/-- `Covers(UBits(value, BitCount()))`. -/
def coversValue (s : IntervalSet) (value : ℕ) : Option Bool :=
  (Bits.uBits value s.bitCount).map fun b => s.covers b.toNat

/-- The zero of a false condition added to the leaves of a gate, which must be bits. -/
def addZeros : List Ty → List IntervalSet → Option (List IntervalSet)
  | t :: ts, s :: ss =>
    match t.isBits, addZeros ts ss with
    | true, some rest =>
      some ((s.addInterval ⟨0, 0, Nat.two_pow_pos _, Nat.two_pow_pos _⟩).normalize :: rest)
    | _, _ => none
  | [], [] => some []
  | _, _ => none

/-- `HandleGate`. -/
def handleGate (type : Ty) (trees : List IntervalSetTree) : Option (Option IntervalSetTree) :=
  match trees with
  | [condition, data] =>
    match condition.get [] with
    | none => none
    | some condIntervals =>
      match coversValue condIntervals 1 with
      | none => none
      | some coversOne =>
        let result := if coversOne then data else emptyIntervalSetTree type
        if condIntervals.covers 0 then
          match addZeros result.type.leafTypes result.elements with
          | some elements => (LeafTypeTree.ofElements result.type elements).map some
          | none => none
        else some (some result)
  | _ => none

/-! ## Literals, tuples and arrays -/

/-- `HandleLiteral`. -/
def handleLiteral (value : Value) (type : Ty) : Option (Option IntervalSetTree) :=
  if value.conformsToType type then
    (LeafTypeTree.ofElements type (value.leaves.map IntervalSet.precise)).map some
  else none

/-- `HandleArray` and `HandleTuple`. -/
def handleMembers (type : Ty) (trees : List IntervalSetTree) :
    Option (Option IntervalSetTree) :=
  (LeafTypeTree.ofMembers type trees).map some

/-- `HandleTupleIndex`. -/
def handleTupleIndex (index : ℕ) (trees : List IntervalSetTree) :
    Option (Option IntervalSetTree) :=
  match trees with
  | [arg] => (arg.copySubtree [index]).map some
  | _ => none

/-- The first `count` elements of an array tree. -/
def arrayElements (tree : IntervalSetTree) : ℕ → Option (List IntervalSetTree)
  | 0 => some []
  | count + 1 =>
    match arrayElements tree count, tree.copySubtree [count] with
    | some elements, some element => some (elements ++ [element])
    | _, _ => none

/-- The elements of several array trees. -/
def concatTrees : List IntervalSetTree → Option (List IntervalSetTree)
  | [] => some []
  | tree :: rest =>
    match tree.type with
    | .array size _ =>
      match arrayElements tree size, concatTrees rest with
      | some elements, some others => some (elements ++ others)
      | _, _ => none
    | _ => none

/-- `HandleArrayConcat`. -/
def handleArrayConcat (type : Ty) (trees : List IntervalSetTree) :
    Option (Option IntervalSetTree) :=
  match concatTrees trees with
  | some elements => handleMembers type elements
  | none => none

/-- `intervals_cover_index`: an index out of bounds counts for the last element. -/
def intervalsCoverIndex (intervals : IntervalSet) (index dim : ℕ) : Bool :=
  if Bits.minBitCountUnsigned index > intervals.bitCount then false
  else if intervals.covers index then true
  else
    match intervals.upperBound with
    | some ub => decide (index + 1 = dim) && decide (dim ≤ ub.val)
    | none => false

/-- The dimensions which are indexed. -/
def indexDimensions : Ty → ℕ → Option (List ℕ)
  | _, 0 => some []
  | .array size t, count + 1 => (indexDimensions t count).map (size :: ·)
  | _, _ + 1 => none

/-- All indices may be covered. -/
def allCoverIndex : List IntervalSet → List ℕ → List ℕ → Bool
  | s :: sets, i :: indexes, dim :: dimension =>
    intervalsCoverIndex s i dim && allCoverIndex sets indexes dimension
  | _, _, _ => true

/-- The callback of `HandleArrayIndex`. -/
def arrayIndexCallback (array : IntervalSetTree) (sets : List IntervalSet) (dimension : List ℕ)
    (result : IntervalSetTree) (indexes : List ℕ) : Option (IntervalSetTree × Bool) :=
  if allCoverIndex sets indexes dimension then
    match array.copySubtree indexes with
    | some subtree =>
      match combineTrees result subtree with
      | some result' => some (result', false)
      | none => none
    | none => none
  else some (result, false)

/-- `HandleArrayIndex`. -/
def handleArrayIndex (type : Ty) (trees : List IntervalSetTree) :
    Option (Option IntervalSetTree) :=
  match trees with
  | [] => none
  | array :: indices =>
    if indices.isEmpty then some (some array)
    else
      match indexDimensions array.type indices.length, bitsOperands indices with
      | some dimension, some sets =>
        match mixedRadixIterate dimension (arrayIndexCallback array sets dimension)
            (emptyIntervalSetTree type) with
        | some (result, _) => some (some result)
        | none => none
      | _, _ => none

/-! ## The visitor -/

/-- The handler of a node, on the trees of its operands. -/
def handleNode (n : Node) (trees : List IntervalSetTree) : Option (Option IntervalSetTree) :=
  match n.op with
  | .param => some none
  | .literal value => handleLiteral value n.type
  | .add => handleVariadicOp (binary addImpl) [.monotone, .monotone] n.type trees
  | .sub => handleVariadicOp (binary subImpl) [.monotone, .antitone] n.type trees
  | .neg => handleVariadicOp (unary fun b => some (BitsOps.negate b)) [.antitone] n.type trees
  | .umul =>
    handleVariadicOp (binary (umulImpl n.type.flatBitCount)) [.monotone, .monotone] n.type trees
  | .udiv =>
    handleVariadicOp (binary fun a b => some (BitsOps.uDiv a b)) [.monotone, .antitone] n.type trees
  | .concat =>
    handleVariadicOp (fun bs => some (BitsOps.concat bs))
      (List.replicate n.operands.length .monotone) n.type trees
  | .zeroExt w =>
    handleVariadicOp (unary fun b => some (BitsOps.zeroExtend b w)) [.monotone] n.type trees
  | .signExt w =>
    handleVariadicOp (unary fun b => some (BitsOps.signExtend b w)) [.monotone] n.type trees
  | .identity => handleVariadicOp (unary some) [.monotone] n.type trees
  | .sel hasDefault => handleSel hasDefault n.type trees
  | .prioritySel => handlePrioritySel n.type trees
  | .gate => handleGate n.type trees
  | .eq => handleEquality true n.type trees
  | .ne => handleEquality false n.type trees
  | .ugt => handleUGt n.type trees
  | .uge => handleUGe n.type trees
  | .ult => handleULt n.type trees
  | .ule => handleULe n.type trees
  | .sgt | .sge | .slt | .sle => some none
  | .andReduce => handleAndReduce n.type trees
  | .orReduce => handleOrReduce n.type trees
  | .xorReduce => handleXorReduce n.type trees
  | .array => handleMembers n.type trees
  | .arrayIndex => handleArrayIndex n.type trees
  | .arrayConcat => handleArrayConcat n.type trees
  | .tuple => handleMembers n.type trees
  | .tupleIndex index => handleTupleIndex index trees
  | .other _ _ => some none

end Range

namespace RangeQueryEngine

/-- An engine without data. -/
def empty : RangeQueryEngine := ⟨fun _ => none, fun _ => none⟩

/-- The tree of a node about which nothing is known. -/
def maximalTree (type : Ty) : IntervalSetTree :=
  LeafTypeTree.ofLeafTypes type fun t => IntervalSet.maximal t.flatBitCount

/-- `GetIntervalSetTree`. -/
def getIntervalSetTree (e : RangeQueryEngine) (f : FunctionBase) (id : ℕ) :
    Option IntervalSetTree :=
  match e.intervalSets id with
  | some tree => some tree
  | none => f.nodes[id]?.map fun n => maximalTree n.type

/-- The number of leading bits in which two `w`-bit values agree. -/
def commonPrefixLength (w lower upper : ℕ) : ℕ :=
  ((List.range w).find? fun i => lower.testBit (w - 1 - i) != upper.testBit (w - 1 - i)).getD w

/-- `interval_ops::ExtractKnownBits`: the common leading bits of the bounds are known;
fails on the empty set. -/
def extractKnownBits (s : IntervalSet) : Option (Bits × Bits) :=
  if s.isNormalized then
    match s.intervals.head?, s.intervals.getLast? with
    | some first, some last =>
      let size := commonPrefixLength s.bitCount first.lower last.upper
      let lcp := BitsOps.slice first.lowerBound (s.bitCount - size) size
      let remainder := Bits.zero (s.bitCount - size)
      some (BitsOps.concat [Bits.allOnes size, remainder], BitsOps.concat [lcp, remainder])
    | _, _ => none
  else none

/-- The bits of a stored tree which are known, for a node of bits type. -/
def knownBitsOfTree (type : Ty) (tree : IntervalSetTree) (old : Option (Bits × Bits)) :
    Option (Option (Bits × Bits)) :=
  if type.isBits then
    match tree.get [] with
    | some s => (extractKnownBits s).map some
    | none => none
  else some old

/-- `SetIntervalSetTree`: the given tree is intersected with the present one. -/
def setIntervalSetTree (e : RangeQueryEngine) (f : FunctionBase) (id : ℕ) (type : Ty)
    (tree : IntervalSetTree) : Option RangeQueryEngine :=
  match e.getIntervalSetTree f id with
  | none => none
  | some old =>
    match LeafTypeTree.zip IntervalSet.intersect old tree with
    | none => none
    | some new =>
      match knownBitsOfTree type new (e.knownBits id) with
      | none => none
      | some known =>
        some ⟨Function.update e.knownBits id known, Function.update e.intervalSets id (some new)⟩

/-- `InitializeNode`. -/
def initializeNode (e : RangeQueryEngine) (id : ℕ) (type : Ty) : RangeQueryEngine :=
  match e.knownBits id with
  | some _ => e
  | none =>
    let zeros := Bits.zero type.flatBitCount
    { e with knownBits := Function.update e.knownBits id (some (zeros, zeros)) }

/-- The trees of the operands of a node. -/
def operandTrees (e : RangeQueryEngine) (f : FunctionBase) : List ℕ → Option (List IntervalSetTree)
  | [] => some []
  | i :: rest =>
    match e.getIntervalSetTree f i, operandTrees e f rest with
    | some tree, some trees => some (tree :: trees)
    | _, _ => none

/-- The visit of one node, without givens. -/
def visitNode (f : FunctionBase) (e : RangeQueryEngine) (id : ℕ) (n : Node) :
    Option RangeQueryEngine :=
  let e := e.initializeNode id n.type
  match e.operandTrees f n.operands with
  | none => none
  | some trees =>
    match Range.handleNode n trees with
    | none => none
    | some none => some e
    | some (some tree) => e.setIntervalSetTree f id n.type tree

/-- The visit of the nodes from position `id` on. -/
def visitFrom (f : FunctionBase) : ℕ → List Node → RangeQueryEngine → Option RangeQueryEngine
  | _, [], e => some e
  | id, n :: rest, e =>
    match visitNode f e id n with
    | some e' => visitFrom f (id + 1) rest e'
    | none => none

/-- `Populate`, that is `PopulateWithGivens` without givens. -/
def populate (f : FunctionBase) (e : RangeQueryEngine) : Option RangeQueryEngine :=
  visitFrom f 0 f.nodes e

end RangeQueryEngine

end Xls
