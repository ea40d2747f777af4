/-
# Functions with logic operations

The operations of `Op` together with those on single bits, their interpretation
(`xls/interpreter/ir_interpreter.cc`) and the checks of the verifier.  An operation which is in
neither list stays `Op.other` and takes its value from the environment.
-/
import Xls.Ir.LogicBits
import Xls.Ir.Verifier

namespace Xls

/-- `LsbOrMsb`. -/
inductive LsbOrMsb where
  | lsb
  | msb
  deriving DecidableEq, Repr

/-- The operations on bits, and those of `Op`. -/
inductive LogicOp where
  | and | nand | nor | not | or | xor
  | bitSlice (start width : ℕ) | dynamicBitSlice (width : ℕ) | reverse
  | oneHot (priority : LsbOrMsb) | oneHotSel
  | decode (width : ℕ) | encode
  | core (op : Op)
  deriving DecidableEq, Repr

/-- `Node`.  The operands are counted by a `size_t`. -/
structure LogicNode where
  op : LogicOp
  operands : List ℕ
  type : Ty
  operands_lt : operands.length < 2 ^ 64 := by decide

/-- `FunctionBase`. -/
structure LogicFunction where
  nodes : List LogicNode

namespace LogicInterpreter

open Interpreter (bits1 bits2 bitsVector unOp)

/-- The n-ary operations. -/
def naryOp (f : List Bits → Option Bits) (operands : List Value) : Option Value :=
  (bitsVector operands).bind fun bs => (f bs).map .bits

/-- `HandleBitSlice`; a slice out of bounds is a failed check. -/
def bitSlice (start width : ℕ) (operands : List Value) : Option Value :=
  (bits1 operands).bind fun b =>
    if start + width ≤ b.bitCount then some (.bits (BitsOps.slice b start width)) else none

/-- `HandleDynamicBitSlice`: out of bounds the bits are zero. -/
def dynamicBitSlice (width : ℕ) (operands : List Value) : Option Value :=
  (bits2 operands).bind fun (operand, start) =>
    if operand.bitCount ≤ start.toNat then some (.bits (Bits.zero width))
    else if width ≤ operand.bitCount then
      some (.bits (BitsOps.slice (BitsOps.shiftRightLogical operand start.toNat) 0 width))
    else none

/-- The index which the loop of `HandleOneHot` looks at in its round `i`. -/
def oneHotIndex (priority : LsbOrMsb) (inputWidth i : ℕ) : ℕ :=
  match priority with
  | .lsb => i
  | .msb => inputWidth - i - 1

/-- The bit which `HandleOneHot` sets. -/
def oneHotBit (priority : LsbOrMsb) (outputWidth : ℕ) (input : Bits) : ℕ :=
  match (List.range input.bitCount).find? fun i =>
      input.get (oneHotIndex priority input.bitCount i) with
  | some i => oneHotIndex priority input.bitCount i
  | none => outputWidth - 1

/-- `HandleOneHot`. -/
def oneHot (priority : LsbOrMsb) (type : Ty) (operands : List Value) : Option Value :=
  match type, bits1 operands with
  | .bits w, some input => (Bits.uBits 1 w).map fun one =>
    .bits (BitsOps.shiftLeftLogical one (oneHotBit priority w input))
  | _, _ => none

/-- The element `i` of several values. -/
def elementsAt (i : ℕ) (inputs : List Value) : Option (List Value) :=
  inputs.mapM fun v => v.elements.bind fun vs => vs[i]?

/-- The loop of `DeepOr` on bits; the widths must be equal. -/
def orBits (w : ℕ) (inputs : List Value) : Option Bits :=
  (bitsVector inputs).bind fun bs => BitsOps.naryOr (Bits.zero w :: bs)

mutual

/-- `DeepOr`. -/
def deepOr : Ty → List Value → Option Value
  | .bits w, inputs => (orBits w inputs).map .bits
  | .array n t, inputs =>
    ((List.range n).mapM fun i => (elementsAt i inputs).bind (deepOr t)).bind Interpreter.mkArray
  | .tuple ts, inputs => (deepOrFrom 0 ts inputs).map .tuple
  | .token, _ => none

/-- The elements of a tuple from an index on. -/
def deepOrFrom (i : ℕ) : List Ty → List Value → Option (List Value)
  | [], _ => some []
  | t :: ts, inputs =>
    match (elementsAt i inputs).bind (deepOr t), deepOrFrom (i + 1) ts inputs with
    | some v, some vs => some (v :: vs)
    | _, _ => none

end

/-- `HandleOneHotSel`. -/
def oneHotSel (type : Ty) : List Value → Option Value
  | .bits selector :: cases =>
    (((List.range selector.bitCount).filter selector.get).mapM fun i => cases[i]?).bind (deepOr type)
  | _ => none

/-- `HandleDecode`.  The number of the input becomes an `int64_t`; a negative one is an index
out of range. -/
def decode (type : Ty) (operands : List Value) : Option Value :=
  match type, bits1 operands with
  | .bits w, some input =>
    if input.toNat < 2 ^ 63 then
      some (.bits (if input.toNat < w then Bits.powerOfTwo input.toNat w else Bits.zero w))
    else none
  | _, _ => none

/-- One bit of the loop of `HandleEncode`. -/
def encodeStep (input : Bits) (result : Bits) (i : ℕ) : Option Bits :=
  if input.get i then (Bits.uBits i result.bitCount).map (BitsOps.or result) else some result

/-- `HandleEncode`. -/
def encode (type : Ty) (operands : List Value) : Option Value :=
  match type, bits1 operands with
  | .bits w, some input =>
    ((List.range input.bitCount).foldlM (encodeStep input) (Bits.zero w)).map .bits
  | _, _ => none

/-- The result of a node on the values of its operands. -/
def evalNode (env : Env) (id : ℕ) (n : LogicNode) (operands : List Value) : Option Value :=
  match n.op with
  | .and => naryOp BitsOps.naryAnd operands
  | .nand => naryOp BitsOps.naryNand operands
  | .nor => naryOp BitsOps.naryNor operands
  | .not => unOp BitsOps.not operands
  | .or => naryOp BitsOps.naryOr operands
  | .xor => naryOp BitsOps.naryXor operands
  | .bitSlice start width => bitSlice start width operands
  | .dynamicBitSlice width => dynamicBitSlice width operands
  | .reverse => unOp BitsOps.reverse operands
  | .oneHot priority => oneHot priority n.type operands
  | .oneHotSel => oneHotSel n.type operands
  | .decode _ => decode n.type operands
  | .encode => encode n.type operands
  | .core op => Interpreter.evalNode env id ⟨op, n.operands, n.type⟩ operands

/-- One node: its value is computed and checked against its type. -/
def step (env : Env) (values : List Value) (n : LogicNode) : Option (List Value) :=
  match Interpreter.resolve values n.operands with
  | none => none
  | some operands =>
    match evalNode env values.length n operands with
    | none => none
    | some v => if v.conformsToType n.type then some (values ++ [v]) else none

theorem step_eq_some {env : Env} {values values' : List Value} {n : LogicNode}
    (h : step env values n = some values') :
    ∃ v operands, values' = values ++ [v] ∧ Interpreter.resolve values n.operands = some operands ∧
      evalNode env values.length n operands = some v ∧ v.conformsToType n.type = true := by
  unfold step at h
  split at h
  · cases h
  · rename_i operands hoperands
    split at h
    · cases h
    · rename_i v hv
      split at h
      · rename_i hconf
        cases h
        exact ⟨v, operands, rfl, hoperands, hv, hconf⟩
      · cases h

/-- The values of all nodes, in order. -/
def run (env : Env) (f : LogicFunction) : Option (List Value) := f.nodes.foldlM (step env) []

end LogicInterpreter

namespace LogicVerifier

open Verifier (allSameBitsType verifyNode)

/-- `HandleOneHotSel`, whose constructor takes the type of the first case. -/
def oneHotSelTypes (type : Ty) (operandTypes : List Ty) : Bool :=
  Verifier.prioritySelTypes type operandTypes && decide (operandTypes[1]? = some type)

/-- The checks on one node. -/
def verifyNode (n : LogicNode) (operandTypes : List Ty) : Bool :=
  match n.op with
  | .and | .nand | .nor | .or | .xor =>
    decide (0 < operandTypes.length) && allSameBitsType operandTypes.length n.type operandTypes
  | .not | .reverse => allSameBitsType 1 n.type operandTypes
  | .bitSlice start width =>
    match operandTypes with
    | [.bits w] => decide (n.type = .bits width) && decide (start + width ≤ w)
    | _ => false
  | .dynamicBitSlice width =>
    match operandTypes with
    | [.bits w, .bits _] => decide (n.type = .bits width) && decide (width ≤ w)
    | _ => false
  | .oneHot _ =>
    match operandTypes with
    | [.bits w] => decide (n.type = .bits (w + 1))
    | _ => false
  | .oneHotSel => oneHotSelTypes n.type operandTypes
  | .decode width =>
    match operandTypes with
    | [.bits w] => decide (n.type = .bits width) && decide (w < 63 → width ≤ 2 ^ w)
    | _ => false
  | .encode =>
    match operandTypes with
    | [.bits w] =>
      decide (n.type = .bits (Bits.minBitCountUnsigned (Evaluator.sizeMinusOne w)))
    | _ => false
  | .core .prioritySel => oneHotSelTypes n.type operandTypes
  | .core op => Verifier.verifyNode ⟨op, n.operands, n.type⟩ operandTypes

/-- The types of the operands of a node, which must stand among the nodes before it. -/
def operandTypes (before : List LogicNode) : List ℕ → Option (List Ty)
  | [] => some []
  | i :: rest =>
    match before[i]?, operandTypes before rest with
    | some n, some types => some (n.type :: types)
    | _, _ => none

/-- One node behind those which have been checked. -/
def verifyStep (before : List LogicNode) (n : LogicNode) : Option (List LogicNode) :=
  match operandTypes before n.operands with
  | some types => if verifyNode n types then some (before ++ [n]) else none
  | none => none

/-- The function is accepted by the verifier. -/
def verify (f : LogicFunction) : Bool := (f.nodes.foldlM verifyStep []).isSome

end LogicVerifier

end Xls
