/-
# Functions of the IR and their interpretation

A `FunctionBase` is a list of nodes in a topological order, each with an operation,
the positions of its operands, and its type.  `implicitUses` are the positions used
by the function itself: the return value of a function, the next token and the
next-state values of a proc.

The interpreter follows `xls/interpreter/ir_interpreter.cc`: each node is computed
from the values of its operands, and the result must conform to the type of the
node.  Parameters, and the operations which this model leaves uninterpreted, take
their value from an environment, which may depend on the values of the operands.
-/
import Xls.Ir.LeafTypeTree

namespace Xls

/-- The operations. -/
inductive Op where
  | param
  | literal (value : Value)
  | add | sub | neg | umul | udiv
  | concat | zeroExt (newBitCount : ℕ) | signExt (newBitCount : ℕ) | identity
  | sel (hasDefault : Bool) | prioritySel | gate
  | eq | ne | ugt | uge | ult | ule | sgt | sge | slt | sle
  | andReduce | orReduce | xorReduce
  | array | arrayIndex | arrayConcat | tuple | tupleIndex (index : ℕ)
  /-- Any other operation, by its name. -/
  | other (name : String) (sideEffecting : Bool)
  deriving DecidableEq, Repr

/-- `Node`: operands are given by position. -/
structure Node where
  op : Op
  operands : List ℕ
  type : Ty
  deriving DecidableEq, Repr

/-- `FunctionBase`: a function or a proc. -/
structure FunctionBase where
  nodes : List Node
  implicitUses : List ℕ
  deriving DecidableEq, Repr

/-- The values of parameters and uninterpreted operations, by node and operands. -/
abbrev Env := ℕ → List Value → Value

namespace Interpreter

/-- The bits of one operand. -/
def bits1 : List Value → Option Bits
  | [v] => v.asBits
  | _ => none

/-- The bits of two operands. -/
def bits2 : List Value → Option (Bits × Bits)
  | [v, u] =>
    match v.asBits, u.asBits with
    | some a, some b => some (a, b)
    | _, _ => none
  | _ => none

/-- `ResolveAsBitsVector`. -/
def bitsVector : List Value → Option (List Bits)
  | [] => some []
  | v :: vs =>
    match v.asBits, bitsVector vs with
    | some b, some bs => some (b :: bs)
    | _, _ => none

/-- A unary operation on bits. -/
def unOp (f : Bits → Bits) (operands : List Value) : Option Value :=
  (bits1 operands).map fun a => .bits (f a)

/-- A binary operation on bits. -/
def binOp (f : Bits → Bits → Bits) (operands : List Value) : Option Value :=
  (bits2 operands).map fun p => .bits (f p.1 p.2)

/-- `SetUint64Result` of a truth value. -/
def boolResult (type : Ty) (b : Bool) : Option Value :=
  match type with
  | .bits w => (Bits.uBits b.toNat w).map .bits
  | _ => none

/-- A comparison of bits. -/
def compareOp (f : Bits → Bits → Bool) (type : Ty) (operands : List Value) : Option Value :=
  match bits2 operands with
  | some (a, b) => boolResult type (f a b)
  | none => none

/-- `HandleEq` and `HandleNe` compare values of any type. -/
def equalityOp (expected : Bool) (type : Ty) : List Value → Option Value
  | [v, u] => boolResult type (decide (v = u) == expected)
  | _ => none

/-- `HandleUMul`: the full product cut or extended to the width of the node. -/
def umul (type : Ty) (operands : List Value) : Option Value :=
  match type, bits2 operands with
  | .bits w, some (a, b) =>
    let result := BitsOps.uMul a b
    if result.bitCount > w then some (.bits (BitsOps.slice result 0 w))
    else if result.bitCount < w then some (.bits (BitsOps.zeroExtend result w))
    else some (.bits result)
  | _, _ => none

/-- The cases and the default of a select, from its operands behind the selector. -/
def selectArms (hasDefault : Bool) (arms : List Value) : List Value × Option Value :=
  if hasDefault then (arms.dropLast, arms.getLast?) else (arms, none)

/-- `HandleSel`: a selector beyond the last case chooses the default. -/
def sel (hasDefault : Bool) : List Value → Option Value
  | .bits selector :: arms =>
    let (cases, default) := selectArms hasDefault arms
    match cases with
    | [] => none
    | _ :: _ =>
      match Bits.uBits (cases.length - 1) selector.bitCount with
      | none => none
      | some lastCase =>
        if BitsOps.uLessThan lastCase selector then default
        else cases[selector.toNat]?
  | _ => none

/-- `HandlePrioritySel`: the case of the lowest set bit of the selector. -/
def prioritySel (type : Ty) : List Value → Option Value
  | .bits selector :: cases =>
    match (List.range selector.bitCount).find? selector.get with
    | some i => cases[i]?
    | none => some (Value.zeroOfType type)
  | _ => none

/-- `HandleGate`. -/
def gate (type : Ty) : List Value → Option Value
  | [.bits condition, data] =>
    if condition.isOne then some data else some (Value.zeroOfType type)
  | _ => none

/-- `BitsToBoundedUint64`. -/
def bitsToBoundedUint64 (b : Bits) (upperLimit : ℕ) : ℕ :=
  if Bits.minBitCountUnsigned upperLimit ≤ b.bitCount ∧ upperLimit < b.toNat then upperLimit
  else b.toNat

/-- The loop of `HandleArrayIndex`: an index out of bounds selects the last element. -/
def arrayIndexFrom : Value → List Bits → Option Value
  | v, [] => some v
  | .array vs, i :: indices =>
    match vs[bitsToBoundedUint64 i (vs.length - 1)]? with
    | some u => arrayIndexFrom u indices
    | none => none
  | _, _ :: _ => none

/-- `HandleArrayIndex`. -/
def arrayIndex : List Value → Option Value
  | v :: indices =>
    match bitsVector indices with
    | some indices => arrayIndexFrom v indices
    | none => none
  | [] => none

/-- `Value::Array`, which rejects an empty list. -/
def mkArray (elements : List Value) : Option Value :=
  if elements.isEmpty then none else some (.array elements)

/-- The elements of several arrays in a row. -/
def concatElements : List Value → Option (List Value)
  | [] => some []
  | .array vs :: rest =>
    match concatElements rest with
    | some us => some (vs ++ us)
    | none => none
  | _ :: _ => none

/-- `HandleArrayConcat`. -/
def arrayConcat (operands : List Value) : Option Value :=
  match concatElements operands with
  | some elements => mkArray elements
  | none => none

/-- `HandleTupleIndex`. -/
def tupleIndex (index : ℕ) : List Value → Option Value
  | [.tuple vs] => vs[index]?
  | _ => none

/-- The result of a node on the values of its operands. -/
def evalNode (env : Env) (id : ℕ) (n : Node) (operands : List Value) : Option Value :=
  match n.op with
  | .param => some (env id operands)
  | .literal value => some value
  | .add => binOp BitsOps.add operands
  | .sub => binOp BitsOps.sub operands
  | .neg => unOp BitsOps.negate operands
  | .umul => umul n.type operands
  | .udiv => binOp BitsOps.uDiv operands
  | .concat => (bitsVector operands).map fun bs => .bits (BitsOps.concat bs)
  | .zeroExt w => unOp (BitsOps.zeroExtend · w) operands
  | .signExt w => unOp (BitsOps.signExtend · w) operands
  | .identity => operands.head?
  | .sel hasDefault => sel hasDefault operands
  | .prioritySel => prioritySel n.type operands
  | .gate => gate n.type operands
  | .eq => equalityOp true n.type operands
  | .ne => equalityOp false n.type operands
  | .ugt => compareOp (fun a b => BitsOps.uLessThan b a) n.type operands
  | .uge => compareOp (fun a b => BitsOps.uLessThanOrEqual b a) n.type operands
  | .ult => compareOp BitsOps.uLessThan n.type operands
  | .ule => compareOp BitsOps.uLessThanOrEqual n.type operands
  | .sgt => compareOp (fun a b => BitsOps.sLessThan b a) n.type operands
  | .sge => compareOp (fun a b => BitsOps.sLessThanOrEqual b a) n.type operands
  | .slt => compareOp BitsOps.sLessThan n.type operands
  | .sle => compareOp BitsOps.sLessThanOrEqual n.type operands
  | .andReduce => unOp BitsOps.andReduce operands
  | .orReduce => unOp BitsOps.orReduce operands
  | .xorReduce => unOp BitsOps.xorReduce operands
  | .array => mkArray operands
  | .arrayIndex => arrayIndex operands
  | .arrayConcat => arrayConcat operands
  | .tuple => some (.tuple operands)
  | .tupleIndex index => tupleIndex index operands
  | .other _ _ => some (env id operands)

/-- The values of the operands of a node. -/
def resolve (values : List Value) : List ℕ → Option (List Value)
  | [] => some []
  | i :: rest =>
    match values[i]?, resolve values rest with
    | some v, some vs => some (v :: vs)
    | _, _ => none

/-- One node: its value is computed and checked against its type. -/
def step (env : Env) (values : List Value) (n : Node) : Option (List Value) :=
  match resolve values n.operands with
  | none => none
  | some operands =>
    match evalNode env values.length n operands with
    | none => none
    | some v => if v.conformsToType n.type then some (values ++ [v]) else none

/-- The values of all nodes, in order. -/
def run (env : Env) (f : FunctionBase) : Option (List Value) :=
  f.nodes.foldlM (step env) []

end Interpreter

end Xls
