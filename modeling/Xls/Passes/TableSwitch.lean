/-
# Chains of selects as tables

`xls/passes/table_switch_pass.cc`: a chain of binary selects which compare one index with
literals becomes an index into a literal array.  Nodes are given by position.  Of the results
`.ok none` says that a chain has no table, and an error is a failed check.
-/
import Xls.Codegen.Flattening
import Xls.Ir.Function
import Xls.Lib.DenseTable

namespace Xls

namespace TableSwitch

open Flattening (Failure)

/-! ## The source -/

/-- The value of a literal node. -/
def literalValue (f : FunctionBase) (i : ℕ) : Option Value :=
  match f.nodes[i]? with
  | some n =>
    match n.op with
    | .literal value => some value
    | _ => none
  | none => none

/-- `is_uint64_literal`, with the value of the literal. -/
def uint64Literal (f : FunctionBase) (i : ℕ) : Option ℕ :=
  match literalValue f i with
  | some (.bits b) => if b.toNat < 2 ^ 64 then some b.toNat else none
  | _ => none

/-- `Uint64Comparison`. -/
structure Uint64Comparison where
  index : ℕ
  key : ℕ
  comparisonOp : Op
  deriving DecidableEq, Repr

/-- `MatchCompareEqAgainstUint64`. -/
def matchCompareEqAgainstUint64 (f : FunctionBase) (i : ℕ) : Option Uint64Comparison :=
  match f.nodes[i]? with
  | some n =>
    if n.op ≠ .eq ∧ n.op ≠ .ne then none
    else
      match n.operands with
      | [lhs, rhs] =>
        match uint64Literal f lhs with
        | some key => some ⟨rhs, key, n.op⟩
        | none => (uint64Literal f rhs).map fun key => ⟨lhs, key, n.op⟩
      | _ => none
  | none => none

/-- `IsBinarySelect`, with the selector and the two cases. -/
def binarySelect (f : FunctionBase) (i : ℕ) : Option (ℕ × ℕ × ℕ) :=
  match f.nodes[i]? with
  | some n =>
    match n.op, n.operands with
    | .sel false, [selector, case0, case1] => some (selector, case0, case1)
    | _, _ => none
  | none => none

/-- `Link`. -/
structure Link where
  node : ℕ
  index : ℕ
  key : ℕ
  value : Value
  next : ℕ
  deriving DecidableEq, Repr

/-- `MatchLink`. -/
def matchLink (f : FunctionBase) (node : ℕ) (index : Option ℕ) : Option Link :=
  match binarySelect f node with
  | none => none
  | some (selector, case0, case1) =>
    match matchCompareEqAgainstUint64 f selector with
    | none => none
    | some comparison =>
      let next := if comparison.comparisonOp = .eq then case0 else case1
      let valueNode := if comparison.comparisonOp = .eq then case1 else case0
      match literalValue f valueNode with
      | none => none
      | some value =>
        if index.any (· != comparison.index) then none
        else some ⟨node, comparison.index, comparison.key, value, next⟩

/-- The map of `LinksToTable` with its least and its greatest key. -/
structure KeyMap where
  map : List (ℕ × Value)
  minKey : ℕ
  maxKey : ℕ
  deriving DecidableEq, Repr

/-- One link: a key which is known already belongs to a link further down the chain. -/
def KeyMap.insert (m : KeyMap) (link : Link) : KeyMap :=
  if (m.map.lookup link.key).isSome then m
  else ⟨m.map ++ [(link.key, link.value)], min m.minKey link.key, max m.maxKey link.key⟩

/-- The loop of `LinksToTable` over the links. -/
def gather (links : List Link) : KeyMap := links.foldl KeyMap.insert ⟨[], 2 ^ 64 - 1, 0⟩

/-- `values[key] = value` with the check of the key. -/
def storeChecked (values : List (Option Value)) (entry : ℕ × Value) :
    Except Failure (List (Option Value)) :=
  if entry.1 < values.length then .ok (DenseTable.store values entry) else .error .internal

/-- `Value::Array` of elements some of which may never have been written: those are invalid
values, which have no type to compare. -/
def arrayOfWritten (values : List (Option Value)) : Except Failure Value :=
  if values.all Option.isSome then Flattening.valueArray (values.filterMap id) else .error .fatal

/-- `map_to_array_value`. -/
def mapToArrayValue (map : List (ℕ × Value)) : Except Failure Value :=
  (map.foldlM storeChecked (List.replicate map.length none)).bind arrayOfWritten

/-- One step of the loop which fills the holes of the index space. -/
def fillHole (elseValue : Value) (map : List (ℕ × Value)) (i : ℕ) : List (ℕ × Value) :=
  if (map.lookup i).isSome then map else map ++ [(i, elseValue)]

/-- The size of the index space, if the index is narrow enough. -/
def indexSpaceSize (indexWidth : ℕ) : Option ℕ :=
  if indexWidth < 63 then some (2 ^ indexWidth) else none

/-- `LinksToTable` where the selects cover the whole index space. -/
def coveredTable (m : KeyMap) (size : ℕ) : Except Failure (Option Value) :=
  if m.minKey ≠ 0 then .error .internal
  else if m.maxKey ≠ size - 1 then .error .internal
  else (mapToArrayValue m.map).map some

/-- `LinksToTable` where more than half of the index space is covered. -/
def filledTable (m : KeyMap) (size : ℕ) (elseValue : Value) : Except Failure (Option Value) :=
  let map := (List.range size).foldl (fillHole elseValue) m.map
  if map.length ≠ size then .error .internal else (mapToArrayValue map).map some

/-- `map[key] = value`. -/
def assign (map : List (ℕ × Value)) (key : ℕ) (value : Value) : List (ℕ × Value) :=
  map.filter (·.1 != key) ++ [(key, value)]

/-- `LinksToTable` where the keys are dense from zero on. -/
def saturatingTable (m : KeyMap) (elseValue : Value) : Except Failure (Option Value) :=
  if m.minKey ≠ 0 then .error .internal
  else (mapToArrayValue (assign m.map ((m.maxKey + 1) % 2 ^ 64) elseValue)).map some

/-- `LinksToTable` for an index of a width and the literal at the end of the chain. -/
def linksToTableFrom (m : KeyMap) (indexSpaceSize : Option ℕ) (elseValue : Option Value) :
    Except Failure (Option Value) :=
  if indexSpaceSize = some m.map.length then coveredTable m m.map.length
  else
    match elseValue with
    | none => .ok none
    | some elseValue =>
      match indexSpaceSize.filter fun size =>
          decide (m.map.length < size) && decide (m.map.length * 2 > size) with
      | some size => filledTable m size elseValue
      | none =>
        if m.map.length = (m.maxKey + 1) % 2 ^ 64 then saturatingTable m elseValue
        else .ok none

/-- The width of a node. -/
def flatBitCount (f : FunctionBase) (i : ℕ) : ℕ :=
  match f.nodes[i]? with
  | some n => n.type.flatBitCount
  | none => 0

/-- `LinksToTable`. -/
def linksToTable (f : FunctionBase) : List Link → Except Failure (Option Value)
  | [] => .ok none
  | first :: rest =>
    linksToTableFrom (gather (first :: rest)) (indexSpaceSize (flatBitCount f first.index))
      (literalValue f ((first :: rest).getLast (List.cons_ne_nil _ _)).next)

end TableSwitch

end Xls
