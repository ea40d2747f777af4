/-
# Ternary evaluation

`TernaryEvaluator` (`xls/passes/ternary_evaluator.h`) is the abstract evaluator over the
values of `xls/ir/ternary.h`: known zero, known one and unknown.  A ternary vector
describes the concrete vectors which agree with it in its known bits.

The evaluator is sound for all operations (`ternaryEvaluator_sound`), with a condition on
the selects which are told that their selector is not zero.  `Select` is one of them: it
builds its one-hot selector itself, and that selector is zero when no case and no default
is chosen.  The boolean evaluator then returns all ones, whatever the cases
(`select_not_sound_out_of_range`).
-/
import Xls.Ir.EvaluatorSoundness

namespace Xls

/-- `TernaryValue`. -/
inductive TernaryValue where
  | kKnownZero
  | kKnownOne
  | kUnknown
  deriving DecidableEq, Repr

namespace TernaryOps

/-- `ternary_ops::And`. -/
def and (a b : TernaryValue) : TernaryValue :=
  if a = .kKnownZero ∨ b = .kKnownZero then .kKnownZero
  else if a = .kKnownOne ∧ b = .kKnownOne then .kKnownOne
  else .kUnknown

/-- `ternary_ops::Or`. -/
def or (a b : TernaryValue) : TernaryValue :=
  if a = .kKnownOne ∨ b = .kKnownOne then .kKnownOne
  else if a = .kKnownZero ∧ b = .kKnownZero then .kKnownZero
  else .kUnknown

end TernaryOps

namespace TernaryEvaluator

open Evaluator Relational

/-- `TernaryEvaluator::Not`. -/
def not : TernaryValue → TernaryValue
  | .kKnownZero => .kKnownOne
  | .kKnownOne => .kKnownZero
  | .kUnknown => .kUnknown

/-- `TernaryEvaluator`. -/
def ternary : Evaluator TernaryValue where
  one := .kKnownOne
  zero := .kKnownZero
  not := not
  and := TernaryOps.and
  or := TernaryOps.or

/-- A known value describes its own bit, an unknown one both. -/
def DescribesBit : TernaryValue → Bool → Prop
  | .kKnownZero, b => b = false
  | .kKnownOne, b => b = true
  | .kUnknown, _ => True

instance (t : TernaryValue) (b : Bool) : Decidable (DescribesBit t b) := by
  cases t <;> unfold DescribesBit <;> infer_instance

/-- The ternary evaluator abstracts the boolean one. -/
theorem ternary_abstracts : ternary.Abstracts DescribesBit where
  one := rfl
  zero := rfl
  zero_only := by decide
  not := by
    intro a x
    revert a x
    rintro (_ | _ | _) (_ | _) <;> decide
  and := by
    intro a b x y
    revert a b x y
    rintro (_ | _ | _) (_ | _ | _) (_ | _) (_ | _) <;> decide
  or := by
    intro a b x y
    revert a b x y
    rintro (_ | _ | _) (_ | _ | _) (_ | _) (_ | _) <;> decide

/-- A ternary vector describes a concrete one. -/
abbrev Describes : List TernaryValue → List Bool → Prop := List.Forall₂ DescribesBit

/-- Vectors of operands. -/
abbrev DescribesAll : List (List TernaryValue) → List (List Bool) → Prop :=
  List.Forall₂ Describes

/-- Both operations fail, or the ternary result describes the concrete one. -/
abbrev Sound : Option (List TernaryValue) → Option (List Bool) → Prop := Option.Rel Describes

/-- The same for operations which return one element. -/
abbrev SoundBit : Option TernaryValue → Option Bool → Prop := Option.Rel DescribesBit

/-- The same for the divisions. -/
abbrev SoundDivision :
    Option (DivisionResult TernaryValue) → Option (DivisionResult Bool) → Prop :=
  Option.Rel fun r r' => Describes r.quotient r'.quotient ∧ Describes r.remainder r'.remainder

/-- Every operation of the ternary evaluator is sound on described operands: its result
describes that of the same operation at booleans. -/
structure OperationsSound : Prop where
  bitwiseNot : ∀ {v s}, Describes v s → Describes (ternary.bitwiseNot v) (bool.bitwiseNot s)
  bitwiseAnd : ∀ {vs ss}, DescribesAll vs ss → Sound (ternary.bitwiseAnd vs) (bool.bitwiseAnd ss)
  bitwiseOr : ∀ {vs ss}, DescribesAll vs ss → Sound (ternary.bitwiseOr vs) (bool.bitwiseOr ss)
  bitwiseXor : ∀ {vs ss}, DescribesAll vs ss → Sound (ternary.bitwiseXor vs) (bool.bitwiseXor ss)
  bitsToVector : ∀ bits, Describes (ternary.bitsToVector bits) (bool.bitsToVector bits)
  bitSlice : ∀ {v s} (start width : ℕ), Describes v s →
    Sound (Evaluator.bitSlice v start width) (Evaluator.bitSlice s start width)
  concat : ∀ {vs ss}, DescribesAll vs ss → Describes (Evaluator.concat vs) (Evaluator.concat ss)
  equals : ∀ {v s w t}, Describes v s → Describes w t →
    SoundBit (ternary.equals v w) (bool.equals s t)
  uLessThan : ∀ {v s w t}, Describes v s → Describes w t →
    SoundBit (ternary.uLessThan v w) (bool.uLessThan s t)
  sLessThan : ∀ {v s w t}, Describes v s → Describes w t →
    SoundBit (ternary.sLessThan v w) (bool.sLessThan s t)
  oneHotSelect : ∀ {v s vs ss} (selectorCanBeZero : Bool), Describes v s → DescribesAll vs ss →
    (selectorCanBeZero = true ∨ true ∈ s) →
      Sound (ternary.oneHotSelect v vs selectorCanBeZero)
        (bool.oneHotSelect s ss selectorCanBeZero)
  prioritySelect : ∀ {v s vs ss} (selectorCanBeZero : Bool), Describes v s →
    DescribesAll vs ss → (selectorCanBeZero = true ∨ true ∈ s) →
      Sound (ternary.prioritySelect v vs selectorCanBeZero)
        (bool.prioritySelect s ss selectorCanBeZero)
  select : ∀ {v s vs ss d d'}, Describes v s → DescribesAll vs ss → Sound d d' →
    Chooses s ss.length d'.isSome → Sound (ternary.select v vs d) (bool.select s ss d')
  oneHotLsbToMsb : ∀ {v s}, Describes v s →
    Describes (ternary.oneHotLsbToMsb v) (bool.oneHotLsbToMsb s)
  oneHotMsbToLsb : ∀ {v s}, Describes v s →
    Describes (ternary.oneHotMsbToLsb v) (bool.oneHotMsbToLsb s)
  shiftRightLogical : ∀ {v s w t}, Describes v s → Describes w t →
    Sound (ternary.shiftRightLogical v w) (bool.shiftRightLogical s t)
  shiftRightArith : ∀ {v s w t}, Describes v s → Describes w t →
    Sound (ternary.shiftRightArith v w) (bool.shiftRightArith s t)
  shiftLeftLogical : ∀ {v s w t}, Describes v s → Describes w t →
    Sound (ternary.shiftLeftLogical v w) (bool.shiftLeftLogical s t)
  bitSliceUpdate : ∀ {v s w t u r}, Describes v s → Describes w t → Describes u r →
    Sound (ternary.bitSliceUpdate v w u) (bool.bitSliceUpdate s t r)
  decode : ∀ {v s} (resultWidth : ℕ), Describes v s →
    Sound (ternary.decode v resultWidth) (bool.decode s resultWidth)
  encode : ∀ {v s}, Describes v s → Describes (ternary.encode v) (bool.encode s)
  zeroExtend : ∀ {v s} (newWidth : ℕ), Describes v s →
    Sound (ternary.zeroExtend v newWidth) (bool.zeroExtend s newWidth)
  signExtend : ∀ {v s} (newWidth : ℕ), Describes v s →
    Sound (Evaluator.signExtend v newWidth) (Evaluator.signExtend s newWidth)
  andReduce : ∀ {v s}, Describes v s → Describes (ternary.andReduce v) (bool.andReduce s)
  orReduce : ∀ {v s}, Describes v s → Describes (ternary.orReduce v) (bool.orReduce s)
  xorReduce : ∀ {v s}, Describes v s → Describes (ternary.xorReduce v) (bool.xorReduce s)
  add : ∀ {v s w t}, Describes v s → Describes w t → Sound (ternary.add v w) (bool.add s t)
  neg : ∀ {v s}, Describes v s → Sound (ternary.neg v) (bool.neg s)
  abs : ∀ {v s}, Describes v s → Sound (ternary.abs v) (bool.abs s)
  sMul : ∀ {v s w t}, Describes v s → Describes w t → Sound (ternary.sMul v w) (bool.sMul s t)
  uMul : ∀ {v s w t}, Describes v s → Describes w t → Sound (ternary.uMul v w) (bool.uMul s t)
  uDivMod : ∀ {v s w t}, Describes v s → Describes w t →
    SoundDivision (ternary.uDivMod v w) (bool.uDivMod s t)
  sDivMod : ∀ {v s w t}, Describes v s → Describes w t →
    SoundDivision (ternary.sDivMod v w) (bool.sDivMod s t)

/-- The divisions of an abstraction, in the terms of `SoundDivision`. -/
theorem soundDivision_of_rel {r : Option (DivisionResult TernaryValue)}
    {r' : Option (DivisionResult Bool)}
    (h : Option.Rel (Abstracts.DescribesDivision DescribesBit) r r') : SoundDivision r r' := by
  rcases h with h | _
  · exact .some ⟨h.quotient, h.remainder⟩
  · exact .none

/-- Ternary evaluation is sound. -/
theorem ternaryEvaluator_sound : OperationsSound where
  bitwiseNot := ternary_abstracts.bitwiseNot
  bitwiseAnd := ternary_abstracts.bitwiseAnd
  bitwiseOr := ternary_abstracts.bitwiseOr
  bitwiseXor := ternary_abstracts.bitwiseXor
  bitsToVector := ternary_abstracts.bitsToVector
  bitSlice := Abstracts.bitSlice
  concat := Abstracts.concat
  equals := ternary_abstracts.equals
  uLessThan := ternary_abstracts.uLessThan
  sLessThan := ternary_abstracts.sLessThan
  oneHotSelect canBeZero hv hvs := ternary_abstracts.oneHotSelect hv hvs canBeZero
  prioritySelect canBeZero hv hvs := ternary_abstracts.prioritySelect hv hvs canBeZero
  select hv hvs hd hchooses := ternary_abstracts.select hv hvs hd hchooses
  oneHotLsbToMsb := ternary_abstracts.oneHotLsbToMsb
  oneHotMsbToLsb := ternary_abstracts.oneHotMsbToLsb
  shiftRightLogical hv hw := ternary_abstracts.shift hv hw true false
  shiftRightArith hv hw := ternary_abstracts.shift hv hw true true
  shiftLeftLogical hv hw := ternary_abstracts.shift hv hw false false
  bitSliceUpdate hv hw hu := ternary_abstracts.bitSliceUpdate hv hw hu
  decode width hv := ternary_abstracts.decode hv width
  encode := ternary_abstracts.encode
  zeroExtend := ternary_abstracts.zeroExtend
  signExtend := Abstracts.signExtend
  andReduce := ternary_abstracts.andReduce
  orReduce := ternary_abstracts.orReduce
  xorReduce := ternary_abstracts.xorReduce
  add := ternary_abstracts.add
  neg := ternary_abstracts.neg
  abs := ternary_abstracts.abs
  sMul := ternary_abstracts.sMul
  uMul := ternary_abstracts.uMul
  uDivMod hv hw := soundDivision_of_rel (ternary_abstracts.uDivMod hv hw)
  sDivMod hv hw := soundDivision_of_rel (ternary_abstracts.sDivMod hv hw)

/-- A two-bit unknown selector, two one-bit zero cases and no default: the ternary result
is a known zero, but the selector may be three and the boolean result is then one. -/
theorem select_not_sound_out_of_range : ¬ ∀ v s vs ss, Describes v s → DescribesAll vs ss →
      Sound (ternary.select v vs none) (bool.select s ss none) := by
  intro h
  have hrun := h [.kUnknown, .kUnknown] [true, true] [[.kKnownZero], [.kKnownZero]]
    [[false], [false]] (.cons trivial (.cons trivial .nil))
    (.cons (.cons rfl .nil) (.cons (.cons rfl .nil) .nil))
  have hternary : ternary.select [.kUnknown, .kUnknown] [[.kKnownZero], [.kKnownZero]] none =
      some [.kKnownZero] := by decide
  have hbool : bool.select [true, true] [[false], [false]] none = some [true] := by decide
  rw [hternary, hbool] at hrun
  rcases hrun with ⟨hbit | ⟨hbit, -⟩⟩
  cases hbit

end TernaryEvaluator

end Xls
