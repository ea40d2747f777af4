/-
# Truth tables of three variables

`TruthTable` and the map of `CreateTruthTables` (`xls/passes/boolean_simplification_pass.cc`): the
functions of up to three variables which are one operation on variables or their negations, the
cheaper ones first.

* `isCanonical_compress` : what is found for an operation on two of three variables is found again
  when the two are all there are;
* `truthTables_ignoresZ` : a function which does not look at the third variable is not found with it.
-/
import Xls.Ir.NodeGraph

namespace Xls

namespace BooleanSimplification

/-- `GetFromMsb`. -/
def getFromMsb (b : Bits) (i : ℕ) : Bool := b.get (b.bitCount - 1 - i)

/-- `TruthTable`: which of the variables are there, which of these are negated, and the operation
on them. -/
structure TruthTable where
  xyzPresent : Bits
  xyzNegated : Bits
  logicalOp : Option LogicOp
  deriving DecidableEq, Repr

namespace TruthTable

/-- `GetInitialVector`. -/
def getInitialVector : ℕ → Bits
  | 0 => Bits.ofNat 8 0b00001111
  | 1 => Bits.ofNat 8 0b00110011
  | _ => Bits.ofNat 8 0b01010101

/-- `RunNaryOp`. -/
def runNaryOp (op : LogicOp) (operands : List Bits) : Option Bits :=
  match op with
  | .and => BitsOps.naryAnd operands
  | .or => BitsOps.naryOr operands
  | .nand => BitsOps.naryNand operands
  | .nor => BitsOps.naryNor operands
  | .xor => BitsOps.naryXor operands
  | _ => none

/-- A variable which is there. -/
def present (t : TruthTable) (i : ℕ) : Bool := getFromMsb t.xyzPresent i

/-- The variables which are there, in the order of the loops. -/
def presentVariables (t : TruthTable) : List ℕ := ([0, 1, 2] : List ℕ).filter t.present

def negated (t : TruthTable) (i : ℕ) : Bool := getFromMsb t.xyzNegated i

/-- The vector of a variable or its negation. -/
def operandVector (t : TruthTable) (i : ℕ) : Bits :=
  if t.negated i then BitsOps.not (getInitialVector i) else getInitialVector i

/-- `ComputeTruthTable`. -/
def computeTruthTable (t : TruthTable) : Option Bits :=
  let operands := t.presentVariables.map t.operandVector
  match t.logicalOp with
  | some op => runNaryOp op operands
  | none =>
    match operands with
    | [b] => some b
    | _ => none

end TruthTable

open TruthTable

/-! ## `CreateTruthTables` -/

/-- `kLogicOps`. -/
def kLogicOps : List LogicOp := [.nand, .nor, .xor, .and, .or]

/-- The presences of the operations. -/
def presences : List ℕ := [0b011, 0b101, 0b110, 0b111]

/-- The tables of single variables and their negations. -/
def singleTables : List TruthTable :=
  ([0b001, 0b010, 0b100] : List ℕ).flatMap fun presence => [false, true].map fun negate =>
    ⟨Bits.ofNat 3 presence, Bits.ofNat 3 (if negate then presence else 0), none⟩

/-- The tables of operations on variables. -/
def plainTables : List TruthTable :=
  kLogicOps.flatMap fun op => presences.map fun presence =>
    ⟨Bits.ofNat 3 presence, Bits.ofNat 3 0, some op⟩

/-- The tables of operations on variables of which some are negated. -/
def negatedTables : List TruthTable :=
  kLogicOps.flatMap fun op => presences.flatMap fun presence =>
    ((List.range' 1 7).filter fun negation => (7 - presence) &&& negation = 0).map fun negation =>
      ⟨Bits.ofNat 3 presence, Bits.ofNat 3 negation, some op⟩

/-- The tables in the order in which they are added. -/
def truthTables : List TruthTable := singleTables ++ plainTables ++ negatedTables

/-- The first table for a vector: a later one is not inserted. -/
def findTable (bits : Bits) : Option TruthTable :=
  truthTables.find? fun t => decide (t.computeTruthTable = some bits)

/-! ## The tables -/

/-- A table is of one variable, or of an operation on two or three. -/
theorem truthTables_shape : ∀ t ∈ truthTables, (t.logicalOp = none ∧
      (t.presentVariables = [0] ∨ t.presentVariables = [1] ∨ t.presentVariables = [2])) ∨
      ((∃ op ∈ kLogicOps, t.logicalOp = some op) ∧
        (t.presentVariables = [1, 2] ∨ t.presentVariables = [0, 2] ∨ t.presentVariables = [0, 1] ∨
          t.presentVariables = [0, 1, 2])) := by
  decide +kernel

/-- A vector which is the same for both values of the third variable. -/
def ignoresZ (b : Bits) : Bool :=
  ([0, 2, 4, 6] : List ℕ).all fun s => b.get s == b.get (s + 1)

theorem truthTables_ignoresZ : ∀ t ∈ truthTables, ∀ b ∈ t.computeTruthTable, ignoresZ b = true →
    2 ∉ t.presentVariables := by
  decide +kernel

/-- The operation of a table on as many variables, from the first one on. -/
def compress (t : TruthTable) : TruthTable :=
  let negations := t.presentVariables.map t.negated
  ⟨Bits.ofNat 3 (2 ^ 3 - 2 ^ (3 - negations.length)),
    Bits.ofNat 3 (4 * (negations.getD 0 false).toNat + 2 * (negations.getD 1 false).toNat +
      (negations.getD 2 false).toNat), t.logicalOp⟩

/-- The table is the one which is found for its vector. -/
def isCanonical (t : TruthTable) : Bool :=
  match t.computeTruthTable with
  | some bits => !bits.isAllOnes && !bits.isZero && decide (findTable bits = some t)
  | none => false

/-- What is found for an operation on some of the variables is found for it on the first ones. -/
theorem isCanonical_compress : ∀ t ∈ truthTables, isCanonical t = true → t.logicalOp ≠ none →
    isCanonical (compress t) = true := by
  decide +kernel

theorem mem_truthTables {bits : Bits} {t : TruthTable} (h : findTable bits = some t) :
    t ∈ truthTables ∧ t.computeTruthTable = some bits :=
  ⟨List.mem_of_find?_eq_some h, of_decide_eq_true (List.find?_eq_some_iff_append.mp h).1⟩

theorem isCanonical_of_findTable {bits : Bits} {t : TruthTable} (h : findTable bits = some t)
    (hones : bits.isAllOnes = false) (hzero : bits.isZero = false) : isCanonical t = true := by
  rw [isCanonical, (mem_truthTables h).2]
  simp only [hones, hzero, h, decide_true, Bool.not_false, Bool.and_self]

theorem isCanonical_iff {t : TruthTable} : isCanonical t = true ↔ ∃ bits,
    t.computeTruthTable = some bits ∧ bits.isAllOnes = false ∧ bits.isZero = false ∧
      findTable bits = some t := by
  unfold isCanonical
  constructor
  · intro h
    split at h
    · rename_i bits hbits
      simp only [Bool.and_eq_true, Bool.not_eq_true', decide_eq_true_eq] at h
      exact ⟨bits, hbits, h.1.1, h.1.2, h.2⟩
    · cases h
  · rintro ⟨bits, hbits, hones, hzero, hfind⟩
    rw [hbits]
    simp only [hones, hzero, hfind, decide_true, Bool.not_false, Bool.and_self]

/-- The variables of a compressed table are the first ones, negated as before. -/
theorem compress_spec : ∀ t ∈ truthTables, t.logicalOp ≠ none →
    (compress t).presentVariables = List.range t.presentVariables.length ∧
      (compress t).presentVariables.map (compress t).negated = t.presentVariables.map t.negated := by
  decide +kernel

end BooleanSimplification

end Xls
