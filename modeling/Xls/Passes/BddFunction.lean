/-
# BDD functions

`BddFunction::Run` (`xls/passes/bdd_function.cc`): the bits of every node of bits type become
expressions of one diagram.  An expression with more paths than the limit turns into the
sentinel `TooManyPaths`, and at the end of its node into a new variable; nodes which are not
evaluated are vectors of new variables.

* `saturatingBddEvaluator` : the evaluator whose elements are expressions or the sentinel;
* `BddFunction.run` : the pass over the nodes.
-/
import Xls.Ir.AbstractNodeEvaluator
import Xls.DataStructures.BinaryDecisionDiagram

namespace Xls

/-- `SaturatingBddNodeIndex`: `none` is `TooManyPaths`. -/
abbrev SaturatingBddNodeIndex := Option ℕ

/-- What the passes over a diagram are written in. -/
abbrev BddM := StateT BinaryDecisionDiagram Option

namespace SaturatingBdd

/-- A result, unless its expression has too many paths. -/
def limit (pathLimit : ℤ) (result : ℕ) : BddM SaturatingBddNodeIndex := do
  let bdd ← get
  match bdd.nodes[result]? with
  | some n => pure (if 0 < pathLimit ∧ pathLimit < n.pathCount then none else some result)
  | none => failure

/-- `SaturatingBddEvaluator::Not`. -/
def not (pathLimit : ℤ) : SaturatingBddNodeIndex → BddM SaturatingBddNodeIndex
  | none => pure none
  | some a => do
    let result ← fun bdd => bdd.not a
    limit pathLimit result

/-- `And` and `Or`, which differ in what they ask of the diagram. -/
def binary (pathLimit : ℤ) (op : ℕ → ℕ → BddM ℕ) (a b : SaturatingBddNodeIndex) :
    BddM SaturatingBddNodeIndex :=
  match a, b with
  | some a, some b => do
    let result ← op a b
    limit pathLimit result
  | _, _ => pure none

/-- `SaturatingBddEvaluator::And`. -/
def and (pathLimit : ℤ) (a b : SaturatingBddNodeIndex) : BddM SaturatingBddNodeIndex :=
  binary pathLimit (fun a b bdd => bdd.and a b) a b

/-- `SaturatingBddEvaluator::Or`. -/
def or (pathLimit : ℤ) (a b : SaturatingBddNodeIndex) : BddM SaturatingBddNodeIndex :=
  binary pathLimit (fun a b bdd => bdd.or a b) a b

end SaturatingBdd

/-- `SaturatingBddEvaluator`. -/
def saturatingBddEvaluator (pathLimit : ℤ) :
    StatefulEvaluator BinaryDecisionDiagram SaturatingBddNodeIndex where
  one := some BinaryDecisionDiagram.one
  zero := some BinaryDecisionDiagram.zero
  not := SaturatingBdd.not pathLimit
  and := SaturatingBdd.and pathLimit
  or := SaturatingBdd.or pathLimit

/-- `BddFunction`: the diagram and the expressions of the bits of each node of bits type. -/
structure BddFunction where
  bdd : BinaryDecisionDiagram
  nodeMap : List (Option (List ℕ))

namespace BddFunction

/-- The node at a position is a literal. -/
def isLiteral (f : LogicFunction) (i : ℕ) : Bool :=
  match f.nodes[i]?.map LogicNode.op with
  | some (.core (.literal _)) => true
  | _ => false

/-- The node at a position is a `one_hot`. -/
def isOneHot (f : LogicFunction) (i : ℕ) : Bool :=
  match f.nodes[i]?.map LogicNode.op with
  | some (.oneHot _) => true
  | _ => false

/-- `ShouldEvaluate`. -/
def shouldEvaluate (f : LogicFunction) (n : LogicNode) : Bool :=
  n.type.isBits &&
    match n.op with
    | .and | .nand | .nor | .not | .or | .xor => true
    | .bitSlice _ _ | .reverse | .oneHotSel | .decode _ | .encode => true
    | .dynamicBitSlice _ | .oneHot _ => decide (n.type.flatBitCount ≤ 64)
    | .core op =>
      match op with
      | .zeroExt _ | .signExt _ | .literal _ | .concat | .identity => true
      | .sel _ | .prioritySel => true
      | .andReduce | .orReduce | .xorReduce => true
      | .uge | .ugt | .ule | .ult | .eq | .ne => (n.operands.take 2).any (isLiteral f)
      | _ => false

/-- The operands all have bits type. -/
def bitsOperands (f : LogicFunction) (n : LogicNode) : Bool :=
  n.operands.all fun i => (f.nodes[i]?.map fun o => o.type.isBits).getD false

/-- A new variable, as an element. -/
def newElement : BddM SaturatingBddNodeIndex := do
  let result ← fun bdd => bdd.newVariable
  pure (some result)

/-- `create_new_node_vector`. -/
def createNewNodeVector (n : LogicNode) : BddM (List SaturatingBddNodeIndex) := do
  let width ← StateT.lift n.type.bitCountOrDie
  (List.range width).mapM fun _ => newElement

/-- A bit which exceeded the path limit becomes a new variable. -/
def freshen : SaturatingBddNodeIndex → BddM ℕ
  | some i => pure i
  | none => fun bdd => bdd.newVariable

/-- The expressions of the operands (`values.at(operand)`). -/
def operandValues (values : List (Option (List ℕ))) (n : LogicNode) :
    Option (List (List SaturatingBddNodeIndex)) :=
  n.operands.mapM fun i => values[i]?.join.map (List.map some)

/-- The elements of a node of bits type, before the sentinels are replaced. -/
def nodeVector (pathLimit : ℤ) (nodeFilter : Option (ℕ → Bool)) (f : LogicFunction)
    (values : List (Option (List ℕ))) (n : LogicNode) : BddM (List SaturatingBddNodeIndex) :=
  if shouldEvaluate f n && (nodeFilter.all fun filter => filter values.length) &&
      bitsOperands f n then do
    let operands ← StateT.lift (operandValues values n)
    (saturatingBddEvaluator pathLimit).abstractEvaluate n
      ((n.operands.head?.map (isOneHot f)).getD false) (createNewNodeVector n) operands
  else createNewNodeVector n

/-- The expressions of one node; nodes which are not of bits type have none. -/
def evaluateNode (pathLimit : ℤ) (nodeFilter : Option (ℕ → Bool)) (f : LogicFunction)
    (values : List (Option (List ℕ))) (n : LogicNode) : BddM (Option (List ℕ)) :=
  if n.type.isBits then do
    let vector ← nodeVector pathLimit nodeFilter f values n
    let vector ← vector.mapM freshen
    pure (some vector)
  else pure none

/-- One node of the loop of `Run`. -/
def runStep (pathLimit : ℤ) (nodeFilter : Option (ℕ → Bool)) (f : LogicFunction)
    (values : List (Option (List ℕ))) (n : LogicNode) : BddM (List (Option (List ℕ))) := do
  let entry ← evaluateNode pathLimit nodeFilter f values n
  pure (values ++ [entry])

/-- `BddFunction::Run`. -/
def run (pathLimit : ℤ) (nodeFilter : Option (ℕ → Bool)) (f : LogicFunction) : Option BddFunction :=
  ((f.nodes.foldlM (runStep pathLimit nodeFilter f) []).run BinaryDecisionDiagram.empty).map
    fun p => ⟨p.2, p.1⟩

end BddFunction

end Xls
