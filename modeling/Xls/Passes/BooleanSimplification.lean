/-
# Boolean simplification

`BooleanSimplificationPass` (`xls/passes/boolean_simplification_pass.cc`) visits the nodes after
their operands, `BooleanFlowTracker` flows a truth table from the frontier of a boolean computation
to each of its nodes, and a node whose function is one operation on up to three frontier nodes is
replaced by that operation.  The replacements are made behind the other nodes of the function while
it is traversed, and are visited as well.
-/
import Xls.Passes.Canonicalization
import Xls.Passes.OptimizationPass
import Xls.Passes.TruthTables

namespace Xls

namespace BooleanSimplification

open NodeGraph TruthTable
open Canonicalization (literalNode bitCountOrDie)

/-! ## Nodes -/

/-- The operations which `BooleanFlowTracker` handles. -/
def isLogicOp : GraphOp → Bool
  | .logic .and | .logic .nand | .logic .nor | .logic .not | .logic .or => true
  | _ => false

/-- `MakeNode`: the graph, and the new node. -/
def makeNode (g : NodeGraph) (n : Vertex NodeLabel) : Option (NodeGraph × ℕ) :=
  if g.verifyVertex n then some (g.make n, g.length) else none

/-- `IsNotOf`. -/
def isNotOf (g : NodeGraph) (node inverted : ℕ) : Bool :=
  match g.vertex node with
  | some ⟨⟨.logic .not, _⟩, x :: _⟩ => decide (x = inverted)
  | _ => false

/-- `AnyOperandWhere`. -/
def anyOperandWhere (g : NodeGraph) (node : ℕ) (predicate : ℕ → Bool) : Bool :=
  match g.vertex node with
  | some n => n.operands.any predicate
  | none => false

/-- `SBits`, which must fit. -/
def sBits (value : ℤ) (bitCount : ℕ) : Option Bits :=
  if BitmapBits.minBitCountSigned value > bitCount then none else some (Bits.ofInt bitCount value)

/-! ## Replacements -/

/-- A variable of a table is an operand, or its negation is. -/
def matchesOperand (t : TruthTable) (g : NodeGraph) (original : ℕ) (operands : List ℕ)
    (i : ℕ) : Bool :=
  match operands[i]? with
  | none => false
  | some operand =>
    if t.negated i then anyOperandWhere g original fun o => isNotOf g o operand
    else anyOperandWhere g original fun o => decide (o = operand)

/-- The node is the variable of a table or its negation. -/
def matchesVariable (t : TruthTable) (g : NodeGraph) (original : ℕ) (operands : List ℕ)
    (i : ℕ) : Bool :=
  match operands[i]? with
  | none => false
  | some operand =>
    if t.negated i then isNotOf g original operand else decide (original = operand)

/-- `MatchesSymmetrical`. -/
def matchesSymmetrical (t : TruthTable) (g : NodeGraph) (original : ℕ)
    (operands : List ℕ) : Bool :=
  match t.logicalOp with
  | some op =>
    decide ((g.vertex original).map (fun n => n.label.op) = some (.logic op)) &&
      t.presentVariables.all (matchesOperand t g original operands)
  | none => t.presentVariables.head?.any (matchesVariable t g original operands)

/-- One round of the loop of `CreateReplacement`. -/
def addOperand (t : TruthTable) (operands : List ℕ) (state : NodeGraph × List ℕ) (i : ℕ) :
    Option (NodeGraph × List ℕ) := do
  let operand ← operands[i]?
  if t.negated i then
    let type ← state.1.typeOf operand
    let (g, negation) ← makeNode state.1 ⟨⟨.logic .not, type⟩, [operand]⟩
    some (g, state.2 ++ [negation])
  else some (state.1, state.2 ++ [operand])

/-- `CreateReplacement`. -/
def createReplacement (t : TruthTable) (g : NodeGraph) (operands : List ℕ) :
    Option (NodeGraph × ℕ) := do
  let (g, thisOperands) ←
    t.presentVariables.foldlM (addOperand t operands) (g, [])
  match t.logicalOp with
  | none =>
    match thisOperands with
    | [operand] => some (g, operand)
    | _ => none
  | some op => do
    let first ← thisOperands.head?
    let type ← g.typeOf first
    makeNode g ⟨⟨.logic op, type⟩, thisOperands⟩

/-- `ResolveTruthTable`; `some none` is a null pointer. -/
def resolveTruthTable (g : NodeGraph) (bits : Bits) (operands : List ℕ) (original : ℕ) :
    Option (Option (NodeGraph × ℕ)) :=
  if 2 ≤ operands.length ∧ operands.length ≤ 3 then
    if bits.isAllOnes then do
      let w ← bitCountOrDie g original
      let ones ← sBits (-1) w
      (makeNode g (literalNode ones)).map some
    else if bits.isZero then do
      let w ← bitCountOrDie g original
      (makeNode g (literalNode (Bits.zero w))).map some
    else
      match findTable bits with
      | none => some none
      | some t =>
        if matchesSymmetrical t g original operands then some none
        else (createReplacement t g operands).map some
  else none

/-! ## Frontiers -/

/-- `Frontier`: some nodes, or too many. -/
inductive Frontier where
  | vector (nodes : List ℕ)
  | tooMany
  deriving DecidableEq, Repr

/-- `kMaxFrontierNodes`. -/
def kMaxFrontierNodes : ℕ := 3

/-- `AddNonBool`. -/
def addNonBool (node : ℕ) : Frontier → Frontier
  | .tooMany => .tooMany
  | .vector nodes =>
    if node ∈ nodes then .vector nodes
    else if nodes.length ≥ kMaxFrontierNodes then .tooMany
    else .vector (nodes ++ [node])

/-- `Union`, into `out`. -/
def union (arg out : Frontier) : Frontier :=
  match out, arg with
  | .tooMany, _ => .tooMany
  | .vector _, .tooMany => .tooMany
  | .vector _, .vector nodes => nodes.foldl (fun out node => addNonBool node out) out

/-- The index of a node in the frontier: `GetX`, `GetY` and `GetZ`. -/
def frontierIndex (frontier : List ℕ) (node : ℕ) : Option ℕ :=
  ([0, 1, 2] : List ℕ).find? fun i => decide (frontier[i]? = some node)

/-! ## The tracker -/

/-- The operations of `FlowFromFrontierToNode`. -/
def runLogicOp (op : GraphOp) (operands : List Bits) : Option Bits :=
  match op, operands with
  | .logic .not, [b] => some (BitsOps.not b)
  | .logic .not, _ => none
  | .logic op, operands => runNaryOp op operands
  | _, _ => none

/-- `FlowFromFrontierToNode`, with the memoized results before and after.  The recursion is bounded
by `fuel`. -/
def flowFromFrontierToNode (g : NodeGraph) (frontier : List ℕ) :
    ℕ → (ℕ → Option Bits) → ℕ → Option (Bits × (ℕ → Option Bits))
  | 0, _, _ => none
  | fuel + 1, memoized, node =>
    match memoized node with
    | some result => some (result, memoized)
    | none =>
      match frontierIndex frontier node with
      | some i =>
        some (getInitialVector i, Function.update memoized node (some (getInitialVector i)))
      | none =>
        match g.vertex node with
        | none => none
        | some n => do
          let (operands, memoized) ← n.operands.foldlM (fun state o =>
            (flowFromFrontierToNode g frontier fuel state.2 o).map fun r =>
              (state.1 ++ [r.1], r.2)) ([], memoized)
          let result ← runLogicOp n.label.op operands
          some (result, Function.update memoized node (some result))

/-- `BooleanFlowTracker`, and the nodes of the function it visits. -/
structure Tracker where
  nodes : NodeGraph
  visited : List ℕ
  nodeToFrontier : ℕ → Option Frontier
  nodeReplacements : List (ℕ × ℕ)

/-- The frontier of one operand, which is a frontier node unless it is found. -/
def addOperandFrontier (nodeToFrontier : ℕ → Option Frontier) (accum : Frontier) (operand : ℕ) :
    Frontier :=
  match nodeToFrontier operand with
  | none => addNonBool operand accum
  | some frontier => union frontier accum

/-- `UnionOperandFrontier`. -/
def unionOperandFrontier (nodeToFrontier : ℕ → Option Frontier) (operands : List ℕ) : Frontier :=
  operands.foldl (addOperandFrontier nodeToFrontier) (.vector [])

/-- `HandleLogicOp`. -/
def handleLogicOp (fuel : ℕ) (s : Tracker) (node : ℕ) (operands : List ℕ) : Option Tracker :=
  let frontier := unionOperandFrontier s.nodeToFrontier operands
  let s := { s with nodeToFrontier := Function.update s.nodeToFrontier node (some frontier) }
  match frontier with
  | .tooMany => some s
  | .vector operands =>
    if operands.length ≥ 2 then do
      let (result, _) ← flowFromFrontierToNode s.nodes operands fuel (fun _ => none) node
      let replacement ← resolveTruthTable s.nodes result operands node
      match replacement with
      | none => some s
      | some (g, r) =>
        some { s with nodes := g, nodeReplacements := s.nodeReplacements ++ [(node, r)] }
    else some s

/-- `VisitSingleNode`: other operations have the default handler. -/
def visitSingleNode (fuel : ℕ) (s : Tracker) (i : ℕ) (n : Vertex NodeLabel) : Option Tracker :=
  if isLogicOp n.label.op then handleLogicOp fuel s i n.operands else some s

/-- `Node::Accept`, with the nodes which are being traversed. -/
def acceptNode : ℕ → List ℕ → Tracker → ℕ → Option Tracker
  | 0, _, _, _ => none
  | fuel + 1, traversing, s, i =>
    if i ∈ s.visited then some s
    else if i ∈ traversing then none
    else
      match s.nodes.vertex i with
      | none => none
      | some n => do
        let s ← n.operands.foldlM (acceptNode fuel (i :: traversing)) s
        visitSingleNode fuel { s with visited := i :: s.visited } i n

/-- The loop of `FunctionBase::Accept` from a position on: it comes to the nodes which are made on
the way. -/
def acceptFrom (fuel : ℕ) : ℕ → Tracker → ℕ → Option Tracker
  | 0, _, _ => none
  | rounds + 1, s, k =>
    if k < s.nodes.length then do
      let s ← if (s.nodes.vertex k).isSome ∧ (NodeFunction.mk s.nodes []).hasUsers k = false then
        acceptNode fuel [] s k else some s
      acceptFrom fuel rounds s (k + 1)
    else some s

/-- The number of nodes. -/
def nodeCount (g : NodeGraph) : ℕ := g.countP Option.isSome

/-- `FunctionBase::Accept`. -/
def accept (fuel : ℕ) (g : NodeGraph) : Option Tracker := do
  let s ← acceptFrom fuel fuel ⟨g, [], fun _ => none, []⟩ 0
  if s.visited.length < nodeCount s.nodes then none else some s

/-- The uses of the nodes are replaced, one after the other. -/
def replaceAll (f : NodeFunction) (replacements : List (ℕ × ℕ)) : Option NodeFunction :=
  replacements.foldlM (fun f p => f.replaceUsesWith p.1 p.2) f

/-- `RunOnFunctionBaseInternal`: the tracker and the function afterwards. -/
def runOnFunctionBase (fuel : ℕ) (f : NodeFunction) : Option (Tracker × NodeFunction) := do
  let s ← accept fuel f.nodes
  let f' ← replaceAll ⟨s.nodes, f.implicitUses⟩ s.nodeReplacements
  some (s, f')

end BooleanSimplification

end Xls
