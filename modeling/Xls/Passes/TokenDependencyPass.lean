/-
# The token dependency pass

`TokenDependencyPass` (`xls/passes/token_dependency_pass.cc`): effects which depend on the
data of a receive are made to depend on its token.  The relations of the pass are lists of
pairs, the source first; `relation.at` fails where the relation has no pair with the key.

* `ioToReceive` : the effects and the receives their tokens do not depend on;
* `minimalIoToReceive` : the pruning to the earliest effects;
* `run` : the whole pass.
-/
import Xls.Passes.TokenProvenance

namespace Xls
namespace TokenGraph

open Verifier Digraph

/-- `relation.at(key)`. -/
def relationAt (relation : Pairs) (key : ℕ) : Option (List ℕ) :=
  if relation.any fun pair => pair.1 == key then
    some ((relation.filter fun pair => pair.1 == key).map Prod.snd)
  else none

/-- The node with one operand for another. -/
def Node.replaceOperand (node : Node) (oldOperand newOperand : ℕ) : Node :=
  { node with operands := node.operands.map fun c => if c = oldOperand then newOperand else c }

namespace Proc

variable (p : Proc)

/-- `token_deps`. -/
def tokenDeps : Pairs :=
  (List.range p.nodes.length).flatMap fun node =>
    (p.operands node).flatMap fun child => (p.producers child).map fun element => (element, node)

/-- `token_deps_closure`. -/
def tokenDepsClosure : Pairs := closure p.tokenDeps

/-- `dfs(root, data_deps)`. -/
def dataDependents (root : ℕ) : List ℕ := search p.users p.nodes.length root

/-- The loop over the data dependents of the receive `a`. -/
def uncoveredBy (a : ℕ) : Option Pairs := do
  let pairs ← (p.dataDependents a).mapM fun b =>
    if b = a then some none
    else if !p.isSideEffectingTokenOp b then some none
    else (relationAt p.tokenDepsClosure a).map fun covered =>
      if b ∈ covered then none else some (b, a)
  return pairs.reduceOption

/-- `io_to_receive`. -/
def ioToReceive : Option Pairs := do
  let pairs ← (List.range p.nodes.length).mapM fun a =>
    if !p.isSideEffectingTokenOp a then some []
    else if p.isToken a then some []
    -- an `InternalError`
    else if !p.isReceive a then none
    else p.uncoveredBy a
  return pairs.flatten

/-- `minimal_io_to_receive`: what is downstream of a key in the order of the tokens is
erased, whatever receives it depends on. -/
def minimalIoToReceive (ioToReceive : Pairs) : Option Pairs :=
  (ioToReceive.map Prod.fst).dedup.foldlM (fun minimal io => do
    let downstream ← relationAt p.tokenDepsClosure io
    return minimal.filter fun pair => !(decide (pair.1 ∈ downstream) && pair.1 != io))
    ioToReceive

/-- `f->MakeNode`. -/
def makeNode (node : Node) : Proc := { p with nodes := p.nodes ++ [node] }

/-- `MakeNode<TupleIndex>`, for a tuple. -/
def makeTupleIndex (operand index : ℕ) : Option Proc :=
  match p.typeOf operand with
  | some (.tuple types) => (types[index]?).map fun type =>
    p.makeNode { op := .tupleIndex index, type, operands := [operand] }
  | _ => none

/-- `io->ReplaceOperand(oldOperand, newOperand)`, where `newOperand` is not `io`. -/
def replaceOperand (io oldOperand newOperand : ℕ) : Bool × Proc :=
  (decide (oldOperand ∈ p.operands io),
    { p with nodes := p.nodes.modify io fun node => node.replaceOperand oldOperand newOperand })

/-- The new token: all of the token of the receive and the input. -/
def makeReceiveToken (receive input : ℕ) : Option Proc :=
  (p.makeTupleIndex receive 0).map fun q =>
    q.makeNode { op := .afterAll, type := .token, operands := [p.nodes.length, input] }

/-- The body of the innermost loop, for the operand at a position of `io`. -/
def orderAfter (io receive : ℕ) (state : Bool × Proc) (position : ℕ) : Option (Bool × Proc) :=
  match (state.2.operands io)[position]? with
  | none => some state
  | some input =>
    if state.2.isToken input then
      (state.2.makeReceiveToken receive input).map fun q =>
        let (operandReplaced, q) := q.replaceOperand io input (state.2.nodes.length + 1)
        (state.1 || operandReplaced, q)
    else some state

/-- The loop over the operands of `io`.  They change while it runs, their number does
not. -/
def orderInputs (state : Bool × Proc) (pair : ℕ × ℕ) : Option (Bool × Proc) :=
  (List.range (state.2.operands pair.1).length).foldlM (orderAfter pair.1 pair.2) state

/-- The keys and the receives of each key, both in the order of the node ids. -/
def sortedPairs (relation : Pairs) : Pairs :=
  (List.range p.nodes.length).flatMap fun io =>
    (List.range p.nodes.length).filterMap fun receive =>
      if (io, receive) ∈ relation then some (io, receive) else none

/-- `RunOnFunctionBaseInternal`: whether the proc changed, and the proc. -/
def runTokenDependencyPass : Option (Bool × Proc) := do
  let _ ← p.tokenProvenanceAnalysis
  let ioToReceive ← p.ioToReceive
  let minimal ← p.minimalIoToReceive ioToReceive
  (p.sortedPairs minimal).foldlM orderInputs (false, p)

end Proc

end TokenGraph
end Xls
