/-
# Procs as graphs

A proc (`xls/ir/proc.cc`) is a graph of nodes with a token parameter, state parameters with
initial values, and the nodes of the next token and of the next state.  Nodes are known by
their position, which plays the part of the pointer of the source: `ReplaceUsesWith` leaves the
positions of other nodes as they are.

An activation gives each node its value.  It has a result when each node has one, so that
an active blocking receive without data stops it.
-/
import Xls.Ir.Function
import Xls.Lib.TermGraph

namespace Xls

namespace Ir

/-- What a node computes or does. -/
inductive NodeOp where
  | pure (op : Op)
  | send (channel : ℕ) (isPredicated : Bool)
  | receive (channel : ℕ) (isPredicated isBlocking : Bool)
  | assert (message : String) (label : Option String)
  | cover (label : String)
  | trace (format : String)
  deriving DecidableEq, Repr

/-- The operation and the type of a node. -/
structure NodeData where
  op : NodeOp
  type : Ty
  deriving DecidableEq, Repr

/-- The nodes of a function or a proc. -/
abbrev Graph := TermGraph NodeData

/-- What the values of an activation depend on: parameters, by node, the data which a
receive finds, and the operations this model leaves uninterpreted. -/
structure Environment where
  param : ℕ → Option Value
  received : ℕ → Option Value
  other : String → Ty → List Value → Value

/-- The value of a predicate operand; without one the operation is always active. -/
def predicate (isPredicated : Bool) (operand : Option Value) : Option Bool :=
  if isPredicated then (operand.bind Value.asBits).map Bits.isOne else some true

/-- `HandleReceive`: the operands are the token and the predicate. -/
def evalReceive (isPredicated isBlocking : Bool) (type : Ty) (data : Option Value)
    (operands : List Value) : Option Value :=
  match predicate isPredicated operands[1]? with
  | none => none
  | some false => some (Value.zeroOfType type)
  | some true =>
    match data with
    | some v =>
      some (.tuple (if isBlocking then [.token, v] else [.token, v, .bits ⟨1, 1, Nat.one_lt_two⟩]))
    | none => if isBlocking then none else some (Value.zeroOfType type)

/-- The value of a node on the values of its operands. -/
def evalNode (e : Environment) (i : ℕ) (d : NodeData) (operands : List Value) : Option Value :=
  match d.op with
  | .pure .param => e.param i
  | .pure (.other name _) => some (e.other name d.type operands)
  | .pure op => Interpreter.evalNode (fun _ _ => .token) 0 ⟨op, [], d.type⟩ operands
  | .receive _ isPredicated isBlocking =>
    evalReceive isPredicated isBlocking d.type (e.received i) operands
  | _ => some .token

/-- The value, which must be of the type of the node. -/
def sem (e : Environment) (i : ℕ) (d : NodeData) (operands : List Value) : Option Value :=
  (evalNode e i d operands).filter fun v => v.conformsToType d.type

namespace Graph

/-- `GetType`. -/
def typeOf (g : Graph) (i : ℕ) : Option Ty := (g.vertex i).map fun n => n.label.type

end Graph

/-- `Proc`. -/
structure Proc where
  graph : Graph
  tokenParam : ℕ
  stateParams : List ℕ
  initValues : List Value
  nextToken : ℕ
  nextState : List ℕ
  deriving DecidableEq

namespace Proc

/-! ## Edits -/

/-- `Node::ReplaceUsesWith`, with the implicit uses. -/
def replaceUsesWith (p : Proc) (node replacement : ℕ) : Option Proc :=
  if p.graph.typeOf node = p.graph.typeOf replacement then
    some { p with
      graph := p.graph.replaceUses node replacement
      nextToken := TermGraph.redirect node replacement p.nextToken
      nextState := p.nextState.map (TermGraph.redirect node replacement) }
  else none

/-! ## Activations -/

/-- The value of a parameter. -/
def paramValue (p : Proc) (state : List Value) (i : ℕ) : Option Value :=
  if i = p.tokenParam then some .token else (p.stateParams.zip state).lookup i

/-- What an activation from a state depends on. -/
def environment (p : Proc) (other : String → Ty → List Value → Value)
    (received : ℕ → Option Value) (state : List Value) : Environment :=
  ⟨p.paramValue state, received, other⟩

end Proc

end Ir

end Xls
