/-
# Procs and their tokens

The part of a proc which orders its effects: nodes with their operations, types and
operands, and the tokens which run between them.  A node is its position, which is also
its id; operands may be at any position, so that passes can append nodes and rewire
others.  Operations which neither produce nor pass on a token are not told apart.

`Verified` collects the checks of `xls/ir/verifier.cc` on these nodes: operand counts and
types (`NodeChecker`), the token parameter and the next token (`VerifyProc`), and
`VerifyTokenConnectivity`.  The graph of an accepted proc has no cycles.
-/
import Xls.Ir.Verifier
import Xls.Lib.Digraph

namespace Xls
namespace TokenGraph

open Verifier

/-- The operations, with the channel of a send or receive. -/
inductive Op where
  | param
  | literal
  | assert
  | cover
  | trace
  | receive (channelId : ℕ) (isBlocking : Bool)
  | send (channelId : ℕ)
  | afterAll
  | minDelay
  | tuple
  | tupleIndex (index : ℕ)
  | identity
  /-- Any other operation. -/
  | other (sideEffecting : Bool)
  deriving DecidableEq, Repr

/-- `OpIsSideEffecting`. -/
def Op.isSideEffecting : Op → Bool
  | .param | .assert | .cover | .trace | .receive _ _ | .send _ => true
  | .other sideEffecting => sideEffecting
  | _ => false

/-- `node->op() == Op::kReceive`. -/
def Op.isReceive : Op → Bool
  | .receive _ _ => true
  | _ => false

/-- `Node`. -/
structure Node where
  op : Op
  type : Ty
  operands : List ℕ
  deriving DecidableEq

/-- `Proc`. -/
structure Proc where
  nodes : List Node
  tokenParam : ℕ
  nextToken : ℕ
  deriving DecidableEq

/-- What the verifier reads of a channel. -/
structure Channel where
  type : Ty
  canReceive : Bool
  canSend : Bool

namespace Proc

variable (p : Proc)

/-- The operands of a node; none for a position behind the last node. -/
def operands (n : ℕ) : List ℕ := (p.nodes[n]?.map Node.operands).getD []

/-- The type of a node. -/
def typeOf (n : ℕ) : Option Ty := p.nodes[n]?.map Node.type

/-- The operation of a node. -/
def opOf (n : ℕ) : Option Op := p.nodes[n]?.map Node.op

/-- The node has a token in its type. -/
def hasToken (n : ℕ) : Bool := ((p.typeOf n).map typeHasToken).getD false

/-- The type of the node is the token type. -/
def isToken (n : ℕ) : Bool := decide (p.typeOf n = some .token)

/-- The operation of the node has side effects. -/
def isSideEffecting (n : ℕ) : Bool := ((p.opOf n).map Op.isSideEffecting).getD false

/-- The node is a receive. -/
def isReceive (n : ℕ) : Bool := ((p.opOf n).map Op.isReceive).getD false

/-- The users of a node. -/
def users (n : ℕ) : List ℕ :=
  (List.range p.nodes.length).filter fun u => decide (n ∈ p.operands u)

/-- A data dependency: the node `u` has the operand `n`. -/
def DataDep (n u : ℕ) : Prop := n ∈ p.operands u

instance (n u : ℕ) : Decidable (p.DataDep n u) := inferInstanceAs (Decidable (_ ∈ _))

/-- The graph has no cycles. -/
def Acyclic : Prop := ∀ n, ¬ Relation.TransGen p.DataDep n n

/-- `TypeHasToken(n->GetType()) && OpIsSideEffecting(n->op())`. -/
def isSideEffectingTokenOp (n : ℕ) : Bool := p.isSideEffecting n && p.hasToken n

/-! ## The verifier -/

/-- The first loop of `VerifyTokenConnectivity`: users are followed behind nodes with a
token in their type. -/
def connectedToSource : List ℕ :=
  Digraph.search (fun n => if p.hasToken n then p.users n else []) p.nodes.length p.tokenParam

/-- The second loop: operands with a token in their type. -/
def connectedToSink : List ℕ :=
  Digraph.search (fun n => (p.operands n).filter p.hasToken) p.nodes.length p.nextToken

/-- The types of the operands. -/
def operandTypes (n : Node) : List (Option Ty) := n.operands.map p.typeOf

/-- The type of a receive on a channel. -/
def receiveType (channel : Channel) (isBlocking : Bool) : Ty :=
  if isBlocking then .tuple [.token, channel.type] else .tuple [.token, channel.type, .bits 1]

/-- The checks of `NodeChecker`. -/
def checkNode (channels : ℕ → Option Channel) (n : Node) : Prop :=
  match n.op with
  | .param | .literal => n.operands = []
  | .assert | .cover =>
    n.type = .token ∧ p.operandTypes n = [some .token, some (.bits 1)]
  | .trace =>
    n.type = .token ∧ ∃ args, p.operandTypes n = some .token :: some (.bits 1) :: args ∧
      ∀ arg ∈ args, ∃ width, arg = some (.bits width)
  | .receive channelId isBlocking =>
    ∃ channel, channels channelId = some channel ∧ channel.canReceive = true ∧
      n.type = receiveType channel isBlocking ∧
      (p.operandTypes n = [some .token] ∨ p.operandTypes n = [some .token, some (.bits 1)])
  | .send channelId =>
    ∃ channel, channels channelId = some channel ∧ channel.canSend = true ∧ n.type = .token ∧
      (p.operandTypes n = [some .token, some channel.type] ∨
        p.operandTypes n = [some .token, some channel.type, some (.bits 1)])
  | .afterAll => n.type = .token ∧ ∀ type ∈ p.operandTypes n, type = some .token
  | .minDelay => n.type = .token ∧ p.operandTypes n = [some .token]
  | .tuple => ∃ types, p.operandTypes n = types.map some ∧ n.type = .tuple types
  | .tupleIndex index => ∃ types, p.operandTypes n = [some (.tuple types)] ∧
      types[index]? = some n.type
  | .identity => p.operandTypes n = [some n.type]
  | .other _ => ∀ type ∈ p.operandTypes n, type ≠ none

/-- The proc is accepted by the verifier. -/
structure Verified (channels : ℕ → Option Channel) : Prop where
  acyclic : p.Acyclic
  nodes : ∀ n ∈ p.nodes, p.checkNode channels n
  tokenParam : p.opOf p.tokenParam = some .param ∧ p.isToken p.tokenParam = true
  nextToken : p.isToken p.nextToken = true
  connected : ∀ n, p.isSideEffectingTokenOp n = true →
    n ∈ p.connectedToSource ∧ n ∈ p.connectedToSink
  sink : p.nextToken ∈ p.connectedToSource

end Proc

end TokenGraph
end Xls
