/-
# Removal of useless sends and receives

`UselessIORemovalPass` (`xls/passes/useless_io_removal_pass.cc`) removes a send or a receive whose
predicate is a literal zero, unless it is the last one on its channel, and takes the predicate away
from one whose predicate is a literal one.

* `SameIO` : a proc performs the operations of another one, with the same results;
* `SameIO.trans` : one proc after the other;
* `Prepares.sameIO` : a node is replaced by one with the same value.
-/
import Xls.Ir.ProcGraph
import Xls.Lib.TermReplacement

namespace Xls

namespace Value

mutual

/-- The zero of a type has the type. -/
theorem conformsToType_zeroOfType : ∀ t : Ty, (zeroOfType t).conformsToType t = true
  | .bits n => by
    rw [zeroOfType, conformsToType, beq_iff_eq]
    rfl
  | .token => rfl
  | .tuple ts => conformsToTypes_zeroOfTypes ts
  | .array n t => by
    rw [zeroOfType, conformsToType, List.length_replicate, beq_self_eq_true, Bool.true_and]
    exact conformToType_replicate (conformsToType_zeroOfType t) n

theorem conformsToTypes_zeroOfTypes : ∀ ts : List Ty, conformsToTypes (zeroOfTypes ts) ts = true
  | [] => rfl
  | t :: ts => by
    rw [zeroOfTypes, conformsToTypes, conformsToType_zeroOfType t, conformsToTypes_zeroOfTypes ts]
    rfl

theorem conformToType_replicate {v : Value} {t : Ty} (h : v.conformsToType t = true) :
    ∀ n : ℕ, conformToType (List.replicate n v) t = true
  | 0 => rfl
  | n + 1 => by
    rw [List.replicate_succ, conformToType, h, conformToType_replicate h n]
    rfl

end

theorem eq_token_of_conformsToType : ∀ {v : Value}, v.conformsToType .token = true → v = .token
  | .token, _ => rfl
  | .bits _, h | .tuple _, h | .array _, h => by cases h

end Value

namespace UselessIORemoval

/-! ## Procs -/

/-- The operations which the pass looks at or makes.  A send or a receive has a predicate when it
has an operand more. -/
inductive Op (α : Type) where
  | send (channelId : ℤ)
  | receive (channelId : ℤ) (isBlocking : Bool)
  | literal (value : Value)
  | tuple
  | other (op : α)

/-- The operation and the type of a node. -/
structure NodeData (α : Type) where
  op : Op α
  type : Ty

/-- A proc: the nodes, and the next token and the next state. -/
structure Proc (α : Type) where
  nodes : TermGraph (NodeData α)
  nextToken : ℕ
  nextState : List ℕ

/-- `Channel`. -/
structure Channel where
  id : ℤ
  type : Ty

/-- `GetReceiveType`. -/
def receiveType (type : Ty) (isBlocking : Bool) : Ty :=
  if isBlocking then .tuple [.token, type] else .tuple [.token, type, .bits 1]

namespace Proc

variable {α : Type}

/-- `GetType`. -/
def type (P : Proc α) (i : ℕ) : Option Ty := (P.nodes.vertex i).map fun n => n.label.type

/-- The value of a literal of bits. -/
def literalBits (P : Proc α) (i : ℕ) : Option Bits :=
  (P.nodes.vertex i).bind fun n =>
    match n.label.op with
    | .literal (.bits b) => some b
    | _ => none

/-- `IsLiteralZero`. -/
def isLiteralZero (P : Proc α) (i : ℕ) : Bool := (P.literalBits i).any Bits.isZero

/-- `IsLiteralUnsignedOne`. -/
def isLiteralUnsignedOne (P : Proc α) (i : ℕ) : Bool := (P.literalBits i).any Bits.isOne

/-- The predicate of a send or a receive. -/
def predicate (P : Proc α) (i : ℕ) : Option ℕ :=
  (P.nodes.vertex i).bind fun n =>
    match n.label.op with
    | .send _ => n.operands[2]?
    | .receive _ _ => n.operands[1]?
    | _ => none

/-- The predicate is a literal zero. -/
def hasZeroPredicate (P : Proc α) (i : ℕ) : Bool := (P.predicate i).any P.isLiteralZero

/-- `MakeNode`; the node is `P.nodes.length`. -/
def makeNode (P : Proc α) (op : Op α) (type : Ty) (operands : List ℕ) : Proc α :=
  { P with nodes := P.nodes.make ⟨⟨op, type⟩, operands⟩ }

/-- `ReplaceUsesWith`, with the implicit uses. -/
def replaceUsesWith (P : Proc α) (i j : ℕ) : Option (Proc α) :=
  if P.type i = P.type j then
    some ⟨P.nodes.replaceUses i j, TermGraph.redirect i j P.nextToken,
      P.nextState.map (TermGraph.redirect i j)⟩
  else none

/-- `RemoveNode`. -/
def removeNode (P : Proc α) (i : ℕ) : Option (Proc α) :=
  if P.nodes.hasUsers i = false ∧ P.nextToken ≠ i ∧ i ∉ P.nextState then
    some { P with nodes := P.nodes.remove i }
  else none

/-- The end of a visit: `ReplaceUsesWith` and `RemoveNode`. -/
def replaceNode (P : Proc α) (i j : ℕ) : Option (Proc α) :=
  (P.replaceUsesWith i j).bind fun P' => P'.removeNode i

/-- The proc with `j` in the place of `i`. -/
def replaced (P : Proc α) (i j : ℕ) : Proc α :=
  ⟨P.nodes.replaceVertex i j, TermGraph.redirect i j P.nextToken,
    P.nextState.map (TermGraph.redirect i j)⟩

end Proc

/-! ## The pass -/

/-- A node of a package: the proc, and the node in it. -/
abbrev NodeId := ℕ × ℕ

/-- A package: the procs, and the channels by increasing id. -/
structure Package (α : Type) where
  procs : List (Proc α)
  channels : List Channel

/-- `ChannelToSendMap`, `ChannelToReceiveMap`: a vector of sets. -/
abbrev ChannelMap := List (List NodeId)

/-- `ChannelMaps`. -/
structure ChannelMaps where
  toSend : ChannelMap
  toReceive : ChannelMap

/-- The set of an id.  The source indexes a vector: another id is out of its range. -/
def ChannelMap.at? (table : ChannelMap) (id : ℤ) : Option (List NodeId) :=
  if 0 ≤ id then table[id.toNat]? else none

/-- The set of an id is changed. -/
def ChannelMap.put (table : ChannelMap) (id : ℤ) (nodes : List NodeId) : ChannelMap :=
  table.set id.toNat nodes

namespace Package

variable {α : Type}

/-- The nodes of a package, those of each proc in some order. -/
def listNodes (order : Proc α → List ℕ) (package : Package α) : List NodeId :=
  (List.range package.procs.length).flatMap fun p =>
    match package.procs[p]? with
    | some P => (order P).map fun i => (p, i)
    | none => []

/-- A node of a package. -/
def vertex (package : Package α) (m : NodeId) : Option (Vertex (NodeData α)) :=
  (package.procs[m.1]?).bind fun P => P.nodes.vertex m.2

/-- The channel of a send. -/
def sendId (package : Package α) (m : NodeId) : Option ℤ :=
  (package.vertex m).bind fun n =>
    match n.label.op with
    | .send id => some id
    | _ => none

/-- The channel of a receive. -/
def receiveId (package : Package α) (m : NodeId) : Option ℤ :=
  (package.vertex m).bind fun n =>
    match n.label.op with
    | .receive id _ => some id
    | _ => none

end Package

/-- The nodes of a proc. -/
def Proc.positions {α : Type} (P : Proc α) : List ℕ :=
  (List.range P.nodes.length).filter fun i => (P.nodes.vertex i).isSome

/-- A node enters the set of its channel, when it has one. -/
def enter (id : NodeId → Option ℤ) (table : ChannelMap) (m : NodeId) : Option ChannelMap :=
  match id m with
  | none => some table
  | some channelId =>
    (table.at? channelId).map fun nodes => table.put channelId (nodes.insert m)

/-- `ComputeChannelMaps`.  The size of a vector is not negative and at most `maxSize`. -/
def computeChannelMaps {α : Type} (maxSize : ℕ) (package : Package α) : Option ChannelMaps :=
  match package.channels.getLast? with
  | none => some ⟨[], []⟩
  | some last =>
    if last.id + 1 < 0 ∨ maxSize < last.id + 1 then none
    else
      let empty : ChannelMap := List.replicate (last.id + 1).toNat []
      match (package.listNodes Proc.positions).foldlM (enter package.sendId) empty,
        (package.listNodes Proc.positions).foldlM (enter package.receiveId) empty with
      | some toSend, some toReceive => some ⟨toSend, toReceive⟩
      | _, _ => none

/-- The procs and the maps, and whether something changed. -/
structure State (α : Type) where
  procs : List (Proc α)
  maps : ChannelMaps
  changed : Bool

namespace State

variable {α : Type}

/-- A proc was changed. -/
def setProc (s : State α) (p : ℕ) (P : Proc α) : State α := ⟨s.procs.set p P, s.maps, true⟩

/-- The visit of a send with a predicate. -/
def visitSend (s : State α) (m : NodeId) (P : Proc α) (id : ℤ) (token data predicate : ℕ) :
    Option (State α) :=
  if P.isLiteralZero predicate then
    match s.maps.toSend.at? id with
    | none => none
    | some nodes =>
      if 2 ≤ nodes.length then
        let s := { s with maps := ⟨s.maps.toSend.put id (nodes.erase m), s.maps.toReceive⟩ }
        (P.replaceNode m.2 token).map (s.setProc m.1)
      else some s
  else if P.isLiteralUnsignedOne predicate then
    ((P.makeNode (.send id) .token [token, data]).replaceNode m.2 P.nodes.length).map
      (s.setProc m.1)
  else some s

/-- The node which takes the place of a receive that does nothing: a zero and a tuple of it with the
token. -/
def makeUnreceived (P : Proc α) (type : Ty) (token : ℕ) : Proc α :=
  (P.makeNode (.literal (Value.zeroOfType type)) type []).makeNode .tuple
    (.tuple [.token, type]) [token, P.nodes.length]

/-- The visit of a receive with a predicate. -/
def visitReceive (channels : List Channel) (s : State α) (m : NodeId) (P : Proc α) (id : ℤ)
    (isBlocking : Bool) (token predicate : ℕ) : Option (State α) :=
  if P.isLiteralZero predicate then
    match s.maps.toReceive.at? id with
    | none => none
    | some nodes =>
      if 2 ≤ nodes.length then
        match channels.find? fun channel => channel.id == id with
        | none => none
        | some channel =>
          let s := { s with maps := ⟨s.maps.toSend, s.maps.toReceive.put id (nodes.erase m)⟩ }
          ((makeUnreceived P channel.type token).replaceNode m.2 (P.nodes.length + 1)).map
            (s.setProc m.1)
      else some s
  else if P.isLiteralUnsignedOne predicate then
    match channels.find? fun channel => channel.id == id with
    | none => none
    | some channel =>
      ((P.makeNode (.receive id isBlocking) (receiveType channel.type isBlocking) [token]).replaceNode
        m.2 P.nodes.length).map (s.setProc m.1)
  else some s

/-- One node of the loop. -/
def visit (channels : List Channel) (s : State α) (m : NodeId) : Option (State α) :=
  match s.procs[m.1]? with
  | none => none
  | some P =>
    match P.nodes.vertex m.2 with
    | some ⟨⟨.send id, _⟩, [token, data, predicate]⟩ => s.visitSend m P id token data predicate
    | some ⟨⟨.receive id isBlocking, _⟩, [token, predicate]⟩ =>
      s.visitReceive channels m P id isBlocking token predicate
    | _ => some s

end State

/-- `RunInternal`, for the orders of `TopoSort`: that of a proc is taken before the proc changes. -/
def runInternal {α : Type} (maxSize : ℕ) (order : Proc α → List ℕ) (package : Package α) :
    Option (Package α × Bool) :=
  match computeChannelMaps maxSize package with
  | none => none
  | some maps =>
    ((package.listNodes order).foldlM (State.visit package.channels)
      ⟨package.procs, maps, false⟩).map fun s => (⟨s.procs, package.channels⟩, s.changed)

/-! ## Activations -/

/-- What an activation depends on: the data which the receives find, by node, and the meaning of
the other operations. -/
structure Environment (α : Type) where
  received : ℕ → Option Value
  other : ℕ → α → Ty → List Value → Option Value

variable {α : Type}

/-- A predicate operand is true; without one the operation is always active. -/
def isActive (predicate : Option Value) : Option Bool := Ir.predicate predicate.isSome predicate

/-- The value of a node on the values of its operands. -/
def evalNode (e : Environment α) (i : ℕ) (d : NodeData α) (operands : List Value) :
    Option Value :=
  match d.op with
  | .send _ => (isActive operands[2]?).map fun _ => .token
  | .receive _ isBlocking =>
    Ir.evalReceive operands[1]?.isSome isBlocking d.type (e.received i) operands
  | .literal value => some value
  | .tuple => some (.tuple operands)
  | .other op => e.other i op d.type operands

/-- The value, which must be of the type of the node. -/
def sem (e : Environment α) (i : ℕ) (d : NodeData α) (operands : List Value) : Option Value :=
  (evalNode e i d operands).filter fun v => v.conformsToType d.type

/-- What a proc does on its channels: data is sent, or is looked for and found or not. -/
inductive Action where
  | sent (channelId : ℤ) (data : Option Value)
  | received (channelId : ℤ) (isBlocking : Bool) (data : Option Value)

/-- What an operation does on the values of its operands. -/
def performedBy (e : Environment α) (i : ℕ) (op : Op α) (operands : List Value) :
    Option Action :=
  match op with
  | .send id => if isActive operands[2]? = some true then some (.sent id operands[1]?) else none
  | .receive id isBlocking =>
    if isActive operands[1]? = some true then some (.received id isBlocking (e.received i))
    else none
  | _ => none

/-- What a send or a receive is. -/
inductive ChannelUse where
  | send (channelId : ℤ)
  | receive (channelId : ℤ) (isBlocking : Bool)
  deriving DecidableEq

/-- The use an operation makes of a channel. -/
def Op.channelUse : Op α → Option ChannelUse
  | .send id => some (.send id)
  | .receive id isBlocking => some (.receive id isBlocking)
  | _ => none

namespace Proc

/-- The use a node makes of a channel. -/
def channelUse (P : Proc α) (i : ℕ) : Option ChannelUse :=
  (P.nodes.vertex i).bind fun n => n.label.op.channelUse

/-- An activation: the values of the nodes. -/
def Activation (P : Proc α) (e : Environment α) (val : ℕ → Value) : Prop :=
  TermGraph.IsValuation (sem e) P.nodes val

/-- What a node does in an activation. -/
def performed (P : Proc α) (e : Environment α) (val : ℕ → Value) (i : ℕ) : Option Action :=
  (P.nodes.vertex i).bind fun n => performedBy e i n.label.op (n.operands.map val)

end Proc

/-! ## Procs with the same operations -/

/-- The receives of the other proc find the data of those they come from. -/
def Environment.along (e : Environment α) (slot : ℕ → ℕ) : Environment α :=
  ⟨fun k => e.received (slot k), e.other⟩

/-- The nodes which are left have their values, the next token and the next state as well, and the
same operations are performed. -/
structure Corresponds (P P' : Proc α) (slot : ℕ → ℕ) (e : Environment α) (val val' : ℕ → Value) :
    Prop where
  values : ∀ k < P.nodes.length, (P'.nodes.vertex k).isSome = true → val' k = val k
  nextToken : val' P'.nextToken = val P.nextToken
  nextState : P'.nextState.map val' = P.nextState.map val
  performed : ∀ i a, P.performed e val i = some a ↔
    ∃ k, slot k = i ∧ P'.performed (e.along slot) val' k = some a

/-- A proc does what another one does: each send and receive comes from one of the other proc,
`slot` of it, and the activations correspond. -/
structure SameIO (P P' : Proc α) (slot : ℕ → ℕ) : Prop where
  length_le : P.nodes.length ≤ P'.nodes.length
  old : ∀ k < P.nodes.length, slot k = k
  live : ∀ k < P.nodes.length, (P'.nodes.vertex k).isSome = true →
    (P.nodes.vertex k).isSome = true
  channelUse : ∀ k u, P'.channelUse k = some u → P.channelUse (slot k) = some u
  injective : ∀ k l, (P'.channelUse k).isSome = true → (P'.channelUse l).isSome = true →
    slot k = slot l → k = l
  forth : ∀ e val, P.Activation e val →
    ∃ val', P'.Activation (e.along slot) val' ∧ Corresponds P P' slot e val val'
  back : ∀ e val', P'.Activation (e.along slot) val' →
    ∃ val, P.Activation e val ∧ Corresponds P P' slot e val val'

variable {P P' P'' : Proc α} {slot slot' : ℕ → ℕ} {e : Environment α} {val val' val'' : ℕ → Value}
  {i j k : ℕ}

theorem Corresponds.refl : Corresponds P P id e val val := by
  refine ⟨fun _ _ _ => rfl, rfl, rfl, ?_⟩
  intro i a
  constructor
  · intro h
    exact ⟨i, rfl, h⟩
  · rintro ⟨k, rfl, h⟩
    exact h

theorem SameIO.refl (P : Proc α) : SameIO P P id := by
  refine ⟨Nat.le_refl _, fun _ _ => rfl, fun _ _ h => h, fun _ _ h => h, fun _ _ _ _ h => h, ?_, ?_⟩
  · intro e val hval
    exact ⟨val, hval, Corresponds.refl⟩
  · intro e val hval
    exact ⟨val, hval, Corresponds.refl⟩

theorem Corresponds.trans (hlength : P.nodes.length ≤ P'.nodes.length)
    (hlive : ∀ k < P'.nodes.length, (P''.nodes.vertex k).isSome = true →
      (P'.nodes.vertex k).isSome = true)
    (h : Corresponds P P' slot e val val') (h' : Corresponds P' P'' slot' (e.along slot) val' val'') :
    Corresponds P P'' (slot ∘ slot') e val val'' := by
  refine ⟨?_, h'.nextToken.trans h.nextToken, h'.nextState.trans h.nextState, ?_⟩
  · intro k hk hk''
    have hlt := Nat.lt_of_lt_of_le hk hlength
    exact (h'.values k hlt hk'').trans (h.values k hk (hlive k hlt hk''))
  · intro i a
    rw [h.performed]
    constructor
    · rintro ⟨k, rfl, hk⟩
      obtain ⟨l, rfl, hl⟩ := (h'.performed k a).mp hk
      exact ⟨l, rfl, hl⟩
    · rintro ⟨l, rfl, hl⟩
      exact ⟨slot' l, rfl, (h'.performed (slot' l) a).mpr ⟨l, rfl, hl⟩⟩

/-- One proc after the other. -/
theorem SameIO.trans (h : SameIO P P' slot) (h' : SameIO P' P'' slot') :
    SameIO P P'' (slot ∘ slot') := by
  refine ⟨h.length_le.trans h'.length_le, ?_, ?_, ?_, ?_, ?_, ?_⟩
  · intro k hk
    rw [Function.comp_apply, h'.old k (Nat.lt_of_lt_of_le hk h.length_le), h.old k hk]
  · intro k hk hlive
    exact h.live k hk (h'.live k (Nat.lt_of_lt_of_le hk h.length_le) hlive)
  · intro k u hu
    exact h.channelUse _ u (h'.channelUse k u hu)
  · intro k l hk hl heq
    obtain ⟨u, hu⟩ := Option.isSome_iff_exists.mp hk
    obtain ⟨v, hv⟩ := Option.isSome_iff_exists.mp hl
    refine h'.injective k l hk hl (h.injective _ _ ?_ ?_ heq)
    · rw [h'.channelUse k u hu]
      rfl
    · rw [h'.channelUse l v hv]
      rfl
  · intro e val hval
    obtain ⟨val', hval', hcorr⟩ := h.forth e val hval
    obtain ⟨val'', hval'', hcorr'⟩ := h'.forth _ val' hval'
    exact ⟨val'', hval'', hcorr.trans h.length_le h'.live hcorr'⟩
  · intro e val'' hval''
    obtain ⟨val', hval', hcorr'⟩ := h'.back (e.along slot) val'' hval''
    obtain ⟨val, hval, hcorr⟩ := h.back e val' hval'
    exact ⟨val, hval, hcorr.trans h.length_le h'.live hcorr'⟩

/-! ## One replaced node -/

theorem sem_along (h : slot k = k) (d : NodeData α) (vs : List Value) :
    sem (e.along slot) k d vs = sem e k d vs := by
  have hreceived : (e.along slot).received k = e.received k := congrArg e.received h
  rw [sem, sem]
  rw [evalNode, hreceived]
  rfl

theorem performedBy_along (h : slot k = i) (op : Op α) (vs : List Value) :
    performedBy (e.along slot) k op vs = performedBy e i op vs := by
  have hreceived : (e.along slot).received k = e.received i := congrArg e.received h
  cases op with
  | receive id isBlocking =>
    change (if _ then some (Action.received id isBlocking _) else none) = _
    rw [hreceived]
    rfl
  | _ => rfl

/-- What is performed is performed by a send or a receive. -/
theorem channelUse_of_performed {a : Action} (h : P.performed e val k = some a) :
    (P.channelUse k).isSome = true := by
  obtain ⟨⟨⟨op, type⟩, operands⟩, hn, ha⟩ := Option.bind_eq_some_iff.mp h
  rw [Proc.channelUse, hn]
  cases op with
  | send id => rfl
  | receive id isBlocking => rfl
  | literal value => cases ha
  | tuple => cases ha
  | other op => cases ha

theorem lt_length_of_channelUse (h : (P.channelUse k).isSome = true) : k < P.nodes.length := by
  obtain ⟨u, hu⟩ := Option.isSome_iff_exists.mp h
  obtain ⟨n, hn, -⟩ := Option.bind_eq_some_iff.mp hu
  exact TermGraph.lt_length_of_vertex hn

theorem performed_congr (h : P.nodes.vertex k = P'.nodes.vertex k) (hslot : slot k = k)
    (hval : ∀ n, P.nodes.vertex k = some n → ∀ o ∈ n.operands, val o = val' o) :
    P.performed e val k = P'.performed (e.along slot) val' k := by
  rw [Proc.performed, Proc.performed, ← h]
  rcases hn : P.nodes.vertex k with - | n
  · rfl
  · rw [Option.bind_some, Option.bind_some, performedBy_along hslot,
      List.map_congr_left (hval n hn)]

/-- What is left after a replacement does what it did. -/
theorem performed_replaced (hij : i ≠ j) (heq : val i = val j)
    (hval : ∀ k, k ≠ i → val' k = val k) (hk : k ≠ i) :
    (P.replaced i j).performed e val' k = P.performed e val k := by
  rw [Proc.performed, Proc.performed, Proc.replaced]
  rw [TermGraph.vertex_replaceVertex_of_ne hk]
  rcases P.nodes.vertex k with - | n
  · rfl
  · have hoperands : (n.operands.map (TermGraph.redirect i j)).map val' = n.operands.map val := by
      rw [← TermGraph.map_redirect heq]
      apply List.map_congr_left
      intro o ho
      obtain ⟨l, -, rfl⟩ := List.mem_map.mp ho
      apply hval
      rw [TermGraph.redirect]
      split_ifs with hl
      · exact hij.symm
      · exact hl
    exact congrArg (performedBy e k n.label.op) hoperands

theorem performed_replaced_self : (P.replaced i j).performed e val i = none := by
  rw [Proc.performed, Proc.replaced, TermGraph.vertex_replaceVertex_self]
  rfl

theorem channelUse_replaced (hk : k ≠ i) : (P.replaced i j).channelUse k = P.channelUse k := by
  rw [Proc.channelUse, Proc.channelUse, Proc.replaced, TermGraph.vertex_replaceVertex_of_ne hk]
  rcases P.nodes.vertex k with - | n <;> rfl

theorem channelUse_replaced_self : (P.replaced i j).channelUse i = none := by
  rw [Proc.channelUse, Proc.replaced, TermGraph.vertex_replaceVertex_self]
  rfl

/-- Operands and implicit uses are nodes. -/
structure Proc.Bounded (P : Proc α) : Prop where
  nodes : P.nodes.Bounded
  nextToken : P.nextToken < P.nodes.length
  nextState : ∀ next ∈ P.nextState, next < P.nodes.length

/-- Nodes are made, one of which may take the place of `i` afterwards: only one of them may be a send
or a receive, and it is what `i` is. -/
structure Prepares (P P' : Proc α) (slot : ℕ → ℕ) (i : ℕ) : Prop where
  length_le : P.nodes.length ≤ P'.nodes.length
  vertex : ∀ k < P.nodes.length, P'.nodes.vertex k = P.nodes.vertex k
  nextToken : P'.nextToken = P.nextToken
  nextState : P'.nextState = P.nextState
  old : ∀ k < P.nodes.length, slot k = k
  fresh : ∀ k u, P.nodes.length ≤ k → P'.channelUse k = some u →
    slot k = i ∧ P.channelUse i = some u
  one : ∀ k l, P.nodes.length ≤ k → P.nodes.length ≤ l → (P'.channelUse k).isSome = true →
    (P'.channelUse l).isSome = true → k = l

namespace Prepares

variable {n : Vertex (NodeData α)}

theorem activation (h : Prepares P P' slot i) (hval : P'.Activation (e.along slot) val) :
    P.Activation e val := by
  intro k n hn
  have hk := TermGraph.lt_length_of_vertex hn
  rw [← sem_along (h.old k hk)]
  exact hval k n (by rw [h.vertex k hk, hn])

/-- The values of two procs, which only differ where it does not matter. -/
theorem corresponds (h : Prepares P P' slot i) (hbounded : P.Bounded) (hi : i < P.nodes.length)
    (hij : i ≠ j) {val₁ : ℕ → Value} (heq : val₁ i = val₁ j)
    (hval : ∀ k < P.nodes.length, val₁ k = val k) (hval' : ∀ k, k ≠ i → val' k = val₁ k)
    (hperformed : ∀ a, P.performed e val i = some a ↔ ∃ k, P.nodes.length ≤ k ∧ slot k = i ∧
      P'.performed (e.along slot) val₁ k = some a) :
    Corresponds P (P'.replaced i j) slot e val val' := by
  have hredirect : ∀ k < P.nodes.length, val' (TermGraph.redirect i j k) = val k := by
    intro k hk
    rw [TermGraph.redirect]
    split_ifs with hki
    · rw [hval' j hij.symm, ← heq, ← hki, hval k hk]
    · rw [hval' k hki, hval k hk]
  refine ⟨?_, ?_, ?_, ?_⟩
  · intro k hk hlive
    have hki : k ≠ i := by
      rintro rfl
      rw [Proc.replaced, TermGraph.vertex_replaceVertex_self] at hlive
      cases hlive
    rw [hval' k hki, hval k hk]
  · rw [Proc.replaced, h.nextToken]
    exact hredirect _ hbounded.nextToken
  · rw [Proc.replaced, h.nextState, List.map_map]
    apply List.map_congr_left
    intro next hnext
    exact hredirect next (hbounded.nextState next hnext)
  · -- an old node other than `i` does what it did
    have hold : ∀ k < P.nodes.length, k ≠ i →
        (P'.replaced i j).performed (e.along slot) val' k = P.performed e val k := by
      intro k hk hki
      rw [performed_replaced hij heq hval' hki]
      apply Eq.symm
      apply performed_congr (h.vertex k hk).symm (h.old k hk)
      intro n hn o ho
      exact (hval o (hbounded.nodes k n hn o ho)).symm
    have hnew : ∀ k, P.nodes.length ≤ k → k ≠ i := by
      rintro k hk rfl
      exact Nat.not_lt.mpr hk hi
    intro s a
    constructor
    · intro hs
      by_cases hsi : s = i
      · rw [hsi] at hs ⊢
        obtain ⟨k, hk, hslot, ha⟩ := (hperformed a).mp hs
        refine ⟨k, hslot, ?_⟩
        rw [performed_replaced hij heq hval' (hnew k hk)]
        exact ha
      · have hlt := lt_length_of_channelUse (channelUse_of_performed hs)
        exact ⟨s, h.old s hlt, by rw [hold s hlt hsi, hs]⟩
    · rintro ⟨k, rfl, hk⟩
      have hki : k ≠ i := by
        rintro rfl
        rw [performed_replaced_self] at hk
        cases hk
      rcases Nat.lt_or_ge k P.nodes.length with hlt | hge
      · rw [h.old k hlt, ← hold k hlt hki]
        exact hk
      · rw [performed_replaced hij heq hval' hki] at hk
        obtain ⟨u, hu⟩ := Option.isSome_iff_exists.mp (channelUse_of_performed hk)
        have hslot := (h.fresh k u hge hu).1
        rw [hslot]
        exact (hperformed a).mpr ⟨k, hge, hslot, hk⟩

/-- A node is replaced by one with the same value, which does what the node did. -/
theorem sameIO (h : Prepares P P' slot i) (hbounded : P.Bounded)
    (hn : P.nodes.vertex i = some n) (hi : i ∉ n.operands) (hij : i ≠ j)
    (hforth : ∀ e val, P.Activation e val → ∃ val₁, P'.Activation (e.along slot) val₁ ∧
      (∀ k < P.nodes.length, val₁ k = val k) ∧ val₁ i = val₁ j)
    (hback : ∀ e val', (P'.replaced i j).Activation (e.along slot) val' →
      sem e i n.label (n.operands.map val') = some (val' j))
    (hperformed : ∀ e val, P'.Activation (e.along slot) val → ∀ a,
      P.performed e val i = some a ↔ ∃ k, P.nodes.length ≤ k ∧ slot k = i ∧
        P'.performed (e.along slot) val k = some a) :
    SameIO P (P'.replaced i j) slot := by
  have hlt := TermGraph.lt_length_of_vertex hn
  have hlength : (P'.replaced i j).nodes.length = P'.nodes.length :=
    TermGraph.length_replaceVertex
  have huse : ∀ k, (P'.replaced i j).channelUse k ≠ none → k ≠ i ∧
      (P'.replaced i j).channelUse k = P'.channelUse k := by
    intro k hk
    have hki : k ≠ i := by
      rintro rfl
      exact hk channelUse_replaced_self
    exact ⟨hki, channelUse_replaced hki⟩
  have hold : ∀ k < P.nodes.length, P'.channelUse k = P.channelUse k := by
    intro k hk
    rw [Proc.channelUse, Proc.channelUse, h.vertex k hk]
  refine ⟨?_, h.old, ?_, ?_, ?_, ?_, ?_⟩
  · rw [hlength]
    exact h.length_le
  · intro k hk hlive
    rw [← h.vertex k hk]
    obtain ⟨m, hm⟩ := Option.isSome_iff_exists.mp hlive
    have hki := TermGraph.ne_of_vertex_replaceVertex hm
    rw [Proc.replaced, TermGraph.vertex_replaceVertex_of_ne hki, Option.isSome_map] at hlive
    exact hlive
  · intro k u hu
    obtain ⟨-, heq⟩ := huse k (by rw [hu]; exact Option.some_ne_none u)
    rw [heq] at hu
    rcases Nat.lt_or_ge k P.nodes.length with hk | hk
    · rw [h.old k hk, ← hold k hk, hu]
    · obtain ⟨hslot, hui⟩ := h.fresh k u hk hu
      rw [hslot, hui]
  · intro k l hk hl heq
    obtain ⟨hki, hkeq⟩ := huse k (Option.isSome_iff_ne_none.mp hk)
    obtain ⟨hli, hleq⟩ := huse l (Option.isSome_iff_ne_none.mp hl)
    rw [hkeq] at hk
    rw [hleq] at hl
    obtain ⟨u, hu⟩ := Option.isSome_iff_exists.mp hk
    obtain ⟨v, hv⟩ := Option.isSome_iff_exists.mp hl
    rcases Nat.lt_or_ge k P.nodes.length with hklt | hkge
    · rcases Nat.lt_or_ge l P.nodes.length with hllt | hlge
      · rwa [h.old k hklt, h.old l hllt] at heq
      · rw [h.old k hklt, (h.fresh l v hlge hv).1] at heq
        exact absurd heq hki
    · rcases Nat.lt_or_ge l P.nodes.length with hllt | hlge
      · rw [h.old l hllt, (h.fresh k u hkge hu).1] at heq
        exact absurd heq.symm hli
      · exact h.one k l hkge hlge hk hl
  · intro e val hval
    obtain ⟨val₁, hval₁, hagree, heq⟩ := hforth e val hval
    refine ⟨val₁, TermGraph.IsValuation.replaceVertex hval₁ heq, ?_⟩
    apply h.corresponds hbounded hlt hij heq hagree fun _ _ => rfl
    intro a
    rw [← hperformed e val₁ hval₁ a]
    have hcongr : P.performed e val₁ i = P.performed e val i := by
      rw [Proc.performed, Proc.performed, hn, Option.bind_some]
      congr 1
      apply List.map_congr_left
      intro o ho
      exact hagree o (hbounded.nodes i n hn o ho)
    rw [hcongr]
  · intro e val' hval'
    have hvertex : P'.nodes.vertex i = some n := by rw [h.vertex i hlt, hn]
    have hsem : sem (e.along slot) i n.label (n.operands.map val') = some (val' j) := by
      rw [sem_along (h.old i hlt)]
      exact hback e val' hval'
    have hval₁ : P'.Activation (e.along slot) (Function.update val' i (val' j)) :=
      TermGraph.IsValuation.of_replaceVertex hval' hvertex hi hij hsem
    refine ⟨_, h.activation hval₁, ?_⟩
    apply h.corresponds hbounded hlt hij ?_ (fun _ _ => rfl) ?_ (hperformed e _ hval₁)
    · rw [Function.update_self, Function.update_of_ne hij.symm]
    · intro k hk
      rw [Function.update_of_ne hk]

end Prepares

end UselessIORemoval

end Xls
