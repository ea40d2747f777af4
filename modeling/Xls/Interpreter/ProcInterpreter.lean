/-
# The proc interpreter

`ProcInterpreter::Tick` (`xls/interpreter/proc_interpreter.cc`) runs a proc from its
continuation until the tick is complete, a send has been executed, or a blocking
receive finds its channel queue empty.  `ChannelQueue` (`channel_queue.cc`) is modelled
without generators.

Nodes other than sends and receives are functions of the proc state and the values of
the nodes before them; `none` is an error status.
-/
import Xls.Ir.Value

namespace Xls

/-- `ChannelKind`. -/
inductive ChannelKind where
  | streaming
  | singleValue
  deriving DecidableEq, Repr

/-- What the interpreter reads of a channel. -/
structure Channel where
  kind : ChannelKind
  type : Ty
  deriving DecidableEq, Repr

/-- The nodes of a proc, in execution order, with their operands as functions of the
values computed before. -/
inductive ProcNode where
  | compute (eval : List Value → List Value → Option Value)
  | receive (channel : ℕ) (predicate : Option (List Value → Bool)) (isBlocking : Bool)
  | send (channel : ℕ) (predicate : Option (List Value → Bool)) (data : List Value → Value)

/-- A proc: `nextState` are positions of nodes. -/
structure Proc where
  nodes : List ProcNode
  nextState : List ℕ

/-- A package of procs. -/
structure Package where
  channels : List Channel
  procs : List Proc

/-- The channel queues, by channel id. -/
abbrev ChannelQueues := ℕ → List Value

namespace ChannelQueue

/-- `WriteInternal`. -/
def writeInternal (kind : ChannelKind) (queue : List Value) (value : Value) : List Value :=
  match kind, queue with
  | .singleValue, [] => [value]
  | .singleValue, _ :: rest => value :: rest
  | .streaming, queue => queue ++ [value]

/-- `Write`, which checks the type of the value. -/
def write (channel : Channel) (queue : List Value) (value : Value) : Option (List Value) :=
  if value.conformsToType channel.type then some (writeInternal channel.kind queue value) else none

/-- `ReadInternal`: the value, if there is one, and the queue behind it. -/
def readInternal (kind : ChannelKind) : List Value → Option Value × List Value
  | [] => (none, [])
  | value :: rest => (some value, if kind = .singleValue then value :: rest else rest)

theorem readInternal_none {kind : ChannelKind} {queue rest : List Value}
    (h : readInternal kind queue = (none, rest)) : queue = [] ∧ rest = [] := by
  rcases queue with _ | ⟨value, queue⟩
  · cases h
    exact ⟨rfl, rfl⟩
  · cases h

end ChannelQueue

/-- `TickExecutionState` with the channel of the `TickResult`. -/
inductive TickExecutionState where
  | completed
  | blockedOnReceive (channel : ℕ)
  | sentOnChannel (channel : ℕ)
  deriving DecidableEq, Repr

/-- `TickResult`. -/
structure TickResult where
  executionState : TickExecutionState
  progressMade : Bool
  deriving DecidableEq, Repr

/-- `ProcInterpreterContinuation`. -/
structure ProcContinuation where
  state : List Value
  nodeExecutionIndex : ℕ
  nodeValues : List Value
  deriving DecidableEq

namespace ProcInterpreter

/-- `ExecuteNode`: the value of the node and the channel it sent on, or the channel it is
blocked on. -/
inductive NodeResult where
  | value (v : Value)
  | sent (channel : ℕ) (v : Value)
  | blocked (channel : ℕ)

/-- The value of a predicate operand; without one the operation is always active. -/
def isActive (predicate : Option (List Value → Bool)) (values : List Value) : Bool :=
  match predicate with
  | some p => p values
  | none => true

/-- The result type of a receive. -/
def receiveType (channel : Channel) (isBlocking : Bool) : Ty :=
  if isBlocking then .tuple [.token, channel.type] else .tuple [.token, channel.type, .bits 1]

/-- `HandleReceive`. -/
def handleReceive (channels : List Channel) (id : ℕ) (predicate : Option (List Value → Bool))
    (isBlocking : Bool) (values : List Value) (queues : ChannelQueues) :
    Option (NodeResult × ChannelQueues) :=
  match channels[id]? with
  | none => none
  | some channel =>
    let zero := Value.zeroOfType (receiveType channel isBlocking)
    if !isActive predicate values then some (.value zero, queues)
    else
      match ChannelQueue.readInternal channel.kind (queues id) with
      | (none, _) => if isBlocking then some (.blocked id, queues) else some (.value zero, queues)
      | (some v, rest) =>
        let queues := Function.update queues id rest
        if isBlocking then some (.value (.tuple [.token, v]), queues)
        else some (.value (.tuple [.token, v, .bits ⟨1, 1, by decide⟩]), queues)

/-- `HandleSend`. -/
def handleSend (channels : List Channel) (id : ℕ) (predicate : Option (List Value → Bool))
    (data : List Value → Value) (values : List Value) (queues : ChannelQueues) :
    Option (NodeResult × ChannelQueues) :=
  match channels[id]? with
  | none => none
  | some channel =>
    if !isActive predicate values then some (.value .token, queues)
    else
      match ChannelQueue.write channel (queues id) (data values) with
      | some queue => some (.sent id .token, Function.update queues id queue)
      | none => none

/-- `ExecuteNode`. -/
def executeNode (channels : List Channel) (state values : List Value) (queues : ChannelQueues) :
    ProcNode → Option (NodeResult × ChannelQueues)
  | .compute eval => (eval state values).map fun v => (.value v, queues)
  | .receive id predicate isBlocking =>
    handleReceive channels id predicate isBlocking values queues
  | .send id predicate data => handleSend channels id predicate data values queues

/-- The values of the next-state nodes. -/
def resolveNextState (values : List Value) : List ℕ → Option (List Value)
  | [] => some []
  | i :: rest =>
    match values[i]?, resolveNextState values rest with
    | some v, some vs => some (v :: vs)
    | _, _ => none

/-- The loop of `Tick` over the nodes from position `i` on. -/
def tickFrom (channels : List Channel) (proc : Proc) (state : List Value) (startingIndex : ℕ) :
    List ProcNode → ℕ → List Value → ChannelQueues →
      Option (TickResult × ProcContinuation × ChannelQueues)
  | [], _, values, queues =>
    match resolveNextState values proc.nextState with
    | some nextState => some (⟨.completed, true⟩, ⟨nextState, 0, []⟩, queues)
    | none => none
  | node :: rest, i, values, queues =>
    match executeNode channels state values queues node with
    | none => none
    | some (.value v, queues) =>
      tickFrom channels proc state startingIndex rest (i + 1) (values ++ [v]) queues
    | some (.sent channel v, queues) =>
      some (⟨.sentOnChannel channel, decide (i + 1 ≠ startingIndex)⟩,
        ⟨state, i + 1, values ++ [v]⟩, queues)
    | some (.blocked channel, queues) =>
      some (⟨.blockedOnReceive channel, decide (i ≠ startingIndex)⟩, ⟨state, i, values⟩, queues)

/-- `Tick`: execution resumes at the node of the continuation. -/
def tick (channels : List Channel) (proc : Proc) (cont : ProcContinuation)
    (queues : ChannelQueues) : Option (TickResult × ProcContinuation × ChannelQueues) :=
  tickFrom channels proc cont.state cont.nodeExecutionIndex
    (proc.nodes.drop cont.nodeExecutionIndex) cont.nodeExecutionIndex cont.nodeValues queues

/-! ## What a tick does -/

/-- The queues which are empty stay so. -/
def Drains (queues queues' : ChannelQueues) : Prop := ∀ c, queues c = [] → queues' c = []

/-- The continuation stands at an active blocking receive on a channel. -/
def AtReceive (proc : Proc) (cont : ProcContinuation) (channel : ℕ) : Prop :=
  ∃ predicate, proc.nodes[cont.nodeExecutionIndex]? = some (.receive channel predicate true) ∧
    isActive predicate cont.nodeValues = true

/-- What the outcome of a tick says about the queues and the continuation it leaves. -/
structure TickEffect (channels : List Channel) (proc : Proc) (queues : ChannelQueues)
    (result : TickExecutionState) (cont : ProcContinuation) (queues' : ChannelQueues) : Prop where
  blocked : ∀ c, result = .blockedOnReceive c →
    c < channels.length ∧ queues' c = [] ∧ AtReceive proc cont c
  others : ∀ c, result ≠ .sentOnChannel c → queues c = [] → queues' c = []

variable {channels : List Channel} {values : List Value} {queues queues' : ChannelQueues}

theorem handleReceive_spec {id : ℕ} {predicate : Option (List Value → Bool)} {isBlocking : Bool}
    {result : NodeResult}
    (h : handleReceive channels id predicate isBlocking values queues = some (result, queues')) :
    Drains queues queues' ∧
    ((∃ v, result = .value v) ∨ result = .blocked id ∧ id < channels.length ∧ queues' id = [] ∧
      isBlocking = true ∧ isActive predicate values = true) := by
  unfold handleReceive at h
  split at h
  · cases h
  · rename_i channel hchannel
    have hid : id < channels.length := (List.getElem?_eq_some_iff.mp hchannel).1
    split at h
    · cases h
      exact ⟨fun _ hc => hc, .inl ⟨_, rfl⟩⟩
    · rename_i hactive
      split at h
      · rename_i rest hread
        have hempty := (ChannelQueue.readInternal_none hread).1
        split at h
        · rename_i hblocking
          cases h
          exact ⟨fun _ hc => hc, .inr ⟨rfl, hid, hempty, hblocking, by simpa using hactive⟩⟩
        · cases h
          exact ⟨fun _ hc => hc, .inl ⟨_, rfl⟩⟩
      · rename_i v rest hread
        -- a channel which yields a value was not empty
        have hdrains : Drains queues (Function.update queues id rest) := by
          intro c hc
          by_cases hcid : c = id
          · subst hcid
            rw [hc] at hread
            cases hread
          · rw [Function.update_of_ne hcid, hc]
        split at h
        · cases h
          exact ⟨hdrains, .inl ⟨_, rfl⟩⟩
        · cases h
          exact ⟨hdrains, .inl ⟨_, rfl⟩⟩

theorem handleSend_spec {id : ℕ} {predicate : Option (List Value → Bool)}
    {data : List Value → Value} {result : NodeResult}
    (h : handleSend channels id predicate data values queues = some (result, queues')) :
    (∃ v, result = .value v ∧ queues' = queues) ∨
    (∃ v, result = .sent id v ∧ ∀ c, c ≠ id → queues' c = queues c) := by
  unfold handleSend at h
  split at h
  · cases h
  · split at h
    · cases h
      exact .inl ⟨_, rfl, rfl⟩
    · split at h
      · cases h
        exact .inr ⟨_, rfl, fun c hc => Function.update_of_ne hc ..⟩
      · cases h

theorem tickFrom_effect {proc : Proc} {state : List Value} {startingIndex i : ℕ}
    {nodes : List ProcNode} {result : TickResult} {cont : ProcContinuation}
    (hnodes : nodes = proc.nodes.drop i)
    (h : tickFrom channels proc state startingIndex nodes i values queues =
      some (result, cont, queues')) :
    TickEffect channels proc queues result.executionState cont queues' := by
  induction nodes generalizing i values queues with
  | nil =>
    rw [tickFrom] at h
    split at h
    · cases h
      exact ⟨by simp, fun _ _ hc => hc⟩
    · cases h
  | cons node rest ih =>
    rw [tickFrom] at h
    have hnode : proc.nodes[i]? = some node := by
      have := congrArg (·[0]?) hnodes
      simpa using this.symm
    have hrest : rest = proc.nodes.drop (i + 1) := by
      rw [← List.tail_drop, ← hnodes]
      rfl
    -- a node which yields a value only drains queues
    have hcontinue : ∀ v queues₁, Drains queues queues₁ →
        tickFrom channels proc state startingIndex rest (i + 1) (values ++ [v]) queues₁ =
          some (result, cont, queues') →
        TickEffect channels proc queues result.executionState cont queues' := by
      intro v queues₁ hdrains htick
      obtain ⟨hblocked, hothers⟩ := ih hrest htick
      exact ⟨hblocked, fun c hc hempty => hothers c hc (hdrains c hempty)⟩
    rcases hexec : executeNode channels state values queues node with _ | ⟨nodeResult, queues₁⟩
    · rw [hexec] at h
      cases h
    · rw [hexec] at h
      rcases node with eval | ⟨id, predicate, isBlocking⟩ | ⟨id, predicate, data⟩
      · simp only [executeNode, Option.map_eq_some_iff] at hexec
        obtain ⟨v, -, rfl, rfl⟩ := hexec
        exact hcontinue v queues (fun _ hc => hc) h
      · obtain ⟨hdrains, ⟨v, rfl⟩ | ⟨rfl, hid, hempty, rfl, hactive⟩⟩ := handleReceive_spec hexec
        · exact hcontinue v queues₁ hdrains h
        · cases h
          refine ⟨?_, fun c _ hc => hdrains c hc⟩
          rintro c ⟨⟩
          exact ⟨hid, hempty, predicate, hnode, hactive⟩
      · rcases handleSend_spec hexec with ⟨v, rfl, rfl⟩ | ⟨v, rfl, hothers⟩
        · exact hcontinue v queues₁ (fun _ hc => hc) h
        · cases h
          refine ⟨by simp, ?_⟩
          intro c hc hempty
          rw [hothers c (by rintro rfl; exact hc rfl), hempty]

end ProcInterpreter

end Xls
