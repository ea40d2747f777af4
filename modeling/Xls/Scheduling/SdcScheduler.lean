/-
# Scheduling constraints, as linear constraints and as checks

A list of scheduling constraints is read twice: `SDCSchedulingModel`
(`xls/scheduling/sdc_scheduler.cc`) turns it into linear constraints on the cycles of the
nodes, and `PipelineSchedule::VerifyConstraints` (`xls/scheduling/pipeline_schedule.cc`) checks
a finished schedule.  The model of a proc is built here from variables and their coefficients;
the pairs of nodes which the delays keep apart are given.

The two readings differ on the directions of an IO constraint, which only the model looks at, on a
state element which is its own next value, which only the model skips, and on bounds which the
model, whose bounds are of type `double`, has to round.

* `toDouble_eq` : which bounds are not rounded;
* `sendThenRecv_of_constraints` : the next sends keep a receive apart from all sends before it;
* `verifyConstraints_iff` : which schedules of a model pass the check.
-/
import Mathlib.Tactic.Linarith
import Xls.Lib.Digraph
import Xls.Lib.Relational
import Xls.Scheduling.VerifyTiming

namespace Xls
namespace SdcScheduler

/-! ## Procs and constraints -/

/-- `IODirection`. -/
inductive IODirection where
  | receive
  | send
  deriving DecidableEq, Repr

/-- The operations, with the name of the channel of a send or receive. -/
inductive Op where
  | send (channel : String)
  | receive (channel : String)
  | minDelay (delay : ℕ)
  | other
  deriving DecidableEq, Repr

/-- `Node`: operands are given by position. -/
structure Node where
  op : Op
  operands : List ℕ
  deriving DecidableEq, Repr

/-- A proc: its nodes in topological order, the positions of the parameter and of the next
value of each state element, and its initiation interval. -/
structure Proc where
  nodes : List Node
  stateElements : List (ℕ × ℕ)
  initiationInterval : Option ℤ
  operand_lt : ∀ (n : ℕ) (node : Node), nodes[n]? = some node → ∀ o ∈ node.operands, o < n

/-- `IOConstraint`. -/
structure IOConstraint where
  sourceChannel : String
  sourceDirection : IODirection
  targetChannel : String
  targetDirection : IODirection
  minimumLatency : ℤ
  maximumLatency : ℤ
  deriving DecidableEq, Repr

/-- `SchedulingConstraint`. -/
inductive SchedulingConstraint where
  | io (constraint : IOConstraint)
  | nodeInCycle (node : ℕ) (cycle : ℤ)
  | difference (a b : ℕ) (maxDifference : ℤ)
  | recvsFirstSendsLast
  | backedge
  | sendThenRecv (minimumLatency : ℤ)
  deriving DecidableEq, Repr

namespace Proc

variable (p : Proc)

/-- The operation of a node. -/
def opOf (n : ℕ) : Option Op := p.nodes[n]?.map Node.op

/-- The operands of a node; none for a position behind the last node. -/
def operands (n : ℕ) : List ℕ := (p.nodes[n]?.map Node.operands).getD []

/-- The users of a node. -/
def users (n : ℕ) : List ℕ :=
  (List.range p.nodes.length).filter fun u => decide (n ∈ p.operands u)

/-- `node->Is<Send>()`. -/
def isSend (n : ℕ) : Bool :=
  match p.opOf n with
  | some (.send _) => true
  | _ => false

/-- `node->Is<Receive>()`. -/
def isReceive (n : ℕ) : Bool :=
  match p.opOf n with
  | some (.receive _) => true
  | _ => false

/-- The entry of `channel_to_nodes`: the sends and receives on a channel. -/
def channelToNodes (channel : String) : List ℕ :=
  (List.range p.nodes.length).filter fun n =>
    decide (p.opOf n = some (.send channel) ∨ p.opOf n = some (.receive channel))

/-- `node_matches_direction`. -/
def nodeMatchesDirection (n : ℕ) (direction : IODirection) : Bool :=
  (p.isSend n && direction == .send) || (p.isReceive n && direction == .receive)

end Proc

/-! ## Linear constraints -/

/-- The `double` next to a natural number, which keeps 53 binary digits; a number in the middle of two
goes to the even one. -/
def roundToDouble (n : ℕ) : ℕ :=
  let unit := 2 ^ (Nat.log2 n - 52)
  let quotient := n / unit
  let remainder := n % unit
  (if unit < 2 * remainder ∨ unit = 2 * remainder ∧ quotient % 2 = 1 then quotient + 1
    else quotient) * unit

/-- `static_cast<double>` of an `int64_t`. -/
def toDouble (x : ℤ) : ℤ := if x < 0 then -roundToDouble x.natAbs else roundToDouble x.natAbs

example : toDouble (2 ^ 53 + 1) = 2 ^ 53 := by decide

/-- The variables of the model. -/
inductive Variable where
  | lastStage
  | cycleAtSinknode
  | cycle (node : ℕ)
  | lifetime (node : ℕ)
  deriving DecidableEq, Repr

/-- A sum of variables with coefficients, between two bounds. -/
structure LinearConstraint where
  terms : List (ℤ × Variable)
  lower : Option ℤ
  upper : Option ℤ
  deriving DecidableEq, Repr

namespace LinearConstraint

/-- The value of the sum. -/
def value (c : LinearConstraint) (x : Variable → ℤ) : ℤ := (c.terms.map fun t => t.1 * x t.2).sum

/-- The assignment meets the constraint. -/
def Holds (c : LinearConstraint) (x : Variable → ℤ) : Prop :=
  (∀ l ∈ c.lower, l ≤ c.value x) ∧ ∀ u ∈ c.upper, c.value x ≤ u

instance (c : LinearConstraint) (x : Variable → ℤ) : Decidable (c.Holds x) :=
  inferInstanceAs (Decidable (_ ∧ _))

end LinearConstraint

open Variable

/-- `DiffAtMostConstraint`. -/
def diffAtMost (x y : ℕ) (limit : ℤ) : LinearConstraint :=
  ⟨[(1, cycle x), (-1, cycle y)], none, some (toDouble limit)⟩

/-- `DiffLessThanConstraint`. -/
def diffLessThan (x y : ℕ) (limit : ℤ) : LinearConstraint :=
  ⟨[(1, cycle x), (-1, cycle y)], none, some (toDouble (int64 (limit - 1)))⟩

/-- `DiffAtLeastConstraint`. -/
def diffAtLeast (x y : ℕ) (limit : ℤ) : LinearConstraint :=
  ⟨[(1, cycle x), (-1, cycle y)], some (toDouble limit), none⟩

/-! ## The model -/

section Model

variable (p : Proc)

/-- The variables of a node and the constraint of the constructor of `SDCSchedulingModel`. -/
def nodeConstraints (node : ℕ) : List LinearConstraint :=
  [⟨[(1, cycle node)], some 0, none⟩, ⟨[(1, lifetime node)], some 0, none⟩,
    ⟨[(1, cycle node), (-1, lastStage)], none, some 0⟩]

/-- `AddCausalConstraint` with a user: a minimum delay lags its input. -/
def addCausalConstraint (node user : ℕ) : LinearConstraint :=
  diffAtLeast user node
    (match p.opOf user with
    | some (.minDelay delay) => delay
    | _ => 0)

/-- `AddLifetimeConstraint` with a user. -/
def addLifetimeConstraint (node user : ℕ) : LinearConstraint :=
  ⟨[(1, lifetime node), (1, cycle node), (-1, cycle user)], some 0, none⟩

/-- The constraints of the graph, from the constructors of `SDCSchedulingModel` and
`SDCScheduler`. -/
def graphConstraints : List LinearConstraint :=
  ⟨[(1, lastStage)], some 0, none⟩ :: (List.range p.nodes.length).flatMap nodeConstraints ++
    (List.range p.nodes.length).flatMap (fun node => (p.users node).flatMap fun user =>
      [addCausalConstraint p node user, addLifetimeConstraint node user]) ++
    p.stateElements.map fun (state, next) => addLifetimeConstraint next state

/-- `SetClockPeriod`, for the given pairs of nodes, and `SetPipelineLength`. -/
def timingConstraints (delayConstraints : List (ℕ × ℕ)) (pipelineLength : Option ℤ) :
    List LinearConstraint :=
  delayConstraints.map (fun (source, target) => diffAtLeast target source 1) ++
    pipelineLength.toList.map fun length =>
      let last := toDouble (int64 (length - 1))
      ⟨[(1, lastStage)], some last, some last⟩

/-- `AddIOConstraint`. -/
def addIOConstraint (c : IOConstraint) : List LinearConstraint :=
  (p.channelToNodes c.sourceChannel).flatMap fun source =>
    (p.channelToNodes c.targetChannel).flatMap fun target =>
      if p.nodeMatchesDirection source c.sourceDirection = false then []
      else if p.nodeMatchesDirection target c.targetDirection = false then []
      else if source = target then []
      else [diffAtLeast target source c.minimumLatency, diffAtMost target source c.maximumLatency]

/-- `AddRFSLConstraint`. -/
def addRFSLConstraint : List LinearConstraint :=
  (List.range p.nodes.length).flatMap fun node =>
    if p.isReceive node then [⟨[(1, cycle node)], none, some 0⟩]
    else if p.isSend node then [⟨[(1, cycle node), (-1, lastStage)], some 0, none⟩]
    else []

/-- `AddBackedgeConstraints`: a state element which is its own next value is skipped. -/
def addBackedgeConstraints : List LinearConstraint :=
  p.stateElements.flatMap fun (state, next) =>
    if next = state then [] else [diffLessThan next state (p.initiationInterval.getD 1)]

/-- How the search of `AddSendThenRecvConstraint` goes on: not behind sends and receives. -/
def searchOperands (node : ℕ) : List ℕ :=
  if p.isSend node || p.isReceive node then [] else (p.operands node).reverse

/-- The nodes seen by the search from a receive. -/
def seenFrom (recv : ℕ) : List ℕ :=
  let stack := (p.operands recv).reverse
  Digraph.searchFrom (searchOperands p)
    (Digraph.pending (searchOperands p) p.nodes.length stack [] + 1) stack []

/-- `AddSendThenRecvConstraint`; a negative latency fails the check. -/
def addSendThenRecvConstraint (minimumLatency : ℤ) : Option (List LinearConstraint) :=
  if minimumLatency < 0 then none
  else if minimumLatency = 0 then some []
  else some ((List.range p.nodes.length).flatMap fun recv =>
    if p.isReceive recv then
      ((seenFrom p recv).filter p.isSend).map fun send => diffAtLeast recv send minimumLatency
    else [])

/-- `AddSchedulingConstraint`. -/
def addSchedulingConstraint : SchedulingConstraint → Option (List LinearConstraint)
  | .backedge => some (addBackedgeConstraints p)
  | .io c => some (addIOConstraint p c)
  | .nodeInCycle node c => some [⟨[(1, cycle node)], some (toDouble c), some (toDouble c)⟩]
  | .difference a b maxDifference => some [diffAtMost a b maxDifference]
  | .recvsFirstSendsLast => some (addRFSLConstraint p)
  | .sendThenRecv minimumLatency => addSendThenRecvConstraint p minimumLatency

/-- The linear constraints of a proc and a list of scheduling constraints. -/
def sdcModel (delayConstraints : List (ℕ × ℕ)) (pipelineLength : Option ℤ)
    (constraints : List SchedulingConstraint) : Option (List LinearConstraint) := do
  let scheduling ← constraints.mapM (addSchedulingConstraint p)
  some (graphConstraints p ++ timingConstraints delayConstraints pipelineLength ++
    scheduling.flatten)

/-- The cycles are those of an assignment of integers which meets all linear constraints. -/
def SatisfiesModel (delayConstraints : List (ℕ × ℕ)) (pipelineLength : Option ℤ)
    (constraints : List SchedulingConstraint) (cycle : ℕ → ℤ) : Prop :=
  ∃ x : Variable → ℤ, (∀ n, x (.cycle n) = cycle n) ∧
    ∃ model, sdcModel p delayConstraints pipelineLength constraints = some model ∧
      ∀ c ∈ model, c.Holds x

end Model

/-! ## The check of a schedule -/

/-- What a failed check of `VerifyConstraints` reports. -/
inductive Violation where
  | io (source : ℕ) (latency : ℤ) (target : ℕ) (constraint : IOConstraint)
  | nodeInCycle (node : ℕ) (cycle expected : ℤ)
  | difference (a : ℕ) (difference : ℤ) (b : ℕ) (maxDifference : ℤ)
  | receiveNotFirst (node : ℕ) (cycle : ℤ)
  | sendNotLast (node : ℕ) (cycle lastCycle : ℤ)
  | backedge (param : ℕ) (length : ℤ) (nextState : ℕ) (throughput : ℤ)
  | sendThenRecv (send : ℕ) (latency : ℤ) (recv : ℕ) (minimumLatency : ℤ)
  deriving DecidableEq, Repr

section Verify

variable (p : Proc) (cycle : ℕ → ℤ)

/-- What the first loop of `VerifyConstraints` does for one node in `send_predecessors`. -/
def visitSends (sends : ℕ → List ℕ) (node : ℕ) : ℕ → List ℕ :=
  Function.update sends node ((p.operands node).foldl (fun set operand =>
    (if p.isSend operand then List.insert operand set else set) ∪ sends operand) [])

/-- The map `send_predecessors`. -/
def sendPredecessors : ℕ → List ℕ :=
  (List.range p.nodes.length).foldl (visitSends p) fun _ => []

/-- The last cycle of a schedule. -/
def lastCycle : ℤ := (List.range p.nodes.length).foldl (fun last node => max last (cycle node)) 0

/-- The checks of one constraint in `VerifyConstraints`. -/
def verifyConstraint (worstCaseThroughput : Option ℤ) : SchedulingConstraint → Option Violation
  | .io c =>
    (p.channelToNodes c.sourceChannel).findSome? fun source =>
      (p.channelToNodes c.targetChannel).findSome? fun target =>
        if source = target then none
        else
          let latency := cycle target - cycle source
          if c.minimumLatency ≤ latency ∧ latency ≤ c.maximumLatency then none
          else some (.io source latency target c)
  | .nodeInCycle node expected =>
    if cycle node ≠ expected then some (.nodeInCycle node (cycle node) expected) else none
  | .difference a b maxDifference =>
    if cycle a - cycle b > maxDifference then
      some (.difference a (cycle a - cycle b) b maxDifference)
    else none
  | .recvsFirstSendsLast =>
    (List.range p.nodes.length).findSome? fun node =>
      if p.isReceive node && cycle node != 0 then some (.receiveNotFirst node (cycle node))
      else if p.isSend node && cycle node != lastCycle p cycle then
        some (.sendNotLast node (cycle node) (lastCycle p cycle))
      else none
  | .backedge =>
    let maxBackedge := int64 (worstCaseThroughput.getD 1 - 1)
    p.stateElements.findSome? fun (param, nextState) =>
      let backedgeLength := cycle nextState - cycle param
      if backedgeLength > maxBackedge then
        some (.backedge param backedgeLength nextState (worstCaseThroughput.getD 1))
      else none
  | .sendThenRecv minimumLatency =>
    (List.range p.nodes.length).findSome? fun recv =>
      if p.isReceive recv then
        (sendPredecessors p recv).findSome? fun send =>
          let sendThenRecvLatency := cycle recv - cycle send
          if sendThenRecvLatency < minimumLatency then
            some (.sendThenRecv send sendThenRecvLatency recv minimumLatency)
          else none
      else none

/-- `VerifyConstraints`: the first violation, if any. -/
def verifyConstraints (constraints : List SchedulingConstraint) (worstCaseThroughput : Option ℤ) :
    Option Violation :=
  constraints.findSome? (verifyConstraint p cycle worstCaseThroughput)

end Verify

/-! ## Bounds of type `double` -/

/-- A number of up to 53 binary digits is not rounded. -/
theorem toDouble_eq {x : ℤ} (h : x.natAbs < 2 ^ 53) : toDouble x = x := by
  have hround : roundToDouble x.natAbs = x.natAbs := by
    have hlog : Nat.log2 x.natAbs - 52 = 0 := by
      by_cases hzero : x.natAbs = 0
      · rw [hzero]
        rfl
      · have := (Nat.log2_lt hzero).mpr h
        omega
    simp only [roundToDouble, hlog, pow_zero, Nat.div_one, Nat.mod_one]
    simp
  rw [toDouble, hround]
  split_ifs <;> omega

theorem toDouble_nonneg {x : ℤ} (h : 0 ≤ x) : 0 ≤ toDouble x := by
  rw [toDouble, if_neg (not_lt.mpr h)]
  exact Int.natCast_nonneg _

/-! ## What the linear constraints say -/

variable {p : Proc} {cycle : ℕ → ℤ} {x : Variable → ℤ}

@[simp] theorem holds_diffAtMost (a b : ℕ) (limit : ℤ) :
    (diffAtMost a b limit).Holds x ↔ x (.cycle a) - x (.cycle b) ≤ toDouble limit := by
  simp [LinearConstraint.Holds, LinearConstraint.value, diffAtMost]

@[simp] theorem holds_diffLessThan (a b : ℕ) (limit : ℤ) : (diffLessThan a b limit).Holds x ↔
      x (.cycle a) - x (.cycle b) ≤ toDouble (int64 (limit - 1)) := by
  simp [LinearConstraint.Holds, LinearConstraint.value, diffLessThan, sub_eq_add_neg]

@[simp] theorem holds_diffAtLeast (a b : ℕ) (limit : ℤ) :
    (diffAtLeast a b limit).Holds x ↔ toDouble limit ≤ x (.cycle a) - x (.cycle b) := by
  simp [LinearConstraint.Holds, LinearConstraint.value, diffAtLeast, sub_eq_add_neg]

theorem Proc.lt_length_of_mem_operands {n o : ℕ} (h : o ∈ p.operands n) : n < p.nodes.length := by
  unfold Proc.operands at h
  rcases hn : p.nodes[n]? with _ | node
  · rw [hn] at h
    cases h
  · exact (List.getElem?_eq_some_iff.mp hn).1

theorem Proc.operands_lt {n o : ℕ} (h : o ∈ p.operands n) : o < n := by
  unfold Proc.operands at h
  rcases hn : p.nodes[n]? with _ | node
  · rw [hn] at h
    cases h
  · rw [hn] at h
    exact p.operand_lt n node hn o h

/-- What an assignment which meets the constraints of the graph says of the cycles. -/
structure GraphSchedule (p : Proc) (cycle : ℕ → ℤ) (lastStage : ℤ) : Prop where
  nonneg : ∀ n < p.nodes.length, 0 ≤ cycle n
  le_last : ∀ n < p.nodes.length, cycle n ≤ lastStage
  last_nonneg : 0 ≤ lastStage
  causal : ∀ n o, o ∈ p.operands n → cycle o ≤ cycle n

theorem graphSchedule_of_holds (hx : ∀ c ∈ graphConstraints p, c.Holds x) :
    GraphSchedule p (fun n => x (.cycle n)) (x .lastStage) := by
  simp only [graphConstraints, List.cons_append, List.mem_cons, List.mem_append,
    List.mem_flatMap, List.mem_range] at hx
  have hnode : ∀ n < p.nodes.length, ∀ c ∈ nodeConstraints n, c.Holds x :=
    fun n hn c hc => hx c (Or.inr (Or.inl (Or.inl ⟨n, hn, hc⟩)))
  constructor
  · intro n hn
    have h := hnode n hn ⟨[(1, .cycle n)], some 0, none⟩ (by simp [nodeConstraints])
    simpa [LinearConstraint.Holds, LinearConstraint.value] using h
  · intro n hn
    have h := hnode n hn ⟨[(1, .cycle n), (-1, .lastStage)], none, some 0⟩
      (by simp [nodeConstraints])
    simpa [LinearConstraint.Holds, LinearConstraint.value] using h
  · have h := hx ⟨[(1, .lastStage)], some 0, none⟩ (Or.inl rfl)
    simpa [LinearConstraint.Holds, LinearConstraint.value] using h
  · intro n o ho
    have huser : n ∈ p.users o := by
      rw [Proc.users, List.mem_filter, List.mem_range, decide_eq_true_eq]
      exact ⟨Proc.lt_length_of_mem_operands ho, ho⟩
    have hlt := (Proc.operands_lt ho).trans (Proc.lt_length_of_mem_operands ho)
    have h := hx (addCausalConstraint p o n) (Or.inr (Or.inl (Or.inr ⟨o, hlt, n, huser, by simp⟩)))
    rw [addCausalConstraint, holds_diffAtLeast] at h
    -- a minimum delay is not negative
    have hdelay : (0 : ℤ) ≤ match p.opOf n with
        | some (.minDelay delay) => (delay : ℤ)
        | _ => 0 := by
      split
      · exact Int.natCast_nonneg _
      · exact le_rfl
    have := toDouble_nonneg hdelay
    linarith

/-! ## Sends before receives -/

/-- The nodes seen from a receive: its operands, and what the search goes on to. -/
theorem seenFrom_spec (p : Proc) (recv : ℕ) : (∀ o ∈ p.operands recv, o ∈ seenFrom p recv) ∧
    (∀ n ∈ seenFrom p recv, ∀ o ∈ searchOperands p n, o ∈ seenFrom p recv) ∧
    ∀ P : ℕ → Prop, (∀ n, P n → ∀ o ∈ p.operands n, P o) → P recv → ∀ n ∈ seenFrom p recv, P n := by
  have hout : ∀ n, p.nodes.length ≤ n → searchOperands p n = [] := by
    intro n hn
    have : p.operands n = [] := by
      rw [Proc.operands, List.getElem?_eq_none hn]
      rfl
    rw [searchOperands, this]
    split <;> rfl
  obtain ⟨hin, hclosed⟩ := Digraph.searchFrom_closed hout _ (p.operands recv).reverse []
    (Nat.lt_succ_self _) (by simp)
  refine ⟨fun o ho => hin o (Or.inr (List.mem_reverse.mpr ho)), hclosed, ?_⟩
  intro P hP hrecv
  apply Digraph.searchFrom_sound P
  · intro n hn o ho
    rw [searchOperands] at ho
    split at ho
    · cases ho
    · exact hP n hn o (List.mem_reverse.mp ho)
  · intro o ho
    exact hP recv hrecv o (List.mem_reverse.mp ho)
  · intro o ho
    cases ho

theorem mem_foldl_sends (sends : ℕ → List ℕ) (operands set : List ℕ) (s : ℕ) :
    s ∈ operands.foldl (fun set operand =>
        (if p.isSend operand then List.insert operand set else set) ∪ sends operand) set ↔
      s ∈ set ∨ ∃ o ∈ operands, (p.isSend o = true ∧ s = o) ∨ s ∈ sends o := by
  induction operands generalizing set with
  | nil => simp
  | cons o operands ih =>
    rw [List.foldl_cons, ih, List.mem_union_iff]
    have hinsert : s ∈ (if p.isSend o then List.insert o set else set) ↔
        s ∈ set ∨ (p.isSend o = true ∧ s = o) := by
      split
      · rw [List.mem_insert_iff]
        tauto
      · tauto
    rw [hinsert]
    simp only [List.mem_cons, exists_eq_or_imp, or_assoc]

theorem mem_foldl_visitSends (p : Proc) (k : ℕ) : ∀ n < k, ∀ s,
    s ∈ (List.range k).foldl (visitSends p) (fun _ => []) n ↔ ∃ o ∈ p.operands n,
      (p.isSend o = true ∧ s = o) ∨ s ∈ (List.range k).foldl (visitSends p) (fun _ => []) o := by
  induction k with
  | zero => exact fun n hn => absurd hn (Nat.not_lt_zero n)
  | succ k ih =>
    intro n hn s
    rw [List.range_succ, List.foldl_append, List.foldl_cons, List.foldl_nil]
    set sends := (List.range k).foldl (visitSends p) fun _ => []
    have hold : ∀ o ∈ p.operands n, visitSends p sends k o = sends o := by
      intro o ho
      have := Proc.operands_lt ho
      exact Function.update_of_ne (by omega) ..
    have hrec : s ∈ visitSends p sends k n ↔
        ∃ o ∈ p.operands n, (p.isSend o = true ∧ s = o) ∨ s ∈ sends o := by
      rcases Nat.lt_succ_iff_lt_or_eq.mp hn with hn | rfl
      · rw [visitSends, Function.update_of_ne hn.ne]
        exact ih n hn s
      · rw [visitSends, Function.update_self, mem_foldl_sends]
        simp
    rw [hrec]
    refine exists_congr fun o => and_congr_right fun ho => ?_
    rw [hold o ho]

/-- The sends before a node are those among its operands and those before them. -/
theorem mem_sendPredecessors {n s : ℕ} (hn : n < p.nodes.length) : s ∈ sendPredecessors p n ↔
    ∃ o ∈ p.operands n, (p.isSend o = true ∧ s = o) ∨ s ∈ sendPredecessors p o :=
  mem_foldl_visitSends p p.nodes.length n hn s

theorem sendPredecessors_cycle_le {lastStage : ℤ} (hgraph : GraphSchedule p cycle lastStage)
    (n : ℕ) : n < p.nodes.length → ∀ s ∈ sendPredecessors p n, cycle s ≤ cycle n := by
  induction n using Nat.strong_induction_on with
  | _ n ih =>
    intro hn s hs
    obtain ⟨o, ho, hs⟩ := (mem_sendPredecessors hn).mp hs
    have hstep := hgraph.causal n o ho
    have hlt := Proc.operands_lt ho
    rcases hs with ⟨-, rfl⟩ | hs
    · exact hstep
    · exact (ih o hlt (hlt.trans hn) s hs).trans hstep

/-- The constraints between a receive and the next sends keep it apart from all sends before
it: farther ones come before those, or before another receive. -/
theorem sendThenRecv_of_constraints {lastStage minimumLatency : ℤ}
    (hgraph : GraphSchedule p cycle lastStage)
    (h : ∀ recv < p.nodes.length, p.isReceive recv = true → ∀ send ∈ seenFrom p recv,
      p.isSend send = true → minimumLatency ≤ cycle recv - cycle send) (recv : ℕ) :
    recv < p.nodes.length → p.isReceive recv = true →
      ∀ send ∈ sendPredecessors p recv, minimumLatency ≤ cycle recv - cycle send := by
  induction recv using Nat.strong_induction_on with
  | _ recv ih =>
    intro hlt hrecv
    obtain ⟨hstart, hclosed, hsound⟩ := seenFrom_spec p recv
    have hseen : ∀ n ∈ seenFrom p recv, n ≤ recv ∧ cycle n ≤ cycle recv := by
      apply hsound fun n => n ≤ recv ∧ cycle n ≤ cycle recv
      · rintro n ⟨hle, hcycle⟩ o ho
        exact ⟨(Proc.operands_lt ho).le.trans hle, (hgraph.causal n o ho).trans hcycle⟩
      · exact ⟨le_rfl, le_rfl⟩
    -- what is behind a node which is seen
    have hbehind : ∀ o, o ∈ seenFrom p recv → o < recv → ∀ send,
        (p.isSend o = true ∧ send = o) ∨ send ∈ sendPredecessors p o →
        minimumLatency ≤ cycle recv - cycle send := by
      intro o
      induction o using Nat.strong_induction_on with
      | _ o iho =>
        intro ho holt send hsend
        by_cases hs : p.isSend o = true
        · have hapart := h recv hlt hrecv o ho hs
          rcases hsend with ⟨-, rfl⟩ | hsend
          · exact hapart
          · have := sendPredecessors_cycle_le hgraph o (holt.trans hlt) send hsend
            linarith
        · have hsend := hsend.resolve_left fun hsend => hs hsend.1
          by_cases hr : p.isReceive o = true
          · have hother := ih o holt (holt.trans hlt) hr send hsend
            have := (hseen o ho).2
            linarith
          · -- the search goes on
            obtain ⟨o', ho', hsend⟩ := (mem_sendPredecessors (holt.trans hlt)).mp hsend
            have hnext : o' ∈ searchOperands p o := by
              rw [searchOperands, if_neg (by simp [hs, hr])]
              exact List.mem_reverse.mpr ho'
            have hlt' := Proc.operands_lt ho'
            exact iho o' hlt' (hclosed o ho o' hnext) (hlt'.trans holt) send hsend
    intro send hsend
    obtain ⟨o, ho, hsend⟩ := (mem_sendPredecessors hlt).mp hsend
    exact hbehind o (hstart o ho) (Proc.operands_lt ho) send hsend

/-! ## The check against the model -/

theorem foldl_max_le {l : List ℕ} {a b : ℤ} :
    l.foldl (fun last n => max last (cycle n)) a ≤ b ↔ a ≤ b ∧ ∀ n ∈ l, cycle n ≤ b := by
  induction l generalizing a with
  | nil => simp
  | cons n l ih =>
    rw [List.foldl_cons, ih, max_le_iff, List.forall_mem_cons, and_assoc]

/-- A node in the last stage of a model is in the last cycle. -/
theorem lastCycle_eq {lastStage : ℤ} (hgraph : GraphSchedule p cycle lastStage) {n : ℕ}
    (hn : n < p.nodes.length) (hlast : lastStage ≤ cycle n) : cycle n = lastCycle p cycle := by
  apply le_antisymm
  · exact (foldl_max_le.mp (le_refl (lastCycle p cycle))).2 n (List.mem_range.mpr hn)
  · refine foldl_max_le.mpr ⟨hgraph.last_nonneg.trans hlast, fun m hm => ?_⟩
    exact (hgraph.le_last m (List.mem_range.mp hm)).trans hlast

/-- The directions of an IO constraint are those of a pair of nodes, so that the model constrains
it. -/
def Proc.isConstrained (p : Proc) (c : IOConstraint) (source target : ℕ) : Bool :=
  p.nodeMatchesDirection source c.sourceDirection && p.nodeMatchesDirection target c.targetDirection

/-- What the check of a constraint asks for and the model does not: the latency range also for
sends and receives of other directions, a positive initiation interval for a state element which is
its own next value, and the given bound where the one of the model is rounded to a weaker one. -/
def ChecksBeyondModel (p : Proc) (cycle : ℕ → ℤ) : SchedulingConstraint → Prop
  | .io c =>
    ∀ source ∈ p.channelToNodes c.sourceChannel, ∀ target ∈ p.channelToNodes c.targetChannel,
      source ≠ target →
      ((p.isConstrained c source target = true →
          toDouble c.minimumLatency < c.minimumLatency) →
        c.minimumLatency ≤ cycle target - cycle source) ∧
      ((p.isConstrained c source target = true →
          c.maximumLatency < toDouble c.maximumLatency) →
        cycle target - cycle source ≤ c.maximumLatency)
  | .nodeInCycle _ expected => toDouble expected = expected
  | .difference a b maxDifference =>
    maxDifference < toDouble maxDifference → cycle a - cycle b ≤ maxDifference
  | .recvsFirstSendsLast => True
  | .backedge =>
    let maxBackedge := int64 (p.initiationInterval.getD 1 - 1)
    ∀ e ∈ p.stateElements, (e.2 ≠ e.1 → maxBackedge < toDouble maxBackedge) →
      cycle e.2 - cycle e.1 ≤ maxBackedge
  | .sendThenRecv minimumLatency =>
    toDouble minimumLatency < minimumLatency → ∀ recv < p.nodes.length, p.isReceive recv = true →
      ∀ send ∈ sendPredecessors p recv, minimumLatency ≤ cycle recv - cycle send

theorem verifyConstraint_io {c : IOConstraint} (hx : ∀ k ∈ addIOConstraint p c, k.Holds x)
    (worstCaseThroughput : Option ℤ) :
    verifyConstraint p (fun n => x (.cycle n)) worstCaseThroughput (.io c) = none ↔
      ChecksBeyondModel p (fun n => x (.cycle n)) (.io c) := by
  simp only [verifyConstraint, List.findSome?_eq_none_iff]
  refine forall_congr' fun source => forall_congr' fun hsource => forall_congr' fun target =>
    forall_congr' fun htarget => ?_
  by_cases heq : source = target
  · simp [heq]
  · simp only [heq, ite_eq_left_iff, reduceCtorEq, imp_false, not_not, ne_eq,
      not_false_eq_true, true_imp_iff]
    constructor
    · exact fun h => ⟨fun _ => h.1, fun _ => h.2⟩
    · rintro ⟨hmin, hmax⟩
      by_cases hmatch : p.isConstrained c source target = true
      · -- the model has constraints for this pair
        have hmem : ∀ k ∈ [diffAtLeast target source c.minimumLatency,
            diffAtMost target source c.maximumLatency], k.Holds x := by
          intro k hk
          apply hx
          rw [addIOConstraint, List.mem_flatMap]
          refine ⟨source, hsource, List.mem_flatMap.mpr ⟨target, htarget, ?_⟩⟩
          obtain ⟨hs, ht⟩ := Bool.and_eq_true_iff.mp hmatch
          simpa [hs, ht, heq] using hk
        have hlower := hmem (diffAtLeast target source c.minimumLatency) (by simp)
        have hupper := hmem (diffAtMost target source c.maximumLatency) (by simp)
        rw [holds_diffAtLeast] at hlower
        rw [holds_diffAtMost] at hupper
        constructor
        · by_contra hlt
          exact hlt (hmin fun _ => by omega)
        · by_contra hlt
          exact hlt (hmax fun _ => by omega)
      · exact ⟨hmin fun h => absurd h hmatch, hmax fun h => absurd h hmatch⟩

theorem verifyConstraint_recvsFirstSendsLast
    (hgraph : GraphSchedule p (fun n => x (.cycle n)) (x .lastStage))
    (hx : ∀ k ∈ addRFSLConstraint p, k.Holds x) (worstCaseThroughput : Option ℤ) :
    verifyConstraint p (fun n => x (.cycle n)) worstCaseThroughput .recvsFirstSendsLast = none := by
  simp only [verifyConstraint, List.findSome?_eq_none_iff, List.mem_range]
  intro node hnode
  have hnonneg := hgraph.nonneg node hnode
  by_cases hrecv : p.isReceive node = true
  · have hfirst := hx ⟨[(1, .cycle node)], none, some 0⟩ (by
      rw [addRFSLConstraint, List.mem_flatMap]
      exact ⟨node, List.mem_range.mpr hnode, by simp [hrecv]⟩)
    have hle : x (.cycle node) ≤ 0 := by
      simpa [LinearConstraint.Holds, LinearConstraint.value] using hfirst
    have hzero : x (.cycle node) = 0 := le_antisymm hle hnonneg
    have hsend : p.isSend node = false := by
      unfold Proc.isReceive at hrecv
      unfold Proc.isSend
      split at hrecv <;> simp_all
    simp [hzero, hsend]
  · by_cases hsend : p.isSend node = true
    · have hlast := hx ⟨[(1, .cycle node), (-1, .lastStage)], some 0, none⟩ (by
        rw [addRFSLConstraint, List.mem_flatMap]
        exact ⟨node, List.mem_range.mpr hnode, by simp [hrecv, hsend]⟩)
      have hle : x .lastStage ≤ x (.cycle node) := by
        simpa [LinearConstraint.Holds, LinearConstraint.value] using hlast
      have heq := lastCycle_eq hgraph hnode hle
      simp [hrecv, ← heq]
    · simp [hrecv, hsend]

theorem verifyConstraint_backedge (hx : ∀ k ∈ addBackedgeConstraints p, k.Holds x) :
    verifyConstraint p (fun n => x (.cycle n)) p.initiationInterval .backedge = none ↔
      ChecksBeyondModel p (fun n => x (.cycle n)) .backedge := by
  simp only [verifyConstraint, List.findSome?_eq_none_iff]
  refine forall_congr' fun e => forall_congr' fun he => ?_
  simp only [ite_eq_right_iff, reduceCtorEq, imp_false, not_lt]
  refine ⟨fun h _ => h, fun h => ?_⟩
  by_cases heq : e.2 = e.1
  · exact h fun hne => absurd heq hne
  · have hle := hx (diffLessThan e.2 e.1 (p.initiationInterval.getD 1)) (by
      rw [addBackedgeConstraints, List.mem_flatMap]
      exact ⟨e, he, by simp [heq]⟩)
    rw [holds_diffLessThan] at hle
    by_contra hlt
    exact hlt (h fun _ => by omega)

theorem verifyConstraint_sendThenRecv {minimumLatency : ℤ} {model : List LinearConstraint}
    (hgraph : GraphSchedule p (fun n => x (.cycle n)) (x .lastStage))
    (hmodel : addSendThenRecvConstraint p minimumLatency = some model)
    (hx : ∀ k ∈ model, k.Holds x) (worstCaseThroughput : Option ℤ) :
    verifyConstraint p (fun n => x (.cycle n)) worstCaseThroughput (.sendThenRecv minimumLatency) =
      none ↔ ChecksBeyondModel p (fun n => x (.cycle n)) (.sendThenRecv minimumLatency) := by
  have hcheck : verifyConstraint p (fun n => x (.cycle n)) worstCaseThroughput
      (.sendThenRecv minimumLatency) = none ↔ ∀ recv < p.nodes.length, p.isReceive recv = true →
        ∀ send ∈ sendPredecessors p recv, minimumLatency ≤ x (.cycle recv) - x (.cycle send) := by
    simp [verifyConstraint]
  rw [hcheck]
  refine ⟨fun h _ => h, fun h => ?_⟩
  by_cases hround : toDouble minimumLatency < minimumLatency
  · exact h hround
  intro recv hlt hrecv send hsend
  unfold addSendThenRecvConstraint at hmodel
  split at hmodel
  · cases hmodel
  · split at hmodel
    · -- without a latency, the graph is enough
      have := sendPredecessors_cycle_le hgraph recv hlt send hsend
      linarith
    · cases hmodel
      apply sendThenRecv_of_constraints hgraph _ recv hlt hrecv send hsend
      intro recv hlt hrecv send hseen hsend
      have h := hx (diffAtLeast recv send minimumLatency) (by
        rw [List.mem_flatMap]
        refine ⟨recv, List.mem_range.mpr hlt, ?_⟩
        rw [if_pos hrecv, List.mem_map]
        exact ⟨send, List.mem_filter.mpr ⟨hseen, hsend⟩, rfl⟩)
      rw [holds_diffAtLeast] at h
      omega

/-- **The check and the model.**  A schedule which meets the linear constraints of a proc and a
list of scheduling constraints passes the check of the list exactly when it also meets what
only the check asks for. -/
theorem verifyConstraints_iff {delayConstraints : List (ℕ × ℕ)} {pipelineLength : Option ℤ}
    {constraints : List SchedulingConstraint}
    (h : SatisfiesModel p delayConstraints pipelineLength constraints cycle) :
    verifyConstraints p cycle constraints p.initiationInterval = none ↔
      ∀ c ∈ constraints, ChecksBeyondModel p cycle c := by
  obtain ⟨x, hcycle, model, hmodel, hx⟩ := h
  obtain rfl : (fun n => x (.cycle n)) = cycle := funext hcycle
  obtain ⟨scheduling, hscheduling, hsome⟩ := Option.bind_eq_some_iff.mp hmodel
  cases hsome
  have hgraph := graphSchedule_of_holds fun c hc =>
    hx c (List.mem_append_left _ (List.mem_append_left _ hc))
  rw [verifyConstraints, List.findSome?_eq_none_iff]
  refine forall_congr' fun c => forall_congr' fun hc => ?_
  obtain ⟨cs, hcs⟩ := Relational.exists_of_mapM hscheduling hc
  have hholds : ∀ k ∈ cs, k.Holds x := fun k hk =>
    hx k (List.mem_append_right _
      (List.mem_flatten.mpr ⟨cs, Relational.mem_of_mapM hscheduling hc hcs, hk⟩))
  rcases c with c | ⟨node, expected⟩ | ⟨a, b, maxDifference⟩ | _ | _ | minimumLatency
  · cases hcs
    exact verifyConstraint_io hholds p.initiationInterval
  · cases hcs
    have heq : toDouble expected ≤ x (.cycle node) ∧ x (.cycle node) ≤ toDouble expected := by
      simpa [LinearConstraint.Holds, LinearConstraint.value] using
        hholds ⟨[(1, .cycle node)], some (toDouble expected), some (toDouble expected)⟩ (by simp)
    simp [verifyConstraint, ChecksBeyondModel, le_antisymm heq.2 heq.1]
  · cases hcs
    have hle := hholds (diffAtMost a b maxDifference) (by simp)
    rw [holds_diffAtMost] at hle
    simp only [verifyConstraint, ChecksBeyondModel, ite_eq_right_iff, reduceCtorEq, imp_false, not_lt]
    refine ⟨fun h _ => h, fun h => ?_⟩
    by_contra hlt
    exact hlt (h (by omega))
  · cases hcs
    exact ⟨fun _ => trivial, fun _ => verifyConstraint_recvsFirstSendsLast hgraph hholds _⟩
  · cases hcs
    exact verifyConstraint_backedge hholds
  · exact verifyConstraint_sendThenRecv hgraph hcs hholds _

/-! ## A channel with a send and a receive -/

/-- A token parameter, a receive on an input, and a send and a receive on a loopback channel. -/
def loopback : Proc where
  nodes := [⟨.other, []⟩, ⟨.receive "in", [0]⟩, ⟨.receive "loop", [0]⟩, ⟨.send "loop", [1]⟩]
  stateElements := []
  initiationInterval := none
  operand_lt n node h o ho := by
    rcases n with _ | _ | _ | _ | n <;> simp at h <;> subst h <;> simp at ho <;> omega

/-- The send in the second cycle, everything else in the first. -/
def loopbackCycle (n : ℕ) : ℤ := if n = 3 then 1 else 0

/-- The variables of the model for this schedule. -/
def loopbackVariables : Variable → ℤ
  | .lastStage => 1
  | .cycleAtSinknode => 1
  | .cycle n => loopbackCycle n
  | .lifetime n => if n = 1 then 1 else 0

/-- Sends on the loopback channel are one cycle behind receives on the input. -/
def inToLoop : IOConstraint := ⟨"in", .receive, "loop", .send, 1, 1⟩

/-- A schedule with all receives in the first cycle and the send in the last one, the second,
passes. -/
theorem verifyConstraints_loopback :
    verifyConstraints loopback loopbackCycle [.recvsFirstSendsLast, .nodeInCycle 3 1] none = none := by
  have hmodel : SatisfiesModel loopback [] (some 2) [.recvsFirstSendsLast, .nodeInCycle 3 1]
      loopbackCycle := ⟨loopbackVariables, fun _ => rfl, _, rfl, by decide⟩
  exact (verifyConstraints_iff hmodel).mpr
    (by simp [ChecksBeyondModel, toDouble_eq (x := 1) (by decide)])

/-- The check also counts the receive on the loopback channel, which the constraint is not
about, and rejects a schedule of the model. -/
theorem not_verifyConstraints_of_satisfiesModel :
    ¬ ∀ (p : Proc) (delayConstraints : List (ℕ × ℕ)) (pipelineLength : Option ℤ)
      (constraints : List SchedulingConstraint) (cycle : ℕ → ℤ),
      SatisfiesModel p delayConstraints pipelineLength constraints cycle →
        verifyConstraints p cycle constraints p.initiationInterval = none := by
  intro h
  have hmodel : SatisfiesModel loopback [] (some 2) [.io inToLoop] loopbackCycle :=
    ⟨loopbackVariables, fun _ => rfl, _, rfl, by decide⟩
  exact absurd (h loopback [] (some 2) [.io inToLoop] loopbackCycle hmodel) (by decide)

end SdcScheduler
end Xls
