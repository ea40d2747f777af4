/-
# The timing check of schedules

`PipelineSchedule::VerifyTiming` (`xls/scheduling/pipeline_schedule.cc`): the critical path to each
node within its cycle, and the longest one against the clock period.  Delays are added as
`int64_t`, so that the check is about the sums where they fit.

* `CriticalPaths.exists_path`, `CriticalPaths.path_le` : a critical path is a longest path;
* `verifyTiming_iff` : the check accepts the assignments without a late path.
-/
import Xls.Ir.Users
import Mathlib.Algebra.BigOperators.Group.List.Basic
import Mathlib.Algebra.Order.Group.Int
import Mathlib.Data.List.Chain
import Mathlib.Tactic.Ring

namespace Xls

/-- `std::numeric_limits<int64_t>::max()`. -/
def int64Max : ℤ := 2 ^ 63 - 1

/-- The `int64_t` of a sum or difference, which wraps around where it overflows. -/
def int64 (x : ℤ) : ℤ := (x + 2 ^ 63) % 2 ^ 64 - 2 ^ 63

theorem int64_eq {x : ℤ} (h : -2 ^ 63 ≤ x) (hle : x ≤ int64Max) : int64 x = x := by
  unfold int64Max at hle
  unfold int64
  omega

namespace PipelineSchedule

/-- The critical path to the start of a node in `PipelineSchedule::VerifyTiming`. -/
def cpToNodeStart (cycle nodeCp : ℕ → ℤ) (node : ℕ) (operands : List ℕ) : ℤ :=
  operands.foldl (fun start operand =>
    if cycle operand = cycle node then
      if start < nodeCp operand then nodeCp operand else start
    else start) 0

/-- The loop body of `VerifyTiming`, with `node_cp` and `max_cp_node`. -/
def verifyTimingStep (f : FunctionBase) (delay : ℕ → ℕ) (cycle : ℕ → ℤ)
    (acc : (ℕ → ℤ) × Option ℕ) (node : ℕ) : (ℕ → ℤ) × Option ℕ :=
  let nodeCp := Function.update acc.1 node
    (int64 (cpToNodeStart cycle acc.1 node (f.operands node) + delay node))
  (nodeCp,
    match acc.2 with
    | none => some node
    | some maxCpNode => if nodeCp node > nodeCp maxCpNode then some node else some maxCpNode)

/-- `PipelineSchedule::VerifyTiming`.  Without nodes, the map has a zero at the null node. -/
def verifyTiming (f : FunctionBase) (delay : ℕ → ℕ) (clockPeriodPs : ℤ) (cycle : ℕ → ℤ) : Bool :=
  let (nodeCp, maxCpNode) :=
    (List.range f.nodes.length).foldl (verifyTimingStep f delay cycle) (fun _ => 0, none)
  match maxCpNode with
  | some node => decide (nodeCp node ≤ clockPeriodPs)
  | none => decide (0 ≤ clockPeriodPs)

/-! ## Paths within one cycle -/

/-- No path of operands within one cycle takes longer than the clock period, in the cycles
which count. -/
def MeetsTiming (f : FunctionBase) (delay : ℕ → ℕ) (clockPeriodPs : ℤ) (counts : ℤ → Prop)
    (cycle : ℕ → ℤ) : Prop :=
  ∀ path : List ℕ, path ≠ [] → (∀ n ∈ path, n < f.nodes.length) →
    path.IsChain (fun n operand => Uses f n operand ∧ cycle operand = cycle n ∧ counts (cycle n)) →
    (path.map fun n => (delay n : ℤ)).sum ≤ clockPeriodPs

variable {f : FunctionBase} {delay : ℕ → ℕ} {clockPeriodPs : ℤ} {cycle : ℕ → ℤ}

theorem le_cpToNodeStart (cycle nodeCp : ℕ → ℤ) (node : ℕ) (operands : List ℕ) :
    0 ≤ cpToNodeStart cycle nodeCp node operands ∧
    (∀ o ∈ operands, cycle o = cycle node → nodeCp o ≤ cpToNodeStart cycle nodeCp node operands) ∧
    (cpToNodeStart cycle nodeCp node operands = 0 ∨ ∃ o ∈ operands, cycle o = cycle node ∧
        cpToNodeStart cycle nodeCp node operands = nodeCp o) := by
  unfold cpToNodeStart
  induction operands using List.reverseRecOn with
  | nil => simp
  | append_singleton operands o ih =>
    obtain ⟨hnonneg, hle, hfrom⟩ := ih
    rw [List.foldl_append, List.foldl_cons, List.foldl_nil]
    set start := operands.foldl (fun start operand =>
      if cycle operand = cycle node then
        if start < nodeCp operand then nodeCp operand else start
      else start) 0 with hstart
    have hkeep : ∀ t, start ≤ t → (∀ p ∈ operands, cycle p = cycle node → nodeCp p ≤ t) :=
      fun t ht p hp heq => (hle p hp heq).trans ht
    have hfrom' : start = 0 ∨ ∃ p ∈ operands ++ [o], cycle p = cycle node ∧ start = nodeCp p :=
      hfrom.imp_right fun ⟨p, hp, hrest⟩ => ⟨p, List.mem_append_left _ hp, hrest⟩
    split
    · rename_i hcycle
      split
      · rename_i hlt
        refine ⟨by omega, ?_, .inr ⟨o, by simp, hcycle, rfl⟩⟩
        intro p hp heq
        rcases List.mem_append.mp hp with hp | hp
        · exact hkeep _ hlt.le p hp heq
        · rw [List.mem_singleton.mp hp]
      · rename_i hlt
        refine ⟨hnonneg, ?_, hfrom'⟩
        intro p hp heq
        rcases List.mem_append.mp hp with hp | hp
        · exact hle p hp heq
        · rw [List.mem_singleton.mp hp]
          exact not_lt.mp hlt
    · rename_i hcycle
      refine ⟨hnonneg, ?_, hfrom'⟩
      intro p hp heq
      rcases List.mem_append.mp hp with hp | hp
      · exact hle p hp heq
      · rw [List.mem_singleton.mp hp] at heq
        exact absurd heq hcycle

/-- What the loop of `VerifyTiming` has computed for the nodes before position `k`. -/
structure CriticalPaths (f : FunctionBase) (delay : ℕ → ℕ) (cycle : ℕ → ℤ) (k : ℕ)
    (acc : (ℕ → ℤ) × Option ℕ) : Prop where
  recurrence : ∀ n < k, acc.1 n = int64 (cpToNodeStart cycle acc.1 n (f.operands n) + delay n)
  isMax : k = 0 ∧ acc.2 = none ∨ ∃ m < k, acc.2 = some m ∧ ∀ n < k, acc.1 n ≤ acc.1 m

theorem cpToNodeStart_congr {cycle nodeCp nodeCp' : ℕ → ℤ} {node : ℕ} {operands : List ℕ}
    (h : ∀ o ∈ operands, nodeCp' o = nodeCp o) :
    cpToNodeStart cycle nodeCp' node operands = cpToNodeStart cycle nodeCp node operands := by
  refine List.foldl_ext _ _ _ ?_
  intro start o ho
  rw [h o ho]

variable (delay) in
theorem criticalPaths_foldl (horder : ∀ u n, Uses f u n → n < u) (cycle : ℕ → ℤ) (k : ℕ) :
    CriticalPaths f delay cycle k
      ((List.range k).foldl (verifyTimingStep f delay cycle) (fun _ => 0, none)) := by
  induction k with
  | zero => exact ⟨by simp, .inl ⟨rfl, rfl⟩⟩
  | succ k ih =>
    rw [List.range_succ, List.foldl_append, List.foldl_cons, List.foldl_nil]
    generalize (List.range k).foldl (verifyTimingStep f delay cycle) (fun _ => 0, none) = acc at ih
    obtain ⟨nodeCp, maxCpNode⟩ := acc
    obtain ⟨hrec, hmax⟩ := ih
    simp only [verifyTimingStep]
    set value := int64 (cpToNodeStart cycle nodeCp k (f.operands k) + (delay k : ℤ)) with hvalue
    have hold : ∀ n, n ≠ k → Function.update nodeCp k value n = nodeCp n :=
      fun n hn => Function.update_of_ne hn ..
    have hoperands : ∀ n ≤ k, ∀ o ∈ f.operands n, Function.update nodeCp k value o = nodeCp o := by
      intro n hn o ho
      have := horder n o (mem_operands_iff.mp ho)
      exact hold o (by omega)
    constructor
    · intro n hn
      rw [cpToNodeStart_congr (hoperands n (by omega))]
      rcases Nat.lt_succ_iff_lt_or_eq.mp hn with hn | rfl
      · exact (hold n (by omega)).trans (hrec n hn)
      · exact Function.update_self ..
    · right
      rcases hmax with ⟨rfl, hnone⟩ | ⟨m, hm, hsome, hle⟩
      · obtain rfl : maxCpNode = none := hnone
        refine ⟨0, by omega, rfl, ?_⟩
        intro n hn
        obtain rfl : n = 0 := by omega
        exact le_rfl
      · obtain rfl : maxCpNode = some m := hsome
        simp only [Function.update_self, hold m (by omega)]
        split
        · rename_i hgt
          refine ⟨k, by omega, rfl, ?_⟩
          intro n hn
          rcases Nat.lt_succ_iff_lt_or_eq.mp hn with hn | rfl
          · rw [hold n (by omega), Function.update_self]
            exact (hle n hn).trans hgt.le
          · exact le_rfl
        · rename_i hgt
          refine ⟨m, by omega, rfl, ?_⟩
          intro n hn
          rcases Nat.lt_succ_iff_lt_or_eq.mp hn with hn | rfl
          · rw [hold n (by omega), hold m (by omega)]
            exact hle n hn
          · rw [Function.update_self, hold m (by omega)]
            exact not_lt.mp hgt

variable {acc : (ℕ → ℤ) × Option ℕ}

/-- Where the delays on the paths fit, no sum overflows, and the critical path to a node is a path. -/
theorem CriticalPaths.exists_path (h : CriticalPaths f delay cycle f.nodes.length acc)
    (horder : ∀ u n, Uses f u n → n < u) (hfits : MeetsTiming f delay int64Max (fun _ => True) cycle)
    (n : ℕ) : n < f.nodes.length → acc.1 n = cpToNodeStart cycle acc.1 n (f.operands n) + delay n ∧
      ∃ path, (∀ i ∈ n :: path, i < f.nodes.length) ∧
        (n :: path).IsChain (fun n operand => Uses f n operand ∧ cycle operand = cycle n ∧ True) ∧
        acc.1 n = ((n :: path).map fun n => (delay n : ℤ)).sum := by
  induction n using Nat.strong_induction_on with
  | _ n ih =>
    intro hn
    have hstart := le_cpToNodeStart cycle acc.1 n (f.operands n)
    obtain ⟨path, hmem, hpath, hsum⟩ : ∃ path, (∀ i ∈ n :: path, i < f.nodes.length) ∧
        (n :: path).IsChain (fun n operand => Uses f n operand ∧ cycle operand = cycle n ∧ True) ∧
        cpToNodeStart cycle acc.1 n (f.operands n) + delay n =
          ((n :: path).map fun n => (delay n : ℤ)).sum := by
      rcases hstart.2.2 with hzero | ⟨o, ho, hcycle, heq⟩
      · refine ⟨[], by simpa using hn, List.IsChain.singleton _, ?_⟩
        simp [hzero]
      · have huses := mem_operands_iff.mp ho
        have hlt := horder n o huses
        obtain ⟨-, path, hmem, hpath, hsum⟩ := ih o hlt (by omega)
        refine ⟨o :: path, List.forall_mem_cons.mpr ⟨hn, hmem⟩,
          .cons_cons ⟨huses, hcycle, trivial⟩ hpath, ?_⟩
        rw [heq, hsum]
        simp only [List.map_cons, List.sum_cons]
        ring
    have hle := hfits (n :: path) (by simp) hmem hpath
    have hexact : acc.1 n = cpToNodeStart cycle acc.1 n (f.operands n) + delay n := by
      rw [h.recurrence n hn]
      exact int64_eq (by have := hstart.1; omega) (hsum ▸ hle)
    exact ⟨hexact, path, hmem, hpath, hexact.trans hsum⟩

/-- No path to a node is longer than the critical path. -/
theorem CriticalPaths.path_le (h : CriticalPaths f delay cycle f.nodes.length acc)
    (horder : ∀ u n, Uses f u n → n < u) (hfits : MeetsTiming f delay int64Max (fun _ => True) cycle)
    (path : List ℕ) : ∀ n, (∀ i ∈ n :: path, i < f.nodes.length) →
      (n :: path).IsChain (fun n operand => Uses f n operand ∧ cycle operand = cycle n ∧ True) →
      ((n :: path).map fun n => (delay n : ℤ)).sum ≤ acc.1 n := by
  induction path with
  | nil =>
    intro n hlt _
    have hstart := (le_cpToNodeStart cycle acc.1 n (f.operands n)).1
    have hexact := (h.exists_path horder hfits n (hlt n (by simp))).1
    simp only [List.map_cons, List.map_nil, List.sum_cons, List.sum_nil]
    omega
  | cons o path ih =>
    intro n hlt hpath
    obtain ⟨⟨huses, hcycle, -⟩, hrest⟩ := List.isChain_cons_cons.mp hpath
    have htail := ih o (fun i hi => hlt i (List.mem_cons_of_mem _ hi)) hrest
    have hstart := (le_cpToNodeStart cycle acc.1 n (f.operands n)).2.1 o
      (mem_operands_iff.mpr huses) hcycle
    have hexact := (h.exists_path horder hfits n (hlt n (by simp))).1
    rw [List.map_cons, List.sum_cons]
    omega

/-- `VerifyTiming` accepts exactly the assignments without a late path, where the delays on the paths
within one cycle fit. -/
theorem verifyTiming_iff (horder : ∀ u n, Uses f u n → n < u) (hne : f.nodes ≠ [])
    (hfits : MeetsTiming f delay int64Max (fun _ => True) cycle) :
    verifyTiming f delay clockPeriodPs cycle = true ↔
      MeetsTiming f delay clockPeriodPs (fun _ => True) cycle := by
  have hpaths := criticalPaths_foldl delay horder cycle f.nodes.length
  unfold verifyTiming
  generalize (List.range f.nodes.length).foldl (verifyTimingStep f delay cycle)
    (fun _ => 0, none) = acc at hpaths
  obtain ⟨nodeCp, maxCpNode⟩ := acc
  have hlength : f.nodes.length ≠ 0 := by simpa using hne
  obtain ⟨m, hm, hsome, hle⟩ := hpaths.isMax.resolve_left fun h => hlength h.1
  obtain rfl : maxCpNode = some m := hsome
  simp only [decide_eq_true_eq]
  constructor
  · intro hclock path hpathne hlt hpath
    rcases path with _ | ⟨n, path⟩
    · exact absurd rfl hpathne
    · calc ((n :: path).map fun n => (delay n : ℤ)).sum ≤ nodeCp n :=
          hpaths.path_le horder hfits path n hlt hpath
        _ ≤ nodeCp m := hle n (hlt n (by simp))
        _ ≤ clockPeriodPs := hclock
  · intro htiming
    obtain ⟨-, path, hmem, hpath, hsum⟩ := hpaths.exists_path horder hfits m hm
    exact hsum.le.trans (htiming (m :: path) (by simp) hmem hpath)

/-! ## A chain of two nodes -/

/-- A parameter and its negation. -/
def negateChain : FunctionBase where
  nodes := [⟨.param, [], .bits 8⟩, ⟨.neg, [0], .bits 8⟩]
  implicitUses := [1]

theorem negateChain_lt_of_uses : ∀ u n, Uses negateChain u n → n < u :=
  fun _ _ => lt_of_uses (by decide)

end PipelineSchedule

end Xls
