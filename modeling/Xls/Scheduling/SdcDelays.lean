/-
# Delay constraints of the SDC scheduler

`xls/scheduling/sdc_scheduler.cc` computes, for all pairs of nodes, the delay of the longest
path between them, and constrains the pairs whose longest path goes over the clock period
with its last node.  The delays are added as `int64_t`.

* `foldl_visitDistances` : the distances are the greatest path delays, where these fit;
* `delayConstraints_iff_verifyTiming` : the constrained pairs decide the timing check.
-/
import Xls.Lib.WeightedPath
import Xls.Scheduling.VerifyTiming

namespace Xls
namespace SdcScheduler

open PipelineSchedule WeightedPath

variable (f : FunctionBase) (delay : ℕ → ℕ)

/-! ## Distances -/

/-- The loop of `ComputeDistancesToNodes` over the distances to one operand: the map of the
node takes the longer path of each ancestor. -/
def extendDistances (nodeDelay : ℤ) (distances operandDistances : ℕ → Option ℤ) : ℕ → Option ℤ :=
  fun a =>
    match operandDistances a with
    | none => distances a
    | some operandDistance =>
      match distances a with
      | none => some (int64 (operandDistance + nodeDelay))
      | some distance =>
        if distance ≥ int64 (operandDistance + nodeDelay) then some distance
        else some (int64 (operandDistance + nodeDelay))

/-- The loop body of `ComputeDistancesToNodes`. -/
def visitDistances (distancesToNode : ℕ → ℕ → Option ℤ) (node : ℕ) : ℕ → ℕ → Option ℤ :=
  let distances := Function.update (distancesToNode node) node (some (delay node : ℤ))
  Function.update distancesToNode node
    ((f.operands node).foldl (fun distances operand =>
      extendDistances (delay node) distances (distancesToNode operand)) distances)

/-- `ComputeDistancesToNodes`: `distancesToNode y x` is the distance from `x` to `y`. -/
def computeDistancesToNodes : ℕ → ℕ → Option ℤ :=
  (List.range f.nodes.length).foldl (visitDistances f delay) fun _ _ => none

/-! ## Constraints -/

/-- The loop body of `ComputeCombinationalDelayConstraints`. -/
def visitConstraints (clockPeriodPs : ℤ) (distancesToNode : ℕ → ℕ → Option ℤ)
    (result : ℕ → List ℕ) (node : ℕ) : ℕ → List ℕ := fun a =>
  match distancesToNode node a with
  | none => result a
  | some distance =>
    if distance > clockPeriodPs ∧ distance - delay node ≤ clockPeriodPs then result a ++ [node]
    else result a

/-- `ComputeCombinationalDelayConstraints`: the nodes which must be later than each node. -/
def computeCombinationalDelayConstraints (clockPeriodPs : ℤ) (distancesToNode : ℕ → ℕ → Option ℤ) :
    ℕ → List ℕ :=
  (List.range f.nodes.length).foldl (visitConstraints delay clockPeriodPs distancesToNode)
    fun _ => []

variable {f delay}

theorem extendDistances_eq {nodeDelay : ℤ} {distances operandDistances : ℕ → Option ℤ} {a : ℕ}
    (h : ∀ d, operandDistances a = some d → int64 (d + nodeDelay) = d + nodeDelay) :
    extendDistances nodeDelay distances operandDistances a =
      raise nodeDelay (distances a) (operandDistances a) := by
  unfold extendDistances raise
  rcases he : operandDistances a with _ | e
  · rfl
  · rcases distances a with _ | d <;> simp only [h e he]

theorem foldl_extendDistances {nodeDelay : ℤ} {distancesToNode : ℕ → ℕ → Option ℤ}
    {operands : List ℕ} {a : ℕ} (h : ∀ o ∈ operands, ∀ d, distancesToNode o a = some d →
      int64 (d + nodeDelay) = d + nodeDelay) (distances : ℕ → Option ℤ) :
    operands.foldl (fun distances operand =>
        extendDistances nodeDelay distances (distancesToNode operand)) distances a =
      operands.foldl (fun x operand => raise nodeDelay x (distancesToNode operand a))
        (distances a) := by
  induction operands generalizing distances with
  | nil => rfl
  | cons o operands ih =>
    obtain ⟨ho, h⟩ := List.forall_mem_cons.mp h
    rw [List.foldl_cons, List.foldl_cons, ih h, extendDistances_eq ho]

/-- The delays of nodes, as integers. -/
def nodeDelay (delay : ℕ → ℕ) (n : ℕ) : ℤ := delay n

/-- The delays on each path fit an `int64_t`. -/
def PathsFit (f : FunctionBase) (delay : ℕ → ℕ) : Prop :=
  ∀ n < f.nodes.length, ∀ a d, Path (Uses f) (nodeDelay delay) a n d → d ≤ int64Max

variable (horder : ∀ u n, Uses f u n → n < u) (hfit : PathsFit f delay)

include horder hfit in
/-- The distances to the first nodes are the greatest path delays, where these fit; there are none to
the others. -/
theorem foldl_visitDistances (k : ℕ) (hk : k ≤ f.nodes.length) :
    let distances := (List.range k).foldl (visitDistances f delay) fun _ _ => none
    (∀ n < k, ∀ a, IsMax (weights (Uses f) (nodeDelay delay) a n) (distances n a)) ∧
      ∀ n ≥ k, ∀ a, distances n a = none := by
  induction k with
  | zero => exact ⟨fun n hn => absurd hn (Nat.not_lt_zero n), fun _ _ _ => rfl⟩
  | succ k ih =>
    obtain ⟨hmax, hnone⟩ := ih (Nat.le_of_succ_le hk)
    rw [List.range_succ, List.foldl_append, List.foldl_cons, List.foldl_nil]
    set distances := (List.range k).foldl (visitDistances f delay) fun _ _ => none
    constructor
    · intro n hn a
      rcases Nat.lt_succ_iff_lt_or_eq.mp hn with hn | rfl
      · rw [visitDistances, Function.update_of_ne hn.ne]
        exact hmax n hn a
      · have hsums : ∀ o ∈ f.operands n, ∀ d, distances o a = some d →
            int64 (d + delay n) = d + delay n := by
          intro o ho d hd
          have huses := mem_operands_iff.mp ho
          have hpath := ((isMax_some_iff (hmax o (horder n o huses) a)).mp hd).1.extend huses
          refine int64_eq ?_ (hfit n hk a _ hpath)
          have hnonneg : 0 ≤ d + (delay n : ℤ) := hpath.nonneg fun m => Int.natCast_nonneg (delay m)
          omega
        rw [visitDistances, Function.update_self, foldl_extendDistances hsums]
        have hinit : Function.update (distances n) n (some (delay n : ℤ)) a =
            if a = n then some (nodeDelay delay n) else none := by
          by_cases ha : a = n
          · rw [ha, Function.update_self, if_pos rfl]
            rfl
          · rw [Function.update_of_ne ha, if_neg ha, hnone n le_rfl]
        rw [hinit]
        apply isMax_foldl fun p => mem_operands_iff
        intro p hp
        exact hmax p (horder n p (mem_operands_iff.mp hp)) a
    · intro n hn a
      rw [visitDistances, Function.update_of_ne (by omega)]
      exact hnone n (by omega) a

theorem mem_foldl_visitConstraints (clockPeriodPs : ℤ) (distancesToNode : ℕ → ℕ → Option ℤ)
    (nodes : List ℕ) (result : ℕ → List ℕ) (a b : ℕ) :
    b ∈ nodes.foldl (visitConstraints delay clockPeriodPs distancesToNode) result a ↔
      b ∈ result a ∨ b ∈ nodes ∧ ∃ d, distancesToNode b a = some d ∧ clockPeriodPs < d ∧
        d - delay b ≤ clockPeriodPs := by
  induction nodes generalizing result with
  | nil => simp
  | cons node nodes ih =>
    rw [List.foldl_cons, ih, List.mem_cons]
    have hstep : b ∈ visitConstraints delay clockPeriodPs distancesToNode result node a ↔
        b ∈ result a ∨ b = node ∧ ∃ d, distancesToNode b a = some d ∧ clockPeriodPs < d ∧
          d - delay b ≤ clockPeriodPs := by
      unfold visitConstraints
      rcases hd : distancesToNode node a with _ | d
      · constructor
        · exact Or.inl
        · rintro (h | ⟨rfl, d, hsome, -⟩)
          · exact h
          · rw [hd] at hsome
            cases hsome
      · by_cases hover : d > clockPeriodPs ∧ d - delay node ≤ clockPeriodPs
        · simp only [hover, and_self, if_true, List.mem_append, List.mem_singleton]
          constructor
          · rintro (h | rfl)
            · exact Or.inl h
            · exact Or.inr ⟨rfl, d, hd, hover⟩
          · rintro (h | ⟨rfl, -⟩)
            · exact Or.inl h
            · exact Or.inr rfl
        · simp only [hover]
          constructor
          · exact Or.inl
          · rintro (h | ⟨rfl, e, hsome, hover'⟩)
            · exact h
            · rw [hd, Option.some.injEq] at hsome
              exact absurd (hsome ▸ hover') hover
    rw [hstep, or_assoc, or_and_right]

theorem mem_computeCombinationalDelayConstraints {clockPeriodPs : ℤ}
    {distancesToNode : ℕ → ℕ → Option ℤ} {a b : ℕ} :
    b ∈ computeCombinationalDelayConstraints f delay clockPeriodPs distancesToNode a ↔
      b < f.nodes.length ∧ ∃ d, distancesToNode b a = some d ∧ clockPeriodPs < d ∧
        d - delay b ≤ clockPeriodPs := by
  rw [computeCombinationalDelayConstraints, mem_foldl_visitConstraints]
  simp

/-! ## Constraints and timing -/

include horder in
/-- Chains of operands in one cycle are paths. -/
theorem meetsTiming_iff_paths {clockPeriodPs : ℤ} {cycle : ℕ → ℤ} :
    MeetsTiming f delay clockPeriodPs (fun _ => True) cycle ↔
      ∀ n < f.nodes.length, ∀ a d,
        Path (Within (Uses f) cycle) (nodeDelay delay) a n d → d ≤ clockPeriodPs := by
  constructor
  · intro htiming n hn a d hpath
    obtain ⟨l, hchain, -, hsum⟩ := path_iff_chain.mp hpath
    rw [← hsum]
    apply htiming (n :: l) (List.cons_ne_nil n l) _ (hchain.imp fun _ _ h => ⟨h.1, h.2, trivial⟩)
    intro m hm
    rcases List.mem_cons.mp hm with rfl | hm
    · exact hn
    · -- the other nodes on the path are operands
      obtain ⟨pre, post, hsplit⟩ := List.append_of_mem hm
      rw [hsplit] at hchain
      obtain ⟨u, hu⟩ : ∃ u, u ∈ (n :: pre).getLast? := ⟨_, List.getLast?_eq_some_getLast (by simp)⟩
      have huses := ((List.isChain_append.mp hchain).2.2 u hu m (by simp)).1
      exact (horder u m huses).trans huses.lt_length
  · intro hpaths path hpathne hlt hchain
    rcases path with _ | ⟨n, l⟩
    · exact absurd rfl hpathne
    · exact hpaths n (hlt n (by simp)) _ _
        (path_iff_chain.mpr ⟨l, hchain.imp fun _ _ h => ⟨h.1, h.2.1⟩, rfl, rfl⟩)

include horder hfit in
/-- The timing check, also of a function without nodes, is about the paths within one cycle. -/
theorem verifyTiming_iff_paths {clockPeriodPs : ℤ} (hclock : 0 ≤ clockPeriodPs) (cycle : ℕ → ℤ) :
    verifyTiming f delay clockPeriodPs cycle = true ↔ ∀ n ∈ {n | n < f.nodes.length}, ∀ a d,
        Path (Within (Uses f) cycle) (nodeDelay delay) a n d → d ≤ clockPeriodPs := by
  by_cases hne : f.nodes = []
  · simp [verifyTiming, hne, hclock]
  · rw [verifyTiming_iff horder hne, meetsTiming_iff_paths horder]
    · rfl
    · exact (meetsTiming_iff_paths horder).mpr fun n hn a d h => hfit n hn a d h.of_within.1

/-- **Delay constraints.**  Where the delays on the paths fit, the distances are the greatest delays of
paths, both ends included.  For delays within the clock period, an assignment of cycles in which no
node comes before an operand keeps the constrained pairs apart exactly when it passes the timing
check. -/
theorem delayConstraints_iff_verifyTiming (horder : ∀ u n, Uses f u n → n < u)
    (hfit : PathsFit f delay) {clockPeriodPs : ℤ}
    (hclock : 0 ≤ clockPeriodPs) (hdelay : ∀ n < f.nodes.length, (delay n : ℤ) ≤ clockPeriodPs)
    {cycle : ℕ → ℤ} (hcausal : ∀ n operand, Uses f n operand → cycle operand ≤ cycle n) :
    (∀ n < f.nodes.length, ∀ a,
      IsMax (weights (Uses f) (nodeDelay delay) a n) (computeDistancesToNodes f delay n a)) ∧
    ((∀ a b, b ∈ computeCombinationalDelayConstraints f delay clockPeriodPs
        (computeDistancesToNodes f delay) a → cycle b ≥ cycle a + 1) ↔
      verifyTiming f delay clockPeriodPs cycle = true) := by
  have hmax := (foldl_visitDistances horder hfit f.nodes.length le_rfl).1
  refine ⟨hmax, ?_⟩
  have hwf : WellFounded fun p n => Uses f n p :=
    Subrelation.wf (fun {p n} h => horder n p h) Nat.lt_wfRel.wf
  have hfits : ∀ n ∈ {n | n < f.nodes.length}, nodeDelay delay n ≤ clockPeriodPs := hdelay
  have hclosed : ∀ n ∈ {n | n < f.nodes.length}, ∀ p, Uses f n p → p ∈ {n | n < f.nodes.length} :=
    fun n hn p hp => (horder n p hp).trans hn
  rw [verifyTiming_iff_paths horder hfit hclock, ← apart_iff hwf hclosed hcausal hfits]
  · constructor
    · intro hconstraints n hn a D hD hover hpair
      apply hconstraints a n
      rw [mem_computeCombinationalDelayConstraints]
      exact ⟨hn, D, (isMax_some_iff (hmax n hn a)).mpr hD, hover, hpair⟩
    · intro hapart a b hb
      obtain ⟨hn, d, hd, hover, hpair⟩ := mem_computeCombinationalDelayConstraints.mp hb
      exact hapart b hn a d ((isMax_some_iff (hmax b hn a)).mp hd) hover hpair
  · -- where there is a path, there is a longest one
    intro n hn a d hpath
    rcases hd : computeDistancesToNodes f delay n a with _ | D
    · have hempty : IsMax _ _ := hmax n hn a
      rw [← computeDistancesToNodes, hd] at hempty
      exact absurd hpath (Set.eq_empty_iff_forall_notMem.mp hempty d)
    · exact ⟨D, (isMax_some_iff (hmax n hn a)).mp hd⟩

/-- The paths of the chain have one node or two. -/
theorem negateChain_path_le {delay : ℕ → ℕ} {n a : ℕ} {d : ℤ}
    (h : Path (Uses negateChain) (nodeDelay delay) a n d) (hn : n < 2) :
    d ≤ delay 0 + delay 1 := by
  cases h with
  | single =>
    obtain rfl | rfl : n = 0 ∨ n = 1 := by omega
    · simp only [nodeDelay]
      omega
    · simp only [nodeDelay]
      omega
  | @extend p _ d hpath huses =>
    have hlt := negateChain_lt_of_uses n p huses
    obtain rfl : p = 0 := by omega
    obtain rfl : n = 1 := by omega
    rcases path_iff.mp hpath with ⟨-, rfl⟩ | ⟨q, huses', -⟩
    · simp only [nodeDelay]
      omega
    · exact absurd (negateChain_lt_of_uses 0 q huses') (Nat.not_lt_zero q)

/-- Two nodes of delay `3` in a row do not fit into a clock period of `5`: the first must come
before the second, and with both in one cycle the timing check fails. -/
theorem delayConstraints_iff_verifyTiming_negateChain : (∀ n < negateChain.nodes.length, ∀ a,
      IsMax (weights (Uses negateChain) (nodeDelay fun _ => 3) a n)
        (computeDistancesToNodes negateChain (fun _ => 3) n a)) ∧
    ((∀ a b, b ∈ computeCombinationalDelayConstraints negateChain (fun _ => 3) 5
        (computeDistancesToNodes negateChain fun _ => 3) a → (0 : ℤ) ≥ 0 + 1) ↔
      verifyTiming negateChain (fun _ => 3) 5 (fun _ => 0) = true) :=
  delayConstraints_iff_verifyTiming negateChain_lt_of_uses
    (fun _ hn _ _ h => (negateChain_path_le h hn).trans (by decide)) (by decide) (by decide)
    fun _ _ _ => le_rfl

/-- The distance over two nodes of delay `2 ^ 62` overflows. -/
theorem not_isMax_computeDistancesToNodes :
    ¬ IsMax (weights (Uses negateChain) (nodeDelay fun _ => 2 ^ 62) 0 1)
      (computeDistancesToNodes negateChain (fun _ => 2 ^ 62) 1 0) := by
  have hdistance : computeDistancesToNodes negateChain (fun _ => 2 ^ 62) 1 0 = some (-2 ^ 63) := by
    decide
  rw [hdistance]
  intro hmax
  have hpath := ((isMax_some_iff hmax).mp rfl).1.nonneg fun _ => Int.natCast_nonneg _
  omega

end SdcScheduler
end Xls
