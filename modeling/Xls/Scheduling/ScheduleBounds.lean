/-
# Schedule bounds

`xls/scheduling/schedule_bounds.cc`: lower and upper bounds on the cycle of each node,
and their propagation along operands and users.  Cycles and delays are added as `int64_t`; the upper
bound `int64Max` stands for no bound.  The nodes are visited in the order of the function,
which is topological.

Both propagations are instances of one sweep, the upper bounds with the signs changed.  Where the
clock period and the bounds leave some room, no sum overflows.

* `Side.foldlM_int64` : the sums are exact;
* `Side.foldlM_visit_spec` : a propagation finds the least cycles;
* `propagateBounds_exact` : both propagations, and the timing check.
-/
import Xls.Lib.EarliestSweep
import Xls.Lib.FoldM
import Xls.Scheduling.VerifyTiming

namespace Xls

/-- `ScheduleBounds`: bounds start at zero and `int64Max`, and are only changed by the two tightening
functions, which keep the lower bound of a node below its upper bound. -/
structure ScheduleBounds where
  lb : ℕ → ℤ
  ub : ℕ → ℤ
  maxLowerBound : ℤ
  minUpperBound : ℤ
  lb_nonneg : ∀ n, 0 ≤ lb n
  lb_le_ub : ∀ n, lb n ≤ ub n
  ub_le : ∀ n, ub n ≤ int64Max

namespace ScheduleBounds

/-- `Reset`. -/
def reset : ScheduleBounds where
  lb _ := 0
  ub _ := int64Max
  maxLowerBound := 0
  minUpperBound := int64Max
  lb_nonneg _ := le_rfl
  lb_le_ub _ := by decide
  ub_le _ := le_rfl

section

variable (b : ScheduleBounds) {node : ℕ} {value : ℤ}

theorem update_le_ub (h : value ≤ b.ub node) :
    ∀ n, Function.update b.lb node (max (b.lb node) value) n ≤ b.ub n :=
  (Function.forall_update_iff _ fun n c => c ≤ b.ub n).mpr
    ⟨max_le (b.lb_le_ub node) h, fun n _ => b.lb_le_ub n⟩

theorem nonneg_update : ∀ n, 0 ≤ Function.update b.lb node (max (b.lb node) value) n :=
  (Function.forall_update_iff _ fun _ c => 0 ≤ c).mpr
    ⟨(b.lb_nonneg node).trans (le_max_left _ _), fun n _ => b.lb_nonneg n⟩

theorem lb_le_update (h : b.lb node ≤ value) :
    ∀ n, b.lb n ≤ Function.update b.ub node (min (b.ub node) value) n :=
  (Function.forall_update_iff _ fun n c => b.lb n ≤ c).mpr
    ⟨le_min (b.lb_le_ub node) h, fun n _ => b.lb_le_ub n⟩

theorem update_le_int64Max : ∀ n, Function.update b.ub node (min (b.ub node) value) n ≤ int64Max :=
  (Function.forall_update_iff _ fun _ c => c ≤ int64Max).mpr
    ⟨(min_le_left _ _).trans (b.ub_le node), fun n _ => b.ub_le n⟩

end

/-- `TightenNodeLb`; `none` is a resource-exhausted error. -/
def tightenNodeLb (b : ScheduleBounds) (node : ℕ) (value : ℤ) : Option ScheduleBounds :=
  if h : value > b.ub node then none
  else some
    { b with
      lb := Function.update b.lb node (max (b.lb node) value)
      maxLowerBound := max b.maxLowerBound value
      lb_nonneg := b.nonneg_update
      lb_le_ub := b.update_le_ub (not_lt.mp h) }

/-- `TightenNodeUb`. -/
def tightenNodeUb (b : ScheduleBounds) (node : ℕ) (value : ℤ) : Option ScheduleBounds :=
  if h : value < b.lb node then none
  else some
    { b with
      ub := Function.update b.ub node (min (b.ub node) value)
      minUpperBound := min b.minUpperBound value
      lb_le_ub := b.lb_le_update (not_lt.mp h)
      ub_le := b.update_le_int64Max }

/-! ## Propagation -/

section Propagate

variable (f : FunctionBase) (delay : ℕ → ℕ) (clockPeriodPs : ℤ)

/-- One operand in the loop of `PropagateLowerBounds`, with the map `in_cycle_delay`. -/
def visitOperand (node : ℕ) (acc : ScheduleBounds × (ℕ → ℤ)) (operand : ℕ) :
    Option (ScheduleBounds × (ℕ → ℤ)) :=
  let (b, inCycleDelay) := acc
  if b.lb operand < b.lb node then some acc
  else if b.lb operand > b.lb node then
    (b.tightenNodeLb node (b.lb operand)).map fun b =>
      (b, Function.update inCycleDelay node (int64 (inCycleDelay operand + delay operand)))
  else
    some (b, Function.update inCycleDelay node
      (max (inCycleDelay node) (int64 (inCycleDelay operand + delay operand))))

/-- The end of the loop body of `PropagateLowerBounds`. -/
def settleLower (node : ℕ) (acc : ScheduleBounds × (ℕ → ℤ)) :
    Option (ScheduleBounds × (ℕ → ℤ)) :=
  let (b, inCycleDelay) := acc
  if delay node > clockPeriodPs then none
  else if int64 (inCycleDelay node + delay node) > clockPeriodPs then
    (b.tightenNodeLb node (int64 (b.lb node + 1))).map fun b =>
    (b, Function.update inCycleDelay node 0)
  else some acc

/-- The loop body of `PropagateLowerBounds`. -/
def visitLower (acc : ScheduleBounds × (ℕ → ℤ)) (node : ℕ) :
    Option (ScheduleBounds × (ℕ → ℤ)) :=
  match (f.operands node).foldlM (visitOperand delay node) acc with
  | some acc => settleLower delay clockPeriodPs node acc
  | none => none

/-- `PropagateLowerBounds`. -/
def propagateLowerBounds (b : ScheduleBounds) : Option ScheduleBounds :=
  ((List.range f.nodes.length).foldlM (visitLower f delay clockPeriodPs) (b, fun _ => 0)).map
    Prod.fst

/-- One user in the loop of `PropagateUpperBounds`; a user without a bound is skipped. -/
def visitUser (node : ℕ) (acc : ScheduleBounds × (ℕ → ℤ)) (user : ℕ) :
    Option (ScheduleBounds × (ℕ → ℤ)) :=
  let (b, inCycleDelay) := acc
  if b.ub user = int64Max ∨ b.ub user > b.ub node then some acc
  else if b.ub user < b.ub node then
    (b.tightenNodeUb node (b.ub user)).map fun b =>
      (b, Function.update inCycleDelay node (int64 (inCycleDelay user + delay user)))
  else
    some (b, Function.update inCycleDelay node
      (max (inCycleDelay node) (int64 (inCycleDelay user + delay user))))

/-- The end of the loop body of `PropagateUpperBounds`. -/
def settleUpper (node : ℕ) (acc : ScheduleBounds × (ℕ → ℤ)) :
    Option (ScheduleBounds × (ℕ → ℤ)) :=
  let (b, inCycleDelay) := acc
  if delay node > clockPeriodPs then none
  else if int64 (inCycleDelay node + delay node) > clockPeriodPs then
    (b.tightenNodeUb node (int64 (b.ub node - 1))).map fun b =>
    (b, Function.update inCycleDelay node 0)
  else some acc

/-- The loop body of `PropagateUpperBounds`. -/
def visitUpper (us : Users f) (acc : ScheduleBounds × (ℕ → ℤ)) (node : ℕ) :
    Option (ScheduleBounds × (ℕ → ℤ)) :=
  match (us.users node).foldlM (visitUser delay node) acc with
  | some acc => settleUpper delay clockPeriodPs node acc
  | none => none

/-- `PropagateUpperBounds`. -/
def propagateUpperBounds (us : Users f) (b : ScheduleBounds) : Option ScheduleBounds :=
  ((List.range f.nodes.length).reverse.foldlM (visitUpper f delay clockPeriodPs us)
    (b, fun _ => 0)).map Prod.fst

end Propagate

/-! ## Schedules -/

open PipelineSchedule

/-- No node before an operand, and the delays fit into the clock period. -/
def IsSchedule (f : FunctionBase) (delay : ℕ → ℕ) (clockPeriodPs : ℤ) (counts : ℤ → Prop)
    (cycle : ℕ → ℤ) : Prop :=
  (∀ n operand, Uses f n operand → cycle operand ≤ cycle n) ∧
  MeetsTiming f delay clockPeriodPs counts cycle

variable {f : FunctionBase} {delay : ℕ → ℕ} {clockPeriodPs : ℤ}

/-! ## Propagation as a sweep -/

/-- One side of the bounds, seen as cycles which grow towards a limit. -/
structure Side where
  cycle : ScheduleBounds → ℕ → ℤ
  limit : ScheduleBounds → ℕ → ℤ
  tighten : ScheduleBounds → ℕ → ℤ → Option ScheduleBounds
  /-- The cycle after a cycle, for sums which are kept in some word. -/
  next : (ℤ → ℤ) → ℤ → ℤ
  /-- The cycles whose nodes are not skipped. -/
  counts : ℤ → Bool

/-- Lower bounds grow towards the upper bounds. -/
def lowerSide : Side := ⟨lb, ub, tightenNodeLb, fun word t => word (t + 1), fun _ => true⟩

/-- Upper bounds, with changed signs, grow towards the lower bounds. -/
def upperSide : Side where
  cycle b n := -b.ub n
  limit b n := -b.lb n
  tighten b n value := b.tightenNodeUb n (-value)
  next word t := -word (-t - 1)
  counts t := decide (t ≠ -int64Max)

@[simp] theorem upperSide_cycle (b : ScheduleBounds) (n : ℕ) : upperSide.cycle b n = -b.ub n := rfl

@[simp] theorem upperSide_limit (b : ScheduleBounds) (n : ℕ) : upperSide.limit b n = -b.lb n := rfl

namespace Side

/-- Tightening a bound to a higher value either meets the limit or sets the bound. -/
structure Lawful (side : Side) : Prop where
  tighten : ∀ {b : ScheduleBounds} {node : ℕ} {value : ℤ}, side.cycle b node < value →
    (side.limit b node < value ∧ side.tighten b node value = none) ∨
    (¬ side.limit b node < value ∧ ∃ b', side.tighten b node value = some b' ∧
      side.limit b' = side.limit b ∧ side.cycle b' = Function.update (side.cycle b) node value)
  next : ∀ t, side.next id t = t + 1

/-- The common form of `visitOperand` and `visitUser`, for sums which are kept in some word. -/
def visitNeighbour (side : Side) (word : ℤ → ℤ) (delay : ℕ → ℕ) (node : ℕ)
    (acc : ScheduleBounds × (ℕ → ℤ)) (p : ℕ) : Option (ScheduleBounds × (ℕ → ℤ)) :=
  if side.counts (side.cycle acc.1 p) = false ∨ side.cycle acc.1 p < side.cycle acc.1 node then
    some acc
  else if side.cycle acc.1 node < side.cycle acc.1 p then
    (side.tighten acc.1 node (side.cycle acc.1 p)).map fun b =>
      (b, Function.update acc.2 node (word (acc.2 p + delay p)))
  else some (acc.1, Function.update acc.2 node (max (acc.2 node) (word (acc.2 p + delay p))))

/-- The common form of `settleLower` and `settleUpper`. -/
def settle (side : Side) (word : ℤ → ℤ) (delay : ℕ → ℕ) (clockPeriodPs : ℤ) (node : ℕ)
    (acc : ScheduleBounds × (ℕ → ℤ)) : Option (ScheduleBounds × (ℕ → ℤ)) :=
  if clockPeriodPs < delay node then none
  else if clockPeriodPs < word (acc.2 node + delay node) then
    (side.tighten acc.1 node (side.next word (side.cycle acc.1 node))).map fun b =>
      (b, Function.update acc.2 node 0)
  else some acc

/-- The common form of `visitLower` and `visitUpper`. -/
def visit (side : Side) (word : ℤ → ℤ) (neighbours : ℕ → List ℕ) (delay : ℕ → ℕ)
    (clockPeriodPs : ℤ) (acc : ScheduleBounds × (ℕ → ℤ)) (node : ℕ) :
    Option (ScheduleBounds × (ℕ → ℤ)) :=
  match (neighbours node).foldlM (side.visitNeighbour word delay node) acc with
  | some acc => side.settle word delay clockPeriodPs node acc
  | none => none

/-- The sweep which propagates the bounds of a side. -/
def problem (side : Side) (neighbours : ℕ → List ℕ) (delay : ℕ → ℕ) (clockPeriodPs : ℤ)
    (b : ScheduleBounds) : EarliestSweep.Problem ℕ where
  preds := neighbours
  delay n := delay n
  delay_nonneg _ := Int.natCast_nonneg _
  clock := clockPeriodPs
  limit := side.limit b
  counts := side.counts

/-- The state of the sweep for a state of the propagation. -/
def state (side : Side) (acc : ScheduleBounds × (ℕ → ℤ)) : EarliestSweep.State ℕ :=
  ⟨side.cycle acc.1, acc.2⟩

/-- The limits are kept, and the bounds are unchanged or some cycle has grown. -/
def Grown (side : Side) (b : ScheduleBounds) (acc : ScheduleBounds × (ℕ → ℤ)) : Prop :=
  side.limit acc.1 = side.limit b ∧ (acc.1 = b ∨ side.cycle b < side.cycle acc.1)

variable {side : Side} {neighbours : ℕ → List ℕ} {delay : ℕ → ℕ} {clockPeriodPs : ℤ}
  {b : ScheduleBounds} {acc : ScheduleBounds × (ℕ → ℤ)} {node : ℕ}

/-- A tightened bound keeps `Grown`. -/
theorem Grown.tighten {c : ScheduleBounds} {value : ℤ} (h : side.Grown b acc)
    (hlt : side.cycle acc.1 node < value) (hlimit : side.limit c = side.limit acc.1)
    (hcycle : side.cycle c = Function.update (side.cycle acc.1) node value)
    (arrival : ℕ → ℤ) : side.Grown b (c, arrival) := by
  have hgrew : side.cycle acc.1 < side.cycle c := by
    rw [hcycle]
    exact lt_update_self_iff.mpr hlt
  refine ⟨hlimit.trans h.1, .inr ?_⟩
  rcases h.2 with heq | hlt'
  · rw [← heq]
    exact hgrew
  · exact hlt'.trans hgrew

variable (hside : side.Lawful) (hlimit : ∀ b n, side.cycle b n ≤ side.limit b n)
  (hexempt : ∀ t, side.counts t = false → ∀ b n, t ≤ side.cycle b n)

section

include hside

theorem visitNeighbour_sim (h : side.Grown b acc) (p : ℕ) :
    EarliestSweep.visitPred (side.problem neighbours delay clockPeriodPs b) node (side.state acc) p =
      (side.visitNeighbour id delay node acc p).map side.state ∧
    ∀ acc', side.visitNeighbour id delay node acc p = some acc' → side.Grown b acc' := by
  unfold EarliestSweep.visitPred visitNeighbour
  simp only [problem, state, id]
  by_cases hskip : side.counts (side.cycle acc.1 p) = false ∨
      side.cycle acc.1 p < side.cycle acc.1 node
  · simp only [hskip]
    refine ⟨rfl, ?_⟩
    rintro acc' ⟨⟩
    exact h
  · simp only [hskip]
    by_cases hgt : side.cycle acc.1 node < side.cycle acc.1 p
    · simp only [hgt, ← h.1]
      rcases hside.tighten hgt with ⟨hlimit, hnone⟩ | ⟨hlimit, c, hsome, hlim, hcycle⟩
      · simp only [hlimit, hnone]
        exact ⟨rfl, by simp⟩
      · simp only [hlimit, hsome]
        refine ⟨by simp [state, hcycle], ?_⟩
        rintro acc' ⟨⟩
        exact h.tighten hgt hlim hcycle _
    · simp only [hgt]
      refine ⟨rfl, ?_⟩
      rintro acc' ⟨⟩
      exact h

theorem settle_sim (h : side.Grown b acc) :
    EarliestSweep.settle (side.problem neighbours delay clockPeriodPs b) node (side.state acc) =
      (side.settle id delay clockPeriodPs node acc).map side.state ∧
    ∀ acc', side.settle id delay clockPeriodPs node acc = some acc' → side.Grown b acc' := by
  unfold EarliestSweep.settle settle
  simp only [problem, state, hside.next]
  simp only [id]
  by_cases hdelay : clockPeriodPs < delay node
  · simp only [hdelay]
    exact ⟨rfl, by simp⟩
  · simp only [hdelay]
    by_cases hover : clockPeriodPs < acc.2 node + delay node
    · simp only [hover, ← h.1]
      have hlt := lt_add_one (side.cycle acc.1 node)
      rcases hside.tighten hlt with ⟨hlimit, hnone⟩ | ⟨hlimit, c, hsome, hlim, hcycle⟩
      · simp only [hlimit, hnone]
        exact ⟨rfl, by simp⟩
      · simp only [hlimit, hsome]
        refine ⟨by simp [state, hcycle], ?_⟩
        rintro acc' ⟨⟩
        exact h.tighten hlt hlim hcycle _
    · simp only [hover]
      refine ⟨rfl, ?_⟩
      rintro acc' ⟨⟩
      exact h

theorem visit_sim (h : side.Grown b acc) :
    EarliestSweep.visit (side.problem neighbours delay clockPeriodPs b) (side.state acc) node =
      (side.visit id neighbours delay clockPeriodPs acc node).map side.state ∧
    ∀ acc', side.visit id neighbours delay clockPeriodPs acc node = some acc' →
      side.Grown b acc' := by
  obtain ⟨hfold, hinv⟩ := foldlM_map_of_step (l := neighbours node) (I := side.Grown b)
    (g := EarliestSweep.visitPred (side.problem neighbours delay clockPeriodPs b) node)
    (h := side.visitNeighbour id delay node)
    (fun p _ _ hacc => visitNeighbour_sim hside hacc p) h
  unfold EarliestSweep.visit visit
  rw [show (side.problem neighbours delay clockPeriodPs b).preds node = neighbours node from rfl,
    hfold]
  rcases hacc : (neighbours node).foldlM (side.visitNeighbour id delay node) acc with _ | acc'
  · exact ⟨rfl, by simp⟩
  · exact settle_sim hside (hinv acc' hacc)

end

variable (neighbours delay clockPeriodPs) in
include hside in
/-- The loop over the nodes is the sweep, and leaves the bounds as they are when the cycles
do not change. -/
theorem foldlM_visit_sim (order : List ℕ) (b : ScheduleBounds) :
    EarliestSweep.sweep (side.problem neighbours delay clockPeriodPs b) order
        ⟨side.cycle b, fun _ => 0⟩ =
      (order.foldlM (side.visit id neighbours delay clockPeriodPs) (b, fun _ => 0)).map side.state ∧
    ∀ acc, order.foldlM (side.visit id neighbours delay clockPeriodPs) (b, fun _ => 0) = some acc →
      side.limit acc.1 = side.limit b ∧ (side.cycle acc.1 = side.cycle b → acc.1 = b) := by
  have hstart : side.Grown b (b, fun _ => 0) := ⟨rfl, .inl rfl⟩
  obtain ⟨hfold, hinv⟩ := foldlM_map_of_step (l := order) (I := side.Grown b)
    (h := side.visit id neighbours delay clockPeriodPs)
    (g := EarliestSweep.visit (side.problem neighbours delay clockPeriodPs b))
    (fun _ _ _ hacc => visit_sim hside hacc) hstart
  refine ⟨hfold, ?_⟩
  intro acc hacc
  obtain ⟨hlimit, hgrown⟩ := hinv acc hacc
  refine ⟨hlimit, fun hcycle => ?_⟩
  rcases hgrown with heq | hlt
  · exact heq
  · rw [hcycle] at hlt
    exact absurd hlt (lt_irrefl _)

/-! ## Sums which do not overflow -/

/-- Where the clock period leaves room for each delay, and a later cycle is needed only where there
is one, no sum of the propagation overflows. -/
structure Fits (side : Side) (neighbours : ℕ → List ℕ) (delay : ℕ → ℕ) (clockPeriodPs : ℤ)
    (order : List ℕ) (b : ScheduleBounds) : Prop where
  room : ∀ n ∈ order, (delay n : ℤ) ≤ clockPeriodPs → clockPeriodPs + delay n ≤ int64Max
  next : ∀ n ∈ order, ∀ t, side.cycle b n ≤ t → t ≤ side.limit b n →
    (∀ c, EarliestSweep.Feasible (side.problem neighbours delay clockPeriodPs b) order c →
      (∀ m ∈ order, side.cycle b m ≤ c m) → t + 1 ≤ c n) → side.next int64 t = t + 1

variable {order done : List ℕ}

include hside hlimit hexempt in
/-- One node, whose neighbours have been visited. -/
theorem visit_int64 (hfits : side.Fits neighbours delay clockPeriodPs order b)
    (hinv : EarliestSweep.Inv (side.problem neighbours delay clockPeriodPs b) order (side.cycle b)
      done (side.state acc)) (hgrown : side.Grown b acc) (hn : node ∈ order) (hnew : node ∉ done)
    (hdone : ∀ m ∈ done, m ∈ order) (hpreds : ∀ p ∈ neighbours node, p ∈ done) :
    side.visit int64 neighbours delay clockPeriodPs acc node =
      side.visit id neighbours delay clockPeriodPs acc node := by
  have hbelow : ∀ m ∈ done, ∀ x : ℤ, 0 ≤ x → x ≤ clockPeriodPs → int64 x = x := by
    intro m hm x hx hle
    have hnonneg : (0 : ℤ) ≤ acc.2 m := hinv.arrival_nonneg m hm
    have hsum : acc.2 m + delay m ≤ clockPeriodPs := hinv.fits m hm
    have := hfits.room m (hdone m hm) (by omega)
    exact int64_eq (by omega) (by omega)
  -- the neighbours arrive within the clock period
  have hloop : (neighbours node).foldlM (side.visitNeighbour int64 delay node) acc =
      (neighbours node).foldlM (side.visitNeighbour id delay node) acc := by
    have h := (foldlM_map_of_step (π := id) (l := neighbours node)
      (I := fun s : ScheduleBounds × (ℕ → ℤ) => ∀ p ∈ done, s.2 p = acc.2 p)
      (g := side.visitNeighbour int64 delay node) (h := side.visitNeighbour id delay node)
      (s := acc) ?_ fun _ _ => rfl).1
    · rwa [Option.map_id] at h
    intro p hp s hs
    have hpd := hpreds p hp
    have hne : ∀ q ∈ done, q ≠ node := by
      rintro q hq rfl
      exact hnew hq
    have hword : int64 (s.2 p + delay p) = s.2 p + delay p := by
      have hnonneg : (0 : ℤ) ≤ acc.2 p := hinv.arrival_nonneg p hpd
      rw [hs p hpd]
      exact hbelow p hpd _ (by omega) (hinv.fits p hpd)
    unfold visitNeighbour
    rw [id, hword, Option.map_id]
    refine ⟨rfl, fun s' hs' q hq => ?_⟩
    rw [← hs q hq]
    split_ifs at hs'
    · cases hs'
      rfl
    · obtain ⟨b', -, rfl⟩ := Option.map_eq_some_iff.mp hs'
      exact Function.update_of_ne (hne q hq) _ _
    · cases hs'
      exact Function.update_of_ne (hne q hq) _ _
  unfold visit
  rw [hloop]
  obtain ⟨hfold, hgrown'⟩ := foldlM_map_of_step (l := neighbours node) (I := side.Grown b)
    (g := EarliestSweep.visitPred (side.problem neighbours delay clockPeriodPs b) node)
    (h := side.visitNeighbour id delay node)
    (fun p _ _ hacc => visitNeighbour_sim hside hacc p) hgrown
  rcases hacc : (neighbours node).foldlM (side.visitNeighbour id delay node) acc with _ | acc'
  · rfl
  rw [hacc] at hfold
  rcases hinv.loop hnew hpreds (fun t ht => hexempt t ht b node) with
    ⟨k, a, hloop', hj, -, hnonneg, hle⟩ | ⟨hnone, -⟩
  · have hstate := Option.some.inj (hfold.symm.trans hloop')
    have hcycle : side.cycle acc'.1 node = k := by
      have h := congrArg (fun s => s.cycle node) hstate
      rwa [EarliestSweep.State.set_cycle_self] at h
    have harrival : acc'.2 node = a := by
      have h := congrArg (fun s => s.arrival node) hstate
      rwa [EarliestSweep.State.set_arrival_self] at h
    unfold settle
    dsimp only
    rw [hcycle, harrival, id]
    by_cases hdelay : clockPeriodPs < delay node
    · rw [if_pos hdelay, if_pos hdelay]
    have hroom := hfits.room node hn (not_lt.mp hdelay)
    have hle' : a ≤ clockPeriodPs := by
      rcases hle with rfl | hle
      · exact (Int.natCast_nonneg _).trans (not_lt.mp hdelay)
      · exact hle
    rw [int64_eq (x := a + delay node) (by omega) (by omega)]
    by_cases hover : clockPeriodPs < a + delay node
    · rw [hside.next, hfits.next node hn k hj.le (hj.limit (hlimit b node)) fun c hc hbound =>
        hinv.next_le hn hpreds hj hover hc hbound]
    · rw [if_neg hover, if_neg hover]
  · cases hfold.symm.trans hnone

variable (b) in
include hside hlimit hexempt in
/-- The sums of a propagation are exact. -/
theorem foldlM_int64 (hnodup : order.Nodup)
    (hpreds : ∀ pre n post, order = pre ++ n :: post → ∀ p ∈ neighbours n, p ∈ pre)
    (hfits : side.Fits neighbours delay clockPeriodPs order b) :
    order.foldlM (side.visit int64 neighbours delay clockPeriodPs) (b, fun _ => 0) =
      order.foldlM (side.visit id neighbours delay clockPeriodPs) (b, fun _ => 0) := by
  have hrest : ∀ (rest done : List ℕ) (acc : ScheduleBounds × (ℕ → ℤ)), order = done ++ rest →
      EarliestSweep.Inv (side.problem neighbours delay clockPeriodPs b) order (side.cycle b) done
        (side.state acc) → side.Grown b acc →
      rest.foldlM (side.visit int64 neighbours delay clockPeriodPs) acc =
        rest.foldlM (side.visit id neighbours delay clockPeriodPs) acc := by
    intro rest
    induction rest with
    | nil => exact fun _ _ _ _ _ => rfl
    | cons n rest ih =>
      intro done acc horder hinv hgrown
      have hn : n ∈ order := horder ▸ List.mem_append_right done List.mem_cons_self
      have hnew : n ∉ done := fun hmem =>
        (List.nodup_append.mp (horder ▸ hnodup)).2.2 n hmem n List.mem_cons_self rfl
      rw [List.foldlM_cons, List.foldlM_cons, visit_int64 hside hlimit hexempt hfits hinv hgrown hn
        hnew (fun m hm => horder ▸ List.mem_append_left _ hm) (hpreds done n rest horder)]
      obtain ⟨hsim, hgrown'⟩ :
          EarliestSweep.visit (side.problem neighbours delay clockPeriodPs b) (side.state acc) n =
            (side.visit id neighbours delay clockPeriodPs acc n).map side.state ∧
          ∀ acc', side.visit id neighbours delay clockPeriodPs acc n = some acc' →
            side.Grown b acc' := visit_sim hside hgrown
      rcases hvisit : side.visit id neighbours delay clockPeriodPs acc n with _ | acc'
      · rfl
      · rw [hvisit] at hsim
        rcases hinv.visit hn hnew (hpreds done n rest horder) (hlimit b n)
          (fun t ht => hexempt t ht b n) with ⟨s', hs', hinv'⟩ | ⟨hnone, -⟩
        · rw [← Option.some.inj (hsim.symm.trans hs')] at hinv'
          exact ih (done ++ [n]) acc' (by rw [horder, List.append_assoc]; rfl) hinv'
            (hgrown' acc' hvisit)
        · rw [hnone] at hsim
          cases hsim
  exact hrest order [] (b, fun _ => 0) rfl EarliestSweep.Inv.nil ⟨rfl, .inl rfl⟩

/-- A node which is longer than the clock period fails. -/
theorem foldlM_visit_of_late {word : ℤ → ℤ} (hn : node ∈ order) (hdelay : clockPeriodPs < delay node)
    (acc : ScheduleBounds × (ℕ → ℤ)) :
    order.foldlM (side.visit word neighbours delay clockPeriodPs) acc = none := by
  induction order generalizing acc with
  | nil => cases hn
  | cons n order ih =>
    rw [List.foldlM_cons]
    rcases List.mem_cons.mp hn with rfl | hn
    · have hnone : side.visit word neighbours delay clockPeriodPs acc node = none := by
        unfold visit
        split
        · exact if_pos hdelay
        · rfl
      rw [hnone]
      rfl
    · rcases side.visit word neighbours delay clockPeriodPs acc n with _ | acc'
      · rfl
      · exact ih hn acc'

variable (delay clockPeriodPs) in
/-- The propagation of a side finds the least feasible cycles above the bounds, or there are
none within the limits; running it again changes nothing. -/
theorem foldlM_visit_spec (hside : side.Lawful) (hlimit : ∀ b n, side.cycle b n ≤ side.limit b n)
    (hexempt : ∀ t, side.counts t = false → ∀ b n, t ≤ side.cycle b n)
    (hnodup : order.Nodup)
    (hpreds : ∀ pre n post, order = pre ++ n :: post → ∀ p ∈ neighbours n, p ∈ pre)
    (b : ScheduleBounds) (hfits : (∀ n ∈ order, (delay n : ℤ) ≤ clockPeriodPs) →
      side.Fits neighbours delay clockPeriodPs order b) :
    (order.foldlM (side.visit int64 neighbours delay clockPeriodPs) (b, fun _ => 0) = none ↔
      (∃ n ∈ order, clockPeriodPs < delay n) ∨
      ¬ ∃ c, EarliestSweep.Feasible (side.problem neighbours delay clockPeriodPs b) order c ∧
        ∀ n ∈ order, side.cycle b n ≤ c n ∧ c n ≤ side.limit b n) ∧
    ∀ acc, order.foldlM (side.visit int64 neighbours delay clockPeriodPs) (b, fun _ => 0) = some acc →
      side.limit acc.1 = side.limit b ∧
      (∀ n ∈ order, side.cycle b n ≤ side.cycle acc.1 n) ∧
      EarliestSweep.Feasible (side.problem neighbours delay clockPeriodPs b) order
        (side.cycle acc.1) ∧
      (∀ c, EarliestSweep.Feasible (side.problem neighbours delay clockPeriodPs b) order c →
        (∀ n ∈ order, side.cycle b n ≤ c n) → ∀ n ∈ order, side.cycle acc.1 n ≤ c n) ∧
      ∃ acc', order.foldlM (side.visit int64 neighbours delay clockPeriodPs) (acc.1, fun _ => 0) =
        some acc' ∧ acc'.1 = acc.1 := by
  by_cases hlate : ∃ n ∈ order, clockPeriodPs < delay n
  · obtain ⟨n, hn, hdelay⟩ := hlate
    rw [foldlM_visit_of_late hn hdelay]
    refine ⟨iff_of_true rfl (.inl ⟨n, hn, hdelay⟩), ?_⟩
    rintro acc ⟨⟩
  have hfits := hfits fun n hn => not_lt.mp fun hlt => hlate ⟨n, hn, hlt⟩
  rw [foldlM_int64 b hside hlimit hexempt hnodup hpreds hfits]
  have hspec := fun b => EarliestSweep.sweep_spec (side.cycle b) hnodup
    (P := side.problem neighbours delay clockPeriodPs b) hpreds
    (fun n _ => hlimit b n) (fun t ht n _ => hexempt t ht b n)
  obtain ⟨hsim, hsame⟩ := foldlM_visit_sim neighbours delay clockPeriodPs hside order b
  rcases hspec b with ⟨s, hs, hrest, hbounds, hfeasible, hleast⟩ | ⟨hs, hnone⟩
  · rw [hs] at hsim
    obtain ⟨acc, hacc, hstate⟩ := Option.map_eq_some_iff.mp hsim.symm
    have hcycle : side.cycle acc.1 = s.cycle := by rw [← hstate, state]
    have hlim := (hsame acc hacc).1
    rw [← hcycle] at hrest hbounds hfeasible hleast
    refine ⟨?_, ?_⟩
    · rw [hacc]
      refine iff_of_false (by simp) ?_
      rintro (⟨n, hn, hdelay⟩ | hno)
      · have hone := hfeasible.timing [n] (by simp) (by simpa using hn) (List.IsChain.singleton _)
        exact absurd hdelay (not_lt.mpr hone)
      · exact hno ⟨_, hfeasible, hbounds⟩
    · rw [hacc]
      rintro acc' ⟨⟩
      refine ⟨hlim, fun n hn => (hbounds n hn).1, hfeasible, hleast, ?_⟩
      -- from its own result the sweep finds the same cycles
      have hproblem : side.problem neighbours delay clockPeriodPs acc.1 =
          side.problem neighbours delay clockPeriodPs b := by
        rw [problem, problem, hlim]
      -- a later cycle is not needed
      have hfits' : side.Fits neighbours delay clockPeriodPs order acc.1 := by
        refine ⟨hfits.room, fun n hn t hle _ hnext => ?_⟩
        rw [hproblem] at hnext
        have := hnext _ hfeasible fun _ _ => le_rfl
        omega
      rw [foldlM_int64 acc.1 hside hlimit hexempt hnodup hpreds hfits']
      obtain ⟨hsim', hsame'⟩ := foldlM_visit_sim neighbours delay clockPeriodPs hside order acc.1
      rcases hspec acc.1 with ⟨s', hs', hrest', hbounds', -, hleast'⟩ | ⟨-, hnone'⟩
      · rw [hs'] at hsim'
        obtain ⟨acc', hacc', hstate'⟩ := Option.map_eq_some_iff.mp hsim'.symm
        refine ⟨acc', hacc', (hsame' acc' hacc').2 ?_⟩
        have hcycle' : side.cycle acc'.1 = s'.cycle := by rw [← hstate', state]
        rw [hcycle']
        funext n
        by_cases hn : n ∈ order
        · apply le_antisymm
          · rw [hproblem] at hleast'
            exact hleast' _ hfeasible (fun n _ => le_rfl) n hn
          · exact (hbounds' n hn).1
        · exact hrest' n hn
      · rw [hproblem] at hnone'
        rcases hnone' with ⟨n, hn, hdelay⟩ | hno
        · have hone := hfeasible.timing [n] (by simp) (by simpa using hn) (List.IsChain.singleton _)
          exact absurd hdelay (not_lt.mpr hone)
        · obtain ⟨n, hn, hlt⟩ := hno _ hfeasible fun n _ => le_rfl
          exact absurd hlt (not_lt.mpr (hbounds n hn).2)
  · rw [hs] at hsim
    have hfold := Option.map_eq_none_iff.mp hsim.symm
    refine ⟨?_, ?_⟩
    · rw [hfold]
      refine iff_of_true rfl ?_
      rcases hnone with hdelay | hno
      · exact .inl hdelay
      · refine .inr ?_
        rintro ⟨c, hc, hbounds⟩
        obtain ⟨n, hn, hlt⟩ := hno c hc fun n hn => (hbounds n hn).1
        exact absurd hlt (not_lt.mpr (hbounds n hn).2)
    · rw [hfold]
      rintro acc ⟨⟩

end Side

/-! ## Lower bounds -/

theorem lowerSide_lawful : lowerSide.Lawful := by
  refine ⟨?_, fun _ => rfl⟩
  intro b node value h
  simp only [lowerSide] at h ⊢
  unfold tightenNodeLb
  split
  · rename_i hlt
    exact .inl ⟨hlt, rfl⟩
  · rename_i hle
    refine .inr ⟨hle, _, rfl, rfl, ?_⟩
    show Function.update b.lb node (max (b.lb node) value) = _
    rw [max_eq_right h.le]

theorem propagateLowerBounds_eq (b : ScheduleBounds) :
    propagateLowerBounds f delay clockPeriodPs b =
      ((List.range f.nodes.length).foldlM (lowerSide.visit int64 f.operands delay clockPeriodPs)
        (b, fun _ => 0)).map Prod.fst := by
  have hneighbour : ∀ node, visitOperand delay node = lowerSide.visitNeighbour int64 delay node := by
    intro node
    funext acc operand
    simp only [Side.visitNeighbour, lowerSide, Bool.true_eq_false, false_or]
    rfl
  have hvisit : visitLower f delay clockPeriodPs =
      lowerSide.visit int64 f.operands delay clockPeriodPs := by
    funext acc node
    rw [visitLower, hneighbour]
    rfl
  rw [propagateLowerBounds, hvisit]

theorem lower_feasible_iff {b : ScheduleBounds} {c : ℕ → ℤ} :
    EarliestSweep.Feasible (lowerSide.problem f.operands delay clockPeriodPs b)
        (List.range f.nodes.length) c ↔
      IsSchedule f delay clockPeriodPs (fun _ => True) c := by
  constructor
  · rintro ⟨hmono, htiming⟩
    refine ⟨fun n o h => hmono n (List.mem_range.mpr h.lt_length) o (mem_operands_iff.mpr h), ?_⟩
    intro path hne hlt hpath
    refine htiming path hne (fun n hn => List.mem_range.mpr (hlt n hn)) (hpath.imp ?_)
    rintro n o ⟨huses, hcycle, -⟩
    exact ⟨mem_operands_iff.mpr huses, hcycle, rfl⟩
  · rintro ⟨hmono, htiming⟩
    refine ⟨fun n _ o ho => hmono n o (mem_operands_iff.mp ho), ?_⟩
    intro path hne hmem hpath
    refine htiming path hne (fun n hn => List.mem_range.mp (hmem n hn)) (hpath.imp ?_)
    rintro n o ⟨ho, hcycle, -⟩
    exact ⟨mem_operands_iff.mp ho, hcycle, trivial⟩

/-! ## Upper bounds -/

theorem upperSide_lawful : upperSide.Lawful := by
  refine ⟨?_, fun t => by simp only [upperSide, id]; omega⟩
  intro b node value h
  simp only [upperSide] at h ⊢
  unfold tightenNodeUb
  split
  · exact .inl ⟨by omega, rfl⟩
  · refine .inr ⟨by omega, _, rfl, rfl, ?_⟩
    funext n
    show -Function.update b.ub node (min (b.ub node) (-value)) n = _
    rw [min_eq_right (by omega)]
    by_cases hn : n = node
    · subst hn
      simp
    · simp [hn]

theorem propagateUpperBounds_eq (us : Users f) (b : ScheduleBounds) :
    propagateUpperBounds f delay clockPeriodPs us b =
      ((List.range f.nodes.length).reverse.foldlM (upperSide.visit int64 us.users delay clockPeriodPs)
        (b, fun _ => 0)).map Prod.fst := by
  have hneighbour : ∀ node, visitUser delay node = upperSide.visitNeighbour int64 delay node := by
    intro node
    funext acc user
    simp [visitUser, Side.visitNeighbour, upperSide]
  have hsettle : ∀ node, settleUpper delay clockPeriodPs node =
      upperSide.settle int64 delay clockPeriodPs node := by
    intro node
    funext acc
    simp [settleUpper, Side.settle, upperSide, sub_eq_add_neg, add_comm]
  have hvisit : visitUpper f delay clockPeriodPs us =
      upperSide.visit int64 us.users delay clockPeriodPs := by
    funext acc node
    rw [visitUpper, hneighbour, hsettle]
    rfl
  rw [propagateUpperBounds, hvisit]

theorem upper_feasible_iff (us : Users f) (horder : ∀ u n, Uses f u n → n < u)
    {b : ScheduleBounds} {c : ℕ → ℤ} :
    EarliestSweep.Feasible (upperSide.problem us.users delay clockPeriodPs b)
        (List.range f.nodes.length).reverse (fun n => -c n) ↔
      IsSchedule f delay clockPeriodPs (· ≠ int64Max) c := by
  -- paths along users are paths along operands, read backwards
  have hsum : ∀ path : List ℕ, (path.reverse.map fun n => (delay n : ℤ)).sum =
      (path.map fun n => (delay n : ℤ)).sum := by
    intro path
    rw [List.map_reverse, List.sum_reverse]
  constructor
  · rintro ⟨hmono, htiming⟩
    refine ⟨fun n o h => ?_, ?_⟩
    · have ho : o ∈ (List.range f.nodes.length).reverse := by
        have hlt := (horder n o h).trans h.lt_length
        simpa using hlt
      exact neg_le_neg_iff.mp (hmono o ho n (us.mem_iff.mpr h))
    · intro path hne hlt hpath
      rw [← hsum]
      refine htiming path.reverse (by simpa using hne) (by simpa using hlt) ?_
      refine List.isChain_reverse.mpr (hpath.imp ?_)
      rintro n o ⟨huses, hcycle, hcounts⟩
      refine ⟨us.mem_iff.mpr huses, congrArg Neg.neg hcycle.symm, ?_⟩
      simpa [Side.problem, upperSide, hcycle] using hcounts
  · rintro ⟨hmono, htiming⟩
    refine ⟨fun n _ u hu => neg_le_neg_iff.mpr (hmono u n (us.mem_iff.mp hu)), ?_⟩
    intro path hne hmem hpath
    refine le_of_eq_of_le (hsum path).symm ?_
    refine htiming path.reverse (by simpa using hne) (by simpa using hmem) ?_
    refine List.isChain_reverse.mpr (hpath.imp ?_)
    rintro o n ⟨hn, hcycle, hcounts⟩
    have hcycle : c o = c n := (neg_inj.mp hcycle).symm
    refine ⟨us.mem_iff.mp hn, hcycle, ?_⟩
    simpa [Side.problem, upperSide, hcycle] using hcounts

/-! ## Exactness of the propagation -/

theorem mem_left_of_pairwise {R : ℕ → ℕ → Prop} {l pre post : List ℕ} {n m : ℕ}
    (hl : l.Pairwise R) (heq : l = pre ++ n :: post) (hm : m ∈ l) (hne : m ≠ n)
    (hnot : ¬ R n m) : m ∈ pre := by
  subst heq
  rcases List.mem_append.mp hm with hpre | hrest
  · exact hpre
  · rcases List.mem_cons.mp hrest with rfl | hpost
    · exact absurd rfl hne
    · have hcons := (List.pairwise_append.mp hl).2.1
      exact absurd ((List.pairwise_cons.mp hcons).1 m hpost) hnot

section

variable (horder : ∀ u n, Uses f u n → n < u)
  (hroom : ∀ n < f.nodes.length, (delay n : ℤ) ≤ clockPeriodPs → clockPeriodPs + delay n ≤ int64Max)

include horder hroom

/-- Nodes in a cycle each, behind the lower bounds, are a schedule. -/
theorem lower_fits {b : ScheduleBounds}
    (hlb : ∀ n < f.nodes.length, b.lb n + f.nodes.length ≤ int64Max)
    (hdelay : ∀ n ∈ List.range f.nodes.length, (delay n : ℤ) ≤ clockPeriodPs) :
    lowerSide.Fits f.operands delay clockPeriodPs (List.range f.nodes.length) b := by
  refine ⟨fun n hn => hroom n (List.mem_range.mp hn), fun n hn t hle _ hnext => ?_⟩
  have hschedule : IsSchedule f delay clockPeriodPs (fun _ => True)
      fun m => int64Max - f.nodes.length + m := by
    refine ⟨fun n o h => ?_, fun path hne hlt hpath => ?_⟩
    · have := horder n o h
      dsimp only
      omega
    rcases path with - | ⟨n, - | ⟨o, path⟩⟩
    · exact absurd rfl hne
    · simpa using hdelay n (List.mem_range.mpr (hlt n (by simp)))
    · obtain ⟨huses, hcycle, -⟩ := (List.isChain_cons_cons.mp hpath).1
      have := horder n o huses
      dsimp only at hcycle
      omega
  have h := hnext _ (lower_feasible_iff.mpr hschedule) fun m hm => by
    have := hlb m (List.mem_range.mp hm)
    simp only [lowerSide]
    omega
  have hnonneg := b.lb_nonneg n
  have hlt := List.mem_range.mp hn
  simp only [lowerSide] at hle ⊢
  exact int64_eq (by omega) (by omega)

/-- The lower bounds after `PropagateLowerBounds` are the least schedule above the given
ones. -/
theorem propagateLowerBounds_spec (b : ScheduleBounds)
    (hlb : ∀ n < f.nodes.length, b.lb n + f.nodes.length ≤ int64Max) :
    (propagateLowerBounds f delay clockPeriodPs b = none ↔
      (∃ n < f.nodes.length, clockPeriodPs < delay n) ∨
      ¬ ∃ c, IsSchedule f delay clockPeriodPs (fun _ => True) c ∧
        ∀ n < f.nodes.length, b.lb n ≤ c n ∧ c n ≤ b.ub n) ∧
    ∀ b', propagateLowerBounds f delay clockPeriodPs b = some b' →
      b'.ub = b.ub ∧ (∀ n < f.nodes.length, b.lb n ≤ b'.lb n) ∧
      IsSchedule f delay clockPeriodPs (fun _ => True) b'.lb ∧
      (∀ c, IsSchedule f delay clockPeriodPs (fun _ => True) c →
        (∀ n < f.nodes.length, b.lb n ≤ c n) → ∀ n < f.nodes.length, b'.lb n ≤ c n) ∧
      propagateLowerBounds f delay clockPeriodPs b' = some b' := by
  have hpreds : ∀ pre n post, List.range f.nodes.length = pre ++ n :: post →
      ∀ p ∈ f.operands n, p ∈ pre := by
    intro pre n post heq p hp
    have huses := mem_operands_iff.mp hp
    have hlt := horder n p huses
    refine mem_left_of_pairwise List.pairwise_lt_range heq ?_ hlt.ne (by omega)
    exact List.mem_range.mpr (hlt.trans huses.lt_length)
  obtain ⟨hnone, hsome⟩ := Side.foldlM_visit_spec delay clockPeriodPs lowerSide_lawful lb_le_ub
    (fun t ht => by cases ht) List.nodup_range hpreds b (lower_fits horder hroom hlb)
  simp only [propagateLowerBounds_eq, Option.map_eq_none_iff, Option.map_eq_some_iff]
  simp only [lower_feasible_iff, List.mem_range] at hnone hsome
  refine ⟨hnone, ?_⟩
  rintro b' ⟨acc, hacc, rfl⟩
  obtain ⟨hub, hge, hfeasible, hleast, hagain⟩ := hsome acc hacc
  exact ⟨hub, hge, hfeasible, hleast, hagain⟩

/-- The upper bounds after `PropagateUpperBounds` are the greatest schedule below the given
ones, the nodes without an upper bound being exempt from the clock period. -/
theorem propagateUpperBounds_spec (us : Users f) (b : ScheduleBounds) :
    (propagateUpperBounds f delay clockPeriodPs us b = none ↔
      (∃ n < f.nodes.length, clockPeriodPs < delay n) ∨
      ¬ ∃ c, IsSchedule f delay clockPeriodPs (· ≠ int64Max) c ∧
        ∀ n < f.nodes.length, b.lb n ≤ c n ∧ c n ≤ b.ub n) ∧
    ∀ b', propagateUpperBounds f delay clockPeriodPs us b = some b' →
      b'.lb = b.lb ∧ (∀ n < f.nodes.length, b'.ub n ≤ b.ub n) ∧
      IsSchedule f delay clockPeriodPs (· ≠ int64Max) b'.ub ∧
      (∀ c, IsSchedule f delay clockPeriodPs (· ≠ int64Max) c →
        (∀ n < f.nodes.length, c n ≤ b.ub n) → ∀ n < f.nodes.length, c n ≤ b'.ub n) ∧
      propagateUpperBounds f delay clockPeriodPs us b' = some b' := by
  have hpreds : ∀ pre n post, (List.range f.nodes.length).reverse = pre ++ n :: post →
      ∀ p ∈ us.users n, p ∈ pre := by
    intro pre n post heq p hp
    have huses := us.mem_iff.mp hp
    have hlt := horder p n huses
    refine mem_left_of_pairwise (List.pairwise_reverse.mpr List.pairwise_lt_range) heq ?_ hlt.ne'
      (by omega)
    exact List.mem_reverse.mpr (List.mem_range.mpr huses.lt_length)
  obtain ⟨hnone, hsome⟩ := Side.foldlM_visit_spec delay clockPeriodPs upperSide_lawful
    (fun b n => neg_le_neg (b.lb_le_ub n))
    (fun t ht b n => by
      have htop : t = -int64Max := by simpa [upperSide] using ht
      rw [htop]
      exact neg_le_neg (b.ub_le n))
    (List.nodup_reverse.mpr List.nodup_range) hpreds b fun _ => by
      refine ⟨fun n hn => hroom n (List.mem_range.mp (List.mem_reverse.mp hn)), ?_⟩
      intro n _ t hle hlimit _
      have := b.ub_le n
      have := b.lb_nonneg n
      simp only [upperSide] at hle hlimit ⊢
      rw [int64_eq (by omega) (by omega)]
      omega
  have hneg : ∀ c : ℕ → ℤ, EarliestSweep.Feasible (upperSide.problem us.users delay clockPeriodPs b)
      (List.range f.nodes.length).reverse c ↔
        IsSchedule f delay clockPeriodPs (· ≠ int64Max) fun n => -c n := by
    intro c
    rw [← upper_feasible_iff us horder (b := b)]
    simp only [neg_neg]
  simp only [propagateUpperBounds_eq, Option.map_eq_none_iff, Option.map_eq_some_iff]
  simp only [hneg, List.mem_reverse, List.mem_range, upperSide_cycle, neg_neg] at hnone hsome
  refine ⟨?_, ?_⟩
  · rw [hnone]
    refine or_congr_right (not_congr ?_)
    constructor
    · rintro ⟨c, hc, hbounds⟩
      refine ⟨fun n => -c n, hc, fun n hn => ?_⟩
      exact ⟨le_neg.mp (hbounds n hn).2, neg_le.mp (hbounds n hn).1⟩
    · rintro ⟨c, hc, hbounds⟩
      refine ⟨fun n => -c n, by simpa using hc, fun n hn => ?_⟩
      exact ⟨neg_le_neg (hbounds n hn).2, neg_le_neg (hbounds n hn).1⟩
  · rintro b' ⟨acc, hacc, rfl⟩
    obtain ⟨hlb, hge, hfeasible, hleast, hagain⟩ := hsome acc hacc
    refine ⟨?_, fun n hn => neg_le_neg_iff.mp (hge n hn), hfeasible, ?_, hagain⟩
    · funext n
      exact neg_inj.mp (congrFun hlb n)
    · intro c hc hbounds n hn
      have := hleast (fun n => -c n) (by simpa using hc)
        (fun n hn => neg_le_neg (hbounds n hn)) n hn
      omega

end

/-- The propagation of bounds is exact: it finds the least (greatest) schedule above (below)
the given bounds, it fails exactly when there is none within the opposite bounds or a node
does not fit into the clock period, and running it again changes nothing.  The clock period and a
delay, and the delays on a path within one cycle, fit an `int64_t`, and so do the lower bounds with
one more cycle for each node. -/
theorem propagateBounds_exact (f : FunctionBase) (horder : ∀ u n, Uses f u n → n < u)
    (us : Users f) (delay : ℕ → ℕ) (clockPeriodPs : ℤ) (b : ScheduleBounds)
    (hroom : ∀ n < f.nodes.length, (delay n : ℤ) ≤ clockPeriodPs →
      clockPeriodPs + delay n ≤ int64Max)
    (hlb : ∀ n < f.nodes.length, b.lb n + f.nodes.length ≤ int64Max) :
    ((propagateLowerBounds f delay clockPeriodPs b = none ↔
      (∃ n < f.nodes.length, clockPeriodPs < delay n) ∨
      ¬ ∃ c, IsSchedule f delay clockPeriodPs (fun _ => True) c ∧
        ∀ n < f.nodes.length, b.lb n ≤ c n ∧ c n ≤ b.ub n) ∧
    ∀ b', propagateLowerBounds f delay clockPeriodPs b = some b' →
      b'.ub = b.ub ∧ (∀ n < f.nodes.length, b.lb n ≤ b'.lb n) ∧
      IsSchedule f delay clockPeriodPs (fun _ => True) b'.lb ∧
      (∀ c, IsSchedule f delay clockPeriodPs (fun _ => True) c →
        (∀ n < f.nodes.length, b.lb n ≤ c n) → ∀ n < f.nodes.length, b'.lb n ≤ c n) ∧
      propagateLowerBounds f delay clockPeriodPs b' = some b') ∧
    ((propagateUpperBounds f delay clockPeriodPs us b = none ↔
      (∃ n < f.nodes.length, clockPeriodPs < delay n) ∨
      ¬ ∃ c, IsSchedule f delay clockPeriodPs (· ≠ int64Max) c ∧
        ∀ n < f.nodes.length, b.lb n ≤ c n ∧ c n ≤ b.ub n) ∧
    ∀ b', propagateUpperBounds f delay clockPeriodPs us b = some b' →
      b'.lb = b.lb ∧ (∀ n < f.nodes.length, b'.ub n ≤ b.ub n) ∧
      IsSchedule f delay clockPeriodPs (· ≠ int64Max) b'.ub ∧
      (∀ c, IsSchedule f delay clockPeriodPs (· ≠ int64Max) c →
        (∀ n < f.nodes.length, c n ≤ b.ub n) → ∀ n < f.nodes.length, c n ≤ b'.ub n) ∧
      propagateUpperBounds f delay clockPeriodPs us b' = some b') ∧
    (f.nodes ≠ [] → ∀ cycle, MeetsTiming f delay int64Max (fun _ => True) cycle →
      (verifyTiming f delay clockPeriodPs cycle = true ↔
        MeetsTiming f delay clockPeriodPs (fun _ => True) cycle)) :=
  ⟨propagateLowerBounds_spec horder hroom b hlb, propagateUpperBounds_spec horder hroom us b,
    fun hne _ => verifyTiming_iff horder hne⟩

/-- With a clock period of one delay, the negation is pushed into the second cycle, and the
result meets timing. -/
theorem propagateBounds_negateChain :
    ∃ b', propagateLowerBounds negateChain (fun _ => 1) 1 reset = some b' ∧
      b'.lb 0 = 0 ∧ b'.lb 1 = 1 ∧ IsSchedule negateChain (fun _ => 1) 1 (fun _ => True) b'.lb ∧
      propagateLowerBounds negateChain (fun _ => 1) 1 b' = some b' := by
  obtain ⟨⟨-, hsome⟩, -⟩ := propagateBounds_exact negateChain negateChain_lt_of_uses
    (.ofFunction _) (fun _ => 1) 1 reset (by decide) (by decide)
  rcases h : propagateLowerBounds negateChain (fun _ => 1) 1 reset with _ | b'
  · exact absurd (congrArg Option.isSome h) (by decide)
  · obtain ⟨-, -, hschedule, -, hagain⟩ := hsome b' h
    have hlb : ∀ n < 2, (propagateLowerBounds negateChain (fun _ => 1) 1 reset).map
        (fun b => b.lb n) = some (n : ℤ) := by decide
    rw [h] at hlb
    exact ⟨b', rfl, by simpa using hlb 0 (by decide), by simpa using hlb 1 (by decide),
      hschedule, hagain⟩

/-- Two nodes in one cycle have to fit there together. -/
theorem not_meetsTiming_negateChain {cycle : ℕ → ℤ} (hcycle : cycle 0 = cycle 1)
    (hdelay : clockPeriodPs < delay 1 + delay 0) :
    ¬ MeetsTiming negateChain delay clockPeriodPs (fun _ => True) cycle := by
  intro h
  have hpath := h [1, 0] (by simp) (by decide)
    (.cons_cons ⟨⟨_, rfl, by simp⟩, hcycle, trivial⟩ (.singleton _))
  simp at hpath
  omega

/-- The last cycle, for all nodes. -/
def lastCycle : ScheduleBounds :=
  ⟨fun _ => int64Max, fun _ => int64Max, int64Max, int64Max, fun _ => by decide, fun _ => le_rfl,
    fun _ => le_rfl⟩

/-- Without upper bounds nothing is propagated, and both nodes stay in the last cycle, which does
not meet timing.  Nor do the bounds where the sum of two delays overflows, or the next cycle. -/
theorem not_meetsTiming_propagateBounds :
    (∃ b', propagateUpperBounds negateChain (fun _ => 1) 1 (.ofFunction _) reset = some b' ∧
      ¬ MeetsTiming negateChain (fun _ => 1) 1 (fun _ => True) b'.ub) ∧
    (∃ b', propagateLowerBounds negateChain (fun _ => 2 ^ 62) (2 ^ 62) reset = some b' ∧
      ¬ MeetsTiming negateChain (fun _ => 2 ^ 62) (2 ^ 62) (fun _ => True) b'.lb) ∧
    ∃ b', propagateLowerBounds negateChain (fun _ => 1) 1 lastCycle = some b' ∧
      ¬ MeetsTiming negateChain (fun _ => 1) 1 (fun _ => True) b'.lb := by
  refine ⟨⟨reset, rfl, ?_⟩, ⟨reset, rfl, ?_⟩, ?_⟩
  · exact not_meetsTiming_negateChain rfl (by norm_num)
  · exact not_meetsTiming_negateChain rfl (by norm_num)
  · have hcycles : (propagateLowerBounds negateChain (fun _ => 1) 1 lastCycle).map
        (fun b => (b.lb 0, b.lb 1)) = some (int64Max, int64Max) := by decide
    obtain ⟨b', h, hcycle⟩ := Option.map_eq_some_iff.mp hcycles
    obtain ⟨hfirst, hsecond⟩ := Prod.mk.inj hcycle
    exact ⟨b', h, not_meetsTiming_negateChain (hfirst.trans hsecond.symm) (by norm_num)⟩

end ScheduleBounds

end Xls
