/-
# Earliest cycles in one sweep

Points with predecessors and delays are to be placed in cycles: no point before a
predecessor, and no chain of points in one cycle whose delays add up to more than the
clock period.  One sweep along the order, which keeps for each point its cycle and the
delay from the start of the cycle, finds the least placement above given bounds, or
fails when no placement stays within given limits.

Cycles for which `counts` is false are exempt from the delays; they must lie below
every bound.
-/
import Mathlib.Algebra.BigOperators.Group.List.Basic
import Mathlib.Algebra.Order.Group.Int
import Mathlib.Data.List.Chain
import Mathlib.Logic.Function.Basic
import Mathlib.Tactic.Linarith

namespace EarliestSweep

/-- What is to be placed. -/
structure Problem (α : Type) where
  preds : α → List α
  delay : α → ℤ
  delay_nonneg : ∀ n, 0 ≤ delay n
  clock : ℤ
  limit : α → ℤ
  counts : ℤ → Bool

/-- The cycle of each point and the delay from the start of the cycle to the point. -/
structure State (α : Type) where
  cycle : α → ℤ
  arrival : α → ℤ

variable {α : Type} [DecidableEq α] (P : Problem α)

/-! ## The sweep -/

/-- One predecessor: the point moves to its cycle or waits for it. -/
def visitPred (n : α) (s : State α) (p : α) : Option (State α) :=
  if P.counts (s.cycle p) = false ∨ s.cycle p < s.cycle n then some s
  else if s.cycle n < s.cycle p then
    if P.limit n < s.cycle p then none
    else some ⟨Function.update s.cycle n (s.cycle p),
      Function.update s.arrival n (s.arrival p + P.delay p)⟩
  else some ⟨s.cycle, Function.update s.arrival n (max (s.arrival n) (s.arrival p + P.delay p))⟩

/-- A point which does not fit moves to the next cycle. -/
def settle (n : α) (s : State α) : Option (State α) :=
  if P.clock < P.delay n then none
  else if P.clock < s.arrival n + P.delay n then
    if P.limit n < s.cycle n + 1 then none
    else some ⟨Function.update s.cycle n (s.cycle n + 1), Function.update s.arrival n 0⟩
  else some s

/-- One point. -/
def visit (s : State α) (n : α) : Option (State α) :=
  match (P.preds n).foldlM (visitPred P n) s with
  | some s => settle P n s
  | none => none

/-- All points in order. -/
def sweep (order : List α) (s : State α) : Option (State α) := order.foldlM (visit P) s

/-! ## Placements -/

/-- A chain of points in one cycle, from a point to predecessors. -/
def IsPath (c : α → ℤ) (path : List α) : Prop :=
  path.IsChain fun n p => p ∈ P.preds n ∧ c p = c n ∧ P.counts (c n) = true

/-- No chain in one cycle takes longer than the clock period. -/
def MeetsTiming (order : List α) (c : α → ℤ) : Prop :=
  ∀ path, path ≠ [] → (∀ n ∈ path, n ∈ order) → IsPath P c path →
    (path.map P.delay).sum ≤ P.clock

/-- Predecessors come first, and the delays fit. -/
structure Feasible (order : List α) (c : α → ℤ) : Prop where
  mono : ∀ n ∈ order, ∀ p ∈ P.preds n, c p ≤ c n
  timing : MeetsTiming P order c

variable {P}

/-! ## One point -/

/-- The state with a new cycle and delay for one point. -/
def State.set (s : State α) (n : α) (k a : ℤ) : State α :=
  ⟨Function.update s.cycle n k, Function.update s.arrival n a⟩

@[simp] theorem State.set_cycle_self (s : State α) (n : α) (k a : ℤ) :
    (s.set n k a).cycle n = k := Function.update_self ..

@[simp] theorem State.set_arrival_self (s : State α) (n : α) (k a : ℤ) :
    (s.set n k a).arrival n = a := Function.update_self ..

theorem State.set_cycle_of_ne (s : State α) {m n : α} (h : m ≠ n) (k a : ℤ) :
    (s.set n k a).cycle m = s.cycle m := Function.update_of_ne h ..

theorem State.set_arrival_of_ne (s : State α) {m n : α} (h : m ≠ n) (k a : ℤ) :
    (s.set n k a).arrival m = s.arrival m := Function.update_of_ne h ..

theorem State.set_self (s : State α) (n : α) : s.set n (s.cycle n) (s.arrival n) = s := by
  simp [State.set]

/-- What the loop over the predecessors `l` makes of the cycle `k` and the delay `a` of a
point. -/
structure Joined (P : Problem α) (n : α) (s : State α) (l : List α) (k a k' a' : ℤ) : Prop where
  le : k ≤ k'
  limit : k ≤ P.limit n → k' ≤ P.limit n
  keep : k' = k → a ≤ a'
  pred_le : ∀ p ∈ l, P.counts (s.cycle p) = true → s.cycle p ≤ k'
  pred_arrival : ∀ p ∈ l, P.counts (s.cycle p) = true → s.cycle p = k' →
    s.arrival p + P.delay p ≤ a'
  cycle_from : k' = k ∨ ∃ p ∈ l, s.cycle p = k'
  arrival_from : k' = k ∧ a' = a ∨ ∃ p ∈ l, P.counts (s.cycle p) = true ∧ s.cycle p = k' ∧
    a' = s.arrival p + P.delay p

omit [DecidableEq α] in
theorem Joined.cons {n p : α} {s : State α} {l : List α} {k a k₁ a₁ k' a' : ℤ}
    (h : Joined P n s [p] k a k₁ a₁) (h' : Joined P n s l k₁ a₁ k' a') :
    Joined P n s (p :: l) k a k' a' where
  le := h.le.trans h'.le
  limit := h'.limit ∘ h.limit
  keep hk := by
    have hk₁ : k₁ = k := le_antisymm (hk ▸ h'.le) h.le
    exact (h.keep hk₁).trans (h'.keep (hk.trans hk₁.symm))
  pred_le q hq hcounts := by
    rcases List.mem_cons.mp hq with rfl | hq
    · exact (h.pred_le q (by simp) hcounts).trans h'.le
    · exact h'.pred_le q hq hcounts
  pred_arrival q hq hcounts heq := by
    rcases List.mem_cons.mp hq with rfl | hq
    · have hk₁ : k' = k₁ :=
        le_antisymm (heq ▸ h.pred_le q (by simp) hcounts) h'.le
      exact (h.pred_arrival q (by simp) hcounts (heq.trans hk₁)).trans (h'.keep hk₁)
    · exact h'.pred_arrival q hq hcounts heq
  cycle_from := by
    rcases h'.cycle_from with rfl | ⟨q, hq, heq⟩
    · exact h.cycle_from.imp_right fun ⟨q, hq, heq⟩ => ⟨q, by simp_all, heq⟩
    · exact .inr ⟨q, by simp [hq], heq⟩
  arrival_from := by
    rcases h'.arrival_from with ⟨rfl, rfl⟩ | ⟨q, hq, hrest⟩
    · exact h.arrival_from.imp_right fun ⟨q, hq, hrest⟩ => ⟨q, by simp_all, hrest⟩
    · exact .inr ⟨q, by simp [hq], hrest⟩

/-- One predecessor. -/
theorem visitPred_spec {n p : α} {s : State α} {k a : ℤ} (hp : p ≠ n) :
    (∃ k' a', visitPred P n (s.set n k a) p = some (s.set n k' a') ∧
      Joined P n s [p] k a k' a') ∨
    (visitPred P n (s.set n k a) p = none ∧ P.limit n < s.cycle p) := by
  unfold visitPred
  rw [s.set_cycle_of_ne hp, s.set_arrival_of_ne hp, State.set_cycle_self]
  split
  · rename_i hskip
    refine .inl ⟨k, a, rfl, le_rfl, id, fun _ => le_rfl, ?_, ?_, .inl rfl, .inl ⟨rfl, rfl⟩⟩
    · intro q hq hcounts
      rw [List.mem_singleton.mp hq] at hcounts ⊢
      rcases hskip with hnot | hlt
      · rw [hnot] at hcounts
        cases hcounts
      · exact hlt.le
    · intro q hq hcounts heq
      rw [List.mem_singleton.mp hq] at hcounts heq
      rcases hskip with hnot | hlt
      · rw [hnot] at hcounts
        cases hcounts
      · exact absurd heq hlt.ne
  · rename_i hskip
    rw [not_or, Bool.not_eq_false, not_lt] at hskip
    split
    · split
      · rename_i hlimit
        exact .inr ⟨rfl, hlimit⟩
      · rename_i hlt hlimit
        refine .inl ⟨s.cycle p, s.arrival p + P.delay p, ?_, hlt.le, fun _ => not_lt.mp hlimit,
          fun h => absurd h.symm hlt.ne, ?_, ?_, .inr ⟨p, by simp, rfl⟩,
          .inr ⟨p, by simp, hskip.1, rfl, rfl⟩⟩
        · simp [State.set]
        · intro q hq _
          rw [List.mem_singleton.mp hq]
        · intro q hq _ _
          rw [List.mem_singleton.mp hq]
    · rename_i hlt
      have heq : s.cycle p = k := le_antisymm (not_lt.mp hlt) hskip.2
      refine .inl ⟨k, max a (s.arrival p + P.delay p), ?_, le_rfl, id, fun _ => le_max_left _ _,
        ?_, ?_, .inl rfl, ?_⟩
      · simp [State.set]
      · intro q hq _
        rw [List.mem_singleton.mp hq, heq]
      · intro q hq _ _
        rw [List.mem_singleton.mp hq]
        exact le_max_right _ _
      · rcases max_choice a (s.arrival p + P.delay p) with hmax | hmax
        · exact .inl ⟨rfl, hmax⟩
        · exact .inr ⟨p, by simp, hskip.1, heq, hmax⟩

/-- The loop over the predecessors. -/
theorem foldlM_visitPred {n : α} {s : State α} {l : List α} {k a : ℤ} (hn : n ∉ l) :
    (∃ k' a', l.foldlM (visitPred P n) (s.set n k a) = some (s.set n k' a') ∧
      Joined P n s l k a k' a') ∨
    (l.foldlM (visitPred P n) (s.set n k a) = none ∧ ∃ p ∈ l, P.limit n < s.cycle p) := by
  induction l generalizing k a with
  | nil =>
    refine .inl ⟨k, a, rfl, le_rfl, id, fun _ => le_rfl, ?_, ?_, .inl rfl, .inl ⟨rfl, rfl⟩⟩
    · simp
    · simp
  | cons p l ih =>
    rw [List.mem_cons, not_or] at hn
    rw [List.foldlM_cons]
    rcases visitPred_spec (P := P) (s := s) (k := k) (a := a) (Ne.symm hn.1) with
      ⟨k₁, a₁, hstep, hjoined⟩ | ⟨hstep, hlimit⟩
    · rw [hstep]
      rcases ih (k := k₁) (a := a₁) hn.2 with ⟨k', a', hfold, hjoined'⟩ | ⟨hfold, q, hq, hlimit⟩
      · exact .inl ⟨k', a', hfold, hjoined.cons hjoined'⟩
      · exact .inr ⟨hfold, q, by simp [hq], hlimit⟩
    · rw [hstep]
      exact .inr ⟨rfl, p, by simp, hlimit⟩

/-! ## The whole sweep -/

/-- What holds of the points `done` which have been visited, in a sweep from the bounds
`bound`. -/
structure Inv (P : Problem α) (order : List α) (bound : α → ℤ) (done : List α) (s : State α) :
    Prop where
  closed : ∀ n ∈ done, ∀ p ∈ P.preds n, p ∈ done
  cycle_rest : ∀ n, n ∉ done → s.cycle n = bound n
  arrival_rest : ∀ n, n ∉ done → s.arrival n = 0
  bound_le : ∀ n ∈ done, bound n ≤ s.cycle n
  le_limit : ∀ n ∈ done, s.cycle n ≤ P.limit n
  fits : ∀ n ∈ done, s.arrival n + P.delay n ≤ P.clock
  arrival_nonneg : ∀ n ∈ done, 0 ≤ s.arrival n
  pred_le : ∀ n ∈ done, ∀ p ∈ P.preds n, s.cycle p ≤ s.cycle n
  pred_arrival : ∀ n ∈ done, ∀ p ∈ P.preds n, s.cycle p = s.cycle n →
    P.counts (s.cycle n) = true → s.arrival p + P.delay p ≤ s.arrival n
  least : ∀ c, Feasible P order c → (∀ n ∈ order, bound n ≤ c n) → ∀ n ∈ done, s.cycle n ≤ c n
  tight : ∀ c, Feasible P order c → (∀ n ∈ order, bound n ≤ c n) → ∀ n ∈ done,
    c n = s.cycle n → ∃ path, (∀ m ∈ n :: path, m ∈ order) ∧ IsPath P c (n :: path) ∧
      s.arrival n + P.delay n ≤ ((n :: path).map P.delay).sum

section Sweep

variable {order done : List α} {bound : α → ℤ} {s : State α}

omit [DecidableEq α] in
theorem Inv.nil : Inv P order bound [] ⟨bound, fun _ => 0⟩ := by
  constructor <;> simp

section

variable (h : Inv P order bound done s)

include h

omit [DecidableEq α] in
/-- A placement puts a point no earlier than the loop over its predecessors does, and then
no chain arrives earlier. -/
theorem Inv.joined_le {n : α} {k a : ℤ} (hn : n ∈ order) (hpreds : ∀ p ∈ P.preds n, p ∈ done)
    (hj : Joined P n s (P.preds n) (bound n) 0 k a) {c : α → ℤ} (hc : Feasible P order c)
    (hbound : ∀ m ∈ order, bound m ≤ c m) :
    k ≤ c n ∧ (c n = k → ∃ path, (∀ m ∈ n :: path, m ∈ order) ∧ IsPath P c (n :: path) ∧
      a + P.delay n ≤ ((n :: path).map P.delay).sum) := by
  constructor
  · rcases hj.cycle_from with rfl | ⟨p, hp, rfl⟩
    · exact hbound n hn
    · exact (h.least c hc hbound p (hpreds p hp)).trans (hc.mono n hn p hp)
  · intro hk
    rcases hj.arrival_from with ⟨-, rfl⟩ | ⟨p, hp, hcounts, hcycle, rfl⟩
    · refine ⟨[], by simpa using hn, List.IsChain.singleton _, ?_⟩
      simp
    · -- the chain through the predecessor which arrives last
      have hle := h.least c hc hbound p (hpreds p hp)
      have hcp : c p = s.cycle p := le_antisymm (by
        calc c p ≤ c n := hc.mono n hn p hp
          _ = s.cycle p := hk.trans hcycle.symm) hle
      obtain ⟨path, hmem, hpath, hsum⟩ := h.tight c hc hbound p (hpreds p hp) hcp
      refine ⟨p :: path, ?_, ?_, ?_⟩
      · intro m hm
        rcases List.mem_cons.mp hm with rfl | hm
        · exact hn
        · exact hmem m hm
      · refine List.IsChain.cons_cons ⟨hp, ?_, ?_⟩ hpath
        · rw [hcp, hcycle, hk]
        · rw [hk, ← hcycle]
          exact hcounts
      · rw [List.map_cons, List.sum_cons]
        linarith

/-- A point placed behind its predecessors extends the invariant. -/
theorem Inv.extend {n : α} {k a : ℤ} (hnew : n ∉ done)
    (hpreds : ∀ p ∈ P.preds n, p ∈ done) (hbound : bound n ≤ k) (hlimit : k ≤ P.limit n)
    (hfits : a + P.delay n ≤ P.clock) (hnonneg : 0 ≤ a) (hle : ∀ p ∈ P.preds n, s.cycle p ≤ k)
    (harrival : ∀ p ∈ P.preds n, s.cycle p = k → P.counts k = true → s.arrival p + P.delay p ≤ a)
    (hleast : ∀ c, Feasible P order c → (∀ m ∈ order, bound m ≤ c m) → k ≤ c n ∧
      (c n = k → ∃ path, (∀ m ∈ n :: path, m ∈ order) ∧ IsPath P c (n :: path) ∧
        a + P.delay n ≤ ((n :: path).map P.delay).sum)) :
    Inv P order bound (done ++ [n]) (s.set n k a) := by
  have hmem : ∀ {m}, m ∈ done ++ [n] ↔ m ∈ done ∨ m = n := by simp
  have hne : ∀ {m}, m ∈ done → m ≠ n := by
    rintro m hm rfl
    exact hnew hm
  have hcycle : ∀ {m}, m ∈ done → (s.set n k a).cycle m = s.cycle m :=
    fun hm => s.set_cycle_of_ne (hne hm) k a
  have harr : ∀ {m}, m ∈ done → (s.set n k a).arrival m = s.arrival m :=
    fun hm => s.set_arrival_of_ne (hne hm) k a
  constructor
  · intro m hm p hp
    rcases hmem.mp hm with hm | rfl
    · exact hmem.mpr (.inl (h.closed m hm p hp))
    · exact hmem.mpr (.inl (hpreds p hp))
  · intro m hm
    rw [hmem, not_or] at hm
    rw [s.set_cycle_of_ne hm.2, h.cycle_rest m hm.1]
  · intro m hm
    rw [hmem, not_or] at hm
    rw [s.set_arrival_of_ne hm.2, h.arrival_rest m hm.1]
  · intro m hm
    rcases hmem.mp hm with hm | rfl
    · rw [hcycle hm]
      exact h.bound_le m hm
    · simpa using hbound
  · intro m hm
    rcases hmem.mp hm with hm | rfl
    · rw [hcycle hm]
      exact h.le_limit m hm
    · simpa using hlimit
  · intro m hm
    rcases hmem.mp hm with hm | rfl
    · rw [harr hm]
      exact h.fits m hm
    · simpa using hfits
  · intro m hm
    rcases hmem.mp hm with hm | rfl
    · rw [harr hm]
      exact h.arrival_nonneg m hm
    · simpa using hnonneg
  · intro m hm p hp
    rcases hmem.mp hm with hm | rfl
    · rw [hcycle hm, hcycle (h.closed m hm p hp)]
      exact h.pred_le m hm p hp
    · rw [hcycle (hpreds p hp), State.set_cycle_self]
      exact hle p hp
  · intro m hm p hp
    rcases hmem.mp hm with hm | rfl
    · rw [hcycle hm, hcycle (h.closed m hm p hp), harr hm, harr (h.closed m hm p hp)]
      exact h.pred_arrival m hm p hp
    · rw [hcycle (hpreds p hp), harr (hpreds p hp), State.set_cycle_self, State.set_arrival_self]
      exact harrival p hp
  · intro c hc hb m hm
    rcases hmem.mp hm with hm | rfl
    · rw [hcycle hm]
      exact h.least c hc hb m hm
    · rw [State.set_cycle_self]
      exact (hleast c hc hb).1
  · intro c hc hb m hm
    rcases hmem.mp hm with hm | rfl
    · rw [hcycle hm, harr hm]
      exact h.tight c hc hb m hm
    · rw [State.set_cycle_self, State.set_arrival_self]
      exact (hleast c hc hb).2

/-- The loop over the predecessors places a point behind them, within their cycle, or one of them is
beyond its limit. -/
theorem Inv.loop {n : α} (hnew : n ∉ done)
    (hpreds : ∀ p ∈ P.preds n, p ∈ done) (hexempt : ∀ t, P.counts t = false → t ≤ bound n) :
    (∃ k a, (P.preds n).foldlM (visitPred P n) s = some (s.set n k a) ∧
      Joined P n s (P.preds n) (bound n) 0 k a ∧ (∀ p ∈ P.preds n, s.cycle p ≤ k) ∧
      0 ≤ a ∧ (a = 0 ∨ a ≤ P.clock)) ∨
    ((P.preds n).foldlM (visitPred P n) s = none ∧ ∃ p ∈ P.preds n, P.limit n < s.cycle p) := by
  have hself : n ∉ P.preds n := fun hmem => hnew (hpreds n hmem)
  have hs : s = s.set n (bound n) 0 := by
    rw [← h.cycle_rest n hnew, ← h.arrival_rest n hnew, State.set_self]
  rcases foldlM_visitPred (P := P) (s := s) (k := bound n) (a := 0) hself with
    ⟨k, a, hfold, hj⟩ | hnone
  · rw [← hs] at hfold
    refine .inl ⟨k, a, hfold, hj, ?_, ?_⟩
    · intro p hp
      by_cases hcounts : P.counts (s.cycle p) = true
      · exact hj.pred_le p hp hcounts
      · exact (hexempt _ (by simpa using hcounts)).trans hj.le
    · rcases hj.arrival_from with ⟨-, rfl⟩ | ⟨p, hp, -, -, rfl⟩
      · exact ⟨le_rfl, .inl rfl⟩
      · exact ⟨add_nonneg (h.arrival_nonneg p (hpreds p hp)) (P.delay_nonneg p),
          .inr (h.fits p (hpreds p hp))⟩
  · rw [← hs] at hnone
    exact .inr hnone

omit [DecidableEq α] in
/-- A point which is late in the cycle of its predecessors comes later in every placement. -/
theorem Inv.next_le {n : α} {k a : ℤ} (hn : n ∈ order) (hpreds : ∀ p ∈ P.preds n, p ∈ done)
    (hj : Joined P n s (P.preds n) (bound n) 0 k a) (hover : P.clock < a + P.delay n) {c : α → ℤ}
    (hc : Feasible P order c) (hbound : ∀ m ∈ order, bound m ≤ c m) : k + 1 ≤ c n := by
  obtain ⟨hkc, hpath⟩ := h.joined_le hn hpreds hj hc hbound
  by_contra hlt
  obtain ⟨path, hmem, hchain, hsum⟩ := hpath (by omega)
  have := hc.timing (n :: path) (by simp) hmem hchain
  omega

/-- One point: either the invariant extends to it, or there is no placement. -/
theorem Inv.visit {n : α} (hn : n ∈ order) (hnew : n ∉ done)
    (hpreds : ∀ p ∈ P.preds n, p ∈ done) (hlimit : bound n ≤ P.limit n)
    (hexempt : ∀ t, P.counts t = false → t ≤ bound n) :
    (∃ s', EarliestSweep.visit P s n = some s' ∧ Inv P order bound (done ++ [n]) s') ∨
    (EarliestSweep.visit P s n = none ∧ (P.clock < P.delay n ∨
      ∀ c, Feasible P order c → (∀ m ∈ order, bound m ≤ c m) → P.limit n < c n)) := by
  unfold EarliestSweep.visit
  rcases h.loop hnew hpreds hexempt with
    ⟨k, a, hfold, hj, hle, hnonneg, -⟩ | ⟨hfold, p, hp, hlt⟩
  · rw [hfold]
    simp only [settle, State.set_arrival_self, State.set_cycle_self]
    split
    · rename_i hdelay
      exact .inr ⟨rfl, .inl hdelay⟩
    split
    · rename_i hover
      have hnext := fun c hc hbound => h.next_le hn hpreds hj hover (c := c) hc hbound
      split
      · rename_i hlim
        exact .inr ⟨rfl, .inr fun c hc hbound => lt_of_lt_of_le hlim (hnext c hc hbound)⟩
      · rename_i hlim
        refine .inl ⟨s.set n (k + 1) 0, ?_, ?_⟩
        · simp [State.set]
        · refine h.extend hnew hpreds (by linarith [hj.le]) (not_lt.mp hlim) (by omega) le_rfl
            (fun p hp => by linarith [hle p hp]) ?_ ?_
          · intro p hp heq
            have := hle p hp
            omega
          · intro c hc hbound
            refine ⟨hnext c hc hbound, fun _ => ⟨[], ?_, List.IsChain.singleton _, by simp⟩⟩
            simpa using hn
    · rename_i hover
      refine .inl ⟨s.set n k a, rfl, ?_⟩
      refine h.extend hnew hpreds hj.le (hj.limit hlimit) (not_lt.mp hover) hnonneg hle ?_
        fun c hc hbound => h.joined_le hn hpreds hj hc hbound
      intro p hp heq hcounts
      exact hj.pred_arrival p hp (by rw [heq]; exact hcounts) heq
  · rw [hfold]
    refine .inr ⟨rfl, .inr fun c hc hbound => ?_⟩
    calc P.limit n < s.cycle p := hlt
      _ ≤ c p := h.least c hc hbound p (hpreds p hp)
      _ ≤ c n := hc.mono n hn p hp

/-- The points `rest` which remain to be visited. -/
theorem Inv.foldlM_visit {rest : List α} (horder : order = done ++ rest) (hnodup : order.Nodup)
    (hpreds : ∀ pre n post, order = pre ++ n :: post → ∀ p ∈ P.preds n, p ∈ pre)
    (hlimit : ∀ n ∈ order, bound n ≤ P.limit n)
    (hexempt : ∀ t, P.counts t = false → ∀ n ∈ order, t ≤ bound n) :
    (∃ s', rest.foldlM (EarliestSweep.visit P) s = some s' ∧ Inv P order bound order s') ∨
    (rest.foldlM (EarliestSweep.visit P) s = none ∧ ∃ n ∈ order, P.clock < P.delay n ∨
      ∀ c, Feasible P order c → (∀ m ∈ order, bound m ≤ c m) → P.limit n < c n) := by
  induction rest generalizing done s with
  | nil =>
    rw [List.append_nil] at horder
    subst horder
    exact .inl ⟨s, rfl, h⟩
  | cons n rest ih =>
    have hn : n ∈ order := by
      rw [horder]
      simp
    have hnew : n ∉ done := by
      rw [horder] at hnodup
      intro hmem
      exact (List.nodup_append.mp hnodup).2.2 n hmem n (by simp) rfl
    rw [List.foldlM_cons]
    rcases h.visit hn hnew (hpreds done n rest horder) (hlimit n hn)
      (fun t ht => hexempt t ht n hn) with ⟨s₁, hstep, hinv⟩ | ⟨hstep, hnone⟩
    · rw [hstep]
      exact ih hinv (by rw [horder, List.append_assoc]; rfl)
    · rw [hstep]
      exact .inr ⟨rfl, n, hn, hnone⟩

end

omit [DecidableEq α] in
/-- A chain in one cycle is as long as the delay to its first point at most. -/
theorem Inv.path_le (h : Inv P order bound order s) {n : α} {path : List α}
    (hmem : ∀ m ∈ n :: path, m ∈ order) (hpath : IsPath P s.cycle (n :: path)) :
    ((n :: path).map P.delay).sum ≤ s.arrival n + P.delay n := by
  induction path generalizing n with
  | nil =>
    have := h.arrival_nonneg n (hmem n (by simp))
    simpa using this
  | cons p path ih =>
    obtain ⟨⟨hp, hcycle, hcounts⟩, hrest⟩ := List.isChain_cons_cons.mp hpath
    have htail := ih (fun m hm => hmem m (List.mem_cons_of_mem _ hm)) hrest
    have harrival := h.pred_arrival n (hmem n (by simp)) p hp hcycle hcounts
    rw [List.map_cons, List.sum_cons]
    linarith

omit [DecidableEq α] in
/-- The placement found by the sweep is feasible. -/
theorem Inv.feasible (h : Inv P order bound order s) : Feasible P order s.cycle := by
  refine ⟨h.pred_le, ?_⟩
  intro path hne hmem hpath
  rcases path with _ | ⟨n, path⟩
  · exact absurd rfl hne
  · exact (h.path_le hmem hpath).trans (h.fits n (hmem n (by simp)))

variable (bound) in
/-- The sweep finds the least feasible placement above the bounds, or there is none within
the limits. -/
theorem sweep_spec (hnodup : order.Nodup)
    (hpreds : ∀ pre n post, order = pre ++ n :: post → ∀ p ∈ P.preds n, p ∈ pre)
    (hlimit : ∀ n ∈ order, bound n ≤ P.limit n)
    (hexempt : ∀ t, P.counts t = false → ∀ n ∈ order, t ≤ bound n) :
    (∃ s, sweep P order ⟨bound, fun _ => 0⟩ = some s ∧ (∀ n, n ∉ order → s.cycle n = bound n) ∧
      (∀ n ∈ order, bound n ≤ s.cycle n ∧ s.cycle n ≤ P.limit n) ∧
      Feasible P order s.cycle ∧
      ∀ c, Feasible P order c → (∀ n ∈ order, bound n ≤ c n) → ∀ n ∈ order, s.cycle n ≤ c n) ∨
    (sweep P order ⟨bound, fun _ => 0⟩ = none ∧ ((∃ n ∈ order, P.clock < P.delay n) ∨
      ∀ c, Feasible P order c → (∀ n ∈ order, bound n ≤ c n) → ∃ n ∈ order, P.limit n < c n)) := by
  have hstart : Inv P order bound [] ⟨bound, fun _ => 0⟩ := Inv.nil
  rcases hstart.foldlM_visit (List.nil_append order).symm hnodup hpreds hlimit hexempt with
    ⟨s, hs, h⟩ | ⟨hs, n, hn, hdelay | hnone⟩
  · exact .inl ⟨s, hs, h.cycle_rest, fun n hn => ⟨h.bound_le n hn, h.le_limit n hn⟩,
      h.feasible, h.least⟩
  · exact .inr ⟨hs, .inl ⟨n, hn, hdelay⟩⟩
  · exact .inr ⟨hs, .inr fun c hc hbound => ⟨n, hn, hnone c hc hbound⟩⟩

end Sweep

end EarliestSweep
