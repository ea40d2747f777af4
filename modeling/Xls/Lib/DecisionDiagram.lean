/-
# Ordered decision diagrams

A table of nodes, each with a variable and two children at smaller indices; an index
without a node is a leaf, and the leaf `1` stands for true.  When the variables grow
towards the leaves, no node has equal children and no two nodes are alike, then
different indices denote different functions.
-/
import Mathlib.Logic.Function.Basic
import Mathlib.Data.Nat.Basic
import Mathlib.Order.Basic
import Mathlib.Tactic.Common

namespace DecisionDiagram

/-- A node: its variable and its children for true and for false. -/
structure Node where
  var : ℕ
  high : ℕ
  low : ℕ
  deriving DecidableEq, Repr

/-- The function of an index, for an assignment of the variables. -/
def denote (node : ℕ → Option Node) (σ : ℕ → Bool) (i : ℕ) : Bool :=
  match node i with
  | none => decide (i = 1)
  | some n =>
    if _h : n.high < i ∧ n.low < i then
      if σ n.var then denote node σ n.high else denote node σ n.low
    else false
termination_by i

/-- The paths from an index to the leaves, as the choices made on the way. -/
def paths (node : ℕ → Option Node) (i : ℕ) : List (List (ℕ × Bool)) :=
  match node i with
  | none => [[]]
  | some n =>
    if _h : n.high < i ∧ n.low < i then
      (paths node n.high).map ((n.var, true) :: ·) ++
        (paths node n.low).map ((n.var, false) :: ·)
    else []
termination_by i

/-- The variable of an index is at least `k`; leaves have none. -/
def Above (node : ℕ → Option Node) (k i : ℕ) : Prop := ∀ n, node i = some n → k ≤ n.var

/-- Children come before their parents and have greater variables. -/
structure Ordered (node : ℕ → Option Node) : Prop where
  high_lt : ∀ {i n}, node i = some n → n.high < i
  low_lt : ∀ {i n}, node i = some n → n.low < i
  above_high : ∀ {i n}, node i = some n → Above node (n.var + 1) n.high
  above_low : ∀ {i n}, node i = some n → Above node (n.var + 1) n.low

/-- No node is superfluous or there twice, and the leaves below `size` are `0` and `1`. -/
structure Reduced (node : ℕ → Option Node) (size : ℕ) : Prop extends Ordered node where
  high_ne_low : ∀ {i n}, node i = some n → n.high ≠ n.low
  unique : ∀ {i j n}, node i = some n → node j = some n → i = j
  leaf : ∀ {i}, i < size → node i = none → i = 0 ∨ i = 1

section Denote

variable {node node' : ℕ → Option Node} {σ σ' : ℕ → Bool} {i : ℕ} {n : Node}

theorem denote_leaf (h : node i = none) : denote node σ i = decide (i = 1) := by
  rw [denote]
  simp only [h]

theorem paths_leaf (h : node i = none) : paths node i = [[]] := by
  rw [paths]
  simp only [h]

theorem Above.mono {k k' : ℕ} (h : Above node k i) (hk : k' ≤ k) : Above node k' i :=
  fun n hn => hk.trans (h n hn)

theorem above_of_leaf {k : ℕ} (h : node i = none) : Above node k i := by
  intro n hn
  rw [h] at hn
  cases hn

/-- Only the nodes below an index matter. -/
theorem denote_congr {size : ℕ} (hord : Ordered node) (heq : ∀ j < size, node' j = node j)
    (hi : i < size) : denote node' σ i = denote node σ i := by
  induction i using Nat.strong_induction_on with
  | _ i ih =>
    rw [denote, denote, heq i hi]
    split
    · rfl
    · rename_i n hn
      have hhigh := hord.high_lt hn
      have hlow := hord.low_lt hn
      rw [ih n.high hhigh (hhigh.trans hi), ih n.low hlow (hlow.trans hi)]

theorem paths_congr {size : ℕ} (hord : Ordered node) (heq : ∀ j < size, node' j = node j)
    (hi : i < size) : paths node' i = paths node i := by
  induction i using Nat.strong_induction_on with
  | _ i ih =>
    rw [paths, paths, heq i hi]
    split
    · rfl
    · rename_i n hn
      have hhigh := hord.high_lt hn
      have hlow := hord.low_lt hn
      rw [ih n.high hhigh (hhigh.trans hi), ih n.low hlow (hlow.trans hi)]

namespace Ordered

variable (hord : Ordered node)

include hord

theorem denote_node (h : node i = some n) :
    denote node σ i = if σ n.var then denote node σ n.high else denote node σ n.low := by
  rw [denote]
  simp only [h, hord.high_lt h, hord.low_lt h, and_self, ↓reduceDIte]

theorem length_paths (h : node i = some n) :
    (paths node i).length = (paths node n.high).length + (paths node n.low).length := by
  rw [paths]
  simp [h, hord.high_lt h, hord.low_lt h]

/-- A function does not depend on the variables above its own. -/
theorem denote_eq_of_above {k : ℕ} (habove : Above node k i) (hσ : ∀ v, k ≤ v → σ v = σ' v) :
    denote node σ i = denote node σ' i := by
  induction i using Nat.strong_induction_on generalizing k with
  | _ i ih =>
    rcases hn : node i with _ | n
    · rw [denote_leaf hn, denote_leaf hn]
    · have hk := habove n hn
      have hσ' : ∀ v, n.var + 1 ≤ v → σ v = σ' v := fun v hv => hσ v (by omega)
      rw [hord.denote_node hn, hord.denote_node hn, hσ _ hk,
        ih _ (hord.high_lt hn) (hord.above_high hn) hσ',
        ih _ (hord.low_lt hn) (hord.above_low hn) hσ']

/-- A function depends on the variables of the nodes only. -/
theorem denote_congr_vars (hσ : ∀ j n, node j = some n → σ n.var = σ' n.var) :
    denote node σ i = denote node σ' i := by
  induction i using Nat.strong_induction_on with
  | _ i ih =>
    rcases hn : node i with _ | n
    · rw [denote_leaf hn, denote_leaf hn]
    · rw [hord.denote_node hn, hord.denote_node hn, hσ i n hn, ih _ (hord.high_lt hn),
        ih _ (hord.low_lt hn)]

/-- Setting a variable does not change a function which lies below it. -/
theorem denote_update {k : ℕ} (habove : Above node (k + 1) i) (b : Bool) :
    denote node (Function.update σ k b) i = denote node σ i := by
  refine hord.denote_eq_of_above habove ?_
  intro v hv
  exact Function.update_of_ne (by omega) ..

/-- The cofactors of a node are its children. -/
theorem denote_update_node (h : node i = some n) (b : Bool) :
    denote node (Function.update σ n.var b) i =
      if b then denote node σ n.high else denote node σ n.low := by
  rw [hord.denote_node h, Function.update_self, hord.denote_update (hord.above_high h),
    hord.denote_update (hord.above_low h)]

/-- A node whose function does not depend on its variable has children with one function. -/
theorem children_eq_of_indep (h : node i = some n)
    (hindep : ∀ σ, denote node (Function.update σ n.var true) i =
      denote node (Function.update σ n.var false) i) (σ : ℕ → Bool) :
    denote node σ n.high = denote node σ n.low := by
  have hσ := hindep σ
  rw [hord.denote_update_node h, hord.denote_update_node h] at hσ
  simpa using hσ

end Ordered

namespace Reduced

variable {size : ℕ} (hred : Reduced node size)

include hred

/-- Different indices denote different functions. -/
theorem canonical {i j : ℕ} (hi : i < size) (hj : j < size)
    (heq : ∀ σ, denote node σ i = denote node σ j) : i = j := by
  -- by induction on a bound for both indices: the children are smaller
  suffices hall : ∀ bound, ∀ i j, i < bound → j < bound → i < size → j < size →
      (∀ σ, denote node σ i = denote node σ j) → i = j from
    hall (max i j + 1) i j (by omega) (by omega) hi hj heq
  intro bound
  induction bound with
  | zero => intro i j hi; omega
  | succ bound ih =>
    have hord := hred.toOrdered
    -- a node is not equal to an index which does not depend on its variable
    have hdiffer : ∀ {i j n}, i < bound + 1 → i < size → node i = some n →
        Above node (n.var + 1) j → (∀ σ, denote node σ i = denote node σ j) → False := by
      intro i j n hi his hn habove heq
      have hhigh := hord.high_lt hn
      have hlow := hord.low_lt hn
      refine hred.high_ne_low hn (ih n.high n.low (by omega) (by omega) (by omega) (by omega) ?_)
      refine hord.children_eq_of_indep hn fun σ => ?_
      rw [heq, heq, hord.denote_update habove, hord.denote_update habove]
    intro i j hi hj his hjs heq
    rcases hni : node i with _ | n
    · rcases hnj : node j with _ | n'
      · -- two leaves
        have hval := heq fun _ => false
        rw [denote_leaf hni, denote_leaf hnj] at hval
        rcases hred.leaf his hni with rfl | rfl <;> rcases hred.leaf hjs hnj with rfl | rfl
        · rfl
        · simp at hval
        · simp at hval
        · rfl
      · exact (hdiffer hj hjs hnj (above_of_leaf hni) fun σ => (heq σ).symm).elim
    · rcases hnj : node j with _ | n'
      · exact (hdiffer hi his hni (above_of_leaf hnj) heq).elim
      · have habove : ∀ {j n'} (k : ℕ), node j = some n' → k ≤ n'.var → Above node k j := by
          intro j n' k hn' hk m hm
          rw [hn'] at hm
          cases hm
          exact hk
        rcases lt_trichotomy n.var n'.var with hlt | hvar | hlt
        · exact (hdiffer hi his hni (habove _ hnj hlt) heq).elim
        · -- the same variable: the children denote the same functions
          have hcofactor : ∀ (b : Bool) σ, (if b then denote node σ n.high else denote node σ n.low) =
              if b then denote node σ n'.high else denote node σ n'.low := by
            intro b σ
            rw [← hord.denote_update_node hni b, ← hord.denote_update_node hnj b, hvar]
            exact heq _
          have hhigh := hord.high_lt hni
          have hlow := hord.low_lt hni
          have hhigh' := hord.high_lt hnj
          have hlow' := hord.low_lt hnj
          have hsame : n = n' := by
            obtain ⟨v, h, l⟩ := n
            obtain ⟨v', h', l'⟩ := n'
            simp only at *
            have hh : h = h' := ih h h' (by omega) (by omega) (by omega) (by omega)
              fun σ => hcofactor true σ
            have hl : l = l' := ih l l' (by omega) (by omega) (by omega) (by omega)
              fun σ => hcofactor false σ
            rw [hvar, hh, hl]
          rw [hsame] at hni
          exact hred.unique hni hnj
        · exact (hdiffer hj hjs hnj (habove _ hni hlt) fun σ => (heq σ).symm).elim

/-- An index whose function depends on variables from `k` on only has its variable there. -/
theorem above_of_denote {i k : ℕ} (hi : i < size)
    (hindep : ∀ σ σ', (∀ v, k ≤ v → σ v = σ' v) → denote node σ i = denote node σ' i) :
    Above node k i := by
  intro n hn
  by_contra hlt
  have hhigh := hred.high_lt hn
  have hlow := hred.low_lt hn
  refine hred.high_ne_low hn (hred.canonical (by omega) (by omega) ?_)
  refine hred.toOrdered.children_eq_of_indep hn fun σ => ?_
  apply hindep
  intro v hv
  rw [Function.update_of_ne (by omega), Function.update_of_ne (by omega)]

end Reduced

end Denote

end DecisionDiagram
