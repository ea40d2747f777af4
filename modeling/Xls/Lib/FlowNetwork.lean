/-
# Flows and cuts

A finite family of arcs with integer weights.  A flow is conserved everywhere except at two
points; what leaves the first of them crosses every cut between the two, so that a flow which
fills a cut shows that the cut is minimal.
-/
import Mathlib.Algebra.BigOperators.Group.Finset.Basic
import Mathlib.Algebra.BigOperators.Ring.Finset
import Mathlib.Algebra.Order.BigOperators.Group.Finset
import Mathlib.Tactic.Ring
import Mathlib.Tactic.Linarith

namespace FlowNetwork

variable {α ι : Type} [DecidableEq α] (arcs : Finset ι) (tail head : ι → α)

/-- What an arc contributes to the outflow of a set of points. -/
def crosses (S : Finset α) (i : ι) : ℤ :=
  (if tail i ∈ S then 1 else 0) - (if head i ∈ S then 1 else 0)

/-- What flows out of a point, less what flows into it. -/
def netOutflow (f : ι → ℤ) (v : α) : ℤ := ∑ i ∈ arcs, f i * crosses tail head {v} i

/-- The weights of the arcs out of a set. -/
def cutWeight (weight : ι → ℤ) (S : Finset α) : ℤ :=
  ∑ i ∈ arcs with tail i ∈ S ∧ head i ∉ S, weight i

/-- A flow within the weights, conserved except at `s` and `t`. -/
structure IsFlow (weight : ι → ℤ) (s t : α) (f : ι → ℤ) : Prop where
  nonneg : ∀ i ∈ arcs, 0 ≤ f i
  le_weight : ∀ i ∈ arcs, f i ≤ weight i
  conserved : ∀ v, v ≠ s → v ≠ t → netOutflow arcs tail head f v = 0

variable {arcs tail head}

/-- The outflow of a set is that of its points. -/
theorem sum_netOutflow (f : ι → ℤ) (S : Finset α) :
    ∑ v ∈ S, netOutflow arcs tail head f v = ∑ i ∈ arcs, f i * crosses tail head S i := by
  unfold netOutflow
  rw [Finset.sum_comm]
  apply Finset.sum_congr rfl
  intro i _
  rw [← Finset.mul_sum]
  unfold crosses
  rw [Finset.sum_sub_distrib]
  simp only [Finset.mem_singleton, Finset.sum_ite_eq]

variable {weight : ι → ℤ} {s t : α} {f : ι → ℤ}

variable {S : Finset α}

section

variable (h : IsFlow arcs tail head weight s t f)

include h

/-- What leaves the source crosses every cut. -/
theorem IsFlow.value_eq (hs : s ∈ S) (ht : t ∉ S) :
    netOutflow arcs tail head f s = ∑ i ∈ arcs, f i * crosses tail head S i := by
  rw [← sum_netOutflow, Finset.sum_eq_single_of_mem s hs]
  intro v hv hvs
  apply h.conserved v hvs
  rintro rfl
  exact ht hv

omit h in
theorem cutWeight_eq (S : Finset α) : cutWeight arcs tail head weight S =
    ∑ i ∈ arcs, if tail i ∈ S ∧ head i ∉ S then weight i else 0 := by
  unfold cutWeight
  rw [Finset.sum_filter]

/-- No flow is greater than a cut. -/
theorem IsFlow.value_le (hs : s ∈ S) (ht : t ∉ S) :
    netOutflow arcs tail head f s ≤ cutWeight arcs tail head weight S := by
  rw [h.value_eq hs ht, cutWeight_eq]
  apply Finset.sum_le_sum
  intro i hi
  have h0 := h.nonneg i hi
  have hw := h.le_weight i hi
  unfold crosses
  by_cases htail : tail i ∈ S
  · by_cases hhead : head i ∈ S
    · simp [htail, hhead]
    · simpa [htail, hhead] using hw
  · by_cases hhead : head i ∈ S
    · simpa [htail, hhead] using h0
    · simp [htail, hhead]

/-- A flow which fills the arcs out of a set and leaves those into it empty is as great as
the cut. -/
theorem IsFlow.value_eq_cutWeight (hs : s ∈ S) (ht : t ∉ S)
    (hout : ∀ i ∈ arcs, tail i ∈ S → head i ∉ S → f i = weight i)
    (hin : ∀ i ∈ arcs, tail i ∉ S → head i ∈ S → f i = 0) :
    netOutflow arcs tail head f s = cutWeight arcs tail head weight S := by
  rw [h.value_eq hs ht, cutWeight_eq]
  apply Finset.sum_congr rfl
  intro i hi
  unfold crosses
  by_cases htail : tail i ∈ S
  · by_cases hhead : head i ∈ S
    · simp [htail, hhead]
    · simpa [htail, hhead] using hout i hi htail hhead
  · by_cases hhead : head i ∈ S
    · simpa [htail, hhead] using hin i hi htail hhead
    · simp [htail, hhead]

/-- A cut which is filled by a flow is minimal. -/
theorem IsFlow.cut_minimal (hs : s ∈ S) (ht : t ∉ S)
    (hout : ∀ i ∈ arcs, tail i ∈ S → head i ∉ S → f i = weight i)
    (hin : ∀ i ∈ arcs, tail i ∉ S → head i ∈ S → f i = 0) {T : Finset α} (hsT : s ∈ T) (htT : t ∉ T) :
    cutWeight arcs tail head weight S ≤ cutWeight arcs tail head weight T := by
  rw [← h.value_eq_cutWeight hs ht hout hin]
  exact h.value_le hsT htT

end

/-- More flow along one arc. -/
theorem netOutflow_update [DecidableEq ι] {i : ι} (hi : i ∈ arcs) (d : ℤ) (v : α) :
    netOutflow arcs tail head (Function.update f i (f i + d)) v =
      netOutflow arcs tail head f v + d * crosses tail head {v} i := by
  unfold netOutflow
  rw [← Finset.add_sum_erase arcs _ hi, ← Finset.add_sum_erase arcs (fun j => f j * _) hi,
    Function.update_self]
  have hrest : ∑ j ∈ arcs.erase i, Function.update f i (f i + d) j * crosses tail head {v} j =
      ∑ j ∈ arcs.erase i, f j * crosses tail head {v} j := by
    apply Finset.sum_congr rfl
    intro j hj
    rw [Function.update_of_ne (Finset.ne_of_mem_erase hj)]
  rw [hrest]
  ring

end FlowNetwork
