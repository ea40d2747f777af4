/-
# Loops which take steps until they return

A step leads to another state or returns a result.  A loop ends when some number of steps is enough
to return.

* `ends_of_lt` : a loop ends when each step makes a measure smaller;
* `not_ends_of_invariant` : a loop does not end when an invariant leads to another step for ever;
* `Reaches.ends_iff` : a loop ends when it ends from a state which it reaches.
-/
import Mathlib.Logic.Relation
import Mathlib.Order.WellFounded

namespace StepLoop

variable {σ ρ : Type}

/-- The result after some number of steps. -/
def run (step : σ → σ ⊕ ρ) : ℕ → σ → Option ρ
  | 0, _ => none
  | fuel + 1, s =>
    match step s with
    | .inl s' => run step fuel s'
    | .inr result => some result

/-- Enough steps return. -/
def Ends (step : σ → σ ⊕ ρ) (s : σ) : Prop := ∃ fuel result, run step fuel s = some result

/-- The states on the way. -/
abbrev Reaches (step : σ → σ ⊕ ρ) : σ → σ → Prop :=
  Relation.ReflTransGen fun s s' => step s = .inl s'

variable {step : σ → σ ⊕ ρ} {s s' t : σ}

theorem run_inl (h : step s = .inl s') (fuel : ℕ) : run step (fuel + 1) s = run step fuel s' := by
  rw [run, h]

theorem ends_of_inr {result : ρ} (h : step s = .inr result) : Ends step s := by
  refine ⟨1, result, ?_⟩
  rw [run, h]

theorem ends_iff_of_inl (h : step s = .inl s') : Ends step s ↔ Ends step s' := by
  constructor
  · rintro ⟨fuel, result, hrun⟩
    cases fuel with
    | zero => cases hrun
    | succ fuel => exact ⟨fuel, result, (run_inl h fuel).symm.trans hrun⟩
  · rintro ⟨fuel, result, hrun⟩
    exact ⟨fuel + 1, result, (run_inl h fuel).trans hrun⟩

theorem Reaches.ends_iff (h : Reaches step s t) : Ends step s ↔ Ends step t := by
  induction h with
  | refl => exact Iff.rfl
  | tail _ hlast ih => exact ih.trans (ends_iff_of_inl hlast)

/-- An invariant of the steps holds of the states on the way. -/
theorem Reaches.invariant {P : σ → Prop} (h : Reaches step s t) (hs : P s)
    (hstep : ∀ s s', P s → step s = .inl s' → P s') : P t := by
  induction h with
  | refl => exact hs
  | tail _ hlast ih => exact hstep _ _ ih hlast

/-- Each step makes a measure smaller.  The measure need not be a function of the state. -/
theorem ends_of_lt {α : Type} [LT α] [WellFoundedLT α] {P : σ → α → Prop}
    (hstep : ∀ s a s', P s a → step s = .inl s' → ∃ a' < a, P s' a') :
    ∀ {a : α} {s : σ}, P s a → Ends step s := by
  intro a
  induction a using WellFoundedLT.induction with
  | ind a ih =>
    intro s hs
    rcases hnext : step s with s' | result
    · obtain ⟨a', hlt, hs'⟩ := hstep s a s' hs hnext
      exact (ends_iff_of_inl hnext).mpr (ih a' hlt hs')
    · exact ends_of_inr hnext

/-- There is always another step. -/
theorem not_ends_of_invariant {P : σ → Prop} (hstep : ∀ s, P s → ∃ s', step s = .inl s' ∧ P s')
    (hs : P s) : ¬ Ends step s := by
  rintro ⟨fuel, result, hrun⟩
  induction fuel generalizing s with
  | zero => cases hrun
  | succ fuel ih =>
    obtain ⟨s', hnext, hs'⟩ := hstep s hs
    exact ih hs' ((run_inl hnext fuel).symm.trans hrun)

end StepLoop
