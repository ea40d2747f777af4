/-
# Runs of a step relation

A run is a sequence of steps from a state to a state, with the states and inputs it
went through.  The rules below lift what one step does to a whole run: invariants,
conservation of the contents of a queue, and properties of neighbouring steps.
-/
import Mathlib.Data.List.Basic

namespace Lts

variable {σ ι α : Type}

/-- A run from `s` to `t`, with the state and the input of each step. -/
inductive Run (step : σ → ι → σ → Prop) : σ → List (σ × ι) → σ → Prop
  | nil (s : σ) : Run step s [] s
  | cons {s s' t : σ} {i : ι} {rest : List (σ × ι)} :
      step s i s' → Run step s' rest t → Run step s ((s, i) :: rest) t

namespace Run

variable {step : σ → ι → σ → Prop} {Inv : σ → Prop}

variable {s t : σ} {cs : List (σ × ι)}

/-- The state after a run, and every state on the way, satisfies an invariant. -/
theorem invariant (h : Run step s cs t) (hs : Inv s)
    (hstep : ∀ {s i s'}, Inv s → step s i s' → Inv s') : Inv t ∧ ∀ c ∈ cs, Inv c.1 := by
  induction h with
  | nil s => exact ⟨hs, by simp⟩
  | cons hfirst _ ih =>
    obtain ⟨hend, hway⟩ := ih (hstep hs hfirst)
    refine ⟨hend, ?_⟩
    intro c hc
    rcases List.mem_cons.mp hc with rfl | hc
    · exact hs
    · exact hway c hc

/-- A run whose states all satisfy a condition is a run of the steps which satisfy it. -/
theorem restrict {P : σ → Prop} (h : Run step s cs t) (hP : ∀ c ∈ cs, P c.1) :
    Run (fun s i s' => P s ∧ step s i s') s cs t := by
  induction h with
  | nil s => exact .nil s
  | cons hfirst _ ih =>
    refine .cons ⟨hP _ List.mem_cons_self, hfirst⟩ (ih ?_)
    intro c hc
    exact hP c (List.mem_cons_of_mem _ hc)

/-- What enters a queue leaves it in the same order or is in it at the end, when this is
so for each step. -/
theorem conserves {contents : σ → List α} {ins outs : σ → ι → List α} (h : Run step s cs t)
    (hs : Inv s) (hstep : ∀ {s i s'}, Inv s → step s i s' → Inv s')
    (hcons : ∀ {s i s'}, Inv s → step s i s' → contents s ++ ins s i = outs s i ++ contents s') :
    contents s ++ cs.flatMap (fun c => ins c.1 c.2) =
      cs.flatMap (fun c => outs c.1 c.2) ++ contents t := by
  induction h with
  | nil s => simp
  | @cons s s' t i rest hfirst _ ih =>
    calc contents s ++ ((s, i) :: rest).flatMap (fun c => ins c.1 c.2)
        = (contents s ++ ins s i) ++ rest.flatMap (fun c => ins c.1 c.2) := by
          rw [List.flatMap_cons, List.append_assoc]
      _ = outs s i ++ (contents s' ++ rest.flatMap (fun c => ins c.1 c.2)) := by
          rw [hcons hs hfirst, List.append_assoc]
      _ = ((s, i) :: rest).flatMap (fun c => outs c.1 c.2) ++ contents t := by
          rw [ih (hstep hs hfirst), List.flatMap_cons, List.append_assoc]

/-- A relation between each step and the next holds along a run. -/
theorem isChain {R : σ × ι → σ × ι → Prop} (h : Run step s cs t) (hs : Inv s)
    (hstep : ∀ {s i s'}, Inv s → step s i s' → Inv s')
    (hR : ∀ {s i s' i' s''}, Inv s → step s i s' → step s' i' s'' → R (s, i) (s', i')) :
    cs.IsChain R := by
  induction h with
  | nil s => exact List.IsChain.nil
  | cons hfirst hrest ih =>
    have hchain := ih (hstep hs hfirst)
    cases hrest with
    | nil => exact List.IsChain.singleton _
    | cons hsecond _ => exact List.IsChain.cons_cons (hR hs hfirst hsecond) hchain

end Run

end Lts
