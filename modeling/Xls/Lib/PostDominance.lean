/-
# Post-dominance

A path goes along the edges of a graph and may stop at any exit.  A vertex post-dominates another
one when every path from there passes through it.

* `postDominates_iff` : post-dominance of a vertex in terms of the vertices behind it.
-/
import Mathlib.Data.List.Basic

namespace PostDominance

variable {α : Type} {next : α → α → Prop} {exit : α → Prop}

/-- A path with its vertices, up to an exit. -/
inductive Path (next : α → α → Prop) (exit : α → Prop) : α → List α → Prop
  | stop {n : α} (h : exit n) : Path next exit n [n]
  | step {n u : α} {p : List α} (h : next n u) (hp : Path next exit u p) : Path next exit n (n :: p)

/-- `d` is on every path from `n` on. -/
def PostDominates (next : α → α → Prop) (exit : α → Prop) (d n : α) : Prop :=
  ∀ p, Path next exit n p → d ∈ p

theorem Path.mem_start {n : α} {p : List α} (h : Path next exit n p) : n ∈ p := by
  cases h with
  | stop _ => exact List.mem_cons_self ..
  | step _ _ => exact List.mem_cons_self ..

theorem postDominates_self (n : α) : PostDominates next exit n n := fun _ hp => hp.mem_start

/-- Another vertex is on every path when no path stops at once and it is on every path from the
next vertices. -/
theorem postDominates_iff {d n : α} : PostDominates next exit d n ↔
    d = n ∨ ¬ exit n ∧ ∀ u, next n u → PostDominates next exit d u := by
  constructor
  · intro h
    rw [or_iff_not_imp_left]
    refine fun hne => ⟨fun hexit => ?_, fun u hu p hp => ?_⟩
    · exact hne (List.mem_singleton.mp (h [n] (.stop hexit)))
    · exact (List.mem_cons.mp (h (n :: p) (.step hu hp))).resolve_left hne
  · rintro (rfl | ⟨hexit, hnext⟩)
    · exact postDominates_self d
    · intro p hp
      cases hp with
      | stop h => exact absurd h hexit
      | step h hp => exact List.mem_cons_of_mem n (hnext _ h _ hp)

end PostDominance
