/-
# Trees of parent links

A tree given by the parent of each of its points and their distance from the root.
Walking up from two points of one depth in step, until they meet, finds the point
whose ancestors are the common ancestors of the two.
-/
import Mathlib.Data.Set.Basic

/-- The links `parent` form a tree on `S` with the given depths. -/
structure ParentTree {α : Type} (parent : α → α) (depth : α → ℕ) (root : α) (S : Set α) :
    Prop where
  root_mem : root ∈ S
  parent_root : parent root = root
  depth_root : depth root = 0
  parent_mem : ∀ x ∈ S, parent x ∈ S
  depth_parent : ∀ x ∈ S, x ≠ root → depth x = depth (parent x) + 1

namespace ParentTree

variable {α : Type} {parent parent' : α → α} {depth : α → ℕ} {root : α} {S : Set α}

/-- `i` is reached from `x` along the parent links. -/
inductive Ancestor (parent : α → α) (i : α) : α → Prop
  | refl : Ancestor parent i i
  | step {x : α} : Ancestor parent i (parent x) → Ancestor parent i x

theorem ancestor_iff {i x : α} : Ancestor parent i x ↔ i = x ∨ Ancestor parent i (parent x) := by
  constructor
  · rintro (_ | h)
    · exact .inl rfl
    · exact .inr h
  · rintro (rfl | h)
    · exact .refl
    · exact .step h

/-- Ancestors only depend on the links of a set which is closed under them. -/
theorem ancestor_congr (hmem : ∀ x ∈ S, parent x ∈ S) (heq : ∀ x ∈ S, parent' x = parent x)
    {i x : α} (hx : x ∈ S) : Ancestor parent' i x ↔ Ancestor parent i x := by
  constructor
  · intro h
    induction h with
    | refl => exact .refl
    | step _ ih =>
      rw [heq _ hx] at ih
      exact .step (ih (hmem _ hx))
  · intro h
    induction h with
    | refl => exact .refl
    | @step x _ ih =>
      apply Ancestor.step
      rw [heq x hx]
      exact ih (hmem x hx)

section Tree

variable (h : ParentTree parent depth root S)

include h

theorem eq_root_of_depth {x : α} (hx : x ∈ S) (hdepth : depth x = 0) : x = root := by
  by_contra hne
  have := h.depth_parent x hx hne
  omega

theorem ancestor_root {i : α} : Ancestor parent i root ↔ i = root := by
  constructor
  · intro hi
    generalize hx : root = x at hi
    induction hi with
    | refl => rfl
    | step _ ih =>
      subst hx
      exact (ih h.parent_root.symm).trans h.parent_root
  · rintro rfl
    exact .refl

/-- A proper ancestor is nearer to the root. -/
theorem eq_or_depth_lt {i x : α} (hi : Ancestor parent i x) (hx : x ∈ S) :
    i = x ∨ depth i < depth x := by
  induction hi with
  | refl => exact .inl rfl
  | @step x hi ih =>
    by_cases hroot : x = root
    · subst hroot
      rw [h.parent_root] at hi
      exact .inl ((h.ancestor_root).mp hi)
    · have hdepth := h.depth_parent x hx hroot
      rcases ih (h.parent_mem x hx) with rfl | hlt
      · omega
      · omega

theorem ancestor_mem {i x : α} (hi : Ancestor parent i x) (hx : x ∈ S) : i ∈ S := by
  induction hi with
  | refl => exact hx
  | step _ ih => exact ih (h.parent_mem _ hx)

/-- The deeper of two points may be replaced by its parent. -/
theorem common_parent_right {i a b : α} (ha : a ∈ S) (hlt : depth a < depth b) :
    Ancestor parent i a ∧ Ancestor parent i b ↔
      Ancestor parent i a ∧ Ancestor parent i (parent b) := by
  refine and_congr_right fun hia => ?_
  rw [ancestor_iff]
  refine or_iff_right ?_
  rintro rfl
  rcases h.eq_or_depth_lt hia ha with rfl | hdepth
  · omega
  · omega

/-- Two different points of one depth may both be replaced by their parents. -/
theorem common_parents {i a b : α} (ha : a ∈ S) (hb : b ∈ S) (hdepth : depth a = depth b)
    (hne : a ≠ b) :
    Ancestor parent i a ∧ Ancestor parent i b ↔
      Ancestor parent i (parent a) ∧ Ancestor parent i (parent b) := by
  constructor
  · rintro ⟨hia, hib⟩
    constructor
    · rcases ancestor_iff.mp hia with rfl | hia
      · rcases h.eq_or_depth_lt hib hb with rfl | hlt
        · exact absurd rfl hne
        · omega
      · exact hia
    · rcases ancestor_iff.mp hib with rfl | hib
      · rcases h.eq_or_depth_lt hia ha with rfl | hlt
        · exact absurd rfl hne
        · omega
      · exact hib
  · rintro ⟨hia, hib⟩
    exact ⟨.step hia, .step hib⟩

end Tree

end ParentTree
