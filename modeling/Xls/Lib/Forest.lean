/-
# Forests of parent links

A forest given by the parent of each of its points, where a root is its own parent and
a rank grows along the links.  Pointing a link at the grandparent keeps the roots, and
linking one root to another moves the points below it.
-/
import Mathlib.Logic.Function.Basic
import Mathlib.Data.Nat.Notation

namespace Forest

variable {α : Type} {parent : α → α} {rank : α → ℕ}

/-- The rank grows along each link which leads to another point. -/
def Rising (parent : α → α) (rank : α → ℕ) : Prop := ∀ x, parent x ≠ x → rank x < rank (parent x)

/-- `r` is the root above `x`. -/
inductive Root (parent : α → α) : α → α → Prop
  | self {r : α} : parent r = r → Root parent r r
  | step {x r : α} : Root parent (parent x) r → Root parent x r

theorem Root.parent_eq {x r : α} (h : Root parent x r) : parent r = r := by
  induction h with
  | self h => exact h
  | step _ ih => exact ih

/-- A root is its own root only. -/
theorem Root.eq_of_parent_eq {x r : α} (h : Root parent x r) (hx : parent x = x) : r = x := by
  induction h with
  | self _ => rfl
  | step _ ih =>
    rw [hx] at ih
    exact ih hx

theorem root_parent_iff {x r : α} : Root parent (parent x) r ↔ Root parent x r := by
  constructor
  · exact .step
  · rintro (hr | h)
    · rw [hr]
      exact .self hr
    · exact h

/-- A link to the grandparent does not close a circle. -/
theorem Rising.parent_eq_of_grandparent (h : Rising parent rank) {x : α}
    (hx : parent (parent x) = x) : parent x = x := by
  by_contra hne
  have hup := h x hne
  have hback := h (parent x) (by rw [hx]; exact Ne.symm hne)
  rw [hx] at hback
  exact Nat.lt_asymm hup hback

section Update

variable [DecidableEq α]

/-- Path halving: the link of a point is moved to its grandparent. -/
def halve (parent : α → α) (x : α) : α → α := Function.update parent x (parent (parent x))

theorem Rising.halve (h : Rising parent rank) (x : α) : Rising (halve parent x) rank := by
  intro v hv
  by_cases hvx : v = x
  · subst hvx
    simp only [Forest.halve, Function.update_self] at hv ⊢
    have hp : parent v ≠ v := by
      intro hp
      rw [hp, hp] at hv
      exact hv rfl
    by_cases hpp : parent (parent v) = parent v
    · rw [hpp]
      exact h v hp
    · exact Nat.lt_trans (h v hp) (h _ hpp)
  · simp only [Forest.halve, Function.update_of_ne hvx] at hv ⊢
    exact h v hv

/-- Path halving keeps the roots. -/
theorem root_halve_iff (h : Rising parent rank) {x v r : α} :
    Root (halve parent x) v r ↔ Root parent v r := by
  have hself : halve parent x x = parent (parent x) := Function.update_self ..
  have hother : ∀ {v}, v ≠ x → halve parent x v = parent v := fun hv => Function.update_of_ne hv ..
  constructor
  · intro hroot
    induction hroot with
    | @self r hr =>
      by_cases hrx : r = x
      · subst hrx
        rw [hself] at hr
        exact .self (h.parent_eq_of_grandparent hr)
      · rw [hother hrx] at hr
        exact .self hr
    | @step v r _ ih =>
      by_cases hvx : v = x
      · subst hvx
        rw [hself] at ih
        exact .step (.step ih)
      · rw [hother hvx] at ih
        exact .step ih
  · intro hroot
    induction hroot with
    | @self r hr =>
      refine .self ?_
      by_cases hrx : r = x
      · subst hrx
        rw [hself, hr, hr]
      · rw [hother hrx, hr]
    | @step v r _ ih =>
      by_cases hvx : v = x
      · subst hvx
        apply Root.step
        rw [hself]
        by_cases hp : parent v = v
        · rw [hp, hp]
          rw [hp] at ih
          exact ih
        · -- the parent keeps its own link
          rw [← hother hp]
          exact root_parent_iff.mpr ih
      · apply Root.step
        rw [hother hvx]
        exact ih

/-- Linking the root `b` to the root `a` moves the points below `b`. -/
theorem root_link_iff {a b v r : α} (ha : parent a = a) (hb : parent b = b) (hab : a ≠ b) :
    Root (Function.update parent b a) v r ↔ Root parent v r ∧ r ≠ b ∨ Root parent v b ∧ r = a := by
  have hroot : ∀ {r}, r ≠ b → parent r = r → Root (Function.update parent b a) r r := by
    intro r hr hparent
    refine .self ?_
    rw [Function.update_of_ne hr, hparent]
  constructor
  · intro h
    induction h with
    | @self r hr =>
      by_cases hrb : r = b
      · subst hrb
        rw [Function.update_self] at hr
        exact absurd hr hab
      · rw [Function.update_of_ne hrb] at hr
        exact .inl ⟨.self hr, hrb⟩
    | @step v r _ ih =>
      by_cases hvb : v = b
      · subst hvb
        rw [Function.update_self] at ih
        rcases ih with ⟨hr, -⟩ | ⟨hr, -⟩
        · exact .inr ⟨.self hb, hr.eq_of_parent_eq ha⟩
        · exact absurd (hr.eq_of_parent_eq ha) (Ne.symm hab)
      · rw [Function.update_of_ne hvb] at ih
        rcases ih with ⟨hr, hne⟩ | ⟨hr, rfl⟩
        · exact .inl ⟨.step hr, hne⟩
        · exact .inr ⟨.step hr, rfl⟩
  · have hstep : ∀ {v s}, Root parent v s →
        Root (Function.update parent b a) s r → Root (Function.update parent b a) v r := by
      intro v s h hs
      induction h with
      | self _ => exact hs
      | @step v s h ih =>
        by_cases hvb : v = b
        · subst hvb
          rw [hb] at h
          rw [h.eq_of_parent_eq hb] at hs
          exact hs
        · apply Root.step
          rw [Function.update_of_ne hvb]
          exact ih hs
    rintro (⟨h, hne⟩ | ⟨h, rfl⟩)
    · exact hstep h (hroot hne h.parent_eq)
    · refine hstep h (.step ?_)
      rw [Function.update_self]
      exact hroot hab ha

end Update

end Forest
