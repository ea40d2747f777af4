/-
# Marking what is reachable

A recursive search which marks a point and then what follows it, and goes back at marked points.
With more fuel than unmarked points it marks what can be reached.

* `mark_spec` : what one call adds is reachable, and what follows it is marked;
* `exists_mark` : on top of a closed set of marked points the search adds the points which can be
  reached.
-/
import Mathlib.Logic.Relation
import Mathlib.Data.Finset.Card
import Mathlib.Data.List.Basic

namespace MarkReachable

open Relation

variable {α : Type} [DecidableEq α] (succ : α → List α)

/-- Mark a point and what follows it, when it is not marked.  `none` is no fuel left. -/
def mark : ℕ → α → List α → Option (List α)
  | 0, _, _ => none
  | fuel + 1, x, reached =>
    if x ∈ reached then some reached
    else (succ x).foldlM (fun reached y => mark fuel y reached) (x :: reached)

variable {succ}

/-- What a call or a sequence of calls does: it adds points below the roots, and all points which
follow the new ones are marked. -/
structure Adds (succ : α → List α) (roots : List α) (reached reached' : List α) : Prop where
  subset : ∀ y ∈ reached, y ∈ reached'
  roots_mem : ∀ x ∈ roots, x ∈ reached'
  sound : ∀ y ∈ reached', y ∈ reached ∨ ∃ x ∈ roots, ReflTransGen (fun a b => b ∈ succ a) x y
  closed : ∀ y ∈ reached', y ∉ reached → ∀ z ∈ succ y, z ∈ reached'

variable {universe' : Finset α} {roots reached reached' : List α} {x : α} {fuel : ℕ}

/-- The points which are not marked yet. -/
def unmarked (universe' : Finset α) (reached : List α) : Finset α :=
  universe'.filter fun y => y ∉ reached

theorem unmarked_subset (h : ∀ y ∈ reached, y ∈ reached') :
    unmarked universe' reached' ⊆ unmarked universe' reached := by
  intro y hy
  rw [unmarked, Finset.mem_filter] at hy ⊢
  exact ⟨hy.1, fun hmem => hy.2 (h y hmem)⟩

theorem card_unmarked_cons (hx : x ∈ universe') (hnew : x ∉ reached) :
    (unmarked universe' (x :: reached)).card < (unmarked universe' reached).card := by
  apply Finset.card_lt_card
  refine Finset.ssubset_iff_of_subset (unmarked_subset fun y hy => List.mem_cons_of_mem x hy)
    |>.mpr ⟨x, ?_, ?_⟩
  · exact Finset.mem_filter.mpr ⟨hx, hnew⟩
  · intro hmem
    exact (Finset.mem_filter.mp hmem).2 List.mem_cons_self

/-- The calls for some points, one after the other. -/
theorem foldlM_mark (hcall : ∀ x ∈ universe', ∀ reached : List α,
      (unmarked universe' reached).card < fuel →
      ∃ reached', mark succ fuel x reached = some reached' ∧ Adds succ [x] reached reached')
    (hroots : ∀ x ∈ roots, x ∈ universe') (hfuel : (unmarked universe' reached).card < fuel) :
    ∃ reached', roots.foldlM (fun reached y => mark succ fuel y reached) reached = some reached' ∧
      Adds succ roots reached reached' := by
  induction roots generalizing reached with
  | nil =>
    refine ⟨reached, rfl, fun y hy => hy, fun x hx => ?_, fun y hy => Or.inl hy,
      fun y hy hnew => absurd hy hnew⟩
    cases hx
  | cons x roots ih =>
    obtain ⟨reached₁, hmark, h₁⟩ := hcall x (hroots x List.mem_cons_self) reached hfuel
    have hfuel₁ : (unmarked universe' reached₁).card < fuel :=
      (Finset.card_le_card (unmarked_subset h₁.subset)).trans_lt hfuel
    obtain ⟨reached₂, hfold, h₂⟩ := ih (fun y hy => hroots y (List.mem_cons_of_mem x hy)) hfuel₁
    refine ⟨reached₂, ?_, fun y hy => h₂.subset y (h₁.subset y hy), fun y hy => ?_, fun y hy => ?_,
      fun y hy hnew z hz => ?_⟩
    · rw [List.foldlM_cons, hmark]
      exact hfold
    · rcases List.mem_cons.mp hy with rfl | hy
      · exact h₂.subset y (h₁.roots_mem y (List.mem_singleton_self y))
      · exact h₂.roots_mem y hy
    · rcases h₂.sound y hy with hy₁ | ⟨r, hr, hpath⟩
      · rcases h₁.sound y hy₁ with hy₀ | ⟨r, hr, hpath⟩
        · exact Or.inl hy₀
        · obtain rfl := List.mem_singleton.mp hr
          exact Or.inr ⟨r, List.mem_cons_self, hpath⟩
      · exact Or.inr ⟨r, List.mem_cons_of_mem x hr, hpath⟩
    · by_cases hy₁ : y ∈ reached₁
      · exact h₂.subset z (h₁.closed y hy₁ hnew z hz)
      · exact h₂.closed y hy hy₁ z hz

/-- One call, with fuel for all unmarked points. -/
theorem mark_spec (hclosed : ∀ x ∈ universe', ∀ y ∈ succ x, y ∈ universe') (fuel : ℕ) :
    ∀ x ∈ universe', ∀ reached : List α, (unmarked universe' reached).card < fuel →
      ∃ reached', mark succ fuel x reached = some reached' ∧ Adds succ [x] reached reached' := by
  induction fuel with
  | zero => exact fun x _ reached hfuel => absurd hfuel (Nat.not_lt_zero _)
  | succ fuel ih =>
    intro x hx reached hfuel
    rw [mark]
    by_cases hmem : x ∈ reached
    · rw [if_pos hmem]
      refine ⟨reached, rfl, fun y hy => hy, fun y hy => ?_, fun y hy => Or.inl hy,
        fun y hy hnew => absurd hy hnew⟩
      rw [List.mem_singleton.mp hy]
      exact hmem
    · rw [if_neg hmem]
      have hless : (unmarked universe' (x :: reached)).card < fuel :=
        (card_unmarked_cons hx hmem).trans_le (Nat.lt_succ_iff.mp hfuel)
      obtain ⟨reached', hfold, h⟩ := foldlM_mark ih (hclosed x hx) hless
      refine ⟨reached', hfold, fun y hy => h.subset y (List.mem_cons_of_mem x hy), fun y hy => ?_,
        fun y hy => ?_, fun y hy hnew z hz => ?_⟩
      · rw [List.mem_singleton.mp hy]
        exact h.subset x List.mem_cons_self
      · rcases h.sound y hy with hold | ⟨r, hr, hpath⟩
        · rcases List.mem_cons.mp hold with rfl | hold
          · exact Or.inr ⟨y, List.mem_singleton_self y, .refl⟩
          · exact Or.inl hold
        · exact Or.inr ⟨x, List.mem_singleton_self x, hpath.head hr⟩
      · by_cases hyx : y = x
        · rw [hyx] at hz
          exact h.roots_mem z hz
        · refine h.closed y hy (fun hcons => ?_) z hz
          rcases List.mem_cons.mp hcons with hyx' | hold
          · exact hyx hyx'
          · exact hnew hold

/-- On top of a closed set of marked points, the points which the root reaches are added. -/
theorem exists_mark (hclosed : ∀ x ∈ universe', ∀ y ∈ succ x, y ∈ universe') (hx : x ∈ universe')
    (hfuel : universe'.card < fuel) (hreached : ∀ y ∈ reached, ∀ z ∈ succ y, z ∈ reached) :
    ∃ reached', mark succ fuel x reached = some reached' ∧
      (∀ y ∈ reached', ∀ z ∈ succ y, z ∈ reached') ∧
      ∀ y, y ∈ reached' ↔ y ∈ reached ∨ ReflTransGen (fun a b => b ∈ succ a) x y := by
  obtain ⟨reached', hmark, h⟩ := mark_spec hclosed fuel x hx reached
    ((Finset.card_filter_le _ _).trans_lt hfuel)
  have hall : ∀ y ∈ reached', ∀ z ∈ succ y, z ∈ reached' := by
    intro y hy z hz
    by_cases hold : y ∈ reached
    · exact h.subset z (hreached y hold z hz)
    · exact h.closed y hy hold z hz
  refine ⟨reached', hmark, hall, fun y => ⟨fun hy => ?_, ?_⟩⟩
  · rcases h.sound y hy with hold | ⟨r, hr, hpath⟩
    · exact Or.inl hold
    · rw [← List.mem_singleton.mp hr]
      exact Or.inr hpath
  · rintro (hold | hpath)
    · exact h.subset y hold
    · -- the path stays inside the marked points
      induction hpath with
      | refl => exact h.roots_mem x (List.mem_singleton_self x)
      | tail _ hlast ih => exact hall _ ih _ hlast

end MarkReachable
