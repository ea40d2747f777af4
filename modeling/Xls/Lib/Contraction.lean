/-
# Contraction of weighted graphs

A weighted graph is a function from pairs of points to weights.  Two points are made one
by collapsing the rows and the columns of the function; the weights of edges which become
parallel are combined.
-/
import Mathlib.Logic.Function.Basic

namespace WeightedGraph

variable {α β : Type} [DecidableEq α] (merge : β → β → β) (kept lost : α)

/-- The entry at `lost` is moved to `kept`. -/
def collapse (f : α → Option β) (k : α) : Option β :=
  if k = kept then Option.merge merge (f kept) (f lost) else if k = lost then none else f k

/-- The points `kept` and `lost` become one. -/
def contract (e : α → α → Option β) (s t : α) : Option β :=
  collapse merge kept lost (fun t => collapse merge kept lost (fun s => e s t) s) t

variable {merge kept lost} {f g : α → Option β} {e : α → α → Option β} {k s t : α}

theorem collapse_kept : collapse merge kept lost f kept = Option.merge merge (f kept) (f lost) := by
  simp [collapse]

theorem collapse_lost (h : kept ≠ lost) : collapse merge kept lost f lost = none := by
  simp [collapse, Ne.symm h]

theorem collapse_of_ne (hk : k ≠ kept) (hl : k ≠ lost) : collapse merge kept lost f k = f k := by
  simp [collapse, hk, hl]

/-- Nothing changes when there is no entry at `lost`. -/
theorem collapse_eq_self (hf : f lost = none) : collapse merge kept lost f = f := by
  funext k
  by_cases hk : k = kept
  · subst hk
    rw [collapse_kept, hf, Option.merge_none_right]
  · by_cases hl : k = lost
    · subst hl
      simp [collapse, hk, hf]
    · exact collapse_of_ne hk hl

theorem collapse_collapse (h : kept ≠ lost) :
    collapse merge kept lost (collapse merge kept lost f) = collapse merge kept lost f :=
  collapse_eq_self (collapse_lost h)

/-- An entry is left when there was one at either point. -/
theorem collapse_kept_ne_none (hf : f kept ≠ none ∨ f lost ≠ none) :
    collapse merge kept lost f kept ≠ none := by
  rw [collapse_kept, Ne, Option.merge_eq_none_iff, not_and_or]
  exact hf

/-- Where an entry is left there was one. -/
theorem ne_none_of_collapse (h : collapse merge kept lost f k ≠ none) :
    f k ≠ none ∨ k = kept ∧ f lost ≠ none := by
  by_cases hk : k = kept
  · subst hk
    rw [collapse_kept, Ne, Option.merge_eq_none_iff, not_and_or] at h
    rcases h with h | h
    · exact .inl h
    · exact .inr ⟨rfl, h⟩
  · by_cases hl : k = lost
    · subst hl
      simp [collapse, hk] at h
    · rw [collapse_of_ne hk hl] at h
      exact .inl h

/-- The point which a point becomes. -/
def moved (kept lost v : α) : α := if v = lost then kept else v

/-- The entries which are left are those which were moved there. -/
theorem collapse_ne_none_iff (h : kept ≠ lost) :
    collapse merge kept lost f k ≠ none ↔ ∃ v, f v ≠ none ∧ moved kept lost v = k := by
  constructor
  · intro hk
    rcases ne_none_of_collapse hk with hv | ⟨rfl, hv⟩
    · refine ⟨k, hv, if_neg ?_⟩
      rintro rfl
      exact hk (collapse_lost h)
    · exact ⟨lost, hv, if_pos rfl⟩
  · rintro ⟨v, hv, rfl⟩
    unfold moved
    by_cases hl : v = lost
    · subst hl
      rw [if_pos rfl]
      exact collapse_kept_ne_none (.inr hv)
    · rw [if_neg hl]
      by_cases hk : v = kept
      · subst hk
        exact collapse_kept_ne_none (.inl hv)
      · rw [collapse_of_ne hk hl]
        exact hv

/-- The edges of the contracted graph are the images of the edges. -/
theorem contract_ne_none_iff (h : kept ≠ lost) : contract merge kept lost e s t ≠ none ↔
      ∃ s' t', e s' t' ≠ none ∧ moved kept lost s' = s ∧ moved kept lost t' = t := by
  unfold contract
  rw [collapse_ne_none_iff h]
  constructor
  · rintro ⟨t', hst, ht⟩
    obtain ⟨s', hst, hs⟩ := (collapse_ne_none_iff h).mp hst
    exact ⟨s', t', hst, hs, ht⟩
  · rintro ⟨s', t', hst, hs, ht⟩
    exact ⟨t', (collapse_ne_none_iff h).mpr ⟨s', hst, hs⟩, ht⟩

theorem contract_of_ne (hs : s ≠ kept) (hl : s ≠ lost) :
    contract merge kept lost e s = collapse merge kept lost (e s) := by
  unfold contract
  simp only [collapse_of_ne hs hl]

theorem contract_kept : contract merge kept lost e kept =
      collapse merge kept lost fun t => Option.merge merge (e kept t) (e lost t) := by
  unfold contract
  simp only [collapse_kept]

/-- Without edges at the point which is lost nothing changes. -/
theorem contract_eq_self (h : ∀ t, e lost t = none ∧ e t lost = none) :
    contract merge kept lost e = e := by
  funext s t
  rw [contract]
  have hinner : ∀ t, collapse merge kept lost (fun s => e s t) = fun s => e s t :=
    fun t => collapse_eq_self (h t).1
  simp only [hinner]
  exact congrFun (collapse_eq_self (h s).2) t

section Merge

variable [Std.Commutative merge] [Std.Associative merge]

/-- Collapsing and combining commute. -/
theorem merge_collapse :
    Option.merge merge (collapse merge kept lost f k) (collapse merge kept lost g k) =
      collapse merge kept lost (fun t => Option.merge merge (f t) (g t)) k := by
  by_cases hk : k = kept
  · subst hk
    simp only [collapse_kept]
    ac_rfl
  · by_cases hl : k = lost
    · subst hl
      simp [collapse, hk]
    · simp only [collapse_of_ne hk hl]

/-- Rows and columns may be collapsed in either order. -/
theorem contract_swap :
    contract merge kept lost e s t = contract merge kept lost (fun t s => e s t) t s := by
  unfold contract
  by_cases hs : s = kept
  · subst hs
    simp only [collapse_kept]
    rw [merge_collapse]
  · by_cases hl : s = lost
    · subst hl
      have hnone : ∀ g : α → Option β, collapse merge kept s g s = none := by
        intro g
        simp [collapse, hs]
      simp only [hnone]
      rw [collapse_eq_self rfl]
    · simp only [collapse_of_ne hs hl]

end Merge

end WeightedGraph
