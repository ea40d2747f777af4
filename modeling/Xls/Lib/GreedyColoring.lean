/-
# Colouring by maximal independent sets

A graph is coloured by taking a maximal independent set of what is left for each next colour.
`Colored` holds at the start and after each colour (`Colored.concat`); when nothing is left, a
vertex has a neighbour in every earlier class, so there are at most as many colours as the
largest degree and one more (`Colored.length_le`).
-/
import Mathlib.Algebra.Order.Monoid.Unbundled.Basic
import Mathlib.Data.Finset.Card

namespace GreedyColoring

variable {V : Type*} [DecidableEq V] {Adj : V → V → Prop}

/-- No two vertices of the set are adjacent, and every other vertex is adjacent to one of it. -/
structure IsMaximal (Adj : V → V → Prop) (vertices chosen : Finset V) : Prop where
  nonempty : chosen.Nonempty
  subset : chosen ⊆ vertices
  independent : ∀ u ∈ chosen, ∀ v ∈ chosen, u ≠ v → ¬ Adj u v
  maximal : ∀ v ∈ vertices, v ∉ chosen → ∃ u ∈ chosen, Adj v u

/-- Some vertices have their colours, and some are left. -/
structure Colored (Adj : V → V → Prop) (vertices left : Finset V) (classes : List (Finset V)) :
    Prop where
  nonempty : ∀ c ∈ classes, c.Nonempty
  independent : ∀ c ∈ classes, ∀ u ∈ c, ∀ v ∈ c, u ≠ v → ¬ Adj u v
  disjoint : classes.Pairwise Disjoint
  cover : ∀ v, v ∈ vertices ↔ v ∈ left ∨ ∃ c ∈ classes, v ∈ c
  left_disjoint : ∀ c ∈ classes, Disjoint c left
  adjacent : ∀ earlier c later, classes = earlier ++ c :: later → ∀ v ∈ c, ∀ d ∈ earlier,
    ∃ u ∈ d, Adj v u
  left_adjacent : ∀ v ∈ left, ∀ d ∈ classes, ∃ u ∈ d, Adj v u

variable {vertices left chosen : Finset V} {classes : List (Finset V)}

omit [DecidableEq V] in
theorem Colored.start : Colored Adj vertices vertices [] where
  nonempty c h := absurd h List.not_mem_nil
  independent c h := absurd h List.not_mem_nil
  disjoint := List.Pairwise.nil
  cover v := by simp
  left_disjoint c h := absurd h List.not_mem_nil
  adjacent earlier c later h := by simp at h
  left_adjacent v _ d h := absurd h List.not_mem_nil

/-- One more colour. -/
theorem Colored.concat (h : Colored Adj vertices left classes) (hc : IsMaximal Adj left chosen) :
    Colored Adj vertices (left \ chosen) (classes ++ [chosen]) where
  nonempty c hmem := by
    rcases List.mem_append.mp hmem with hmem | hmem
    · exact h.nonempty c hmem
    · rw [List.mem_singleton.mp hmem]
      exact hc.nonempty
  independent c hmem := by
    rcases List.mem_append.mp hmem with hmem | hmem
    · exact h.independent c hmem
    · rw [List.mem_singleton.mp hmem]
      exact hc.independent
  disjoint := by
    refine List.pairwise_append.mpr ⟨h.disjoint, List.pairwise_singleton .., ?_⟩
    intro c hmem d hd
    rw [List.mem_singleton.mp hd]
    exact (h.left_disjoint c hmem).mono_right hc.subset
  cover v := by
    rw [h.cover]
    constructor
    · rintro (hv | ⟨c, hmem, hv⟩)
      · by_cases hvc : v ∈ chosen
        · exact Or.inr ⟨chosen, List.mem_append_right _ (List.mem_singleton_self _), hvc⟩
        · exact Or.inl (Finset.mem_sdiff.mpr ⟨hv, hvc⟩)
      · exact Or.inr ⟨c, List.mem_append_left _ hmem, hv⟩
    · rintro (hv | ⟨c, hmem, hv⟩)
      · exact Or.inl (Finset.mem_sdiff.mp hv).1
      · rcases List.mem_append.mp hmem with hmem | hmem
        · exact Or.inr ⟨c, hmem, hv⟩
        · rw [List.mem_singleton.mp hmem] at hv
          exact Or.inl (hc.subset hv)
  left_disjoint c hmem := by
    rcases List.mem_append.mp hmem with hmem | hmem
    · exact (h.left_disjoint c hmem).mono_right Finset.sdiff_subset
    · rw [List.mem_singleton.mp hmem]
      exact Finset.disjoint_sdiff
  adjacent earlier c later heq := by
    rcases List.eq_nil_or_concat later with rfl | ⟨later', last, rfl⟩
    · -- the last class is the new one, and its vertices were left
      obtain ⟨rfl, hlast⟩ := List.append_inj' heq rfl
      obtain rfl := List.head_eq_of_cons_eq hlast
      exact fun v hv d hd => h.left_adjacent v (hc.subset hv) d hd
    · rw [List.concat_eq_append, ← List.cons_append, ← List.append_assoc] at heq
      obtain ⟨rfl, -⟩ := List.append_inj' heq rfl
      exact h.adjacent earlier c later' rfl
  left_adjacent v hv d hd := by
    obtain ⟨hleft, hnot⟩ := Finset.mem_sdiff.mp hv
    rcases List.mem_append.mp hd with hd | hd
    · exact h.left_adjacent v hleft d hd
    · rw [List.mem_singleton.mp hd]
      exact hc.maximal v hleft hnot

/-- One colour more than the largest degree is enough. -/
theorem Colored.length_le (h : Colored Adj vertices ∅ classes) (neighbors : V → Finset V) {k : ℕ}
    (hneighbors : ∀ v ∈ vertices, ∀ u ∈ vertices, u ≠ v → Adj v u → u ∈ neighbors v)
    (hk : ∀ v ∈ vertices, (neighbors v).card ≤ k) : classes.length ≤ k + 1 := by
  rcases List.eq_nil_or_concat classes with rfl | ⟨earlier, c, rfl⟩
  · exact Nat.zero_le _
  rw [List.concat_eq_append] at h ⊢
  obtain ⟨v, hv⟩ := h.nonempty c (List.mem_append_right _ (List.mem_singleton_self _))
  have hin : ∀ {u d}, d ∈ earlier ++ [c] → u ∈ d → u ∈ vertices := fun hd hu =>
    (h.cover _).mpr (Or.inr ⟨_, hd, hu⟩)
  have hvmem := hin (List.mem_append_right _ (List.mem_singleton_self _)) hv
  have hdisj := List.pairwise_append.mp h.disjoint
  -- every earlier class has a neighbour, and the classes are disjoint
  have hcount : ∀ ds : List (Finset V), ds.Pairwise Disjoint →
      (∀ d ∈ ds, ∃ u ∈ d, u ∈ neighbors v) →
      ds.length ≤ ((neighbors v).filter fun u => ∃ d ∈ ds, u ∈ d).card := by
    intro ds
    induction ds with
    | nil => exact fun _ _ => Nat.zero_le _
    | cons d ds ih =>
      intro hpair hall
      obtain ⟨hd, hds⟩ := List.pairwise_cons.mp hpair
      obtain ⟨u, hud, hu⟩ := hall d (List.mem_cons_self ..)
      have hrest := ih hds fun d' hd' => hall d' (List.mem_cons_of_mem _ hd')
      refine (Nat.succ_le_succ hrest).trans (Finset.card_lt_card ?_)
      refine (Finset.ssubset_iff_of_subset ?_).mpr ⟨u, ?_, ?_⟩
      · intro x hx
        obtain ⟨hxn, d', hd', hxd⟩ := Finset.mem_filter.mp hx
        exact Finset.mem_filter.mpr ⟨hxn, d', List.mem_cons_of_mem _ hd', hxd⟩
      · exact Finset.mem_filter.mpr ⟨hu, d, List.mem_cons_self .., hud⟩
      · intro hx
        obtain ⟨-, d', hd', hud'⟩ := Finset.mem_filter.mp hx
        exact absurd hud' (Finset.disjoint_left.mp (hd d' hd') hud)
  have hle := hcount earlier hdisj.1 fun d hd => by
    obtain ⟨u, hud, hadj⟩ := h.adjacent earlier c [] rfl v hv d hd
    have hne : u ≠ v := by
      rintro rfl
      exact absurd hv (Finset.disjoint_left.mp (hdisj.2.2 d hd c (List.mem_singleton_self _)) hud)
    exact ⟨u, hud, hneighbors v hvmem u (hin (List.mem_append_left _ hd) hud) hne hadj⟩
  rw [List.length_append]
  exact Nat.succ_le_succ (hle.trans ((Finset.card_filter_le _ _).trans (hk v hvmem)))

end GreedyColoring
