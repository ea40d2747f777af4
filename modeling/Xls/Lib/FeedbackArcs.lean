/-
# Arrangements of a graph

The vertices of a directed graph in a line.  An edge goes back if its end stands at or before
its start.

* `Precedes` : which of two vertices stands first;
* `exists_back_edge`, `exists_arrangement` : the vertices to which edges go back meet every
  cycle, and any vertices which meet every cycle can be made to be the only ones.
-/
import Mathlib.Data.Finset.Filter
import Mathlib.Data.List.Sort
import Xls.Lib.Digraph

namespace FeedbackArcs

open Relation

variable {α : Type}

/-- `v` stands at or before `u`. -/
def Precedes (l : List α) (v u : α) : Prop := ∃ l₁ l₂, l = l₁ ++ v :: l₂ ∧ u ∈ v :: l₂

theorem precedes_cons {l : List α} {w v u : α} :
    Precedes (w :: l) v u ↔ (v = w ∧ u ∈ w :: l) ∨ Precedes l v u := by
  constructor
  · rintro ⟨l₁, l₂, hl, hu⟩
    rcases l₁ with _ | ⟨x, l₁⟩
    · cases hl
      exact .inl ⟨rfl, hu⟩
    · cases hl
      exact .inr ⟨l₁, l₂, rfl, hu⟩
  · rintro (⟨rfl, hu⟩ | ⟨l₁, l₂, rfl, hu⟩)
    · exact ⟨[], l, rfl, hu⟩
    · exact ⟨w :: l₁, l₂, rfl, hu⟩

theorem precedes_append {l l' : List α} {v u : α} :
    Precedes (l ++ l') v u ↔ Precedes l v u ∨ (v ∈ l ∧ u ∈ l') ∨ Precedes l' v u := by
  induction l with
  | nil =>
    constructor
    · exact fun h => .inr (.inr h)
    · rintro (⟨l₁, l₂, hl, -⟩ | ⟨hv, -⟩ | h)
      · simp at hl
      · cases hv
      · exact h
  | cons w l ih =>
    rw [List.cons_append, precedes_cons, precedes_cons, ih, List.mem_cons, List.mem_append,
      List.mem_cons, List.mem_cons]
    constructor
    · rintro (⟨rfl, hu | hu | hu⟩ | h | ⟨hv, hu⟩ | h)
      · exact .inl (.inl ⟨rfl, .inl hu⟩)
      · exact .inl (.inl ⟨rfl, .inr hu⟩)
      · exact .inr (.inl ⟨.inl rfl, hu⟩)
      · exact .inl (.inr h)
      · exact .inr (.inl ⟨.inr hv, hu⟩)
      · exact .inr (.inr h)
    · rintro ((⟨rfl, hu | hu⟩ | h) | ⟨rfl | hv, hu⟩ | h)
      · exact .inl ⟨rfl, .inl hu⟩
      · exact .inl ⟨rfl, .inr (.inl hu)⟩
      · exact .inr (.inl h)
      · exact .inl ⟨rfl, .inr (.inr hu)⟩
      · exact .inr (.inr (.inl ⟨hv, hu⟩))
      · exact .inr (.inr (.inr h))

theorem Precedes.mem {l : List α} {v u : α} (h : Precedes l v u) : v ∈ l ∧ u ∈ l := by
  obtain ⟨l₁, l₂, rfl, hu⟩ := h
  exact ⟨List.mem_append_right _ List.mem_cons_self, List.mem_append_right _ hu⟩

theorem precedes_of_idxOf_le [DecidableEq α] {l : List α} {v u : α} (hu : u ∈ l)
    (h : l.idxOf v ≤ l.idxOf u) : Precedes l v u := by
  have hlt : l.idxOf v < l.length := h.trans_lt (List.idxOf_lt_length_of_mem hu)
  have hdrop : v :: l.drop (l.idxOf v + 1) = l.drop (l.idxOf v) := by
    rw [List.drop_eq_getElem_cons hlt, List.getElem_idxOf hlt]
  refine ⟨l.take (l.idxOf v), l.drop (l.idxOf v + 1), ?_, ?_⟩
  · rw [hdrop, List.take_append_drop]
  · rw [hdrop, List.mem_drop_iff_getElem]
    refine ⟨l.idxOf u - l.idxOf v, by have := List.idxOf_lt_length_of_mem hu; omega, ?_⟩
    simp only [Nat.add_sub_cancel' h, List.getElem_idxOf]

/-- A cycle through arranged vertices goes back somewhere. -/
theorem exists_back_edge {R : α → α → Prop} {l : List α} (hl : ∀ u v, R u v → u ∈ l) {x : α}
    (h : TransGen R x x) : ∃ u v, R u v ∧ Precedes l v u := by
  classical
  by_contra hnone
  refine Digraph.acyclic_of_rank (fun v => l.idxOf v) (fun {u v} huv => ?_) x h
  by_contra hle
  exact hnone ⟨u, v, huv, precedes_of_idxOf_le (hl u v huv) (not_lt.mp hle)⟩

/-- Where every cycle meets `M`, there is an arrangement whose edges go back to vertices in `M`
only: these come first, and the others by their rank. -/
theorem exists_arrangement {R : α → α → Prop} (V : Finset α) (M : α → Prop)
    (hM : ∀ x, ¬ TransGen (fun u v => R u v ∧ ¬ M u ∧ ¬ M v) x x) :
    ∃ l : List α, l.Nodup ∧ (∀ v, v ∈ l ↔ v ∈ V) ∧ ∀ u v, R u v → Precedes l v u → M v := by
  classical
  obtain ⟨rank, hrank, -⟩ := Digraph.exists_rank (R := fun u v => (R u v ∧ ¬ M u ∧ ¬ M v) ∧ u ∈ V)
    V (fun h => h.2) fun x hx => hM x (TransGen.mono (fun _ _ h => h.1) _ _ hx)
  set first := (V.filter M).toList with hfirst
  set others := (V.filter fun v => ¬ M v).toList.insertionSort fun u v => rank u ≤ rank v
    with hothers
  have hmemFirst : ∀ v, v ∈ first ↔ v ∈ V ∧ M v := fun v => by
    rw [hfirst, Finset.mem_toList, Finset.mem_filter]
  have hmemOthers : ∀ v, v ∈ others ↔ v ∈ V ∧ ¬ M v := fun v => by
    rw [hothers, List.mem_insertionSort, Finset.mem_toList, Finset.mem_filter]
  have hsorted : others.Pairwise fun u v => rank u ≤ rank v := by
    have : Std.Total fun u v => rank u ≤ rank v := ⟨fun u v => le_total (rank u) (rank v)⟩
    have : IsTrans α fun u v => rank u ≤ rank v := ⟨fun _ _ _ => le_trans⟩
    exact List.pairwise_insertionSort _ _
  refine ⟨first ++ others, ?_, fun v => ?_, fun u v huv hp => ?_⟩
  · refine List.nodup_append.mpr ⟨Finset.nodup_toList _, ?_, ?_⟩
    · exact (List.perm_insertionSort _ _).nodup_iff.mpr (Finset.nodup_toList _)
    · rintro v hv _ hv' rfl
      exact ((hmemOthers v).mp hv').2 ((hmemFirst v).mp hv).2
  · rw [List.mem_append, hmemFirst, hmemOthers, ← and_or_left]
    exact and_iff_left (Classical.em _)
  · rcases precedes_append.mp hp with hp | ⟨hv, -⟩ | hp
    · exact ((hmemFirst v).mp hp.mem.1).2
    · exact ((hmemFirst v).mp hv).2
    · -- both are sorted by their rank, which an edge raises
      have hv := (hmemOthers v).mp hp.mem.1
      have hu := (hmemOthers u).mp hp.mem.2
      have hlt : rank u < rank v := hrank ⟨⟨huv, hu.2, hv.2⟩, hu.1⟩
      obtain ⟨l₁, l₂, hsplit, hmem⟩ := hp
      rw [hsplit] at hsorted
      rcases List.mem_cons.mp hmem with rfl | hmem
      · exact absurd hlt (lt_irrefl _)
      · have hle := (List.pairwise_cons.mp (List.pairwise_append.mp hsorted).2.1).1 u hmem
        exact absurd hlt (not_lt.mpr hle)

end FeedbackArcs
