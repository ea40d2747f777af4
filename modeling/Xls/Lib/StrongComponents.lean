/-
# Strongly connected components in order

A list of components is `Emitted` when each is strongly connected, no two have a vertex in
common, and every edge from a component stays in it or leads to an earlier one.  Then all that
is reachable from a component is in it or in an earlier one (`Emitted.reachable`), and two
vertices have the same component exactly when each is reachable from the other
(`Emitted.same_iff`).
-/
import Mathlib.Data.Finset.Disjoint
import Mathlib.Logic.Relation

namespace StrongComponents

open Relation

variable {V : Type*} {R : V → V → Prop} {result : List (Finset V)}

/-- The components of a part of a graph which no edge leaves, successors first. -/
structure Emitted (R : V → V → Prop) (result : List (Finset V)) : Prop where
  nonempty : ∀ c ∈ result, c.Nonempty
  connected : ∀ c ∈ result, ∀ u ∈ c, ∀ v ∈ c, ReflTransGen R u v
  disjoint : result.Pairwise Disjoint
  successors : ∀ front c back, result = front ++ c :: back → ∀ u ∈ c, ∀ w, R u w →
    w ∈ c ∨ ∃ d ∈ front, w ∈ d

theorem Emitted.nil : Emitted R [] where
  nonempty c h := absurd h List.not_mem_nil
  connected c h := absurd h List.not_mem_nil
  disjoint := List.Pairwise.nil
  successors front c back h := by simp at h

/-- One more component. -/
theorem Emitted.concat (h : Emitted R result) {c : Finset V} (hne : c.Nonempty)
    (hconn : ∀ u ∈ c, ∀ v ∈ c, ReflTransGen R u v) (hdisj : ∀ d ∈ result, Disjoint d c)
    (hsucc : ∀ u ∈ c, ∀ w, R u w → w ∈ c ∨ ∃ d ∈ result, w ∈ d) :
    Emitted R (result ++ [c]) where
  nonempty d hd := by
    rcases List.mem_append.mp hd with hd | hd
    · exact h.nonempty d hd
    · rwa [List.mem_singleton.mp hd]
  connected d hd := by
    rcases List.mem_append.mp hd with hd | hd
    · exact h.connected d hd
    · rwa [List.mem_singleton.mp hd]
  disjoint := by
    refine List.pairwise_append.mpr ⟨h.disjoint, List.pairwise_singleton .., ?_⟩
    intro d hd e he
    rw [List.mem_singleton.mp he]
    exact hdisj d hd
  successors front d back heq := by
    rcases List.eq_nil_or_concat back with rfl | ⟨back', last, rfl⟩
    · -- the last component is the new one
      obtain ⟨rfl, hlast⟩ := List.append_inj' heq rfl
      obtain rfl := List.head_eq_of_cons_eq hlast
      exact hsucc
    · rw [List.concat_eq_append, ← List.cons_append, ← List.append_assoc] at heq
      obtain ⟨rfl, -⟩ := List.append_inj' heq rfl
      exact h.successors front d back' rfl

/-- What is reachable from a component is in it or in an earlier one. -/
theorem Emitted.reachable (h : Emitted R result) {front back : List (Finset V)} {c : Finset V}
    (heq : result = front ++ c :: back) {u w : V} (hu : u ∈ c) (hw : ReflTransGen R u w) :
    w ∈ c ∨ ∃ d ∈ front, w ∈ d := by
  induction hw with
  | refl => exact Or.inl hu
  | tail _ hedge ih =>
    rcases ih with hc | ⟨d, hd, hdw⟩
    · exact h.successors front c back heq _ hc _ hedge
    · obtain ⟨f₁, f₂, rfl⟩ := List.append_of_mem hd
      have heq' : result = f₁ ++ d :: (f₂ ++ c :: back) := by
        rw [heq, List.append_assoc, List.cons_append]
      rcases h.successors f₁ d _ heq' _ hdw _ hedge with hin | ⟨e, he, hin⟩
      · exact Or.inr ⟨d, hd, hin⟩
      · exact Or.inr ⟨e, List.mem_append_left _ he, hin⟩

/-- No edge leaves the vertices of all components. -/
theorem Emitted.closed (h : Emitted R result) {u w : V} (hu : ∃ c ∈ result, u ∈ c)
    (hw : ReflTransGen R u w) : ∃ c ∈ result, w ∈ c := by
  obtain ⟨c, hc, huc⟩ := hu
  obtain ⟨front, back, heq⟩ := List.append_of_mem hc
  rcases h.reachable heq huc hw with hin | ⟨d, hd, hin⟩
  · exact ⟨c, hc, hin⟩
  · exact ⟨d, heq ▸ List.mem_append_left _ hd, hin⟩

/-- The vertices of a component are those which reach each other. -/
theorem Emitted.same_iff (h : Emitted R result) {c : Finset V} (hc : c ∈ result) {u v : V}
    (hu : u ∈ c) : v ∈ c ↔ ReflTransGen R u v ∧ ReflTransGen R v u := by
  refine ⟨fun hv => ⟨h.connected c hc u hu v hv, h.connected c hc v hv u hu⟩, ?_⟩
  rintro ⟨huv, hvu⟩
  obtain ⟨front, back, heq⟩ := List.append_of_mem hc
  rcases h.reachable heq hu huv with hv | ⟨d, hd, hv⟩
  · exact hv
  · -- from an earlier component there would be a way back
    obtain ⟨f₁, f₂, rfl⟩ := List.append_of_mem hd
    have hdisj := h.disjoint
    rw [List.append_assoc] at heq
    rw [heq] at hdisj
    rcases h.reachable heq hv hvu with hud | ⟨e, he, hue⟩
    · have hdc := (List.pairwise_cons.mp (List.pairwise_append.mp hdisj).2.1).1 c (by simp)
      exact absurd hu (Finset.disjoint_left.mp hdc hud)
    · have hec := (List.pairwise_append.mp hdisj).2.2 e he c (by simp)
      exact absurd hu (Finset.disjoint_left.mp hec hue)

end StrongComponents
