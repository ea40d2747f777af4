/-
# Loops which may fail

A loop over a list whose body may fail: compared with another loop on the image of its
state, and run to its end where no body fails.
-/
import Mathlib.Data.List.Basic

/-- A loop simulates another on the image of its states, as far as an invariant holds. -/
theorem foldlM_map_of_step {σ τ ι : Type} {g : τ → ι → Option τ} {h : σ → ι → Option σ}
    {π : σ → τ} {I : σ → Prop} {l : List ι}
    (hstep : ∀ x ∈ l, ∀ s, I s → g (π s) x = (h s x).map π ∧ ∀ s', h s x = some s' → I s')
    {s : σ} (hs : I s) :
    l.foldlM g (π s) = (l.foldlM h s).map π ∧ ∀ s', l.foldlM h s = some s' → I s' := by
  induction l generalizing s with
  | nil =>
    refine ⟨rfl, ?_⟩
    rintro s' ⟨⟩
    exact hs
  | cons x l ih =>
    obtain ⟨hmap, hinv⟩ := hstep x (by simp) s hs
    rw [List.foldlM_cons, List.foldlM_cons, hmap]
    rcases hx : h s x with _ | s₁
    · exact ⟨rfl, by simp⟩
    · exact ih (fun y hy => hstep y (by simp [hy])) (hinv s₁ hx)

/-- A loop which yields some values has computed each. -/
theorem mapM_eq_some_iff {α β : Type} {f : α → Option β} {l : List α} {ys : List β} :
    l.mapM f = some ys ↔ List.Forall₂ (fun x y => f x = some y) l ys := by
  induction l generalizing ys with
  | nil =>
    constructor
    · rintro ⟨⟩
      exact .nil
    · rintro ⟨⟩
      rfl
  | cons x l ih =>
    rw [List.mapM_cons]
    constructor
    · intro h
      obtain ⟨y, hy, h⟩ := Option.bind_eq_some_iff.mp h
      obtain ⟨ys, hys, h⟩ := Option.bind_eq_some_iff.mp h
      cases h
      exact .cons hy (ih.mp hys)
    · rintro (- | ⟨hy, hys⟩)
      rw [hy, ih.mpr hys]
      rfl

/-- Where no body fails the loop yields the values of the bodies. -/
theorem exists_mapM {α β : Type} {f : α → Option β} {P : α → β → Prop} (l : List α)
    (h : ∀ x ∈ l, ∃ y, f x = some y ∧ P x y) :
    ∃ ys, l.mapM f = some ys ∧ (∀ y ∈ ys, ∃ x ∈ l, P x y) ∧ ∀ x ∈ l, ∃ y ∈ ys, P x y := by
  induction l with
  | nil => exact ⟨[], rfl, by simp, by simp⟩
  | cons x l ih =>
    obtain ⟨y, hy, hP⟩ := h x (by simp)
    obtain ⟨ys, hys, hall, hany⟩ := ih fun x' hx' => h x' (by simp [hx'])
    refine ⟨y :: ys, ?_, ?_, ?_⟩
    · rw [List.mapM_cons, hy, hys]
      rfl
    · intro y' hy'
      rcases List.mem_cons.mp hy' with rfl | hy'
      · exact ⟨x, by simp, hP⟩
      · obtain ⟨x', hx', hP'⟩ := hall y' hy'
        exact ⟨x', by simp [hx'], hP'⟩
    · intro x' hx'
      rcases List.mem_cons.mp hx' with rfl | hx'
      · exact ⟨y, by simp, hP⟩
      · obtain ⟨y', hy', hP'⟩ := hany x' hx'
        exact ⟨y', by simp [hy'], hP'⟩

/-- The loop from some place on. -/
theorem foldlM_exact_from {σ ι : Type} {f : σ → ι → Option σ} {I : List ι → σ → Prop}
    {P : List ι → ι → Prop} {l : List ι}
    (hstep : ∀ visited x todo s, l = visited ++ x :: todo → I visited s →
      ((f s x).isSome = true ↔ P visited x) ∧ ∀ s', f s x = some s' → I (visited ++ [x]) s')
    (rest : List ι) : ∀ (before : List ι) (s : σ), l = before ++ rest → I before s →
      ((rest.foldlM f s).isSome = true ↔
        ∀ visited x todo, rest = visited ++ x :: todo → P (before ++ visited) x) ∧
      ∀ s', rest.foldlM f s = some s' → I l s' := by
  induction rest with
  | nil =>
    intro before s hl hI
    refine ⟨⟨fun _ visited x todo h => by simp at h, fun _ => rfl⟩, ?_⟩
    rintro s' ⟨⟩
    rw [hl, List.append_nil]
    exact hI
  | cons x rest ih =>
    intro before s hl hI
    obtain ⟨hsome, hinv⟩ := hstep before x rest s hl hI
    rw [List.foldlM_cons]
    rcases hx : f s x with - | s₁
    · rw [hx] at hsome
      refine ⟨⟨nofun, ?_⟩, nofun⟩
      intro hall
      have hok := hall [] x rest rfl
      rw [List.append_nil] at hok
      exact absurd (hsome.mpr hok) Bool.false_ne_true
    · obtain ⟨hiff, hend⟩ := ih (before ++ [x]) s₁ (by rw [hl, List.append_assoc]; rfl) (hinv s₁ hx)
      refine ⟨?_, hend⟩
      change (rest.foldlM f s₁).isSome = true ↔ _
      rw [hiff]
      have hok : P before x := hsome.mp (by rw [hx]; rfl)
      constructor
      · intro hall visited y todo heq
        cases visited with
        | nil =>
          rw [List.nil_append, List.cons.injEq] at heq
          rw [← heq.1, List.append_nil]
          exact hok
        | cons z visited =>
          rw [List.cons_append, List.cons.injEq] at heq
          have hy := hall visited y todo heq.2
          rw [← heq.1]
          rwa [List.append_assoc] at hy
      · intro hall visited y todo heq
        have hy := hall (x :: visited) y todo (by rw [heq]; rfl)
        rwa [List.append_assoc]

/-- A loop whose body fails exactly where some condition on the elements before fails: it ends exactly
when the condition holds all along, with its invariant. -/
theorem foldlM_exact {σ ι : Type} {f : σ → ι → Option σ} {I : List ι → σ → Prop}
    {P : List ι → ι → Prop} {l : List ι} {s : σ}
    (hstep : ∀ visited x todo s, l = visited ++ x :: todo → I visited s →
      ((f s x).isSome = true ↔ P visited x) ∧ ∀ s', f s x = some s' → I (visited ++ [x]) s')
    (hs : I [] s) :
    ((l.foldlM f s).isSome = true ↔ ∀ visited x todo, l = visited ++ x :: todo → P visited x) ∧
      ∀ s', l.foldlM f s = some s' → I l s' :=
  foldlM_exact_from hstep l [] s rfl hs
