/-
# Visiting a list with early exit

A callback is run on the elements of a list in order, over a state; it may fail,
and it may ask to stop.  The two rules below are what is needed about such loops:
for a preorder `R` which every call respects, an element of the list has been
visited from some state above the initial one, unless an earlier element stopped
the visit.
-/
import Mathlib.Data.List.Basic
import Mathlib.Data.List.Range

namespace Visit

variable {α σ : Type*}

/-- Run `f` on the elements of a list until it asks to stop; the flag of the result
says whether it did. -/
def visit (f : σ → α → Option (σ × Bool)) : List α → σ → Option (σ × Bool)
  | [], s => some (s, false)
  | a :: l, s =>
    match f s a with
    | none => none
    | some (s', true) => some (s', true)
    | some (s', false) => visit f l s'

variable {f : σ → α → Option (σ × Bool)}

theorem visit_cons {a : α} {l : List α} {s s' : σ} {stop : Bool}
    (h : visit f (a :: l) s = some (s', stop)) :
    (f s a = some (s', true) ∧ stop = true) ∨
    ∃ t, f s a = some (t, false) ∧ visit f l t = some (s', stop) := by
  rw [visit] at h
  split at h
  · cases h
  · rename_i t heq
    cases h
    exact .inl ⟨heq, rfl⟩
  · rename_i t heq
    exact .inr ⟨t, heq, h⟩

section Rules

variable {R : σ → σ → Prop} (hrefl : ∀ s, R s s) (htrans : ∀ {s t u}, R s t → R t u → R s u)
  (hstep : ∀ {s a t stop}, f s a = some (t, stop) → R s t)

include hrefl htrans hstep

/-- A visit only moves up. -/
theorem visit_rel {l : List α} {s s' : σ} {stop : Bool} (h : visit f l s = some (s', stop)) :
    R s s' := by
  induction l generalizing s with
  | nil =>
    cases h
    exact hrefl _
  | cons a rest ih =>
    obtain ⟨h1, -⟩ | ⟨t, h1, h2⟩ := visit_cons h
    · exact hstep h1
    · exact htrans (hstep h1) (ih h2)

/-- Either some element before `a` stopped the visit, or `a` was visited. -/
theorem visit_split {l₁ l₂ : List α} {a : α} {s s' : σ} {stop : Bool}
    (h : visit f (l₁ ++ a :: l₂) s = some (s', stop)) :
    (∃ b ∈ l₁, ∃ t, R s t ∧ f t b = some (s', true) ∧ stop = true) ∨
    ∃ t u halt, R s t ∧ f t a = some (u, halt) ∧ R u s' ∧ (halt = true → stop = true) := by
  induction l₁ generalizing s with
  | nil =>
    right
    obtain ⟨h1, h2⟩ | ⟨t, h1, h2⟩ := visit_cons h
    · exact ⟨s, s', true, hrefl s, h1, hrefl s', fun _ => h2⟩
    · exact ⟨s, t, false, hrefl s, h1, visit_rel hrefl htrans hstep h2, fun h => by cases h⟩
  | cons b rest ih =>
    obtain ⟨h1, h2⟩ | ⟨t, h1, h2⟩ := visit_cons h
    · exact .inl ⟨b, List.mem_cons_self, s, hrefl s, h1, h2⟩
    · obtain ⟨c, hc, u, hu, hs⟩ | ⟨u, v, halt, hu, hs⟩ := ih h2
      · exact .inl ⟨c, List.mem_cons_of_mem _ hc, u, htrans (hstep h1) hu, hs⟩
      · exact .inr ⟨u, v, halt, htrans (hstep h1) hu, hs⟩

/-- A visit which was not stopped has seen every element. -/
theorem visit_mem {l : List α} {a : α} {s s' : σ} (h : visit f l s = some (s', false))
    (ha : a ∈ l) : ∃ t u, R s t ∧ f t a = some (u, false) ∧ R u s' := by
  obtain ⟨l₁, l₂, rfl⟩ := List.append_of_mem ha
  obtain ⟨b, -, t, -, -, hstop⟩ | ⟨t, u, halt, h1, h2, h3, h4⟩ :=
    visit_split hrefl htrans hstep h
  · cases hstop
  · cases halt with
    | false => exact ⟨t, u, h1, h2, h3⟩
    | true => cases h4 rfl

end Rules

/-- A visit succeeds when every call on an element of the list does. -/
theorem exists_visit {l : List α} (h : ∀ a ∈ l, ∀ s, ∃ r, f s a = some r) (s : σ) :
    ∃ r, visit f l s = some r := by
  induction l generalizing s with
  | nil => exact ⟨_, rfl⟩
  | cons a rest ih =>
    obtain ⟨⟨t, stop⟩, hcall⟩ := h a List.mem_cons_self s
    rw [visit, hcall]
    cases stop with
    | true => exact ⟨_, rfl⟩
    | false => exact ih (fun b hb => h b (List.mem_cons_of_mem _ hb)) t

/-- A visit in which every call succeeds: an invariant is kept, the state moves up, the
elements are done unless a call stopped the visit, and what a stopping call leaves holds. -/
theorem exists_visit_of_step {I : σ → Prop} {R : σ → σ → Prop} {Done : α → σ → Prop}
    {Stop : σ → Prop} (hrefl : ∀ s, R s s) (htrans : ∀ {s t u}, R s t → R t u → R s u)
    (hmono : ∀ {a s t}, Done a s → R s t → Done a t) {l : List α}
    (hstep : ∀ a ∈ l, ∀ s, I s → ∃ t stop, f s a = some (t, stop) ∧ I t ∧ R s t ∧
      (stop = false → Done a t) ∧ (stop = true → Stop t)) {s : σ} (hs : I s) :
    ∃ t stop, visit f l s = some (t, stop) ∧ I t ∧ R s t ∧
      (stop = false → ∀ a ∈ l, Done a t) ∧ (stop = true → Stop t) := by
  induction l generalizing s with
  | nil =>
    exact ⟨s, false, rfl, hs, hrefl s, fun _ _ h => absurd h List.not_mem_nil, fun h => by cases h⟩
  | cons a rest ih =>
    obtain ⟨t, stop, hcall, ht, hst, hdone, hstop⟩ := hstep a List.mem_cons_self s hs
    rw [visit, hcall]
    cases stop with
    | true => exact ⟨t, true, rfl, ht, hst, (fun h => by cases h), hstop⟩
    | false =>
      obtain ⟨u, stop', hvisit, hu, htu, hall, hstop'⟩ :=
        ih (fun b hb => hstep b (List.mem_cons_of_mem _ hb)) ht
      refine ⟨u, stop', hvisit, hu, htrans hst htu, fun h b hb => ?_, hstop'⟩
      rcases List.mem_cons.mp hb with rfl | hb
      · exact hmono (hdone rfl) htu
      · exact hall h b hb

/-- When no call stops the visit, it fails if the calls on one element do. -/
theorem visit_eq_none {l : List α} (hstop : ∀ {s a t}, f s a ≠ some (t, true)) {a : α}
    (ha : a ∈ l) (hnone : ∀ s, f s a = none) (s : σ) : visit f l s = none := by
  induction l generalizing s with
  | nil => cases ha
  | cons b rest ih =>
    rw [visit]
    rcases hcall : f s b with _ | ⟨t, _ | _⟩
    · rfl
    · rcases List.mem_cons.mp ha with rfl | hrest
      · rw [hnone] at hcall
        cases hcall
      · exact ih hrest t
    · exact absurd hcall hstop

end Visit
