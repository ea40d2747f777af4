/-
# Related runs of partial list programs

Two programs which do the same with related data have related results.  The rules below
are for programs over lists which may fail: their outcomes are related by `Option.Rel`,
which makes one fail exactly when the other does, and their lists by `List.Forall₂`.
-/
import Mathlib.Data.List.Forall2
import Mathlib.Data.List.Basic

namespace Relational

variable {α β γ δ ε ζ : Type*} {R : α → β → Prop} {S : γ → δ → Prop} {T : ε → ζ → Prop}

/-! ## Partial programs -/

variable {x : Option α} {y : Option β} {a : α} {l₁ : List α} {l₂ : List β} {b : β}

theorem rel_bind {f : α → Option γ} {g : β → Option δ} (h : Option.Rel R x y)
    (hf : ∀ a b, R a b → Option.Rel S (f a) (g b)) : Option.Rel S (x.bind f) (y.bind g) := by
  rcases h with hab | _
  · exact hf _ _ hab
  · exact .none

/-- The same, with the outcomes known in the continuations. -/
theorem rel_bind_of_eq {f : α → Option γ} {g : β → Option δ} (h : Option.Rel R x y)
    (hf : ∀ a b, x = some a → y = some b → R a b → Option.Rel S (f a) (g b)) :
    Option.Rel S (x.bind f) (y.bind g) := by
  rcases h with hab | _
  · exact hf _ _ rfl rfl hab
  · exact .none

theorem rel_map {f : α → γ} {g : β → δ} (h : Option.Rel R x y) (hf : ∀ a b, R a b → S (f a) (g b)) :
    Option.Rel S (x.map f) (y.map g) := by
  rcases h with hab | _
  · exact .some (hf _ _ hab)
  · exact .none

/-- The same check, made on both sides. -/
theorem rel_ite {p q : Prop} [Decidable p] [Decidable q] {x' : Option α} {y' : Option β}
    (hpq : p ↔ q) (h : p → q → Option.Rel R x y) (h' : ¬ p → ¬ q → Option.Rel R x' y') :
    Option.Rel R (if p then x else x') (if q then y else y') := by
  by_cases hp : p
  · rw [if_pos hp, if_pos (hpq.mp hp)]
    exact h hp (hpq.mp hp)
  · rw [if_neg hp, if_neg fun hq => hp (hpq.mpr hq)]
    exact h' hp fun hq => hp (hpq.mpr hq)

/-- A loop over the same indices on both sides. -/
theorem rel_mapM {ι : Type*} {f : ι → Option α} {g : ι → Option β} (l : List ι)
    (h : ∀ i, Option.Rel R (f i) (g i)) :
    Option.Rel (List.Forall₂ R) (l.mapM f) (l.mapM g) := by
  induction l with
  | nil => exact .some .nil
  | cons i l ih =>
    rw [List.mapM_cons, List.mapM_cons]
    refine rel_bind (h i) fun a b hab => rel_bind ih fun as bs hs => ?_
    exact .some (.cons hab hs)

/-- Each element of a loop which succeeds has a result. -/
theorem exists_of_mapM {ι : Type*} {f : ι → Option α} {l : List ι} {l' : List α} {i : ι}
    (h : l.mapM f = some l') (hi : i ∈ l) : ∃ a, f i = some a := by
  induction l generalizing l' with
  | nil => cases hi
  | cons j l ih =>
    rw [List.mapM_cons] at h
    obtain ⟨b, hb, h⟩ := Option.bind_eq_some_iff.mp h
    obtain ⟨bs, hbs, -⟩ := Option.bind_eq_some_iff.mp h
    rcases List.mem_cons.mp hi with rfl | hi
    · exact ⟨b, hb⟩
    · exact ih hbs hi

/-- The results of a loop which succeeds. -/
theorem mem_of_mapM {ι : Type*} {f : ι → Option α} {l : List ι} {l' : List α} {i : ι}
    (h : l.mapM f = some l') (hi : i ∈ l) (ha : f i = some a) : a ∈ l' := by
  induction l generalizing l' with
  | nil => cases hi
  | cons j l ih =>
    rw [List.mapM_cons] at h
    obtain ⟨b, hb, h⟩ := Option.bind_eq_some_iff.mp h
    obtain ⟨bs, hbs, h⟩ := Option.bind_eq_some_iff.mp h
    cases h
    rcases List.mem_cons.mp hi with rfl | hi
    · rw [ha] at hb
      cases hb
      exact List.mem_cons_self
    · exact List.mem_cons_of_mem _ (ih hbs hi)

/-! ## Lists -/

/-- An element of the first list stands beside one of the second. -/
theorem exists_of_forall₂ (h : List.Forall₂ R l₁ l₂) (ha : a ∈ l₁) : ∃ b ∈ l₂, R a b := by
  induction h with
  | nil => cases ha
  | cons hab _ ih =>
    rcases List.mem_cons.mp ha with rfl | ha
    · exact ⟨_, List.mem_cons_self, hab⟩
    · obtain ⟨b, hb, hR⟩ := ih ha
      exact ⟨b, List.mem_cons_of_mem _ hb, hR⟩

theorem forall₂_append_left {l₂ : List α} {m : List β} (h : List.Forall₂ R (l₁ ++ l₂) m) :
    ∃ m₁ m₂, List.Forall₂ R l₁ m₁ ∧ List.Forall₂ R l₂ m₂ ∧ m = m₁ ++ m₂ := by
  induction l₁ generalizing m with
  | nil => exact ⟨[], m, .nil, h, rfl⟩
  | cons a l₁ ih =>
    rcases h with - | ⟨ha, h⟩
    obtain ⟨m₁, m₂, h₁, h₂, rfl⟩ := ih h
    exact ⟨_ :: m₁, m₂, .cons ha h₁, h₂, rfl⟩

theorem forall₂_zipWith {f : α → γ → ε} {g : β → δ → ζ} {m₁ : List γ} {m₂ : List δ}
    (hl : List.Forall₂ R l₁ l₂) (hm : List.Forall₂ S m₁ m₂)
    (hf : ∀ a b c d, R a b → S c d → T (f a c) (g b d)) :
    List.Forall₂ T (List.zipWith f l₁ m₁) (List.zipWith g l₂ m₂) := by
  induction hl generalizing m₁ m₂ with
  | nil => exact .nil
  | cons hab _ ih =>
    rcases hm with _ | ⟨hcd, hm⟩
    · exact .nil
    · exact .cons (hf _ _ _ _ hab hcd) (ih hm)

theorem forall₂_zip {m₁ : List γ} {m₂ : List δ} (hl : List.Forall₂ R l₁ l₂)
    (hm : List.Forall₂ S m₁ m₂) :
    List.Forall₂ (fun p q => R p.1 q.1 ∧ S p.2 q.2) (l₁.zip m₁) (l₂.zip m₂) :=
  forall₂_zipWith hl hm fun _ _ _ _ hab hcd => ⟨hab, hcd⟩

theorem forall₂_replicate (h : R a b) (n : ℕ) :
    List.Forall₂ R (List.replicate n a) (List.replicate n b) := by
  induction n with
  | zero => exact .nil
  | succ n ih => exact .cons h ih

/-- The same list on both sides. -/
theorem forall₂_map_same {ι : Type*} {f : ι → α} {g : ι → β} (l : List ι)
    (h : ∀ i, R (f i) (g i)) : List.Forall₂ R (l.map f) (l.map g) := by
  induction l with
  | nil => exact .nil
  | cons i l ih => exact .cons (h i) ih

theorem forall₂_append {m₁ : List α} {m₂ : List β} (hl : List.Forall₂ R l₁ l₂)
    (hm : List.Forall₂ R m₁ m₂) : List.Forall₂ R (l₁ ++ m₁) (l₂ ++ m₂) :=
  List.rel_append hl hm

section

variable (h : List.Forall₂ R l₁ l₂)

include h

theorem forall₂_imp_mem {S : α → β → Prop}
    (hS : ∀ a ∈ l₁, ∀ b, R a b → S a b) : List.Forall₂ S l₁ l₂ := by
  induction h with
  | nil => exact .nil
  | cons hab _ ih =>
    rw [List.forall_mem_cons] at hS
    exact .cons (hS.1 _ hab) (ih hS.2)

theorem forall₂_getElem? {i : ℕ} (ha : l₁[i]? = some a) (hb : l₂[i]? = some b) : R a b := by
  induction h generalizing i with
  | nil => cases ha
  | cons hab _ ih =>
    rcases i with _ | i
    · rw [List.getElem?_cons_zero, Option.some.injEq] at ha hb
      subst ha hb
      exact hab
    · exact ih ha hb

theorem forall₂_zipIdx (k : ℕ) :
    List.Forall₂ (fun p q => R p.1 q.1 ∧ p.2 = q.2) (l₁.zipIdx k) (l₂.zipIdx k) := by
  induction h generalizing k with
  | nil => exact .nil
  | cons hab _ ih => exact .cons ⟨hab, rfl⟩ (ih (k + 1))

omit h in
theorem forall₂_modify {f : α → α} {g : β → β} (k : ℕ) (h : List.Forall₂ R l₁ l₂)
    (hf : ∀ a b, R a b → R (f a) (g b)) : List.Forall₂ R (l₁.modify k f) (l₂.modify k g) := by
  induction h generalizing k with
  | nil => cases k <;> exact .nil
  | cons hab hl ih =>
    rcases k with _ | k
    · exact .cons (hf _ _ hab) hl
    · exact .cons hab (ih k)

theorem forall₂_dropLast : List.Forall₂ R l₁.dropLast l₂.dropLast := by
  rw [List.dropLast_eq_take, List.dropLast_eq_take, h.length_eq]
  exact List.forall₂_take _ h

theorem rel_head? : Option.Rel R l₁.head? l₂.head? := by
  rcases h with _ | ⟨hab, _⟩
  · exact .none
  · exact .some hab

theorem rel_getLast? : Option.Rel R l₁.getLast? l₂.getLast? := by
  rw [List.getLast?_eq_head?_reverse, List.getLast?_eq_head?_reverse]
  exact rel_head? (List.rel_reverse h)

omit h in
theorem rel_getD (h : Option.Rel R x y) (hab : R a b) : R (x.getD a) (y.getD b) := by
  rcases h with hcd | _
  · exact hcd
  · exact hab

theorem rel_getLastD (hab : R a b) : R (l₁.getLastD a) (l₂.getLastD b) := by
  rw [List.getLastD_eq_getLast?, List.getLastD_eq_getLast?]
  exact rel_getD (rel_getLast? h) hab

end

/-- A fold over related lists from related states. -/
theorem rel_foldl {f : α → γ → α} {g : β → δ → β} {l₁ : List γ} {l₂ : List δ}
    (hl : List.Forall₂ S l₁ l₂) (hab : R a b) (hf : ∀ a b c d, R a b → S c d → R (f a c) (g b d)) :
    R (l₁.foldl f a) (l₂.foldl g b) :=
  List.rel_foldl (P := R) (R := S) (fun _ _ hr _ _ hs => hf _ _ _ _ hr hs) hab hl

theorem rel_foldr {f : γ → α → α} {g : δ → β → β} {l₁ : List γ} {l₂ : List δ}
    (hl : List.Forall₂ S l₁ l₂) (hab : R a b) (hf : ∀ a b c d, R a b → S c d → R (f c a) (g d b)) :
    R (l₁.foldr f a) (l₂.foldr g b) := by
  induction hl with
  | nil => exact hab
  | cons hcd _ ih => exact hf _ _ _ _ ih hcd

end Relational
