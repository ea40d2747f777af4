/-
# Sparse and dense tables

A sparse table is a list of entries with distinct natural keys.  When every key is smaller than
the number of entries the keys are all the numbers below it, and the entries can be written
into a list at their keys.
-/
import Mathlib.Data.Finset.Card
import Mathlib.Data.Finset.Range
import Mathlib.Data.List.Nodup
import Mathlib.Data.List.OfFn

namespace DenseTable

variable {α : Type}

/-- The keys of a sparse table are distinct. -/
def Distinct (entries : List (ℕ × α)) : Prop := (entries.map Prod.fst).Nodup

variable {entries : List (ℕ × α)} {k : ℕ}

theorem lookup_isSome_iff : (entries.lookup k).isSome = true ↔ k ∈ entries.map Prod.fst := by
  induction entries with
  | nil => simp
  | cons e entries ih =>
    rw [List.lookup_cons]
    by_cases h : k = e.1
    · simp [h]
    · rw [beq_false_of_ne h, ih, List.map_cons, List.mem_cons, or_iff_right h]

theorem lookup_append_singleton (entries : List (ℕ × α)) (k j : ℕ) (a : α) :
    (entries ++ [(k, a)]).lookup j =
      (entries.lookup j).or (if j = k then some a else none) := by
  induction entries with
  | nil =>
    rw [List.nil_append, List.lookup_cons, List.lookup_nil, Option.none_or]
    by_cases h : j = k
    · rw [if_pos h, h, beq_self_eq_true]
    · rw [if_neg h, beq_false_of_ne h]
  | cons e entries ih =>
    rw [List.cons_append, List.lookup_cons, List.lookup_cons]
    cases j == e.1 with
    | true => rfl
    | false => exact ih

/-- An entry with a new key keeps the keys distinct. -/
theorem Distinct.append_singleton (h : Distinct entries) (hk : entries.lookup k = none) (a : α) :
    Distinct (entries ++ [(k, a)]) := by
  unfold Distinct
  rw [List.map_append, List.map_singleton, ← List.concat_eq_append]
  refine h.concat fun hmem => ?_
  rw [← lookup_isSome_iff, hk] at hmem
  cases hmem

/-- As many distinct keys as there are numbers below a bound are all these numbers. -/
theorem Distinct.mem_of_lt (h : Distinct entries) {n : ℕ} (hlt : ∀ k ∈ entries.map Prod.fst, k < n)
    (hlength : entries.length = n) (hk : k < n) : k ∈ entries.map Prod.fst := by
  have hsubset : (entries.map Prod.fst).toFinset ⊆ Finset.range n := by
    intro j hj
    exact Finset.mem_range.mpr (hlt j (List.mem_toFinset.mp hj))
  have hcard : (Finset.range n).card ≤ (entries.map Prod.fst).toFinset.card := by
    rw [Finset.card_range, List.toFinset_card_of_nodup h, List.length_map, hlength]
  have hall := Finset.eq_of_subset_of_card_le hsubset hcard
  rw [← List.mem_toFinset, hall]
  exact Finset.mem_range.mpr hk

/-- Distinct keys which are all the numbers below a bound are as many as the bound. -/
theorem Distinct.length_eq (h : Distinct entries) {n : ℕ}
    (hall : ∀ k, k ∈ entries.map Prod.fst ↔ k < n) : entries.length = n := by
  have hfinset : (entries.map Prod.fst).toFinset = Finset.range n := by
    apply Finset.ext
    intro k
    rw [List.mem_toFinset, Finset.mem_range, hall]
  rw [← Finset.card_range n, ← hfinset, List.toFinset_card_of_nodup h, List.length_map]

/-- `values[key] = a`. -/
def store (values : List (Option α)) (entry : ℕ × α) : List (Option α) :=
  values.set entry.1 (some entry.2)

theorem length_foldl_store (entries : List (ℕ × α)) (values : List (Option α)) :
    (entries.foldl store values).length = values.length := by
  induction entries generalizing values with
  | nil => rfl
  | cons e entries ih => rw [List.foldl_cons, ih, store, List.length_set]

/-- Behind the writes of a sparse table each element is the entry of its key, or is as it was. -/
theorem getElem?_foldl_store (h : Distinct entries) {values : List (Option α)}
    (hk : k < values.length) :
    (entries.foldl store values)[k]? = ((entries.lookup k).map some).or values[k]? := by
  induction entries generalizing values with
  | nil => simp
  | cons e entries ih =>
    obtain ⟨hnew, hrest⟩ := List.nodup_cons.mp h
    rw [List.foldl_cons, ih hrest (by rwa [store, List.length_set]), List.lookup_cons, store]
    by_cases hke : k = e.1
    · -- the later entries have other keys
      have hnone : entries.lookup k = none := by
        rw [← Option.not_isSome_iff_eq_none, lookup_isSome_iff, hke]
        exact hnew
      rw [hnone, ← hke, List.getElem?_set_self hk, beq_self_eq_true]
      rfl
    · rw [beq_false_of_ne hke, List.getElem?_set_ne (Ne.symm hke)]

/-- The entries of a table with the numbers below its size as keys fill a list of this size. -/
theorem exists_dense (h : Distinct entries) (hlt : ∀ k ∈ entries.map Prod.fst, k < entries.length) :
    ∃ dense : List α, dense.length = entries.length ∧ (∀ k, dense[k]? = entries.lookup k) ∧
      entries.foldl store (List.replicate entries.length none) = dense.map some := by
  have hsome : ∀ k, k < entries.length → (entries.lookup k).isSome = true := fun k hk =>
    lookup_isSome_iff.mpr (h.mem_of_lt hlt rfl hk)
  have hnone : ∀ k, ¬ k < entries.length → entries.lookup k = none := by
    intro k hk
    rw [← Option.not_isSome_iff_eq_none, lookup_isSome_iff]
    exact fun hmem => hk (hlt k hmem)
  let dense : List α := List.ofFn fun k : Fin entries.length =>
    (entries.lookup k.val).get (hsome k.val k.isLt)
  have hget : ∀ k, dense[k]? = entries.lookup k := by
    intro k
    rw [List.getElem?_ofFn]
    by_cases hk : k < entries.length
    · rw [dif_pos hk, Option.some_get]
    · rw [dif_neg hk, hnone k hk]
  refine ⟨dense, List.length_ofFn, hget, ?_⟩
  apply List.ext_getElem?
  intro k
  rw [List.getElem?_map, hget]
  by_cases hk : k < entries.length
  · rw [getElem?_foldl_store h (by rwa [List.length_replicate])]
    obtain ⟨a, ha⟩ := Option.isSome_iff_exists.mp (hsome k hk)
    rw [ha]
    rfl
  · rw [hnone k hk, List.getElem?_eq_none]
    · rfl
    · rw [length_foldl_store, List.length_replicate]
      omega

end DenseTable
