/-
# Mixed-radix iteration

`MixedRadixIterate` (`xls/common/math_util.cc`): a number with one digit per radix,
least significant digit first, runs from zero until it overflows; the callback sees
each number and may ask to stop.  The loop is a do-while, so that the callback runs
once even when a radix is zero.
-/
import Xls.Lib.Visit
import Mathlib.Algebra.BigOperators.Group.List.Basic

namespace Xls

/-- `increment_number`: `none` on overflow (the digits are then all zero again). -/
def incrementNumber : List ℕ → List ℕ → Option (List ℕ)
  | r :: radix, d :: number =>
    if d + 1 ≥ r then (incrementNumber radix number).map (0 :: ·)
    else some ((d + 1) :: number)
  | _, _ => none

/-- The do-while loop, with the number of iterations bounded by `fuel`. -/
def mixedRadixLoop {σ : Type*} (radix : List ℕ) (f : σ → List ℕ → Option (σ × Bool)) :
    ℕ → List ℕ → σ → Option (σ × Bool)
  | 0, _, s => some (s, false)
  | fuel + 1, number, s =>
    match f s number with
    | none => none
    | some (s', true) => some (s', true)
    | some (s', false) =>
      match incrementNumber radix number with
      | none => some (s', false)
      | some number' => mixedRadixLoop radix f fuel number' s'

/-- `MixedRadixIterate`.  There are as many numbers as the product of the radices, a
zero radix counting as one. -/
def mixedRadixIterate {σ : Type*} (radix : List ℕ) (f : σ → List ℕ → Option (σ × Bool)) (s : σ) :
    Option (σ × Bool) :=
  mixedRadixLoop radix f (radix.map (max 1)).prod (radix.map fun _ => 0) s

/-! ## The numbers which are visited -/

/-- All numbers, in the order of the loop. -/
def mixedRadixNumbers : List ℕ → List (List ℕ)
  | [] => [[]]
  | r :: radix => (mixedRadixNumbers radix).flatMap fun number =>
    (List.range' 0 (max 1 r)).map (· :: number)

/-- The numbers from a given one on, `fuel` of them at most. -/
def numbersFrom (radix : List ℕ) : ℕ → List ℕ → List (List ℕ)
  | 0, _ => []
  | fuel + 1, number =>
    match incrementNumber radix number with
    | none => [number]
    | some number' => number :: numbersFrom radix fuel number'

theorem mixedRadixLoop_eq_visit {σ : Type*} (radix : List ℕ)
    (f : σ → List ℕ → Option (σ × Bool)) (fuel : ℕ) :
    ∀ number s, mixedRadixLoop radix f fuel number s =
      Visit.visit f (numbersFrom radix fuel number) s := by
  induction fuel with
  | zero => intro number s; rfl
  | succ fuel ih =>
    intro number s
    rw [mixedRadixLoop, numbersFrom]
    obtain hf | ⟨⟨s', _ | _⟩, hf⟩ := Option.eq_none_or_eq_some (f s number) <;>
      cases incrementNumber radix number <;> simp [Visit.visit, hf, ih]

/-- The digits of one radix run up to the last one before the higher digits move. -/
theorem numbersFrom_digit (r : ℕ) (radix number : List ℕ) (fuel : ℕ) (k : ℕ) :
    ∀ d, d + k + 1 = max 1 r → numbersFrom (r :: radix) (fuel + k) (d :: number) =
      (List.range' d k).map (· :: number) ++ numbersFrom (r :: radix) fuel ((d + k) :: number) := by
  induction k with
  | zero => intro d _; simp
  | succ k ih =>
    intro d hd
    have hlt : ¬ d + 1 ≥ r := by omega
    rw [← Nat.add_assoc, numbersFrom, incrementNumber, if_neg hlt]
    simp only
    rw [ih (d + 1) (by omega), List.range'_succ, List.map_cons, List.cons_append,
      show d + 1 + k = d + (k + 1) by omega]

/-- The numbers over one more radix: the digits below each higher number. -/
theorem numbersFrom_cons (r : ℕ) (radix : List ℕ) (fuel : ℕ) :
    ∀ number, numbersFrom (r :: radix) (fuel * max 1 r) (0 :: number) =
      (numbersFrom radix fuel number).flatMap fun n => (List.range' 0 (max 1 r)).map (· :: n) := by
  induction fuel with
  | zero => intro number; simp [numbersFrom]
  | succ fuel ih =>
    intro number
    -- the last digit, where the increment carries
    have hlast : incrementNumber (r :: radix) ((max 1 r - 1) :: number) =
        (incrementNumber radix number).map (0 :: ·) := by
      rw [incrementNumber, if_pos (by omega)]
    have hdigits : List.range' 0 (max 1 r) = List.range' 0 (max 1 r - 1) ++ [max 1 r - 1] := by
      conv_lhs => rw [show max 1 r = max 1 r - 1 + 1 by omega]
      rw [List.range'_concat]
      simp
    rw [Nat.add_mul, Nat.one_mul,
      show fuel * max 1 r + max 1 r = fuel * max 1 r + 1 + (max 1 r - 1) by omega,
      numbersFrom_digit r radix number _ (max 1 r - 1) 0 (by omega), Nat.zero_add, numbersFrom,
      hlast, numbersFrom, hdigits]
    cases incrementNumber radix number with
    | none => simp
    | some number' =>
      simp only [Option.map_some]
      rw [ih number', hdigits]
      simp

theorem numbersFrom_zero (radix : List ℕ) :
    numbersFrom radix (radix.map (max 1)).prod (radix.map fun _ => 0) =
      mixedRadixNumbers radix := by
  induction radix with
  | nil => rfl
  | cons r radix ih =>
    rw [List.map_cons, List.map_cons, List.prod_cons, Nat.mul_comm, numbersFrom_cons, ih]
    rfl

/-- `MixedRadixIterate` visits all numbers in order. -/
theorem mixedRadixIterate_eq_visit {σ : Type*} (radix : List ℕ)
    (f : σ → List ℕ → Option (σ × Bool)) (s : σ) :
    mixedRadixIterate radix f s = Visit.visit f (mixedRadixNumbers radix) s := by
  rw [mixedRadixIterate, mixedRadixLoop_eq_visit, numbersFrom_zero]

/-- The digits of a visited number are below the radices, where these are positive. -/
theorem lt_of_mem_mixedRadixNumbers {radix number : List ℕ} (h : number ∈ mixedRadixNumbers radix) :
    List.Forall₂ (fun d r => d < max 1 r) number radix := by
  induction radix generalizing number with
  | nil =>
    rw [mixedRadixNumbers, List.mem_singleton] at h
    subst h
    exact .nil
  | cons r radix ih =>
    rw [mixedRadixNumbers, List.mem_flatMap] at h
    obtain ⟨rest, hrest, hnumber⟩ := h
    obtain ⟨d, hd, rfl⟩ := List.mem_map.mp hnumber
    rw [List.mem_range'_1] at hd
    exact .cons (by omega) (ih hrest)

theorem zeros_mem_mixedRadixNumbers (radix : List ℕ) :
    (radix.map fun _ => 0) ∈ mixedRadixNumbers radix := by
  induction radix with
  | nil => simp [mixedRadixNumbers]
  | cons r radix ih =>
    rw [mixedRadixNumbers, List.mem_flatMap]
    refine ⟨_, ih, List.mem_map.mpr ⟨0, ?_, rfl⟩⟩
    rw [List.mem_range'_1]
    omega

/-- Every number with its digits below the radices is visited. -/
theorem mem_mixedRadixNumbers {radix number : List ℕ}
    (h : List.Forall₂ (· < ·) number radix) : number ∈ mixedRadixNumbers radix := by
  induction h with
  | nil => simp [mixedRadixNumbers]
  | cons hlt _ ih =>
    rw [mixedRadixNumbers, List.mem_flatMap]
    refine ⟨_, ih, List.mem_map.mpr ⟨_, ?_, rfl⟩⟩
    rw [List.mem_range'_1]
    omega

end Xls
