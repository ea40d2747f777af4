/-
# Numerals

The number written by a list of digits, most significant digit first.  Digits are read one
after the other (`value_concat`), or in groups (`value_append`).
-/
import Mathlib.Data.List.Basic
import Mathlib.Data.List.Induction
import Mathlib.Data.Nat.Digits.Defs
import Mathlib.Tactic.Ring

namespace Numeral

/-- The number written by a list of digits. -/
def value (base : ℕ) (ds : List ℕ) : ℕ := ds.foldl (fun n d => n * base + d) 0

@[simp] theorem value_nil (base : ℕ) : value base [] = 0 := rfl

theorem value_concat (base : ℕ) (ds : List ℕ) (d : ℕ) :
    value base (ds ++ [d]) = value base ds * base + d := by
  rw [value, List.foldl_append]
  rfl

/-- The digits of a group stand below those before it. -/
theorem value_append (base : ℕ) (ds es : List ℕ) :
    value base (ds ++ es) = value base ds * base ^ es.length + value base es := by
  induction es using List.reverseRecOn with
  | nil => simp
  | append_singleton es e ih =>
    rw [← List.append_assoc, value_concat, ih, value_concat, List.length_append,
      List.length_singleton]
    ring

theorem value_cons (base d : ℕ) (ds : List ℕ) :
    value base (d :: ds) = d * base ^ ds.length + value base ds := by
  rw [← List.singleton_append, value_append]
  simp [value]

theorem value_lt {base : ℕ} {ds : List ℕ} (h : ∀ d ∈ ds, d < base) :
    value base ds < base ^ ds.length := by
  induction ds using List.reverseRecOn with
  | nil => simp
  | append_singleton ds d ih =>
    have hd : d < base := h d (by simp)
    have hds := ih fun e he => h e (by simp [he])
    rw [value_concat, List.length_append, List.length_singleton]
    calc value base ds * base + d < value base ds * base + base := by omega
      _ = (value base ds + 1) * base := by ring
      _ ≤ base ^ ds.length * base := Nat.mul_le_mul_right _ hds

/-- The decimal text of a number lists digits which write it, the first of them zero only for
zero itself. -/
theorem exists_toDigits {base : ℕ} (hbase : 1 < base) (n : ℕ) : ∃ ds : List ℕ,
    Nat.toDigits base n = ds.map Nat.digitChar ∧ (∀ d ∈ ds, d < base) ∧ value base ds = n ∧
      ds ≠ [] ∧ (0 < n → ds.head? ≠ some 0) ∧ (n = 0 → ds = [0]) := by
  induction n using Nat.strong_induction_on with
  | _ n ih =>
    by_cases hn : n < base
    · refine ⟨[n], Nat.toDigits_of_lt_base hn, by simpa using hn, by simp [value], by simp, ?_, ?_⟩
      · intro hpos h
        rw [List.head?_cons, Option.some.injEq] at h
        omega
      · rintro rfl
        rfl
    · have hpos : 0 < n / base := Nat.div_pos (not_lt.mp hn) (by omega)
      obtain ⟨ds, hdigits, hlt, hvalue, hne, hhead, -⟩ :=
        ih (n / base) (Nat.div_lt_self (by omega) hbase)
      refine ⟨ds ++ [n % base], ?_, ?_, ?_, by simp, ?_, by omega⟩
      · rw [Nat.toDigits_of_base_le hbase (not_lt.mp hn), hdigits, List.map_append,
          List.map_singleton]
      · intro d hd
        rcases List.mem_append.mp hd with hd | hd
        · exact hlt d hd
        · rw [List.mem_singleton.mp hd]
          exact Nat.mod_lt _ (by omega)
      · rw [value_concat, hvalue, Nat.mul_comm, Nat.div_add_mod]
      · rw [List.head?_append_of_ne_nil _ hne]
        exact fun _ => hhead hpos

end Numeral
