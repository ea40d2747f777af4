/-
# Numbers as lists of bits

The number written by a list of bits, least significant bit first.  A list of bits is
determined by its length and its number (`eq_of_value_eq`), and the parts of a list are
remainders and quotients of its number by powers of two.
-/
import Mathlib.Data.Nat.Bitwise
import Mathlib.Tactic.Ring
import Mathlib.Tactic.NormNum

namespace BoolList

/-- The number written by a list of bits. -/
def value : List Bool → ℕ
  | [] => 0
  | b :: v => b.toNat + 2 * value v

@[simp] theorem value_nil : value [] = 0 := rfl
@[simp] theorem value_cons (b : Bool) (v : List Bool) :
    value (b :: v) = b.toNat + 2 * value v := rfl

theorem value_append (v w : List Bool) : value (v ++ w) = value v + 2 ^ v.length * value w := by
  induction v with
  | nil => simp
  | cons b v ih =>
    rw [List.cons_append, value_cons, value_cons, ih, List.length_cons]
    ring

theorem value_lt (v : List Bool) : value v < 2 ^ v.length := by
  induction v with
  | nil => simp
  | cons b v ih =>
    have hb : b.toNat ≤ 1 := b.toNat_le
    rw [value_cons, List.length_cons]
    omega

/-- Two lists of the same length which write the same number are equal. -/
theorem eq_of_value_eq {v w : List Bool} (hl : v.length = w.length) (h : value v = value w) :
    v = w := by
  induction v generalizing w with
  | nil => exact (List.length_eq_zero_iff.mp hl.symm).symm
  | cons b v ih =>
    rcases w with _ | ⟨c, w⟩
    · cases hl
    · rw [value_cons, value_cons] at h
      have hbc : b = c := by
        cases b <;> cases c <;> simp at h <;> first | rfl | omega
      rw [hbc] at h ⊢
      rw [ih (by simpa using hl) (by omega)]

theorem value_eq_iff {v w : List Bool} (hl : v.length = w.length) : value v = value w ↔ v = w :=
  ⟨eq_of_value_eq hl, fun h => h ▸ rfl⟩

@[simp] theorem value_replicate_false (n : ℕ) : value (List.replicate n false) = 0 := by
  induction n with
  | zero => rfl
  | succ n ih => rw [List.replicate_succ, value_cons, ih]; rfl

theorem value_replicate_true (n : ℕ) : value (List.replicate n true) = 2 ^ n - 1 := by
  induction n with
  | zero => rfl
  | succ n ih =>
    have := Nat.two_pow_pos n
    rw [List.replicate_succ, value_cons, Bool.toNat_true]
    omega

/-- The bits of a number. -/
theorem value_map_testBit (n w : ℕ) : value ((List.range w).map n.testBit) = n % 2 ^ w := by
  induction w with
  | zero => simp [Nat.mod_one]
  | succ w ih =>
    rw [List.range_succ, List.map_append, value_append, ih, List.length_map, List.length_range,
      List.map_singleton, value_cons, value_nil, Nat.add_zero, Nat.mod_pow_succ,
      Nat.toNat_testBit]

/-- The complement of a list of bits. -/
theorem value_map_not (v : List Bool) : value (v.map Bool.not) = 2 ^ v.length - 1 - value v := by
  induction v with
  | nil => rfl
  | cons b v ih =>
    have hv := value_lt v
    cases b <;> simp <;> omega

theorem value_pos_iff (v : List Bool) : 0 < value v ↔ true ∈ v := by
  induction v with
  | nil => simp
  | cons b v ih => cases b <;> simp [← ih]

/-- The bits of the number are the elements of the list. -/
theorem testBit_value (v : List Bool) : ∀ i, (value v).testBit i = v.getD i false := by
  induction v with
  | nil => intro i; simp
  | cons b v ih =>
    intro i
    rw [value_cons, Nat.add_comm]
    rcases i with _ | i
    · cases b <;> simp [Nat.testBit_zero]
    · rw [List.getD_cons_succ, ← ih, Nat.testBit_succ, Nat.mul_add_div Nat.two_pos]
      cases b <;> simp

/-- The first elements of a list write the remainder. -/
theorem value_take (v : List Bool) (k : ℕ) : value (v.take k) = value v % 2 ^ k := by
  refine Nat.eq_of_testBit_eq fun i => ?_
  rw [testBit_value, Nat.testBit_mod_two_pow, testBit_value, List.getD_eq_getElem?_getD]
  by_cases hi : i < k <;> simp [hi]

/-- The other elements of a list write the quotient. -/
theorem value_drop (v : List Bool) (k : ℕ) : value (v.drop k) = value v / 2 ^ k := by
  refine Nat.eq_of_testBit_eq fun i => ?_
  rw [testBit_value, Nat.testBit_div_two_pow, testBit_value, List.getD_eq_getElem?_getD,
    List.getElem?_drop, Nat.add_comm, List.getD_eq_getElem?_getD]

/-! ## The most significant bit -/

theorem value_concat (v : List Bool) (b : Bool) :
    value (v ++ [b]) = value v + 2 ^ v.length * b.toNat := by
  rw [value_append, value_cons, value_nil, Nat.add_zero]

/-- Without its most significant bit, a list writes the remainder. -/
theorem value_dropLast (v : List Bool) : value v.dropLast = value v % 2 ^ (v.length - 1) := by
  rcases List.eq_nil_or_concat v with rfl | ⟨w, b, rfl⟩
  · simp
  · rw [List.concat_eq_append, List.dropLast_concat, value_concat, List.length_append,
      List.length_singleton, Nat.add_sub_cancel, Nat.add_mul_mod_self_left,
      Nat.mod_eq_of_lt (value_lt w)]

/-- The most significant bit says whether the number reaches half of the range. -/
theorem getLastD_eq_true_iff {v : List Bool} (hv : v ≠ []) :
    v.getLastD false = true ↔ 2 ^ (v.length - 1) ≤ value v := by
  rcases List.eq_nil_or_concat v with rfl | ⟨w, b, rfl⟩
  · exact absurd rfl hv
  · have hw := value_lt w
    rw [List.concat_eq_append, value_concat, List.length_append, List.length_singleton]
    cases b <;> simp [hw]

end BoolList
