/-
# Division of the abstract evaluator

`UDivMod` and `SDivMod` of `xls/ir/abstract_evaluator.h` at booleans agree with the
divisions of `xls/ir/bits_ops.cc`.  The evaluator divides bit by bit; its invariant is
that quotient and remainder divide the bits of the dividend read so far
(`bool_uDivModLoop`).  `bits_ops` divides integers and truncates the result.
-/
import Xls.BigInt
import Xls.Ir.BooleanEvaluator

namespace Xls
namespace Evaluator

open BoolList

/-! ## Unsigned division -/

/-- The state of the long division after the bits of `n`: the widths, and for a non-zero
divisor the defining equation of quotient and remainder. -/
structure Divides (n d : List Bool) (s : DivisionResult Bool) : Prop where
  quotient_length : s.quotient.length = n.length
  remainder_length : s.remainder.length = d.length
  remainder_lt : 0 < value d → value s.remainder < value d
  equation : 0 < value d → value s.quotient * value d + value s.remainder = value n

variable {d negDivisor x : List Bool}

/-- What one step computes. -/
theorem bool_uDivModStep_eq {s : DivisionResult Bool} (bit : Bool)
    (hs : s.remainder.length = d.length) (hneg : negDivisor.length = d.length + 1) :
    ∃ difference : List Bool, difference.length = d.length + 1 ∧ value difference =
        (value (bit :: s.remainder) + value negDivisor) % 2 ^ (d.length + 1) ∧
      bool.uDivModStep (d ++ [false]) negDivisor bit s =
        some { quotient := (!decide (value (bit :: s.remainder) < value d)) :: s.quotient
               remainder := (if !decide (value (bit :: s.remainder) < value d) then difference
                 else bit :: s.remainder).dropLast } := by
  have hdivisor : value (d ++ [false]) = value d := by simp [value_concat]
  have hlen : (bit :: s.remainder).length = (d ++ [false]).length := by simp [hs]
  obtain ⟨difference, hdiff, hdl, hdv⟩ :=
    bool_add (a := bit :: s.remainder) (b := negDivisor) (by simp [hs, hneg])
  rw [List.length_cons, hs] at hdl hdv
  refine ⟨difference, hdl, hdv, ?_⟩
  have hselect := bool_select_two (b := !decide (value (bit :: s.remainder) < value d))
    (show (bit :: s.remainder).length = difference.length by simp [hs, hdl])
  simp only [uDivModStep, bool_uLessThan hlen, hdivisor, hdiff]
  show (bool.select [!decide (value (bit :: s.remainder) < value d)] _ none).bind _ = _
  rw [hselect]
  rfl

/-- One step of the long division reads one more bit. -/
theorem bool_uDivModStep {n : List Bool} {s : DivisionResult Bool} (bit : Bool)
    (hneg : negDivisor.length = d.length + 1)
    (hvalue : value negDivisor = (2 ^ (d.length + 1) - value d) % 2 ^ (d.length + 1))
    (hs : Divides n d s) :
    ∃ s', bool.uDivModStep (d ++ [false]) negDivisor bit s = some s' ∧ Divides (bit :: n) d s' := by
  have hd := value_lt d
  have hbit := bit.toNat_le
  obtain ⟨difference, hdl, hdv, hstep⟩ := bool_uDivModStep_eq bit hs.remainder_length hneg
  refine ⟨_, hstep, ?_⟩
  rw [value_cons] at hdv ⊢
  by_cases hlt : bit.toNat + 2 * value s.remainder < value d
  · -- the divisor does not fit
    simp only [hlt, decide_true, Bool.not_true, Bool.false_eq_true, if_false]
    have hrem : value (bit :: s.remainder).dropLast = bit.toNat + 2 * value s.remainder := by
      rw [value_dropLast, value_cons, List.length_cons, Nat.add_sub_cancel, hs.remainder_length,
        Nat.mod_eq_of_lt (hlt.trans hd)]
    constructor
    · simp [hs.quotient_length]
    · simp [hs.remainder_length]
    · intro _
      rw [hrem]
      exact hlt
    · intro hpos
      have heq := hs.equation hpos
      rw [hrem, value_cons, value_cons, ← heq, Bool.toNat_false]
      ring
  · simp only [hlt, decide_false, Bool.not_false]
    -- the difference, for a non-zero divisor, does not wrap
    have hrem : 0 < value d →
        value difference.dropLast + value d = bit.toNat + 2 * value s.remainder := by
      intro hpos
      have hr := hs.remainder_lt hpos
      have hsub : bit.toNat + 2 * value s.remainder - value d < 2 ^ d.length := by omega
      rw [value_dropLast, hdl, Nat.add_sub_cancel, hdv, hvalue,
        Nat.mod_eq_of_lt (show 2 ^ (d.length + 1) - value d < 2 ^ (d.length + 1) by omega),
        show bit.toNat + 2 * value s.remainder + (2 ^ (d.length + 1) - value d) =
          bit.toNat + 2 * value s.remainder - value d + 2 ^ (d.length + 1) by omega,
        Nat.add_mod_right, Nat.mod_eq_of_lt (hsub.trans (by omega)), Nat.mod_eq_of_lt hsub]
      omega
    constructor
    · simp [hs.quotient_length]
    · simp [hdl]
    · intro hpos
      have hr := hs.remainder_lt hpos
      show value difference.dropLast < value d
      omega
    · intro hpos
      have heq := hs.equation hpos
      have hsum := hrem hpos
      rw [value_cons, value_cons, Bool.toNat_true, Nat.add_mul]
      show _ + value difference.dropLast = _
      have hassoc : 2 * value s.quotient * value d = 2 * (value s.quotient * value d) := by ring
      omega

/-- The long division divides the bits read. -/
theorem bool_uDivModLoop (n : List Bool) (hneg : negDivisor.length = d.length + 1)
    (hvalue : value negDivisor = (2 ^ (d.length + 1) - value d) % 2 ^ (d.length + 1)) :
    ∃ s, bool.uDivModLoop (d ++ [false]) negDivisor
      { quotient := [], remainder := List.replicate d.length false } n = some s ∧
      Divides n d s := by
  induction n with
  | nil =>
    refine ⟨_, rfl, rfl, by simp, ?_, ?_⟩
    · intro h
      simpa using h
    · intro _
      simp
  | cons bit n ih =>
    obtain ⟨s, hloop, hs⟩ := ih
    obtain ⟨s', hstep, hs'⟩ := bool_uDivModStep bit hneg hvalue hs
    refine ⟨s', ?_, hs'⟩
    rw [uDivModLoop, hloop]
    exact hstep

/-- Quotient and remainder of `UDivMod`. -/
theorem bool_uDivMod (n d : List Bool) :
    ∃ s, bool.uDivMod n d = some s ∧ s.quotient.length = n.length ∧ s.remainder.length = d.length ∧
      value s.quotient = (if value d = 0 then 2 ^ n.length - 1 else value n / value d) ∧
      value s.remainder = if value d = 0 then 0 else value n % value d := by
  obtain ⟨negDivisor, hnd, hndl, hndv⟩ := bool_neg (x := d ++ [false]) (by simp)
  have hdivisor : value (d ++ [false]) = value d := by simp [value_concat]
  rw [List.length_append] at hndl hndv
  rw [hdivisor] at hndv
  obtain ⟨s, hloop, hs⟩ := bool_uDivModLoop n hndl hndv
  have hq := bool_select_two (b := decide (0 < value d))
    (show (List.replicate s.quotient.length true).length = s.quotient.length by simp)
  have hr := bool_select_two (b := decide (0 < value d))
    (show (List.replicate s.remainder.length false).length = s.remainder.length by simp)
  have hrun : bool.uDivMod n d = some
      { quotient := if decide (0 < value d) then s.quotient
          else List.replicate s.quotient.length true
        remainder := if decide (0 < value d) then s.remainder
          else List.replicate s.remainder.length false } := by
    simp only [uDivMod, bool_zeroExtend_succ, bool_orReduce, hnd, Option.bind_eq_bind,
      Option.bind_some, bool_zero, bool_one, hloop, hq, hr]
  rw [hrun]
  refine ⟨_, rfl, ?_⟩
  by_cases hd : value d = 0
  · simp only [hd, lt_irrefl, decide_false, Bool.false_eq_true, if_false, if_true,
      List.length_replicate, hs.quotient_length, hs.remainder_length, value_replicate_true,
      value_replicate_false, and_self]
  · have hpos : 0 < value d := Nat.pos_of_ne_zero hd
    have hrem := hs.remainder_lt hpos
    have heq := hs.equation hpos
    simp only [hpos, decide_true, if_true, hd, if_false]
    refine ⟨hs.quotient_length, hs.remainder_length, ?_, ?_⟩
    · rw [← heq, Nat.add_comm, Nat.add_mul_div_right _ _ hpos, Nat.div_eq_of_lt hrem, Nat.zero_add]
    · rw [← heq, Nat.add_comm, Nat.add_mul_mod_self_right, Nat.mod_eq_of_lt hrem]

/-! ## Signed division -/

/-- The two's-complement reading of a vector. -/
def intValue (v : List Bool) : ℤ :=
  if v.getLastD false then (value v : ℤ) - 2 ^ v.length else value v

theorem intValue_eq_zero_iff {v : List Bool} : intValue v = 0 ↔ value v = 0 := by
  have hlt : (value v : ℤ) < 2 ^ v.length := by exact_mod_cast value_lt v
  unfold intValue
  split
  · rename_i hback
    constructor
    · intro h
      omega
    · intro h
      have hne : v ≠ [] := by
        rintro rfl
        cases hback
      have := (getLastD_eq_true_iff hne).mp hback
      have := Nat.two_pow_pos (v.length - 1)
      omega
  · exact Nat.cast_eq_zero

/-- The sign of the two's-complement reading is the last bit. -/
theorem intValue_neg_iff (v : List Bool) : intValue v < 0 ↔ v.getLastD false = true := by
  have hlt : (value v : ℤ) < 2 ^ v.length := by exact_mod_cast value_lt v
  unfold intValue
  split
  · rename_i h
    exact ⟨fun _ => h, fun _ => by omega⟩
  · rename_i h
    exact ⟨fun h' => absurd h' (by omega), fun h' => absurd h' h⟩

/-- `Select({b}, {x, Neg(x)})` negates, modulo the range, when `b` is set. -/
theorem bool_select_neg (b : Bool) (hx : x ≠ []) :
    ∃ negated v, bool.neg x = some negated ∧ bool.select [b] [x, negated] none = some v ∧
      v.length = x.length ∧
      (value v : ℤ) = (if b then -(value x : ℤ) else value x) % 2 ^ x.length := by
  have hlt : (value x : ℤ) < 2 ^ x.length := by exact_mod_cast value_lt x
  obtain ⟨negated, hneg, hl, hv⟩ := bool_neg hx
  refine ⟨negated, _, hneg, bool_select_two hl.symm, ?_, ?_⟩
  · cases b
    · rfl
    · exact hl
  · cases b
    · simp only [Bool.false_eq_true, if_false]
      rw [Int.emod_eq_of_lt (by positivity) hlt]
    · simp only [if_true]
      rw [hv, Int.natCast_mod, Nat.cast_sub (value_lt x).le, Nat.cast_pow, Nat.cast_ofNat,
        Int.sub_emod_left]

theorem getLast?_eq_getLastD {v : List Bool} (hv : v ≠ []) :
    v.getLast? = some (v.getLastD false) := by
  rw [List.getLastD_eq_getLast?, List.getLast?_eq_some_getLast hv]
  rfl

/-- `Abs` writes the magnitude. -/
theorem bool_abs (hx : x ≠ []) :
    ∃ v, bool.abs x = some v ∧ v.length = x.length ∧ value v = (intValue x).natAbs := by
  have hlt : (value x : ℤ) < 2 ^ x.length := by exact_mod_cast value_lt x
  obtain ⟨negated, v, hneg, hsel, hl, hv⟩ := bool_select_neg (x.getLastD false) hx
  refine ⟨v, ?_, hl, ?_⟩
  · rw [abs, getLast?_eq_getLastD hx]
    simp only [hneg]
    exact hsel
  · by_cases hback : x.getLastD false = true
    · have hhalf := (getLastD_eq_true_iff hx).mp hback
      have hpos := Nat.two_pow_pos (x.length - 1)
      rw [hback, if_pos rfl, ← Int.sub_emod_left, Int.emod_eq_of_lt (by omega) (by omega)] at hv
      rw [intValue, hback, if_pos rfl]
      omega
    · rw [if_neg hback, Int.emod_eq_of_lt (by positivity) hlt] at hv
      rw [intValue, if_neg hback]
      omega

/-- An integer is its magnitude with its sign. -/
theorem eq_natAbs_or_neg (a : ℤ) :
    (decide (a < 0) = true ∧ a = -(a.natAbs : ℤ)) ∨ (decide (a < 0) = false ∧ a = a.natAbs) := by
  rcases lt_or_ge a 0 with h | h
  · exact .inl ⟨decide_eq_true h, by omega⟩
  · exact .inr ⟨decide_eq_false (by omega), by omega⟩

/-- Division of integers in terms of the magnitudes. -/
theorem tdiv_eq_natAbs (a b : ℤ) :
    a.tdiv b = if Bool.xor (decide (a < 0)) (decide (b < 0)) then -((a.natAbs / b.natAbs : ℕ) : ℤ)
      else (a.natAbs / b.natAbs : ℕ) := by
  rcases eq_natAbs_or_neg a with ⟨hda, ha⟩ | ⟨hda, ha⟩ <;>
    rcases eq_natAbs_or_neg b with ⟨hdb, hb⟩ | ⟨hdb, hb⟩ <;>
    rw [hda, hdb] <;> conv_lhs => rw [ha, hb]
  · rw [Int.neg_tdiv_neg]; rfl
  · rw [Int.neg_tdiv]; rfl
  · rw [Int.tdiv_neg]; rfl
  · rfl

/-- Remainders of integers in terms of the magnitudes. -/
theorem tmod_eq_natAbs (a b : ℤ) :
    a.tmod b = if decide (a < 0) then -((a.natAbs % b.natAbs : ℕ) : ℤ)
      else (a.natAbs % b.natAbs : ℕ) := by
  have hb : ∀ x : ℤ, x.tmod b = x.tmod b.natAbs := by
    intro x
    rcases Int.natAbs_eq b with h | h <;> conv_lhs => rw [h]
    rw [Int.tmod_neg]
  rw [hb]
  rcases eq_natAbs_or_neg a with ⟨hda, ha⟩ | ⟨hda, ha⟩ <;> rw [hda] <;> conv_lhs => rw [ha]
  · rw [Int.neg_tmod]; rfl
  · rfl

theorem value_withBack_one {w : ℕ} (hw : 0 < w) :
    (withBack w true false).length = w ∧ value (withBack w true false) = 2 ^ (w - 1) - 1 := by
  rw [withBack, if_neg hw.ne', value_concat, value_replicate_true]
  refine ⟨?_, by simp⟩
  rw [List.length_append, List.length_replicate, List.length_singleton]
  omega

theorem value_withBack_zero {w : ℕ} (hw : 0 < w) :
    (withBack w false true).length = w ∧ value (withBack w false true) = 2 ^ (w - 1) := by
  rw [withBack, if_neg hw.ne', value_concat]
  refine ⟨?_, by simp⟩
  rw [List.length_append, List.length_replicate, List.length_singleton]
  omega

/-- The last select of `SDivMod`, on the sign of the dividend and on whether the divisor
is zero. -/
theorem bool_select_zeroDivisor {y q : List Bool} (b nonzero : Bool) (hx : x.length = q.length)
    (hy : y.length = q.length) :
    bool.select [b, nonzero] [x, y] (some q) =
      some (if nonzero then q else if b then y else x) := by
  have hw : ∀ c ∈ [x, y], c.length = q.length := by
    intro c hc
    rcases List.mem_pair.mp hc with rfl | rfl
    · exact hx
    · exact hy
  cases nonzero with
  | true =>
    exact bool_select_default hw (by simp) (by simp) (by simp) (by cases b <;> simp)
  | false =>
    have hlt : value [b, false] < [x, y].length := by cases b <;> simp
    rw [bool_select_case hw (by simp) (by simp) (by simp) hlt]
    cases b <;> rfl

theorem decide_intValue_neg (v : List Bool) : decide (intValue v < 0) = v.getLastD false := by
  rw [Bool.eq_iff_iff, decide_eq_true_eq, intValue_neg_iff]

/-- Quotient and remainder of `SDivMod`. -/
theorem bool_sDivMod {n : List Bool} (hn : n ≠ []) (hd : d ≠ []) :
    ∃ s, bool.sDivMod n d = some s ∧ s.quotient.length = n.length ∧ s.remainder.length = d.length ∧
      (value s.quotient : ℤ) = (if value d = 0 then
          (if n.getLastD false then 2 ^ (n.length - 1) else 2 ^ (n.length - 1) - 1)
        else (intValue n).tdiv (intValue d) % 2 ^ n.length) ∧
      (value s.remainder : ℤ) =
        if value d = 0 then 0 else (intValue n).tmod (intValue d) % 2 ^ d.length := by
  obtain ⟨absN, habsN, hnl, hnv⟩ := bool_abs hn
  obtain ⟨absD, habsD, hdl, hdv⟩ := bool_abs hd
  have hzero : value absD = 0 ↔ value d = 0 := by
    rw [hdv, Int.natAbs_eq_zero, intValue_eq_zero_iff]
  obtain ⟨s, hs, hql, hrl, hq, hr⟩ := bool_uDivMod absN absD
  rw [hnl] at hql hq
  rw [hdl] at hrl
  have hqne : s.quotient ≠ [] := by
    rw [ne_eq, ← List.length_eq_zero_iff, hql, List.length_eq_zero_iff]
    exact hn
  have hrne : s.remainder ≠ [] := by
    rw [ne_eq, ← List.length_eq_zero_iff, hrl, List.length_eq_zero_iff]
    exact hd
  obtain ⟨negR, r, hnegR, hselR, hrl', hr'⟩ := bool_select_neg (n.getLastD false) hrne
  obtain ⟨negQ, q, hnegQ, hselQ, hql', hq'⟩ :=
    bool_select_neg (bool.xor (n.getLastD false) (d.getLastD false)) hqne
  have hxor : bool.xor (n.getLastD false) (d.getLastD false) =
      Bool.xor (n.getLastD false) (d.getLastD false) := by
    cases n.getLastD false <;> cases d.getLastD false <;> rfl
  have hqpos : 0 < q.length := by
    rw [hql', hql]
    exact List.length_pos_iff.mpr hn
  obtain ⟨hposl, hposv⟩ := value_withBack_one hqpos
  obtain ⟨hnegl, hnegv⟩ := value_withBack_zero hqpos
  have hlast := bool_select_zeroDivisor (n.getLastD false) (decide (0 < value d)) hposl hnegl
  have hrun : bool.sDivMod n d = some
      { quotient := if decide (0 < value d) then q else if n.getLastD false
          then withBack q.length false true else withBack q.length true false
        remainder := r } := by
    simp only [sDivMod, bool_orReduce, List.getLast?_singleton, habsN, habsD, hs, hnegR,
      Option.bind_eq_bind, Option.bind_some, bool_zero, bool_one, hselR, hnegQ, hselQ, hlast]
  rw [hql', hql] at hposl hposv hnegl hnegv
  rw [hrun]
  refine ⟨_, rfl, ?_⟩
  by_cases hd0 : value d = 0
  · simp only [hd0, lt_irrefl, decide_false, Bool.false_eq_true, if_false, if_true]
    rw [if_pos (hzero.mpr hd0)] at hr
    rw [hql', hql]
    refine ⟨?_, hrl'.trans hrl, ?_, ?_⟩
    · cases n.getLastD false
      · exact hposl
      · exact hnegl
    · have hcast : ((2 ^ (n.length - 1) : ℕ) : ℤ) = 2 ^ (n.length - 1) := Nat.cast_pow 2 _
      have hpow := Nat.two_pow_pos (n.length - 1)
      rw [← hcast]
      cases n.getLastD false
      · simp only [Bool.false_eq_true, if_false]
        omega
      · simp only [if_true]
        rw [hnegv]
    · rw [hr', hr]
      simp
  · have hpos : 0 < value d := Nat.pos_of_ne_zero hd0
    rw [if_neg fun h => hd0 (hzero.mp h), hnv, hdv] at hq hr
    simp only [hpos, decide_true, if_true, hd0, if_false]
    refine ⟨hql'.trans hql, hrl'.trans hrl, ?_, ?_⟩
    · rw [hq', hxor, hql, hq, tdiv_eq_natAbs, decide_intValue_neg, decide_intValue_neg]
    · rw [hr', hrl, hr, tmod_eq_natAbs, decide_intValue_neg]

/-! ## Agreement with `bits_ops` -/

theorem bool_bitsToVector_ne_nil {b : Bits} (hb : 0 < b.bitCount) : bool.bitsToVector b ≠ [] := by
  rw [ne_eq, ← List.length_eq_zero_iff, length_bool_bitsToVector]
  exact hb.ne'

theorem getLastD_bitsToVector {b : Bits} (hb : 0 < b.bitCount) :
    (bool.bitsToVector b).getLastD false = b.msb := by
  rw [Bool.eq_iff_iff, getLastD_eq_true_iff (bool_bitsToVector_ne_nil hb), BitsOps.msb_eq_true_iff]
  simp [hb]

theorem intValue_bitsToVector {b : Bits} (hb : 0 < b.bitCount) :
    intValue (bool.bitsToVector b) = BitsOps.toInt b := by
  rw [intValue, BitsOps.toInt, getLastD_bitsToVector hb, value_bool_bitsToVector,
    length_bool_bitsToVector]

theorem bool_uDivMod_bitsToVector (n d : Bits) :
    bool.uDivMod (bool.bitsToVector n) (bool.bitsToVector d) =
      some { quotient := bool.bitsToVector (BitsOps.uDiv n d)
             remainder := bool.bitsToVector (BitsOps.uMod n d) } := by
  obtain ⟨⟨q, r⟩, hrun, hql, hrl, hq, hr⟩ :=
    bool_uDivMod (bool.bitsToVector n) (bool.bitsToVector d)
  simp only [length_bool_bitsToVector, value_bool_bitsToVector] at hql hrl hq hr
  rw [hrun, ← eq_bool_bitsToVector (hql.trans (BitsOps.uDiv_bitCount n d).symm)
      (hq.trans (BitsOps.uDiv_toNat n d).symm),
    ← eq_bool_bitsToVector (hrl.trans (BitsOps.uMod_bitCount n d).symm)
      (hr.trans (BitsOps.uMod_toNat n d).symm)]

theorem bool_sDivMod_bitsToVector {n d : Bits} (hn : 0 < n.bitCount) (hd : 0 < d.bitCount) :
    bool.sDivMod (bool.bitsToVector n) (bool.bitsToVector d) =
      some { quotient := bool.bitsToVector (BitsOps.sDiv n d)
             remainder := bool.bitsToVector (BitsOps.sMod n d) } := by
  obtain ⟨⟨q, r⟩, hrun, hql, hrl, hq, hr⟩ :=
    bool_sDivMod (bool_bitsToVector_ne_nil hn) (bool_bitsToVector_ne_nil hd)
  simp only [length_bool_bitsToVector, value_bool_bitsToVector, getLastD_bitsToVector hn,
    intValue_bitsToVector hn, intValue_bitsToVector hd] at hql hrl hq hr
  have hqv : value q = (BitsOps.sDiv n d).toNat :=
    Nat.cast_injective (hq.trans (BitsOps.sDiv_toNat d hn).symm)
  have hrv : value r = (BitsOps.sMod n d).toNat :=
    Nat.cast_injective (hr.trans (BitsOps.sMod_toNat n d).symm)
  rw [hrun, ← eq_bool_bitsToVector (hql.trans (BitsOps.sDiv_bitCount n d).symm) hqv,
    ← eq_bool_bitsToVector (hrl.trans (BitsOps.sMod_bitCount n d).symm) hrv]

/-- The boolean instance of the evaluator divides as `bits_ops` does. -/
theorem bool_division_eq_bitsOps (n d : Bits) (hn : 0 < n.bitCount) (hd : 0 < d.bitCount) :
    bool.uDiv (bool.bitsToVector n) (bool.bitsToVector d) =
        some (bool.bitsToVector (BitsOps.uDiv n d)) ∧
      bool.uMod (bool.bitsToVector n) (bool.bitsToVector d) =
        some (bool.bitsToVector (BitsOps.uMod n d)) ∧
      bool.sDiv (bool.bitsToVector n) (bool.bitsToVector d) =
        some (bool.bitsToVector (BitsOps.sDiv n d)) ∧
      bool.sMod (bool.bitsToVector n) (bool.bitsToVector d) =
        some (bool.bitsToVector (BitsOps.sMod n d)) := by
  refine ⟨?_, ?_, ?_, ?_⟩
  · rw [uDiv, bool_uDivMod_bitsToVector]
    rfl
  · rw [uMod, bool_uDivMod_bitsToVector]
    rfl
  · rw [sDiv, bool_sDivMod_bitsToVector hn hd]
    rfl
  · rw [sMod, bool_sDivMod_bitsToVector hn hd]
    rfl

/-- The most negative four-bit number divided by a two-bit minus one. -/
theorem bool_division_mostNegative :
    bool.sDiv (bool.bitsToVector (Bits.ofNat 4 8)) (bool.bitsToVector (Bits.ofNat 2 3)) =
        some (bool.bitsToVector (BitsOps.sDiv (Bits.ofNat 4 8) (Bits.ofNat 2 3))) ∧
      BitsOps.sDiv (Bits.ofNat 4 8) (Bits.ofNat 2 3) = Bits.ofNat 4 8 :=
  ⟨(bool_division_eq_bitsOps (Bits.ofNat 4 8) (Bits.ofNat 2 3) (by decide) (by decide)).2.2.1,
    by decide⟩

end Evaluator
end Xls
