/-
# The boolean evaluator and the interpreter

On the vectors of the bits of its operands, an operation of the boolean evaluator returns the
vector of what the interpreter computes.  The selects of the evaluator take the width of the
first case; the cases which the interpreter does not look at may be wider.

* `bool_oneHotLsbToMsb_eq`, `bool_decode_eq`, `bool_encode_eq` : the handlers of one-hot numbers;
* `bool_oneHotSel_eq`, `bool_prioritySel_eq`, `bool_sel_eq` : the selects.
-/
import Xls.Ir.LogicFunction

namespace Xls
namespace Evaluator

open BoolList
open Interpreter (bits1 bitsVector)

/-- Values of bits. -/
abbrev bitsValues (bs : List Bits) : List Value := bs.map .bits

theorem bitsVector_bitsValues (bs : List Bits) : bitsVector (bitsValues bs) = some bs := by
  induction bs with
  | nil => rfl
  | cons b bs ih =>
    rw [bitsValues, List.map_cons, bitsVector, ih]
    rfl

variable {bs cs : List Bits} {b : Bits} {result : List Bool → List (List Bool) → ℕ → List Bool}
  {selector out front : List Bool} {cases : List (List Bool)}

theorem bits1_bitsValues (h : bits1 (bitsValues bs) = some b) : bs = [b] := by
  rcases bs with _ | ⟨a, _ | ⟨c, bs⟩⟩
  · cases h
  · cases h
    rfl
  · cases h

theorem bits2_bitsValues {p : Bits × Bits} (h : Interpreter.bits2 (bitsValues bs) = some p) :
    bs = [p.1, p.2] := by
  rcases bs with _ | ⟨a, _ | ⟨c, _ | ⟨d, bs⟩⟩⟩
  · cases h
  · cases h
  · cases h
    rfl
  · cases h

/-- A unary operation of the interpreter. -/
theorem unOp_bitsValues {f : Bits → Bits} {r : Bits}
    (h : Interpreter.unOp f (bitsValues bs) = some (.bits r)) : ∃ b, bs = [b] ∧ r = f b := by
  obtain ⟨b, hb, hr⟩ := Option.map_eq_some_iff.mp h
  cases hr
  exact ⟨b, bits1_bitsValues hb, rfl⟩

/-! ## One-hot numbers -/

theorem oneHot_bitsValues {priority : LsbOrMsb} {w : ℕ} {r : Bits}
    (h : LogicInterpreter.oneHot priority (.bits w) (bitsValues bs) = some (.bits r)) :
    ∃ b one, bs = [b] ∧ Bits.uBits 1 w = some one ∧
      r = BitsOps.shiftLeftLogical one (LogicInterpreter.oneHotBit priority w b) := by
  unfold LogicInterpreter.oneHot at h
  split at h
  · rename_i w' b hw hb
    cases hw
    obtain ⟨one, hone, hr⟩ := Option.map_eq_some_iff.mp h
    cases hr
    exact ⟨b, one, bits1_bitsValues hb, hone, rfl⟩
  · cases h

/-- The set bit of a one-hot number lies in its width. -/
theorem oneHotBit_le (priority : LsbOrMsb) (b : Bits) :
    LogicInterpreter.oneHotBit priority (b.bitCount + 1) b ≤ b.bitCount := by
  unfold LogicInterpreter.oneHotBit
  split
  · rename_i i hi
    have hlt : i < b.bitCount := List.mem_range.mp (List.mem_of_find?_eq_some hi)
    rcases priority with _ | _
    · exact hlt.le
    · show b.bitCount - i - 1 ≤ b.bitCount
      omega
  · exact le_rfl

theorem oneHotBit_lsb (b : Bits) : LogicInterpreter.oneHotBit .lsb (b.bitCount + 1) b =
    (bool.bitsToVector b).findIdx id := by
  rw [bool_bitsToVector_eq_toBitVector, Bits.toBitVector, findIdx_map_range,
    LogicInterpreter.oneHotBit]
  split
  · rename_i i hi
    rw [show (List.range b.bitCount).find? b.get = some i from hi]
    rfl
  · rename_i hi
    rw [show (List.range b.bitCount).find? b.get = none from hi]
    rfl

theorem reverse_bool_bitsToVector (b : Bits) : (bool.bitsToVector b).reverse =
    (List.range b.bitCount).map fun i => b.get (b.bitCount - i - 1) := by
  rw [bool_bitsToVector_eq_toBitVector, Bits.toBitVector]
  apply List.ext_getElem
  · simp
  · intro i hi hi'
    simp only [List.getElem_reverse, List.getElem_map, List.getElem_range, List.length_map,
      List.length_range]
    rw [show b.bitCount - 1 - i = b.bitCount - i - 1 by omega]

theorem oneHotBit_msb (b : Bits) : LogicInterpreter.oneHotBit .msb (b.bitCount + 1) b =
    if (bool.bitsToVector b).reverse.findIdx id < b.bitCount then
      b.bitCount - (bool.bitsToVector b).reverse.findIdx id - 1
    else b.bitCount := by
  rw [reverse_bool_bitsToVector, findIdx_map_range, LogicInterpreter.oneHotBit]
  split
  · rename_i i hi
    have hlt : i < b.bitCount := List.mem_range.mp (List.mem_of_find?_eq_some hi)
    rw [show (List.range b.bitCount).find? (fun i => b.get (b.bitCount - i - 1)) = some i from hi,
      Option.getD_some, if_pos hlt]
    rfl
  · rename_i hi
    rw [show (List.range b.bitCount).find? (fun i => b.get (b.bitCount - i - 1)) = none from hi,
      Option.getD_none, if_neg (lt_irrefl _)]
    rfl

theorem bool_oneHotLsbToMsb_eq {one : Bits} (hone : Bits.uBits 1 (b.bitCount + 1) = some one) :
    bool.oneHotLsbToMsb (bool.bitsToVector b) = bool.bitsToVector (BitsOps.shiftLeftLogical one
      (LogicInterpreter.oneHotBit .lsb (b.bitCount + 1) b)) := by
  rw [vector_shiftLeftLogical_one hone (Nat.lt_succ_of_le (oneHotBit_le .lsb b)), oneHotBit_lsb,
    bool_oneHotLsbToMsb, length_bool_bitsToVector]

theorem bool_oneHotMsbToLsb_eq {one : Bits} (hone : Bits.uBits 1 (b.bitCount + 1) = some one) :
    bool.oneHotMsbToLsb (bool.bitsToVector b) = bool.bitsToVector (BitsOps.shiftLeftLogical one
      (LogicInterpreter.oneHotBit .msb (b.bitCount + 1) b)) := by
  rw [vector_shiftLeftLogical_one hone (Nat.lt_succ_of_le (oneHotBit_le .msb b)), oneHotBit_msb,
    bool_oneHotMsbToLsb, length_bool_bitsToVector]

/-- A one-hot number has a set bit. -/
theorem true_mem_oneHot {priority : LsbOrMsb} {one : Bits}
    (hone : Bits.uBits 1 (b.bitCount + 1) = some one) :
    true ∈ bool.bitsToVector (BitsOps.shiftLeftLogical one
      (LogicInterpreter.oneHotBit priority (b.bitCount + 1) b)) := by
  have hlt := Nat.lt_succ_of_le (oneHotBit_le priority b)
  rw [vector_shiftLeftLogical_one hone hlt]
  exact List.mem_map.mpr ⟨_, List.mem_range.mpr hlt, decide_eq_true rfl⟩

theorem bool_decode_eq {w : ℕ} {bs : List Bits} {r : Bits} {out : List Bool}
    (h : LogicInterpreter.decode (.bits w) (bitsValues bs) = some (.bits r)) :
    ∃ b, bs = [b] ∧ (bool.decode (bool.bitsToVector b) w = some out → out = bool.bitsToVector r) := by
  unfold LogicInterpreter.decode at h
  split at h
  · rename_i w' b hw hb
    cases hw
    refine ⟨b, bits1_bitsValues hb, fun hout => ?_⟩
    rw [bool_decode_inv hout, value_bool_bitsToVector]
    split at h
    · cases h
      have hbit : ∀ i < w,
          (if b.toNat < w then Bits.powerOfTwo b.toNat w else Bits.zero w).toNat.testBit i
          = decide (b.toNat = i) := by
        intro i hi
        split
        · rw [Bits.powerOfTwo, testBit_ofNat hi, Nat.testBit_two_pow]
        · rw [Bits.zero_toNat, Nat.zero_testBit, eq_comm, decide_eq_false_iff_not]
          omega
      have hwidth : (if b.toNat < w then Bits.powerOfTwo b.toNat w else Bits.zero w).bitCount = w := by
        split
        · rfl
        · rfl
      apply eq_bool_bitsToVector_of_getD
      · simp [hwidth]
      · intro i hi
        rw [hwidth] at hi
        rw [hbit i hi, List.getD_eq_getElem _ _ (by simpa using hi), List.getElem_map,
          List.getElem_range]
    · cases h
  · cases h

theorem bool_encode_eq {r : Bits} {w : ℕ}
    (h : LogicInterpreter.encode (.bits w) (bitsValues bs) = some (.bits r)) :
    ∃ b, bs = [b] ∧ (w = Bits.minBitCountUnsigned (sizeMinusOne b.bitCount) →
        bool.encode (bool.bitsToVector b) = bool.bitsToVector r) := by
  unfold LogicInterpreter.encode at h
  split at h
  · rename_i w' b hw hb
    cases hw
    refine ⟨b, bits1_bitsValues hb, fun hwidth => ?_⟩
    obtain ⟨r', hr', hr⟩ := Option.map_eq_some_iff.mp h
    cases hr
    rw [encode, length_bool_bitsToVector, ← hwidth, zipIdx_bool_bitsToVector]
    have hzero : List.replicate w bool.zero = bool.bitsToVector (Bits.zero w) :=
      replicate_eq_bitsToVector false w
    rw [hzero]
    -- the loops run side by side
    generalize Bits.zero w = start at hr' ⊢
    generalize List.range b.bitCount = l at hr' ⊢
    induction l generalizing start with
    | nil =>
      cases hr'
      rfl
    | cons i l ih =>
      rw [List.foldlM_cons, Option.bind_eq_bind, Option.bind_eq_some_iff] at hr'
      obtain ⟨next, hnext, hr'⟩ := hr'
      rw [List.map_cons, List.foldl_cons, ← ih next hr']
      congr 1
      unfold LogicInterpreter.encodeStep at hnext
      split at hnext
      · rename_i hget
        obtain ⟨index, hindex, rfl⟩ := Option.map_eq_some_iff.mp hnext
        have hstep := bool_encodeStep (b.get i) hindex
        rwa [if_pos hget] at hstep
      · rename_i hget
        cases hnext
        rw [Bool.eq_false_of_not_eq_true hget]
        apply List.ext_getElem
        · simp
        · intro j hj hj'
          rw [List.getElem_map, List.getElem_zipIdx]
          show (if _ then ((bool.bitsToVector start)[j] || false) else _) = _
          rw [Bool.or_false, ite_self]
  · cases h

/-! ## Selects -/

theorem selectInternal_eq_some (h : bool.selectInternal result selector cases true = some out) :
    ∃ front rest, cases = front :: rest ∧ selector.length = cases.length ∧
      (∀ c ∈ cases, front.length ≤ c.length) ∧
      out = result selector (cases.map (List.take front.length)) front.length := by
  rcases cases with _ | ⟨front, rest⟩
  · cases h
  · rw [selectInternal] at h
    split at h
    · rename_i hcheck
      cases h
      exact ⟨front, rest, rfl, hcheck.1, hcheck.2, rfl⟩
    · cases h

/-- The mask of a select whose selector has a set element adds nothing. -/
theorem selectInternal_mask (hpicks : Picks result) (canBeZero : Bool)
    (hzero : canBeZero = true ∨ true ∈ selector)
    (h : bool.selectInternal result selector cases canBeZero = some out) :
    bool.selectInternal result selector cases true = some out := by
  rcases canBeZero with _ | _
  · have htrue : true ∈ selector := by simpa using hzero
    rcases cases with _ | ⟨front, rest⟩
    · cases h
    · rw [selectInternal] at h ⊢
      split at h
      · rename_i hcheck
        have hwidth : ∀ c ∈ (front :: rest).map (List.take front.length),
            c.length = front.length := by
          intro c hc
          obtain ⟨d, hd, rfl⟩ := List.mem_map.mp hc
          rw [List.length_take, min_eq_left (hcheck.2 d hd)]
        have hself : List.Forall₂ (· ≤ ·) selector
            (selector.map fun s => decide (s ≠ bool.zero)) := by
          rw [show (selector.map fun s => decide (s ≠ bool.zero)) = selector by
            simp [Evaluator.bool]]
          exact BitsLE.refl selector
        rw [if_neg Bool.false_ne_true, bool_bitwiseOr_mask hpicks (by simpa using hcheck.1) hwidth
          hself htrue] at h
        rw [if_pos hcheck]
        exact h
      · cases h
  · exact h

/-- The cases of a select which are as wide as the first one are read whole. -/
theorem selectInternal_take {rest : List (List Bool)} (canBeZero : Bool)
    (hcases : cases = front :: rest)
    (h : bool.selectInternal result selector cases canBeZero = some out) :
    bool.selectInternal result selector (cases.map (List.take front.length)) canBeZero =
      some out := by
  subst hcases
  have hspans : ((front :: rest).map (List.take front.length)).map (List.take front.length) =
      (front :: rest).map (List.take front.length) := by
    rw [List.map_map]
    refine List.map_congr_left fun c _ => ?_
    rw [Function.comp_apply, List.take_take, min_self]
  rw [selectInternal] at h
  split at h
  · rename_i hcheck
    have hfront : List.take front.length front = front := List.take_length
    rw [List.map_cons, hfront] at hspans h ⊢
    rw [selectInternal, if_pos, hspans]
    · exact h
    · refine ⟨by simpa using hcheck.1, ?_⟩
      intro c hc
      rcases List.mem_cons.mp hc with rfl | hc
      · exact le_rfl
      · obtain ⟨d, hd, rfl⟩ := List.mem_map.mp hc
        rw [List.length_take, min_eq_left (hcheck.2 d (List.mem_cons_of_mem _ hd))]
  · cases h

theorem bitCount_nary {f : Bits → Bits → Bits} {g : Bool → Bool → Bool} (h : Bitwise f g)
    {a r : Bits} (hr : BitsOps.nary f (a :: bs) = some r) : r.bitCount = a.bitCount := by
  rw [BitsOps.nary] at hr
  split at hr
  · rename_i hw
    cases hr
    clear hw
    induction bs generalizing a with
    | nil => rfl
    | cons b bs ih => exact (ih (a := f a b)).trans (h.width a b)
  · cases hr

/-- A bit of the joined bits is set when it is set in one of them. -/
theorem testBit_nary_or {a r : Bits} (h : BitsOps.naryOr (a :: bs) = some r) {i : ℕ}
    (hi : i < a.bitCount) :
    r.toNat.testBit i = (a.toNat.testBit i || bs.any fun b => b.toNat.testBit i) := by
  rw [BitsOps.naryOr, BitsOps.nary] at h
  split at h
  · rename_i hw
    cases h
    clear hw
    induction bs generalizing a with
    | nil => simp
    | cons b bs ih =>
      rw [List.foldl_cons, ih (a := BitsOps.or a b) hi, List.any_cons, bitwise_or.bit a b i hi,
        ← Bool.or_assoc]
      rfl
  · cases h

theorem getElem?_bitsValues (cs : List Bits) (i : ℕ) :
    (bitsValues cs)[i]? = cs[i]?.map .bits := List.getElem?_map

/-- The cases whose bit of the selector is set. -/
theorem mapM_bitsValues {l : List ℕ} {values : List Value}
    (h : l.mapM (fun i => (bitsValues cs)[i]?) = some values) :
    ∃ ps, values = bitsValues ps ∧ ∀ c, c ∈ ps ↔ ∃ i ∈ l, cs[i]? = some c := by
  induction l generalizing values with
  | nil =>
    cases h
    exact ⟨[], rfl, by simp⟩
  | cons i l ih =>
    rw [List.mapM_cons, Option.bind_eq_bind, Option.bind_eq_some_iff] at h
    obtain ⟨v, hv, h⟩ := h
    rw [Option.bind_eq_bind, Option.bind_eq_some_iff] at h
    obtain ⟨vs, hvs, h⟩ := h
    cases h
    obtain ⟨ps, rfl, hps⟩ := ih hvs
    rw [getElem?_bitsValues] at hv
    obtain ⟨c, hc, rfl⟩ := Option.map_eq_some_iff.mp hv
    refine ⟨c :: ps, rfl, fun d => ?_⟩
    rw [List.mem_cons, hps]
    constructor
    · rintro (rfl | ⟨j, hj, hd⟩)
      · exact ⟨i, List.mem_cons_self, hc⟩
      · exact ⟨j, List.mem_cons_of_mem _ hj, hd⟩
    · rintro ⟨j, hj, hd⟩
      rcases List.mem_cons.mp hj with rfl | hj
      · rw [hc] at hd
        exact .inl (Option.some.inj hd.symm)
      · exact .inr ⟨j, hj, hd⟩

/-- An element of a selector with its case, cut to the width. -/
theorem getElem?_zip_spans {sel : Bits} {w i : ℕ} {q : Bool × List Bool}
    (h : ((bool.bitsToVector sel).zip ((vectors cs).map (List.take w)))[i]? = some q) :
    i < sel.bitCount ∧ q.1 = sel.get i ∧
      ∃ c, cs[i]? = some c ∧ q.2 = (bool.bitsToVector c).take w := by
  rw [List.getElem?_zip_eq_some] at h
  obtain ⟨hbit, hspan⟩ := h
  obtain ⟨hi, hbit⟩ := List.getElem?_eq_some_iff.mp hbit
  rw [length_bool_bitsToVector] at hi
  rw [← List.getD_eq_getElem _ false, getD_bool_bitsToVector] at hbit
  rw [List.map_map, List.getElem?_map, Option.map_eq_some_iff] at hspan
  obtain ⟨c, hc, hspan⟩ := hspan
  exact ⟨hi, hbit.symm, c, hc, hspan.symm⟩

theorem exists_getElem?_zip_spans {sel c : Bits} {i : ℕ} (w : ℕ) (hi : i < sel.bitCount)
    (hc : cs[i]? = some c) :
    ((bool.bitsToVector sel).zip ((vectors cs).map (List.take w)))[i]? =
      some (sel.get i, (bool.bitsToVector c).take w) := by
  rw [List.getElem?_zip_eq_some]
  constructor
  · rw [List.getElem?_eq_getElem (by simpa using hi), ← List.getD_eq_getElem _ false,
      getD_bool_bitsToVector]
    rfl
  · rw [List.map_map, List.getElem?_map, hc]
    rfl

theorem getD_take_bitsToVector {c : Bits} {w j : ℕ} (hj : j < w) :
    ((bool.bitsToVector c).take w).getD j false = c.toNat.testBit j := by
  rw [← getD_bool_bitsToVector, List.getD_eq_getElem?_getD, List.getD_eq_getElem?_getD,
    List.getElem?_take_of_lt hj]

/-- The cases are as wide as the first one, which has the width of the node. -/
theorem length_spans (h : ∀ c ∈ vectors cs, front.length ≤ c.length) :
    ∀ c ∈ (vectors cs).map (List.take front.length), c.length = front.length := by
  intro c hc
  obtain ⟨d, hd, rfl⟩ := List.mem_map.mp hc
  rw [List.length_take, min_eq_left (h d hd)]

/-- The width of a select is that of its first case. -/
theorem length_front {rest : List (List Bool)} {w : ℕ} (hcases : vectors cs = front :: rest)
    (hw : (cs[0]?).map Bits.bitCount = some w) : front.length = w := by
  rcases cs with _ | ⟨c, cs⟩
  · cases hcases
  · cases hcases
    simpa using hw

theorem bool_oneHotSel_eq {sel r : Bits} {w : ℕ} (canBeZero : Bool)
    (hzero : canBeZero = true ∨ true ∈ bool.bitsToVector sel)
    (hw : (cs[0]?).map Bits.bitCount = some w)
    (h : LogicInterpreter.oneHotSel (.bits w) (bitsValues (sel :: cs)) = some (.bits r))
    (hout : bool.oneHotSelect (bool.bitsToVector sel) (vectors cs) canBeZero = some out) :
    out = bool.bitsToVector r := by
  obtain ⟨front, rest, hcases, hlen, hle, rfl⟩ := selectInternal_eq_some
    (selectInternal_mask picks_oneHotResult canBeZero hzero hout)
  have hfront := length_front hcases hw
  rw [hfront] at hle ⊢
  -- the interpreter
  obtain ⟨values, hvalues, hor⟩ := Option.bind_eq_some_iff.mp
    (show (((List.range sel.bitCount).filter sel.get).mapM fun i => (bitsValues cs)[i]?).bind
      (LogicInterpreter.deepOr (.bits w)) = some (.bits r) from h)
  obtain ⟨ps, rfl, hps⟩ := mapM_bitsValues hvalues
  rw [LogicInterpreter.deepOr, LogicInterpreter.orBits, bitsVector_bitsValues,
    Option.map_eq_some_iff] at hor
  obtain ⟨r', hr', hor⟩ := hor
  cases hor
  -- the evaluator
  have hspans : ∀ q ∈ (bool.bitsToVector sel).zip ((vectors cs).map (List.take w)),
      q.2.length = (List.replicate w bool.zero).length := by
    intro q hq
    rw [List.length_replicate, ← hfront]
    refine length_spans (hfront.symm ▸ hle) q.2 ?_
    rw [hfront]
    exact (List.of_mem_zip hq).2
  rw [oneHotResult, foldl_oneHot hspans]
  have hwidth : r.bitCount = w := bitCount_nary bitwise_or hr'
  apply eq_bool_bitsToVector_of_getD
  · simp [hwidth]
  · intro j hj
    rw [hwidth] at hj
    rw [testBit_nary_or hr' hj, Bits.zero_toNat, Nat.zero_testBit, Bool.false_or,
      List.getD_eq_getElem _ _ (by simpa using hj), List.getElem_map, List.getElem_range,
      List.getD_replicate _ hj, bool_zero, Bool.false_or, Bool.eq_iff_iff, List.any_eq_true,
      List.any_eq_true]
    constructor
    · rintro ⟨q, hq, hset⟩
      obtain ⟨i, hi⟩ := List.mem_iff_getElem?.mp hq
      obtain ⟨hlt, hbit, c, hc, hspan⟩ := getElem?_zip_spans hi
      rw [Bool.and_eq_true, hbit, hspan, getD_take_bitsToVector hj] at hset
      exact ⟨c, (hps c).mpr ⟨i, List.mem_filter.mpr ⟨List.mem_range.mpr hlt, hset.1⟩, hc⟩, hset.2⟩
    · rintro ⟨c, hc, hset⟩
      obtain ⟨i, hi, hc⟩ := (hps c).mp hc
      obtain ⟨hi, hget⟩ := List.mem_filter.mp hi
      refine ⟨_, List.mem_iff_getElem?.mpr
        ⟨i, exists_getElem?_zip_spans w (List.mem_range.mp hi) hc⟩, ?_⟩
      rw [Bool.and_eq_true, getD_take_bitsToVector hj]
      exact ⟨hget, hset⟩

theorem bool_prioritySel_eq {sel r : Bits} {w : ℕ} (canBeZero : Bool)
    (hzero : canBeZero = true ∨ true ∈ bool.bitsToVector sel)
    (hw : (cs[0]?).map Bits.bitCount = some w) (hr : r.bitCount = w)
    (h : Interpreter.prioritySel (.bits w) (bitsValues (sel :: cs)) = some (.bits r))
    (hout : bool.prioritySelect (bool.bitsToVector sel) (vectors cs) canBeZero = some out) :
    out = bool.bitsToVector r := by
  obtain ⟨front, rest, hcases, hlen, hle, rfl⟩ := selectInternal_eq_some
    (selectInternal_mask picks_priorityResult canBeZero hzero hout)
  have hfront := length_front hcases hw
  have hspans := length_spans hle
  rw [hfront] at hspans ⊢
  rw [bool_priorityResult hspans]
  rcases hfind : (List.range sel.bitCount).find? sel.get with _ | i
  · -- no bit of the selector is set
    have hnone : ((bool.bitsToVector sel).zip ((vectors cs).map (List.take w))).find? Prod.fst =
        none := by
      rw [List.find?_eq_none]
      intro q hq
      obtain ⟨i, hi⟩ := List.mem_iff_getElem?.mp hq
      obtain ⟨hlt, hbit, -⟩ := getElem?_zip_spans hi
      rw [hbit]
      exact List.find?_eq_none.mp hfind i (List.mem_range.mpr hlt)
    simp only [Interpreter.prioritySel, List.map_cons, hfind] at h
    cases h
    rw [hnone]
    exact replicate_eq_bitsToVector false w
  · obtain ⟨hget, hi, hbelow⟩ := List.find?_range_eq_some.mp hfind
    have hi : i < sel.bitCount := List.mem_range.mp hi
    simp only [Interpreter.prioritySel, List.map_cons, hfind] at h
    rw [show (cs.map Value.bits)[i]? = cs[i]?.map .bits from getElem?_bitsValues cs i] at h
    obtain ⟨c, hc, hcr⟩ := Option.map_eq_some_iff.mp h
    cases hcr
    have hzip := exists_getElem?_zip_spans w hi hc
    obtain ⟨hj, hzip⟩ := List.getElem?_eq_some_iff.mp hzip
    have hsome : ((bool.bitsToVector sel).zip ((vectors cs).map (List.take w))).find? Prod.fst =
        some (sel.get i, (bool.bitsToVector r).take w) := by
      rw [List.find?_eq_some_iff_getElem]
      refine ⟨hget, i, hj, hzip, fun k hk => ?_⟩
      obtain ⟨-, hbit, -⟩ := getElem?_zip_spans (List.getElem?_eq_getElem (hk.trans hj))
      rw [hbit]
      exact hbelow k hk
    rw [hsome, Option.map_some, Option.getD_some, List.take_of_length_le]
    rw [length_bool_bitsToVector, hr]

/-- A select with a default reads as much of it as the cases are wide. -/
theorem select_take_default {d : List Bool} {w : ℕ} (hne : cases ≠ [])
    (hcases : ∀ c ∈ cases, c.length = w) (h : bool.select selector cases (some d) = some out) :
    w ≤ d.length ∧ bool.select selector cases (some (d.take w)) = some out := by
  obtain ⟨oneHot, honeHot, h⟩ := Option.bind_eq_some_iff.mp h
  obtain ⟨last, hlast, h⟩ := Option.bind_eq_some_iff.mp h
  obtain ⟨above, habove, h⟩ := Option.bind_eq_some_iff.mp h
  rcases cases with _ | ⟨front, rest⟩
  · exact absurd rfl hne
  · have hfront : front.length = w := hcases front List.mem_cons_self
    constructor
    · rw [oneHotSelect, List.cons_append, selectInternal] at h
      split at h
      · rename_i hcheck
        rw [← hfront]
        exact hcheck.2 d (by simp)
      · cases h
    · have htake := selectInternal_take false (List.cons_append ..) h
      rw [List.map_append, hfront] at htake
      have hself : (front :: rest).map (List.take w) = front :: rest := by
        conv_rhs => rw [← List.map_id (front :: rest)]
        refine List.map_congr_left fun c hc => ?_
        rw [List.take_of_length_le (hcases c hc).le, id]
      rw [hself] at htake
      unfold select
      simp only [honeHot, hlast, habove, Option.bind_eq_bind, Option.bind_some]
      exact htake

/-- The cases and the default among the arms of a select. -/
def splitArms {β : Type*} (hasDefault : Bool) (arms : List β) : List β × Option β :=
  if hasDefault then (arms.dropLast, arms.getLast?) else (arms, none)

theorem splitArms_map {β γ : Type*} (f : β → γ) (hasDefault : Bool) (arms : List β) :
    splitArms hasDefault (arms.map f) =
      ((splitArms hasDefault arms).1.map f, (splitArms hasDefault arms).2.map f) := by
  rcases hasDefault with _ | _
  · rfl
  · refine Prod.ext ?_ ?_
    · exact List.map_dropLast.symm
    · exact List.getLast?_map

theorem length_splitArms_le {β : Type*} (hasDefault : Bool) (arms : List β) :
    (splitArms hasDefault arms).1.length ≤ arms.length := by
  rcases hasDefault with _ | _
  · exact le_rfl
  · show arms.dropLast.length ≤ arms.length
    simp

/-- What the interpreter has looked at when a select returns. -/
theorem sel_bitsValues {hasDefault : Bool} {sel r : Bits} {arms : List Bits}
    (h : Interpreter.sel hasDefault (bitsValues (sel :: arms)) = some (.bits r)) :
    let cs := (splitArms hasDefault arms).1
    cs ≠ [] ∧ (cs.length - 1 < sel.toNat ∧ (splitArms hasDefault arms).2 = some r ∨
      sel.toNat ≤ cs.length - 1 ∧ cs[sel.toNat]? = some r) := by
  intro cs
  have harms : Interpreter.selectArms hasDefault (bitsValues arms) =
      (bitsValues cs, (splitArms hasDefault arms).2.map .bits) := splitArms_map _ _ _
  rw [bitsValues, List.map_cons, Interpreter.sel, harms] at h
  simp only at h
  have hvalues : (bitsValues cs).length = cs.length := List.length_map ..
  rcases hcs : cs with _ | ⟨c, cs'⟩
  · rw [hcs] at h
    cases h
  · refine ⟨List.cons_ne_nil _ _, ?_⟩
    rw [← hcs]
    split at h
    · cases h
    · rw [hvalues] at h
      split at h
      · cases h
      · rename_i last hlast
        have hlast := (Bits.uBits_eq_some hlast).2
        split at h
        · rename_i hless
          obtain ⟨d, hd, hdr⟩ := Option.map_eq_some_iff.mp h
          cases hdr
          refine .inl ⟨?_, hd⟩
          rw [← hlast]
          exact of_decide_eq_true hless
        · rename_i hless
          rw [getElem?_bitsValues] at h
          obtain ⟨d, hd, hdr⟩ := Option.map_eq_some_iff.mp h
          cases hdr
          refine .inr ⟨?_, hd⟩
          rw [← hlast]
          exact not_lt.mp fun hlt => hless (decide_eq_true hlt)

theorem sizeMinusOne_eq {n : ℕ} (hpos : 0 < n) (hlt : n < 2 ^ 64) : sizeMinusOne n = n - 1 := by
  unfold sizeMinusOne
  omega

section Sel

variable {hasDefault : Bool} {sel r : Bits} {arms : List Bits} {w : ℕ}

/-- The selector of a select which returns chooses a case or the default. -/
theorem chooses_sel (hsize : arms.length < 2 ^ 64)
    (h : Interpreter.sel hasDefault (bitsValues (sel :: arms)) = some (.bits r)) :
    Chooses (bool.bitsToVector sel) (splitArms hasDefault arms).1.length
      (splitArms hasDefault arms).2.isSome := by
  obtain ⟨hne, hcase⟩ := sel_bitsValues h
  have hpos := List.length_pos_of_ne_nil hne
  have hle := length_splitArms_le hasDefault arms
  rw [Chooses, value_bool_bitsToVector, sizeMinusOne_eq hpos (hle.trans_lt hsize)]
  rcases hcase with ⟨hlt, hd⟩ | ⟨hle, -⟩
  · exact .inr ⟨by rw [hd]; rfl, hlt⟩
  · exact .inl (by omega)

theorem bool_sel_eq {out : List Bool} (hsize : arms.length < 2 ^ 64)
    (hcases : ∀ c ∈ (splitArms hasDefault arms).1, c.bitCount = w)
    (hfit : (splitArms hasDefault arms).1.length ≤ 2 ^ sel.bitCount) (hr : r.bitCount = w)
    (h : Interpreter.sel hasDefault (bitsValues (sel :: arms)) = some (.bits r))
    (hout : bool.select (bool.bitsToVector sel) (vectors (splitArms hasDefault arms).1)
      ((splitArms hasDefault arms).2.map bool.bitsToVector) = some out) :
    out = bool.bitsToVector r := by
  obtain ⟨hne, hcase⟩ := sel_bitsValues h
  have hle : (splitArms hasDefault arms).1.length ≤ 2 ^ 64 :=
    (length_splitArms_le hasDefault arms).trans hsize.le
  generalize (splitArms hasDefault arms).1 = cs at *
  generalize (splitArms hasDefault arms).2 = d at *
  have hpos := List.length_pos_of_ne_nil hne
  have hvectors : ∀ c ∈ vectors cs, c.length = w := by
    intro c hc
    obtain ⟨b, hb, rfl⟩ := List.mem_map.mp hc
    rw [length_bool_bitsToVector, hcases b hb]
  have hne' : vectors cs ≠ [] := fun hnil => hne (List.map_eq_nil_iff.mp hnil)
  have hlength : (vectors cs).length = cs.length := List.length_map ..
  have hget : (vectors cs)[sel.toNat]? = cs[sel.toNat]?.map bool.bitsToVector := List.getElem?_map
  have hselect : ∀ e : Option (List Bool), (∀ d ∈ e, d.length = w) →
      (sel.toNat < cs.length ∨ e.isSome) →
      bool.select (bool.bitsToVector sel) (vectors cs) e =
        (cs[sel.toNat]?.map bool.bitsToVector).or e := by
    intro e he hvalue
    rw [bool_select_eq hne' hvectors he, value_bool_bitsToVector, hget]
    · rwa [length_bool_bitsToVector, hlength]
    · rwa [hlength]
    · rwa [value_bool_bitsToVector, hlength]
  rcases d with _ | d
  · -- without a default the selector is the number of a case
    rcases hcase with ⟨-, hd⟩ | ⟨hsel, hc⟩
    · cases hd
    · rw [Option.map_none, hselect none (by simp) (.inl (by omega)), hc] at hout
      exact (Option.some.inj hout).symm
  · obtain ⟨hw, hout⟩ := select_take_default hne' hvectors hout
    rw [hselect _ (by simpa using hw) (.inr rfl)] at hout
    rcases hcase with ⟨hsel, hd⟩ | ⟨-, hc⟩
    · cases hd
      rw [List.getElem?_eq_none (by omega), List.take_of_length_le] at hout
      · exact (Option.some.inj hout).symm
      · rw [length_bool_bitsToVector, hr]
    · rw [hc] at hout
      exact (Option.some.inj hout).symm

end Sel

end Evaluator
end Xls
