/-
# Logic operations on bits

The operations of `bits_ops` on single bits (`xls/ir/bits_ops.cc`) and the handlers of the
interpreter for `one_hot`, `decode`, `encode` and `one_hot_sel`, next to the operations of the
boolean evaluator: on the vectors of bits of the operands, the evaluator computes the vector of
the result.

* `bool_bitwise` : the n-ary operations;
* `bool_concat_eq`, `bool_signExtend_eq` : the operations which move bits;
* `bool_oneHotLsbToMsb`, `bool_oneHotMsbToLsb` : one-hot numbers.
-/
import Xls.Ir.EvaluatorShifts
import Xls.Ir.EvaluatorSoundness

namespace Xls

namespace Bits

/-- `Bits(absl::Span<bool>)`: the first element is the least significant bit. -/
def ofBools (v : List Bool) : Bits := ⟨v.length, BoolList.value v, BoolList.value_lt v⟩

/-- `ToBitVector`. -/
def toBitVector (b : Bits) : List Bool := (List.range b.bitCount).map b.get

/-- `Bits::PowerOfTwo`. -/
def powerOfTwo (setBitIndex bitCount : ℕ) : Bits := ofNat bitCount (2 ^ setBitIndex)

end Bits

namespace BitsOps

/-- `bits_ops::Or`. -/
def or (lhs rhs : Bits) : Bits := Bits.ofNat lhs.bitCount (lhs.toNat ||| rhs.toNat)

/-- `bits_ops::Xor`. -/
def xor (lhs rhs : Bits) : Bits := Bits.ofNat lhs.bitCount (lhs.toNat ^^^ rhs.toNat)

/-- `bits_ops::Not`. -/
def not (b : Bits) : Bits := Bits.ofNat b.bitCount (2 ^ b.bitCount - 1 - b.toNat)

/-- The loop of the n-ary operations; the widths must be equal. -/
def nary (f : Bits → Bits → Bits) : List Bits → Option Bits
  | [] => none
  | accum :: operands =>
    if ∀ b ∈ operands, b.bitCount = accum.bitCount then some (operands.foldl f accum) else none

/-- `bits_ops::NaryAnd`. -/
def naryAnd (operands : List Bits) : Option Bits := nary and operands

/-- `bits_ops::NaryOr`. -/
def naryOr (operands : List Bits) : Option Bits := nary or operands

/-- `bits_ops::NaryXor`. -/
def naryXor (operands : List Bits) : Option Bits := nary xor operands

/-- `bits_ops::NaryNand`. -/
def naryNand (operands : List Bits) : Option Bits := (nary and operands).map not

/-- `bits_ops::NaryNor`. -/
def naryNor (operands : List Bits) : Option Bits := (nary or operands).map not

/-- `bits_ops::Reverse`. -/
def reverse (b : Bits) : Bits := Bits.ofBools b.toBitVector.reverse

end BitsOps

namespace Evaluator

open BoolList

/-! ## Vectors, bit by bit -/

/-- A vector is the image of the bits with its length and its bits. -/
theorem eq_bool_bitsToVector_of_getD {v : List Bool} {b : Bits} (hl : v.length = b.bitCount)
    (h : ∀ i < b.bitCount, v.getD i false = b.toNat.testBit i) : v = bool.bitsToVector b := by
  apply List.ext_getElem
  · rw [hl, length_bool_bitsToVector]
  · intro i hi hi'
    rw [← List.getD_eq_getElem v false hi, ← List.getD_eq_getElem _ false hi',
      getD_bool_bitsToVector]
    exact h i (hl ▸ hi)

theorem bool_bitsToVector_eq_toBitVector (b : Bits) : bool.bitsToVector b = b.toBitVector :=
  bool_bitsToVector b

theorem bool_bitsToVector_ofBools (v : List Bool) : bool.bitsToVector (Bits.ofBools v) = v :=
  (eq_bool_bitsToVector rfl rfl).symm

/-- Bits are determined by their vector. -/
theorem bool_bitsToVector_injective {a b : Bits} (h : bool.bitsToVector a = bool.bitsToVector b) :
    a = b := by
  obtain ⟨w', n', hn'⟩ := b
  have hl := congrArg List.length h
  have hv := congrArg value h
  rw [length_bool_bitsToVector, length_bool_bitsToVector] at hl
  rw [value_bool_bitsToVector, value_bool_bitsToVector] at hv
  cases hl
  cases hv
  rfl

/-- The vectors of the bits of several operands. -/
abbrev vectors (bs : List Bits) : List (List Bool) := bs.map bool.bitsToVector

theorem vectors_cons (b : Bits) (bs : List Bits) :
    vectors (b :: bs) = bool.bitsToVector b :: vectors bs := rfl

/-! ## The n-ary operations -/

/-- An operation on bits which acts bit by bit, like one on booleans. -/
structure Bitwise (f : Bits → Bits → Bits) (g : Bool → Bool → Bool) : Prop where
  width : ∀ a b, (f a b).bitCount = a.bitCount
  bit : ∀ a b i, i < a.bitCount → (f a b).toNat.testBit i = g (a.toNat.testBit i) (b.toNat.testBit i)

theorem testBit_ofNat {w n i : ℕ} (hi : i < w) : (Bits.ofNat w n).toNat.testBit i = n.testBit i := by
  show (n % 2 ^ w).testBit i = n.testBit i
  rw [Nat.testBit_mod_two_pow, decide_eq_true hi, Bool.true_and]

theorem bitwise_and : Bitwise BitsOps.and bool.and := by
  constructor
  · intro a b
    rfl
  · intro a b i hi
    rw [BitsOps.and, testBit_ofNat hi, Nat.testBit_and]
    rfl

theorem bitwise_or : Bitwise BitsOps.or bool.or := by
  constructor
  · intro a b
    rfl
  · intro a b i hi
    rw [BitsOps.or, testBit_ofNat hi, Nat.testBit_or]
    rfl

theorem bitwise_xor : Bitwise BitsOps.xor bool.xor := by
  constructor
  · intro a b
    rfl
  · intro a b i hi
    rw [BitsOps.xor, testBit_ofNat hi, Nat.testBit_xor]
    cases a.toNat.testBit i <;> cases b.toNat.testBit i <;> rfl

section Nary

variable {f : Bits → Bits → Bits} {g : Bool → Bool → Bool}

theorem Bitwise.zipWith (h : Bitwise f g) {a b : Bits} (hw : b.bitCount = a.bitCount) :
    List.zipWith g (bool.bitsToVector a) (bool.bitsToVector b) = bool.bitsToVector (f a b) := by
  apply eq_bool_bitsToVector_of_getD
  · simp [h.width, hw]
  · intro i hi
    rw [h.width] at hi
    rw [h.bit a b i hi, List.getD_eq_getElem _ _ (by simp [hi, hw]), List.getElem_zipWith,
      ← List.getD_eq_getElem _ false, ← List.getD_eq_getElem _ false, getD_bool_bitsToVector,
      getD_bool_bitsToVector]

theorem Bitwise.foldl (h : Bitwise f g) (operands : List Bits) {a : Bits}
    (hw : ∀ b ∈ operands, b.bitCount = a.bitCount) :
    (vectors operands).foldl (List.zipWith g) (bool.bitsToVector a) =
      bool.bitsToVector (operands.foldl f a) := by
  induction operands generalizing a with
  | nil => rfl
  | cons b operands ih =>
    have hrest : ∀ c ∈ operands, c.bitCount = (f a b).bitCount := by
      intro c hc
      rw [h.width]
      exact hw c (List.mem_cons_of_mem _ hc)
    rw [vectors_cons, List.foldl_cons, h.zipWith (hw b List.mem_cons_self), ih hrest,
      List.foldl_cons]

/-- The n-ary operations of the evaluator are those on bits. -/
theorem bool_bitwise (h : Bitwise f g) {operands : List Bits} {r : Bits}
    (hr : BitsOps.nary f operands = some r) :
    naryOp g (vectors operands) = some (bool.bitsToVector r) := by
  rcases operands with _ | ⟨a, operands⟩
  · cases hr
  · rw [BitsOps.nary] at hr
    split at hr
    · rename_i hw
      cases hr
      rw [vectors_cons, naryOp, if_pos, h.foldl operands hw]
      intro v hv
      obtain ⟨b, hb, rfl⟩ := List.mem_map.mp hv
      simp [hw b hb]
    · cases hr

end Nary

theorem bool_bitwiseNot_eq (b : Bits) :
    bool.bitwiseNot (bool.bitsToVector b) = bool.bitsToVector (BitsOps.not b) := by
  apply eq_bool_bitsToVector
  · simp [bitwiseNot, BitsOps.not]
  · have hpos := Nat.two_pow_pos b.bitCount
    show value ((bool.bitsToVector b).map Bool.not) = _ % _
    rw [value_map_not, length_bool_bitsToVector, value_bool_bitsToVector,
      Nat.mod_eq_of_lt (by omega)]

/-! ## Moving bits -/

variable {b : Bits}

theorem bool_bitSlice_eq {start width : ℕ} (h : start + width ≤ b.bitCount) :
    bitSlice (bool.bitsToVector b) start width =
      some (bool.bitsToVector (BitsOps.slice b start width)) := by
  rw [bitSlice, if_pos (by simpa using h)]
  congr 1
  apply eq_bool_bitsToVector
  · simp
    omega
  · rw [value_take, value_drop, value_bool_bitsToVector]
    rfl

theorem bool_reverse_eq (b : Bits) :
    (bool.bitsToVector b).reverse = bool.bitsToVector (BitsOps.reverse b) := by
  rw [BitsOps.reverse, bool_bitsToVector_ofBools, bool_bitsToVector_eq_toBitVector]

theorem bool_append_eq (hi lo : Bits) : bool.bitsToVector lo ++ bool.bitsToVector hi =
    bool.bitsToVector (BitsOps.append hi lo) := by
  apply eq_bool_bitsToVector
  · simp [Nat.add_comm]
  · rw [value_append, value_bool_bitsToVector, value_bool_bitsToVector, length_bool_bitsToVector,
      BitsOps.append_toNat]
    ring

/-- Joining vectors, from the most significant one. -/
theorem bool_concat_eq (bs : List Bits) :
    concat (vectors bs) = bool.bitsToVector (BitsOps.concat bs) := by
  have hloop : ∀ (bs : List Bits) (a : Bits), (vectors bs).reverse.flatten ++ bool.bitsToVector a =
      bool.bitsToVector (bs.foldl BitsOps.append a) := by
    intro bs
    induction bs with
    | nil => intro a; rfl
    | cons b bs ih =>
      intro a
      rw [List.foldl_cons, ← ih, ← bool_append_eq, vectors_cons, List.reverse_cons,
        List.flatten_append, List.flatten_singleton, List.append_assoc]
  have h := hloop bs (Bits.zero 0)
  rwa [show bool.bitsToVector (Bits.zero 0) = [] from rfl, List.append_nil] at h

theorem bool_zeroExtend_eq {n : ℕ} (h : b.bitCount ≤ n) : bool.zeroExtend (bool.bitsToVector b) n =
      some (bool.bitsToVector (BitsOps.zeroExtend b n)) := by
  rw [zeroExtend, if_pos (by simpa using h)]
  congr 1
  apply eq_bool_bitsToVector
  · simp [concat, BitsOps.zeroExtend_bitCount h]
    omega
  · simp [concat, value_append, bool_zero]

theorem replicate_eq_bitsToVector (fill : Bool) (n : ℕ) : List.replicate n fill =
    bool.bitsToVector (if fill then Bits.allOnes n else Bits.zero n) := by
  apply eq_bool_bitsToVector
  · rcases fill with _ | _
    · simp
    · simp
  · rcases fill with _ | _
    · simp
    · simp [value_replicate_true]

/-- The source takes the last element of the vector for the sign. -/
theorem getLast?_bool_bitsToVector {back : Bool} (h : (bool.bitsToVector b).getLast? = some back) :
    back = b.msb := by
  rw [List.getLast?_eq_getElem?, length_bool_bitsToVector] at h
  obtain ⟨hlt, hget⟩ := List.getElem?_eq_some_iff.mp h
  rw [length_bool_bitsToVector] at hlt
  rw [← List.getD_eq_getElem _ false, getD_bool_bitsToVector] at hget
  rw [Bits.msb, if_neg (by omega), ← hget]
  rfl

theorem bool_signExtend_eq {n : ℕ} {r : List Bool}
    (h : Evaluator.signExtend (bool.bitsToVector b) n = some r) :
    r = bool.bitsToVector (BitsOps.signExtend b n) := by
  obtain ⟨back, hback, h⟩ := Option.bind_eq_some_iff.mp h
  rw [getLast?_bool_bitsToVector hback] at h
  split at h
  · cases h
    rw [length_bool_bitsToVector, replicate_eq_bitsToVector]
    exact bool_concat_eq [_, b]
  · cases h

/-! ## Comparisons and reductions -/

theorem bool_ofBool (c : Bool) : bool.bitsToVector (BitsOps.ofBool c) = [c] := by
  cases c <;> rfl

theorem bool_equals_eq {a : Bits} (h : a.bitCount = b.bitCount) :
    bool.equals (bool.bitsToVector a) (bool.bitsToVector b) = some (decide (a = b)) := by
  rw [bool_equals (by simpa using h)]
  congr 1
  rw [decide_eq_decide]
  constructor
  · exact bool_bitsToVector_injective
  · rintro rfl
    rfl

theorem bool_uLessThan_eq {a : Bits} (h : a.bitCount = b.bitCount) :
    bool.uLessThan (bool.bitsToVector a) (bool.bitsToVector b) = some (BitsOps.uLessThan a b) := by
  rw [bool_uLessThan (by simpa using h), value_bool_bitsToVector, value_bool_bitsToVector]
  rfl

theorem foldl_and (v : List Bool) (r : Bool) : v.foldl Bool.and r = (r && v.all id) := by
  induction v generalizing r with
  | nil => simp
  | cons b v ih => rw [List.foldl_cons, ih, List.all_cons, ← Bool.and_assoc, id]

/-- All elements are set when the number is the greatest one. -/
theorem all_iff_value (v : List Bool) : v.all id = true ↔ value v = 2 ^ v.length - 1 := by
  rw [← value_replicate_true, value_eq_iff (by simp), List.eq_replicate_iff]
  simp

theorem bool_andReduce_eq (b : Bits) :
    bool.andReduce (bool.bitsToVector b) = bool.bitsToVector (BitsOps.andReduce b) := by
  have hall := all_iff_value (bool.bitsToVector b)
  rw [value_bool_bitsToVector, length_bool_bitsToVector] at hall
  rw [BitsOps.andReduce, bool_ofBool, Bits.isAllOnes, andReduce]
  congr 1
  show (bool.bitsToVector b).foldl Bool.and true = _
  rw [foldl_and, Bool.true_and, Bool.eq_iff_iff, hall, beq_iff_eq]

theorem bool_orReduce_eq (b : Bits) :
    bool.orReduce (bool.bitsToVector b) = bool.bitsToVector (BitsOps.orReduce b) := by
  rw [bool_orReduce, value_bool_bitsToVector, BitsOps.orReduce, bool_ofBool, Bits.isZero]
  congr 1
  rw [Bool.eq_iff_iff, decide_eq_true_eq, Bool.not_eq_true', beq_eq_false_iff_ne]
  exact Nat.pos_iff_ne_zero

/-- The loop of `XorReduce` keeps the parity of the set elements. -/
theorem foldl_xorReduce (v : List Bool) (r : Bool) :
    v.foldl (fun result e => bool.or (bool.and (bool.not result) e)
      (bool.and result (bool.not e))) r = (r ^^ (v.count true % 2 == 1)) := by
  induction v generalizing r with
  | nil => simp
  | cons b v ih =>
    rw [List.foldl_cons, ih]
    rcases b with _ | _
    · cases r <;> rfl
    · rw [List.count_cons_self, Nat.add_mod]
      rcases Nat.mod_two_eq_zero_or_one (v.count true) with h | h
      · rw [h]
        cases r <;> rfl
      · rw [h]
        cases r <;> rfl

theorem bool_xorReduce_eq (b : Bits) :
    bool.xorReduce (bool.bitsToVector b) = bool.bitsToVector (BitsOps.xorReduce b) := by
  rw [BitsOps.xorReduce, bool_ofBool, xorReduce, foldl_xorReduce, bool_zero, Bool.false_xor,
    bool_bitsToVector_eq_toBitVector, Bits.toBitVector, List.count, List.countP_map]
  congr 3
  refine List.countP_congr fun i _ => ?_
  simp

/-! ## One-hot numbers -/

theorem oneHotLoop_false (v : List Bool) :
    bool.oneHotLoop false v = (List.replicate v.length false, false) := by
  induction v with
  | nil => rfl
  | cons b v ih =>
    rw [oneHotLoop, show bool.and false (bool.not b) = false from rfl, ih]
    rfl

/-- The vector whose only set element is at the position `k`. -/
theorem map_decide_succ (k n : ℕ) : (List.range (n + 1)).map (fun i => decide (k + 1 = i)) =
    false :: (List.range n).map fun i => decide (k = i) := by
  rw [List.range_succ_eq_map, List.map_cons]
  congr 1
  simp

/-- The loop marks the first element which is set, and says at the end when there is none. -/
theorem bool_oneHotLoop (v : List Bool) : bool.oneHotLoop true v =
    ((List.range v.length).map fun i => decide (v.findIdx id = i),
      decide (v.findIdx id = v.length)) := by
  induction v with
  | nil => rfl
  | cons b v ih =>
    rw [oneHotLoop, List.findIdx_cons, List.length_cons]
    rcases b with _ | _
    · rw [show bool.and true (bool.not false) = true from rfl, ih]
      simp only [id, cond_false]
      rw [map_decide_succ]
      simp [bool]
    · rw [show bool.and true (bool.not true) = false from rfl, oneHotLoop_false]
      rw [List.range_succ_eq_map, List.map_cons]
      refine Prod.ext ?_ (by simp)
      refine congrArg₂ List.cons rfl ?_
      symm
      rw [List.eq_replicate_iff]
      simp

/-- One bit, shifted to its place. -/
theorem testBit_shiftLeftLogical_one {w k i : ℕ} {one : Bits} (hone : Bits.uBits 1 w = some one)
    (hk : k < w) (hi : i < w) :
    (BitsOps.shiftLeftLogical one k).toNat.testBit i = decide (i = k) := by
  obtain ⟨hw, hn⟩ := Bits.uBits_eq_some hone
  have htest : ∀ j, Nat.testBit 1 j = decide (0 = j) := fun j => Nat.testBit_two_pow (n := 0)
  rw [BitsOps.shiftLeftLogical, hw, Nat.min_eq_left hk.le, testBit_append, Bits.zero_bitCount,
    Bits.zero_toNat, Nat.zero_testBit, testBit_slice, hn, htest]
  split
  · rw [eq_comm, decide_eq_false_iff_not]
    omega
  · rw [decide_eq_true (show i - k < w - k by omega), Bool.true_and, decide_eq_decide]
    omega

theorem bitCount_shiftLeftLogical (b : Bits) (k : ℕ) :
    (BitsOps.shiftLeftLogical b k).bitCount = b.bitCount := by
  show b.bitCount - min k b.bitCount + min k b.bitCount = b.bitCount
  omega

theorem vector_shiftLeftLogical_one {w k : ℕ} {one : Bits} (hone : Bits.uBits 1 w = some one)
    (hk : k < w) : bool.bitsToVector (BitsOps.shiftLeftLogical one k) =
      (List.range w).map fun i => decide (i = k) := by
  symm
  have hw : (BitsOps.shiftLeftLogical one k).bitCount = w :=
    (bitCount_shiftLeftLogical one k).trans (Bits.uBits_eq_some hone).1
  apply eq_bool_bitsToVector_of_getD
  · simp [hw]
  · intro i hi
    rw [hw] at hi
    rw [testBit_shiftLeftLogical_one hone hk hi, List.getD_eq_getElem _ _ (by simpa using hi),
      List.getElem_map, List.getElem_range]

/-- The first index at which a predicate holds, as the position in the vector. -/
theorem findIdx_map_range (p : ℕ → Bool) (n : ℕ) :
    ((List.range n).map p).findIdx id = ((List.range n).find? p).getD n := by
  rcases hfind : (List.range n).find? p with _ | i
  · rw [List.findIdx_eq_length_of_false]
    · simp
    · intro b hb
      obtain ⟨i, hi, rfl⟩ := List.mem_map.mp hb
      simpa using List.find?_eq_none.mp hfind i hi
  · obtain ⟨hp, hi, hbelow⟩ := List.find?_range_eq_some.mp hfind
    rw [List.findIdx_eq (by simpa using hi)]
    constructor
    · simpa using hp
    · intro j hj
      simpa using hbelow j hj

theorem bool_oneHotLsbToMsb (v : List Bool) : bool.oneHotLsbToMsb v =
    (List.range (v.length + 1)).map fun i => decide (i = v.findIdx id) := by
  rw [oneHotLsbToMsb, bool_one, bool_oneHotLoop, List.range_succ, List.map_append]
  congr 1
  · exact List.map_congr_left fun i _ => decide_eq_decide.mpr eq_comm
  · exact congrArg (fun b => [b]) (decide_eq_decide.mpr eq_comm)

theorem bool_oneHotMsbToLsb (v : List Bool) : bool.oneHotMsbToLsb v =
    (List.range (v.length + 1)).map fun i => decide (i =
      if v.reverse.findIdx id < v.length then v.length - v.reverse.findIdx id - 1
      else v.length) := by
  have hle : v.reverse.findIdx id ≤ v.reverse.length := List.findIdx_le_length
  rw [List.length_reverse] at hle
  rw [oneHotMsbToLsb, bool_one, bool_oneHotLoop, List.range_succ, List.map_append]
  congr 1
  · rw [← List.map_reverse, List.length_reverse]
    apply List.ext_getElem
    · simp
    · intro i hi hi'
      have hi : i < v.length := by simpa using hi
      simp only [List.getElem_map, List.getElem_reverse, List.getElem_range, List.length_range]
      rw [decide_eq_decide]
      split
      · omega
      · omega
  · refine congrArg (fun b => [b]) (decide_eq_decide.mpr ?_)
    rw [List.length_reverse]
    split
    · omega
    · omega

/-- A comparison with a constant which returns compares the number. -/
theorem bool_equalsConstant_inv {v : List Bool} {i : ℕ} {b : Bool}
    (h : bool.equalsConstant v i = some b) : b = decide (value v = i) := by
  obtain ⟨constant, hconstant, -⟩ := Option.bind_eq_some_iff.mp h
  obtain ⟨hl, hn⟩ := bool_uBitsVector_inv hconstant
  have hlt := value_lt constant
  rw [hl, hn] at hlt
  rw [bool_equalsConstant hlt] at h
  exact (Option.some.inj h).symm

/-- A decoding which returns marks the number of the input. -/
theorem bool_decode_inv {v r : List Bool} {n : ℕ} (h : bool.decode v n = some r) :
    r = (List.range n).map fun i => decide (value v = i) := by
  rw [decode] at h
  generalize List.range n = l at h ⊢
  induction l generalizing r with
  | nil =>
    cases h
    rfl
  | cons i l ih =>
    rw [List.mapM_cons, Option.bind_eq_bind, Option.bind_eq_some_iff] at h
    obtain ⟨b, hb, h⟩ := h
    rw [Option.bind_eq_bind, Option.bind_eq_some_iff] at h
    obtain ⟨bs, hbs, h⟩ := h
    cases h
    rw [List.map_cons, ← ih hbs, bool_equalsConstant_inv hb]

/-- One input of the loop of `Encode`, on the vector of the result. -/
theorem bool_encodeStep (e : Bool) {i : ℕ} {result index : Bits}
    (hindex : Bits.uBits i result.bitCount = some index) :
    ((bool.bitsToVector result).zipIdx.map fun (r, j) => if i.testBit j then bool.or r e else r) =
      bool.bitsToVector (if e then BitsOps.or result index else result) := by
  obtain ⟨-, hn⟩ := Bits.uBits_eq_some hindex
  have hw : (if e then BitsOps.or result index else result).bitCount = result.bitCount := by
    split
    · rfl
    · rfl
  apply eq_bool_bitsToVector_of_getD
  · simp [hw]
  · intro j hj
    rw [hw] at hj
    rw [List.getD_eq_getElem _ _ (by simpa using hj), List.getElem_map, List.getElem_zipIdx,
      ← List.getD_eq_getElem _ false, getD_bool_bitsToVector, Nat.zero_add]
    rcases e with _ | _
    · rw [if_neg Bool.false_ne_true]
      show (if i.testBit j = true then (result.toNat.testBit j || false) else _) = _
      rw [Bool.or_false, ite_self]
    · rw [if_pos rfl, bitwise_or.bit _ _ _ hj, hn]
      show (if i.testBit j = true then (result.toNat.testBit j || true) else _) =
        (result.toNat.testBit j || i.testBit j)
      split
      · rename_i hset
        rw [hset]
      · rename_i hset
        rw [Bool.eq_false_of_not_eq_true hset, Bool.or_false]

theorem zipIdx_bool_bitsToVector (b : Bits) :
    (bool.bitsToVector b).zipIdx = (List.range b.bitCount).map fun i => (b.get i, i) := by
  apply List.ext_getElem
  · simp
  · intro i hi hi'
    rw [List.getElem_zipIdx, List.getElem_map, List.getElem_range, Nat.zero_add,
      ← List.getD_eq_getElem _ false, getD_bool_bitsToVector]
    rfl

/-! ## Vectors of results -/

theorem length_toBitVector (b : Bits) : b.toBitVector.length = b.bitCount := by
  rw [Bits.toBitVector, List.length_map, List.length_range]

theorem eq_of_toBitVector {a : Bits} (h : a.toBitVector = b.toBitVector) : a = b := by
  apply bool_bitsToVector_injective
  rwa [bool_bitsToVector_eq_toBitVector, bool_bitsToVector_eq_toBitVector]

theorem toBitVector_slice {start width : ℕ} (h : start + width ≤ b.bitCount) :
    (BitsOps.slice b start width).toBitVector = (b.toBitVector.drop start).take width := by
  have hslice := bool_bitSlice_eq h
  rw [bool_bitsToVector_eq_toBitVector, bool_bitsToVector_eq_toBitVector,
    bitSlice, if_pos (by rwa [length_toBitVector])] at hslice
  exact (Option.some.inj hslice).symm

theorem toBitVector_concat (bs : List Bits) :
    (BitsOps.concat bs).toBitVector = (bs.reverse.map Bits.toBitVector).flatten := by
  have hconcat := bool_concat_eq bs
  rw [bool_bitsToVector_eq_toBitVector] at hconcat
  have hvectors : vectors bs = bs.map Bits.toBitVector :=
    List.map_congr_left fun b _ => bool_bitsToVector_eq_toBitVector b
  rw [← hconcat, hvectors, List.map_reverse]
  rfl

theorem bitCount_concat (bs : List Bits) :
    (BitsOps.concat bs).bitCount = (bs.map Bits.bitCount).sum := by
  rw [← length_toBitVector, toBitVector_concat, List.length_flatten, List.map_map, List.map_reverse,
    List.sum_reverse]
  exact congrArg List.sum (List.map_congr_left fun b _ => length_toBitVector b)

end Evaluator
end Xls
