/-
# Flattening values to bits

Values of any type as one bit vector and back (`xls/codegen/flattening.cc`).  The first element
of a tuple becomes the most significant bits, the first element of an array the least
significant ones.

* `flattenValueToBits`, `unflattenBitsToValue`, `getFlatBitIndexOfTupleElement` : the source;
* `flatBits` : the flat bits of a value, least significant bit first;
* `unflatten_flatten`, `flatten_unflatten` : the two round trips;
* `slice_tuple_middle`, `slice_array` : the bits of an element.
-/
import Xls.Ir.LogicBits
import Xls.Ir.LeafTypeTree

namespace Xls

namespace Ty

mutual

/-- `ToString`. -/
def string : Ty → String
  | .bits n => "bits[" ++ Nat.repr n ++ "]"
  | .token => "token"
  | .tuple ts => "(" ++ String.intercalate ", " (stringList ts) ++ ")"
  | .array n t => t.string ++ "[" ++ Nat.repr n ++ "]"

/-- The element types of a tuple. -/
def stringList : List Ty → List String
  | [] => []
  | t :: ts => t.string :: stringList ts

end

mutual

/-- No tokens and no empty arrays. -/
def isFlattenable : Ty → Bool
  | .bits _ => true
  | .token => false
  | .tuple ts => areFlattenable ts
  | .array n t => n != 0 && t.isFlattenable

/-- The element types of a tuple. -/
def areFlattenable : List Ty → Bool
  | [] => true
  | t :: ts => t.isFlattenable && areFlattenable ts

end

end Ty

namespace Value

mutual

/-- `SameTypeAs`.  Of arrays only the first elements are compared. -/
def sameTypeAs : Value → Value → Bool
  | .bits a, .bits b => a.bitCount == b.bitCount
  | .token, .token => true
  | .tuple vs, .tuple ws => sameTypesAs vs ws
  | .array (v :: vs), .array (w :: ws) => vs.length == ws.length && sameTypeAs v w
  | .array [], .array [] => true
  | _, _ => false

/-- The elements of two tuples. -/
def sameTypesAs : List Value → List Value → Bool
  | [], [] => true
  | v :: vs, w :: ws => sameTypeAs v w && sameTypesAs vs ws
  | _, _ => false

end

end Value

namespace Flattening

/-- What ends a conversion without a result: the error statuses, a failed `XLS_RET_CHECK`, and a
failed `XLS_CHECK` or `XLS_LOG(FATAL)`. -/
inductive Failure where
  | invalidArgument (message : String)
  | unimplemented (message : String)
  | internal
  | fatal
  deriving DecidableEq, Repr

/-! ## The source -/

mutual

/-- `GatherValueLeaves`: the leaves in the order in which they are pushed. -/
def gatherValueLeaves : Value → Except Failure (List Bits)
  | .bits b => .ok [b]
  | .tuple vs => gatherTuple vs
  | .array vs => gatherArray vs
  | .token => .error .fatal

/-- The loop over the elements of a tuple. -/
def gatherTuple : List Value → Except Failure (List Bits)
  | [] => .ok []
  | v :: vs => do
    let leaves ← gatherValueLeaves v
    let others ← gatherTuple vs
    return leaves ++ others

/-- The loop over the elements of an array, from the last one to the first. -/
def gatherArray : List Value → Except Failure (List Bits)
  | [] => .ok []
  | v :: vs => do
    let others ← gatherArray vs
    let leaves ← gatherValueLeaves v
    return others ++ leaves

end

/-- `FlattenValueToBits`. -/
def flattenValueToBits (value : Value) : Except Failure Bits :=
  (gatherValueLeaves value).map BitsOps.concat

/-- `GetFlatBitIndexOfElement` of a tuple type. -/
def getFlatBitIndexOfTupleElement (elementTypes : List Ty) (index : ℕ) : Except Failure ℕ :=
  if index < elementTypes.length then
    .ok ((elementTypes.drop (index + 1)).reverse.foldl
      (fun flatIndex t => flatIndex + t.flatBitCount) 0)
  else .error .fatal

/-- `GetFlatBitIndexOfElement` of an array type. -/
def getFlatBitIndexOfArrayElement (size : ℕ) (elementType : Ty) (index : ℕ) : Except Failure ℕ :=
  if index < size then .ok (index * elementType.flatBitCount) else .error .fatal

/-- `Bits::Slice` with its check. -/
def slice (bits : Bits) (start width : ℕ) : Except Failure Bits :=
  if start + width ≤ bits.bitCount then .ok (BitsOps.slice bits start width) else .error .fatal

/-- `Value::Array`. -/
def valueArray : List Value → Except Failure Value
  | [] => .error (.unimplemented "Empty array Values are not supported.")
  | v :: vs => if vs.all (v.sameTypeAs ·) then .ok (.array (v :: vs)) else .error .internal

/-- The loop over the elements of an array, given the conversion of one element. -/
def unflattenArray (bits : Bits) (size : ℕ) (elementType : Ty)
    (unflatten : Bits → Except Failure Value) : Except Failure (List Value) :=
  (List.range size).mapM fun i => do
    let index ← getFlatBitIndexOfArrayElement size elementType i
    let elementBits ← slice bits index elementType.flatBitCount
    unflatten elementBits

mutual

/-- `UnflattenBitsToValue`. -/
def unflattenBitsToValue (bits : Bits) (type : Ty) : Except Failure Value :=
  if bits.bitCount ≠ type.flatBitCount then
    .error (.invalidArgument ("Cannot unflatten input. Has " ++ Nat.repr bits.bitCount ++
      " bits, expected " ++ Nat.repr type.flatBitCount ++ " bits"))
  else match type with
    | .bits _ => .ok (.bits bits)
    | .tuple ts => Value.tuple <$> unflattenTuple bits ts 0 ts
    | .array n t => do
      let elements ← unflattenArray bits n t fun elementBits => unflattenBitsToValue elementBits t
      valueArray elements
    | .token => .error (.invalidArgument ("Invalid type: " ++ Ty.string .token))

/-- The loop over the elements of a tuple, from the element with index `i` on. -/
def unflattenTuple (bits : Bits) (elementTypes : List Ty) (i : ℕ) :
    List Ty → Except Failure (List Value)
  | [] => .ok []
  | t :: ts => do
    let index ← getFlatBitIndexOfTupleElement elementTypes i
    let elementBits ← slice bits index t.flatBitCount
    let element ← unflattenBitsToValue elementBits t
    let others ← unflattenTuple bits elementTypes (i + 1) ts
    return element :: others

end

/-! ## Flat bits -/

mutual

/-- The flat bits of a value, least significant bit first. -/
def flatBits : Value → List Bool
  | .bits b => b.toBitVector
  | .token => []
  | .tuple vs => flatBitsTuple vs
  | .array vs => flatBitsArray vs

/-- The elements of a tuple, the last one first. -/
def flatBitsTuple : List Value → List Bool
  | [] => []
  | v :: vs => flatBitsTuple vs ++ flatBits v

/-- The elements of an array. -/
def flatBitsArray : List Value → List Bool
  | [] => []
  | v :: vs => flatBits v ++ flatBitsArray vs

end

theorem length_toBitVector (b : Bits) : b.toBitVector.length = b.bitCount := by
  rw [Bits.toBitVector, List.length_map, List.length_range]

theorem toBitVector_injective {a b : Bits} (h : a.toBitVector = b.toBitVector) : a = b := by
  rw [← Evaluator.bool_bitsToVector_eq_toBitVector, ← Evaluator.bool_bitsToVector_eq_toBitVector]
    at h
  exact Evaluator.bool_bitsToVector_injective h

theorem toBitVector_ofBools (v : List Bool) : (Bits.ofBools v).toBitVector = v := by
  rw [← Evaluator.bool_bitsToVector_eq_toBitVector, Evaluator.bool_bitsToVector_ofBools]

theorem toBitVector_slice {b : Bits} {start width : ℕ} (h : start + width ≤ b.bitCount) :
    (BitsOps.slice b start width).toBitVector = (b.toBitVector.drop start).take width := by
  have hslice := Evaluator.bool_bitSlice_eq h
  rw [Evaluator.bitSlice, if_pos (by simpa using h), Evaluator.bool_bitsToVector_eq_toBitVector,
    Evaluator.bool_bitsToVector_eq_toBitVector] at hslice
  exact (Option.some.inj hslice).symm

theorem toBitVector_concat (bs : List Bits) :
    (BitsOps.concat bs).toBitVector = (bs.map Bits.toBitVector).reverse.flatten := by
  have hvectors : Evaluator.vectors bs = bs.map Bits.toBitVector :=
    List.map_congr_left fun b _ => Evaluator.bool_bitsToVector_eq_toBitVector b
  rw [← Evaluator.bool_bitsToVector_eq_toBitVector, ← Evaluator.bool_concat_eq, hvectors]
  rfl

/-- The flat bits of some leaves. -/
theorem toBitVector_concat_append (bs cs : List Bits) : (BitsOps.concat (bs ++ cs)).toBitVector =
      (BitsOps.concat cs).toBitVector ++ (BitsOps.concat bs).toBitVector := by
  rw [toBitVector_concat, toBitVector_concat, toBitVector_concat, List.map_append,
    List.reverse_append, List.flatten_append]

/-- The leaves of a value have its flat bits. -/
def HasFlatBits (leaves : Except Failure (List Bits)) (v : List Bool) : Prop :=
  ∃ bs, leaves = .ok bs ∧ (BitsOps.concat bs).toBitVector = v

theorem HasFlatBits.append {bs cs : List Bits} {v w : List Bool}
    (hv : (BitsOps.concat bs).toBitVector = v) (hw : (BitsOps.concat cs).toBitVector = w) :
    (BitsOps.concat (bs ++ cs)).toBitVector = w ++ v := by
  rw [toBitVector_concat_append, hv, hw]

mutual

theorem hasFlatBits_gather : ∀ (v : Value) (t : Ty), v.conformsToType t = true →
    t.isFlattenable = true → HasFlatBits (gatherValueLeaves v) (flatBits v)
  | .bits b, .bits n, _, _ => ⟨[b], rfl, by simp [toBitVector_concat, flatBits]⟩
  | .tuple vs, .tuple ts, h, ht => hasFlatBits_gatherTuple vs ts h ht
  | .array vs, .array n t, h, ht => by
    rw [Value.conformsToType, Bool.and_eq_true] at h
    rw [Ty.isFlattenable, Bool.and_eq_true] at ht
    exact hasFlatBits_gatherArray vs t h.2 ht.2
  | .token, .token, _, ht => by cases ht
  | .bits _, .token, h, _ | .bits _, .tuple _, h, _ | .bits _, .array _ _, h, _ => by cases h
  | .token, .bits _, h, _ | .token, .tuple _, h, _ | .token, .array _ _, h, _ => by cases h
  | .tuple _, .bits _, h, _ | .tuple _, .token, h, _ | .tuple _, .array _ _, h, _ => by cases h
  | .array _, .bits _, h, _ | .array _, .token, h, _ | .array _, .tuple _, h, _ => by cases h

theorem hasFlatBits_gatherTuple : ∀ (vs : List Value) (ts : List Ty),
    Value.conformsToTypes vs ts = true → Ty.areFlattenable ts = true →
    HasFlatBits (gatherTuple vs) (flatBitsTuple vs)
  | [], [], _, _ => ⟨[], rfl, rfl⟩
  | v :: vs, t :: ts, h, ht => by
    rw [Value.conformsToTypes, Bool.and_eq_true] at h
    rw [Ty.areFlattenable, Bool.and_eq_true] at ht
    obtain ⟨bs, hbs, hv⟩ := hasFlatBits_gather v t h.1 ht.1
    obtain ⟨cs, hcs, hvs⟩ := hasFlatBits_gatherTuple vs ts h.2 ht.2
    refine ⟨bs ++ cs, ?_, HasFlatBits.append hv hvs⟩
    rw [gatherTuple, hbs, hcs]
    rfl
  | [], _ :: _, h, _ | _ :: _, [], h, _ => by cases h

theorem hasFlatBits_gatherArray : ∀ (vs : List Value) (t : Ty),
    Value.conformToType vs t = true → t.isFlattenable = true →
    HasFlatBits (gatherArray vs) (flatBitsArray vs)
  | [], _, _, _ => ⟨[], rfl, rfl⟩
  | v :: vs, t, h, ht => by
    rw [Value.conformToType, Bool.and_eq_true] at h
    obtain ⟨bs, hbs, hv⟩ := hasFlatBits_gather v t h.1 ht
    obtain ⟨cs, hcs, hvs⟩ := hasFlatBits_gatherArray vs t h.2 ht
    refine ⟨cs ++ bs, ?_, HasFlatBits.append hvs hv⟩
    rw [gatherArray, hbs, hcs]
    rfl

end

/-- Flattening a value of a type without tokens. -/
theorem flattenValueToBits_eq {v : Value} {t : Ty} (h : v.conformsToType t = true)
    (ht : t.isFlattenable = true) : flattenValueToBits v = .ok (Bits.ofBools (flatBits v)) := by
  obtain ⟨bs, hbs, hv⟩ := hasFlatBits_gather v t h ht
  rw [flattenValueToBits, hbs, Except.map]
  congr 1
  apply toBitVector_injective
  rw [hv, toBitVector_ofBools]

/-! ## Widths -/

mutual

theorem length_flatBits : ∀ (v : Value) (t : Ty), v.conformsToType t = true →
    (flatBits v).length = t.flatBitCount
  | .bits b, .bits n, h => by
    rw [Value.conformsToType, beq_iff_eq] at h
    rw [flatBits, length_toBitVector, Ty.flatBitCount, h]
  | .token, .token, _ => rfl
  | .tuple vs, .tuple ts, h => length_flatBitsTuple vs ts h
  | .array vs, .array n t, h => by
    rw [Value.conformsToType, Bool.and_eq_true, beq_iff_eq] at h
    rw [flatBits, Ty.flatBitCount, length_flatBitsArray vs t h.2, h.1]
  | .bits _, .token, h | .bits _, .tuple _, h | .bits _, .array _ _, h => by cases h
  | .token, .bits _, h | .token, .tuple _, h | .token, .array _ _, h => by cases h
  | .tuple _, .bits _, h | .tuple _, .token, h | .tuple _, .array _ _, h => by cases h
  | .array _, .bits _, h | .array _, .token, h | .array _, .tuple _, h => by cases h

theorem length_flatBitsTuple : ∀ (vs : List Value) (ts : List Ty),
    Value.conformsToTypes vs ts = true →
    (flatBitsTuple vs).length = Ty.flatBitCountList ts
  | [], [], _ => rfl
  | v :: vs, t :: ts, h => by
    rw [Value.conformsToTypes, Bool.and_eq_true] at h
    rw [flatBitsTuple, List.length_append, length_flatBits v t h.1,
      length_flatBitsTuple vs ts h.2, Ty.flatBitCountList, Nat.add_comm]
  | [], _ :: _, h | _ :: _, [], h => by cases h

theorem length_flatBitsArray : ∀ (vs : List Value) (t : Ty), Value.conformToType vs t = true →
    (flatBitsArray vs).length = t.flatBitCount * vs.length
  | [], _, _ => rfl
  | v :: vs, t, h => by
    rw [Value.conformToType, Bool.and_eq_true] at h
    rw [flatBitsArray, List.length_append, length_flatBits v t h.1,
      length_flatBitsArray vs t h.2, List.length_cons, Nat.mul_succ, Nat.add_comm]

end

/-- The loop of `GetFlatBitIndexOfElement`. -/
theorem foldl_flatBitCount (ts : List Ty) (flatIndex : ℕ) :
    ts.reverse.foldl (fun flatIndex t => flatIndex + t.flatBitCount) flatIndex =
      flatIndex + Ty.flatBitCountList ts := by
  induction ts generalizing flatIndex with
  | nil => rfl
  | cons t ts ih =>
    rw [List.reverse_cons, List.foldl_append, ih, List.foldl_cons, List.foldl_nil,
      Ty.flatBitCountList, Nat.add_assoc, Nat.add_comm t.flatBitCount]

/-- The element with the types `us` after it starts above their bits. -/
theorem getFlatBitIndexOfTupleElement_eq (ts : List Ty) (t : Ty) (us : List Ty) :
    getFlatBitIndexOfTupleElement (ts ++ t :: us) ts.length = .ok (Ty.flatBitCountList us) := by
  have hdrop : (ts ++ t :: us).drop (ts.length + 1) = us := by
    rw [List.drop_append, List.drop_eq_nil_of_le (by omega), List.nil_append,
      Nat.add_sub_cancel_left, List.drop_one, List.tail_cons]
  rw [getFlatBitIndexOfTupleElement, if_pos (by simp), hdrop, foldl_flatBitCount, Nat.zero_add]

/-! ## The bits of an element -/

theorem slice_middle {b : Bits} {lo mid hi : List Bool} (h : b.toBitVector = lo ++ mid ++ hi) :
    slice b lo.length mid.length = .ok (Bits.ofBools mid) := by
  have hlength := congrArg List.length h
  rw [length_toBitVector, List.length_append, List.length_append] at hlength
  have hle : lo.length + mid.length ≤ b.bitCount := by omega
  rw [slice, if_pos hle]
  congr 1
  apply toBitVector_injective
  rw [toBitVector_slice hle, toBitVector_ofBools, h, List.append_assoc, List.drop_left,
    List.take_left]

theorem flatBitsTuple_append (vs ws : List Value) :
    flatBitsTuple (vs ++ ws) = flatBitsTuple ws ++ flatBitsTuple vs := by
  induction vs with
  | nil => rw [List.nil_append, flatBitsTuple, List.append_nil]
  | cons v vs ih => rw [List.cons_append, flatBitsTuple, flatBitsTuple, ih, List.append_assoc]

theorem flatBitsArray_append (vs ws : List Value) :
    flatBitsArray (vs ++ ws) = flatBitsArray vs ++ flatBitsArray ws := by
  induction vs with
  | nil => rfl
  | cons v vs ih => rw [List.cons_append, flatBitsArray, flatBitsArray, ih, List.append_assoc]

/-- The bits of the tuple element between the values `ps` and `us`. -/
theorem slice_tuple_middle {b : Bits} {ps us : List Value} {v : Value} {uts : List Ty} {t : Ty}
    (h : b.toBitVector = flatBitsTuple (ps ++ v :: us)) (hv : v.conformsToType t = true)
    (hus : Value.conformsToTypes us uts = true) :
    slice b (Ty.flatBitCountList uts) t.flatBitCount = .ok (Bits.ofBools (flatBits v)) := by
  rw [flatBitsTuple_append] at h
  rw [← length_flatBitsTuple us uts hus, ← length_flatBits v t hv]
  exact slice_middle h

theorem conformToType_iff {vs : List Value} {t : Ty} :
    Value.conformToType vs t = true ↔ ∀ v ∈ vs, v.conformsToType t = true := by
  induction vs with
  | nil => simp [Value.conformToType]
  | cons v vs ih => rw [Value.conformToType, Bool.and_eq_true, ih, List.forall_mem_cons]

/-- The bits of the array element with index `i`. -/
theorem slice_array {b : Bits} {vs : List Value} {v : Value} {t : Ty} {i : ℕ}
    (h : b.toBitVector = flatBitsArray vs) (hvs : Value.conformToType vs t = true)
    (hv : vs[i]? = some v) :
    slice b (i * t.flatBitCount) t.flatBitCount = .ok (Bits.ofBools (flatBits v)) := by
  rw [conformToType_iff] at hvs
  have hvt := hvs v (List.mem_of_getElem? hv)
  have hps : Value.conformToType (vs.take i) t = true :=
    conformToType_iff.mpr fun w hw => hvs w (List.mem_of_mem_take hw)
  obtain ⟨hi, hvi⟩ := List.getElem?_eq_some_iff.mp hv
  have hlength : (flatBitsArray (vs.take i)).length = i * t.flatBitCount := by
    rw [length_flatBitsArray _ t hps, List.length_take, min_eq_left hi.le, Nat.mul_comm]
  have hsplit : vs = vs.take i ++ v :: vs.drop (i + 1) := by
    rw [← hvi, ← List.drop_eq_getElem_cons hi, List.take_append_drop]
  rw [hsplit, flatBitsArray_append, flatBitsArray, ← List.append_assoc] at h
  rw [← hlength, ← length_flatBits v t hvt]
  exact slice_middle h

/-! ## From values to bits and back -/

mutual

/-- Two values of one type. -/
theorem sameTypeAs_of_conforms : ∀ (v w : Value) (t : Ty), v.conformsToType t = true →
    w.conformsToType t = true → v.sameTypeAs w = true
  | .bits a, .bits b, .bits n, hv, hw => by
    rw [Value.conformsToType, beq_iff_eq] at hv hw
    rw [Value.sameTypeAs, hv, hw, beq_self_eq_true]
  | .token, .token, _, _, _ => rfl
  | .tuple vs, .tuple ws, .tuple ts, hv, hw => sameTypesAs_of_conforms vs ws ts hv hw
  | .array [], .array [], _, _, _ => rfl
  | .array (v :: vs), .array (w :: ws), .array n t, hv, hw => by
    rw [Value.conformsToType, Bool.and_eq_true, beq_iff_eq, Value.conformToType,
      Bool.and_eq_true] at hv hw
    rw [Value.sameTypeAs, sameTypeAs_of_conforms v w t hv.2.1 hw.2.1, Bool.and_true, beq_iff_eq]
    have := hv.1.trans hw.1.symm
    simpa using this
  | .array [], .array (_ :: _), .array _ _, hv, hw => by
    simp [Value.conformsToType] at hv hw
    omega
  | .array (_ :: _), .array [], .array _ _, hv, hw => by
    simp [Value.conformsToType] at hv hw
    omega
  | .bits _, .token, t, hv, hw | .bits _, .tuple _, t, hv, hw | .bits _, .array _, t, hv, hw
  | .token, .bits _, t, hv, hw | .token, .tuple _, t, hv, hw | .token, .array _, t, hv, hw
  | .tuple _, .bits _, t, hv, hw | .tuple _, .token, t, hv, hw | .tuple _, .array _, t, hv, hw
  | .array _, .bits _, t, hv, hw | .array _, .token, t, hv, hw | .array _, .tuple _, t, hv, hw => by
    cases t <;> simp [Value.conformsToType] at hv hw
  | .bits _, .bits _, .token, hv, _ | .bits _, .bits _, .tuple _, hv, _
  | .bits _, .bits _, .array _ _, hv, _ => by cases hv
  | .tuple _, .tuple _, .token, hv, _ | .tuple _, .tuple _, .bits _, hv, _
  | .tuple _, .tuple _, .array _ _, hv, _ => by cases hv
  | .array _, .array _, .token, hv, _ | .array _, .array _, .bits _, hv, _
  | .array _, .array _, .tuple _, hv, _ => by cases hv

theorem sameTypesAs_of_conforms : ∀ (vs ws : List Value) (ts : List Ty),
    Value.conformsToTypes vs ts = true → Value.conformsToTypes ws ts = true →
    Value.sameTypesAs vs ws = true
  | [], [], _, _, _ => rfl
  | v :: vs, w :: ws, t :: ts, hv, hw => by
    rw [Value.conformsToTypes, Bool.and_eq_true] at hv hw
    rw [Value.sameTypesAs, sameTypeAs_of_conforms v w t hv.1 hw.1,
      sameTypesAs_of_conforms vs ws ts hv.2 hw.2, Bool.and_self]
  | [], _ :: _, ts, hv, hw | _ :: _, [], ts, hv, hw => by
    cases ts <;> simp [Value.conformsToTypes] at hv hw
  | _ :: _, _ :: _, [], hv, _ => by cases hv

end

variable {vs : List Value} {t : Ty} {b : Bits}

/-- `Value::Array` of elements of one type. -/
theorem valueArray_eq (h : Value.conformToType vs t = true) (hpos : vs.length ≠ 0) :
    valueArray vs = .ok (.array vs) := by
  rcases vs with _ | ⟨v, vs⟩
  · exact absurd rfl hpos
  · have hall : vs.all (v.sameTypeAs ·) = true := by
      rw [conformToType_iff, List.forall_mem_cons] at h
      exact List.all_eq_true.mpr fun w hw => sameTypeAs_of_conforms v w t h.1 (h.2 w hw)
    rw [valueArray, if_pos hall]

theorem mapM_ok {α β : Type} {f : α → Except Failure β} {g : α → β} (l : List α)
    (h : ∀ a ∈ l, f a = .ok (g a)) : l.mapM f = .ok (l.map g) := by
  induction l with
  | nil => rfl
  | cons a l ih =>
    rw [List.forall_mem_cons] at h
    rw [List.mapM_cons, h.1, ih h.2]
    rfl

/-- The loop over the elements of an array. -/
theorem unflattenArray_eq {n : ℕ} {element : ℕ → Value}
    (h : ∀ i < n, ∃ e, slice b (i * t.flatBitCount) t.flatBitCount = .ok e ∧
      unflattenBitsToValue e t = .ok (element i)) :
    unflattenArray b n t (unflattenBitsToValue · t) = .ok ((List.range n).map element) := by
  apply mapM_ok
  intro i hi
  rw [List.mem_range] at hi
  obtain ⟨e, hslice, helement⟩ := h i hi
  rw [getFlatBitIndexOfArrayElement, if_pos hi]
  exact (congrArg (· >>= fun e => unflattenBitsToValue e t) hslice).trans helement

theorem unflatten_bits {n : ℕ} (h : b.bitCount = n) :
    unflattenBitsToValue b (.bits n) = .ok (.bits b) := by
  have hw : b.bitCount = (Ty.bits n).flatBitCount := h
  rw [unflattenBitsToValue, if_neg (not_not_intro hw)]

theorem unflatten_tuple {ts : List Ty} (hw : b.bitCount = (Ty.tuple ts).flatBitCount)
    (h : unflattenTuple b ts 0 ts = .ok vs) :
    unflattenBitsToValue b (.tuple ts) = .ok (.tuple vs) := by
  rw [unflattenBitsToValue, if_neg (not_not_intro hw), h]
  rfl

theorem unflatten_array {n : ℕ} (hw : b.bitCount = (Ty.array n t).flatBitCount)
    (h : unflattenArray b n t (unflattenBitsToValue · t) = .ok vs)
    (hvs : Value.conformToType vs t = true) (hpos : vs.length ≠ 0) :
    unflattenBitsToValue b (.array n t) = .ok (.array vs) := by
  rw [unflattenBitsToValue, if_neg (not_not_intro hw), h]
  exact valueArray_eq hvs hpos

/-- The element after those with the types `pts`. -/
theorem unflattenTuple_cons {e : Bits} {pts ts : List Ty} {v : Value}
    (hslice : slice b (Ty.flatBitCountList ts) t.flatBitCount = .ok e)
    (hv : unflattenBitsToValue e t = .ok v)
    (hvs : unflattenTuple b (pts ++ [t] ++ ts) (pts ++ [t]).length ts = .ok vs) :
    unflattenTuple b (pts ++ t :: ts) pts.length (t :: ts) = .ok (v :: vs) := by
  rw [List.append_assoc, List.singleton_append, List.length_append, List.length_singleton] at hvs
  rw [unflattenTuple, getFlatBitIndexOfTupleElement_eq, hvs]
  show (slice b _ _ >>= fun e => unflattenBitsToValue e t >>= fun v => pure (v :: vs)) = _
  rw [hslice]
  show (unflattenBitsToValue e t >>= fun v => pure (v :: vs)) = _
  rw [hv]
  rfl

mutual

/-- Unflattening the flat bits of a value gives the value. -/
theorem unflatten_flatBits : ∀ (v : Value) (t : Ty), v.conformsToType t = true →
    t.isFlattenable = true → unflattenBitsToValue (Bits.ofBools (flatBits v)) t = .ok v
  | .bits b, .bits n, h, _ => by
    have hb : Bits.ofBools (flatBits (.bits b)) = b :=
      toBitVector_injective (toBitVector_ofBools _)
    rw [Value.conformsToType, beq_iff_eq] at h
    rw [hb, unflatten_bits h]
  | .tuple vs, .tuple ts, h, ht =>
    unflatten_tuple (length_flatBitsTuple vs ts h) <|
      unflattenTuple_flatBits vs ts h ht (Bits.ofBools (flatBitsTuple vs)) [] []
        (toBitVector_ofBools _)
  | .array vs, .array n t, h, ht => by
    have hlength := length_flatBits (.array vs) (.array n t) h
    rw [Value.conformsToType, Bool.and_eq_true, beq_iff_eq] at h
    rw [Ty.isFlattenable, Bool.and_eq_true, bne_iff_ne] at ht
    have helements := unflattenElements_flatBits vs t h.2 ht.2
    have hloop : unflattenArray (Bits.ofBools (flatBitsArray vs)) n t (unflattenBitsToValue · t) =
        .ok ((List.range n).map fun i => vs[i]?.getD .token) := by
      refine unflattenArray_eq fun i hi => ?_
      have hvi := List.getElem?_eq_getElem (h.1 ▸ hi : i < vs.length)
      refine ⟨_, slice_array (toBitVector_ofBools _) h.2 hvi, ?_⟩
      rw [hvi, Option.getD_some]
      exact helements _ (List.getElem_mem _)
    have hvs : (List.range n).map (fun i => vs[i]?.getD .token) = vs := by
      apply List.ext_getElem
      · rw [List.length_map, List.length_range, h.1]
      · intro i hi hi'
        rw [List.getElem_map, List.getElem_range, List.getElem?_eq_getElem hi', Option.getD_some]
    rw [hvs] at hloop
    exact unflatten_array hlength hloop h.2 (h.1 ▸ ht.1)
  | .token, .token, _, ht => by cases ht
  | .bits _, .token, h, _ | .bits _, .tuple _, h, _ | .bits _, .array _ _, h, _ => by cases h
  | .token, .bits _, h, _ | .token, .tuple _, h, _ | .token, .array _ _, h, _ => by cases h
  | .tuple _, .bits _, h, _ | .tuple _, .token, h, _ | .tuple _, .array _ _, h, _ => by cases h
  | .array _, .bits _, h, _ | .array _, .token, h, _ | .array _, .tuple _, h, _ => by cases h

/-- The elements of a tuple after the elements `ps` with the types `pts`. -/
theorem unflattenTuple_flatBits : ∀ (vs : List Value) (ts : List Ty),
    Value.conformsToTypes vs ts = true → Ty.areFlattenable ts = true →
    ∀ (b : Bits) (ps : List Value) (pts : List Ty), b.toBitVector = flatBitsTuple (ps ++ vs) →
    unflattenTuple b (pts ++ ts) pts.length ts = .ok vs
  | [], [], _, _, _, _, _, _ => rfl
  | v :: vs, t :: ts, h, ht, b, ps, pts, hb => by
    rw [Value.conformsToTypes, Bool.and_eq_true] at h
    rw [Ty.areFlattenable, Bool.and_eq_true] at ht
    exact unflattenTuple_cons (slice_tuple_middle hb h.1 h.2) (unflatten_flatBits v t h.1 ht.1)
      (unflattenTuple_flatBits vs ts h.2 ht.2 b (ps ++ [v]) (pts ++ [t]) (by simpa using hb))
  | [], _ :: _, h, _, _, _, _, _ | _ :: _, [], h, _, _, _, _, _ => by cases h

/-- The elements of an array, one by one. -/
theorem unflattenElements_flatBits : ∀ (vs : List Value) (t : Ty),
    Value.conformToType vs t = true → t.isFlattenable = true →
    ∀ v ∈ vs, unflattenBitsToValue (Bits.ofBools (flatBits v)) t = .ok v
  | [], _, _, _, v, hv => by cases hv
  | v :: vs, t, h, ht, w, hw => by
    rw [Value.conformToType, Bool.and_eq_true] at h
    have hv := unflatten_flatBits v t h.1 ht
    have hvs := unflattenElements_flatBits vs t h.2 ht
    rcases List.mem_cons.mp hw with rfl | hw
    · exact hv
    · exact hvs w hw

end

/-! ## From bits to values and back -/

mutual

/-- Bits of the width of the type are the flat bits of a value. -/
theorem exists_unflatten : ∀ (t : Ty), t.isFlattenable = true → ∀ b : Bits,
    b.bitCount = t.flatBitCount → ∃ v, unflattenBitsToValue b t = .ok v ∧
      v.conformsToType t = true ∧ flatBits v = b.toBitVector
  | .bits n, _, b, hb => ⟨.bits b, unflatten_bits hb, beq_iff_eq.mpr hb, rfl⟩
  | .tuple ts, ht, b, hb => by
    obtain ⟨vs, hloop, hvs, hflat⟩ := exists_unflattenTuple ts ht b [] hb.ge
    refine ⟨.tuple vs, unflatten_tuple hb hloop, hvs, ?_⟩
    rw [flatBits, hflat, List.take_of_length_le]
    exact ((length_toBitVector b).trans hb).le
  | .array n t, ht, b, hb => by
    rw [Ty.isFlattenable, Bool.and_eq_true, bne_iff_ne] at ht
    have helement := exists_unflatten t ht.2
    have hslice : ∀ i < n, i * t.flatBitCount + t.flatBitCount ≤ b.bitCount := by
      intro i hi
      rw [hb, ← Nat.succ_mul, Nat.mul_comm, Ty.flatBitCount]
      exact Nat.mul_le_mul_left _ hi
    choose element hunflatten hconf hflat using fun i : ℕ =>
      helement (BitsOps.slice b (i * t.flatBitCount) t.flatBitCount) rfl
    have hloop : unflattenArray b n t (unflattenBitsToValue · t) =
        .ok ((List.range n).map element) :=
      unflattenArray_eq fun i hi => ⟨_, if_pos (hslice i hi), hunflatten i⟩
    have hvs : Value.conformToType ((List.range n).map element) t = true := by
      rw [conformToType_iff]
      intro v hv
      obtain ⟨i, -, rfl⟩ := List.mem_map.mp hv
      exact hconf i
    -- the first `k` elements have the first `k * t.flatBitCount` bits
    have hprefix : ∀ k ≤ n, flatBitsArray ((List.range k).map element) =
        b.toBitVector.take (k * t.flatBitCount) := by
      intro k hk
      induction k with
      | zero => rw [Nat.zero_mul, List.take_zero]; rfl
      | succ k ih =>
        rw [List.range_succ, List.map_append, flatBitsArray_append, ih (by omega),
          List.map_singleton, flatBitsArray, flatBitsArray, List.append_nil, hflat k,
          toBitVector_slice (hslice k hk), Nat.succ_mul, List.take_add]
    refine ⟨.array ((List.range n).map element), ?_, ?_, ?_⟩
    · exact unflatten_array hb hloop hvs (by simpa using ht.1)
    · rw [Value.conformsToType, List.length_map, List.length_range, beq_self_eq_true, hvs,
        Bool.and_self]
    · rw [flatBits, hprefix n le_rfl, List.take_of_length_le]
      rw [length_toBitVector, hb, Ty.flatBitCount, Nat.mul_comm]
  | .token, ht, _, _ => by cases ht

/-- The elements of a tuple after those with the types `pts` have the lower bits. -/
theorem exists_unflattenTuple : ∀ (ts : List Ty), Ty.areFlattenable ts = true →
    ∀ (b : Bits) (pts : List Ty), Ty.flatBitCountList ts ≤ b.bitCount →
    ∃ vs, unflattenTuple b (pts ++ ts) pts.length ts = .ok vs ∧ Value.conformsToTypes vs ts = true ∧
      flatBitsTuple vs = b.toBitVector.take (Ty.flatBitCountList ts)
  | [], _, b, _, _ => ⟨[], rfl, rfl, by rw [Ty.flatBitCountList, List.take_zero]; rfl⟩
  | t :: ts, ht, b, pts, hb => by
    rw [Ty.areFlattenable, Bool.and_eq_true] at ht
    rw [Ty.flatBitCountList, Nat.add_comm] at hb ⊢
    obtain ⟨vs, hothers, hvs, hflat⟩ :=
      exists_unflattenTuple ts ht.2 b (pts ++ [t]) (by omega)
    obtain ⟨v, helement, hv, hvflat⟩ := exists_unflatten t ht.1
      (BitsOps.slice b (Ty.flatBitCountList ts) t.flatBitCount) rfl
    refine ⟨v :: vs, unflattenTuple_cons (if_pos hb) helement hothers, ?_, ?_⟩
    · rw [Value.conformsToTypes, hv, hvs, Bool.and_self]
    · rw [flatBitsTuple, hflat, hvflat, toBitVector_slice hb, List.take_add]

end

/-! ## The bijection -/

/-- The flat bits of an element are the `width` flat bits of the whole value which start at
`index`. -/
def ElementAt (whole element : Value) (index : Except Failure ℕ) (width : ℕ) : Prop :=
  ∃ start b e, index = .ok start ∧ flattenValueToBits whole = .ok b ∧
    flattenValueToBits element = .ok e ∧ slice b start width = .ok e

theorem unflatten_flatten {v : Value} {t : Ty} (ht : t.isFlattenable = true)
    (h : v.conformsToType t = true) : ∃ b, flattenValueToBits v = .ok b ∧
      b.bitCount = t.flatBitCount ∧ unflattenBitsToValue b t = .ok v :=
  ⟨_, flattenValueToBits_eq h ht, length_flatBits v t h, unflatten_flatBits v t h ht⟩

theorem flatten_unflatten {b : Bits} {t : Ty} (ht : t.isFlattenable = true)
    (h : b.bitCount = t.flatBitCount) : ∃ v, unflattenBitsToValue b t = .ok v ∧
      v.conformsToType t = true ∧ flattenValueToBits v = .ok b := by
  obtain ⟨v, hv, hconf, hflat⟩ := exists_unflatten t ht b h
  refine ⟨v, hv, hconf, ?_⟩
  rw [flattenValueToBits_eq hconf ht, hflat]
  congr 1
  exact toBitVector_injective (toBitVector_ofBools _)

theorem length_of_conformsToTypes : ∀ {vs : List Value} {ts : List Ty},
    Value.conformsToTypes vs ts = true → vs.length = ts.length
  | [], [], _ => rfl
  | v :: vs, t :: ts, h => by
    rw [Value.conformsToTypes, Bool.and_eq_true] at h
    rw [List.length_cons, List.length_cons, length_of_conformsToTypes h.2]
  | [], _ :: _, h | _ :: _, [], h => by cases h

/-- Two lists which conform split at one index. -/
theorem conformsToTypes_split : ∀ (vs : List Value) (ts : List Ty) {i : ℕ} {v : Value} {t : Ty},
    Value.conformsToTypes vs ts = true → vs[i]? = some v → ts[i]? = some t →
    v.conformsToType t = true ∧ Value.conformsToTypes (vs.drop (i + 1)) (ts.drop (i + 1)) = true
  | v :: vs, t :: ts, 0, _, _, h, rfl, rfl => by
    rw [Value.conformsToTypes, Bool.and_eq_true] at h
    exact h
  | _ :: vs, _ :: ts, i + 1, v, t, h, hv, ht => by
    rw [Value.conformsToTypes, Bool.and_eq_true] at h
    exact conformsToTypes_split vs ts h.2 hv ht

theorem areFlattenable_getElem? {ts : List Ty} {i : ℕ} {t : Ty} (h : Ty.areFlattenable ts = true)
    (ht : ts[i]? = some t) : t.isFlattenable = true := by
  induction ts generalizing i with
  | nil => cases ht
  | cons u ts ih =>
    rw [Ty.areFlattenable, Bool.and_eq_true] at h
    cases i with
    | zero =>
      cases ht
      exact h.1
    | succ i => exact ih h.2 ht

theorem elementAt_tuple {vs : List Value} {ts : List Ty} {i : ℕ} {v : Value} {t : Ty}
    (hts : Ty.areFlattenable ts = true) (h : Value.conformsToTypes vs ts = true)
    (hv : vs[i]? = some v) (ht : ts[i]? = some t) :
    ElementAt (.tuple vs) v (getFlatBitIndexOfTupleElement ts i) t.flatBitCount := by
  obtain ⟨hconf, hdrop⟩ := conformsToTypes_split vs ts h hv ht
  obtain ⟨hi, hvi⟩ := List.getElem?_eq_some_iff.mp hv
  obtain ⟨hi', hti⟩ := List.getElem?_eq_some_iff.mp ht
  have hvs : vs = vs.take i ++ v :: vs.drop (i + 1) := by
    rw [← hvi, ← List.drop_eq_getElem_cons hi, List.take_append_drop]
  have hindex := getFlatBitIndexOfTupleElement_eq (ts.take i) t (ts.drop (i + 1))
  rw [List.length_take, min_eq_left hi'.le, ← hti, ← List.drop_eq_getElem_cons hi',
    List.take_append_drop] at hindex
  refine ⟨_, _, _, hindex, flattenValueToBits_eq (t := .tuple ts) h hts,
    flattenValueToBits_eq hconf (areFlattenable_getElem? hts ht), ?_⟩
  have hflat : (Bits.ofBools (flatBits (.tuple vs))).toBitVector =
      flatBitsTuple (vs.take i ++ v :: vs.drop (i + 1)) := by
    rw [toBitVector_ofBools, flatBits, ← hvs]
  exact slice_tuple_middle hflat hconf hdrop

theorem elementAt_array {vs : List Value} {n i : ℕ} {v : Value} {t : Ty}
    (ht : (Ty.array n t).isFlattenable = true)
    (h : (Value.array vs).conformsToType (.array n t) = true) (hv : vs[i]? = some v) :
    ElementAt (.array vs) v (getFlatBitIndexOfArrayElement n t i) t.flatBitCount := by
  have hflat := flattenValueToBits_eq h ht
  rw [Ty.isFlattenable, Bool.and_eq_true] at ht
  rw [Value.conformsToType, Bool.and_eq_true, beq_iff_eq] at h
  obtain ⟨hi, -⟩ := List.getElem?_eq_some_iff.mp hv
  refine ⟨_, _, _, if_pos (h.1 ▸ hi), hflat, ?_, slice_array (toBitVector_ofBools _) h.2 hv⟩
  exact flattenValueToBits_eq (conformToType_iff.mp h.2 v (List.mem_of_getElem? hv)) ht.2

/-- **Flattening is a bijection.**  For a type of bits, tuples and arrays which are not empty, the
two conversions are inverse to each other between the values of the type and the bits of its
width, and each element has its bits at the index computed for it. -/
theorem flatten_bijection (t : Ty) (ht : t.isFlattenable = true) :
    (∀ v : Value, v.conformsToType t = true → ∃ b, flattenValueToBits v = .ok b ∧
      b.bitCount = t.flatBitCount ∧ unflattenBitsToValue b t = .ok v) ∧
    (∀ b : Bits, b.bitCount = t.flatBitCount → ∃ v, unflattenBitsToValue b t = .ok v ∧
      v.conformsToType t = true ∧ flattenValueToBits v = .ok b) ∧
    (∀ ts : List Ty, t = .tuple ts → ∀ vs : List Value, (Value.tuple vs).conformsToType t = true →
      ∀ (i : ℕ) (u : Ty), ts[i]? = some u → ∃ v, vs[i]? = some v ∧
        ElementAt (.tuple vs) v (getFlatBitIndexOfTupleElement ts i) u.flatBitCount) ∧
    (∀ (n : ℕ) (u : Ty), t = .array n u → ∀ vs : List Value,
      (Value.array vs).conformsToType t = true → ∀ i < n, ∃ v, vs[i]? = some v ∧
        ElementAt (.array vs) v (getFlatBitIndexOfArrayElement n u i) u.flatBitCount) := by
  refine ⟨fun v => unflatten_flatten ht, fun b => flatten_unflatten ht, ?_, ?_⟩
  · rintro ts rfl vs h i u hu
    have hlength : vs.length = ts.length := length_of_conformsToTypes h
    have hv := List.getElem?_eq_getElem
      (hlength ▸ (List.getElem?_eq_some_iff.mp hu).1 : i < vs.length)
    exact ⟨_, hv, elementAt_tuple ht h hv hu⟩
  · rintro n u rfl vs h i hi
    have hlength : vs.length = n := by
      rw [Value.conformsToType, Bool.and_eq_true, beq_iff_eq] at h
      exact h.1
    have hv := List.getElem?_eq_getElem (hlength ▸ hi : i < vs.length)
    exact ⟨_, hv, elementAt_array ht h hv⟩

/-- A pair of a bit pattern and an array of pairs, an empty tuple among them. -/
def nested : Ty := .tuple [.bits 2, .array 2 (.tuple [.bits 1, .tuple []]), .bits 0]

theorem flatten_bijection_nested : (∃ v, unflattenBitsToValue ⟨4, 9, by decide⟩ nested = .ok v ∧
      flattenValueToBits v = .ok ⟨4, 9, by decide⟩) ∧
    unflattenBitsToValue ⟨4, 9, by decide⟩ nested =
      .ok (.tuple [.bits ⟨2, 2, by decide⟩, .array [.tuple [.bits ⟨1, 1, by decide⟩, .tuple []],
        .tuple [.bits ⟨1, 0, by decide⟩, .tuple []]], .bits ⟨0, 0, by decide⟩]) := by
  refine ⟨?_, by decide +kernel⟩
  obtain ⟨v, hv, -, hflat⟩ :=
    (flatten_bijection nested (by decide)).2.1 ⟨4, 9, by decide⟩ (by decide)
  exact ⟨v, hv, hflat⟩

end Flattening

end Xls
