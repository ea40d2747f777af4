/-
# Types and values

The types (`xls/ir/type.h`) and values (`xls/ir/value.h`, `xls/ir/value_helpers.cc`)
of the IR.  A type has leaves: its bits and token types in order; a value of the
type has one leaf for each.  A token leaf carries no data and is read as the empty
bit vector, as the analyses do.
-/
import Xls.Bits

namespace Xls

/-- `Type`. -/
inductive Ty where
  | bits (bitCount : ℕ)
  | token
  | tuple (elementTypes : List Ty)
  | array (size : ℕ) (elementType : Ty)
  deriving Repr

/-- `Value`. -/
inductive Value where
  | bits (b : Bits)
  | token
  | tuple (elements : List Value)
  | array (elements : List Value)
  deriving Repr

namespace Ty

mutual

/-- Equality of types (`IsEqualTo`) is decidable. -/
def decEq : (a b : Ty) → Decidable (a = b)
  | .bits m, .bits n => decidable_of_iff (m = n) (by simp)
  | .token, .token => isTrue rfl
  | .tuple ts, .tuple us =>
    @decidable_of_iff _ (ts = us) (by simp) (decEqList ts us)
  | .array m t, .array n u =>
    @decidable_of_iff _ (m = n ∧ t = u) (by simp) (@instDecidableAnd _ _ _ (decEq t u))
  | .bits _, .token | .bits _, .tuple _ | .bits _, .array _ _ => isFalse (by simp)
  | .token, .bits _ | .token, .tuple _ | .token, .array _ _ => isFalse (by simp)
  | .tuple _, .bits _ | .tuple _, .token | .tuple _, .array _ _ => isFalse (by simp)
  | .array _ _, .bits _ | .array _ _, .token | .array _ _, .tuple _ => isFalse (by simp)

/-- Equality of lists of types is decidable. -/
def decEqList : (as bs : List Ty) → Decidable (as = bs)
  | [], [] => isTrue rfl
  | [], _ :: _ | _ :: _, [] => isFalse (by simp)
  | a :: as, b :: bs =>
    @decidable_of_iff _ (a = b ∧ as = bs) (by simp)
      (@instDecidableAnd _ _ (decEq a b) (decEqList as bs))

end

instance : DecidableEq Ty := decEq

mutual

/-- `leaf_count`. -/
def leafCount : Ty → ℕ
  | .bits _ => 1
  | .token => 1
  | .tuple ts => leafCountList ts
  | .array n t => n * t.leafCount

/-- The leaves of the element types of a tuple. -/
def leafCountList : List Ty → ℕ
  | [] => 0
  | t :: ts => t.leafCount + leafCountList ts

end

mutual

/-- `MakeLeafTypes`. -/
def leafTypes : Ty → List Ty
  | .bits n => [.bits n]
  | .token => [.token]
  | .tuple ts => leafTypesList ts
  | .array n t => (List.replicate n t.leafTypes).flatten

/-- The leaf types of the element types of a tuple. -/
def leafTypesList : List Ty → List Ty
  | [] => []
  | t :: ts => t.leafTypes ++ leafTypesList ts

end

mutual

/-- `GetFlatBitCount`. -/
def flatBitCount : Ty → ℕ
  | .bits n => n
  | .token => 0
  | .tuple ts => flatBitCountList ts
  | .array n t => t.flatBitCount * n

/-- The bits of the element types of a tuple. -/
def flatBitCountList : List Ty → ℕ
  | [] => 0
  | t :: ts => t.flatBitCount + flatBitCountList ts

end

/-- `IsBits`. -/
def isBits : Ty → Bool
  | .bits _ => true
  | _ => false

/-- `IsLeafType` of `LeafTypeTree`. -/
def isLeafType : Ty → Bool
  | .bits _ => true
  | .token => true
  | _ => false

mutual

/-- A type has as many leaf types as leaves. -/
theorem length_leafTypes : ∀ t : Ty, t.leafTypes.length = t.leafCount
  | .bits _ => rfl
  | .token => rfl
  | .tuple ts => length_leafTypesList ts
  | .array n t => by simp [leafTypes, leafCount, length_leafTypes t]

theorem length_leafTypesList : ∀ ts : List Ty, (leafTypesList ts).length = leafCountList ts
  | [] => rfl
  | t :: ts => by
    simp [leafTypesList, leafCountList, length_leafTypes t, length_leafTypesList ts]

end

end Ty

namespace Value

mutual

/-- Equality of values is decidable. -/
def decEq : (a b : Value) → Decidable (a = b)
  | .bits m, .bits n => decidable_of_iff (m = n) (by simp)
  | .token, .token => isTrue rfl
  | .tuple ts, .tuple us => @decidable_of_iff _ (ts = us) (by simp) (decEqList ts us)
  | .array ts, .array us => @decidable_of_iff _ (ts = us) (by simp) (decEqList ts us)
  | .bits _, .token | .bits _, .tuple _ | .bits _, .array _ => isFalse (by simp)
  | .token, .bits _ | .token, .tuple _ | .token, .array _ => isFalse (by simp)
  | .tuple _, .bits _ | .tuple _, .token | .tuple _, .array _ => isFalse (by simp)
  | .array _, .bits _ | .array _, .token | .array _, .tuple _ => isFalse (by simp)

/-- Equality of lists of values is decidable. -/
def decEqList : (as bs : List Value) → Decidable (as = bs)
  | [], [] => isTrue rfl
  | [], _ :: _ | _ :: _, [] => isFalse (by simp)
  | a :: as, b :: bs =>
    @decidable_of_iff _ (a = b ∧ as = bs) (by simp)
      (@instDecidableAnd _ _ (decEq a b) (decEqList as bs))

end

instance : DecidableEq Value := decEq

mutual

/-- `ValueConformsToType`.  The elements of an array value all have the type of the
first one (`Value::Array` checks it), so that the source looks at the first only. -/
def conformsToType : Value → Ty → Bool
  | .bits b, .bits n => b.bitCount == n
  | .token, .token => true
  | .tuple vs, .tuple ts => conformsToTypes vs ts
  | .array vs, .array n t => vs.length == n && conformToType vs t
  | _, _ => false

/-- Values conform to a list of types, one by one. -/
def conformsToTypes : List Value → List Ty → Bool
  | [], [] => true
  | v :: vs, t :: ts => v.conformsToType t && conformsToTypes vs ts
  | _, _ => false

/-- All values conform to one type. -/
def conformToType : List Value → Ty → Bool
  | [], _ => true
  | v :: vs, t => v.conformsToType t && conformToType vs t

end

mutual

/-- The data of the leaves of a value (`ValueLeafNodes`), a token being empty. -/
def leaves : Value → List Bits
  | .bits b => [b]
  | .token => [Bits.zero 0]
  | .tuple vs => leavesList vs
  | .array vs => leavesList vs

/-- The leaves of the elements of a tuple or an array. -/
def leavesList : List Value → List Bits
  | [] => []
  | v :: vs => v.leaves ++ leavesList vs

end

mutual

/-- `ZeroOfType`. -/
def zeroOfType : Ty → Value
  | .bits n => .bits (Bits.zero n)
  | .token => .token
  | .tuple ts => .tuple (zeroOfTypes ts)
  | .array n t => .array (List.replicate n (zeroOfType t))

/-- A zero value for each type. -/
def zeroOfTypes : List Ty → List Value
  | [] => []
  | t :: ts => zeroOfType t :: zeroOfTypes ts

end

/-- `bits()`: fails on other kinds of values. -/
def asBits : Value → Option Bits
  | .bits b => some b
  | _ => none

/-- `elements()`: fails on bits and tokens. -/
def elements : Value → Option (List Value)
  | .tuple vs => some vs
  | .array vs => some vs
  | _ => none

/-! ## Leaves of a conforming value -/

/-- A leaf has the width of its leaf type. -/
def LeafWidth (b : Bits) (t : Ty) : Prop := b.bitCount = t.flatBitCount

theorem leavesList_append (vs ws : List Value) :
    leavesList (vs ++ ws) = leavesList vs ++ leavesList ws := by
  induction vs with
  | nil => rfl
  | cons v vs ih => rw [List.cons_append, leavesList, leavesList, ih, List.append_assoc]

mutual

/-- The leaves of a conforming value have the widths of the leaf types. -/
theorem forall₂_leaves : ∀ (v : Value) (t : Ty), v.conformsToType t = true →
    List.Forall₂ LeafWidth v.leaves t.leafTypes
  | .bits b, .bits n, h => by
    have hb : b.bitCount = n := by simpa [conformsToType] using h
    exact .cons hb .nil
  | .token, .token, _ => .cons rfl .nil
  | .tuple vs, .tuple ts, h => forall₂_leavesList vs ts h
  | .array vs, .array n t, h => by
    rw [conformsToType, Bool.and_eq_true, beq_iff_eq] at h
    rw [Ty.leafTypes, ← h.1]
    exact forall₂_leaves_array vs t h.2
  | .bits _, .token, h | .bits _, .tuple _, h | .bits _, .array _ _, h => by cases h
  | .token, .bits _, h | .token, .tuple _, h | .token, .array _ _, h => by cases h
  | .tuple _, .bits _, h | .tuple _, .token, h | .tuple _, .array _ _, h => by cases h
  | .array _, .bits _, h | .array _, .token, h | .array _, .tuple _, h => by cases h

theorem forall₂_leavesList : ∀ (vs : List Value) (ts : List Ty), conformsToTypes vs ts = true →
    List.Forall₂ LeafWidth (leavesList vs) (Ty.leafTypesList ts)
  | [], [], _ => .nil
  | v :: vs, t :: ts, h => by
    rw [conformsToTypes, Bool.and_eq_true] at h
    rw [leavesList, Ty.leafTypesList]
    exact List.rel_append (forall₂_leaves v t h.1) (forall₂_leavesList vs ts h.2)
  | [], _ :: _, h | _ :: _, [], h => by cases h

theorem forall₂_leaves_array : ∀ (vs : List Value) (t : Ty), conformToType vs t = true →
    List.Forall₂ LeafWidth (leavesList vs) (List.replicate vs.length t.leafTypes).flatten
  | [], _, _ => .nil
  | v :: vs, t, h => by
    rw [conformToType, Bool.and_eq_true] at h
    rw [leavesList, List.length_cons, List.replicate_succ, List.flatten_cons]
    exact List.rel_append (forall₂_leaves v t h.1) (forall₂_leaves_array vs t h.2)

end

/-- A conforming value has one leaf for each leaf of its type. -/
theorem length_leaves {v : Value} {t : Ty} (h : v.conformsToType t = true) :
    v.leaves.length = t.leafCount := by
  rw [(forall₂_leaves v t h).length_eq, Ty.length_leafTypes]

theorem asBits_of_conforms {v : Value} {n : ℕ} (h : v.conformsToType (.bits n) = true) :
    ∃ b, v = .bits b ∧ b.bitCount = n := by
  cases v with
  | bits b => exact ⟨b, rfl, by simpa [conformsToType] using h⟩
  | token => cases h
  | tuple vs => cases h
  | array vs => cases h

mutual

/-- The leaves of the zero value of a type are zeros of the leaf widths. -/
theorem leaves_zeroOfType : ∀ t : Ty,
    (zeroOfType t).leaves = t.leafTypes.map fun l => Bits.zero l.flatBitCount
  | .bits _ => rfl
  | .token => rfl
  | .tuple ts => leaves_zeroOfTypes ts
  | .array n t => by
    have ih := leaves_zeroOfType t
    rw [zeroOfType, leaves, Ty.leafTypes, List.map_flatten, List.map_replicate, ← ih]
    induction n with
    | zero => rfl
    | succ n hn => rw [List.replicate_succ, leavesList, hn, List.replicate_succ, List.flatten_cons]

theorem leaves_zeroOfTypes : ∀ ts : List Ty,
    leavesList (zeroOfTypes ts) = (Ty.leafTypesList ts).map fun l => Bits.zero l.flatBitCount
  | [] => rfl
  | t :: ts => by
    rw [zeroOfTypes, leavesList, Ty.leafTypesList, List.map_append, leaves_zeroOfType t,
      leaves_zeroOfTypes ts]

end

end Value

end Xls
