/-
# Soundness of the range analysis

Every tree the engine stores for a node covers the value the node takes in every
run of the interpreter: the trees of the operands cover their values, the handler
then computes a tree which holds the value of the node, and the intersection with
the tree already stored keeps it.

`prioritySel` is left out here; see `Xls.Passes.PrioritySelect`.
-/
import Xls.Passes.RangeAggregates

namespace Xls

namespace Range

/-! ## One handler -/

variable {operands : List Value} {v : Value} {type : Ty} {trees : List IntervalSetTree}
  {tree : IntervalSetTree}

theorem binOp_eq_some {f : Bits → Bits → Bits} (h : Interpreter.binOp f operands = some v) :
    ∃ a b, operands = [.bits a, .bits b] ∧ Interpreter.bitsVector operands = some [a, b] ∧
      v = .bits (f a b) := by
  obtain ⟨⟨a, b⟩, hab, rfl⟩ := Option.map_eq_some_iff.mp h
  obtain ⟨h1, h2⟩ := bits2_eq_some hab
  exact ⟨a, b, h1, h2, rfl⟩

/-- A variadic operation whose implementation is sound at the operand values. -/
theorem variadic_holds {impl : List Bits → Option Bits} {tonicities : List Tonicity}
    (ht : List.Forall₂ Tracks trees operands) {xs : List Bits}
    (hx : Interpreter.bitsVector operands = some xs) {r : Bits}
    (hr : (Value.bits r).conformsToType type = true)
    (hsound : SoundAt impl tonicities r.bitCount xs r)
    (h : handleVariadicOp impl tonicities type trees = some (some tree)) :
    HoldsPoints tree (Value.bits r).leaves :=
  HoldsPoints.of_covers (handleVariadicOp_covers ht hx hr hsound h)

/-- The operands of an operation on bits of one type have the same width. -/
theorem bitCount_eq_of_allSame {a b : Bits} (ht : List.Forall₂ Tracks trees [.bits a, .bits b])
    (h : Verifier.allSameBitsType 2 type (trees.map LeafTypeTree.type) = true) :
    b.bitCount = a.bitCount := by
  cases ht with
  | @cons t₁ _ _ _ h₁ hrest =>
  cases hrest with
  | @cons t₂ _ _ _ h₂ hnil =>
  cases hnil
  simp only [Verifier.allSameBitsType, List.map_cons, List.map_nil, List.replicate_succ,
    List.replicate_zero, Bool.and_eq_true, decide_eq_true_eq, List.cons.injEq, and_true] at h
  obtain ⟨-, ht₁, ht₂⟩ := h
  have hc₁ := h₁.conforms
  have hc₂ := h₂.conforms
  rw [ht₁] at hc₁
  rw [ht₂] at hc₂
  cases type with
  | bits w =>
    simp only [Value.conformsToType, beq_iff_eq] at hc₁ hc₂
    rw [hc₁, hc₂]
  | token => cases hc₁
  | tuple ts => cases hc₁
  | array n t => cases hc₁

/-- The product of the interpreter is the product, when that fits. -/
theorem umul_eq_some (h : Interpreter.umul type operands = some v) :
    ∃ w a b r, type = .bits w ∧ Interpreter.bitsVector operands = some [a, b] ∧ v = .bits r ∧
      (a.toNat * b.toNat < 2 ^ w → r.toNat = a.toNat * b.toNat) := by
  unfold Interpreter.umul at h
  split at h
  · rename_i w a b hab
    have hvec := (bits2_eq_some hab).2
    simp only at h
    split_ifs at h with h1 h2
    · cases h
      refine ⟨w, a, b, _, rfl, hvec, rfl, fun hlt => ?_⟩
      show (BitsOps.uMul a b).toNat / 2 ^ 0 % 2 ^ w = _
      rw [pow_zero, Nat.div_one, BitsOps.uMul_toNat, Nat.mod_eq_of_lt hlt]
    · cases h
      refine ⟨w, a, b, _, rfl, hvec, rfl, fun _ => ?_⟩
      rw [BitsOps.zeroExtend_toNat, BitsOps.uMul_toNat]
    · cases h
      exact ⟨w, a, b, _, rfl, hvec, rfl, fun _ => BitsOps.uMul_toNat a b⟩
  · cases h

theorem length_bitsVector {xs : List Bits} (h : Interpreter.bitsVector operands = some xs) :
    xs.length = operands.length := by
  induction operands generalizing xs with
  | nil =>
    cases h
    rfl
  | cons v vs ih =>
    obtain ⟨x, rest, -, hrest, rfl⟩ := bitsVector_cons h
    rw [List.length_cons, List.length_cons, ih hrest]

/-- The handler of `identity` runs on one operand of bits type. -/
theorem identity_holds (ht : List.Forall₂ Tracks trees operands)
    (htypes : trees.map LeafTypeTree.type = [type]) (hv : operands.head? = some v)
    (hconf : v.conformsToType type = true)
    (h : handleVariadicOp (unary some) [.monotone] type trees = some (some tree)) :
    HoldsPoints tree v.leaves := by
  cases ht with
  | nil => cases hv
  | @cons t a ts vs hta hrest =>
    cases hv
    simp only [List.map_cons, List.cons.injEq, List.map_eq_nil_iff] at htypes
    obtain ⟨-, rfl⟩ := htypes
    cases type with
    | bits w =>
      obtain ⟨b, rfl, -⟩ := Value.asBits_of_conforms hconf
      exact variadic_holds (.cons hta .nil) rfl hconf
        (monotone_sound (f := id) b fun _ hle => hle) h
    | token => cases h
    | tuple ts => cases h
    | array n t => cases h

/-- Every handler but that of `prioritySel` stores a tree which holds the value. -/
theorem handleNode_holds {n : Node} {env : Env} {id : ℕ} (hop : n.op ≠ .prioritySel)
    (hlen : n.operands.length = trees.length)
    (hverify : Verifier.verifyNode n (trees.map LeafTypeTree.type) = true)
    (ht : List.Forall₂ Tracks trees operands) (hv : Interpreter.evalNode env id n operands = some v)
    (hconf : v.conformsToType n.type = true) (h : handleNode n trees = some (some tree)) :
    HoldsPoints tree v.leaves := by
  obtain ⟨op, ids, type⟩ := n
  cases op with
  | param => cases h
  | literal value =>
    cases hv
    exact HoldsPoints.of_covers (handleLiteral_holds h)
  | add =>
    obtain ⟨a, b, rfl, hvec, rfl⟩ := binOp_eq_some hv
    exact variadic_holds ht hvec hconf (addImpl_sound (bitCount_eq_of_allSame ht hverify)) h
  | sub =>
    obtain ⟨a, b, rfl, hvec, rfl⟩ := binOp_eq_some hv
    exact variadic_holds ht hvec hconf (subImpl_sound a b) h
  | neg =>
    obtain ⟨a, ha, rfl⟩ := unOp_eq_some hv
    exact variadic_holds ht (bits1_eq_some ha) hconf (negate_sound a) h
  | umul =>
    obtain ⟨w, a, b, r, rfl, hvec, rfl, hval⟩ := umul_eq_some hv
    exact variadic_holds ht hvec hconf (umulImpl_sound hval) h
  | udiv =>
    obtain ⟨a, b, rfl, hvec, rfl⟩ := binOp_eq_some hv
    exact variadic_holds ht hvec hconf (uDiv_sound a b) h
  | concat =>
    obtain ⟨xs, hxs, rfl⟩ := Option.map_eq_some_iff.mp hv
    have hcount : ids.length = xs.length := by
      rw [length_bitsVector hxs, ← ht.length_eq]
      exact hlen
    have hsound : SoundAt (fun bs => some (BitsOps.concat bs))
        (List.replicate ids.length .monotone) (BitsOps.concat xs).bitCount xs
        (BitsOps.concat xs) := by
      rw [hcount]
      exact concat_sound xs
    exact variadic_holds ht hxs hconf hsound h
  | zeroExt w =>
    obtain ⟨a, ha, rfl⟩ := unOp_eq_some hv
    have hmono : ∀ {x y : Bits}, x.bitCount = y.bitCount → x.toNat ≤ y.toNat →
        (BitsOps.zeroExtend x w).toNat ≤ (BitsOps.zeroExtend y w).toNat := by
      intro x y _ hle
      rw [BitsOps.zeroExtend_toNat, BitsOps.zeroExtend_toNat]
      exact hle
    exact variadic_holds ht (bits1_eq_some ha) hconf
      (monotone_sound (f := fun b => BitsOps.zeroExtend b w) a hmono) h
  | signExt w =>
    obtain ⟨a, ha, rfl⟩ := unOp_eq_some hv
    exact variadic_holds ht (bits1_eq_some ha) hconf
      (monotone_sound (f := fun b => BitsOps.signExtend b w) a signExtend_mono) h
  | identity =>
    exact identity_holds ht (of_decide_eq_true hverify) hv hconf h
  | sel hasDefault => exact HoldsPoints.of_covers (handleSel_holds ht hv h)
  | prioritySel => exact absurd rfl hop
  | gate => exact handleGate_holds ht (of_decide_eq_true hverify) hv h
  | eq => exact handleEquality_holds ht hverify hv h
  | ne => exact handleEquality_holds ht hverify hv h
  | ugt => exact handleUGt_holds ht hv h
  | uge => exact handleUGe_holds ht hv h
  | ult => exact handleULt_holds ht hv h
  | ule => exact handleULe_holds ht hv h
  | sgt => cases h
  | sge => cases h
  | slt => cases h
  | sle => cases h
  | andReduce => exact handleAndReduce_holds ht hv h
  | orReduce => exact handleOrReduce_holds ht hv h
  | xorReduce => exact handleXorReduce_holds ht hv h
  | array =>
    have hv : Interpreter.mkArray operands = some v := hv
    unfold Interpreter.mkArray at hv
    split at hv
    · cases hv
    · cases hv
      exact HoldsPoints.of_covers (handleMembers_holds ht h)
  | arrayIndex => exact HoldsPoints.of_covers (handleArrayIndex_holds ht hv h)
  | arrayConcat => exact HoldsPoints.of_covers (handleArrayConcat_holds ht hv h)
  | tuple =>
    cases hv
    exact HoldsPoints.of_covers (handleMembers_holds ht h)
  | tupleIndex index => exact HoldsPoints.of_covers (handleTupleIndex_holds ht hv h)
  | other name sideEffecting => cases h

end Range

/-! ## The engine -/

namespace RangeQueryEngine

open Range

/-- The stored trees have the types of their nodes and track the values of a run. -/
def Sound (f : FunctionBase) (values : List Value) (e : RangeQueryEngine) : Prop :=
  ∀ (id : ℕ) (tree : IntervalSetTree) (v : Value) (n : Node), e.intervalSets id = some tree →
    values[id]? = some v → f.nodes[id]? = some n → Tracks tree v ∧ tree.type = n.type

theorem maximalTree_tracks {type : Ty} {v : Value} (h : v.conformsToType type = true) :
    Tracks (maximalTree type) v := by
  refine ⟨?_, ?_, h⟩
  · unfold maximalTree LeafTypeTree.ofLeafTypes
    rw [List.forall₂_map_left_iff]
    refine (Value.forall₂_leaves v type h).flip.imp ?_
    intro t b hb
    exact IntervalSet.maximal_Covers hb
  · intro s hs
    obtain ⟨t, -, rfl⟩ := List.mem_map.mp hs
    exact IntervalSet.maximal_isNormalized _

/-- `GetIntervalSetTree` tracks the value, stored or not. -/
theorem Sound.getIntervalSetTree {f : FunctionBase} {values : List Value} {e : RangeQueryEngine}
    (he : Sound f values e) {id : ℕ} {n : Node} {v : Value} (hn : f.nodes[id]? = some n)
    (hv : values[id]? = some v) (hconf : v.conformsToType n.type = true) :
    ∃ tree, e.getIntervalSetTree f id = some tree ∧ Tracks tree v ∧ tree.type = n.type := by
  unfold RangeQueryEngine.getIntervalSetTree
  cases hstored : e.intervalSets id with
  | some tree => exact ⟨tree, rfl, he id tree v n hstored hv hn⟩
  | none =>
    rw [hn]
    exact ⟨maximalTree n.type, rfl, maximalTree_tracks hconf, rfl⟩

/-- The intersection of a tree which tracks a value with one which holds it. -/
theorem tracks_of_intersect {old tree new : IntervalSetTree} {v : Value} (hold : Tracks old v)
    (htree : HoldsPoints tree v.leaves)
    (h : LeafTypeTree.zip IntervalSet.intersect old tree = some new) :
    Tracks new v ∧ new.type = old.type := by
  obtain ⟨-, htype, hz⟩ := LeafTypeTree.zip_eq_some h
  refine ⟨⟨?_, ?_, ?_⟩, htype⟩
  · have hleaf : ∀ {a b c : IntervalSet} {d : Bits}, a.intersect b = some c → a.Covers d →
        b.covers d.toNat = true → c.Covers d := by
      intro a b c d hc ha hb
      obtain ⟨hw, -, -, hiff⟩ := IntervalSet.intersect_eq_some hc
      exact (hiff d).mpr ⟨ha, by rw [hw]; exact ha.1, hb⟩
    exact LeafTypeTree.forall₂_zipElements (P := IntervalSet.Covers) (R := IntervalSet.Covers)
      (Q := fun (s : IntervalSet) (b : Bits) => s.covers b.toNat = true) hleaf hz hold.covers htree
  · exact LeafTypeTree.mem_zipElements (fun hc => (IntervalSet.intersect_eq_some hc).2.2.1) hz
  · rw [htype]
    exact hold.conforms

theorem setIntervalSetTree_sound {f : FunctionBase} {values : List Value}
    {e e' : RangeQueryEngine} (he : Sound f values e) {id : ℕ} {n : Node} {v : Value}
    (hn : f.nodes[id]? = some n) (hv : values[id]? = some v)
    (hconf : v.conformsToType n.type = true) {tree : IntervalSetTree}
    (htree : HoldsPoints tree v.leaves)
    (h : e.setIntervalSetTree f id n.type tree = some e') : Sound f values e' := by
  obtain ⟨old, hget, hold, holdType⟩ := he.getIntervalSetTree hn hv hconf
  unfold setIntervalSetTree at h
  rw [hget] at h
  simp only at h
  split at h
  · cases h
  · rename_i new hnew
    split at h
    · cases h
    · cases h
      intro id' tree' v' n' hstored hv' hn'
      by_cases hid : id' = id
      · subst hid
        simp only [Function.update_self, Option.some.injEq] at hstored
        subst hstored
        rw [hv] at hv'
        rw [hn] at hn'
        cases hv'
        cases hn'
        obtain ⟨h1, h2⟩ := tracks_of_intersect hold htree hnew
        exact ⟨h1, by rw [h2, holdType]⟩
      · simp only [Function.update_of_ne hid] at hstored
        exact he id' tree' v' n' hstored hv' hn'

/-- Initializing a node touches its known bits only. -/
@[simp] theorem initializeNode_intervalSets (e : RangeQueryEngine) (id : ℕ) (type : Ty) :
    (e.initializeNode id type).intervalSets = e.intervalSets := by
  unfold initializeNode
  split <;> rfl

/-- The trees of the operands of a node track their values and have their types. -/
theorem Sound.operandTrees {f : FunctionBase} {values : List Value} {e : RangeQueryEngine}
    (he : Sound f values e) {env : Env} (hrun : Interpreter.run env f = some values) {id : ℕ} :
    ∀ {ids : List ℕ} {operands : List Value} {types : List Ty} {trees : List IntervalSetTree},
      Interpreter.resolve (values.take id) ids = some operands →
      Verifier.operandTypes f id ids = some types → e.operandTrees f ids = some trees →
      List.Forall₂ Tracks trees operands ∧ trees.map LeafTypeTree.type = types ∧
      ids.length = trees.length := by
  intro ids
  induction ids with
  | nil =>
    intro operands types trees h1 h2 h3
    cases h1
    cases h2
    cases h3
    exact ⟨.nil, rfl, rfl⟩
  | cons i ids ih =>
    intro operands types trees h1 h2 h3
    obtain ⟨v, vs, hv, hvs, rfl⟩ := Interpreter.resolve_cons h1
    rw [Verifier.operandTypes] at h2
    split at h2
    · rename_i hi
      split at h2
      · rename_i n types' hn htypes
        cases h2
        rw [RangeQueryEngine.operandTrees] at h3
        split at h3
        · rename_i tree trees' htree htrees
          cases h3
          rw [List.getElem?_take_of_lt hi] at hv
          obtain ⟨v', hrunv⟩ := (Interpreter.run_spec hrun).2 i n hn
          have hvv : v' = v := by
            have := hrunv.value
            rw [hv] at this
            cases this
            rfl
          subst hvv
          obtain ⟨tree', htree', htr, htype⟩ := he.getIntervalSetTree hn hv hrunv.conforms
          rw [htree] at htree'
          cases htree'
          obtain ⟨ih1, ih2, ih3⟩ := ih hvs htypes htrees
          exact ⟨.cons htr ih1, by rw [List.map_cons, htype, ih2],
            by rw [List.length_cons, List.length_cons, ih3]⟩
        · cases h3
      · cases h2
    · cases h2

section Run

variable {f : FunctionBase} {env : Env} {values : List Value}
  (hverify : Verifier.verify f = true) (hops : ∀ n ∈ f.nodes, n.op ≠ .prioritySel)
  (hrun : Interpreter.run env f = some values)

include hverify hops hrun

/-- The visit of a node keeps the engine sound. -/
theorem visitNode_sound {e e' : RangeQueryEngine} (he : Sound f values e) {id : ℕ} {n : Node}
    (hn : f.nodes[id]? = some n) (h : visitNode f e id n = some e') : Sound f values e' := by
  have hinit : Sound f values (e.initializeNode id n.type) := by
    intro id' tree v n' hstored
    rw [initializeNode_intervalSets] at hstored
    exact he id' tree v n' hstored
  obtain ⟨v, hrunv⟩ := (Interpreter.run_spec hrun).2 id n hn
  obtain ⟨operands, hresolve, heval⟩ := hrunv.eval
  obtain ⟨types, htypes, hnode⟩ := Verifier.verifyNode_of_verify hverify hn
  unfold visitNode at h
  simp only at h
  split at h
  · cases h
  · rename_i trees htrees
    obtain ⟨htracks, htreeTypes, hlen⟩ := hinit.operandTrees hrun hresolve htypes htrees
    split at h
    · cases h
    · cases h
      exact hinit
    · rename_i tree htree
      have hop := hops n (List.mem_of_getElem? hn)
      have hholds := handleNode_holds hop hlen (by rw [htreeTypes]; exact hnode) htracks heval
        hrunv.conforms htree
      exact setIntervalSetTree_sound hinit hn hrunv.value hrunv.conforms hholds h

theorem visitFrom_sound {nodes : List Node} :
    ∀ {id : ℕ} {e e' : RangeQueryEngine}, Sound f values e →
      (∀ i n, nodes[i]? = some n → f.nodes[id + i]? = some n) →
      visitFrom f id nodes e = some e' → Sound f values e' := by
  induction nodes with
  | nil =>
    intro id e e' he _ h
    cases h
    exact he
  | cons n rest ih =>
    intro id e e' he hnodes h
    rw [visitFrom] at h
    split at h
    · rename_i e₁ hvisit
      refine ih (visitNode_sound hverify hops hrun he (hnodes 0 n rfl) hvisit) ?_ h
      intro i m hm
      rw [show id + 1 + i = id + (i + 1) by omega]
      exact hnodes (i + 1) m hm
    · cases h

/-- A run of `Populate` keeps the engine sound, whatever it stored before. -/
theorem populate_sound {e e' : RangeQueryEngine} (he : Sound f values e)
    (h : populate f e = some e') : Sound f values e' :=
  visitFrom_sound hverify hops hrun he (fun i n hn => by rwa [Nat.zero_add]) h

end Run

/-- The engine after `Populate` has been run a number of times on a function, from an
engine without data. -/
def populateTimes (f : FunctionBase) : ℕ → Option RangeQueryEngine
  | 0 => some empty
  | k + 1 =>
    match populateTimes f k with
    | some e => populate f e
    | none => none

theorem populateTimes_sound {f : FunctionBase} {env : Env} {values : List Value}
    (hverify : Verifier.verify f = true) (hops : ∀ n ∈ f.nodes, n.op ≠ .prioritySel)
    (hrun : Interpreter.run env f = some values) (k : ℕ) :
    ∀ {e : RangeQueryEngine}, populateTimes f k = some e → Sound f values e := by
  induction k with
  | zero =>
    intro e h
    cases h
    intro id tree v n hstored
    cases hstored
  | succ k ih =>
    intro e h
    rw [populateTimes] at h
    split at h
    · rename_i e₀ he₀
      exact populate_sound hverify hops hrun (ih he₀) h
    · cases h

/-- For every verified function without priority selects and every run of it, each
node has a tree in the populated engine, and the tree covers the leaves of the value
of the node. -/
theorem populate_covers_values (f : FunctionBase) (hverify : Verifier.verify f = true)
    (hops : ∀ n ∈ f.nodes, n.op ≠ .prioritySel) (k : ℕ) (e : RangeQueryEngine)
    (hpopulate : populateTimes f k = some e) (env : Env) (values : List Value)
    (hrun : Interpreter.run env f = some values) (id : ℕ) (v : Value)
    (hv : values[id]? = some v) :
    ∃ tree, e.getIntervalSetTree f id = some tree ∧
      List.Forall₂ IntervalSet.Covers tree.elements v.leaves := by
  have hsound := populateTimes_sound hverify hops hrun k hpopulate
  obtain ⟨hlen, hnodes⟩ := Interpreter.run_spec hrun
  have hid : id < f.nodes.length := by
    rw [← hlen]
    exact (List.getElem?_eq_some_iff.mp hv).1
  have hn : f.nodes[id]? = some (f.nodes.get ⟨id, hid⟩) := by simp
  obtain ⟨v', hrunv⟩ := hnodes id _ hn
  have hvv : v' = v := by
    have := hrunv.value
    rw [hv] at this
    cases this
    rfl
  subst hvv
  obtain ⟨tree, htree, htracks, -⟩ := hsound.getIntervalSetTree hn hv hrunv.conforms
  exact ⟨tree, htree, htracks.covers⟩

/-- A function with a negation which wraps around, a division which may be by zero, and
an index which may be out of bounds. -/
def wrapSample : FunctionBase where
  nodes :=
    [⟨.param, [], .bits 2⟩,
     ⟨.zeroExt 4, [0], .bits 4⟩,
     ⟨.literal (.bits ⟨4, 12, by decide⟩), [], .bits 4⟩,
     ⟨.add, [1, 2], .bits 4⟩,
     ⟨.neg, [1], .bits 4⟩,
     ⟨.udiv, [3, 1], .bits 4⟩,
     ⟨.array, [3, 4, 5], .array 3 (.bits 4)⟩,
     ⟨.arrayIndex, [6, 0], .bits 4⟩,
     ⟨.ult, [3, 7], .bits 1⟩,
     ⟨.sel false, [8, 4, 5], .bits 4⟩,
     ⟨.tuple, [7, 9], .tuple [.bits 4, .bits 4]⟩]
  implicitUses := [10]

/-- The parameter is three. -/
def wrapSampleEnv : Env := fun _ _ => .bits ⟨2, 3, by decide⟩

/-- The two leaves of the result of `wrapSample` are covered. -/
theorem populate_covers_wrapSample : ∃ e values v tree, populateTimes wrapSample 2 = some e ∧
      Interpreter.run wrapSampleEnv wrapSample = some values ∧ values[10]? = some v ∧
      e.getIntervalSetTree wrapSample 10 = some tree ∧
      List.Forall₂ IntervalSet.Covers tree.elements v.leaves := by
  obtain ⟨e, he⟩ := Option.isSome_iff_exists.mp
    (show (populateTimes wrapSample 2).isSome = true by decide +kernel)
  obtain ⟨values, hvalues⟩ := Option.isSome_iff_exists.mp
    (show (Interpreter.run wrapSampleEnv wrapSample).isSome = true by decide +kernel)
  obtain ⟨v, hv⟩ : ∃ v, values[10]? = some v := by
    have hlen := (Interpreter.run_spec hvalues).1
    exact ⟨_, List.getElem?_eq_getElem (by rw [hlen]; decide)⟩
  obtain ⟨tree, htree, hcovers⟩ := populate_covers_values wrapSample (by decide +kernel)
    (by decide +kernel) 2 e he wrapSampleEnv values hvalues 10 v hv
  exact ⟨e, values, v, tree, he, hvalues, hv, htree, hcovers⟩

end RangeQueryEngine

end Xls
