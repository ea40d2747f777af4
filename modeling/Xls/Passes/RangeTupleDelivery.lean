/-
# What the handlers of tuples and arrays deliver

A member of a tuple or an array is a copy of leaves of its operand, and an aggregate is the leaves of
its operands one after the other.

* `leafTypes_of_getSubtypeAndOffset` : the leaves of a subtree;
* `handleMembers_delivers`, `handleArrayConcat_delivers` : these never fail;
* `handleTupleIndex_delivers_iff` : the exact condition.
-/
import Xls.Passes.RangeDelivery

namespace Xls

namespace Range

variable {tree lhs rhs : IntervalSetTree} {w : ℕ} {trees : List IntervalSetTree} {members : List Ty}

/-! ## Literals, tuples and arrays -/

theorem handleLiteral_delivers {value : Value} {type : Ty}
    (h : value.conformsToType type = true) : Delivers type (handleLiteral value type) := by
  have hwidths := Value.forall₂_leaves value type h
  have hlen : (value.leaves.map IntervalSet.precise).length = type.leafCount := by
    rw [List.length_map, Value.length_leaves h]
  simp only [handleLiteral, h, LeafTypeTree.ofElements, hlen]
  refine delivers_tree ⟨⟨⟨rfl, ?_⟩, ?_⟩, ?_⟩
  · rw [List.forall₂_map_left_iff]
    exact hwidths.imp fun b t hb => (IntervalSet.precise_bitCount b).trans hb
  · intro s hs
    obtain ⟨b, -, rfl⟩ := List.mem_map.mp hs
    exact IntervalSet.precise_isNormalized b
  · intro _ s hs
    obtain ⟨b, -, rfl⟩ := List.mem_map.mp hs
    exact IntervalSet.hasPoint_precise b

theorem leafTypesList_eq (ts : List Ty) : Ty.leafTypesList ts = ts.flatMap Ty.leafTypes := by
  induction ts with
  | nil => rfl
  | cons t ts ih => rw [Ty.leafTypesList, ih, List.flatMap_cons]

/-- The leaf types of the members make up those of a tuple or array. -/
theorem leafTypes_of_memberTypes {type : Ty} (h : LeafTypeTree.memberTypes type = some members) :
    type.leafTypes = members.flatMap Ty.leafTypes := by
  rcases type with _ | _ | ts | ⟨n, t⟩
  · cases h
  · cases h
  · cases h
    rw [Ty.leafTypes, leafTypesList_eq]
  · cases h
    rw [Ty.leafTypes, List.flatMap_replicate]

theorem forall₂_members {trees : List IntervalSetTree} (h : List.Forall₂ Wellformed members trees) :
    List.Forall₂ (fun s t => s.bitCount = t.flatBitCount) (trees.flatMap LeafTypeTree.elements)
      (members.flatMap Ty.leafTypes) ∧
    (∀ s ∈ trees.flatMap LeafTypeTree.elements, s.isNormalized = true) ∧
    trees.map LeafTypeTree.type = members := by
  induction h with
  | nil => exact ⟨.nil, by simp, rfl⟩
  | cons ht _ ih =>
    obtain ⟨hwidths, hnorm, htypes⟩ := ih
    refine ⟨List.rel_append ht.shaped.2 hwidths, ?_, ?_⟩
    · intro s hs
      rcases List.mem_append.mp hs with hs | hs
      · exact ht.normalized s hs
      · exact hnorm s hs
    · rw [List.map_cons, htypes, ht.shaped.1]

/-- A tuple or array of stored members is delivered. -/
theorem handleMembers_delivers {type : Ty} (hmembers : LeafTypeTree.memberTypes type = some members)
    {trees : List IntervalSetTree} (htrees : List.Forall₂ Wellformed members trees) :
    Delivers type (handleMembers type trees) := by
  obtain ⟨hwidths, hnorm, htypes⟩ := forall₂_members htrees
  rw [← leafTypes_of_memberTypes hmembers] at hwidths
  have hlen : (trees.flatMap LeafTypeTree.elements).length = type.leafCount := by
    rw [hwidths.length_eq, Ty.length_leafTypes]
  simp only [handleMembers, LeafTypeTree.ofMembers, hmembers, htypes, LeafTypeTree.ofElements, hlen]
  refine delivers_tree ⟨⟨⟨rfl, hwidths⟩, hnorm⟩, fun hbits => ?_⟩
  rcases type with _ | _ | _ | _
  · cases hmembers
  · cases hmembers
  · cases hbits
  · cases hbits

/-! ### Subtrees -/

/-- The leaf types of the type at a path are a row of those of the whole type. -/
theorem leafTypes_of_getSubtypeAndOffset {path : List ℕ} : ∀ {t t' : Ty} {offset offset' : ℕ},
    LeafTypeTree.getSubtypeAndOffset t path offset = some (t', offset') →
    ∃ front back, t.leafTypes = front ++ t'.leafTypes ++ back ∧ offset + front.length = offset' := by
  induction path with
  | nil =>
    intro t t' offset offset' h
    cases h
    exact ⟨[], [], by simp, rfl⟩
  | cons i path ih =>
    intro t t' offset offset' h
    rcases t with _ | _ | ts | ⟨n, t⟩
    · cases h
    · cases h
    · rw [LeafTypeTree.getSubtypeAndOffset] at h
      split at h
      · rename_i u hu
        obtain ⟨front, back, hrow, hlen⟩ := ih h
        obtain ⟨hi, hu⟩ := List.getElem?_eq_some_iff.mp hu
        have hsplit : ts = ts.take i ++ u :: ts.drop (i + 1) := by
          rw [← hu, ← List.drop_eq_getElem_cons hi, List.take_append_drop]
        refine ⟨Ty.leafTypesList (ts.take i) ++ front, back ++ Ty.leafTypesList (ts.drop (i + 1)),
          ?_, ?_⟩
        · conv_lhs => rw [Ty.leafTypes, hsplit]
          simp only [leafTypesList_eq, List.flatMap_append, List.flatMap_cons, hrow,
            List.append_assoc]
        · rw [List.length_append, Ty.length_leafTypesList]
          omega
      · cases h
    · rw [LeafTypeTree.getSubtypeAndOffset] at h
      split at h
      · obtain ⟨front, back, hrow, hlen⟩ := ih h
        have hsplit : List.replicate n t.leafTypes = List.replicate i t.leafTypes ++
            t.leafTypes :: List.replicate (n - (i + 1)) t.leafTypes := by
          rw [← List.replicate_succ, List.replicate_append_replicate]
          congr 1
          omega
        refine ⟨(List.replicate i t.leafTypes).flatten ++ front,
          back ++ (List.replicate (n - (i + 1)) t.leafTypes).flatten, ?_, ?_⟩
        · have hflat : (Ty.array n t).leafTypes = (List.replicate i t.leafTypes).flatten ++
              (front ++ t'.leafTypes ++ back) ++
              (List.replicate (n - (i + 1)) t.leafTypes).flatten := by
            rw [Ty.leafTypes, hsplit, List.flatten_append, List.flatten_cons, ← hrow,
              List.append_assoc]
          rw [hflat]
          simp only [List.append_assoc]
        · rw [List.length_append, List.length_flatten, List.map_replicate, List.sum_replicate,
            Ty.length_leafTypes, smul_eq_mul]
          omega
      · cases h

/-- The subtree at a path of the type. -/
theorem Wellformed.copySubtree {type t : Ty} {tree : IntervalSetTree} (h : Wellformed type tree)
    {path : List ℕ} {offset : ℕ}
    (hpath : LeafTypeTree.getSubtypeAndOffset type path 0 = some (t, offset)) :
    ∃ sub, tree.copySubtree path = some sub ∧ Wellformed t sub := by
  obtain ⟨htype, hwidths⟩ := h.shaped
  obtain ⟨front, back, hrow, hlen⟩ := leafTypes_of_getSubtypeAndOffset hpath
  rw [Nat.zero_add] at hlen
  subst hlen
  have hsub := List.forall₂_take t.leafCount (List.forall₂_drop front.length hwidths)
  rw [hrow, List.append_assoc, List.drop_left, List.take_left' (Ty.length_leafTypes t)] at hsub
  have hcount : ((tree.elements.drop front.length).take t.leafCount).length = t.leafCount := by
    rw [hsub.length_eq, Ty.length_leafTypes]
  refine ⟨⟨t, _, hcount⟩, ?_, ⟨rfl, hsub⟩, ?_⟩
  · simp only [LeafTypeTree.copySubtree, htype, hpath, LeafTypeTree.ofElements, hcount, ↓reduceDIte]
  · intro s hs
    exact h.normalized s (List.mem_of_mem_drop (List.mem_of_mem_take hs))

/-- A tuple index is ready when it does not read an empty set of bits. -/
def TupleIndexReady (index : ℕ) (type : Ty) (trees : List IntervalSetTree) : Prop :=
  type.isBits = true → ∀ tree sub, trees = [tree] → tree.copySubtree [index] = some sub →
    ∀ s ∈ sub.elements, s.HasPoint

theorem handleTupleIndex_delivers_iff {index : ℕ} {type : Ty} {ts : List Ty}
    {tree : IntervalSetTree} (htree : Wellformed (.tuple ts) tree) (ht : ts[index]? = some type) :
    (TupleIndexReady index type [tree] → Delivers type (handleTupleIndex index [tree])) ∧
    (¬ TupleIndexReady index type [tree] → Aborts type (handleTupleIndex index [tree])) := by
  have hpath : LeafTypeTree.getSubtypeAndOffset (.tuple ts) [index] 0 =
      some (type, 0 + Ty.leafCountList (ts.take index)) := by
    simp [LeafTypeTree.getSubtypeAndOffset, ht]
  obtain ⟨sub, hsub, hwf⟩ := htree.copySubtree hpath
  have hready : TupleIndexReady index type [tree] ↔
      (type.isBits = true → ∀ s ∈ sub.elements, s.HasPoint) := by
    constructor
    · exact fun h hbits => h hbits tree sub rfl hsub
    · rintro h hbits _ sub' ⟨⟩ hsub'
      rw [hsub] at hsub'
      cases hsub'
      exact h hbits
  obtain ⟨hiff, hnot⟩ := delivers_or_aborts hwf
  rw [hready, ← hiff]
  simp only [handleTupleIndex, hsub]
  exact ⟨id, hnot⟩

/-! ### Arrays -/

theorem arrayElements_wellformed {size : ℕ} {type : Ty} {tree : IntervalSetTree}
    (h : Wellformed (.array size type) tree) {count : ℕ} (hcount : count ≤ size) :
    ∃ elements, arrayElements tree count = some elements ∧
      List.Forall₂ Wellformed (List.replicate count type) elements := by
  induction count with
  | zero => exact ⟨[], rfl, .nil⟩
  | succ count ih =>
    obtain ⟨elements, helems, hwf⟩ := ih (Nat.le_of_succ_le hcount)
    have hpath : LeafTypeTree.getSubtypeAndOffset (.array size type) [count] 0 =
        some (type, 0 + count * type.leafCount) := by
      simp [LeafTypeTree.getSubtypeAndOffset, Nat.lt_of_succ_le hcount]
    obtain ⟨sub, hsub, hsubWf⟩ := h.copySubtree hpath
    refine ⟨elements ++ [sub], by rw [arrayElements, helems, hsub], ?_⟩
    rw [List.replicate_succ']
    exact List.rel_append hwf (.cons hsubWf .nil)

/-- What the verifier computes for the concatenation of arrays. -/
theorem concatTrees_wellformed {trees : List IntervalSetTree} {type : Ty}
    (htrees : List.Forall₂ Wellformed types trees)
    (htypes : Verifier.arrayConcatType types = some type) :
    ∃ elements members, concatTrees trees = some elements ∧
      LeafTypeTree.memberTypes type = some members ∧ List.Forall₂ Wellformed members elements ∧
      ∃ n t, type = .array n t := by
  induction htrees generalizing type with
  | nil => cases htypes
  | @cons u tree types trees htree hrest ih =>
    rcases u with _ | _ | _ | ⟨n, u⟩
    · cases htypes
    · cases htypes
    · cases htypes
    obtain ⟨elements, helems, hwf⟩ := arrayElements_wellformed htree le_rfl
    rcases hrest with _ | ⟨htree', hrest'⟩
    · cases htypes
      refine ⟨elements ++ [], _, ?_, rfl, ?_, n, u, rfl⟩
      · simp only [concatTrees, htree.shaped.1, helems]
      · rw [List.append_nil]
        exact hwf
    · rw [Verifier.arrayConcatType] at htypes
      · split at htypes
        · rename_i m u' hother
          split at htypes
          · rename_i hu
            cases htypes
            subst hu
            obtain ⟨others, members, hothers, hmembers, hwf', -⟩ := ih hother
            cases hmembers
            refine ⟨elements ++ others, _, ?_, rfl, ?_, n + m, u', rfl⟩
            · rw [concatTrees, htree.shaped.1]
              simp only [helems, hothers]
            · rw [← List.replicate_append_replicate]
              exact List.rel_append hwf hwf'
          · cases htypes
        · cases htypes
      · simp

theorem handleArrayConcat_delivers {type : Ty} {trees : List IntervalSetTree}
    (htrees : List.Forall₂ Wellformed types trees)
    (htypes : Verifier.arrayConcatType types = some type) :
    Delivers type (handleArrayConcat type trees) := by
  obtain ⟨elements, members, helems, hmembers, hwf, -⟩ := concatTrees_wellformed htrees htypes
  unfold handleArrayConcat
  rw [helems]
  exact handleMembers_delivers hmembers hwf

end Range

end Xls
