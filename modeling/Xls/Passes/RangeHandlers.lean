/-
# Soundness of the remaining handlers

Comparisons, reductions, selects, gates, tuples and arrays.  The conclusion of each
lemma is that every leaf set of the stored tree holds the leaf of the value as a
point; that the widths agree as well is checked when the tree is intersected with
the present one.
-/
import Xls.Passes.RangeVariadic
import Xls.Ir.Verifier

namespace Xls

namespace Range

/-- The sets of a tree hold the leaves of a value, as points. -/
def HoldsPoints (tree : IntervalSetTree) (leaves : List Bits) : Prop :=
  List.Forall₂ (fun s b => s.covers b.toNat = true) tree.elements leaves

variable {tree : IntervalSetTree} {b a : Bits} {type : Ty} {v : Value} {lhs rhs : IntervalSet}
  {r : Bool} {trees : List IntervalSetTree} {operands : List Value}

theorem HoldsPoints.of_covers {leaves : List Bits}
    (h : List.Forall₂ IntervalSet.Covers tree.elements leaves) : HoldsPoints tree leaves :=
  h.imp fun _ _ hc => hc.2

theorem boolIntervalSet_covers (b : Bool) : (boolIntervalSet b).covers b.toNat = true := by
  have h := (IntervalSet.precise_Covers (BitsOps.ofBool b)).2
  rwa [BitsOps.ofBool_toNat] at h

/-- A stored truth value holds a one-leaf value with that number. -/
theorem storeLeaf_bool {b : Bool} (h : storeLeaf type (boolIntervalSet b) = some (some tree))
    {x : Bits} (hx : x.toNat = b.toNat) : HoldsPoints tree [x] := by
  unfold HoldsPoints
  rw [storeLeaf_eq_some h]
  exact .cons (by rw [hx]; exact boolIntervalSet_covers b) .nil

/-! ## Comparisons -/

theorem boolResult_eq_some {b : Bool} (h : Interpreter.boolResult type b = some v) :
    ∃ x, v = .bits x ∧ x.toNat = b.toNat := by
  unfold Interpreter.boolResult at h
  split at h
  · obtain ⟨x, hx, rfl⟩ := Option.map_eq_some_iff.mp h
    exact ⟨x, rfl, (Bits.uBits_eq_some hx).2⟩
  · cases h

/-- An analysis which, where it decides, decides like the comparison itself. -/
theorem storeAnalysis_holds {analysis : Option (Option Bool)}
    (h : storeAnalysis type analysis = some (some tree)) {b : Bool}
    (hdec : ∀ a, analysis = some (some a) → a = b) (hv : Interpreter.boolResult type b = some v) :
    HoldsPoints tree v.leaves := by
  obtain ⟨x, rfl, hx⟩ := boolResult_eq_some hv
  match analysis, h, hdec with
  | some (some a), h, hdec =>
    have hab := hdec a rfl
    subst hab
    exact storeLeaf_bool h hx

variable (ha : SetTracks lhs a) (hb : SetTracks rhs b)

section

include ha hb

/-- `AnalyzeEq` decides only what holds of all covered points. -/
theorem analyzeEq_sound (h : analyzeEq lhs rhs = some (some r)) : r = decide (a = b) := by
  unfold analyzeEq at h
  rw [ha.2, hb.2, Bool.and_self, if_pos rfl] at h
  simp only at h
  split at h
  · cases h
  · rename_i combined hcombined
    have hcomb := hcombined
    obtain ⟨hw, -, -, -⟩ := IntervalSet.combine_eq_some hcombined
    split at h
    · -- both sets are the same precise point
      rename_i hprecise
      cases h
      simp only [Bool.and_eq_true, decide_eq_true_eq] at hprecise
      obtain ⟨⟨hpl, hpr⟩, hbounds⟩ := hprecise
      obtain ⟨i, hi, -⟩ := ha.1.exists_interval
      have hi' : (i.lower, i.upper) ∈ bounds rhs := by
        rw [← hbounds]
        exact List.mem_map.mpr ⟨i, hi, rfl⟩
      obtain ⟨j, hj, hij⟩ := List.mem_map.mp hi'
      have h1 := (IntervalSet.toNat_eq_of_isPrecise ha.2 hpl ha.1 hi).1
      have h2 := (IntervalSet.toNat_eq_of_isPrecise hb.2 hpr hb.1 hj).1
      rw [Prod.mk.injEq] at hij
      have hab : a = b := by
        ext
        · rw [ha.1.1, hb.1.1, hw]
        · omega
      simp [hab]
    · split at h
      · -- merging removed no interval, so no point is common
        rename_i hdisjoint
        cases h
        have hne : a ≠ b := by
          rintro rfl
          have hlen : lhs.intervals.length + rhs.intervals.length = combined.intervals.length := by
            simpa using hdisjoint
          have hproper : ∀ i ∈ lhs.intervals ++ rhs.intervals.map (Interval.cast hw), i.Proper := by
            intro i hi
            obtain hi | hi := List.mem_append.mp hi
            · exact (lhs.normal ha.2).proper hi
            · exact (IntervalSet.normal_map_cast hw (rhs.normal hb.2)).proper hi
          unfold IntervalSet.combine at hcomb
          rw [dif_pos hw] at hcomb
          cases hcomb
          have hcount := countP_covers_le_of_length hproper
            (by rw [List.length_append, List.length_map]; exact hlen.symm) ha.1.lt
          rw [List.countP_append] at hcount
          have hl : 0 < lhs.intervals.countP fun i => i.covers a.toNat :=
            List.countP_pos_iff.mpr ha.1.exists_interval
          have hr : 0 < (rhs.intervals.map (Interval.cast hw)).countP fun i => i.covers a.toNat := by
            rw [List.countP_pos_iff]
            obtain ⟨j, hj, hcov⟩ := hb.1.exists_interval
            exact ⟨j.cast hw, List.mem_map_of_mem hj, by rw [Interval.covers_cast]; exact hcov⟩
          omega
        simp [hne]
      · cases h

/-- `AnalyzeLt` decides only when the points are apart, in either direction. -/
theorem analyzeLt_sound (h : analyzeLt lhs rhs = some (some r)) :
    (r = true ∧ a.toNat < b.toNat) ∨ (r = false ∧ b.toNat < a.toNat) := by
  obtain ⟨lh, hlh, hl1, hl2⟩ := IntervalSet.convexHull_of_Covers ha.2 ha.1
  obtain ⟨rh, hrh, hr1, hr2⟩ := IntervalSet.convexHull_of_Covers hb.2 hb.1
  unfold analyzeLt at h
  rw [hlh, hrh] at h
  simp only at h
  split at h
  · split at h
    · rename_i hw hdisjoint
      have hover : ¬ (rh.lower ≤ lh.upper ∧ lh.lower ≤ rh.upper) := by
        intro hcon
        rw [Interval.disjoint, Bool.not_eq_true', ← Bool.not_eq_true,
          Interval.overlaps_iff] at hdisjoint
        exact hdisjoint hcon
      -- disjoint hulls are ordered by their lower bounds
      split_ifs at h with h1 h2
      · cases h
        rw [lt_eq_true_iff] at h1
        simp only [Interval.cast] at h1
        exact .inl ⟨rfl, by omega⟩
      · cases h
        rw [lt_eq_true_iff] at h2
        simp only [Interval.cast] at h2
        exact .inr ⟨rfl, by omega⟩
      · cases h
    · cases h
  · cases h

end

theorem orEqual_eq_some {analysis equal : Option (Option Bool)}
    (h : orEqual analysis equal = some (some r)) :
    (equal = some (some true) ∧ r = true) ∨ analysis = some (some r) := by
  unfold orEqual at h
  split at h
  · cases h
    exact .inl ⟨rfl, rfl⟩
  · cases h
    exact .inr rfl
  · cases h

theorem twoOperands_eq_some (h : twoOperands trees = some (lhs, rhs)) :
    bitsOperands trees = some [lhs, rhs] := by
  unfold twoOperands at h
  split at h
  · rename_i l r heq
    cases h
    exact heq
  · cases h

theorem bits2_eq_some (h : Interpreter.bits2 operands = some (a, b)) :
    operands = [.bits a, .bits b] ∧ Interpreter.bitsVector operands = some [a, b] := by
  unfold Interpreter.bits2 at h
  split at h
  · rename_i v u
    split at h
    · rename_i x y hx hy
      cases h
      have hv : v = .bits a := by
        cases v <;> first | cases hx; rfl | cases hx
      have hu : u = .bits b := by
        cases u <;> first | cases hy; rfl | cases hy
      subst hv hu
      exact ⟨rfl, rfl⟩
    · cases h
  · cases h

section

variable (ht : List.Forall₂ Tracks trees operands)

include ht

/-- The two operands of a node on bits are tracked. -/
theorem twoOperands_tracks
    (hs : twoOperands trees = some (lhs, rhs)) (hx : Interpreter.bits2 operands = some (a, b)) :
    SetTracks lhs a ∧ SetTracks rhs b := by
  have h := bitsOperands_tracks ht (twoOperands_eq_some hs) (bits2_eq_some hx).2
  cases h with
  | cons h1 hrest =>
    cases hrest with
    | cons h2 _ => exact ⟨h1, h2⟩

omit ht in
/-- An order comparison with a sound analysis. -/
theorem handleCompare_holds {analyze : IntervalSet → IntervalSet → Option (Option Bool)}
    {compare : Bits → Bits → Bool}
    (hsound : ∀ {lhs rhs : IntervalSet} {a b : Bits} {r : Bool}, SetTracks lhs a →
      SetTracks rhs b → analyze lhs rhs = some (some r) → r = compare a b)
    (ht : List.Forall₂ Tracks trees operands)
    (hv : Interpreter.compareOp compare type operands = some v)
    (h : handleCompare analyze type trees = some (some tree)) : HoldsPoints tree v.leaves := by
  unfold Interpreter.compareOp at hv
  split at hv
  · rename_i a b hab
    unfold handleCompare at h
    split at h
    · rename_i lhs rhs hlr
      obtain ⟨h1, h2⟩ := twoOperands_tracks ht hlr hab
      exact storeAnalysis_holds h (fun r hr => hsound h1 h2 hr) hv
    · cases h
  · cases hv

section

include ha hb

omit ht in
/-- `AnalyzeLt` decides like `<`. -/
theorem analyzeLt_eq_uLessThan (h : analyzeLt lhs rhs = some (some r)) :
    r = BitsOps.uLessThan a b := by
  unfold BitsOps.uLessThan
  obtain ⟨rfl, hlt⟩ | ⟨rfl, hlt⟩ := analyzeLt_sound ha hb h
  · simp [hlt]
  · simp [hlt.le]

omit ht in
/-- With the override for equal operands it decides like `≤`. -/
theorem orEqual_eq_uLessThanOrEqual {equal : Option (Option Bool)}
    (hequal : equal = some (some true) → a = b)
    (h : orEqual (analyzeLt lhs rhs) equal = some (some r)) : r = BitsOps.uLessThanOrEqual a b := by
  unfold BitsOps.uLessThanOrEqual
  obtain ⟨heq, rfl⟩ | hana := orEqual_eq_some h
  · simp [hequal heq]
  · obtain ⟨rfl, hlt⟩ | ⟨rfl, hlt⟩ := analyzeLt_sound ha hb hana
    · simp [hlt.le]
    · simp [hlt]

end

theorem handleULt_holds (hv : Interpreter.compareOp BitsOps.uLessThan type operands = some v)
    (h : handleULt type trees = some (some tree)) : HoldsPoints tree v.leaves :=
  handleCompare_holds (fun ha hb hr => analyzeLt_eq_uLessThan ha hb hr) ht hv h

theorem handleUGt_holds
    (hv : Interpreter.compareOp (fun a b => BitsOps.uLessThan b a) type operands = some v)
    (h : handleUGt type trees = some (some tree)) : HoldsPoints tree v.leaves :=
  handleCompare_holds (fun ha hb hr => analyzeLt_eq_uLessThan hb ha hr) ht hv h

theorem handleULe_holds (hv : Interpreter.compareOp BitsOps.uLessThanOrEqual type operands = some v)
    (h : handleULe type trees = some (some tree)) : HoldsPoints tree v.leaves := by
  refine handleCompare_holds (fun ha hb hr => ?_) ht hv h
  exact orEqual_eq_uLessThanOrEqual ha hb (fun heq => by
    simpa using analyzeEq_sound ha hb heq) hr

theorem handleUGe_holds
    (hv : Interpreter.compareOp (fun a b => BitsOps.uLessThanOrEqual b a) type operands = some v)
    (h : handleUGe type trees = some (some tree)) : HoldsPoints tree v.leaves := by
  refine handleCompare_holds (fun ha hb hr => ?_) ht hv h
  refine orEqual_eq_uLessThanOrEqual hb ha (fun heq => ?_) hr
  have := analyzeEq_sound ha hb heq
  simpa [eq_comm] using this

omit ht in
/-- The value tracked by a tree of bits type is bits. -/
theorem Tracks.bits (h : Tracks tree v) (ht : tree.type.isBits = true) : ∃ b, v = .bits b := by
  have hconf := h.conforms
  cases hty : tree.type with
  | bits n =>
    rw [hty] at hconf
    obtain ⟨b, rfl, -⟩ := Value.asBits_of_conforms hconf
    exact ⟨b, rfl⟩
  | token => rw [hty] at ht; cases ht
  | tuple ts => rw [hty] at ht; cases ht
  | array n t => rw [hty] at ht; cases ht

theorem handleEquality_holds {expected : Bool}
    (htypes : Verifier.compareTypes type (trees.map LeafTypeTree.type) = true)
    (hv : Interpreter.equalityOp expected type operands = some v)
    (h : handleEquality expected type trees = some (some tree)) : HoldsPoints tree v.leaves := by
  unfold Interpreter.equalityOp at hv
  split at hv
  · cases ht with
    | @cons t₁ _ _ _ ht₁ hrest =>
    cases hrest with
    | @cons t₂ _ _ _ ht₂ hnil =>
    cases hnil
    unfold handleEquality at h
    simp only at h
    split at h
    · cases h
    · rename_i hbits
      have hbits : t₁.type.isBits = true := by simpa using hbits
      simp only [Verifier.compareTypes, List.map_cons, List.map_nil, Bool.and_eq_true,
        decide_eq_true_eq] at htypes
      obtain ⟨a, rfl⟩ := ht₁.bits hbits
      obtain ⟨b, rfl⟩ := ht₂.bits (by rw [htypes.1, hbits])
      split at h
      · rename_i lhs rhs hlr
        obtain ⟨h1, h2⟩ := twoOperands_tracks (.cons ht₁ (.cons ht₂ .nil)) hlr rfl
        refine storeAnalysis_holds h (fun r hr => ?_) hv
        obtain ⟨a', ha', hr⟩ := Option.map_eq_some_iff.mp hr
        obtain ⟨r', rfl, rfl⟩ := Option.map_eq_some_iff.mp hr
        rw [analyzeEq_sound h1 h2 ha']
        simp
      · cases h
  · cases hv

/-! ## Reductions -/

omit ht in
theorem bits1_eq_some (h : Interpreter.bits1 operands = some a) :
    Interpreter.bitsVector operands = some [a] := by
  unfold Interpreter.bits1 at h
  split at h
  · rw [Interpreter.bitsVector, h]
    rfl
  · cases h

/-- The operand of a unary node on bits is tracked. -/
theorem oneOperand_tracks {s : IntervalSet}
    (hs : bitsOperands trees = some [s]) (hx : Interpreter.bits1 operands = some a) :
    SetTracks s a := by
  have h := bitsOperands_tracks ht hs (bits1_eq_some hx)
  cases h with
  | cons h1 _ => exact h1

omit ht in
theorem unOp_eq_some {f : Bits → Bits} (h : Interpreter.unOp f operands = some v) :
    ∃ a, Interpreter.bits1 operands = some a ∧ v = .bits (f a) := by
  obtain ⟨a, ha, rfl⟩ := Option.map_eq_some_iff.mp h
  exact ⟨a, ha, rfl⟩

omit ht in
/-- The two ways a reduction is decided: the hull is one point, or that point is not
covered. -/
theorem reduction_holds {s : IntervalSet} (hs : SetTracks s a) {point : ℕ} {b : Bool}
    (h : (match s.convexHull with
      | some hull =>
        if hull.lower = point ∧ hull.upper = point then storeLeaf type (boolIntervalSet b)
        else if !s.covers point then storeLeaf type (boolIntervalSet (!b))
        else some none
      | none =>
        if !s.covers point then storeLeaf type (boolIntervalSet (!b)) else some none) =
      some (some tree)) {x : Bits} (hx : x.toNat = (decide (a.toNat = point) == b).toNat) :
    HoldsPoints tree [x] := by
  obtain ⟨hull, hhull, h1, h2⟩ := IntervalSet.convexHull_of_Covers hs.2 hs.1
  rw [hhull] at h
  simp only at h
  split_ifs at h with hpoint hcov
  · have ha : a.toNat = point := by omega
    refine storeLeaf_bool h ?_
    rw [hx, ha]
    cases b <;> simp
  · have ha : a.toNat ≠ point := by
      rintro rfl
      rw [hs.1.2] at hcov
      cases hcov
    refine storeLeaf_bool h ?_
    rw [hx, decide_eq_false ha]
    cases b <;> rfl
  · cases h

theorem handleAndReduce_holds (hv : Interpreter.unOp BitsOps.andReduce operands = some v)
    (h : handleAndReduce type trees = some (some tree)) : HoldsPoints tree v.leaves := by
  obtain ⟨a, ha, rfl⟩ := unOp_eq_some hv
  unfold handleAndReduce at h
  split at h
  · rename_i s hs
    have htrack := oneOperand_tracks ht hs ha
    refine reduction_holds (b := true) htrack h ?_
    simp only [BitsOps.andReduce, ← htrack.1.1, BitsOps.ofBool_toNat, beq_true]
    rfl
  · cases h

theorem handleOrReduce_holds (hv : Interpreter.unOp BitsOps.orReduce operands = some v)
    (h : handleOrReduce type trees = some (some tree)) : HoldsPoints tree v.leaves := by
  obtain ⟨a, ha, rfl⟩ := unOp_eq_some hv
  unfold handleOrReduce at h
  split at h
  · rename_i s hs
    have htrack := oneOperand_tracks ht hs ha
    refine reduction_holds (b := false) htrack h ?_
    simp only [BitsOps.orReduce, BitsOps.ofBool_toNat, beq_false]
    rfl
  · cases h

omit ht in
/-- The common parity of precise intervals is the parity of each of them. -/
theorem commonParity_spec {w : ℕ} {l : List (Interval w)} :
    ∀ {p : Option Bits} {o : Bits}, commonParity p l = some (some o) → (∀ q, p = some q → q = o) ∧
      ∀ i ∈ l, i.isPrecise = true ∧ BitsOps.xorReduce i.lowerBound = o := by
  induction l with
  | nil =>
    intro p o h
    cases h
    exact ⟨fun q hq => by cases hq; rfl, by simp⟩
  | cons a rest ih =>
    intro p o h
    rw [commonParity] at h
    split at h
    · cases h
    · rename_i hprecise
      have hprecise : a.isPrecise = true := by simpa using hprecise
      have hfinish : commonParity (some (BitsOps.xorReduce a.lowerBound)) rest = some (some o) →
          BitsOps.xorReduce a.lowerBound = o ∧
          ∀ i ∈ a :: rest, i.isPrecise = true ∧ BitsOps.xorReduce i.lowerBound = o := by
        intro hrest
        obtain ⟨h1, h2⟩ := ih hrest
        have ha := h1 _ rfl
        refine ⟨ha, ?_⟩
        intro i hi
        obtain rfl | hi := List.mem_cons.mp hi
        · exact ⟨hprecise, ha⟩
        · exact h2 i hi
      cases p with
      | none => exact ⟨by simp, (hfinish h).2⟩
      | some q =>
        simp only at h
        split at h
        · cases h
        · rename_i hq
          obtain ⟨h1, h2⟩ := hfinish h
          refine ⟨?_, h2⟩
          intro q' hq'
          cases hq'
          rw [not_not.mp hq, h1]

theorem handleXorReduce_holds (hv : Interpreter.unOp BitsOps.xorReduce operands = some v)
    (h : handleXorReduce type trees = some (some tree)) : HoldsPoints tree v.leaves := by
  obtain ⟨a, ha, rfl⟩ := unOp_eq_some hv
  unfold handleXorReduce at h
  split at h
  · rename_i s hs
    have htrack := oneOperand_tracks ht hs ha
    rw [if_pos htrack.2] at h
    split at h
    · rename_i o ho
      obtain ⟨i, hi, hcov⟩ := htrack.1.exists_interval
      obtain ⟨hprecise, hparity⟩ := (commonParity_spec ho).2 i hi
      have hproper := (s.normal htrack.2).proper hi
      rw [Interval.covers_iff_of_proper hproper htrack.1.lt] at hcov
      have hlow : i.lowerBound = a := by
        have hlu : i.lower = i.upper := Interval.eq_of_isPrecise hprecise
        ext
        · exact htrack.1.1.symm
        · show i.lower = a.toNat
          omega
      rw [hlow] at hparity
      unfold HoldsPoints
      rw [storeLeaf_eq_some h, ← hparity]
      exact .cons (IntervalSet.precise_Covers _).2 .nil
    · cases h
  · cases h

end

end Range

end Xls
