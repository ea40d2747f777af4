/-
# What the handlers of the range engine deliver

A handler of `RangeQueryVisitor` calls partial operations: leaves of trees, unions of sets of
one width, bounds of sets with points.  On trees as the engine stores them, each handler either
leaves the node alone or delivers a tree which can be stored, as long as the condition of its
operation holds (`Range.HandlerReady`); otherwise a check fails in the handler, or its tree has
an empty set where the known bits are extracted.

* `Stored`, `Delivers` : trees which can be stored, and what a handler makes;
* `handleVariadicOp_delivers` : the arithmetic operations never fail;
* `handleEquality_delivers`, `handleCompare_delivers_iff` : comparisons and reductions.
-/
import Xls.Passes.PrioritySelect
import Xls.Passes.RangeSoundness

namespace Xls

namespace IntervalSet

/-- The set has a point. -/
def HasPoint (s : IntervalSet) : Prop := ∃ b, s.Covers b

/-- A normalized set has a point exactly when it has an interval. -/
theorem hasPoint_iff {s : IntervalSet} (hs : s.isNormalized = true) :
    s.HasPoint ↔ s.intervals ≠ [] := by
  constructor
  · rintro ⟨b, hb⟩ hnil
    obtain ⟨i, hi, -⟩ := hb.exists_interval
    rw [hnil] at hi
    cases hi
  · intro hne
    obtain ⟨i, hi⟩ := List.exists_mem_of_ne_nil _ hne
    refine ⟨i.lowerBound, rfl, coversPoint_eq_true.mpr ⟨i, hi, ?_⟩⟩
    exact Interval.covers_of_between le_rfl ((s.normal hs).proper hi)

/-- An interval always has its upper bound as a point. -/
theorem hasPoint_ofIntervals {w : ℕ} {l : List (Interval w)} (hl : l ≠ []) :
    (ofIntervals l).HasPoint := by
  obtain ⟨i, hi⟩ := List.exists_mem_of_ne_nil _ hl
  refine ⟨i.upperBound, (ofIntervals_Covers l _).mpr ⟨rfl, i, hi, ?_⟩⟩
  rcases le_or_gt i.lower i.upper with hle | hlt
  · exact Interval.covers_of_between hle le_rfl
  · exact (Interval.covers_iff_of_improper hlt).mpr (.inr le_rfl)

theorem HasPoint.minimize {s : IntervalSet} (h : s.HasPoint) (size : ℕ) :
    (minimizeIntervals s size).HasPoint := by
  obtain ⟨b, hb⟩ := h
  exact ⟨b, minimizeIntervals_Covers hb size⟩

theorem hasPoint_maximal (w : ℕ) : (maximal w).HasPoint := ⟨Bits.zero w, maximal_Covers rfl⟩

theorem hasPoint_precise (b : Bits) : (precise b).HasPoint := ⟨b, precise_Covers b⟩

/-- The empty set has no point. -/
theorem not_hasPoint_empty (w : ℕ) : ¬ (empty w).HasPoint := by
  rintro ⟨b, hb⟩
  obtain ⟨i, hi, -⟩ := hb.exists_interval
  cases hi

end IntervalSet

namespace Range

/-! ## Trees which can be stored -/

theorem exists_bits_of_isBits {type : Ty} (h : type.isBits = true) : ∃ w, type = .bits w := by
  rcases type with w | _ | _ | _
  · exact ⟨w, rfl⟩
  · cases h
  · cases h
  · cases h

/-- A normalized tree of the given type. -/
structure Wellformed (type : Ty) (tree : IntervalSetTree) : Prop where
  shaped : Shaped type tree
  normalized : ∀ s ∈ tree.elements, s.isNormalized = true

/-- A tree as the engine stores it: the set of a node of bits type has a point. -/
structure Stored (type : Ty) (tree : IntervalSetTree) : Prop extends Wellformed type tree where
  hasPoint : type.isBits = true → ∀ s ∈ tree.elements, s.HasPoint

/-- A normalized set of the given width which has a point. -/
structure StoredSet (w : ℕ) (s : IntervalSet) : Prop where
  bitCount : s.bitCount = w
  normalized : s.isNormalized = true
  hasPoint : s.HasPoint

variable {tree lhs rhs : IntervalSetTree} {w : ℕ} {trees : List IntervalSetTree} {widths : List ℕ}
  {sets : List IntervalSet} {tonicities : List Tonicity}

/-- The tree of a leaf type is its set. -/
theorem Wellformed.leaf {type : Ty} (h : Wellformed type tree) (hleaf : type.isLeafType = true) :
    ∃ s, tree.elements = [s] ∧ tree.get [] = some s ∧
      s.bitCount = type.flatBitCount ∧ s.isNormalized = true := by
  obtain ⟨htype, hwidths⟩ := h.shaped
  have htypes : type.leafTypes = [type] := by
    cases type <;> first | rfl | cases hleaf
  rw [htypes] at hwidths
  rcases htree : tree.elements with _ | ⟨s, _ | ⟨s', rest⟩⟩
  · rw [htree] at hwidths
    cases hwidths
  · rw [htree] at hwidths
    rcases hwidths with _ | ⟨hs, -⟩
    refine ⟨s, rfl, ?_, hs, h.normalized s (by simp [htree])⟩
    simp [LeafTypeTree.get, LeafTypeTree.getSubtypeAndOffset, htype, hleaf, htree]
  · rw [htree] at hwidths
    rcases hwidths with _ | ⟨-, hrest⟩
    cases hrest

theorem Stored.bits (h : Stored (.bits w) tree) :
    ∃ s, tree.elements = [s] ∧ tree.get [] = some s ∧ StoredSet w s := by
  obtain ⟨s, helem, hget, hwidth, hnorm⟩ := h.leaf rfl
  exact ⟨s, helem, hget, hwidth, hnorm, h.hasPoint rfl s (by simp [helem])⟩

/-- A set of the right width can be stored as the tree of a leaf type. -/
theorem storeLeaf_stored {s : IntervalSet} (h : StoredSet w s) :
    ∃ tree, storeLeaf (.bits w) s = some (some tree) ∧ Stored (.bits w) tree := by
  refine ⟨⟨.bits w, [s], rfl⟩, rfl, ⟨⟨rfl, .cons h.bitCount .nil⟩, ?_⟩, ?_⟩
  · simp [h.normalized]
  · simp [h.hasPoint]

theorem storedSet_precise (b : Bits) : StoredSet b.bitCount (IntervalSet.precise b) :=
  ⟨by simp, by simp, IntervalSet.hasPoint_precise b⟩

theorem StoredSet.minimize {s : IntervalSet} (h : StoredSet w s) (size : ℕ) :
    StoredSet w (minimizeIntervals s size) :=
  ⟨by simp [h.bitCount], by simp, h.hasPoint.minimize size⟩

/-- A tree of another type does not have the leaf. -/
theorem get_nil_of_not_leaf (h : tree.type.isLeafType = false) : tree.get [] = none := by
  simp [LeafTypeTree.get, LeafTypeTree.getSubtypeAndOffset, h]

/-! ## Outcomes -/

/-- The outcome of a handler which leaves the node alone or delivers a tree to store. -/
def Delivers (type : Ty) (outcome : Option (Option IntervalSetTree)) : Prop :=
  ∃ delivered, outcome = some delivered ∧ ∀ tree ∈ delivered, Stored type tree

/-- The outcome of a handler in which a check fails, or whose tree fails the check for an
interval when the known bits are extracted. -/
def Aborts (type : Ty) (outcome : Option (Option IntervalSetTree)) : Prop :=
  outcome = none ∨ ∃ tree, outcome = some (some tree) ∧ Wellformed type tree ∧
    type.isBits = true ∧ ∃ s ∈ tree.elements, ¬ s.HasPoint

theorem delivers_skip (type : Ty) : Delivers type (some none) := ⟨none, rfl, by simp⟩

theorem delivers_tree {type : Ty} (h : Stored type tree) : Delivers type (some (some tree)) := by
  refine ⟨some tree, rfl, ?_⟩
  rintro t ⟨⟩
  exact h

theorem delivers_storeLeaf {s : IntervalSet} (h : StoredSet w s) :
    Delivers (.bits w) (storeLeaf (.bits w) s) := by
  obtain ⟨tree, htree, hstored⟩ := storeLeaf_stored h
  rw [htree]
  exact delivers_tree hstored

theorem delivers_bool (b : Bool) : Delivers (.bits 1) (storeLeaf (.bits 1) (boolIntervalSet b)) :=
  delivers_storeLeaf (storedSet_precise (BitsOps.ofBool b))

/-- A well-formed tree is delivered or aborts, as its sets have points or not. -/
theorem delivers_or_aborts {type : Ty} (h : Wellformed type tree) :
    (Delivers type (some (some tree)) ↔ (type.isBits = true → ∀ s ∈ tree.elements, s.HasPoint)) ∧
    (¬ Delivers type (some (some tree)) → Aborts type (some (some tree))) := by
  have hiff : Delivers type (some (some tree)) ↔
      (type.isBits = true → ∀ s ∈ tree.elements, s.HasPoint) := by
    constructor
    · rintro ⟨delivered, hsome, hstored⟩
      cases hsome
      exact (hstored tree rfl).hasPoint
    · intro hpoint
      exact delivers_tree ⟨h, hpoint⟩
  refine ⟨hiff, fun hnot => .inr ⟨tree, rfl, h, ?_⟩⟩
  rw [hiff] at hnot
  push Not at hnot
  exact hnot

/-! ## Variadic operations -/

/-- Bits operands have sets which can be read. -/
theorem bitsOperands_stored (h : List.Forall₂ (fun tree w => Stored (.bits w) tree) trees widths) :
    ∃ sets, bitsOperands trees = some sets ∧
      List.Forall₂ (fun s w => StoredSet w s) sets widths := by
  induction h with
  | nil => exact ⟨[], rfl, .nil⟩
  | cons htree _ ih =>
    obtain ⟨sets, hsets, hstored⟩ := ih
    obtain ⟨s, -, hget, hs⟩ := htree.bits
    exact ⟨s :: sets, by simp [bitsOperands, hget, hsets], .cons hs hstored⟩

theorem minimizeOperands_stored (h : List.Forall₂ (fun s w => StoredSet w s) sets widths) (i : ℕ) :
    List.Forall₂ (fun s w => StoredSet w s) (minimizeOperands i sets) widths := by
  induction h generalizing i with
  | nil => exact .nil
  | cons hs _ ih => exact .cons (hs.minimize _) (ih (i + 1))

/-- Two bounds of the given width. -/
def BoundsOf (p : Bits × Bits) (w : ℕ) : Prop := p.1.bitCount = w ∧ p.2.bitCount = w

/-- Each visited number chooses an interval of every operand. -/
theorem exists_chosen_of_mem (h : List.Forall₂ (fun s w => StoredSet w s) sets widths)
    {indexes : List ℕ}
    (hidx : List.Forall₂ (fun d r => d < max 1 r) indexes (sets.map fun s => s.intervals.length)) :
    ∃ chosen, chosenIntervals sets indexes = some chosen ∧ List.Forall₂ BoundsOf chosen widths := by
  induction h generalizing indexes with
  | nil =>
    rcases hidx with _ | _
    exact ⟨[], rfl, .nil⟩
  | @cons s w sets widths hs _ ih =>
    rcases hidx with _ | @⟨d, _, indexes, _, hlt, hrest⟩
    obtain ⟨chosen, hchosen, hbounds⟩ := ih hrest
    have hne := (IntervalSet.hasPoint_iff hs.normalized).mp hs.hasPoint
    rw [max_eq_right (List.length_pos_iff.mpr hne)] at hlt
    let interval := s.intervals.get ⟨d, hlt⟩
    refine ⟨(interval.lowerBound, interval.upperBound) :: chosen, ?_,
      .cons ⟨hs.bitCount, hs.bitCount⟩ hbounds⟩
    rw [chosenIntervals, List.getElem?_eq_getElem hlt, hchosen]
    rfl

/-- The arguments of an implementation have the widths of the operands. -/
theorem lowerArguments_widths (hlen : tonicities.length = widths.length) {los his : List Bits}
    (hlos : List.Forall₂ (fun b w => b.bitCount = w) los widths)
    (hhis : List.Forall₂ (fun b w => b.bitCount = w) his widths) :
    List.Forall₂ (fun b w => b.bitCount = w) (lowerArguments tonicities los his) widths := by
  induction tonicities generalizing widths los his with
  | nil =>
    rw [List.length_eq_zero_iff.mp hlen.symm]
    exact .nil
  | cons t ts ih =>
    rcases hlos with _ | ⟨hlo, hlos⟩
    · cases hlen
    rcases hhis with _ | ⟨hhi, hhis⟩
    have hrest := ih (by simpa using hlen) hlos hhis
    rcases t with _ | _
    · exact .cons hlo hrest
    · exact .cons hhi hrest

/-- An implementation whose results have the width of the node. -/
def ResultWidth (impl : List Bits → Option Bits) (widths : List ℕ) (w : ℕ) : Prop :=
  ∀ args r, List.Forall₂ (fun b w => b.bitCount = w) args widths → impl args = some r →
    r.bitCount = w

/-- One choice of intervals either stops the loop or adds an interval. -/
theorem exists_variadicCallback {impl : List Bits → Option Bits}
    (hlen : tonicities.length = widths.length) (himpl : ResultWidth impl widths w)
    (hsets : List.Forall₂ (fun s w => StoredSet w s) sets widths) {indexes : List ℕ}
    (hidx : List.Forall₂ (fun d r => d < max 1 r) indexes (sets.map fun s => s.intervals.length))
    (l : List (Interval w)) : ∃ r, variadicCallback impl tonicities w sets l indexes = some r := by
  obtain ⟨chosen, hchosen, hbounds⟩ := exists_chosen_of_mem hsets hidx
  have hlos : List.Forall₂ (fun b w => b.bitCount = w) (chosen.map Prod.fst) widths :=
    List.forall₂_map_left_iff.mpr (hbounds.imp fun _ _ h => h.1)
  have hhis : List.Forall₂ (fun b w => b.bitCount = w) (chosen.map Prod.snd) widths :=
    List.forall₂_map_left_iff.mpr (hbounds.imp fun _ _ h => h.2)
  unfold variadicCallback
  rw [hchosen]
  simp only
  rcases hlower : impl (lowerArguments tonicities (chosen.map Prod.fst) (chosen.map Prod.snd)) with
    _ | lower
  · exact ⟨_, rfl⟩
  rcases hupper : impl (lowerArguments tonicities (chosen.map Prod.snd) (chosen.map Prod.fst)) with
    _ | upper
  · exact ⟨_, rfl⟩
  have hwidth : lower.bitCount = w ∧ upper.bitCount = w :=
    ⟨himpl _ _ (lowerArguments_widths hlen hlos hhis) hlower,
      himpl _ _ (lowerArguments_widths hlen hhis hlos) hupper⟩
  simp only [intervalOfBits, dif_pos hwidth]
  exact ⟨_, rfl⟩

/-- An operation whose implementation respects the widths never fails a check. -/
theorem handleVariadicOp_delivers {impl : List Bits → Option Bits}
    (hlen : tonicities.length = widths.length) (himpl : ResultWidth impl widths w)
    (htrees : List.Forall₂ (fun tree w => Stored (.bits w) tree) trees widths) :
    Delivers (.bits w) (handleVariadicOp impl tonicities (.bits w) trees) := by
  obtain ⟨sets, hsets, hstored⟩ := bitsOperands_stored htrees
  have hcount : sets.length = tonicities.length := by rw [hlen, hstored.length_eq]
  have hmin := minimizeOperands_stored hstored 0
  unfold handleVariadicOp
  simp only [hsets, hcount]
  rw [mixedRadixIterate_eq_visit]
  obtain ⟨⟨l, stop⟩, hvisit⟩ := Visit.exists_visit
    (l := mixedRadixNumbers ((minimizeOperands 0 sets).map fun s => s.intervals.length))
    (fun indexes hidx l => exists_variadicCallback hlen himpl hmin
      (lt_of_mem_mixedRadixNumbers hidx) l) []
  rw [hvisit]
  rcases stop with _ | _
  · -- the first choice alone leaves an interval
    have hstep : ∀ {l : List (Interval w)} {idx : List ℕ} {l' stop},
        variadicCallback impl tonicities w (minimizeOperands 0 sets) l idx = some (l', stop) →
          l ⊆ l' := by
      intro l idx l' stop hcall
      rcases variadicCallback_eq_some hcall with ⟨rfl, -⟩ | ⟨_, _, _, _, _, _, _, _, rfl⟩
      · exact List.Subset.refl l'
      · exact List.subset_append_left _ _
    obtain ⟨t, u, -, hcall, hsub⟩ := Visit.visit_mem List.Subset.refl
      (fun h h' => List.Subset.trans h h') hstep hvisit (zeros_mem_mixedRadixNumbers _)
    have hne : l ≠ [] := by
      rcases variadicCallback_eq_some hcall with ⟨-, hfalse⟩ | ⟨_, _, _, i, _, _, _, _, rfl⟩
      · cases hfalse
      · exact List.ne_nil_of_mem (hsub (List.mem_append_right t (List.mem_singleton_self i)))
    exact delivers_storeLeaf ⟨by simp, by simp, (IntervalSet.hasPoint_ofIntervals hne).minimize _⟩
  · exact delivers_skip _

/-! ### The implementations -/

theorem resultWidth_unary {f : Bits → Option Bits} {v : ℕ}
    (h : ∀ a r, a.bitCount = v → f a = some r → r.bitCount = w) : ResultWidth (unary f) [v] w := by
  intro args r hargs hr
  rcases hargs with _ | ⟨ha, hnil⟩
  rcases hnil with _ | _
  exact h _ _ ha hr

theorem resultWidth_binary {f : Bits → Bits → Option Bits} {u v : ℕ}
    (h : ∀ a b r, a.bitCount = u → b.bitCount = v → f a b = some r → r.bitCount = w) :
    ResultWidth (binary f) [u, v] w := by
  intro args r hargs hr
  rcases hargs with _ | ⟨ha, hrest⟩
  rcases hrest with _ | ⟨hb, hnil⟩
  rcases hnil with _ | _
  exact h _ _ _ ha hb hr

/-- A value which fits keeps at most that many bits. -/
theorem dropLeadingZeroes_bitCount_le {b : Bits} {n : ℕ} (h : b.fitsInNBitsUnsigned n = true) :
    (BitsOps.dropLeadingZeroes b).bitCount ≤ n := by
  show b.bitCount - b.countLeadingZeros ≤ n
  unfold Bits.countLeadingZeros
  rcases hfind : (List.range b.bitCount).find? fun i => b.get (b.bitCount - 1 - i) with _ | k
  · rw [Option.getD_none]
    omega
  · rw [Option.getD_some]
    have hk := List.mem_range.mp (List.mem_of_find?_eq_some hfind)
    have hset := List.find?_some hfind
    have hfit := List.all_eq_true.mp h (b.bitCount - 1 - k) (List.mem_range.mpr (by omega))
    rw [hset, Bool.not_true, Bool.or_false, decide_eq_true_eq] at hfit
    omega

theorem foldl_append_bitCount (bs : List Bits) (acc : Bits) :
    (bs.foldl BitsOps.append acc).bitCount = acc.bitCount + (bs.map Bits.bitCount).sum := by
  induction bs generalizing acc with
  | nil => rfl
  | cons b bs ih =>
    rw [List.foldl_cons, ih, BitsOps.append_bitCount, List.map_cons, List.sum_cons, Nat.add_assoc]

theorem resultWidth_add (w : ℕ) : ResultWidth (binary addImpl) [w, w] w := by
  refine resultWidth_binary fun a b r ha _ hr => ?_
  unfold addImpl at hr
  simp only at hr
  split at hr
  · cases hr
  · cases hr
    exact ha

theorem resultWidth_sub (w : ℕ) : ResultWidth (binary subImpl) [w, w] w := by
  refine resultWidth_binary fun a b r ha _ hr => ?_
  unfold subImpl at hr
  split at hr
  · cases hr
    exact ha
  · cases hr

theorem resultWidth_umul (u v w : ℕ) : ResultWidth (binary (umulImpl w)) [u, v] w := by
  refine resultWidth_binary fun a b r _ _ hr => ?_
  unfold umulImpl at hr
  simp only at hr
  split at hr
  · rename_i hfits
    cases hr
    exact BitsOps.zeroExtend_bitCount (dropLeadingZeroes_bitCount_le hfits)
  · cases hr

theorem resultWidth_concat (widths : List ℕ) :
    ResultWidth (fun bs => some (BitsOps.concat bs)) widths widths.sum := by
  intro args r hargs hr
  cases hr
  rw [BitsOps.concat, foldl_append_bitCount, Bits.zero_bitCount, Nat.zero_add]
  induction hargs with
  | nil => rfl
  | cons hb _ ih => rw [List.map_cons, List.sum_cons, List.sum_cons, ih, hb]

/-! ## Comparisons and reductions -/

theorem exists_analyzeEq {lhs rhs : IntervalSet} (hl : lhs.isNormalized = true)
    (hr : rhs.isNormalized = true) (hw : rhs.bitCount = lhs.bitCount) :
    ∃ a, analyzeEq lhs rhs = some a := by
  obtain ⟨c, hc⟩ := IntervalSet.combine_isSome hw
  unfold analyzeEq
  simp only [hl, hr, Bool.and_self, ↓reduceIte, hc]
  split
  · exact ⟨_, rfl⟩
  split
  · exact ⟨_, rfl⟩
  · exact ⟨_, rfl⟩

theorem exists_analyzeLt {lhs rhs : IntervalSet} (hw : rhs.bitCount = lhs.bitCount) :
    ∃ a, analyzeLt lhs rhs = some a := by
  unfold analyzeLt
  split
  · simp only
    split_ifs <;> exact ⟨_, rfl⟩
  · exact ⟨_, rfl⟩

theorem delivers_storeAnalysis {analysis : Option (Option Bool)} (h : ∃ a, analysis = some a) :
    Delivers (.bits 1) (storeAnalysis (.bits 1) analysis) := by
  obtain ⟨_ | b, rfl⟩ := h
  · exact delivers_skip _
  · exact delivers_bool b

/-- The sets of two operands of one leaf type. -/
theorem twoOperands_leaf {type : Ty} (hl : Wellformed type lhs) (hr : Wellformed type rhs)
    (hleaf : type.isLeafType = true) :
    ∃ s t, twoOperands [lhs, rhs] = some (s, t) ∧ s.isNormalized = true ∧
      t.isNormalized = true ∧ t.bitCount = s.bitCount := by
  obtain ⟨s, -, hs, hsw, hsn⟩ := hl.leaf hleaf
  obtain ⟨t, -, ht, htw, htn⟩ := hr.leaf hleaf
  exact ⟨s, t, by simp [twoOperands, bitsOperands, hs, ht], hsn, htn, htw.trans hsw.symm⟩

theorem handleEquality_delivers (expected : Bool) {type : Ty} (hl : Wellformed type lhs)
    (hr : Wellformed type rhs) :
    Delivers (.bits 1) (handleEquality expected (.bits 1) [lhs, rhs]) := by
  unfold handleEquality
  simp only [hl.shaped.1]
  split
  · exact delivers_skip _
  · rename_i hbits
    have hleaf : type.isLeafType = true := by
      cases type <;> first | rfl | exact absurd rfl hbits
    obtain ⟨s, t, htwo, hs, ht, hw⟩ := twoOperands_leaf hl hr hleaf
    obtain ⟨a, ha⟩ := exists_analyzeEq hs ht hw
    simp only [htwo, ha]
    exact delivers_storeAnalysis ⟨_, rfl⟩

/-- An order comparison succeeds exactly on operands of a leaf type. -/
theorem handleCompare_delivers_iff {analyze : IntervalSet → IntervalSet → Option (Option Bool)}
    (hanalyze : ∀ s t : IntervalSet, s.isNormalized = true → t.isNormalized = true →
      t.bitCount = s.bitCount → ∃ a, analyze s t = some a) {type : Ty} (hl : Wellformed type lhs)
    (hr : Wellformed type rhs) :
    (type.isLeafType = true → Delivers (.bits 1) (handleCompare analyze (.bits 1) [lhs, rhs])) ∧
    (type.isLeafType = false → handleCompare analyze (.bits 1) [lhs, rhs] = none) := by
  constructor
  · intro hleaf
    obtain ⟨s, t, htwo, hs, ht, hw⟩ := twoOperands_leaf hl hr hleaf
    unfold handleCompare
    rw [htwo]
    exact delivers_storeAnalysis (hanalyze s t hs ht hw)
  · intro hleaf
    have hget : lhs.get [] = none := get_nil_of_not_leaf (by rw [hl.shaped.1, hleaf])
    simp [handleCompare, twoOperands, bitsOperands, hget]

theorem exists_orEqual {analysis equal : Option (Option Bool)} (h : ∃ a, analysis = some a)
    (h' : ∃ a, equal = some a) : ∃ a, orEqual analysis equal = some a := by
  obtain ⟨a, rfl⟩ := h
  obtain ⟨_ | _ | _, rfl⟩ := h'
  · exact ⟨a, rfl⟩
  · exact ⟨a, rfl⟩
  · exact ⟨some true, rfl⟩

theorem handleAndReduce_delivers (h : Stored (.bits w) tree) :
    Delivers (.bits 1) (handleAndReduce (.bits 1) [tree]) := by
  obtain ⟨s, -, hget, -⟩ := h.bits
  unfold handleAndReduce
  simp only [bitsOperands, hget]
  split
  · split_ifs
    · exact delivers_bool true
    · exact delivers_bool false
    · exact delivers_skip _
  · split_ifs
    · exact delivers_bool false
    · exact delivers_skip _

theorem handleOrReduce_delivers (h : Stored (.bits w) tree) :
    Delivers (.bits 1) (handleOrReduce (.bits 1) [tree]) := by
  obtain ⟨s, -, hget, -⟩ := h.bits
  unfold handleOrReduce
  simp only [bitsOperands, hget]
  split
  · split_ifs
    · exact delivers_bool false
    · exact delivers_bool true
    · exact delivers_skip _
  · split_ifs
    · exact delivers_bool true
    · exact delivers_skip _

/-- The common parity is a single bit. -/
theorem bitCount_of_commonParity {l : List (Interval w)} {start : Option Bits} {output : Bits}
    (hstart : ∀ b ∈ start, b.bitCount = 1) (h : commonParity start l = some (some output)) :
    output.bitCount = 1 := by
  induction l generalizing start with
  | nil =>
    cases h
    exact hstart output rfl
  | cons i rest ih =>
    have hreduced : ∀ b ∈ some (BitsOps.xorReduce i.lowerBound), b.bitCount = 1 := by
      rintro b ⟨⟩
      rfl
    rw [commonParity] at h
    split at h
    · cases h
    simp only at h
    split at h
    · split at h
      · cases h
      · exact ih hreduced h
    · exact ih hreduced h

theorem handleXorReduce_delivers (h : Stored (.bits w) tree) :
    Delivers (.bits 1) (handleXorReduce (.bits 1) [tree]) := by
  obtain ⟨s, -, hget, hs⟩ := h.bits
  unfold handleXorReduce
  simp only [bitsOperands, hget, hs.normalized, ↓reduceIte]
  split
  · rename_i output houtput
    have hone := bitCount_of_commonParity (by simp) houtput
    have hset := storedSet_precise output
    rw [hone] at hset
    exact delivers_storeLeaf hset
  · exact delivers_skip _

end Range

end Xls
