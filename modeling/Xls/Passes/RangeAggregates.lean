/-
# Soundness of selects, gates, tuples and arrays

These handlers work on whole trees.  A tree combined from several covers what any of
them covers; a select reads its selector set to find the cases which are possible,
and an array index reads its index sets to find the elements.
-/
import Xls.Passes.RangeHandlers

namespace Xls

namespace Range

/-- A tree covers the leaves of a value. -/
def TreeCovers (tree : IntervalSetTree) (leaves : List Bits) : Prop :=
  List.Forall₂ IntervalSet.Covers tree.elements leaves

/-- Everything the first tree covers, the second covers. -/
def TreeLe (t u : IntervalSetTree) : Prop := ∀ leaves, TreeCovers t leaves → TreeCovers u leaves

/-! ## Combining trees -/

theorem forall₂_combine_left {as bs cs : List IntervalSet} {leaves : List Bits}
    (h : LeafTypeTree.zipElements IntervalSet.combine as bs = some cs)
    (ha : List.Forall₂ IntervalSet.Covers as leaves) : List.Forall₂ IntervalSet.Covers cs leaves := by
  have hlen := (LeafTypeTree.zipElements_eq_some h).2
  have htrue : List.Forall₂ (fun (_ : IntervalSet) (_ : Bits) => True) bs leaves := by
    rw [List.forall₂_iff_get]
    exact ⟨by rw [← hlen, ha.length_eq], fun _ _ _ => trivial⟩
  exact LeafTypeTree.forall₂_zipElements (P := IntervalSet.Covers) (R := IntervalSet.Covers)
    (fun hc hp _ => ((IntervalSet.combine_eq_some hc).2.2.2 _).mpr (.inl hp)) h ha htrue

theorem forall₂_combine_right {as bs cs : List IntervalSet} {leaves : List Bits}
    (h : LeafTypeTree.zipElements IntervalSet.combine as bs = some cs)
    (hb : List.Forall₂ IntervalSet.Covers bs leaves) : List.Forall₂ IntervalSet.Covers cs leaves := by
  have hlen := (LeafTypeTree.zipElements_eq_some h).2
  have htrue : List.Forall₂ (fun (_ : IntervalSet) (_ : Bits) => True) as leaves := by
    rw [List.forall₂_iff_get]
    exact ⟨by rw [hlen, hb.length_eq], fun _ _ _ => trivial⟩
  exact LeafTypeTree.forall₂_zipElements (Q := IntervalSet.Covers) (R := IntervalSet.Covers)
    (fun hc _ hq => ((IntervalSet.combine_eq_some hc).2.2.2 _).mpr (.inr hq)) h htrue hb

/-- The combination of two trees covers what either covers. -/
theorem combineTrees_le {t u c : IntervalSetTree} (h : combineTrees t u = some c) :
    TreeLe t c ∧ TreeLe u c := by
  obtain ⟨-, -, hz⟩ := LeafTypeTree.zip_eq_some h
  exact ⟨fun _ => forall₂_combine_left hz, fun _ => forall₂_combine_right hz⟩

theorem TreeLe.refl (t : IntervalSetTree) : TreeLe t t := fun _ h => h

theorem TreeLe.trans {t u v : IntervalSetTree} (h : TreeLe t u) (h' : TreeLe u v) : TreeLe t v :=
  fun leaves ht => h' leaves (h leaves ht)

variable {v : Value} {trees : List IntervalSetTree} {type : Ty} {operands : List Value}
  {tree : IntervalSetTree}

/-- The combined cases cover what was there and what each chosen case covers. -/
theorem combineCases_le {chosen : ℕ → Bool} :
    ∀ {i : ℕ} {result out : IntervalSetTree}, combineCases chosen i trees result = some out →
      TreeLe result out ∧
      ∀ k tree, trees[k]? = some tree → chosen (i + k) = true → TreeLe tree out := by
  induction trees with
  | nil =>
    intro i result out h
    cases h
    exact ⟨TreeLe.refl _, by simp⟩
  | cons a rest ih =>
    intro i result out h
    rw [combineCases] at h
    -- the later cases, counted from the next position
    have hlater : ∀ {result' : IntervalSetTree},
        combineCases chosen (i + 1) rest result' = some out →
        ∀ k tree, rest[k]? = some tree → chosen (i + (k + 1)) = true → TreeLe tree out := by
      intro result' hrest k tree hk hchosen
      refine (ih hrest).2 k tree hk ?_
      rwa [show i + 1 + k = i + (k + 1) by omega]
    split at h
    · split at h
      · rename_i hci result' hcomb
        obtain ⟨hle₁, hle₂⟩ := combineTrees_le hcomb
        refine ⟨hle₁.trans (ih h).1, ?_⟩
        intro k tree hk hchosen
        cases k with
        | zero =>
          simp only [List.getElem?_cons_zero, Option.some.injEq] at hk
          subst hk
          exact hle₂.trans (ih h).1
        | succ k => exact hlater h k tree hk hchosen
      · cases h
    · rename_i hci
      refine ⟨(ih h).1, ?_⟩
      intro k tree hk hchosen
      cases k with
      | zero => exact absurd hchosen hci
      | succ k => exact hlater h k tree hk hchosen

theorem minimizeTree_le (t : IntervalSetTree) : TreeLe t (minimizeTree t) := by
  intro leaves h
  unfold TreeCovers minimizeTree LeafTypeTree.map
  rw [List.forall₂_map_left_iff]
  exact h.imp fun s b hs => minimizeIntervals_Covers hs _

theorem combineDefault_le {possible : Bool} {default : Option IntervalSetTree}
    {result out : IntervalSetTree} (h : combineDefault possible default result = some out) :
    TreeLe result out ∧ ∀ tree, possible = true → default = some tree → TreeLe tree out := by
  unfold combineDefault at h
  split at h
  · obtain ⟨h1, h2⟩ := combineTrees_le h
    exact ⟨h1, fun t _ ht => by cases ht; exact h2⟩
  · rename_i hne
    cases h
    refine ⟨TreeLe.refl _, ?_⟩
    intro tree hp hd
    exact absurd hd (hne tree hp)

/-! ## Selects -/

/-- The state of the selector loop grows. -/
def SelectorLe (s t : Bool × List ℕ) : Prop := (s.1 = true → t.1 = true) ∧ s.2 ⊆ t.2

theorem SelectorLe.refl (s : Bool × List ℕ) : SelectorLe s s := ⟨id, List.Subset.refl _⟩

theorem SelectorLe.trans {s t u : Bool × List ℕ} (h : SelectorLe s t) (h' : SelectorLe t u) :
    SelectorLe s u := ⟨fun hs => h'.1 (h.1 hs), List.Subset.trans h.2 h'.2⟩

theorem selectorCallback_eq_some {numCases value : ℕ} {s t : Bool × List ℕ} {stop : Bool}
    (h : selectorCallback numCases s value = some (t, stop)) :
    SelectorLe s t ∧ (stop = true → numCases ≤ value ∧ t.1 = true) ∧
    (stop = false → value < numCases ∧ value ∈ t.2) := by
  unfold selectorCallback at h
  split_ifs at h with h1 h2
  · cases h
    exact ⟨⟨fun _ => rfl, List.Subset.refl _⟩, fun _ => ⟨h2, rfl⟩, fun h => by cases h⟩
  · cases h
    exact ⟨⟨id, List.subset_cons_self _ _⟩, fun h => (by cases h),
      fun _ => ⟨by omega, List.mem_cons_self⟩⟩

theorem selectorValues_le {w numCases : ℕ} {l : List (Interval w)} :
    ∀ {s t : Bool × List ℕ}, selectorValues numCases l s = some t → SelectorLe s t := by
  induction l with
  | nil =>
    intro s t h
    cases h
    exact SelectorLe.refl s
  | cons i rest ih =>
    intro s t h
    rw [selectorValues] at h
    split at h
    · rename_i s' stop hi
      exact (Visit.visit_rel SelectorLe.refl SelectorLe.trans
        (fun h => (selectorCallback_eq_some h).1) hi).trans (ih h)
    · cases h

/-- A covered selector value below the number of cases is found; a larger one makes
the default possible, although the loop leaves an interval at its first large value. -/
theorem selectorValues_spec {w numCases : ℕ} {l : List (Interval w)} (hl : ∀ i ∈ l, i.Proper)
    {x : ℕ} (hx : x < 2 ^ w) :
    ∀ {s t : Bool × List ℕ}, selectorValues numCases l s = some t → coversPoint l x = true →
      (x < numCases → x ∈ t.2) ∧ (numCases ≤ x → t.1 = true) := by
  induction l with
  | nil =>
    intro s t _ hcov
    cases hcov
  | cons i rest ih =>
    intro s t h hcov
    have hproper : i.Proper := hl i List.mem_cons_self
    rw [selectorValues] at h
    split at h
    · rename_i s' stop hi
      have hle : SelectorLe s' t := selectorValues_le h
      rw [coversPoint_cons, Bool.or_eq_true] at hcov
      obtain hcov | hcov := hcov
      · rw [Interval.covers_iff_of_proper hproper hx] at hcov
        obtain ⟨l₁, l₂, hsplit, hsmaller⟩ := Interval.elements_split hproper hcov.1 hcov.2
        unfold Interval.forEachElement at hi
        rw [hsplit] at hi
        obtain ⟨b, hb, u, -, hcb, -⟩ | ⟨u, u', halt, -, hcb, hu', -⟩ :=
          Visit.visit_split SelectorLe.refl SelectorLe.trans
            (fun h => (selectorCallback_eq_some h).1) hi
        · -- the loop stopped before `x`
          obtain ⟨hbig, hdef⟩ := (selectorCallback_eq_some hcb).2.1 rfl
          have := hsmaller b hb
          exact ⟨fun hlt => by omega, fun _ => hle.1 hdef⟩
        · obtain ⟨-, hstop, hgo⟩ := selectorCallback_eq_some hcb
          cases halt with
          | true =>
            obtain ⟨hbig, hdef⟩ := hstop rfl
            exact ⟨fun hlt => by omega, fun _ => hle.1 (hu'.1 hdef)⟩
          | false =>
            obtain ⟨hlt, hmem⟩ := hgo rfl
            exact ⟨fun _ => hle.2 (hu'.2 hmem), fun hge => by omega⟩
      · exact ih (fun j hj => hl j (List.mem_cons_of_mem _ hj)) h hcov
    · cases h

/-- The arms of a select and their trees. -/
theorem forall₂_selectArms (hasDefault : Bool) {arms : List Value}
    (h : List.Forall₂ Tracks trees arms) :
    List.Forall₂ Tracks (selectArmTrees hasDefault trees).1
      (Interpreter.selectArms hasDefault arms).1 ∧
    ∀ v, (Interpreter.selectArms hasDefault arms).2 = some v →
      ∃ tree, (selectArmTrees hasDefault trees).2 = some tree ∧ Tracks tree v := by
  unfold selectArmTrees Interpreter.selectArms
  cases hasDefault with
  | false => exact ⟨h, fun v hv => by cases hv⟩
  | true =>
    induction h with
    | nil => exact ⟨.nil, fun v hv => by cases hv⟩
    | @cons t a ts as hta hrest ih =>
      cases hrest with
      | nil => exact ⟨.nil, fun v hv => by cases hv; exact ⟨t, rfl, hta⟩⟩
      | cons h1 h2 =>
        refine ⟨.cons hta ih.1, ?_⟩
        intro v hv
        obtain ⟨tree, htree, htr⟩ := ih.2 v hv
        exact ⟨tree, by exact htree, htr⟩

theorem forall₂_getElem? {α β : Type} {R : α → β → Prop} {as : List α} {bs : List β}
    (h : List.Forall₂ R as bs) {i : ℕ} {b : β} (hb : bs[i]? = some b) :
    ∃ a, as[i]? = some a ∧ R a b := by
  induction h generalizing i with
  | nil => simp at hb
  | cons hab _ ih =>
    cases i with
    | zero =>
      simp only [List.getElem?_cons_zero, Option.some.injEq] at hb
      subst hb
      exact ⟨_, rfl, hab⟩
    | succ i => exact ih hb

variable (ht : List.Forall₂ Tracks trees operands)

include ht in
theorem handleSel_holds {hasDefault : Bool} (hv : Interpreter.sel hasDefault operands = some v)
    (h : handleSel hasDefault type trees = some (some tree)) : TreeCovers tree v.leaves := by
  unfold Interpreter.sel at hv
  split at hv
  · rename_i selector arms
    cases ht with
    | @cons st _ armTrees _ hsel harms =>
    unfold handleSel at h
    simp only at h
    split at h
    · cases h
    · rename_i s hs
      have hset := hsel.get hs rfl
      obtain ⟨hcases, hdefault⟩ := forall₂_selectArms hasDefault harms
      rw [if_pos hset.2] at h
      split at h
      · cases h
      · rename_i possible values hvalues
        split at h
        · cases h
        · rename_i result hresult
          split at h
          · cases h
          · rename_i out hout
            cases h
            obtain ⟨hfound, hbeyond⟩ := selectorValues_spec
              (fun i hi => (s.normal hset.2).proper hi) hset.1.lt hvalues hset.1.2
            obtain ⟨hle, hdef⟩ := combineDefault_le hout
            simp only at hv
            split at hv
            · cases hv
            · rename_i c cs hcs
              split at hv
              · cases hv
              · rename_i lastCase hlast
                obtain ⟨-, hlastNat⟩ := Bits.uBits_eq_some hlast
                have hlen := hcases.length_eq
                split at hv
                · -- the default
                  rename_i hgt
                  obtain ⟨dt, hdt, hdtr⟩ := hdefault v hv
                  have hbig : (selectArmTrees hasDefault armTrees).1.length ≤ selector.toNat := by
                    simp only [BitsOps.uLessThan, decide_eq_true_eq, hlastNat] at hgt
                    rw [hlen]
                    rw [hcs] at hgt ⊢
                    omega
                  exact minimizeTree_le _ _ (hdef dt (hbeyond hbig) hdt _ hdtr.covers)
                · obtain ⟨ct, hct, hctr⟩ := forall₂_getElem? hcases hv
                  have hlt : selector.toNat < (selectArmTrees hasDefault armTrees).1.length :=
                    (List.getElem?_eq_some_iff.mp hct).1
                  have hchosen := (combineCases_le hresult).2 selector.toNat ct hct
                    (by simpa using hfound hlt)
                  exact minimizeTree_le _ _ (hle _ (hchosen _ hctr.covers))
  · cases hv

/-! ## Gates -/

theorem addZeros_covers (leaves : List Bits) {types : List Ty} {sets out : List IntervalSet}
    (h : addZeros types sets = some out) :
    (List.Forall₂ IntervalSet.Covers sets leaves → List.Forall₂ IntervalSet.Covers out leaves) ∧
    List.Forall₂ (fun s b => s.covers b.toNat = true) out
      (types.map fun t => Bits.zero t.flatBitCount) := by
  induction types generalizing sets out leaves with
  | nil =>
    cases sets with
    | nil =>
      cases h
      exact ⟨id, .nil⟩
    | cons s ss => cases h
  | cons t ts ih =>
    cases sets with
    | nil => cases h
    | cons s ss =>
      rw [addZeros] at h
      split at h
      · rename_i rest ht hrest
        cases h
        refine ⟨?_, .cons ?_ (ih [] hrest).2⟩
        · intro hcov
          cases hcov with
          | cons hs hss =>
            refine .cons ?_ ((ih _ hrest).1 hss)
            rw [IntervalSet.normalize_Covers, IntervalSet.addInterval_Covers]
            exact .inl hs
        · show IntervalSet.covers _ 0 = true
          rw [IntervalSet.normalize_covers _ (Nat.two_pow_pos _)]
          refine coversPoint_of_mem (List.mem_append_right _ (List.mem_singleton_self _)) ?_
          exact Interval.covers_of_between le_rfl le_rfl
      · cases h

include ht in
theorem handleGate_holds (htypes : trees.map LeafTypeTree.type = [.bits 1, type])
    (hv : Interpreter.gate type operands = some v) (h : handleGate type trees = some (some tree)) :
    HoldsPoints tree v.leaves := by
  unfold Interpreter.gate at hv
  split at hv
  · rename_i condition data
    cases ht with
    | @cons ct _ _ _ hct hrest =>
    cases hrest with
    | @cons dt _ _ _ hdt hnil =>
    cases hnil
    simp only [List.map_cons, List.map_nil, List.cons.injEq, and_true] at htypes
    obtain ⟨hct1, hdtt⟩ := htypes
    have hwidth : condition.bitCount = 1 := by
      have hconf := hct.conforms
      rw [hct1] at hconf
      simpa [Value.conformsToType] using hconf
    unfold handleGate at h
    simp only at h
    split at h
    · cases h
    · rename_i s hs
      have hset := hct.get hs rfl
      split at h
      · cases h
      · rename_i coversOne hone
        obtain ⟨one, hbits, rfl⟩ := Option.map_eq_some_iff.mp hone
        obtain ⟨-, hone1⟩ := Bits.uBits_eq_some hbits
        rw [hone1] at h
        have hlt := condition.isLt
        rw [hwidth] at hlt
        split at hv
        · -- a true condition passes the data
          rename_i hc1
          cases hv
          have hcov1 : s.covers 1 = true := by
            have hc : condition.toNat = 1 := by simpa [Bits.isOne] using hc1
            rw [← hc]
            exact hset.1.2
          split at h
          · split at h
            · rename_i elements helems
              obtain ⟨t, htree, hsome⟩ := Option.map_eq_some_iff.mp h
              cases hsome
              refine HoldsPoints.of_covers ?_
              rw [(LeafTypeTree.ofElements_eq_some htree).2]
              exact (addZeros_covers _ helems).1 hdt.covers
            · cases h
          · cases h
            exact HoldsPoints.of_covers hdt.covers
        · rename_i hc1
          cases hv
          have hc0 : condition.toNat = 0 := by
            have : condition.toNat ≠ 1 := by simpa [Bits.isOne] using hc1
            omega
          have hcov0 : s.covers 0 = true := by
            rw [← hc0]
            exact hset.1.2
          rw [hcov0, if_pos rfl] at h
          split at h
          · rename_i elements helems
            obtain ⟨t, htree, hsome⟩ := Option.map_eq_some_iff.mp h
            cases hsome
            obtain ⟨-, helem⟩ := LeafTypeTree.ofElements_eq_some htree
            have hzeros := (addZeros_covers [] helems).2
            have htype :
                (if s.covers 1 = true then dt else emptyIntervalSetTree type).type = type := by
              split
              · exact hdtt
              · rfl
            rw [htype] at hzeros
            unfold HoldsPoints
            rw [helem, Value.leaves_zeroOfType]
            exact hzeros
          · cases h
  · cases hv

/-! ## Literals, tuples and arrays -/

theorem handleLiteral_holds {value : Value} (h : handleLiteral value type = some (some tree)) :
    TreeCovers tree value.leaves := by
  unfold handleLiteral at h
  split at h
  · obtain ⟨t, htree, ht⟩ := Option.map_eq_some_iff.mp h
    cases ht
    unfold TreeCovers
    rw [(LeafTypeTree.ofElements_eq_some htree).2, List.forall₂_map_left_iff, List.forall₂_same]
    intro b _
    exact IntervalSet.precise_Covers b
  · cases h

/-- The members of a tuple or an array in a row. -/
theorem forall₂_flatMap (h : List.Forall₂ Tracks trees operands) :
    List.Forall₂ IntervalSet.Covers (trees.flatMap LeafTypeTree.elements)
      (Value.leavesList operands) := by
  induction h with
  | nil => exact .nil
  | cons ht _ ih =>
    exact List.rel_append ht.covers ih

include ht in
theorem handleMembers_holds (h : handleMembers type trees = some (some tree)) :
    TreeCovers tree (Value.leavesList operands) := by
  obtain ⟨t, htree, hsome⟩ := Option.map_eq_some_iff.mp h
  cases hsome
  unfold TreeCovers
  rw [(LeafTypeTree.ofMembers_eq_some htree).2]
  exact forall₂_flatMap ht

/-- A subtree tracks the element at its index. -/
theorem copySubtree_tracks {sub : IntervalSetTree} {u : Value} {path : List ℕ} (h : Tracks tree v)
    (hsub : tree.copySubtree path = some sub) (hu : v.index path = some u) : Tracks sub u := by
  unfold LeafTypeTree.copySubtree at hsub
  split at hsub
  · rename_i t offset ht
    obtain ⟨hconf, front, back, hleaves, hoff⟩ := Value.leaves_index h.conforms hu ht
    obtain ⟨htype, helem⟩ := LeafTypeTree.ofElements_eq_some hsub
    refine ⟨?_, ?_, ?_⟩
    · have hcov := h.covers
      rw [helem]
      have hdrop := List.forall₂_take t.leafCount (List.forall₂_drop offset hcov)
      rw [hleaves, List.append_assoc, ← hoff, Nat.zero_add, List.drop_left,
        List.take_left' (Value.length_leaves hconf)] at hdrop
      rw [← hoff, Nat.zero_add]
      exact hdrop
    · intro s hs
      rw [helem] at hs
      exact h.normalized s (List.mem_of_mem_drop (List.mem_of_mem_take hs))
    · rw [htype]
      exact hconf
  · cases hsub

include ht in
theorem handleTupleIndex_holds {index : ℕ} (hv : Interpreter.tupleIndex index operands = some v)
    (h : handleTupleIndex index trees = some (some tree)) : TreeCovers tree v.leaves := by
  unfold Interpreter.tupleIndex at hv
  split at hv
  · cases ht with
    | @cons t _ _ _ hta hnil =>
    cases hnil
    obtain ⟨sub, hsub, hsome⟩ := Option.map_eq_some_iff.mp h
    cases hsome
    refine (copySubtree_tracks hta hsub ?_).covers
    simp only [Value.elements, hv, Value.index]
  · cases hv

/-- The element trees of an array tree track the elements. -/
theorem arrayElements_tracks {vs : List Value} (h : Tracks tree (.array vs)) :
    ∀ {count : ℕ} {elements : List IntervalSetTree}, count ≤ vs.length →
      arrayElements tree count = some elements → List.Forall₂ Tracks elements (vs.take count) := by
  intro count
  induction count with
  | zero =>
    intro elements _ helems
    cases helems
    exact .nil
  | succ count ih =>
    intro elements hle helems
    rw [arrayElements] at helems
    split at helems
    · rename_i front last hfront hlast
      cases helems
      have hget : vs[count]? = some (vs.get ⟨count, by omega⟩) := by simp
      rw [List.take_add_one, hget]
      refine List.rel_append (ih (by omega) hfront) (.cons ?_ .nil)
      refine copySubtree_tracks h hlast ?_
      simp only [Value.elements, hget, Value.index]
    · cases helems

theorem concatTrees_tracks (h : List.Forall₂ Tracks trees operands) :
    ∀ {elements : List IntervalSetTree} {vs : List Value}, concatTrees trees = some elements →
      Interpreter.concatElements operands = some vs → List.Forall₂ Tracks elements vs := by
  induction h with
  | nil =>
    intro elements vs h1 h2
    cases h1
    cases h2
    exact .nil
  | @cons t v ts rest ht _ ih =>
    intro elements vs h1 h2
    cases v with
    | bits b => cases h2
    | token => cases h2
    | tuple us => cases h2
    | array us =>
      rw [Interpreter.concatElements] at h2
      split at h2
      · rename_i others hothers
        cases h2
        rw [concatTrees] at h1
        split at h1
        · rename_i size elemType htype
          split at h1
          · rename_i front back hfront hback
            cases h1
            have hconf := ht.conforms
            rw [htype, Value.conformsToType, Bool.and_eq_true, beq_iff_eq] at hconf
            have hfirst := arrayElements_tracks ht (by omega) hfront
            rw [← hconf.1, List.take_length] at hfirst
            exact List.rel_append hfirst (ih hback hothers)
          · cases h1
        · cases h1
      · cases h2

include ht in
theorem handleArrayConcat_holds (hv : Interpreter.arrayConcat operands = some v)
    (h : handleArrayConcat type trees = some (some tree)) : TreeCovers tree v.leaves := by
  unfold Interpreter.arrayConcat at hv
  split at hv
  · rename_i vs hvs
    unfold Interpreter.mkArray at hv
    split at hv
    · cases hv
    · cases hv
      unfold handleArrayConcat at h
      split at h
      · rename_i elements helems
        exact handleMembers_holds (concatTrees_tracks ht helems hvs) h
      · cases h
  · cases hv

/-! ## Array indices -/

/-- A bounded index is the lesser of the index and the bound. -/
theorem bitsToBoundedUint64_eq (b : Bits) (limit : ℕ) :
    Interpreter.bitsToBoundedUint64 b limit = min b.toNat limit := by
  have hlt := b.isLt
  unfold Interpreter.bitsToBoundedUint64
  simp only [Bits.minBitCountUnsigned_le_iff]
  split <;> omega

/-- The position an index selects is covered by the set of the index. -/
theorem intervalsCoverIndex_of_tracks {s : IntervalSet} {b : Bits} (h : SetTracks s b) {dim : ℕ}
    (hdim : 0 < dim) : intervalsCoverIndex s (min b.toNat (dim - 1)) dim = true := by
  have hlt := h.1.lt
  have hfits : ¬ Bits.minBitCountUnsigned (min b.toNat (dim - 1)) > s.bitCount := by
    rw [not_lt, Bits.minBitCountUnsigned_le_iff]
    omega
  unfold intervalsCoverIndex
  rw [if_neg hfits]
  split
  · rfl
  · -- the index lies beyond the array, so the set reaches beyond it too
    rename_i hncov
    have hbig : dim ≤ b.toNat := by
      by_contra hsmall
      rw [show min b.toNat (dim - 1) = b.toNat by omega] at hncov
      exact hncov h.1.2
    obtain ⟨ub, hub, hle⟩ := IntervalSet.upperBound_of_Covers h.2 h.1
    rw [hub]
    simp only [Bool.and_eq_true, decide_eq_true_eq]
    omega

/-- The positions an array index selects: in range, possible, and leading to the
result. -/
theorem arrayIndexFrom_spec {indices : List Bits} :
    ∀ {v u : Value} {t : Ty} {dimension : List ℕ} {sets : List IntervalSet},
      v.conformsToType t = true → Interpreter.arrayIndexFrom v indices = some u →
      indexDimensions t indices.length = some dimension →
      List.Forall₂ SetTracks sets indices →
      ∃ path, List.Forall₂ (· < ·) path dimension ∧ v.index path = some u ∧
        allCoverIndex sets path dimension = true := by
  induction indices with
  | nil =>
    intro v u t dimension sets _ hu hdim hsets
    cases hsets
    rw [List.length_nil, indexDimensions] at hdim
    cases hu
    cases hdim
    exact ⟨[], .nil, rfl, rfl⟩
  | cons i indices ih =>
    intro v u t dimension sets hconf hu hdim hsets
    cases hsets with
    | @cons s _ ss _ hs hss =>
    cases v with
    | bits b => cases hu
    | token => cases hu
    | tuple vs => cases hu
    | array vs =>
      rw [Interpreter.arrayIndexFrom, bitsToBoundedUint64_eq] at hu
      split at hu
      · rename_i a ha
        cases t with
        | bits n => cases hconf
        | token => cases hconf
        | tuple ts => cases hconf
        | array n t' =>
          rw [Value.conformsToType, Bool.and_eq_true, beq_iff_eq] at hconf
          obtain ⟨hlen, hall⟩ := hconf
          obtain ⟨haconf, -⟩ := Value.conformToType_getElem? hall ha
          obtain ⟨rest, hrest, rfl⟩ := Option.map_eq_some_iff.mp hdim
          obtain ⟨path, hpath, hidx, hcover⟩ := ih haconf hu hrest hss
          have hpos := (List.getElem?_eq_some_iff.mp ha).1
          refine ⟨min i.toNat (vs.length - 1) :: path, .cons (by omega) hpath, ?_, ?_⟩
          · rw [Value.index.eq_def]
            simp only [Value.elements, ha]
            exact hidx
          · rw [allCoverIndex, Bool.and_eq_true]
            refine ⟨?_, hcover⟩
            rw [hlen]
            exact intervalsCoverIndex_of_tracks hs (by omega)
      · cases hu

theorem arrayIndexCallback_eq_some {array : IntervalSetTree} {sets : List IntervalSet}
    {dimension indexes : List ℕ} {result out : IntervalSetTree} {stop : Bool}
    (h : arrayIndexCallback array sets dimension result indexes = some (out, stop)) :
    TreeLe result out ∧ stop = false ∧
    (allCoverIndex sets indexes dimension = true →
      ∃ sub, array.copySubtree indexes = some sub ∧ TreeLe sub out) := by
  unfold arrayIndexCallback at h
  split at h
  · split at h
    · rename_i sub hsub
      split at h
      · rename_i out' hcomb
        cases h
        obtain ⟨h1, h2⟩ := combineTrees_le hcomb
        exact ⟨h1, rfl, fun _ => ⟨sub, hsub, h2⟩⟩
      · cases h
    · cases h
  · rename_i hno
    cases h
    exact ⟨TreeLe.refl _, rfl, fun hyes => absurd hyes hno⟩

include ht in
theorem handleArrayIndex_holds (hv : Interpreter.arrayIndex operands = some v)
    (h : handleArrayIndex type trees = some (some tree)) : TreeCovers tree v.leaves := by
  unfold Interpreter.arrayIndex at hv
  split at hv
  · split at hv
    · rename_i is his
      cases ht with
      | @cons at' _ indexTrees _ hat hindices =>
      unfold handleArrayIndex at h
      simp only at h
      split at h
      · -- no index: the array itself
        rename_i hempty
        cases h
        have hnil : indexTrees = [] := by simpa using hempty
        subst hnil
        cases hindices
        cases his
        cases hv
        exact hat.covers
      · split at h
        · rename_i dimension sets hdim hsets
          split at h
          · rename_i result stop hiter
            cases h
            have htracks := bitsOperands_tracks hindices hsets his
            have hlen : indexTrees.length = is.length := by
              rw [← htracks.length_eq]
              exact (length_bitsOperands hsets).symm
            rw [hlen] at hdim
            obtain ⟨path, hpath, hidx, hcover⟩ := arrayIndexFrom_spec hat.conforms hv hdim htracks
            rw [mixedRadixIterate_eq_visit] at hiter
            obtain ⟨l₁, l₂, hsplit⟩ := List.append_of_mem (mem_mixedRadixNumbers hpath)
            rw [hsplit] at hiter
            obtain ⟨_, -, _, -, hcb, -⟩ | ⟨t, u, halt, -, hcb, hle, -⟩ :=
              Visit.visit_split TreeLe.refl TreeLe.trans
                (fun h => (arrayIndexCallback_eq_some h).1) hiter
            · cases (arrayIndexCallback_eq_some hcb).2.1
            · obtain ⟨sub, hsub, hsuble⟩ := (arrayIndexCallback_eq_some hcb).2.2 hcover
              exact hle _ (hsuble _ (copySubtree_tracks hat hsub hidx).covers)
          · cases h
        · cases h
    · cases hv
  · cases hv

end Range

end Xls
