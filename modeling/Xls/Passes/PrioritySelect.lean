/-
# Range analysis of priority selects

`HandlePrioritySel` asks the selector set, for each case, whether the bit of the case
can be set, and combines the cases for which the answer is yes.  The question is put
through `IsTrueWhenMaskWith`, which only looks at the span of each interval: the
analysis is sound exactly when each bit below the span of an interval with more than
one point lies in the span of some interval of the set.
-/
import Xls.Passes.RangeAggregates

namespace Xls

namespace Range

/-! ## The case masks -/

/-- The mask of a case has the bit of the case, and no other. -/
theorem caseMask_spec {numCases i : ℕ} (hi : i < numCases) :
    ∃ mask, caseMask numCases i = some mask ∧ mask.bitCount = numCases ∧
      ∀ p, mask.get p = true ↔ p = i := by
  have hone : 1 < 2 ^ numCases := Nat.one_lt_two_pow (by omega)
  have hpow : 2 ^ i < 2 ^ numCases := Nat.pow_lt_pow_right (by norm_num) hi
  have hslice : 1 % 2 ^ (numCases - i) = 1 := Nat.mod_eq_of_lt (Nat.one_lt_two_pow (by omega))
  have hmin : min i numCases = i := min_eq_left hi.le
  refine ⟨BitsOps.shiftLeftLogical ⟨numCases, 1, hone⟩ i, ?_, ?_, ?_⟩
  · unfold caseMask Bits.uBits
    rw [dif_pos hone]
    rfl
  · unfold BitsOps.shiftLeftLogical
    simp only [BitsOps.append_bitCount, BitsOps.slice_bitCount, Bits.zero_bitCount]
    omega
  · intro p
    have hval : (BitsOps.shiftLeftLogical ⟨numCases, 1, hone⟩ i).toNat = 2 ^ i := by
      unfold BitsOps.shiftLeftLogical
      simp [BitsOps.append, BitsOps.slice, hmin, hslice, Nat.sub_add_cancel hi.le,
        Nat.mod_eq_of_lt hpow]
    rw [Bits.get, hval, Nat.testBit_two_pow, decide_eq_true_eq]
    exact eq_comm

variable {s : IntervalSet} {type : Ty}

/-- The answers of the mask query, case by case. -/
theorem possibleCases_spec {numCases : ℕ} (hs : s.bitCount = numCases) :
    ∀ {count : ℕ}, count ≤ numCases → ∃ answers, possibleCases s numCases count = some answers ∧
      answers.length = count ∧
      ∀ i < count, answers[i]? = some true ↔ ∃ j ∈ s.intervals, j.Spans i := by
  intro count
  induction count with
  | zero => exact fun _ => ⟨[], rfl, rfl, by simp⟩
  | succ count ih =>
    intro hle
    obtain ⟨answers, hanswers, hlen, hspec⟩ := ih (by omega)
    obtain ⟨mask, hmask, hwidth, hbits⟩ := caseMask_spec (show count < numCases by omega)
    have hquery : s.isTrueWhenMaskWith mask =
        some (s.intervals.any fun i => i.isTrueWhenAndWith mask) := by
      unfold IntervalSet.isTrueWhenMaskWith
      rw [if_pos (by rw [hwidth, hs])]
    have hlast : s.isTrueWhenMaskWith mask = some true ↔ ∃ j ∈ s.intervals, j.Spans count := by
      rw [IntervalSet.isTrueWhenMaskWith_iff (by rw [hwidth, hs])]
      simp only [hbits, exists_eq_right]
    rw [hquery] at hlast
    refine ⟨answers ++ [s.intervals.any fun i => i.isTrueWhenAndWith mask], ?_, ?_, ?_⟩
    · rw [possibleCases, hanswers, hmask]
      simp only [hquery]
    · rw [List.length_append, hlen, List.length_singleton]
    · intro i hi
      by_cases hcount : i < count
      · rw [List.getElem?_append_left (by omega)]
        exact hspec i hcount
      · have : i = count := by omega
        subst this
        rw [← hlen, List.getElem?_concat_length, hlen]
        exact hlast

/-! ## The trees which are combined -/

/-- A tree of the given type, with a set of the right width at each leaf. -/
def Shaped (type : Ty) (tree : IntervalSetTree) : Prop :=
  tree.type = type ∧
    List.Forall₂ (fun (s : IntervalSet) (t : Ty) => s.bitCount = t.flatBitCount) tree.elements
      type.leafTypes

theorem Shaped.ofLeafTypes {f : Ty → IntervalSet} (hf : ∀ t, (f t).bitCount = t.flatBitCount) :
    Shaped type (LeafTypeTree.ofLeafTypes type f) := by
  refine ⟨rfl, ?_⟩
  show List.Forall₂ _ (type.leafTypes.map f) type.leafTypes
  rw [List.forall₂_map_left_iff, List.forall₂_same]
  exact fun t _ => hf t

theorem Tracks.shaped {tree : IntervalSetTree} {v : Value} (h : Tracks tree v) :
    Shaped tree.type tree := by
  refine ⟨rfl, ?_⟩
  have hwidths := Value.forall₂_leaves v tree.type h.conforms
  have hcov := h.covers
  revert hwidths hcov
  generalize tree.type.leafTypes = types
  generalize tree.elements = sets
  generalize v.leaves = leaves
  intro hwidths hcov
  induction hcov generalizing types with
  | nil =>
    cases hwidths
    exact .nil
  | cons hc _ ih =>
    cases hwidths with
    | cons hw hws => exact .cons (hc.1.symm.trans hw) (ih _ hws)

/-- Trees of one shape can be combined, and the result has that shape. -/
theorem combineTrees_shaped {t u : IntervalSetTree} (ht : Shaped type t) (hu : Shaped type u) :
    ∃ c, combineTrees t u = some c ∧ Shaped type c := by
  obtain ⟨httype, htwidths⟩ := ht
  obtain ⟨hutype, huwidths⟩ := hu
  have hzip : ∀ {as bs : List IntervalSet} {types : List Ty},
      List.Forall₂ (fun s t => s.bitCount = t.flatBitCount) as types →
      List.Forall₂ (fun s t => s.bitCount = t.flatBitCount) bs types →
      ∃ cs, LeafTypeTree.zipElements IntervalSet.combine as bs = some cs ∧
        List.Forall₂ (fun s t => s.bitCount = t.flatBitCount) cs types := by
    intro as bs types ha
    induction ha generalizing bs with
    | nil =>
      intro hb
      cases hb
      exact ⟨[], rfl, .nil⟩
    | @cons a t as types hat _ ih =>
      intro hb
      cases hb with
      | @cons b _ bs _ hbt hbs =>
      obtain ⟨cs, hcs, hwidths⟩ := ih hbs
      obtain ⟨c, hc⟩ := IntervalSet.combine_isSome (hbt.trans hat.symm)
      refine ⟨c :: cs, ?_, .cons ?_ hwidths⟩
      · rw [LeafTypeTree.zipElements, hc, hcs]
      · exact (IntervalSet.combine_eq_some hc).2.1.trans hat
  obtain ⟨cs, hcs, hwidths⟩ := hzip htwidths huwidths
  have hlen : cs.length = type.leafCount := by
    rw [hwidths.length_eq, Ty.length_leafTypes]
  refine ⟨⟨type, cs, hlen⟩, ?_, rfl, hwidths⟩
  unfold combineTrees LeafTypeTree.zip LeafTypeTree.ofElements
  rw [if_pos (httype.trans hutype.symm), hcs, httype]
  exact dif_pos hlen

theorem combineCases_shaped (chosen : ℕ → Bool) {trees : List IntervalSetTree}
    (htrees : ∀ t ∈ trees, Shaped type t) :
    ∀ {i : ℕ} {result : IntervalSetTree}, Shaped type result →
      ∃ out, combineCases chosen i trees result = some out ∧ Shaped type out := by
  induction trees with
  | nil => exact fun {i result} h => ⟨result, rfl, h⟩
  | cons t rest ih =>
    intro i result hresult
    have hrest : ∀ u ∈ rest, Shaped type u := fun u hu => htrees u (List.mem_cons_of_mem _ hu)
    obtain ⟨c, hc, hshape⟩ := combineTrees_shaped hresult (htrees t List.mem_cons_self)
    rw [combineCases]
    split
    · rw [hc]
      exact ih hrest hshape
    · exact ih hrest hresult

/-! ## Soundness under the condition -/

/-- The result computed for a priority select covers, for all cases and all case values
which they track, the value chosen by each selector which the set covers. -/
def PrioritySelectCovers (s : IntervalSet) : Prop :=
  ∀ (type : Ty) (selector : IntervalSetTree) (cases : List IntervalSetTree)
    (caseValues : List Value) (x : Bits) (v : Value),
    selector.get [] = some s → s.Covers x → cases.length = s.bitCount →
    (∀ t ∈ cases, t.type = type) → List.Forall₂ Tracks cases caseValues →
    Interpreter.prioritySel type (.bits x :: caseValues) = some v →
    ∃ tree, handlePrioritySel type (selector :: cases) = some (some tree) ∧
      TreeCovers tree v.leaves

/-- Each bit below the span of an interval with more than one point lies in the span of
some interval. -/
def LowBitsSpanned (s : IntervalSet) : Prop :=
  ∀ i ∈ s.intervals, i.lower < i.upper → ∀ p < i.rightIndex, ∃ j ∈ s.intervals, j.Spans p

instance (s : IntervalSet) : Decidable (LowBitsSpanned s) :=
  inferInstanceAs (Decidable (∀ i ∈ s.intervals, i.lower < i.upper → ∀ p < i.rightIndex,
    ∃ j ∈ s.intervals, j.Spans p))

/-- The handler succeeds on cases of one shape; its result is the minimized combination
of the all-zero default and the cases in whose position some interval spans. -/
theorem handlePrioritySel_eq {selector : IntervalSetTree} {cases : List IntervalSetTree}
    (hs : selector.get [] = some s) (hlen : cases.length = s.bitCount)
    (hcases : ∀ t ∈ cases, Shaped type t) :
    ∃ result out answers,
      combineDefault (s.covers 0) (some (allZeroDefault type)) (emptyIntervalSetTree type) =
        some result ∧
      combineCases (fun i => List.getD answers i false) 0 cases result = some out ∧
      (∀ i < cases.length, List.getD answers i false = true ↔ ∃ j ∈ s.intervals, j.Spans i) ∧
      handlePrioritySel type (selector :: cases) = some (some (minimizeTree out)) := by
  obtain ⟨answers, hanswers, hanswersLen, hspec⟩ := possibleCases_spec hlen.symm le_rfl
  have hempty : Shaped type (emptyIntervalSetTree type) := Shaped.ofLeafTypes fun t => rfl
  have hzero : Shaped type (allZeroDefault type) :=
    Shaped.ofLeafTypes fun t => IntervalSet.precise_bitCount _
  obtain ⟨result, hresult, hshape⟩ : ∃ result,
      combineDefault (s.covers 0) (some (allZeroDefault type)) (emptyIntervalSetTree type) =
        some result ∧ Shaped type result := by
    cases s.covers 0 with
    | true => exact combineTrees_shaped hempty hzero
    | false => exact ⟨_, rfl, hempty⟩
  obtain ⟨out, hout, -⟩ :=
    combineCases_shaped (fun i => answers.getD i false) hcases (i := 0) hshape
  refine ⟨result, out, answers, hresult, hout, ?_, ?_⟩
  · intro i hi
    rw [← hspec i hi, List.getD_eq_getElem?_getD]
    cases answers[i]? <;> simp
  · unfold handlePrioritySel
    simp only [hs, hanswers, hresult, hout]

/-- The lowest set bit of a covered selector lies in a span, when the low bits do. -/
theorem exists_spans_of_covers (hs : s.isNormalized = true) (hspan : LowBitsSpanned s) {x : Bits}
    (hx : s.Covers x) {p : ℕ} (hp : x.get p = true) : ∃ j ∈ s.intervals, j.Spans p := by
  obtain ⟨i, hi, hcov⟩ := hx.exists_interval
  have hproper := (s.normal hs).proper hi
  have hatt := (Interval.exists_get_iff hproper p).mp ⟨x, hx.1, hcov, hp⟩
  obtain h | ⟨hlt, hbelow⟩ := Interval.spans_or_below hproper hatt
  · exact ⟨i, hi, h⟩
  · exact hspan i hi hlt p hbelow

theorem allZeroDefault_covers (type : Ty) :
    TreeCovers (allZeroDefault type) (Value.zeroOfType type).leaves := by
  rw [Value.leaves_zeroOfType]
  show List.Forall₂ _ (type.leafTypes.map _) _
  rw [List.forall₂_map_left_iff, List.forall₂_map_right_iff, List.forall₂_same]
  exact fun t _ => IntervalSet.precise_Covers _

/-- Spanned low bits are enough for the analysis to be sound. -/
theorem prioritySelectCovers_of_lowBitsSpanned (hs : s.isNormalized = true)
    (hspan : LowBitsSpanned s) : PrioritySelectCovers s := by
  intro type selector cases caseValues x v hget hx hlen htypes htracks hv
  have hshaped : ∀ t ∈ cases, Shaped type t := by
    intro t ht
    obtain ⟨k, hk⟩ := List.mem_iff_getElem?.mp ht
    obtain ⟨u, -, htu⟩ := forall₂_getElem? htracks.flip hk
    rw [← htypes t ht]
    exact htu.shaped
  obtain ⟨result, out, answers, hresult, hout, hanswers, hhandle⟩ :=
    handlePrioritySel_eq hget hlen hshaped
  refine ⟨_, hhandle, minimizeTree_le _ _ ?_⟩
  obtain ⟨hle, hchosen⟩ := combineCases_le hout
  unfold Interpreter.prioritySel at hv
  simp only at hv
  split at hv
  · -- the case of the lowest set bit
    rename_i i hfind
    obtain ⟨ct, hct, hctr⟩ := forall₂_getElem? htracks hv
    have hi : i < cases.length := (List.getElem?_eq_some_iff.mp hct).1
    refine hchosen i ct hct ?_ _ hctr.covers
    rw [Nat.zero_add, hanswers i hi]
    exact exists_spans_of_covers hs hspan hx (List.find?_some hfind)
  · -- no bit is set: the default
    rename_i hfind
    cases hv
    have hzero : x.toNat = 0 := by
      refine Nat.zero_of_testBit_eq_false fun p => ?_
      by_contra hp
      rw [Bool.not_eq_false] at hp
      exact List.find?_eq_none.mp hfind p (List.mem_range.mpr (Bits.lt_of_get hp)) hp
    have hcov : s.covers 0 = true := by
      rw [← hzero]
      exact hx.2
    exact hle _ ((combineDefault_le hresult).2 _ hcov rfl _ (allZeroDefault_covers type))

/-! ## Necessity of the condition -/

theorem combineTrees_forall {R : IntervalSet → Prop}
    (hR : ∀ {a b c : IntervalSet}, a.combine b = some c → R a → R b → R c)
    {t u c : IntervalSetTree} (h : combineTrees t u = some c) (ht : ∀ s ∈ t.elements, R s)
    (hu : ∀ s ∈ u.elements, R s) : ∀ s ∈ c.elements, R s := by
  obtain ⟨-, -, hz⟩ := LeafTypeTree.zip_eq_some h
  obtain ⟨hpairs, -⟩ := LeafTypeTree.zipElements_eq_some hz
  intro s hs
  obtain ⟨k, hk⟩ := List.mem_iff_getElem?.mp hs
  obtain ⟨⟨a, b⟩, hab, hcomb⟩ := forall₂_getElem? hpairs hk
  have hmem := List.mem_of_getElem? hab
  exact hR hcomb (ht a (List.of_mem_zip hmem).1) (hu b (List.of_mem_zip hmem).2)

/-- A property of sets which `Combine` keeps holds of the combined cases, when it holds
of the cases which are chosen. -/
theorem combineCases_forall {R : IntervalSet → Prop}
    (hR : ∀ {a b c : IntervalSet}, a.combine b = some c → R a → R b → R c)
    {chosen : ℕ → Bool} {trees : List IntervalSetTree} :
    ∀ {i : ℕ} {result out : IntervalSetTree}, combineCases chosen i trees result = some out →
      (∀ s ∈ result.elements, R s) →
      (∀ k t, trees[k]? = some t → chosen (i + k) = true → ∀ s ∈ t.elements, R s) →
      ∀ s ∈ out.elements, R s := by
  induction trees with
  | nil =>
    intro i result out h hresult _
    cases h
    exact hresult
  | cons t rest ih =>
    intro i result out h hresult htrees
    have hrest : ∀ k u, rest[k]? = some u → chosen (i + 1 + k) = true → ∀ s ∈ u.elements, R s := by
      intro k u hk hchosen
      refine htrees (k + 1) u hk ?_
      rwa [show i + (k + 1) = i + 1 + k by omega]
    rw [combineCases] at h
    split at h
    · rename_i hchosen
      split at h
      · rename_i result' hcomb
        have hfirst := htrees 0 t rfl hchosen
        refine ih h (combineTrees_forall hR hcomb hresult hfirst) hrest
      · cases h
    · exact ih h hresult hrest

/-- The set covers no value but zero. -/
def OnlyZero (s : IntervalSet) : Prop := ∀ b, s.Covers b → b.toNat = 0

theorem OnlyZero.combine {a b c : IntervalSet} (h : a.combine b = some c) (ha : OnlyZero a)
    (hb : OnlyZero b) : OnlyZero c := by
  intro x hx
  obtain hx | hx := ((IntervalSet.combine_eq_some h).2.2.2 x).mp hx
  · exact ha x hx
  · exact hb x hx

theorem onlyZero_empty (w : ℕ) : OnlyZero (IntervalSet.empty w) := by
  rintro b ⟨-, hb⟩
  cases hb

/-- A precise set covers its value only. -/
theorem onlyZero_precise {b : Bits} (hb : b.toNat = 0) : OnlyZero (IntervalSet.precise b) := by
  intro x hx
  have hprecise : Interval.Proper (Interval.precise b) := le_rfl
  unfold IntervalSet.precise at hx
  rw [IntervalSet.normalize_Covers, IntervalSet.ofIntervals_Covers] at hx
  obtain ⟨hw, i, hi, hcov⟩ := hx
  rw [List.mem_singleton] at hi
  subst hi
  rw [Interval.covers_iff_of_proper hprecise (by rw [← hw]; exact x.isLt)] at hcov
  have : x.toNat ≤ b.toNat := hcov.2
  omega

/-- A normalized set which covers only zero has at most one interval, and is left alone
by `MinimizeIntervals`. -/
theorem OnlyZero.minimizeIntervals (h : OnlyZero s) (size : ℕ) :
    OnlyZero (minimizeIntervals s size) := by
  have hn : OnlyZero s.normalize := fun b hb => h b ((IntervalSet.normalize_Covers s b).mp hb)
  have hnormal := s.normalize.normal (IntervalSet.normalize_isNormalized s)
  have hone : s.normalize.intervals.length ≤ 1 := by
    match hl : s.normalize.intervals with
    | [] => exact Nat.zero_le _
    | [_] => exact le_rfl
    | i :: j :: rest =>
      rw [hl] at hnormal
      have hgap := hnormal.gap (List.mem_cons_self (a := j) (l := rest))
      have hj : j.Proper := hnormal.proper (List.mem_cons_of_mem _ List.mem_cons_self)
      have hcov : s.normalize.Covers ⟨_, j.lower, j.lower_lt⟩ := by
        refine ⟨rfl, coversPoint_of_mem (i := j) ?_ (Interval.covers_of_between le_rfl hj)⟩
        rw [hl]
        exact List.mem_cons_of_mem _ List.mem_cons_self
      have hzero : j.lower = 0 := hn _ hcov
      omega
  unfold Xls.minimizeIntervals
  rw [if_pos hone]
  exact hn

/-- The tree of a one-bit node of known value. -/
def bitTree (b : Bool) : IntervalSetTree := ⟨.bits 1, [boolIntervalSet b], rfl⟩

theorem bitTree_tracks (b : Bool) : Tracks (bitTree b) (.bits (BitsOps.ofBool b)) where
  covers := .cons (IntervalSet.precise_Covers _) .nil
  normalized := by
    intro s hs
    rw [List.mem_singleton.mp hs]
    exact IntervalSet.precise_isNormalized _
  conforms := rfl

/-- The combined tree covers only zero, when the one case which is not zero has a
position in no span. -/
theorem handlePrioritySel_onlyZero (selector : IntervalSetTree) {tree : IntervalSetTree} {p : ℕ}
    (hs : selector.get [] = some s) (hp : ¬ ∃ j ∈ s.intervals, j.Spans p)
    (h : handlePrioritySel (.bits 1)
      (selector :: (List.range s.bitCount).map fun k => bitTree (decide (k = p))) =
        some (some tree)) : ∀ t ∈ tree.elements, OnlyZero t := by
  have hlen : ((List.range s.bitCount).map fun k => bitTree (decide (k = p))).length =
      s.bitCount := by rw [List.length_map, List.length_range]
  have hshaped : ∀ t ∈ (List.range s.bitCount).map fun k => bitTree (decide (k = p)),
      Shaped (.bits 1) t := by
    intro t ht
    obtain ⟨k, -, rfl⟩ := List.mem_map.mp ht
    exact (bitTree_tracks _).shaped
  obtain ⟨result, out, answers, hresult, hout, hanswers, hhandle⟩ :=
    handlePrioritySel_eq hs hlen hshaped
  rw [h] at hhandle
  cases hhandle
  have hempty : ∀ t ∈ (emptyIntervalSetTree (.bits 1)).elements, OnlyZero t := by
    intro t ht
    obtain ⟨u, -, rfl⟩ := List.mem_map.mp ht
    exact onlyZero_empty _
  have hzero : ∀ t ∈ (allZeroDefault (.bits 1)).elements, OnlyZero t := by
    intro t ht
    obtain ⟨u, -, rfl⟩ := List.mem_map.mp ht
    exact onlyZero_precise (Bits.zero_toNat _)
  have hstart : ∀ t ∈ result.elements, OnlyZero t := by
    unfold combineDefault at hresult
    split at hresult
    · rename_i u _ hu
      cases hu
      exact combineTrees_forall OnlyZero.combine hresult hempty hzero
    · cases hresult
      exact hempty
  have hall : ∀ t ∈ out.elements, OnlyZero t := by
    refine combineCases_forall OnlyZero.combine hout hstart ?_
    intro k t hk hchosen
    have hklt : k < s.bitCount := by
      have := (List.getElem?_eq_some_iff.mp hk).1
      rwa [hlen] at this
    rw [List.getElem?_map, List.getElem?_range hklt, Option.map_some, Option.some.injEq] at hk
    subst hk
    rw [Nat.zero_add, hanswers k (by rwa [hlen])] at hchosen
    have hkp : k ≠ p := by
      rintro rfl
      exact hp hchosen
    intro u hu
    rw [List.mem_singleton.mp hu, decide_eq_false hkp]
    exact onlyZero_precise rfl
  intro t ht
  obtain ⟨u, hu, rfl⟩ := List.mem_map.mp ht
  exact (hall u hu).minimizeIntervals _

/-- A low bit which is in no span makes the analysis miss its case. -/
theorem lowBitsSpanned_of_prioritySelectCovers (h : PrioritySelectCovers s) : LowBitsSpanned s := by
  intro i hi hlt p hp
  by_contra hno
  obtain ⟨x, hxw, hcov, hget, hbelow⟩ := Interval.exists_lowest_bit hlt hp
  have hpw : p < s.bitCount := hxw ▸ Bits.lt_of_get hget
  have hsel : Interpreter.prioritySel (.bits 1) (.bits x :: (List.range s.bitCount).map
      fun k => .bits (BitsOps.ofBool (decide (k = p)))) = some (.bits (BitsOps.ofBool true)) := by
    have hfind : (List.range x.bitCount).find? x.get = some p := by
      rw [List.find?_range_eq_some]
      refine ⟨hget, List.mem_range.mpr (Bits.lt_of_get hget), ?_⟩
      intro q hq
      rw [hbelow q hq]
      rfl
    unfold Interpreter.prioritySel
    simp only [hfind]
    rw [List.getElem?_map, List.getElem?_range hpw, Option.map_some, decide_eq_true rfl]
  obtain ⟨tree, hhandle, hcovers⟩ := h (.bits 1) ⟨.bits s.bitCount, [s], rfl⟩
    ((List.range s.bitCount).map fun k => bitTree (decide (k = p))) _ x _ rfl
    ⟨hxw, coversPoint_of_mem hi hcov⟩ (by rw [List.length_map, List.length_range])
    (by
      intro t ht
      obtain ⟨k, -, rfl⟩ := List.mem_map.mp ht
      rfl)
    (by
      rw [List.forall₂_map_left_iff, List.forall₂_map_right_iff, List.forall₂_same]
      exact fun k _ => bitTree_tracks _)
    hsel
  have honly := handlePrioritySel_onlyZero ⟨.bits s.bitCount, [s], rfl⟩ rfl hno hhandle
  -- the case of bit `p` has the value one
  cases helems : tree.elements with
  | nil =>
    unfold TreeCovers at hcovers
    rw [helems] at hcovers
    cases hcovers
  | cons t rest =>
    unfold TreeCovers at hcovers
    rw [helems] at hcovers honly
    cases hcovers with
    | cons hone _ =>
      have := honly t List.mem_cons_self _ hone
      cases this

/-! ## The mask query and the analysis together -/

/-- On a normalized set, the mask query agrees with its documentation for exactly the
masks of `MaskExact`, and the analysis of priority selects is sound exactly when the low
bits are spanned. -/
theorem maskQuery_exact_and_prioritySel_sound_iff (s : IntervalSet) (hs : s.isNormalized = true) :
    (∀ m : Bits, m.bitCount = s.bitCount →
      ((s.isTrueWhenMaskWith m = some true ↔ s.MaskHit m) ↔ s.MaskExact m)) ∧
    (PrioritySelectCovers s ↔ LowBitsSpanned s) :=
  ⟨fun _ hm => IntervalSet.isTrueWhenMaskWith_exact_iff hs hm,
    lowBitsSpanned_of_prioritySelectCovers, prioritySelectCovers_of_lowBitsSpanned hs⟩

/-- The four-bit values from four to eight. -/
def fourToEight : IntervalSet :=
  (IntervalSet.ofIntervals [(⟨4, 8, by decide, by decide⟩ : Interval 4)]).normalize

/-- The four-bit values from five to eight. -/
def fiveToEight : IntervalSet :=
  (IntervalSet.ofIntervals [(⟨5, 8, by decide, by decide⟩ : Interval 4)]).normalize

/-- The analysis is sound for selectors from five to eight. -/
theorem prioritySelectCovers_fiveToEight :
    fiveToEight.isNormalized = true ∧ PrioritySelectCovers fiveToEight :=
  ⟨by decide +kernel, (maskQuery_exact_and_prioritySel_sound_iff fiveToEight
    (by decide +kernel)).2.mpr (by decide +kernel)⟩

/-- Five lies between four and eight and has its lowest bit set; the query denies it, and
a priority select with four cases loses its first case. -/
theorem maskQuery_and_prioritySel_fail_fourToEight : fourToEight.isNormalized = true ∧
    fourToEight.isTrueWhenMaskWith ⟨4, 1, by decide⟩ = some false ∧
    fourToEight.MaskHit ⟨4, 1, by decide⟩ ∧ ¬ PrioritySelectCovers fourToEight := by
  refine ⟨by decide +kernel, by decide +kernel, ⟨⟨4, 5, by decide⟩, ?_, by decide +kernel⟩, ?_⟩
  · decide +kernel
  · intro h
    have : ¬ LowBitsSpanned fourToEight := by decide +kernel
    exact this (lowBitsSpanned_of_prioritySelectCovers h)

end Range

end Xls
