/-
# What the handlers of selects deliver

The loop of `HandleSel` reads each value of the selector in 64 bits, and a gate adds zeros to the
sets of its data.  The other checks of these handlers are those of the types, which the verifier
makes.

* `combineCases_wellformed` : the trees of the cases combined;
* `handleSel_delivers_iff`, `handlePrioritySel_delivers_iff`, `handleGate_delivers_iff` : the exact
  conditions.
-/
import Xls.Passes.RangeDelivery

namespace Xls

namespace Range

variable {tree lhs rhs : IntervalSetTree} {w : ℕ} {trees : List IntervalSetTree}
  {sets : List IntervalSet}

/-! ## Selects -/

/-- `HandleSel` reads the values of an interval up to the first one beyond the cases; all of
them fit in 64 bits. -/
def ReadsFit (numCases : ℕ) {w : ℕ} (i : Interval w) : Prop :=
  min i.upper (max i.lower numCases) < 2 ^ 64

/-- The selector loop on a row of values, the first of which is `lower`. -/
theorem visit_selectorCallback (numCases : ℕ) (n lower : ℕ) (state : Bool × List ℕ) :
    (∃ r, Visit.visit (selectorCallback numCases) (List.range' lower (n + 1)) state = some r ∧
      min (lower + n) (max lower numCases) < 2 ^ 64 ∧
      (r.1.1 = true ↔ state.1 = true ∨ numCases ≤ lower + n)) ∨
    (Visit.visit (selectorCallback numCases) (List.range' lower (n + 1)) state = none ∧
      2 ^ 64 ≤ min (lower + n) (max lower numCases)) := by
  induction n generalizing lower state with
  | zero =>
    rw [List.range'_succ, Visit.visit]
    unfold selectorCallback
    split_ifs with hbig hbeyond
    · exact .inr ⟨rfl, by omega⟩
    · exact .inl ⟨_, rfl, by omega, by simp [hbeyond]⟩
    · refine .inl ⟨_, rfl, by omega, ?_⟩
      tauto
  | succ n ih =>
    rw [List.range'_succ, Visit.visit]
    by_cases hbig : 2 ^ 64 ≤ lower
    · refine .inr ⟨?_, by omega⟩
      simp only [selectorCallback, hbig, ↓reduceIte]
    by_cases hbeyond : numCases ≤ lower
    · refine .inl ⟨((true, state.2), true), ?_, by omega, ?_⟩
      · simp only [selectorCallback, hbig, hbeyond, ↓reduceIte]
      · simp only [true_iff]
        exact .inr (by omega)
    · have hcall : selectorCallback numCases state lower =
          some ((state.1, lower :: state.2), false) := by
        simp only [selectorCallback, hbig, hbeyond, ↓reduceIte]
      rw [hcall]
      rcases ih (lower + 1) (state.1, lower :: state.2) with ⟨r, hr, hfit, hflag⟩ | ⟨hr, hbig'⟩
      · refine .inl ⟨r, hr, by omega, ?_⟩
        rw [hflag]
        refine or_congr_right ?_
        constructor <;> intro h <;> omega
      · exact .inr ⟨hr, by omega⟩

theorem elements_of_proper {i : Interval w} (hi : i.Proper) :
    i.elements = List.range' i.lower (i.upper - i.lower + 1) := by
  unfold Interval.elements
  rw [(Interval.isImproper_eq_false_iff i).mpr hi, if_neg Bool.false_ne_true]

/-- The selector values of a set can be read exactly when they fit, and reach beyond the cases
exactly when an interval does. -/
theorem selectorValues_iff {w numCases : ℕ} {l : List (Interval w)} (hl : ∀ i ∈ l, i.Proper)
    (state : Bool × List ℕ) :
    (∃ t, selectorValues numCases l state = some t ∧ (∀ i ∈ l, ReadsFit numCases i) ∧
      (t.1 = true ↔ state.1 = true ∨ ∃ i ∈ l, numCases ≤ i.upper)) ∨
    (selectorValues numCases l state = none ∧ ¬ ∀ i ∈ l, ReadsFit numCases i) := by
  induction l generalizing state with
  | nil => exact .inl ⟨state, rfl, by simp, by simp⟩
  | cons i rest ih =>
    have hi := hl i List.mem_cons_self
    have hrest : ∀ j ∈ rest, j.Proper := fun j hj => hl j (List.mem_cons_of_mem _ hj)
    have hlast : i.lower + (i.upper - i.lower) = i.upper := Nat.add_sub_of_le hi
    rw [selectorValues, Interval.forEachElement, elements_of_proper hi]
    rcases visit_selectorCallback numCases (i.upper - i.lower) i.lower state with
      ⟨⟨t, stop⟩, ht, hfit, hflag⟩ | ⟨ht, hbig⟩
    · rw [hlast] at hfit hflag
      rw [ht]
      rcases ih hrest t with ⟨u, hu, hfits, hflag'⟩ | ⟨hu, hnot⟩
      · refine .inl ⟨u, hu, List.forall_mem_cons.mpr ⟨hfit, hfits⟩, ?_⟩
        rw [hflag', hflag, List.exists_mem_cons_iff, or_assoc]
      · exact .inr ⟨hu, fun h => hnot (List.forall_mem_cons.mp h).2⟩
    · rw [ht]
      refine .inr ⟨rfl, fun h => ?_⟩
      have hfit : min i.upper (max i.lower numCases) < 2 ^ 64 := h i List.mem_cons_self
      omega

/-! ### Combined trees -/

theorem wellformed_ofLeafTypes {type : Ty} {f : Ty → IntervalSet}
    (hf : ∀ t, (f t).bitCount = t.flatBitCount) (hn : ∀ t, (f t).isNormalized = true) :
    Wellformed type (LeafTypeTree.ofLeafTypes type f) := by
  refine ⟨Shaped.ofLeafTypes hf, ?_⟩
  intro s hs
  obtain ⟨t, -, rfl⟩ := List.mem_map.mp hs
  exact hn t

theorem wellformed_empty (type : Ty) : Wellformed type (emptyIntervalSetTree type) :=
  wellformed_ofLeafTypes (fun _ => rfl) fun _ => rfl

theorem wellformed_allZeroDefault (type : Ty) : Wellformed type (allZeroDefault type) :=
  wellformed_ofLeafTypes (fun _ => IntervalSet.precise_bitCount _)
    fun _ => IntervalSet.precise_isNormalized _

/-- Trees can be combined exactly when they have one type. -/
theorem combineTrees_wellformed {type type' : Ty} {t u : IntervalSetTree} (ht : Wellformed type t)
    (hu : Wellformed type' u) :
    (type' = type → ∃ c, combineTrees t u = some c ∧ Wellformed type c) ∧
    (type' ≠ type → combineTrees t u = none) := by
  constructor
  · rintro rfl
    obtain ⟨c, hc, hshape⟩ := combineTrees_shaped ht.shaped hu.shaped
    refine ⟨c, hc, hshape, ?_⟩
    obtain ⟨-, -, hz⟩ := LeafTypeTree.zip_eq_some hc
    exact LeafTypeTree.mem_zipElements (fun h => (IntervalSet.combine_eq_some h).2.2.1) hz
  · intro hne
    unfold combineTrees LeafTypeTree.zip
    rw [if_neg]
    rw [ht.shaped.1, hu.shaped.1]
    exact hne.symm

/-- The chosen cases can be combined exactly when all of them have the type of the result. -/
theorem combineCases_wellformed {type : Ty} (chosen : ℕ → Bool)
    (htrees : ∀ t ∈ trees, Wellformed t.type t) {i : ℕ} {result : IntervalSetTree}
    (hresult : Wellformed type result) :
    ((∀ k t, trees[k]? = some t → chosen (i + k) = true → t.type = type) ∧
      ∃ out, combineCases chosen i trees result = some out ∧ Wellformed type out) ∨
    ((¬ ∀ k t, trees[k]? = some t → chosen (i + k) = true → t.type = type) ∧
      combineCases chosen i trees result = none) := by
  induction trees generalizing i result with
  | nil => exact .inl ⟨by simp, result, rfl, hresult⟩
  | cons a rest ih =>
    have hrest : ∀ t ∈ rest, Wellformed t.type t := fun t ht =>
      htrees t (List.mem_cons_of_mem _ ht)
    have hshift : ∀ k, i + (k + 1) = i + 1 + k := fun k => by omega
    -- the condition on the later cases, counted from the next position
    have htail : (∀ k t, (a :: rest)[k]? = some t → chosen (i + k) = true → t.type = type) ↔
        (chosen i = true → a.type = type) ∧
        ∀ k t, rest[k]? = some t → chosen (i + 1 + k) = true → t.type = type := by
      constructor
      · intro h
        refine ⟨h 0 a rfl, fun k t hk hc => h (k + 1) t hk ?_⟩
        rw [hshift]
        exact hc
      · rintro ⟨hzero, hsucc⟩ (_ | k) t hk hc
        · cases hk
          exact hzero hc
        · rw [hshift] at hc
          exact hsucc k t hk hc
    rw [combineCases, htail]
    by_cases hci : chosen i = true
    · rw [if_pos hci]
      obtain ⟨hsame, hdiff⟩ := combineTrees_wellformed hresult (htrees a List.mem_cons_self)
      by_cases htype : a.type = type
      · obtain ⟨c, hc, hwf⟩ := hsame htype
        rw [hc]
        rcases ih hrest (i := i + 1) hwf with ⟨hall, hout⟩ | ⟨hnot, hnone⟩
        · exact .inl ⟨⟨fun _ => htype, hall⟩, hout⟩
        · exact .inr ⟨fun h => hnot h.2, hnone⟩
      · rw [hdiff htype]
        exact .inr ⟨fun h => htype (h.1 hci), rfl⟩
    · rw [if_neg hci]
      rcases ih hrest (i := i + 1) hresult with ⟨hall, hout⟩ | ⟨hnot, hnone⟩
      · exact .inl ⟨⟨fun h => absurd h hci, hall⟩, hout⟩
      · exact .inr ⟨fun h => hnot h.2, hnone⟩

theorem minimizeTree_wellformed {type : Ty} (h : Wellformed type tree) :
    Wellformed type (minimizeTree tree) := by
  obtain ⟨htype, hwidths⟩ := h.shaped
  refine ⟨⟨htype, ?_⟩, ?_⟩
  · show List.Forall₂ _ (tree.elements.map _) _
    rw [List.forall₂_map_left_iff]
    exact hwidths.imp fun s t hs => (minimizeIntervals_bitCount s _).trans hs
  · intro s hs
    obtain ⟨s', -, rfl⟩ := List.mem_map.mp hs
    exact minimizeIntervals_isNormalized s' _

/-- The set of a tree of bits type has a point when the tree covers some bits. -/
theorem Stored.of_covers {type : Ty} (h : Wellformed type tree)
    (hcover : type.isBits = true → ∃ b, TreeCovers tree [b]) : Stored type tree := by
  refine ⟨h, fun hbits s hs => ?_⟩
  obtain ⟨b, hb⟩ := hcover hbits
  unfold TreeCovers at hb
  rcases helem : tree.elements with _ | ⟨s', _ | ⟨s'', rest⟩⟩
  · rw [helem] at hb
    cases hb
  · rw [helem] at hb hs
    rw [List.mem_singleton.mp hs]
    rcases hb with _ | ⟨hb, -⟩
    exact ⟨b, hb⟩
  · rw [helem] at hb
    rcases hb with _ | ⟨-, hb⟩
    cases hb

/-- A stored tree of bits type covers some bits. -/
theorem Stored.exists_covers {type : Ty} (h : Stored type tree) (hbits : type.isBits = true) :
    ∃ b, TreeCovers tree [b] := by
  obtain ⟨w, rfl⟩ := exists_bits_of_isBits hbits
  obtain ⟨s, helem, -, hs⟩ := h.bits
  obtain ⟨b, hb⟩ := hs.hasPoint
  refine ⟨b, ?_⟩
  rw [TreeCovers, helem]
  exact .cons hb .nil

/-! ### `HandleSel` -/

/-- What the verifier asks of a select. -/
theorem selTypes_spec {hasDefault : Bool} {type : Ty} {arms : List Ty}
    (h : Verifier.selTypes hasDefault type (.bits w :: arms) = true) :
    (∀ t ∈ (if hasDefault then arms.dropLast else arms), t = type) ∧
    (hasDefault = false → arms.length = 2 ^ w) ∧ arms ≠ [] := by
  unfold Verifier.selTypes at h
  simp only [Bool.and_eq_true, decide_eq_true_eq, List.all_eq_true, bne_iff_ne] at h
  obtain ⟨⟨⟨⟨hpos, -⟩, -⟩, hexact⟩, hall⟩ := h
  have hne : arms ≠ [] := List.length_pos_iff.mp hpos
  refine ⟨hall, ?_, hne⟩
  rintro rfl
  have hcases : arms.isEmpty = false := by rw [List.isEmpty_eq_false_iff]; exact hne
  simp only [ne_eq, Bool.false_eq, Bool.and_eq_false_iff, not_or, Bool.not_eq_false] at hexact
  obtain ⟨hwidth, hpow⟩ := hexact
  simp only [Bool.true_eq_false, ↓reduceIte, hcases, Bool.false_eq_true, decide_eq_true_eq]
    at hwidth hpow
  rw [Verifier.isPowerOfTwo, Bool.and_eq_true, decide_eq_true_eq, decide_eq_true_eq] at hpow
  -- the width is the exponent of the number of cases
  have hle : w ≤ arms.length.log2 := by
    rw [hwidth, Bits.minBitCountUnsigned_le_iff]
    omega
  have hge : arms.length - 1 < 2 ^ w := Bits.minBitCountUnsigned_le_iff.mp hwidth.ge
  have hmono : 2 ^ w ≤ 2 ^ arms.length.log2 := Nat.pow_le_pow_right (by norm_num) hle
  omega

/-- A select is ready when the selector values which it reads fit in 64 bits, and a default which
is possible has the type of the node; the verifier does not check that type. -/
def SelReady (hasDefault : Bool) (type : Ty) (trees : List IntervalSetTree) : Prop :=
  ∀ selector arms s, trees = selector :: arms → selector.get [] = some s →
    (∀ i ∈ s.intervals, ReadsFit (selectArmTrees hasDefault arms).1.length i) ∧
    ∀ d ∈ (selectArmTrees hasDefault arms).2,
      (∃ i ∈ s.intervals, (selectArmTrees hasDefault arms).1.length ≤ i.upper) → d.type = type

theorem selectArmTrees_spec (hasDefault : Bool) (arms : List IntervalSetTree) :
    (selectArmTrees hasDefault arms).1.map LeafTypeTree.type =
      (if hasDefault then (arms.map LeafTypeTree.type).dropLast else arms.map LeafTypeTree.type) ∧
    (∀ t ∈ (selectArmTrees hasDefault arms).1, t ∈ arms) ∧
    (∀ d ∈ (selectArmTrees hasDefault arms).2, d ∈ arms) := by
  unfold selectArmTrees
  rcases hasDefault with _ | _
  · exact ⟨rfl, fun t ht => ht, by simp⟩
  · refine ⟨?_, fun t ht => List.dropLast_subset _ ht, fun d hd => List.mem_of_getLast? hd⟩
    exact List.map_dropLast

theorem combineDefault_wellformed {possible : Bool} {default : Option IntervalSetTree} {type : Ty}
    (hdefault : ∀ d ∈ default, Wellformed d.type d) {result : IntervalSetTree}
    (hresult : Wellformed type result) :
    ((possible = true → ∀ d ∈ default, d.type = type) ∧
      ∃ out, combineDefault possible default result = some out ∧ Wellformed type out) ∨
    (¬ (possible = true → ∀ d ∈ default, d.type = type) ∧
      combineDefault possible default result = none) := by
  rcases default with _ | d
  · refine .inl ⟨by simp, result, ?_, hresult⟩
    rcases possible with _ | _ <;> rfl
  rcases possible with _ | _
  · exact .inl ⟨by simp, result, rfl, hresult⟩
  · obtain ⟨hsame, hdiff⟩ := combineTrees_wellformed hresult (hdefault d rfl)
    by_cases htype : d.type = type
    · refine .inl ⟨?_, hsame htype⟩
      rintro - _ ⟨⟩
      exact htype
    · exact .inr ⟨fun h => htype (h rfl d rfl), hdiff htype⟩

section HandleSel

variable {hasDefault : Bool} {type : Ty} {selector : IntervalSetTree}
  {arms : List IntervalSetTree} {s : IntervalSet}

/-- The handler once the selector values are read and the cases are combined. -/
theorem handleSel_eq (hget : selector.get [] = some s) (hs : s.isNormalized = true)
    {possible : Bool} {values : List ℕ} {result : IntervalSetTree}
    (hvalues : selectorValues (selectArmTrees hasDefault arms).1.length s.intervals (false, []) =
      some (possible, values))
    (hresult : combineCases (fun i => values.contains i) 0 (selectArmTrees hasDefault arms).1
      (emptyIntervalSetTree type) = some result) :
    handleSel hasDefault type (selector :: arms) =
      (combineDefault possible (selectArmTrees hasDefault arms).2 result).map
        fun tree => some (minimizeTree tree) := by
  rcases harms : selectArmTrees hasDefault arms with ⟨cases, default⟩
  rw [harms] at hvalues hresult
  unfold handleSel
  simp only [hget, hs, harms, hvalues, hresult]
  rcases combineDefault possible default result with _ | tree
  · rfl
  · rfl

end HandleSel

theorem handleSel_delivers_iff {hasDefault : Bool} {type : Ty} {w : ℕ} {selector : IntervalSetTree}
    {arms : List IntervalSetTree} (hselector : Stored (.bits w) selector)
    (harms : ∀ t ∈ arms, Stored t.type t)
    (htypes : Verifier.selTypes hasDefault type (.bits w :: arms.map LeafTypeTree.type) = true) :
    (SelReady hasDefault type (selector :: arms) →
      Delivers type (handleSel hasDefault type (selector :: arms))) ∧
    (¬ SelReady hasDefault type (selector :: arms) →
      handleSel hasDefault type (selector :: arms) = none) := by
  obtain ⟨s, -, hget, hs⟩ := hselector.bits
  obtain ⟨hall, hexact, -⟩ := selTypes_spec htypes
  obtain ⟨harmTypes, hcaseMem, hdefaultMem⟩ := selectArmTrees_spec hasDefault arms
  have hready : SelReady hasDefault type (selector :: arms) ↔
      (∀ i ∈ s.intervals, ReadsFit (selectArmTrees hasDefault arms).1.length i) ∧
      ∀ d ∈ (selectArmTrees hasDefault arms).2,
        (∃ i ∈ s.intervals, (selectArmTrees hasDefault arms).1.length ≤ i.upper) →
          d.type = type := by
    constructor
    · exact fun h => h selector arms s rfl hget
    · rintro h _ _ s' ⟨⟩ hget'
      rw [hget] at hget'
      cases hget'
      exact h
  have hcaseTypes : ∀ t ∈ (selectArmTrees hasDefault arms).1, t.type = type := by
    intro t ht
    refine hall _ ?_
    rw [← harmTypes]
    exact List.mem_map_of_mem ht
  have hnoDefault : hasDefault = false → (selectArmTrees hasDefault arms).1.length = 2 ^ w := by
    rintro rfl
    rw [← hexact rfl, List.length_map]
    rfl
  have hdefaultSome : hasDefault = true → arms ≠ [] →
      ∃ d, (selectArmTrees hasDefault arms).2 = some d := by
    rintro rfl hne
    exact ⟨_, List.getLast?_eq_some_getLast hne⟩
  have hne : arms ≠ [] := by
    rintro rfl
    exact (selTypes_spec htypes).2.2 rfl
  rw [hready]
  have hproper : ∀ i ∈ s.intervals, i.Proper := fun i hi => (s.normal hs.normalized).proper hi
  rcases @selectorValues_iff _ (selectArmTrees hasDefault arms).1.length _ hproper
    (false, []) with ⟨⟨possible, values⟩, hvalues, hfits, hflag⟩ | ⟨hvalues, hnot⟩
  swap
  · have hnone : handleSel hasDefault type (selector :: arms) = none := by
      simp [handleSel, hget, hs.normalized, hvalues]
    rw [hnone]
    exact ⟨fun h => absurd h.1 hnot, fun _ => rfl⟩
  simp only [Bool.false_eq_true, false_or] at hflag
  rcases combineCases_wellformed (fun i => values.contains i)
    (fun t ht => (harms t (hcaseMem t ht)).toWellformed) (i := 0) (wellformed_empty type) with
    ⟨-, result, hresult, hwf⟩ | ⟨hnot, -⟩
  swap
  · exact absurd (fun k t hk _ => hcaseTypes t (List.mem_of_getElem? hk)) hnot
  rw [handleSel_eq hget hs.normalized hvalues hresult]
  rcases @combineDefault_wellformed possible _ _
    (fun d hd => (harms d (hdefaultMem d hd)).toWellformed) _ hwf with
    ⟨hdefault, out, hout, hwf'⟩ | ⟨hnot, hnone⟩
  swap
  · rw [hnone]
    refine ⟨fun h => absurd ?_ hnot, fun _ => rfl⟩
    exact fun hpossible d hd => h.2 d hd (hflag.mp hpossible)
  rw [hout]
  constructor
  · intro hok
    refine delivers_tree (Stored.of_covers (minimizeTree_wellformed hwf') fun hbits => ?_)
    -- a point of the selector set chooses a case or the default
    obtain ⟨x, hx⟩ := hs.hasPoint
    obtain ⟨hcase, hbeyond⟩ := selectorValues_spec hproper hx.lt hvalues hx.2
    obtain ⟨hle, hdef⟩ := combineDefault_le hout
    rcases Nat.lt_or_ge x.toNat (selectArmTrees hasDefault arms).1.length with hlt | hge
    · have ht := List.getElem_mem hlt
      have hstored := harms _ (hcaseMem _ ht)
      rw [hcaseTypes _ ht] at hstored
      obtain ⟨b, hb⟩ := hstored.exists_covers hbits
      refine ⟨b, minimizeTree_le _ _ (hle _ ((combineCases_le hresult).2 x.toNat _ ?_ ?_ _ hb))⟩
      · exact List.getElem?_eq_getElem hlt
      · simpa using hcase hlt
    · have hpossible := hbeyond hge
      have hhas : hasDefault = true := by
        by_contra hno
        rw [Bool.not_eq_true] at hno
        have := hx.lt
        rw [hs.bitCount, ← hnoDefault hno] at this
        omega
      obtain ⟨d, hd⟩ := hdefaultSome hhas hne
      have hstored := harms d (hdefaultMem d hd)
      rw [hdefault hpossible d hd] at hstored
      obtain ⟨b, hb⟩ := hstored.exists_covers hbits
      exact ⟨b, minimizeTree_le _ _ (hdef d hpossible hd _ hb)⟩
  · intro hnot
    exact absurd ⟨hfits, fun d hd hreach => hdefault (hflag.mpr hreach) d hd⟩ hnot

/-! ### `HandlePrioritySel` -/

/-- A priority select is ready when each case which the mask query calls possible has the type of
the node; the verifier does not check the types of the cases. -/
def PrioritySelReady (type : Ty) (trees : List IntervalSetTree) : Prop :=
  ∀ selector cases s, trees = selector :: cases → selector.get [] = some s →
    ∀ k t, cases[k]? = some t → (∃ i ∈ s.intervals, i.Spans k) → t.type = type

/-- An interval beyond zero spans some bit. -/
theorem exists_spans {w : ℕ} {i : Interval w} (hi : i.Proper) (hpos : i.upper ≠ 0) :
    ∃ p < w, i.Spans p := by
  obtain ⟨p, hp⟩ := Nat.exists_testBit_of_ne_zero hpos
  refine ⟨p, Bits.lt_of_get (b := i.upperBound) hp, ?_⟩
  rcases Interval.spans_or_below hi (.inr (.inl hp)) with h | ⟨-, hbelow⟩
  · exact h
  · -- below the span no bit of the upper bound is set
    have hclear := Bits.get_of_lt_countTrailingZeros (b := i.upperBound)
      (hbelow.trans_le (min_le_right _ _))
    exact absurd hp (by rw [show i.upper.testBit p = false from hclear]; exact Bool.false_ne_true)

theorem handlePrioritySel_delivers_iff {type : Ty} {w : ℕ} {selector : IntervalSetTree}
    {cases : List IntervalSetTree} (hselector : Stored (.bits w) selector)
    (hcases : ∀ t ∈ cases, Stored t.type t) (hlen : w = cases.length) :
    (PrioritySelReady type (selector :: cases) →
      Delivers type (handlePrioritySel type (selector :: cases))) ∧
    (¬ PrioritySelReady type (selector :: cases) →
      handlePrioritySel type (selector :: cases) = none) := by
  obtain ⟨s, -, hget, hs⟩ := hselector.bits
  have hready : PrioritySelReady type (selector :: cases) ↔
      ∀ k t, cases[k]? = some t → (∃ i ∈ s.intervals, i.Spans k) → t.type = type := by
    constructor
    · exact fun h => h selector cases s rfl hget
    · rintro h _ _ s' ⟨⟩ hget'
      rw [hget] at hget'
      cases hget'
      exact h
  obtain ⟨answers, hanswers, -, hspec⟩ :=
    possibleCases_spec (hs.bitCount.trans hlen) (le_refl cases.length)
  have hanswer : ∀ k t, cases[k]? = some t →
      (answers.getD (0 + k) false = true ↔ ∃ i ∈ s.intervals, i.Spans k) := by
    intro k t hk
    rw [← hspec k (List.getElem?_eq_some_iff.mp hk).1, Nat.zero_add, List.getD_eq_getElem?_getD]
    rcases answers[k]? with _ | _ <;> simp
  obtain ⟨-, result, hresult, hwf⟩ | ⟨hnot, -⟩ := @combineDefault_wellformed
    (s.covers 0) (some (allZeroDefault type)) type
    (by rintro d ⟨⟩; exact wellformed_allZeroDefault type) _ (wellformed_empty type)
  swap
  · exact absurd (by rintro - d ⟨⟩; rfl) hnot
  rw [hready]
  unfold handlePrioritySel
  simp only [hget, hanswers, hresult]
  rcases combineCases_wellformed (fun i => answers.getD i false)
    (fun t ht => (hcases t ht).toWellformed) (i := 0) hwf with
    ⟨hall, out, hout, hwf'⟩ | ⟨hnot, hnone⟩
  swap
  · simp only [hnone]
    refine ⟨fun h => absurd ?_ hnot, fun _ => trivial⟩
    exact fun k t hk hchosen => h k t hk ((hanswer k t hk).mp hchosen)
  simp only [hout]
  constructor
  · intro hok
    refine delivers_tree (Stored.of_covers (minimizeTree_wellformed hwf') fun hbits => ?_)
    obtain ⟨x, hx⟩ := hs.hasPoint
    obtain ⟨hle, hchosenLe⟩ := combineCases_le hout
    by_cases hzero : x.toNat = 0
    · -- the selector may be zero, and the default joins
      have hcovers : s.covers 0 = true := by rw [← hzero]; exact hx.2
      have hdefault := (combineDefault_le hresult).2 _ hcovers rfl
      obtain ⟨v, rfl⟩ := exists_bits_of_isBits hbits
      exact ⟨Bits.zero v, minimizeTree_le _ _ (hle _ (hdefault _
        (.cons (IntervalSet.precise_Covers _) .nil)))⟩
    · obtain ⟨i, hi, hcov⟩ := hx.exists_interval
      have hproper := (s.normal hs.normalized).proper hi
      rw [Interval.covers_iff_of_proper hproper hx.lt] at hcov
      obtain ⟨p, hp, hspans⟩ := exists_spans hproper (by omega)
      rw [hs.bitCount, hlen] at hp
      have hget := List.getElem?_eq_getElem hp
      have hstored := hcases _ (List.getElem_mem hp)
      rw [hok p _ hget ⟨i, hi, hspans⟩] at hstored
      obtain ⟨b, hb⟩ := hstored.exists_covers hbits
      exact ⟨b, minimizeTree_le _ _ (hchosenLe p _ hget
        ((hanswer p _ hget).mpr ⟨i, hi, hspans⟩) _ hb)⟩
  · intro hnot
    exact absurd (fun k t hk hspans => hall k t hk ((hanswer k t hk).mpr hspans)) hnot

/-! ## Gates -/

/-- A gate is ready when its condition is never false or all leaves of its type are bits; the
verifier accepts a token. -/
def GateReady (type : Ty) (trees : List IntervalSetTree) : Prop :=
  ∀ condition data s, trees = [condition, data] → condition.get [] = some s →
    s.covers 0 = true → ∀ t ∈ type.leafTypes, t.isBits = true

/-- The zeros of a gate can be added exactly when all leaves are bits. -/
theorem addZeros_wellformed {sets : List IntervalSet}
    (h : List.Forall₂ (fun s t => s.bitCount = t.flatBitCount) sets types) :
    ((∀ t ∈ types, t.isBits = true) ∧ ∃ out, addZeros types sets = some out ∧
      List.Forall₂ (fun s t => s.bitCount = t.flatBitCount) out types ∧
      ∀ s ∈ out, s.isNormalized = true) ∨
    ((¬ ∀ t ∈ types, t.isBits = true) ∧ addZeros types sets = none) := by
  induction h with
  | nil => exact .inl ⟨by simp, [], rfl, .nil, by simp⟩
  | @cons s t sets types hst _ ih =>
    rw [addZeros, List.forall_mem_cons]
    rcases ih with ⟨hall, out, hout, hwidths, hnorm⟩ | ⟨hnot, hnone⟩
    · rw [hout]
      rcases hbits : t.isBits with _ | _
      · exact .inr ⟨fun h => Bool.false_ne_true h.1, rfl⟩
      · refine .inl ⟨⟨rfl, hall⟩, _, rfl, .cons ?_ hwidths, ?_⟩
        · simp [hst]
        · exact List.forall_mem_cons.mpr ⟨IntervalSet.normalize_isNormalized _, hnorm⟩
    · rw [hnone]
      refine .inr ⟨fun h => hnot h.2, ?_⟩
      rcases t.isBits with _ | _ <;> rfl

theorem handleGate_delivers_iff {type : Ty} {condition data : IntervalSetTree}
    (hcond : Stored (.bits 1) condition) (hdata : Stored type data) :
    (GateReady type [condition, data] → Delivers type (handleGate type [condition, data])) ∧
    (¬ GateReady type [condition, data] → handleGate type [condition, data] = none) := by
  obtain ⟨s, -, hget, hs⟩ := hcond.bits
  have hready : GateReady type [condition, data] ↔
      (s.covers 0 = true → ∀ t ∈ type.leafTypes, t.isBits = true) := by
    constructor
    · exact fun h => h condition data s rfl hget
    · rintro h _ _ s' ⟨⟩ hget'
      rw [hget] at hget'
      cases hget'
      exact h
  have hone : coversValue s 1 = some (s.covers 1) := by
    have hlt : 1 < 2 ^ s.bitCount := by rw [hs.bitCount]; norm_num
    simp [coversValue, Bits.uBits, hlt]
  have hpassed : Wellformed type (if s.covers 1 = true then data else emptyIntervalSetTree type) := by
    split
    · exact hdata.toWellformed
    · exact wellformed_empty type
  rw [hready]
  unfold handleGate
  simp only [hget, hone]
  by_cases hzero : s.covers 0 = true
  · simp only [hzero, ↓reduceIte, true_imp_iff]
    obtain ⟨htype, hwidths⟩ := hpassed.shaped
    rw [htype]
    rcases addZeros_wellformed hwidths with ⟨hall, out, hout, hwidths', hnorm⟩ | ⟨hnot, hnone⟩
    swap
    · simp only [hnone]
      exact ⟨fun h => absurd h hnot, fun _ => trivial⟩
    have hlen : out.length = type.leafCount := by rw [hwidths'.length_eq, Ty.length_leafTypes]
    simp only [hout, LeafTypeTree.ofElements, hlen]
    refine ⟨fun _ => delivers_tree ⟨⟨⟨rfl, hwidths'⟩, hnorm⟩, ?_⟩, fun h => absurd hall h⟩
    rintro hbits s' hs'
    -- zero was added to the only leaf
    obtain ⟨v, rfl⟩ := exists_bits_of_isBits hbits
    have hcovers := (addZeros_covers [] hout).2
    rcases hcovers with _ | ⟨hcover, hnil⟩
    rcases hnil with _ | _
    rcases hwidths' with _ | ⟨hwidth, -⟩
    rw [List.mem_singleton.mp hs']
    exact ⟨Bits.zero v, hwidth.symm, hcover⟩
  · simp only [hzero, Bool.false_eq_true, false_imp_iff, not_true_eq_false, true_imp_iff, and_true]
    -- the condition is true
    obtain ⟨x, hx⟩ := hs.hasPoint
    have hlt := hx.lt
    rw [hs.bitCount] at hlt
    have hxone : x.toNat = 1 := by
      have hne : x.toNat ≠ 0 := by
        intro h0
        rw [← h0] at hzero
        exact hzero hx.2
      omega
    have hcover : s.covers 1 = true := by rw [← hxone]; exact hx.2
    rw [hcover]
    exact delivers_tree hdata

end Range

end Xls
