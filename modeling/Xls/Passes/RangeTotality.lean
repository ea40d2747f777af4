/-
# When range analysis returns

`RangeQueryEngine::Populate` on a function accepted by the verifier.  The visit of a node fails
exactly when the node is not ready (`Range.HandlerReady`) on the trees of its operands, so that
the whole analysis returns exactly when every visited node is ready on the engine it finds.

* `Range.handleArrayIndex_delivers_iff` : the condition of an array index;
* `Range.handleNode_delivers_iff` : the conditions of all handlers;
* `RangeQueryEngine.populate_isSome_iff` : the whole analysis.
-/
import Xls.Passes.RangeSelectDelivery
import Xls.Passes.RangeTupleDelivery

namespace Xls

namespace Range

/-! ## Array indices -/

/-- The numbers which the loop of `HandleArrayIndex` visits and the index sets admit. -/
def Admitted (dimension : List ℕ) (sets : List IntervalSet) (indexes : List ℕ) : Prop :=
  indexes ∈ mixedRadixNumbers dimension ∧ allCoverIndex sets indexes dimension = true

/-- An array index is ready when no element is admitted in an array without elements, and, for a
result of bits type, some admitted element may be something. -/
def ArrayIndexReady (type : Ty) (trees : List IntervalSetTree) : Prop :=
  ∀ array indices dimension sets, trees = array :: indices → indices ≠ [] →
    indexDimensions array.type indices.length = some dimension →
    bitsOperands indices = some sets →
    (0 ∈ dimension → ∀ indexes, ¬ Admitted dimension sets indexes) ∧
    (type.isBits = true → ∃ indexes sub, Admitted dimension sets indexes ∧
      array.copySubtree indexes = some sub ∧ ∀ s ∈ sub.elements, s.HasPoint)

theorem exists_indexDimensions {n : ℕ} {array type : Ty}
    (h : Verifier.getIndexedElementType array n = some type) :
    ∃ dimension, indexDimensions array n = some dimension := by
  induction n generalizing array with
  | zero => exact ⟨[], by rw [indexDimensions]⟩
  | succ n ih =>
    rcases array with _ | _ | _ | ⟨size, t⟩
    · cases h
    · cases h
    · cases h
    obtain ⟨dimension, hdim⟩ := @ih t (by rwa [Verifier.getIndexedElementType] at h)
    exact ⟨size :: dimension, by rw [indexDimensions, hdim, Option.map_some]⟩

/-- Indices inside the dimensions lead to the indexed type, and a zero dimension to no type. -/
theorem getSubtypeAndOffset_indexes {n : ℕ} {array type : Ty} {dimension indexes : List ℕ}
    (htype : Verifier.getIndexedElementType array n = some type)
    (hdim : indexDimensions array n = some dimension)
    (hidx : List.Forall₂ (fun d r => d < max 1 r) indexes dimension) (offset : ℕ) :
    (0 ∉ dimension → ∃ offset',
      LeafTypeTree.getSubtypeAndOffset array indexes offset = some (type, offset')) ∧
    (0 ∈ dimension → LeafTypeTree.getSubtypeAndOffset array indexes offset = none) := by
  induction n generalizing array dimension indexes offset with
  | zero =>
    rw [indexDimensions] at hdim
    rw [Verifier.getIndexedElementType] at htype
    cases hdim
    cases htype
    rcases hidx with _ | _
    refine ⟨fun _ => ⟨offset, rfl⟩, fun h => ?_⟩
    cases h
  | succ n ih =>
    rcases array with _ | _ | _ | ⟨size, t⟩
    · cases htype
    · cases htype
    · cases htype
    obtain ⟨rest, hrest, rfl⟩ := Option.map_eq_some_iff.mp hdim
    rcases hidx with _ | @⟨d, _, indexes, _, hd, hidx⟩
    obtain ⟨hin, hout⟩ := ih htype hrest hidx (offset + d * t.leafCount)
    rw [LeafTypeTree.getSubtypeAndOffset]
    constructor
    · intro hzero
      rw [List.mem_cons, not_or] at hzero
      rw [if_pos (by omega)]
      exact hin hzero.2
    · intro hzero
      split
      · rcases List.mem_cons.mp hzero with rfl | hzero
        · omega
        · exact hout hzero
      · rfl

/-- A union of single leaves covers no more than its parts. -/
theorem treeCovers_of_combine {t u c : IntervalSetTree} (h : combineTrees t u = some c)
    {leaf : Bits} (hc : TreeCovers c [leaf]) : TreeCovers t [leaf] ∨ TreeCovers u [leaf] := by
  obtain ⟨-, -, hz⟩ := LeafTypeTree.zip_eq_some h
  obtain ⟨hall, hlen⟩ := LeafTypeTree.zipElements_eq_some hz
  unfold TreeCovers at hc ⊢
  revert hall hlen hc
  generalize c.elements = cs
  generalize t.elements = as
  generalize u.elements = bs
  intro hc hall hlen
  rcases hc with _ | ⟨hc, hnil⟩
  rcases hnil with _ | _
  rcases as with _ | ⟨a, as⟩
  · cases hall
  rcases bs with _ | ⟨b, bs⟩
  · simp at hlen
  rw [List.zip_cons_cons] at hall
  rcases hall with _ | ⟨hab, hrest⟩
  have hzip : as.zip bs = [] := by
    rcases hzip : as.zip bs with _ | ⟨p, rest⟩
    · rfl
    · rw [hzip] at hrest
      cases hrest
  have hlen' : as.length = bs.length := by simpa using hlen
  have hmin : min as.length bs.length = 0 := by rw [← List.length_zip, hzip, List.length_nil]
  rw [List.length_eq_zero_iff.mp (show as.length = 0 by omega),
    List.length_eq_zero_iff.mp (show bs.length = 0 by omega)]
  rcases ((IntervalSet.combine_eq_some hab).2.2.2 leaf).mp hc with hl | hr
  · exact .inl (.cons hl .nil)
  · exact .inr (.cons hr .nil)

section Loop

variable {array : IntervalSetTree} {sets : List IntervalSet} {dimension : List ℕ} {type : Ty}

/-- The loop succeeds when the subtree of every admitted number can be read. -/
theorem exists_visit_arrayIndex {numbers : List (List ℕ)} {result : IntervalSetTree}
    (hresult : Wellformed type result)
    (hsub : ∀ indexes ∈ numbers, allCoverIndex sets indexes dimension = true →
      ∃ sub, array.copySubtree indexes = some sub ∧ Wellformed type sub) :
    ∃ out, Visit.visit (arrayIndexCallback array sets dimension) numbers result =
      some (out, false) ∧ Wellformed type out := by
  induction numbers generalizing result with
  | nil => exact ⟨result, rfl, hresult⟩
  | cons indexes numbers ih =>
    have hrest := fun i hi => hsub i (List.mem_cons_of_mem _ hi)
    rw [Visit.visit]
    unfold arrayIndexCallback
    by_cases hcover : allCoverIndex sets indexes dimension = true
    · obtain ⟨sub, hread, hwf⟩ := hsub indexes List.mem_cons_self hcover
      obtain ⟨c, hc, hcwf⟩ := (combineTrees_wellformed hresult hwf).1 rfl
      simp only [hcover, hread, hc]
      exact ih hcwf hrest
    · simp only [hcover]
      exact ih hresult hrest

/-- What the result of the loop covers comes from the start or from an admitted element. -/
theorem covers_of_visit_arrayIndex {numbers : List (List ℕ)} {result out : IntervalSetTree}
    {stop : Bool} (h : Visit.visit (arrayIndexCallback array sets dimension) numbers result =
      some (out, stop)) {leaf : Bits} (hout : TreeCovers out [leaf]) :
    TreeCovers result [leaf] ∨ ∃ indexes ∈ numbers, allCoverIndex sets indexes dimension = true ∧
      ∃ sub, array.copySubtree indexes = some sub ∧ TreeCovers sub [leaf] := by
  induction numbers generalizing result with
  | nil =>
    cases h
    exact .inl hout
  | cons indexes numbers ih =>
    have hlater : ∀ {t}, Visit.visit (arrayIndexCallback array sets dimension) numbers t =
        some (out, stop) → TreeCovers t [leaf] ∨ ∃ i ∈ indexes :: numbers,
          allCoverIndex sets i dimension = true ∧
          ∃ sub, array.copySubtree i = some sub ∧ TreeCovers sub [leaf] := by
      intro t ht
      rcases ih ht with hleft | ⟨i, hi, hrest⟩
      · exact .inl hleft
      · exact .inr ⟨i, List.mem_cons_of_mem _ hi, hrest⟩
    rw [Visit.visit] at h
    unfold arrayIndexCallback at h
    by_cases hcover : allCoverIndex sets indexes dimension = true
    · simp only [hcover] at h
      rcases hread : array.copySubtree indexes with _ | sub
      · simp [hread] at h
      rcases hcomb : combineTrees result sub with _ | c
      · simp [hread, hcomb] at h
      simp only [hread, hcomb] at h
      rcases hlater h with hc | hfound
      · rcases treeCovers_of_combine hcomb hc with hl | hr
        · exact .inl hl
        · exact .inr ⟨indexes, List.mem_cons_self, hcover, sub, hread, hr⟩
      · exact .inr hfound
    · simp only [hcover] at h
      exact hlater h

/-- The result of the loop has a point when an admitted element has one. -/
theorem hasPoint_visit_arrayIndex {out : IntervalSetTree}
    (hsub : ∀ indexes, Admitted dimension sets indexes →
      ∃ sub, array.copySubtree indexes = some sub ∧ Wellformed type sub)
    (hvisit : Visit.visit (arrayIndexCallback array sets dimension) (mixedRadixNumbers dimension)
      (emptyIntervalSetTree type) = some (out, false))
    (hout : Wellformed type out) (hb : type.isBits = true) :
    (∀ s ∈ out.elements, s.HasPoint) ↔ ∃ indexes sub, Admitted dimension sets indexes ∧
      array.copySubtree indexes = some sub ∧ ∀ s ∈ sub.elements, s.HasPoint := by
  have hwf : ∀ {indexes sub}, Admitted dimension sets indexes →
      array.copySubtree indexes = some sub → Wellformed type sub := by
    intro indexes sub hadmit hread
    obtain ⟨sub', hread', hwf⟩ := hsub indexes hadmit
    rw [hread] at hread'
    cases hread'
    exact hwf
  constructor
  · intro hpoint
    obtain ⟨b, hb'⟩ := Stored.exists_covers ⟨hout, fun _ => hpoint⟩ hb
    rcases covers_of_visit_arrayIndex hvisit hb' with hstart | ⟨indexes, hmem, hcover, sub, hread,
      hfound⟩
    · obtain ⟨w, rfl⟩ := exists_bits_of_isBits hb
      rcases hstart with _ | ⟨hstart, -⟩
      exact absurd ⟨b, hstart⟩ (IntervalSet.not_hasPoint_empty w)
    · exact ⟨indexes, sub, ⟨hmem, hcover⟩, hread,
        (Stored.of_covers (hwf ⟨hmem, hcover⟩ hread) fun _ => ⟨b, hfound⟩).hasPoint hb⟩
  · rintro ⟨indexes, sub, hadmit, hread, hpoint⟩
    obtain ⟨b, hcovers⟩ := Stored.exists_covers ⟨hwf hadmit hread, fun _ => hpoint⟩ hb
    obtain ⟨t, u, -, hcall, hle⟩ := Visit.visit_mem TreeLe.refl TreeLe.trans
      (fun h => (arrayIndexCallback_eq_some h).1) hvisit hadmit.1
    obtain ⟨sub', hread', hsubLe⟩ := (arrayIndexCallback_eq_some hcall).2.2 hadmit.2
    rw [hread] at hread'
    cases hread'
    exact (Stored.of_covers hout fun _ => ⟨b, hle _ (hsubLe _ hcovers)⟩).hasPoint hb

/-- An element is read unless one of the arrays is empty. -/
theorem copySubtree_of_mem {indexes : List ℕ} {n : ℕ} (harray : Stored array.type array)
    (htype : Verifier.getIndexedElementType array.type n = some type)
    (hdim : indexDimensions array.type n = some dimension)
    (hmem : indexes ∈ mixedRadixNumbers dimension) :
    (0 ∉ dimension → ∃ sub, array.copySubtree indexes = some sub ∧ Wellformed type sub) ∧
    (0 ∈ dimension → array.copySubtree indexes = none) := by
  obtain ⟨hin, hout⟩ :=
    getSubtypeAndOffset_indexes htype hdim (lt_of_mem_mixedRadixNumbers hmem) 0
  constructor
  · intro hzero
    obtain ⟨offset, hoffset⟩ := hin hzero
    exact harray.copySubtree hoffset
  · intro hzero
    simp only [LeafTypeTree.copySubtree, hout hzero]

end Loop

/-- The indices of a node are bits. -/
theorem exists_widths_of_all_bits {trees : List IntervalSetTree}
    (htrees : ∀ t ∈ trees, Stored t.type t)
    (hbits : (trees.map LeafTypeTree.type).all Ty.isBits = true) :
    ∃ widths, List.Forall₂ (fun tree w => Stored (.bits w) tree) trees widths := by
  induction trees with
  | nil => exact ⟨[], .nil⟩
  | cons t trees ih =>
    rw [List.map_cons, List.all_cons, Bool.and_eq_true] at hbits
    obtain ⟨widths, hwidths⟩ := ih (fun u hu => htrees u (List.mem_cons_of_mem _ hu)) hbits.2
    obtain ⟨w, hw⟩ := exists_bits_of_isBits hbits.1
    have ht := htrees t List.mem_cons_self
    rw [hw] at ht
    exact ⟨w :: widths, .cons ht hwidths⟩

theorem handleArrayIndex_delivers_iff {type : Ty} {array : IntervalSetTree}
    {indices : List IntervalSetTree} (harray : Stored array.type array)
    (hindices : ∀ t ∈ indices, Stored t.type t)
    (hbits : (indices.map LeafTypeTree.type).all Ty.isBits = true)
    (htype : Verifier.getIndexedElementType array.type indices.length = some type) :
    (ArrayIndexReady type (array :: indices) →
      Delivers type (handleArrayIndex type (array :: indices))) ∧
    (¬ ArrayIndexReady type (array :: indices) →
      Aborts type (handleArrayIndex type (array :: indices))) := by
  rcases hempty : indices.isEmpty with _ | _
  swap
  · -- no index: the array itself
    rw [List.isEmpty_iff] at hempty
    subst hempty
    have hsame : array.type = type := by
      rw [List.length_nil, Verifier.getIndexedElementType] at htype
      exact Option.some.inj htype
    rw [hsame] at harray
    refine ⟨fun _ => delivers_tree harray, fun hnot => absurd ?_ hnot⟩
    rintro _ _ dimension sets ⟨⟩ hne
    exact absurd rfl hne
  have hne : indices ≠ [] := List.isEmpty_eq_false_iff.mp hempty
  obtain ⟨dimension, hdim⟩ := exists_indexDimensions htype
  obtain ⟨widths, hwidths⟩ := exists_widths_of_all_bits hindices hbits
  obtain ⟨sets, hsets, -⟩ := bitsOperands_stored hwidths
  have hready : ArrayIndexReady type (array :: indices) ↔
      (0 ∈ dimension → ∀ indexes, ¬ Admitted dimension sets indexes) ∧
      (type.isBits = true → ∃ indexes sub, Admitted dimension sets indexes ∧
        array.copySubtree indexes = some sub ∧ ∀ s ∈ sub.elements, s.HasPoint) := by
    constructor
    · exact fun h => h array indices dimension sets rfl hne hdim hsets
    · rintro h _ _ dimension' sets' ⟨⟩ - hdim' hsets'
      rw [hdim] at hdim'
      rw [hsets] at hsets'
      cases hdim'
      cases hsets'
      exact h
  rw [hready]
  unfold handleArrayIndex
  simp only [hempty, hdim, hsets]
  rw [mixedRadixIterate_eq_visit]
  by_cases hbad : 0 ∈ dimension ∧ ∃ indexes, Admitted dimension sets indexes
  · -- an element of an array without elements is read
    obtain ⟨hzero, indexes, hadmit⟩ := hbad
    have hnone : Visit.visit (arrayIndexCallback array sets dimension)
        (mixedRadixNumbers dimension) (emptyIntervalSetTree type) = none := by
      refine Visit.visit_eq_none ?_ hadmit.1 ?_ _
      · intro s a t hstop
        have := (arrayIndexCallback_eq_some hstop).2.1
        cases this
      · intro s
        simp only [arrayIndexCallback, hadmit.2, ↓reduceIte,
          (copySubtree_of_mem harray htype hdim hadmit.1).2 hzero]
    rw [hnone]
    exact ⟨fun h => absurd hadmit (h.1 hzero indexes), fun _ => .inl rfl⟩
  · have hsub : ∀ indexes, Admitted dimension sets indexes →
        ∃ sub, array.copySubtree indexes = some sub ∧ Wellformed type sub := fun indexes hadmit =>
      (copySubtree_of_mem harray htype hdim hadmit.1).1 fun hzero => hbad ⟨hzero, indexes, hadmit⟩
    obtain ⟨out, hout, hwf⟩ := exists_visit_arrayIndex (wellformed_empty type)
      fun indexes hmem hcover => hsub indexes ⟨hmem, hcover⟩
    rw [hout]
    obtain ⟨hiff, hnot⟩ := delivers_or_aborts hwf
    have hpoints := forall_congr' (hasPoint_visit_arrayIndex hsub hout hwf)
    have hadmits : 0 ∈ dimension → ∀ indexes, ¬ Admitted dimension sets indexes :=
      fun hzero indexes hadmit => hbad ⟨hzero, indexes, hadmit⟩
    exact ⟨fun h => hiff.mpr (hpoints.mpr h.2), fun h => hnot fun hd => h
      ⟨hadmits, hpoints.mp (hiff.mp hd)⟩⟩

/-! ## All handlers -/

/-- What a handler needs of the trees of the operands beyond what the verifier checks. -/
def HandlerReady (n : Node) (trees : List IntervalSetTree) : Prop :=
  match n.op with
  -- the operand is read as a single set, which a tuple, an array or a token is not
  | .identity => n.type.isBits = true
  -- the verifier lets operands of any type be ordered
  | .ugt | .uge | .ult | .ule => ∀ tree ∈ trees, tree.type.isLeafType = true
  | .sel hasDefault => SelReady hasDefault n.type trees
  | .prioritySel => PrioritySelReady n.type trees
  | .gate => GateReady n.type trees
  | .arrayIndex => ArrayIndexReady n.type trees
  | .tupleIndex index => TupleIndexReady index n.type trees
  | _ => True

section Types

variable {trees : List IntervalSetTree} (htrees : ∀ t ∈ trees, Stored t.type t)
include htrees

theorem stored_of_types {types : List Ty} (h : trees.map LeafTypeTree.type = types) :
    List.Forall₂ Wellformed types trees := by
  subst h
  rw [List.forall₂_map_left_iff, List.forall₂_same]
  exact fun t ht => (htrees t ht).toWellformed

theorem stored_of_widths {widths : List ℕ} (h : trees.map LeafTypeTree.type = widths.map Ty.bits) :
    List.Forall₂ (fun tree w => Stored (.bits w) tree) trees widths := by
  induction trees generalizing widths with
  | nil =>
    rcases widths with _ | _
    · exact .nil
    · cases h
  | cons t trees ih =>
    rcases widths with _ | ⟨w, widths⟩
    · cases h
    rw [List.map_cons, List.map_cons, List.cons.injEq] at h
    have ht := htrees t List.mem_cons_self
    rw [h.1] at ht
    exact .cons ht (ih (fun u hu => htrees u (List.mem_cons_of_mem _ hu)) h.2)

end Types

variable {types : List Ty}

theorem allSameBitsType_spec {count : ℕ} {type : Ty}
    (h : Verifier.allSameBitsType count type types = true) :
    ∃ w, type = .bits w ∧ types = (List.replicate count w).map Ty.bits := by
  rw [Verifier.allSameBitsType, Bool.and_eq_true, decide_eq_true_eq] at h
  obtain ⟨w, rfl⟩ := exists_bits_of_isBits h.1
  exact ⟨w, rfl, by rw [h.2, List.map_replicate]⟩

theorem totalBits_spec {total : ℕ} (h : Verifier.totalBits types = some total) :
    ∃ widths : List ℕ, types = widths.map Ty.bits ∧ widths.sum = total := by
  induction types generalizing total with
  | nil =>
    cases h
    exact ⟨[], rfl, rfl⟩
  | cons t types ih =>
    rcases t with w | _ | _ | _
    · obtain ⟨rest, hrest, rfl⟩ := Option.map_eq_some_iff.mp h
      obtain ⟨widths, rfl, rfl⟩ := ih hrest
      exact ⟨w :: widths, rfl, List.sum_cons⟩
    · cases h
    · cases h
    · cases h

theorem extendTypes_spec {newBitCount : ℕ} {type : Ty}
    (h : Verifier.extendTypes newBitCount type types = true) :
    ∃ w, types = [w].map Ty.bits ∧ w ≤ newBitCount ∧ type = .bits newBitCount := by
  unfold Verifier.extendTypes at h
  split at h
  · rename_i w
    rw [Bool.and_eq_true, decide_eq_true_eq, decide_eq_true_eq] at h
    exact ⟨w, rfl, h⟩
  · cases h

theorem reductionTypes_spec {type : Ty} (h : Verifier.reductionTypes type types = true) :
    type = .bits 1 ∧ ∃ w, types = [.bits w] := by
  unfold Verifier.reductionTypes at h
  split at h
  · rename_i w
    exact ⟨decide_eq_true_eq.mp h, w, rfl⟩
  · cases h

/-- The two trees of a comparison. -/
theorem compareTypes_spec {type : Ty} {trees : List IntervalSetTree}
    (htrees : ∀ t ∈ trees, Stored t.type t)
    (h : Verifier.compareTypes type (trees.map LeafTypeTree.type) = true) :
    type = .bits 1 ∧ ∃ lhs rhs, trees = [lhs, rhs] ∧ Wellformed lhs.type lhs ∧
      Wellformed lhs.type rhs := by
  rcases trees with _ | ⟨lhs, _ | ⟨rhs, _ | _⟩⟩
  · cases h
  · cases h
  · rw [List.map_cons, List.map_cons, List.map_nil, Verifier.compareTypes, Bool.and_eq_true,
      decide_eq_true_eq, decide_eq_true_eq] at h
    have hr := htrees rhs (by simp)
    rw [h.1] at hr
    exact ⟨h.2, lhs, rhs, rfl, (htrees lhs (by simp)).toWellformed, hr.toWellformed⟩
  · cases h

/-- The handler of a node delivers when it is ready, and aborts otherwise. -/
def Decided (n : Node) (trees : List IntervalSetTree) : Prop :=
  (HandlerReady n trees → Delivers n.type (handleNode n trees)) ∧
    (¬ HandlerReady n trees → Aborts n.type (handleNode n trees))

section Node

variable {n : Node} {trees : List IntervalSetTree} {type : Ty} {operands : List ℕ}

/-- A handler without conditions. -/
theorem iff_of_delivers {outcome : Option (Option IntervalSetTree)} (h : Delivers type outcome) :
    (True → Delivers type outcome) ∧ (¬ True → Aborts type outcome) :=
  ⟨fun _ => h, fun hnot => absurd trivial hnot⟩

variable (htrees : ∀ t ∈ trees, Stored t.type t)
include htrees

/-- The unsigned order comparisons need operands of a leaf type. -/
theorem handleCompare_ready {analyze : IntervalSet → IntervalSet → Option (Option Bool)}
    (hanalyze : ∀ s t : IntervalSet, s.isNormalized = true → t.isNormalized = true →
      t.bitCount = s.bitCount → ∃ a, analyze s t = some a)
    (htypes : Verifier.compareTypes type (trees.map LeafTypeTree.type) = true) :
    ((∀ tree ∈ trees, tree.type.isLeafType = true) →
      Delivers type (handleCompare analyze type trees)) ∧
    (¬ (∀ tree ∈ trees, tree.type.isLeafType = true) →
      Aborts type (handleCompare analyze type trees)) := by
  obtain ⟨rfl, lhs, rhs, rfl, hl, hr⟩ := compareTypes_spec htrees htypes
  obtain ⟨hdelivers, hnone⟩ := handleCompare_delivers_iff hanalyze hl hr
  constructor
  · exact fun h => hdelivers (h lhs (by simp))
  · intro hnot
    refine .inl (hnone ?_)
    by_contra hleaf
    rw [Bool.not_eq_false] at hleaf
    refine hnot ?_
    simp only [List.mem_cons, List.not_mem_nil, or_false, forall_eq_or_imp, forall_eq]
    exact ⟨hleaf, by rw [hr.shaped.1, hleaf]⟩

/-- A reduction whose handler delivers for one vector. -/
theorem reduction_ready {handle : Ty → List IntervalSetTree → Option (Option IntervalSetTree)}
    (hhandle : ∀ {w : ℕ} {tree : IntervalSetTree}, Stored (.bits w) tree →
      Delivers (.bits 1) (handle (.bits 1) [tree]))
    (htypes : Verifier.reductionTypes type (trees.map LeafTypeTree.type) = true) :
    Delivers type (handle type trees) := by
  obtain ⟨rfl, w, htypes⟩ := reductionTypes_spec htypes
  rcases stored_of_widths htrees (show _ = [w].map Ty.bits from htypes) with _ | ⟨htree, hnil⟩
  rcases hnil with _ | _
  exact hhandle htree

theorem decided_identity (htypes : trees.map LeafTypeTree.type = [type]) :
    Decided ⟨.identity, operands, type⟩ trees := by
  constructor
  · intro hbits
    obtain ⟨w, rfl⟩ := exists_bits_of_isBits hbits
    refine handleVariadicOp_delivers rfl (resultWidth_unary ?_)
      (stored_of_widths htrees (show _ = [w].map Ty.bits from htypes))
    rintro a _ rfl ⟨⟩
    rfl
  · intro hnot
    refine .inl ?_
    rcases type with _ | _ | _ | _
    · exact absurd rfl hnot
    all_goals rfl

theorem decided_sel {hasDefault : Bool}
    (hverify : Verifier.selTypes hasDefault type (trees.map LeafTypeTree.type) = true) :
    Decided ⟨.sel hasDefault, operands, type⟩ trees := by
  rcases trees with _ | ⟨selector, arms⟩
  · cases hverify
  rw [List.map_cons] at hverify
  have hselector := htrees selector List.mem_cons_self
  rcases hsel : selector.type with w | _ | _ | _
  · rw [hsel] at hverify hselector
    obtain ⟨hyes, hno⟩ := handleSel_delivers_iff hselector
      (fun t ht => htrees t (List.mem_cons_of_mem _ ht)) hverify
    exact ⟨hyes, fun h => .inl (hno h)⟩
  all_goals
    rw [hsel] at hverify
    cases hverify

theorem decided_prioritySel
    (hverify : Verifier.prioritySelTypes type (trees.map LeafTypeTree.type) = true) :
    Decided ⟨.prioritySel, operands, type⟩ trees := by
  rcases trees with _ | ⟨selector, cases⟩
  · cases hverify
  rw [List.map_cons] at hverify
  have hselector := htrees selector List.mem_cons_self
  rcases hsel : selector.type with w | _ | _ | _
  · rw [hsel] at hverify hselector
    simp only [Verifier.prioritySelTypes, Bool.and_eq_true, decide_eq_true_eq, List.length_map]
      at hverify
    obtain ⟨hyes, hno⟩ := @handlePrioritySel_delivers_iff type _ _ _ hselector
      (fun t ht => htrees t (List.mem_cons_of_mem _ ht)) hverify.2
    exact ⟨hyes, fun h => .inl (hno h)⟩
  all_goals
    rw [hsel] at hverify
    cases hverify

theorem decided_gate (htypes : trees.map LeafTypeTree.type = [.bits 1, type]) :
    Decided ⟨.gate, operands, type⟩ trees := by
  rcases trees with _ | ⟨condition, _ | ⟨data, _ | _⟩⟩
  · cases htypes
  · simp at htypes
  · rw [List.map_cons, List.map_cons, List.cons.injEq, List.cons.injEq] at htypes
    have hcond := htrees condition (by simp)
    have hdata := htrees data (by simp)
    rw [htypes.1] at hcond
    rw [htypes.2.1] at hdata
    obtain ⟨hyes, hno⟩ := handleGate_delivers_iff hcond hdata
    exact ⟨hyes, fun h => .inl (hno h)⟩
  · simp at htypes

theorem decided_arrayIndex (hverify : Verifier.verifyNode ⟨.arrayIndex, operands, type⟩
    (trees.map LeafTypeTree.type) = true) : Decided ⟨.arrayIndex, operands, type⟩ trees := by
  rcases trees with _ | ⟨array, indices⟩
  · cases hverify
  simp only [Verifier.verifyNode, List.map_cons, Bool.and_eq_true, decide_eq_true_eq,
    List.length_map] at hverify
  obtain ⟨⟨hbits, -⟩, htype⟩ := hverify
  exact handleArrayIndex_delivers_iff (htrees array List.mem_cons_self)
    (fun t ht => htrees t (List.mem_cons_of_mem _ ht)) hbits htype

theorem decided_tupleIndex {index : ℕ} (hverify : Verifier.verifyNode
    ⟨.tupleIndex index, operands, type⟩ (trees.map LeafTypeTree.type) = true) :
    Decided ⟨.tupleIndex index, operands, type⟩ trees := by
  simp only [Verifier.verifyNode] at hverify
  rcases trees with _ | ⟨tree, _ | _⟩
  · cases hverify
  · rw [List.map_cons] at hverify
    have htree := (htrees tree List.mem_cons_self).toWellformed
    rcases hty : tree.type with _ | _ | ts | _
    · rw [hty] at hverify
      cases hverify
    · rw [hty] at hverify
      cases hverify
    · rw [hty] at hverify htree
      exact handleTupleIndex_delivers_iff htree (decide_eq_true_eq.mp hverify)
    · rw [hty] at hverify
      cases hverify
  · simp at hverify

/-- The handler of a verified node delivers when it is ready, and aborts otherwise. -/
theorem handleNode_delivers_iff (hlen : trees.length = n.operands.length)
    (hverify : Verifier.verifyNode n (trees.map LeafTypeTree.type) = true) : Decided n trees := by
  rcases n with ⟨op, operands, type⟩
  cases op
  case identity => exact decided_identity htrees (decide_eq_true_eq.mp hverify)
  case sel hasDefault => exact decided_sel htrees hverify
  case prioritySel => exact decided_prioritySel htrees hverify
  case gate => exact decided_gate htrees (decide_eq_true_eq.mp hverify)
  case arrayIndex => exact decided_arrayIndex htrees hverify
  case tupleIndex index => exact decided_tupleIndex htrees hverify
  all_goals simp only [Verifier.verifyNode] at hverify
  case param => exact iff_of_delivers (delivers_skip _)
  case literal value =>
    rw [Bool.and_eq_true] at hverify
    exact iff_of_delivers (handleLiteral_delivers hverify.2)
  case add =>
    obtain ⟨w, rfl, htypes⟩ := allSameBitsType_spec hverify
    exact iff_of_delivers
      (handleVariadicOp_delivers rfl (resultWidth_add w) (stored_of_widths htrees htypes))
  case sub =>
    obtain ⟨w, rfl, htypes⟩ := allSameBitsType_spec hverify
    exact iff_of_delivers
      (handleVariadicOp_delivers rfl (resultWidth_sub w) (stored_of_widths htrees htypes))
  case neg =>
    obtain ⟨w, rfl, htypes⟩ := allSameBitsType_spec hverify
    refine iff_of_delivers (handleVariadicOp_delivers rfl (resultWidth_unary ?_)
      (stored_of_widths htrees htypes))
    rintro a _ ha ⟨⟩
    exact ha
  case udiv =>
    obtain ⟨w, rfl, htypes⟩ := allSameBitsType_spec hverify
    refine iff_of_delivers (handleVariadicOp_delivers rfl (resultWidth_binary ?_)
      (stored_of_widths htrees htypes))
    rintro a b _ ha - ⟨⟩
    exact (BitsOps.uDiv_bitCount a b).trans ha
  case umul =>
    split at hverify
    · rename_i u v htypes
      obtain ⟨w, rfl⟩ := exists_bits_of_isBits hverify
      exact iff_of_delivers (handleVariadicOp_delivers rfl (resultWidth_umul u v w)
        (stored_of_widths htrees (show _ = [u, v].map Ty.bits from htypes)))
    · cases hverify
  case concat =>
    rw [decide_eq_true_eq] at hverify
    obtain ⟨total, htotal, rfl⟩ := Option.map_eq_some_iff.mp hverify
    obtain ⟨widths, htypes, rfl⟩ := totalBits_spec htotal
    have hwidths : trees.length = widths.length := by
      simpa using congrArg List.length htypes
    refine iff_of_delivers (handleVariadicOp_delivers ?_ (resultWidth_concat widths)
      (stored_of_widths htrees htypes))
    rw [List.length_replicate, ← hwidths]
    exact hlen.symm
  case zeroExt w =>
    obtain ⟨v, htypes, hle, rfl⟩ := extendTypes_spec hverify
    refine iff_of_delivers (handleVariadicOp_delivers rfl (resultWidth_unary ?_)
      (stored_of_widths htrees htypes))
    rintro a _ rfl ⟨⟩
    exact BitsOps.zeroExtend_bitCount hle
  case signExt w =>
    obtain ⟨v, htypes, hle, rfl⟩ := extendTypes_spec hverify
    refine iff_of_delivers (handleVariadicOp_delivers rfl (resultWidth_unary ?_)
      (stored_of_widths htrees htypes))
    rintro a _ rfl ⟨⟩
    exact BitsOps.signExtend_bitCount hle
  case eq =>
    obtain ⟨rfl, lhs, rhs, rfl, hl, hr⟩ := compareTypes_spec htrees hverify
    exact iff_of_delivers (handleEquality_delivers true hl hr)
  case ne =>
    obtain ⟨rfl, lhs, rhs, rfl, hl, hr⟩ := compareTypes_spec htrees hverify
    exact iff_of_delivers (handleEquality_delivers false hl hr)
  case ugt => exact handleCompare_ready htrees (fun s t _ _ hw => exists_analyzeLt hw.symm) hverify
  case uge =>
    exact handleCompare_ready htrees (fun s t hs ht hw =>
      exists_orEqual (exists_analyzeLt hw.symm) (exists_analyzeEq hs ht hw)) hverify
  case ult => exact handleCompare_ready htrees (fun s t _ _ hw => exists_analyzeLt hw) hverify
  case ule =>
    exact handleCompare_ready htrees (fun s t hs ht hw =>
      exists_orEqual (exists_analyzeLt hw) (exists_analyzeEq hs ht hw)) hverify
  case sgt | sge | slt | sle => exact iff_of_delivers (delivers_skip _)
  case andReduce =>
    exact iff_of_delivers (reduction_ready htrees handleAndReduce_delivers hverify)
  case orReduce => exact iff_of_delivers (reduction_ready htrees handleOrReduce_delivers hverify)
  case xorReduce =>
    exact iff_of_delivers (reduction_ready htrees handleXorReduce_delivers hverify)
  case array =>
    rcases type with _ | _ | _ | ⟨size, t⟩
    · cases hverify
    · cases hverify
    · cases hverify
    exact iff_of_delivers (handleMembers_delivers rfl
      (stored_of_types htrees (decide_eq_true_eq.mp hverify)))
  case arrayConcat =>
    exact iff_of_delivers (handleArrayConcat_delivers (stored_of_types htrees rfl)
      (decide_eq_true_eq.mp hverify))
  case tuple =>
    rw [decide_eq_true_eq] at hverify
    subst hverify
    exact iff_of_delivers (handleMembers_delivers rfl (stored_of_types htrees rfl))
  case other _ _ => exact iff_of_delivers (delivers_skip _)

end Node

end Range

/-! ## The engine -/

namespace RangeQueryEngine

open Range

theorem wellformed_maximal (type : Ty) : Wellformed type (maximalTree type) :=
  wellformed_ofLeafTypes (fun _ => IntervalSet.maximal_bitCount _)
    fun _ => IntervalSet.maximal_isNormalized _

/-- Well-formed trees of one type can be intersected. -/
theorem intersectTrees_wellformed {type : Ty} {t u : IntervalSetTree} (ht : Wellformed type t)
    (hu : Wellformed type u) :
    ∃ c, LeafTypeTree.zip IntervalSet.intersect t u = some c ∧ Wellformed type c ∧
      LeafTypeTree.zipElements IntervalSet.intersect t.elements u.elements = some c.elements := by
  obtain ⟨httype, htwidths⟩ := ht.shaped
  obtain ⟨hutype, huwidths⟩ := hu.shaped
  have hzip : ∀ {as bs : List IntervalSet} {types : List Ty},
      List.Forall₂ (fun s t => s.bitCount = t.flatBitCount) as types →
      List.Forall₂ (fun s t => s.bitCount = t.flatBitCount) bs types →
      (∀ s ∈ as, s.isNormalized = true) → (∀ s ∈ bs, s.isNormalized = true) →
      ∃ cs, LeafTypeTree.zipElements IntervalSet.intersect as bs = some cs ∧
        List.Forall₂ (fun s t => s.bitCount = t.flatBitCount) cs types := by
    intro as bs types ha
    induction ha generalizing bs with
    | nil =>
      intro hb _ _
      rcases hb with _ | _
      exact ⟨[], rfl, .nil⟩
    | @cons a t as types hat _ ih =>
      intro hb hna hnb
      rcases hb with _ | @⟨b, _, bs, _, hbt, hbs⟩
      obtain ⟨cs, hcs, hwidths⟩ := ih hbs (fun s hs => hna s (List.mem_cons_of_mem _ hs))
        fun s hs => hnb s (List.mem_cons_of_mem _ hs)
      obtain ⟨c, hc⟩ := IntervalSet.intersect_isSome (hbt.trans hat.symm)
        (hna a List.mem_cons_self) (hnb b List.mem_cons_self)
      refine ⟨c :: cs, ?_, .cons ?_ hwidths⟩
      · rw [LeafTypeTree.zipElements, hc, hcs]
      · exact (IntervalSet.intersect_eq_some hc).2.1.trans hat
  obtain ⟨cs, hcs, hwidths⟩ := hzip htwidths huwidths ht.normalized hu.normalized
  have hlen : cs.length = type.leafCount := by
    rw [hwidths.length_eq, Ty.length_leafTypes]
  refine ⟨⟨type, cs, hlen⟩, ?_, ⟨⟨rfl, hwidths⟩, ?_⟩, hcs⟩
  · simp only [LeafTypeTree.zip, httype, hutype, ↓reduceIte, hcs, LeafTypeTree.ofElements, hlen,
      ↓reduceDIte]
  · exact LeafTypeTree.mem_zipElements (fun h => (IntervalSet.intersect_eq_some h).2.2.1) hcs

/-- The intersection with everything keeps the points. -/
theorem hasPoint_intersect_maximal {w : ℕ} {s c : IntervalSet} (hs : s.bitCount = w)
    (h : (IntervalSet.maximal w).intersect s = some c) : c.HasPoint ↔ s.HasPoint := by
  obtain ⟨-, -, -, hiff⟩ := IntervalSet.intersect_eq_some h
  constructor
  · rintro ⟨b, hb⟩
    exact ⟨b, ((hiff b).mp hb).2⟩
  · rintro ⟨b, hb⟩
    exact ⟨b, (hiff b).mpr ⟨IntervalSet.maximal_Covers (hb.1.trans hs), hb⟩⟩

/-- Known bits can be extracted exactly from a set with a point. -/
theorem extractKnownBits_iff {s : IntervalSet} (hs : s.isNormalized = true) :
    (extractKnownBits s).isSome = true ↔ s.HasPoint := by
  rw [IntervalSet.hasPoint_iff hs]
  unfold extractKnownBits
  rw [if_pos hs]
  rcases hi : s.intervals with _ | ⟨i, rest⟩
  · simp
  · rw [List.getLast?_cons]
    simp

/-- Everything stored belongs to a node before position `id`, and is a tree of its type. -/
def StoredBefore (f : FunctionBase) (id : ℕ) (e : RangeQueryEngine) : Prop :=
  ∀ i tree, e.intervalSets i = some tree → i < id ∧ ∃ n, f.nodes[i]? = some n ∧ Stored n.type tree

theorem storedBefore_empty (f : FunctionBase) : StoredBefore f 0 empty := by
  intro i tree h
  cases h

section Visit

variable {f : FunctionBase} {id : ℕ} {e : RangeQueryEngine} {n : Node}

theorem StoredBefore.initializeNode (he : StoredBefore f id e) (i : ℕ) (type : Ty) :
    StoredBefore f id (e.initializeNode i type) := by
  intro j tree h
  rw [initializeNode_intervalSets] at h
  exact he j tree h

theorem StoredBefore.mono (he : StoredBefore f id e) : StoredBefore f (id + 1) e := by
  intro i tree h
  obtain ⟨hlt, hstored⟩ := he i tree h
  exact ⟨Nat.lt_succ_of_lt hlt, hstored⟩

/-- The operands of a verified node have trees of their types. -/
theorem StoredBefore.operandTrees (he : StoredBefore f id e) {ids : List ℕ} {types : List Ty}
    (h : Verifier.operandTypes f id ids = some types) :
    ∃ trees, e.operandTrees f ids = some trees ∧ trees.map LeafTypeTree.type = types ∧
      trees.length = ids.length ∧ ∀ t ∈ trees, Stored t.type t := by
  induction ids generalizing types with
  | nil =>
    cases h
    exact ⟨[], rfl, rfl, rfl, by simp⟩
  | cons i ids ih =>
    rw [Verifier.operandTypes] at h
    split at h
    · split at h
      · rename_i m types' hm htypes
        cases h
        obtain ⟨trees, htrees, hmap, hlen, hstored⟩ := ih htypes
        have hone : ∃ tree, e.getIntervalSetTree f i = some tree ∧ Stored m.type tree := by
          unfold getIntervalSetTree
          rcases htree : e.intervalSets i with _ | tree
          · rw [hm]
            refine ⟨maximalTree m.type, rfl, wellformed_maximal _, fun _ s hs => ?_⟩
            obtain ⟨t, -, rfl⟩ := List.mem_map.mp hs
            exact IntervalSet.hasPoint_maximal _
          · obtain ⟨-, m', hm', hstored'⟩ := he i tree htree
            rw [hm] at hm'
            cases hm'
            exact ⟨tree, rfl, hstored'⟩
        obtain ⟨tree, htree, hst⟩ := hone
        refine ⟨tree :: trees, by rw [RangeQueryEngine.operandTrees, htree, htrees], ?_, ?_, ?_⟩
        · rw [List.map_cons, hmap, hst.shaped.1]
        · rw [List.length_cons, List.length_cons, hlen]
        · intro t ht
          rcases List.mem_cons.mp ht with rfl | ht
          · rw [hst.shaped.1]
            exact hst
          · exact hstored t ht
      · cases h
    · cases h

/-- A tree for the node at `id` is stored exactly when its set has a point, should the node be of
bits type. -/
theorem StoredBefore.setIntervalSetTree (he : StoredBefore f id e) (hn : f.nodes[id]? = some n)
    {tree : IntervalSetTree} (htree : Wellformed n.type tree) :
    (Stored n.type tree →
      ∃ e', e.setIntervalSetTree f id n.type tree = some e' ∧ StoredBefore f (id + 1) e') ∧
    (n.type.isBits = true → (∃ s ∈ tree.elements, ¬ s.HasPoint) →
      e.setIntervalSetTree f id n.type tree = none) := by
  have hfresh : e.intervalSets id = none := by
    by_contra hne
    obtain ⟨t, ht⟩ := Option.ne_none_iff_exists'.mp hne
    exact absurd (he id t ht).1 (lt_irrefl id)
  have hget : e.getIntervalSetTree f id = some (maximalTree n.type) := by
    unfold getIntervalSetTree
    rw [hfresh, hn]
    rfl
  obtain ⟨c, hc, hcwf, hzip⟩ := intersectTrees_wellformed (wellformed_maximal n.type) htree
  -- on a node of bits type, the new tree has one set with the points of the given one
  have hbits : n.type.isBits = true → ∃ s s', tree.elements = [s] ∧ c.elements = [s'] ∧
      c.get [] = some s' ∧ s'.isNormalized = true ∧ (s'.HasPoint ↔ s.HasPoint) := by
    intro hb
    obtain ⟨w, hw⟩ := exists_bits_of_isBits hb
    have hleaf : n.type.isLeafType = true := by rw [hw]; rfl
    obtain ⟨s, hs, -, hsw, -⟩ := htree.leaf hleaf
    obtain ⟨s', hs', hget', -, hnorm⟩ := hcwf.leaf hleaf
    have hone : (maximalTree n.type).elements = [IntervalSet.maximal w] := by
      rw [hw]
      rfl
    rw [hone, hs, hs'] at hzip
    have hint : (IntervalSet.maximal w).intersect s = some s' := by
      rcases hi : (IntervalSet.maximal w).intersect s with _ | r
      · simp [LeafTypeTree.zipElements, hi] at hzip
      · simpa [LeafTypeTree.zipElements, hi] using hzip
    rw [hw] at hsw
    exact ⟨s, s', hs, hs', hget', hnorm, hasPoint_intersect_maximal hsw hint⟩
  unfold RangeQueryEngine.setIntervalSetTree
  simp only [hget, hc]
  constructor
  · intro hstored
    have hcstored : Stored n.type c := by
      refine ⟨hcwf, fun hb r hr => ?_⟩
      obtain ⟨s, s', hs, hs', -, -, hpoint⟩ := hbits hb
      rw [hs', List.mem_singleton] at hr
      rw [hr, hpoint]
      exact hstored.hasPoint hb s (by rw [hs]; exact List.mem_singleton_self s)
    have hknown : ∃ known, knownBitsOfTree n.type c (e.knownBits id) = some known := by
      unfold knownBitsOfTree
      split
      · rename_i hb
        obtain ⟨s, s', hs, hs', hget', hnorm, -⟩ := hbits hb
        rw [hget']
        obtain ⟨known, hknown⟩ := Option.isSome_iff_exists.mp ((extractKnownBits_iff hnorm).mpr
          (hcstored.hasPoint hb s' (by rw [hs']; exact List.mem_singleton_self s')))
        exact ⟨some known, by simp only [hknown, Option.map_some]⟩
      · exact ⟨_, rfl⟩
    obtain ⟨known, hknown⟩ := hknown
    rw [hknown]
    refine ⟨_, rfl, ?_⟩
    intro i t ht
    by_cases hi : i = id
    · subst hi
      simp only [Function.update_self, Option.some.injEq] at ht
      subst ht
      exact ⟨Nat.lt_succ_self i, n, hn, hcstored⟩
    · simp only [Function.update_of_ne hi] at ht
      exact he.mono i t ht
  · rintro hb ⟨r, hr, hnot⟩
    obtain ⟨s, s', hs, hs', hget', hnorm, hpoint⟩ := hbits hb
    rw [hs, List.mem_singleton] at hr
    rw [hr, ← hpoint, ← extractKnownBits_iff hnorm, Bool.not_eq_true, Option.isSome_eq_false_iff,
      Option.isNone_iff_eq_none] at hnot
    have hnone : knownBitsOfTree n.type c (e.knownBits id) = none := by
      unfold knownBitsOfTree
      rw [if_pos hb, hget']
      simp only [hnot, Option.map_none]
    rw [hnone]

/-- The handler of the node at `id` is ready on the trees which the engine holds. -/
def Ready (f : FunctionBase) (e : RangeQueryEngine) (n : Node) : Prop :=
  ∀ trees, e.operandTrees f n.operands = some trees → HandlerReady n trees

/-- The visit of a verified node returns exactly when the node is ready. -/
theorem StoredBefore.visitNode (hverify : Verifier.verify f = true) (he : StoredBefore f id e)
    (hn : f.nodes[id]? = some n) :
    (Ready f e n → ∃ e', visitNode f e id n = some e' ∧ StoredBefore f (id + 1) e') ∧
    (¬ Ready f e n → visitNode f e id n = none) := by
  obtain ⟨types, htypes, hnode⟩ := Verifier.verifyNode_of_verify hverify hn
  have hinit := he.initializeNode id n.type
  obtain ⟨trees, htrees, hmap, hlen, hstored⟩ := hinit.operandTrees htypes
  rw [← hmap] at hnode
  obtain ⟨hdelivers, haborts⟩ := handleNode_delivers_iff hstored hlen hnode
  have hsame : e.operandTrees f n.operands = some trees := by
    rw [← htrees]
    have hget : ∀ i, (e.initializeNode id n.type).getIntervalSetTree f i =
        e.getIntervalSetTree f i := by
      intro i
      unfold getIntervalSetTree
      rw [initializeNode_intervalSets]
    generalize n.operands = ids
    induction ids with
    | nil => rfl
    | cons i ids ih => rw [RangeQueryEngine.operandTrees, RangeQueryEngine.operandTrees, hget, ih]
  have hready : Ready f e n ↔ HandlerReady n trees := by
    constructor
    · exact fun h => h trees hsame
    · intro h trees' htrees'
      rw [hsame] at htrees'
      cases htrees'
      exact h
  rw [hready]
  unfold RangeQueryEngine.visitNode
  simp only [htrees]
  constructor
  · intro h
    obtain ⟨_ | tree, hout, htree⟩ := hdelivers h
    · simp only [hout]
      exact ⟨_, rfl, hinit.mono⟩
    · simp only [hout]
      have hst := htree tree rfl
      exact (hinit.setIntervalSetTree hn hst.toWellformed).1 hst
  · intro h
    rcases haborts h with hnone | ⟨tree, hout, hwf, hb, hempty⟩
    · simp only [hnone]
    · simp only [hout]
      exact (hinit.setIntervalSetTree hn hwf).2 hb hempty

end Visit

/-- From a position on, the analysis returns exactly when each node is ready on the engine with
which its visit begins. -/
theorem visitFrom_isSome_iff {f : FunctionBase} (hverify : Verifier.verify f = true)
    {rest : List Node} :
    ∀ {id : ℕ} {e : RangeQueryEngine}, StoredBefore f id e → f.nodes.drop id = rest →
      ((visitFrom f id rest e).isSome = true ↔
        ∀ k n e', rest[k]? = some n → visitFrom f id (rest.take k) e = some e' → Ready f e' n) := by
  induction rest with
  | nil =>
    intro id e _ _
    simp [visitFrom]
  | cons n rest ih =>
    intro id e he hdrop
    have hn : f.nodes[id]? = some n := by
      rw [← List.head?_drop, hdrop, List.head?_cons]
    have hrest : f.nodes.drop (id + 1) = rest := by
      rw [← List.tail_drop, hdrop, List.tail_cons]
    obtain ⟨hyes, hno⟩ := he.visitNode hverify hn
    rw [visitFrom]
    by_cases hready : Ready f e n
    · obtain ⟨e₁, hvisit, he₁⟩ := hyes hready
      simp only [hvisit]
      rw [ih he₁ hrest]
      constructor
      · rintro h (_ | k) m e' hm hrun
        · cases hm
          cases hrun
          exact hready
        · rw [List.take_succ_cons, visitFrom, hvisit] at hrun
          exact h k m e' hm hrun
      · intro h k m e' hm hrun
        refine h (k + 1) m e' hm ?_
        rw [List.take_succ_cons, visitFrom, hvisit]
        exact hrun
    · simp only [hno hready, Option.isSome_none, Bool.false_eq_true, false_iff]
      intro h
      exact hready (h 0 n e rfl rfl)

/-- On a verified function, `Populate` returns exactly when in every step the visited node is
ready on the engine which the visits of the earlier nodes have left. -/
theorem populate_isSome_iff (f : FunctionBase) (hverify : Verifier.verify f = true) :
    (populate f empty).isSome = true ↔
      ∀ id n e, f.nodes[id]? = some n → visitFrom f 0 (f.nodes.take id) empty = some e →
        Ready f e n :=
  visitFrom_isSome_iff hverify (storedBefore_empty f) List.drop_zero

/-- A select whose 65-bit selector is `2^64`. -/
def wideSelector : FunctionBase where
  nodes :=
    [⟨.literal (.bits ⟨65, 2 ^ 64, by norm_num⟩), [], .bits 65⟩,
     ⟨.literal (.bits ⟨1, 0, by decide⟩), [], .bits 1⟩,
     ⟨.sel true, [0, 1, 1], .bits 1⟩]
  implicitUses := [2]

/-- The analysis of `wrapSample` returns, so that each of its nodes is ready at its visit. -/
theorem ready_wrapSample : (populate wrapSample empty).isSome = true ∧
      ∀ id n e, wrapSample.nodes[id]? = some n →
        visitFrom wrapSample 0 (wrapSample.nodes.take id) empty = some e →
        Ready wrapSample e n :=
  have h : (populate wrapSample empty).isSome = true := by decide +kernel
  ⟨h, (populate_isSome_iff wrapSample (by decide +kernel)).mp h⟩

/-- Not every verified function can be analyzed: the selector of `wideSelector` is read as a
64-bit value. -/
theorem populate_aborts_wideSelector :
    ¬ ∀ f, Verifier.verify f = true → ∃ e, populate f empty = some e := by
  intro h
  obtain ⟨e, he⟩ := h wideSelector (by decide +kernel)
  have hnone : (populate wideSelector empty).isSome = false := by decide +kernel
  rw [he] at hnone
  cases hnone

end RangeQueryEngine

end Xls
