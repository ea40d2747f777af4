/-
# Sound abstractions of the boolean evaluator

An evaluator abstracts the boolean one when its primitives are sound for a relation
between its elements and booleans, and its zero does not describe a set bit
(`Evaluator.Abstracts`).  Then all operations of `xls/ir/abstract_evaluator.h` are sound:
on elements which describe the bits of concrete vectors, they fail when the boolean
operation fails, and otherwise their result describes its result.

Most operations preserve every such relation, because they are built from the primitives
and decide on sizes only.  The selects look at the elements of the selector.  There the
argument is that the mask of a select never exceeds its result when an element of the
concrete selector is set (`bool_bitwiseOr_mask`), so that the abstract mask may be
computed over more cases than the concrete one.
-/
import Xls.Ir.BooleanEvaluator
import Xls.Lib.Relational

namespace Xls
namespace Evaluator

open BoolList Relational

/-- `E` abstracts the boolean evaluator: `describes a b` says that the element `a` admits
the bit `b`. -/
structure Abstracts {α : Type*} (E : Evaluator α) (describes : α → Bool → Prop) : Prop where
  one : describes E.one bool.one
  zero : describes E.zero bool.zero
  zero_only : ¬ describes E.zero true
  not : ∀ {a x}, describes a x → describes (E.not a) (bool.not x)
  and : ∀ {a b x y}, describes a x → describes b y → describes (E.and a b) (bool.and x y)
  or : ∀ {a b x y}, describes a x → describes b y → describes (E.or a b) (bool.or x y)

/-- Vectors, element by element. -/
abbrev DescribesVector {α : Type*} (describes : α → Bool → Prop) : List α → List Bool → Prop :=
  List.Forall₂ describes

/-- Outcomes which are vectors: both fail, or the results are related. -/
abbrev DescribesResult {α : Type*} (describes : α → Bool → Prop) :
    Option (List α) → Option (List Bool) → Prop :=
  Option.Rel (DescribesVector describes)

namespace Abstracts

variable {α : Type*} {E : Evaluator α} {describes : α → Bool → Prop}

variable (h : E.Abstracts describes)

include h

/-! ## Elements -/

section Elements

variable {a b c : α} {x y z : Bool}

/-- The exclusive or. -/
theorem xor (ha : describes a x) (hb : describes b y) : describes (E.xor a b) (bool.xor x y) :=
  h.and (h.or ha hb) (h.not (h.and ha hb))

/-- Sum and carry of two elements. -/
theorem halfAdder (ha : describes a x) (hb : describes b y) :
    describes (E.halfAdder a b).sum (bool.halfAdder x y).sum ∧
      describes (E.halfAdder a b).carry (bool.halfAdder x y).carry :=
  ⟨h.and (h.or ha hb) (h.not (h.and ha hb)), h.and ha hb⟩

/-- Sum and carry of three elements. -/
theorem fullAdder (ha : describes a x) (hb : describes b y) (hc : describes c z) :
    describes (E.fullAdder a b c).sum (bool.fullAdder x y z).sum ∧
      describes (E.fullAdder a b c).carry (bool.fullAdder x y z).carry := by
  obtain ⟨hsum, hcarry⟩ := h.halfAdder ha hb
  obtain ⟨hsum', hcarry'⟩ := h.halfAdder hsum hc
  exact ⟨hsum', h.or hcarry hcarry'⟩

end Elements

/-! ## Vectors -/

section Vectors

variable {v w : List α} {s t : List Bool} {vs : List (List α)} {ss : List (List Bool)}

/-- A constant. -/
theorem bitsToVector (bits : Bits) :
    DescribesVector describes (E.bitsToVector bits) (bool.bitsToVector bits) := by
  refine forall₂_map_same _ fun i => ?_
  cases bits.get i
  · exact h.zero
  · exact h.one

/-- A constant number, where it fits. -/
theorem uBitsVector (n width : ℕ) :
    DescribesResult describes (E.uBitsVector n width) (bool.uBitsVector n width) := by
  unfold Evaluator.uBitsVector
  rcases Bits.uBits n width with _ | bits
  · exact .none
  · exact .some (h.bitsToVector bits)

/-- All elements inverted. -/
theorem bitwiseNot (hv : DescribesVector describes v s) :
    DescribesVector describes (E.bitwiseNot v) (bool.bitwiseNot s) :=
  List.rel_map (fun _ _ hab => h.not hab) hv

section

variable (hvs : List.Forall₂ (DescribesVector describes) vs ss)

include hvs

omit h in
/-- Related inputs have the same sizes. -/
theorem forall_le_length_iff {n : ℕ} : (∀ v ∈ vs, n ≤ v.length) ↔ ∀ s ∈ ss, n ≤ s.length := by
  induction hvs with
  | nil => simp
  | cons hab _ ih => simp [hab.length_eq, ih]

omit hvs in
omit h in
/-- An operation on many vectors, element by element. -/
theorem naryOp {f : α → α → α} {g : Bool → Bool → Bool}
    (hf : ∀ a b x y, describes a x → describes b y → describes (f a b) (g x y))
    (hvs : List.Forall₂ (DescribesVector describes) vs ss) :
    DescribesResult describes (Evaluator.naryOp f vs) (Evaluator.naryOp g ss) := by
  rcases hvs with _ | ⟨hfront, hrest⟩
  · exact .none
  · refine rel_ite ?_ (fun _ _ => .some ?_) fun _ _ => .none
    · rw [hfront.length_eq, forall_le_length_iff hrest]
    · refine rel_foldl hrest hfront fun _ _ _ _ hr hc => ?_
      exact forall₂_zipWith hr hc fun _ _ _ _ ha hb => hf _ _ _ _ ha hb

/-- The conjunction of vectors. -/
theorem bitwiseAnd : DescribesResult describes (E.bitwiseAnd vs) (bool.bitwiseAnd ss) :=
  naryOp (fun _ _ _ _ ha hb => h.and ha hb) hvs

/-- The disjunction of vectors. -/
theorem bitwiseOr : DescribesResult describes (E.bitwiseOr vs) (bool.bitwiseOr ss) :=
  naryOp (fun _ _ _ _ ha hb => h.or ha hb) hvs

/-- The exclusive or of vectors. -/
theorem bitwiseXor : DescribesResult describes (E.bitwiseXor vs) (bool.bitwiseXor ss) :=
  naryOp (fun _ _ _ _ ha hb => h.xor ha hb) hvs

omit hvs in
omit h in
/-- A slice, where it is in bounds. -/
theorem bitSlice (start width : ℕ) (hv : DescribesVector describes v s) :
    DescribesResult describes (Evaluator.bitSlice v start width)
      (Evaluator.bitSlice s start width) :=
  rel_ite (by rw [hv.length_eq])
    (fun _ _ => .some (List.forall₂_take _ (List.forall₂_drop _ hv))) fun _ _ => .none

omit h in
/-- Vectors behind one another. -/
theorem concat : DescribesVector describes (Evaluator.concat vs) (Evaluator.concat ss) :=
  List.rel_flatten (List.rel_reverse hvs)

end

section

variable (hv : DescribesVector describes v s)

include hv

/-! ## Comparisons -/

/-- Equality. -/
theorem equals (hw : DescribesVector describes w t) :
    Option.Rel describes (E.equals v w) (bool.equals s t) := by
  refine rel_ite (by rw [hv.length_eq, hw.length_eq]) (fun _ _ => .some ?_) fun _ _ => .none
  refine rel_foldl (forall₂_zip hv hw) h.one fun _ _ _ _ hr hp => ?_
  exact h.and hr (h.or (h.and hp.1 hp.2) (h.and (h.not hp.1) (h.not hp.2)))

/-- The unsigned comparison. -/
theorem uLessThan (hw : DescribesVector describes w t) :
    Option.Rel describes (E.uLessThan v w) (bool.uLessThan s t) := by
  refine rel_ite (by rw [hv.length_eq, hw.length_eq]) (fun _ _ => .some ?_) fun _ _ => .none
  have hpair := rel_foldr (R := fun p q => describes p.1 q.1 ∧ describes p.2 q.2)
    (f := E.uLessThanStep) (g := bool.uLessThanStep) (a := (E.zero, E.one))
    (b := (bool.zero, bool.one)) (forall₂_zip hv hw) ⟨h.zero, h.one⟩ (by
      intro r r' p p' hr hp
      exact ⟨h.or hr.1 (h.and hr.2 (h.and (h.not hp.1) hp.2)), h.and hr.2 (h.or (h.not hp.1) hp.2)⟩)
  exact hpair.1

/-- The signed comparison. -/
theorem sLessThan (hw : DescribesVector describes w t) :
    Option.Rel describes (E.sLessThan v w) (bool.sLessThan s t) := by
  refine rel_bind (rel_getLast? hv) fun a x ha => rel_bind (rel_getLast? hw) fun b y hb => ?_
  refine rel_bind (h.uLessThan hv hw) fun l z hl => .some ?_
  exact h.or (h.and ha (h.not hb)) (h.and (h.not (h.and (h.not ha) hb)) hl)

omit hv in
/-- Zeros on top. -/
theorem zeroExtend (n : ℕ) (hv : DescribesVector describes v s) :
    DescribesResult describes (E.zeroExtend v n) (bool.zeroExtend s n) := by
  refine rel_ite (by rw [hv.length_eq]) (fun _ _ => .some ?_) fun _ _ => .none
  rw [hv.length_eq]
  exact concat (.cons (forall₂_replicate h.zero _) (.cons hv .nil))

omit hv in
omit h in
/-- Copies of the last element on top. -/
theorem signExtend (n : ℕ) (hv : DescribesVector describes v s) :
    DescribesResult describes (Evaluator.signExtend v n) (Evaluator.signExtend s n) := by
  refine rel_bind (rel_getLast? hv) fun a x ha => ?_
  refine rel_ite (by rw [hv.length_eq]) (fun _ _ => .some ?_) fun _ _ => .none
  rw [hv.length_eq]
  exact concat (.cons (forall₂_replicate ha _) (.cons hv .nil))

/-! ## Reductions -/

/-- The conjunction of the elements. -/
theorem andReduce : DescribesVector describes (E.andReduce v) (bool.andReduce s) :=
  .cons (rel_foldl hv h.one fun _ _ _ _ hr he => h.and hr he) .nil

/-- The disjunction of the elements. -/
theorem orReduce : DescribesVector describes (E.orReduce v) (bool.orReduce s) :=
  .cons (rel_foldl hv h.zero fun _ _ _ _ hr he => h.or hr he) .nil

/-- The parity of the elements. -/
theorem xorReduce : DescribesVector describes (E.xorReduce v) (bool.xorReduce s) :=
  .cons (rel_foldl hv h.zero fun _ _ _ _ hr he =>
    h.or (h.and (h.not hr) he) (h.and hr (h.not he))) .nil

omit hv in
/-- The first set element, and whether there is none. -/
theorem oneHotLoop {a : α} {x : Bool} (ha : describes a x) (hv : DescribesVector describes v s) :
    DescribesVector describes (E.oneHotLoop a v).1 (bool.oneHotLoop x s).1 ∧
      describes (E.oneHotLoop a v).2 (bool.oneHotLoop x s).2 := by
  induction hv generalizing a x with
  | nil => exact ⟨.nil, ha⟩
  | cons he _ ih =>
    obtain ⟨hv, hlast⟩ := ih (h.and ha (h.not he))
    exact ⟨.cons (h.and ha he) hv, hlast⟩

/-- One-hot from the least significant element on. -/
theorem oneHotLsbToMsb : DescribesVector describes (E.oneHotLsbToMsb v) (bool.oneHotLsbToMsb s) :=
  forall₂_append (h.oneHotLoop h.one hv).1 (.cons (h.oneHotLoop h.one hv).2 .nil)

/-- One-hot from the most significant element on. -/
theorem oneHotMsbToLsb : DescribesVector describes (E.oneHotMsbToLsb v) (bool.oneHotMsbToLsb s) :=
  have hloop := h.oneHotLoop h.one (List.rel_reverse hv)
  forall₂_append (List.rel_reverse hloop.1) (.cons hloop.2 .nil)

end

end Vectors

end Abstracts

/-! ## The masks of the selects -/

/-- Pointwise order of vectors of bits. -/
abbrev BitsLE : List Bool → List Bool → Prop := List.Forall₂ (· ≤ ·)

theorem BitsLE.trans {u v w : List Bool} (huv : BitsLE u v) (hvw : BitsLE v w) : BitsLE u w := by
  induction huv generalizing w with
  | nil => exact hvw
  | cons hab _ ih =>
    rcases hvw with _ | ⟨hbc, hvw⟩
    exact .cons (le_trans hab hbc) (ih hvw)

theorem BitsLE.refl (v : List Bool) : BitsLE v v := List.forall₂_same.mpr fun _ _ => le_rfl

variable {m : List Bool} {spans : List (List Bool)}

/-- A conjunction is below both of its sides. -/
theorem zipWith_and_le {c : List Bool} (h : m.length = c.length) :
    BitsLE (List.zipWith bool.and m c) m ∧ BitsLE (List.zipWith bool.and m c) c := by
  induction m generalizing c with
  | nil => rw [List.length_eq_zero_iff.mp h.symm]; exact ⟨.nil, .nil⟩
  | cons x m ih =>
    rcases c with _ | ⟨y, c⟩
    · cases h
    · obtain ⟨hm, hc⟩ := ih (by simpa using h)
      exact ⟨.cons (Bool.and_le_left x y) hm, .cons (Bool.and_le_right x y) hc⟩

/-- A larger vector absorbs the smaller one. -/
theorem zipWith_or_of_le {r : List Bool} (h : BitsLE m r) : List.zipWith bool.or m r = r := by
  induction h with
  | nil => rfl
  | cons hab _ ih =>
    rw [List.zipWith_cons_cons, ih]
    exact congrArg (· :: _) (sup_eq_right.mpr hab)

/-- A larger vector absorbs the smaller one. -/
theorem bool_bitwiseOr_of_le {r : List Bool} (h : BitsLE m r) : bool.bitwiseOr [m, r] = some r := by
  rw [bitwiseOr, naryOp, if_pos (by simp [h.length_eq]), List.foldl_cons, List.foldl_nil,
    zipWith_or_of_le h]

/-- The mask stays below where it starts and below every case which is kept. -/
theorem foldl_andReduction_le {w : ℕ} (keep : List Bool) (spans : List (List Bool))
    (hw : ∀ c ∈ spans, c.length = w) (m : List Bool) (hm : m.length = w) :
    ∀ r, r = (keep.zip spans).foldl (fun m (k, c) => if k then List.zipWith bool.and m c else m) m →
      BitsLE r m ∧ ∀ c, (true, c) ∈ keep.zip spans → BitsLE r c := by
  induction keep generalizing spans m with
  | nil => rintro r rfl; exact ⟨BitsLE.refl r, by simp⟩
  | cons k keep ih =>
    rcases spans with _ | ⟨c, spans⟩
    · rintro r rfl
      exact ⟨BitsLE.refl r, by simp⟩
    · rintro r rfl
      have hc : m.length = c.length := hm.trans (hw c (by simp)).symm
      rcases k with _ | _
      · obtain ⟨hstart, hkept⟩ := ih spans (fun c hc => hw c (by simp [hc])) m hm _ rfl
        exact ⟨hstart, fun c' hc' => hkept c' (by simpa using hc')⟩
      · obtain ⟨hstart, hkept⟩ := ih spans (fun c hc => hw c (by simp [hc]))
          (List.zipWith bool.and m c) (by simp [← hc, hm]) _ rfl
        refine ⟨hstart.trans (zipWith_and_le hc).1, fun c' hc' => ?_⟩
        rcases List.mem_cons.mp hc' with heq | hc'
        · cases heq
          exact hstart.trans (zipWith_and_le hc).2
        · exact hkept c' hc'

/-- What the mask relies on: the result of a select is above some selected case. -/
def Picks (result : List Bool → List (List Bool) → ℕ → List Bool) : Prop :=
  ∀ (selector : List Bool) (spans : List (List Bool)) (w : ℕ), selector.length = spans.length →
    (∀ c ∈ spans, c.length = w) → true ∈ selector →
      ∃ c, (true, c) ∈ selector.zip spans ∧ BitsLE c (result selector spans w)

/-- A set element of the selector selects a case. -/
theorem exists_mem_zip {selector : List Bool} (hlen : selector.length = spans.length)
    (h : true ∈ selector) : ∃ c, (true, c) ∈ selector.zip spans := by
  induction selector generalizing spans with
  | nil => cases h
  | cons k selector ih =>
    rcases spans with _ | ⟨c, spans⟩
    · cases hlen
    · rcases List.mem_cons.mp h with rfl | h
      · exact ⟨c, by simp⟩
      · obtain ⟨c', hc'⟩ := ih (by simpa using hlen) h
        exact ⟨c', by simp [hc']⟩

/-- A disjunction is above its start and above a selected case. -/
theorem zipWith_or_and_ge {c : List Bool} (s : Bool) (h : m.length = c.length) :
    BitsLE m (List.zipWith (fun r e => bool.or r (bool.and e s)) m c) ∧
      (s = true → BitsLE c (List.zipWith (fun r e => bool.or r (bool.and e s)) m c)) := by
  induction m generalizing c with
  | nil => rw [List.length_eq_zero_iff.mp h.symm]; exact ⟨.nil, fun _ => .nil⟩
  | cons x m ih =>
    rcases c with _ | ⟨y, c⟩
    · cases h
    · obtain ⟨hm, hc⟩ := ih (by simpa using h)
      refine ⟨.cons (Bool.left_le_or x _) hm, fun hs => .cons ?_ (hc hs)⟩
      rw [hs]
      cases x <;> cases y <;> decide

/-- The one-hot loop stays above where it starts and above every selected case. -/
theorem foldl_oneHotResult_ge {w : ℕ} (selector : List Bool) (spans : List (List Bool))
    (hw : ∀ c ∈ spans, c.length = w) (m : List Bool) (hm : m.length = w) :
    ∀ r, r = (selector.zip spans).foldl (fun result (s, c) =>
        List.zipWith (fun r e => bool.or r (bool.and e s)) result c) m →
      BitsLE m r ∧ ∀ c, (true, c) ∈ selector.zip spans → BitsLE c r := by
  induction selector generalizing spans m with
  | nil => rintro r rfl; exact ⟨BitsLE.refl r, by simp⟩
  | cons k selector ih =>
    rcases spans with _ | ⟨c, spans⟩
    · rintro r rfl
      exact ⟨BitsLE.refl r, by simp⟩
    · rintro r rfl
      have hc : m.length = c.length := hm.trans (hw c (by simp)).symm
      obtain ⟨hstart, hsel⟩ := zipWith_or_and_ge k hc
      obtain ⟨hm', hspans⟩ := ih spans (fun c hc => hw c (by simp [hc]))
        (List.zipWith (fun r e => bool.or r (bool.and e k)) m c) (by simp [← hc, hm]) _ rfl
      refine ⟨hstart.trans hm', fun c' hc' => ?_⟩
      rcases List.mem_cons.mp hc' with heq | hc'
      · cases heq
        exact (hsel rfl).trans hm'
      · exact hspans c' hc'

/-- The one-hot result is above each selected case. -/
theorem picks_oneHotResult : Picks bool.oneHotResult := by
  intro selector spans w hlen hw htrue
  obtain ⟨c, hc⟩ := exists_mem_zip hlen htrue
  exact ⟨c, hc, (foldl_oneHotResult_ge selector spans hw _ (by simp) _ rfl).2 c hc⟩

/-- A set element takes its case. -/
theorem zipWith_priority_true {c : List Bool} (h : m.length = c.length) :
    List.zipWith (fun r e => bool.or (bool.and e true) (bool.and r (bool.not true))) m c = c := by
  induction m generalizing c with
  | nil => rw [List.length_eq_zero_iff.mp h.symm]; rfl
  | cons x m ih =>
    rcases c with _ | ⟨y, c⟩
    · cases h
    · rw [List.zipWith_cons_cons, ih (by simpa using h)]
      simp [bool]

/-- An element which is not set keeps the result. -/
theorem zipWith_priority_false {c : List Bool} (h : m.length = c.length) :
    List.zipWith (fun r e => bool.or (bool.and e false) (bool.and r (bool.not false))) m c = m := by
  induction m generalizing c with
  | nil => rfl
  | cons x m ih =>
    rcases c with _ | ⟨y, c⟩
    · cases h
    · rw [List.zipWith_cons_cons, ih (by simpa using h)]
      simp [bool]

/-- The first case is the last to be merged. -/
theorem priorityResult_cons (k : Bool) (c : List Bool) (selector : List Bool)
    (spans : List (List Bool)) (w : ℕ) :
    bool.priorityResult (k :: selector) (c :: spans) w =
      List.zipWith (fun r e => bool.or (bool.and e k) (bool.and r (bool.not k)))
        (bool.priorityResult selector spans w) c := rfl

/-- The result is as wide as the cases. -/
theorem length_priorityResult {w : ℕ} (selector : List Bool) (spans : List (List Bool))
    (hw : ∀ c ∈ spans, c.length = w) : (bool.priorityResult selector spans w).length = w := by
  induction selector generalizing spans with
  | nil => simp [priorityResult]
  | cons k selector ih =>
    rcases spans with _ | ⟨c, spans⟩
    · simp [priorityResult]
    · rw [priorityResult_cons, List.length_zipWith, ih spans fun c hc => hw c (by simp [hc]),
        hw c (by simp), min_self]

/-- The priority loop returns the first selected case. -/
theorem picks_priorityResult : Picks bool.priorityResult := by
  intro selector
  induction selector with
  | nil => intro spans w _ _ h; cases h
  | cons k selector ih =>
    intro spans w hlen hw htrue
    rcases spans with _ | ⟨c, spans⟩
    · cases hlen
    · have hrest : ∀ c ∈ spans, c.length = w := fun c hc => hw c (by simp [hc])
      have hl : (bool.priorityResult selector spans w).length = c.length :=
        (length_priorityResult selector spans hrest).trans (hw c (by simp)).symm
      rw [priorityResult_cons]
      rcases k with _ | _
      · obtain ⟨c', hc', hle⟩ := ih spans w (by simpa using hlen) hrest (by simpa using htrue)
        rw [zipWith_priority_false hl]
        exact ⟨c', by simp [hc'], hle⟩
      · rw [zipWith_priority_true hl]
        exact ⟨c, by simp, BitsLE.refl c⟩

/-- When an element of the selector is set, the mask over any cases which include the
selected ones adds nothing to the result. -/
theorem bool_bitwiseOr_mask {result : List Bool → List (List Bool) → ℕ → List Bool}
    (hpicks : Picks result) {keep selector : List Bool} {w : ℕ}
    (hlen : selector.length = spans.length) (hw : ∀ c ∈ spans, c.length = w)
    (hkeep : List.Forall₂ (· ≤ ·) selector keep) (htrue : true ∈ selector) :
    bool.bitwiseOr [bool.andReduction keep spans w, result selector spans w] =
      some (result selector spans w) := by
  obtain ⟨c, hc, hle⟩ := hpicks selector spans w hlen hw htrue
  have hmem : ∀ (selector keep : List Bool) (spans : List (List Bool)),
      List.Forall₂ (· ≤ ·) selector keep → (true, c) ∈ selector.zip spans →
        (true, c) ∈ keep.zip spans := by
    intro selector keep spans h
    induction h generalizing spans with
    | nil => simp
    | cons hab _ ih =>
      intro hc
      rcases spans with _ | ⟨d, spans⟩
      · simp at hc
      · rcases List.mem_cons.mp hc with heq | hc
        · cases heq
          rw [show _ = true from hab rfl]
          exact List.mem_cons_self
        · exact List.mem_cons_of_mem _ (ih spans hc)
  have hmask : BitsLE (bool.andReduction keep spans w) c :=
    (foldl_andReduction_le keep spans hw _ (by simp) _ rfl).2 c (hmem selector keep spans hkeep hc)
  exact bool_bitwiseOr_of_le (hmask.trans hle)

/-- The mask over the set elements and the one over more of them are both absorbed. -/
theorem bool_bitwiseOr_masks {result : List Bool → List (List Bool) → ℕ → List Bool}
    (hpicks : Picks result) {keep selector : List Bool} {cases : List (List Bool)} {w : ℕ}
    (hcheck : selector.length = cases.length ∧ ∀ c ∈ cases, w ≤ c.length)
    (hkeep : List.Forall₂ (· ≤ ·) selector keep) (htrue : true ∈ selector) :
    ∀ mask, mask = keep ∨ mask = selector.map (fun e => decide (e ≠ bool.zero)) →
      bool.bitwiseOr [bool.andReduction mask (cases.map (List.take w)) w,
        result selector (cases.map (List.take w)) w] =
      some (result selector (cases.map (List.take w)) w) := by
  intro mask hmask
  refine bool_bitwiseOr_mask hpicks ?_ ?_ ?_ htrue
  · rw [List.length_map]
    exact hcheck.1
  · intro c hc
    obtain ⟨d, hd, rfl⟩ := List.mem_map.mp hc
    rw [List.length_take, min_eq_left (hcheck.2 d hd)]
  · rcases hmask with rfl | rfl
    · exact hkeep
    · rw [show (selector.map fun e => decide (e ≠ bool.zero)) = selector by simp [bool]]
      exact BitsLE.refl selector

/-! ## Soundness of the selects -/

namespace Abstracts

variable {α : Type*} {E : Evaluator α} {describes : α → Bool → Prop}
  {v w : List α} {s t : List Bool} {vs : List (List α)} {ss : List (List Bool)}

variable (h : E.Abstracts describes)

include h

/-- The conjunction of the cases which are kept. -/
theorem andReduction (keep : List Bool) (width : ℕ)
    (hvs : List.Forall₂ (DescribesVector describes) vs ss) :
    DescribesVector describes (E.andReduction keep vs width) (bool.andReduction keep ss width) := by
  have hkeep : List.Forall₂ (fun k k' : Bool => k = k') keep keep :=
    List.forall₂_same.mpr fun _ _ => rfl
  refine rel_foldl (forall₂_zip hkeep hvs) (forall₂_replicate h.one width) ?_
  rintro r r' ⟨k, c⟩ ⟨k', c'⟩ hr ⟨hk, hc⟩
  cases hk
  cases k
  · exact hr
  · exact forall₂_zipWith hr hc fun _ _ _ _ ha hb => h.and ha hb

/-- The elements of a selector which are not zero include those which are set. -/
theorem le_keep [DecidableEq α] (hv : DescribesVector describes v s) :
    List.Forall₂ (· ≤ ·) s (v.map fun e => decide (e ≠ E.zero)) := by
  induction hv with
  | nil => exact .nil
  | @cons a x _ _ hax _ ih =>
    refine .cons ?_ ih
    intro hx
    refine decide_eq_true fun ha => h.zero_only ?_
    rw [← ha, ← hx]
    exact hax

variable (hv : DescribesVector describes v s)
  (hvs : List.Forall₂ (DescribesVector describes) vs ss)

include hv hvs

/-- The disjunction of the selected cases. -/
theorem oneHotResult (width : ℕ) :
    DescribesVector describes (E.oneHotResult v vs width) (bool.oneHotResult s ss width) := by
  refine rel_foldl (forall₂_zip hv hvs) (forall₂_replicate h.zero width) ?_
  intro r r' p p' hr hp
  exact forall₂_zipWith hr hp.2 fun _ _ _ _ ha hb => h.or ha (h.and hb hp.1)

/-- The first selected case. -/
theorem priorityResult (width : ℕ) :
    DescribesVector describes (E.priorityResult v vs width) (bool.priorityResult s ss width) := by
  refine rel_foldr (forall₂_zip hv hvs) (forall₂_replicate h.zero width) ?_
  intro r r' p p' hr hp
  exact forall₂_zipWith hr hp.2 fun _ _ _ _ ha hb =>
    h.or (h.and hb hp.1) (h.and ha (h.not hp.1))

variable [DecidableEq α]

/-- A select is sound when it need not be masked or its concrete selector is not zero. -/
theorem selectInternal {resultE : List α → List (List α) → ℕ → List α}
    {resultB : List Bool → List (List Bool) → ℕ → List Bool}
    (hpicks : Picks resultB)
    (hresult : ∀ {v s vs ss} (n : ℕ), DescribesVector describes v s →
      List.Forall₂ (DescribesVector describes) vs ss →
        DescribesVector describes (resultE v vs n) (resultB s ss n))
    (canBeZero : Bool) (hzero : canBeZero = true ∨ true ∈ s) :
    DescribesResult describes (E.selectInternal resultE v vs canBeZero)
      (bool.selectInternal resultB s ss canBeZero) := by
  rcases hvs with _ | ⟨hfront, hrest⟩
  · exact .none
  · rename_i front front' rest rest'
    have hall : List.Forall₂ (DescribesVector describes) (front :: rest) (front' :: rest') :=
      .cons hfront hrest
    have hspans : List.Forall₂ (DescribesVector describes)
        ((front :: rest).map (List.take front.length))
        ((front' :: rest').map (List.take front'.length)) := by
      rw [hfront.length_eq]
      exact List.rel_map (fun _ _ hab => List.forall₂_take _ hab) hall
    refine rel_ite ?_ (fun _ hcheck => ?_) fun _ _ => .none
    · rw [hfront.length_eq, forall_le_length_iff hall, hall.length_eq, hv.length_eq]
    · cases canBeZero with
      | true =>
        refine .some ?_
        rw [hfront.length_eq] at hspans ⊢
        exact hresult _ hv hspans
      | false =>
        have htrue : true ∈ s := by simpa using hzero
        have hmask := bool_bitwiseOr_masks hpicks hcheck (h.le_keep hv) htrue
        rw [hmask _ (.inr rfl), ← hmask _ (.inl rfl)]
        rw [hfront.length_eq] at hspans ⊢
        exact h.bitwiseOr (.cons (h.andReduction _ _ hspans) (.cons (hresult _ hv hspans) .nil))

/-- A one-hot select whose selector is as it says. -/
theorem oneHotSelect (canBeZero : Bool) (hzero : canBeZero = true ∨ true ∈ s) :
    DescribesResult describes (E.oneHotSelect v vs canBeZero) (bool.oneHotSelect s ss canBeZero) :=
  h.selectInternal hv hvs picks_oneHotResult (fun n hv hvs => h.oneHotResult hv hvs n) canBeZero
    hzero

/-- A priority select whose selector is as it says. -/
theorem prioritySelect (canBeZero : Bool) (hzero : canBeZero = true ∨ true ∈ s) :
    DescribesResult describes (E.prioritySelect v vs canBeZero)
      (bool.prioritySelect s ss canBeZero) :=
  h.selectInternal hv hvs picks_priorityResult (fun n hv hvs => h.priorityResult hv hvs n) canBeZero
    hzero

/-! ## Choices and shifts -/

omit hv hvs in
omit [DecidableEq α] in
/-- Equality with a constant. -/
theorem equalsConstant (i : ℕ) (hv : DescribesVector describes v s) :
    Option.Rel describes (E.equalsConstant v i) (bool.equalsConstant s i) := by
  unfold Evaluator.equalsConstant
  rw [hv.length_eq]
  exact rel_bind (h.uBitsVector i _) fun _ _ hc => h.equals hv hc

end Abstracts

/-- The selector is the number of a case, or above the last one when there is a default. -/
def Chooses (selector : List Bool) (cases : ℕ) (hasDefault : Bool) : Prop :=
  value selector < cases ∨ (hasDefault = true ∧ sizeMinusOne cases < value selector)

/-- A selector with a default and a case always chooses. -/
theorem chooses_of_default {selector : List Bool} {cases : ℕ} (hpos : 0 < cases)
    (hwrap : cases ≤ 2 ^ 64) : Chooses selector cases true := by
  have hlast : sizeMinusOne cases = cases - 1 := by
    unfold sizeMinusOne
    omega
  by_cases h : value selector < cases
  · exact .inl h
  · exact .inr ⟨rfl, by omega⟩

/-- A single element chooses between two cases. -/
theorem chooses_two (b : Bool) (hasDefault : Bool) : Chooses [b] 2 hasDefault :=
  .inl (by cases b <;> simp)

/-- A comparison with the number of the selector is set. -/
theorem true_mem_of_mapM {s oneHot : List Bool} {l : List ℕ}
    (h : l.mapM (bool.equalsConstant s) = some oneHot) (hs : value s ∈ l) : true ∈ oneHot := by
  refine mem_of_mapM h hs ?_
  rw [bool_equalsConstant (value_lt s), decide_eq_true rfl]

/-- The comparison of `Shift` for over-shifting. -/
theorem bool_uBitsVector_inv {n w : ℕ} {v : List Bool} (h : bool.uBitsVector n w = some v) :
    v.length = w ∧ value v = n := by
  obtain ⟨bits, hbits, rfl⟩ := Option.map_eq_some_iff.mp h
  obtain ⟨hw, hn⟩ := Bits.uBits_eq_some hbits
  rw [length_bool_bitsToVector, value_bool_bitsToVector]
  exact ⟨hw, hn⟩

theorem mem_takeWhile_range {p : ℕ → Bool} {k n : ℕ} (hk : k < n) (hp : ∀ j ≤ k, p j = true) :
    k ∈ (List.range n).takeWhile p := by
  have hsplit : List.range n = List.range (k + 1) ++ List.range' (k + 1) (n - (k + 1)) := by
    have happend := List.range'_append_1 (s := 0) (m := k + 1) (n := n - (k + 1))
    rw [Nat.zero_add, show k + 1 + (n - (k + 1)) = n by omega] at happend
    rw [List.range_eq_range', List.range_eq_range', happend]
  rw [hsplit, List.takeWhile_append_of_pos]
  · exact List.mem_append_left _ (List.mem_range.mpr (Nat.lt_succ_self k))
  · intro j hj
    exact hp j (Nat.lt_succ_iff.mp (List.mem_range.mp hj))

/-- The selector of a shift is never zero: the amount is one of the expressible amounts
below the size of the input, or it shifts everything out. -/
theorem true_mem_bool_shiftSelector {input amount selector : List Bool}
    (h : bool.shiftSelector input amount = some selector) : true ∈ selector := by
  have hlt := value_lt amount
  obtain ⟨oneHot, hone, h⟩ := Option.bind_eq_some_iff.mp h
  by_cases hin : value amount < input.length
  · have hmem : true ∈ oneHot := by
      refine true_mem_of_mapM hone (mem_takeWhile_range hin fun j hj => ?_)
      exact decide_eq_true (Bits.minBitCountUnsigned_le_iff.mpr (by omega))
    split at h
    · obtain ⟨bound, _, h⟩ := Option.bind_eq_some_iff.mp h
      obtain ⟨less, _, h⟩ := Option.bind_eq_some_iff.mp h
      cases h
      exact List.mem_append_left _ hmem
    · cases h
      exact hmem
  · rw [if_pos (Bits.minBitCountUnsigned_le_iff.mpr (by omega))] at h
    obtain ⟨bound, hbound, h⟩ := Option.bind_eq_some_iff.mp h
    obtain ⟨less, hless, h⟩ := Option.bind_eq_some_iff.mp h
    cases h
    obtain ⟨hbl, hbv⟩ := bool_uBitsVector_inv hbound
    rw [bool_uLessThan hbl.symm, hbv, decide_eq_false hin] at hless
    cases hless
    exact List.mem_append_right _ List.mem_cons_self

namespace Abstracts

variable {α : Type*} [DecidableEq α] {E : Evaluator α} {describes : α → Bool → Prop}
  {v w : List α} {s t : List Bool} {vs : List (List α)} {ss : List (List Bool)}

variable (h : E.Abstracts describes)

include h
/-- A select is sound when its concrete selector chooses a case or the default. -/
theorem select (hv : DescribesVector describes v s)
    (hvs : List.Forall₂ (DescribesVector describes) vs ss) {d : Option (List α)}
    {d' : Option (List Bool)} (hd : DescribesResult describes d d')
    (hchooses : Chooses s ss.length d'.isSome) :
    DescribesResult describes (E.select v vs d) (bool.select s ss d') := by
  unfold Evaluator.select
  rw [hvs.length_eq]
  refine rel_bind_of_eq (rel_mapM _ fun i => h.equalsConstant i hv) ?_
  intro oneHot oneHot' _ hone hrel
  have hcase : value s < ss.length → true ∈ oneHot' := fun hs =>
    true_mem_of_mapM hone (List.mem_range.mpr hs)
  rcases hd with hd | _
  · rw [hv.length_eq]
    refine rel_bind_of_eq (h.uBitsVector _ _) ?_
    intro last last' _ hlast' hlast
    refine rel_bind_of_eq (h.uLessThan hlast hv) ?_
    intro above above' _ habove' habove
    refine h.oneHotSelect (forall₂_append hrel (.cons habove .nil))
      (forall₂_append hvs (.cons hd .nil)) false (.inr ?_)
    rcases hchooses with hs | ⟨_, hs⟩
    · exact List.mem_append_left _ (hcase hs)
    · obtain ⟨hl, hn⟩ := bool_uBitsVector_inv hlast'
      rw [bool_uLessThan hl, hn, decide_eq_true hs] at habove'
      cases habove'
      exact List.mem_append_right _ List.mem_cons_self
  · refine h.oneHotSelect hrel hvs false (.inr (hcase ?_))
    rcases hchooses with hs | ⟨hnone, _⟩
    · exact hs
    · cases hnone

omit [DecidableEq α] in
/-- The cases of a shift. -/
theorem shiftCases (count : ℕ) (right arithmetic : Bool) (hv : DescribesVector describes v s) :
    List.Forall₂ (DescribesVector describes) (E.shiftCases v count right arithmetic)
      (bool.shiftCases s count right arithmetic) := by
  unfold Evaluator.shiftCases
  rw [hv.length_eq]
  split
  · refine forall₂_map_same _ fun i => List.forall₂_take _ (List.forall₂_drop _ ?_)
    refine forall₂_append hv (forall₂_replicate ?_ _)
    split
    · exact rel_getLastD hv h.zero
    · exact h.zero
  · refine forall₂_map_same _ fun i => List.forall₂_take _ (List.forall₂_drop _ ?_)
    exact forall₂_append (forall₂_replicate h.zero _) hv

omit [DecidableEq α] in
/-- A vector cut or extended to a width. -/
theorem adjustValue (width : ℕ) (hv : DescribesVector describes v s) :
    DescribesResult describes (E.adjustValue v width) (bool.adjustValue s width) :=
  rel_ite (by rw [hv.length_eq]) (fun _ _ => bitSlice _ _ hv) fun _ _ => h.zeroExtend _ hv

variable (hv : DescribesVector describes v s) (hw : DescribesVector describes w t)
  (hvs : List.Forall₂ (DescribesVector describes) vs ss)

section

include hv hw

/-- One element chooses between two vectors. -/
theorem select_two {a : α} {x : Bool} (ha : describes a x) :
    DescribesResult describes (E.select [a] [v, w] none) (bool.select [x] [s, t] none) :=
  h.select (.cons ha .nil) (.cons hv (.cons hw .nil)) .none (chooses_two x _)

omit [DecidableEq α] in
/-- The selector of a shift. -/
theorem shiftSelector :
    DescribesResult describes (E.shiftSelector v w) (bool.shiftSelector s t) := by
  unfold Evaluator.shiftSelector
  rw [hv.length_eq, hw.length_eq]
  refine rel_bind (rel_mapM _ fun i => h.equalsConstant i hw) fun _ _ hone => ?_
  refine rel_ite Iff.rfl (fun _ _ => ?_) fun _ _ => .some hone
  refine rel_bind (h.uBitsVector _ _) fun _ _ hbound => ?_
  refine rel_bind (h.uLessThan hw hbound) fun _ _ hless => .some ?_
  exact forall₂_append hone (.cons (h.not hless) .nil)

/-- The shifts. -/
theorem shift (right arithmetic : Bool) :
    DescribesResult describes (E.shift v w right arithmetic) (bool.shift s t right arithmetic) := by
  refine rel_bind_of_eq (h.shiftSelector hv hw) ?_
  intro selector selector' _ hsel hrel
  have hcases := h.shiftCases selector.length right arithmetic hv
  rw [hrel.length_eq] at hcases ⊢
  exact h.oneHotSelect hrel hcases false (.inr (true_mem_bool_shiftSelector hsel))

/-! ## Updates and codings -/

/-- An update of a slice. -/
theorem bitSliceUpdate {u : List α} {r : List Bool} (hu : DescribesVector describes u r) :
    DescribesResult describes (E.bitSliceUpdate v w u) (bool.bitSliceUpdate s t r) := by
  unfold Evaluator.bitSliceUpdate
  rw [hv.length_eq, hu.length_eq]
  refine rel_bind (h.shift (h.bitsToVector _) hw _ _) fun _ _ hones => ?_
  refine rel_bind (h.adjustValue _ hu) fun _ _ hvalue => ?_
  refine rel_bind (h.bitwiseAnd (.cons (h.bitwiseNot hones) (.cons hv .nil))) fun _ _ hkept => ?_
  refine rel_bind (h.shift hvalue hw _ _) fun _ _ hshifted => ?_
  exact h.bitwiseOr (.cons hkept (.cons hshifted .nil))

end

/-! ## Soundness of the arithmetic -/

section Arithmetic

omit [DecidableEq α]

section

include hv

/-- A number as a one-hot vector. -/
theorem decode (width : ℕ) :
    DescribesResult describes (E.decode v width) (bool.decode s width) :=
  rel_mapM _ fun i => h.equalsConstant i hv

/-- The disjunction of the indices which are set. -/
theorem encode :
    DescribesVector describes (E.encode v) (bool.encode s) := by
  unfold Evaluator.encode
  rw [hv.length_eq]
  refine rel_foldl (forall₂_zipIdx hv 0) (forall₂_replicate h.zero _) ?_
  rintro r r' ⟨e, i⟩ ⟨e', i'⟩ hr ⟨he, hi⟩
  cases hi
  refine List.rel_map ?_ (forall₂_zipIdx hr 0)
  rintro ⟨a, j⟩ ⟨b, j'⟩ ⟨hab, hj⟩
  cases hj
  show describes (if i.testBit j then E.or a e else a) (if i.testBit j then bool.or b e' else b)
  split
  · exact h.or hab he
  · exact hab

include hw in
/-- The carry along the sum. -/
theorem addLoop {a : α} {x : Bool} (ha : describes a x) :
    DescribesVector describes (E.addLoop a v w) (bool.addLoop x s t) := by
  induction hv generalizing a x w t with
  | nil => exact .nil
  | cons hb _ ih =>
    rcases hw with _ | ⟨hc, hw⟩
    · exact .nil
    · obtain ⟨hsum, hcarry⟩ := h.fullAdder hb hc ha
      exact .cons hsum (ih hw hcarry)

include hw in
/-- The sum. -/
theorem add :
    DescribesResult describes (E.add v w) (bool.add s t) :=
  rel_ite (by rw [hv.length_eq, hw.length_eq]) (fun _ _ => .some (h.addLoop hv hw h.zero))
    fun _ _ => .none

/-- The negative. -/
theorem neg :
    DescribesResult describes (E.neg v) (bool.neg s) := by
  unfold Evaluator.neg
  rw [hv.length_eq]
  exact rel_bind (h.uBitsVector 1 _) fun _ _ hone => h.add (h.bitwiseNot hv) hone

/-! ## Products -/

include hw in
/-- The columns of a product. -/
theorem partialProducts :
    List.Forall₂ (DescribesVector describes) (E.partialProducts v w)
      (bool.partialProducts s t) := by
  unfold Evaluator.partialProducts
  rw [hv.length_eq, hw.length_eq]
  refine rel_foldl (forall₂_zipIdx hv 0) (forall₂_replicate .nil _) ?_
  rintro columns columns' ⟨a, i⟩ ⟨x, i'⟩ hcolumns ⟨ha, hi⟩
  cases hi
  refine rel_foldl (forall₂_zipIdx hw 0) hcolumns ?_
  rintro columns columns' ⟨b, j⟩ ⟨y, j'⟩ hcolumns ⟨hb, hj⟩
  cases hj
  exact forall₂_modify _ hcolumns fun _ _ hc => forall₂_append hc (.cons (h.and ha hb) .nil)

end

/-- A column and the next one. -/
abbrev DescribesColumns (describes : α → Bool → Prop) :
    List α × List α → List Bool × List Bool → Prop :=
  fun p q => DescribesVector describes p.1 q.1 ∧ DescribesVector describes p.2 q.2

/-- The full adders of a column. -/
theorem fullAdders (maxHeight fuel : ℕ) :
    ∀ {v w s t}, DescribesVector describes v s → DescribesVector describes w t →
      Option.Rel (DescribesColumns describes) (E.fullAdders maxHeight fuel v w)
        (bool.fullAdders maxHeight fuel s t) := by
  induction fuel with
  | zero => intro v w s t hv hw; exact .some ⟨hv, hw⟩
  | succ fuel ih =>
    intro v w s t hv hw
    refine rel_ite (by rw [hv.length_eq]) (fun _ _ => ?_) fun _ _ => .some ⟨hv, hw⟩
    rcases hv with _ | ⟨ha, _ | ⟨hb, _ | ⟨hc, hrest⟩⟩⟩
    · exact .none
    · exact .none
    · exact .none
    · obtain ⟨hsum, hcarry⟩ := h.fullAdder ha hb hc
      exact ih (forall₂_append hrest (.cons hsum .nil)) (forall₂_append hw (.cons hcarry .nil))

include hv hw in
/-- The half adder of a column. -/
theorem halfAdders (maxHeight : ℕ) :
    Option.Rel (DescribesColumns describes) (E.halfAdders maxHeight v w)
      (bool.halfAdders maxHeight s t) := by
  refine rel_ite (by rw [hv.length_eq]) (fun _ _ => ?_) fun _ _ => .some ⟨hv, hw⟩
  rcases hv with _ | ⟨ha, _ | ⟨hb, hrest⟩⟩
  · exact .none
  · exact .none
  · obtain ⟨hsum, hcarry⟩ := h.halfAdder ha hb
    exact .some ⟨forall₂_append hrest (.cons hsum .nil), forall₂_append hw (.cons hcarry .nil)⟩

include hv hvs in
/-- A stage, from a column on. -/
theorem reduceFrom (maxHeight : ℕ) :
    Option.Rel (List.Forall₂ (DescribesVector describes)) (E.reduceFrom maxHeight v vs)
      (bool.reduceFrom maxHeight s ss) := by
  induction hvs generalizing v s with
  | nil => exact rel_ite (by rw [hv.length_eq]) (fun _ _ => .some (.cons hv .nil)) fun _ _ => .none
  | cons hnext hrest ih =>
    refine rel_ite (by rw [hv.length_eq])
      (fun _ _ => rel_map (ih hnext) fun _ _ hcs => .cons hv hcs) fun _ _ => ?_
    rw [hv.length_eq]
    refine rel_bind (h.fullAdders maxHeight _ hv hnext) fun _ _ hfull => ?_
    refine rel_bind (h.halfAdders hfull.1 hfull.2 maxHeight) fun _ _ hhalf => ?_
    exact rel_map (ih hhalf.2) fun _ _ hcs => .cons hhalf.1 hcs

include hvs in
/-- A stage. -/
theorem reduceColumns (maxHeight : ℕ) :
    Option.Rel (List.Forall₂ (DescribesVector describes)) (E.reduceColumns maxHeight vs)
      (bool.reduceColumns maxHeight ss) := by
  rcases hvs with _ | ⟨hcolumn, hrest⟩
  · exact .some .nil
  · exact h.reduceFrom hcolumn hrest maxHeight

/-- All stages. -/
theorem reduceStages (fuel : ℕ) :
    ∀ (maxHeight : ℕ) {vs ss}, List.Forall₂ (DescribesVector describes) vs ss →
      Option.Rel (List.Forall₂ (DescribesVector describes)) (E.reduceStages fuel maxHeight vs)
        (bool.reduceStages fuel maxHeight ss) := by
  induction fuel with
  | zero => intro maxHeight vs ss hvs; exact .some hvs
  | succ fuel ih =>
    intro maxHeight vs ss hvs
    refine rel_ite Iff.rfl (fun _ _ => ?_) fun _ _ => .some hvs
    exact rel_bind (h.reduceColumns hvs _) fun _ _ hreduced => ih _ hreduced

/-- The entry of a column and its carry. -/
abbrev DescribesCarry (describes : α → Bool → Prop) : α × Option α → Bool × Option Bool → Prop :=
  fun p q => describes p.1 q.1 ∧ Option.Rel describes p.2 q.2

include hv in
/-- A column of the final adder. -/
theorem rippleColumn :
    Option.Rel (DescribesCarry describes) (E.rippleColumn v) (bool.rippleColumn s) := by
  rcases hv with _ | ⟨ha, _ | ⟨hb, _ | ⟨hc, _ | _⟩⟩⟩
  · exact .some ⟨h.zero, .none⟩
  · exact .some ⟨ha, .none⟩
  · obtain ⟨hsum, hcarry⟩ := h.halfAdder ha hb
    exact .some ⟨hsum, .some hcarry⟩
  · obtain ⟨hsum, hcarry⟩ := h.fullAdder ha hb hc
    exact .some ⟨hsum, .some hcarry⟩
  · exact .none

include hv hvs in
/-- The final adder, from a column on. -/
theorem rippleFrom :
    DescribesResult describes (E.rippleFrom v vs) (bool.rippleFrom s ss) := by
  induction hvs generalizing v s with
  | nil =>
    refine rel_bind (h.rippleColumn hv) ?_
    rintro ⟨a, carry⟩ ⟨x, carry'⟩ ⟨ha, hcarry⟩
    rcases hcarry with _ | _
    · exact .none
    · exact .some (.cons ha .nil)
  | cons hnext hrest ih =>
    refine rel_bind (h.rippleColumn hv) ?_
    rintro ⟨a, carry⟩ ⟨x, carry'⟩ ⟨ha, hcarry⟩
    refine rel_map (ih (forall₂_append hnext ?_)) fun _ _ hcs => .cons ha hcs
    rcases hcarry with hc | _
    · exact .cons hc .nil
    · exact .nil

include hvs in
/-- The final adder. -/
theorem rippleColumns :
    DescribesResult describes (E.rippleColumns vs) (bool.rippleColumns ss) := by
  rcases hvs with _ | ⟨hcolumn, hrest⟩
  · exact .some .nil
  · exact h.rippleFrom hcolumn hrest

section

include hv hw

/-- The unsigned product. -/
theorem uMul :
    DescribesResult describes (E.uMul v w) (bool.uMul s t) := by
  unfold Evaluator.uMul
  rw [hv.length_eq, hw.length_eq]
  exact rel_bind (h.reduceStages _ _ (h.partialProducts hv hw)) fun _ _ hcolumns =>
    h.rippleColumns hcolumns

/-- The signed product. -/
theorem sMul :
    DescribesResult describes (E.sMul v w) (bool.sMul s t) := by
  unfold Evaluator.sMul
  rw [hv.length_eq, hw.length_eq]
  refine rel_bind (signExtend _ hv) fun _ _ hv' => rel_bind (signExtend _ hw) fun _ _ hw' => ?_
  exact rel_bind (h.uMul hv' hw') fun _ _ hresult => bitSlice _ _ hresult

end

end Arithmetic

/-- Quotient and remainder, element by element. -/
structure DescribesDivision (describes : α → Bool → Prop) (r : DivisionResult α)
    (r' : DivisionResult Bool) : Prop where
  quotient : DescribesVector describes r.quotient r'.quotient
  remainder : DescribesVector describes r.remainder r'.remainder

include hv in
/-- The absolute value. -/
theorem abs :
    DescribesResult describes (E.abs v) (bool.abs s) := by
  refine rel_bind (rel_getLast? hv) fun _ _ hback => rel_bind (h.neg hv) fun _ _ hneg => ?_
  exact h.select_two hv hneg hback

/-! ## Divisions -/

/-- One bit of a division. -/
theorem uDivModStep {d : List α} {d' : List Bool} {bit : α}
    {bit' : Bool} {r : DivisionResult α} {r' : DivisionResult Bool}
    (hd : DescribesVector describes d d') (hv : DescribesVector describes v s)
    (hbit : describes bit bit') (hr : DescribesDivision describes r r') :
    Option.Rel (DescribesDivision describes) (E.uDivModStep d v bit r)
      (bool.uDivModStep d' s bit' r') := by
  have hshift : DescribesVector describes (bit :: r.remainder) (bit' :: r'.remainder) :=
    .cons hbit hr.remainder
  refine rel_bind (h.uLessThan hshift hd) fun _ _ hless => ?_
  refine rel_bind (h.add hshift hv) fun _ _ hdiff => ?_
  refine rel_bind (h.select_two hshift hdiff (h.not hless)) fun _ _ hrem => .some ?_
  exact ⟨.cons (h.not hless) hr.quotient, forall₂_dropLast hrem⟩

/-- The bits of a division. -/
theorem uDivModLoop {d : List α} {d' : List Bool}
    {r : DivisionResult α} {r' : DivisionResult Bool} (hd : DescribesVector describes d d')
    (hw : DescribesVector describes w t) (hr : DescribesDivision describes r r')
    (hv : DescribesVector describes v s) :
    Option.Rel (DescribesDivision describes) (E.uDivModLoop d w r v)
      (bool.uDivModLoop d' t r' s) := by
  induction hv with
  | nil => exact .some hr
  | cons hbit _ ih => exact rel_bind ih fun _ _ hr => h.uDivModStep hd hw hbit hr

include hv hw in
/-- The unsigned division. -/
theorem uDivMod :
    Option.Rel (DescribesDivision describes) (E.uDivMod v w) (bool.uDivMod s t) := by
  unfold Evaluator.uDivMod
  rw [hw.length_eq]
  have hnonzero := h.orReduce hw
  refine rel_bind (h.zeroExtend _ hw) fun _ _ hdivisor => ?_
  refine rel_bind (h.neg hdivisor) fun _ _ hneg => ?_
  refine rel_bind (h.uDivModLoop hdivisor hneg ⟨.nil, forall₂_replicate h.zero _⟩ hv) ?_
  intro r r' hr
  rw [hr.quotient.length_eq, hr.remainder.length_eq]
  refine rel_bind (h.select hnonzero (.cons (forall₂_replicate h.one _) (.cons hr.quotient .nil))
    .none (chooses_two _ _)) fun _ _ hq => ?_
  refine rel_bind (h.select hnonzero (.cons (forall₂_replicate h.zero _) (.cons hr.remainder .nil))
    .none (chooses_two _ _)) fun _ _ hrem => ?_
  exact .some ⟨hq, hrem⟩

omit h in
omit [DecidableEq α] in
/-- A vector with its last element replaced. -/
theorem withBack {a b : α} {x y : Bool} (width : ℕ) (ha : describes a x) (hb : describes b y) :
    DescribesVector describes (Evaluator.withBack width a b) (Evaluator.withBack width x y) := by
  unfold Evaluator.withBack
  split
  · exact .nil
  · exact forall₂_append (forall₂_replicate ha _) (.cons hb .nil)

include hv hw in
/-- The signed division. -/
theorem sDivMod :
    Option.Rel (DescribesDivision describes) (E.sDivMod v w) (bool.sDivMod s t) := by
  have hn := rel_getLastD hv h.zero
  have hd := rel_getLastD hw h.zero
  unfold Evaluator.sDivMod
  refine rel_bind (rel_getLast? (h.orReduce hw)) fun _ _ hnonzero => ?_
  refine rel_bind (h.abs hv) fun _ _ habsN => rel_bind (h.abs hw) fun _ _ habsD => ?_
  refine rel_bind (h.uDivMod habsN habsD) fun _ _ hr => ?_
  refine rel_bind (h.neg hr.remainder) fun _ _ hnegR => ?_
  refine rel_bind (h.select_two hr.remainder hnegR hn) fun _ _ hrem => ?_
  refine rel_bind (h.neg hr.quotient) fun _ _ hnegQ => ?_
  refine rel_bind (h.select_two hr.quotient hnegQ (h.xor hn hd)) fun _ _ hq => ?_
  have hlargest := hq.length_eq
  rw [hlargest]
  refine rel_bind (h.select (.cons hn (.cons hnonzero .nil))
    (.cons (withBack _ h.one h.zero) (.cons (withBack _ h.zero h.one) .nil)) (.some hq)
    (chooses_of_default Nat.two_pos (by norm_num))) fun _ _ hquot => ?_
  exact .some ⟨hquot, hrem⟩

end Abstracts

end Evaluator
end Xls
