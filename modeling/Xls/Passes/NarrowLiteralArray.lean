/-
# Literal arrays with constant columns

`NarrowVisitor::MaybeNarrowLiteralArray` (`xls/passes/narrowing_pass.cc`): the bits which are the
same in all elements of a literal array are taken out of it, and an element which is read is put
together from them and from slices of the narrowed element.  Replacing the uses of a node is left
to the caller, who gets the pairs of nodes; a dead literal has no users.

* `rebuilt_narrowBits` : the slices of a narrowed element make up the element;
* `sliceStep_spec` : the loop cuts the columns into runs;
* `sliceNodes_returns` : the slices which are read, in the order of the bits;
* `maybeNarrowLiteralArray_exact` : every node which is replaced has the value of the new node.
-/
import Xls.Ir.VerifiedBuilder
import Xls.Lib.FoldM
import Xls.Passes.NarrowArrayIndex
import Xls.Passes.TernaryEvaluator

namespace Xls

namespace TernaryOps

/-- `ternary_ops::BitsToTernary`. -/
def bitsToTernary (bits : Bits) : List TernaryValue :=
  bits.toBitVector.map fun b => if b then .kKnownOne else .kKnownZero

/-- One bit of `UpdateWithIntersection`. -/
def updateBit (lhs : TernaryValue) (rhs : Bool) : TernaryValue :=
  if lhs = .kUnknown then lhs
  else if decide (lhs = .kKnownOne) = rhs then lhs else .kUnknown

/-- `ternary_ops::UpdateWithIntersection`. -/
def updateWithIntersection (lhs : List TernaryValue) (rhs : Bits) : Option (List TernaryValue) :=
  if lhs.length = rhs.bitCount then some (lhs.zipWith updateBit rhs.toBitVector) else none

/-- `ternary_ops::NumberOfKnownBits`. -/
def numberOfKnownBits (vec : List TernaryValue) : ℕ := vec.countP fun value => value ≠ .kUnknown

/-- `ternary_ops::ToKnownBitsValues`. -/
def toKnownBitsValues (vec : List TernaryValue) : Bits :=
  Bits.ofBools (vec.map fun value => decide (value = .kKnownOne))

end TernaryOps

namespace NarrowLiteralArray

open NodeBuilder TernaryOps
open Evaluator (length_toBitVector toBitVector_slice toBitVector_concat eq_of_toBitVector)

/-! ## The source -/

/-- `Slice`: a literal, or a `NonconstantSlice`. -/
inductive Slice where
  | literal (node : ℕ)
  | nonconstant (start : ℤ) (width : ℕ)

/-- `SlicedArray`. -/
structure SlicedArray where
  slices : List Slice
  arrayLiteral : Option ℕ

/-- The variables of the loop over the columns. -/
structure SliceState where
  slices : List Slice
  currentKnownSlice : List Bool
  start : ℤ
  width : ℕ

/-- `finish_known_slice`, when the slice is not empty. -/
def finishKnownSlice (s : SliceState) : NodeM SliceState :=
  if s.currentKnownSlice.isEmpty then pure s
  else do
    let bits := Bits.ofBools s.currentKnownSlice
    let constantSlice ← makeLiteral (.bits bits) (.bits bits.bitCount)
    return { s with slices := s.slices ++ [.literal constantSlice], currentKnownSlice := [] }

/-- `finish_unknown_slice`, when the slice is not empty. -/
def finishUnknownSlice (s : SliceState) : SliceState :=
  if s.width = 0 then s
  else { s with slices := s.slices ++ [.nonconstant s.start s.width], start := -1, width := 0 }

/-- The slice which is read gets one more bit. -/
def extendUnknownSlice (s : SliceState) (i : ℕ) : SliceState :=
  if s.width = 0 then { s with start := i, width := 1 } else { s with width := s.width + 1 }

/-- The constant slice gets one more bit. -/
def extendKnownSlice (s : SliceState) (b : Bool) : SliceState :=
  { s with currentKnownSlice := s.currentKnownSlice ++ [b] }

/-- One column. -/
def sliceStep (s : SliceState) (column : TernaryValue × ℕ) : NodeM SliceState :=
  if column.1 = .kUnknown then do
    let s ← finishKnownSlice s
    return extendUnknownSlice s column.2
  else return extendKnownSlice (finishUnknownSlice s) (decide (column.1 = .kKnownOne))

/-- The bits of an element which are not constant. -/
def narrowBits (constantBits : List TernaryValue) (bits : List Bool) : List Bool :=
  (constantBits.zip bits).filterMap fun p => if p.1 = .kUnknown then some p.2 else none

/-- An element of the narrowed array. -/
def narrowElement (constantBits : List TernaryValue) (element : Bits) : Bits :=
  Bits.ofBools (narrowBits constantBits element.toBitVector)

/-- The part of `NarrowLiteralArrayToSlices` which splits the elements. -/
def splitElements (elements : List Bits) (constantBits : List TernaryValue) (bitCount : ℕ) :
    NodeM SlicedArray := do
  let s ← constantBits.zipIdx.foldlM sliceStep ⟨[], [], -1, 0⟩
  let s ← finishKnownSlice s
  let narrowedElements := elements.map fun element => .bits (narrowElement constantBits element)
  let narrowedArray ← StateT.lift (Interpreter.mkArray narrowedElements)
  let narrowedArrayLiteral ← makeLiteral narrowedArray
    (.array elements.length (.bits (bitCount - numberOfKnownBits constantBits)))
  return ⟨(finishUnknownSlice s).slices, some narrowedArrayLiteral⟩

/-- `NarrowLiteralArrayToSlices`; without elements it fails. -/
def narrowLiteralArrayToSlices (arrayLiteral : ℕ) (splitsEnabled : Bool) :
    List Bits → NodeM SlicedArray
  | [] => failure
  | first :: rest => do
    let constantBits ← StateT.lift
      ((first :: rest).foldlM updateWithIntersection (bitsToTernary first))
    if numberOfKnownBits constantBits = first.bitCount then
      let bits := toKnownBitsValues constantBits
      let constantLiteral ← makeLiteral (.bits bits) (.bits bits.bitCount)
      return ⟨[.literal constantLiteral], none⟩
    else if numberOfKnownBits constantBits = 0 then
      return ⟨[.nonconstant 0 first.bitCount], some arrayLiteral⟩
    else if !splitsEnabled then return ⟨[.nonconstant 0 first.bitCount], some arrayLiteral⟩
    else splitElements (first :: rest) constantBits first.bitCount

/-- The slices of an element, from a position in the narrowed element on. -/
def sliceNodes (newArrayIndex : ℕ) : ℕ → List Slice → NodeM (List ℕ)
  | _, [] => pure []
  | position, .nonconstant _ width :: slices => do
    let valueSlice ← makeVerified (.bitSlice position width) [newArrayIndex] (.bits width)
    let rest ← sliceNodes newArrayIndex (position + width) slices
    return valueSlice :: rest
  | position, .literal constantSlice :: slices => do
    let rest ← sliceNodes newArrayIndex position slices
    return constantSlice :: rest

/-- The value which replaces an array index. -/
def replaceArrayIndex (narrowedArray : ℕ) (slices : List Slice) (indices : List ℕ) : NodeM ℕ := do
  let arrayType ← getType narrowedArray
  let elementType ← StateT.lift (Narrowing.getIndexedElementType arrayType indices.length)
  let newArrayIndex ← makeVerified (.core .arrayIndex) (narrowedArray :: indices) elementType
  let bitSlices ← sliceNodes newArrayIndex 0 slices
  makeConcat bitSlices.reverse

/-- The users of a node. -/
def users (node : ℕ) : NodeM (List (ℕ × LogicNode)) := fun nodes =>
  some ((nodes.zipIdx.map fun p => (p.2, p.1)).filter fun p => p.2.operands.contains node, nodes)

/-- An array index with indices. -/
def isAccess (user : ℕ × LogicNode) : Bool :=
  user.2.op = .core .arrayIndex && !user.2.operands.tail.isEmpty

/-- `XLS_RET_CHECK(array_index->array() == literal)`. -/
def checkArray (literal : ℕ) (user : ℕ × LogicNode) : Option Unit :=
  if user.2.operands.head? = some literal then some () else none

/-- The loops over the users: the array indices with what replaces them. -/
def replaceUsers (literal : ℕ) (accesses : List (ℕ × LogicNode)) (sliced : SlicedArray) :
    NodeM (List (ℕ × ℕ)) :=
  match sliced.slices with
  | [] => failure
  | [.nonconstant _ _] => pure []
  | [.literal constantLiteral] =>
    if sliced.arrayLiteral.isSome then failure
    else accesses.mapM fun user => do
      StateT.lift (checkArray literal user)
      return (user.1, constantLiteral)
  | slices =>
    match sliced.arrayLiteral with
    | none => failure
    | some narrowedArray => accesses.mapM fun user => do
      StateT.lift (checkArray literal user)
      let value ← replaceArrayIndex narrowedArray slices user.2.operands.tail
      return (user.1, value)

/-- The elements of a literal array of bits. -/
def literalElements (n : LogicNode) : Option (List Bits) :=
  match n.op, n.type with
  | .core (.literal (.array values)), .array _ (.bits _) => Interpreter.bitsVector values
  | _, _ => none

/-- `MaybeNarrowLiteralArray`: the nodes which are replaced, with the new ones. -/
def maybeNarrowLiteralArray (literal : ℕ) (splitsEnabled : Bool) : NodeM (List (ℕ × ℕ)) := do
  let n ← getNode literal
  match literalElements n with
  | none => return []
  | some elements =>
    if elements.isEmpty then return []
    else do
      let users ← users literal
      if users.any fun user => isAccess user && user.2.operands.head? == some literal then do
        let slicedArray ← narrowLiteralArrayToSlices literal splitsEnabled elements
        replaceUsers literal (users.filter isAccess) slicedArray
      else return []

/-! ## Runs of columns -/

open TernaryEvaluator (Describes DescribesBit)

/-- Neighbouring columns which are all constant, or all not. -/
inductive Run where
  | known (bits : List Bool)
  | unknown (width : ℕ)

/-- A constant column. -/
def knownColumn (b : Bool) : TernaryValue := if b then .kKnownOne else .kKnownZero

/-- The columns of a run. -/
def Run.columns : Run → List TernaryValue
  | .known bits => bits.map knownColumn
  | .unknown width => List.replicate width .kUnknown

/-- The bits of an element, from the runs and the narrowed element. -/
def rebuilt : List Run → List Bool → List Bool
  | [], _ => []
  | .known bits :: runs, narrowed => bits ++ rebuilt runs narrowed
  | .unknown width :: runs, narrowed => narrowed.take width ++ rebuilt runs (narrowed.drop width)

theorem describesBit_knownColumn {b c : Bool} (h : DescribesBit (knownColumn b) c) : c = b := by
  cases b <;> exact h

variable {v : List Bool} {t : List TernaryValue} {runs : List Run} {n : LogicNode}
  {slices : List Slice}

theorem describes_known {bits : List Bool} (h : Describes (bits.map knownColumn) v) : v = bits := by
  induction bits generalizing v with
  | nil =>
    cases h
    rfl
  | cons b bits ih =>
    rcases h with - | ⟨hb, h⟩
    rw [describesBit_knownColumn hb, ih h]

theorem narrowBits_known {bits : List Bool} : narrowBits (bits.map knownColumn) v = [] := by
  unfold narrowBits
  rw [List.filterMap_eq_nil_iff]
  intro p hp
  have hmem := (List.of_mem_zip hp).1
  obtain ⟨b, -, hb⟩ := List.mem_map.mp hmem
  rw [← hb]
  cases b <;> rfl

theorem narrowBits_unknown (v : List Bool) :
    narrowBits (List.replicate v.length .kUnknown) v = v := by
  induction v with
  | nil => rfl
  | cons b v ih => exact congrArg (b :: ·) ih

theorem narrowBits_append {t' : List TernaryValue} {v' : List Bool} (h : t.length = v.length) :
    narrowBits (t ++ t') (v ++ v') = narrowBits t v ++ narrowBits t' v' := by
  rw [narrowBits, List.zip_append h, List.filterMap_append, narrowBits, narrowBits]

/-- The slices of a narrowed element make up the element. -/
theorem rebuilt_narrowBits (runs : List Run) (h : Describes (runs.flatMap Run.columns) v) :
    rebuilt runs (narrowBits (runs.flatMap Run.columns) v) = v := by
  induction runs generalizing v with
  | nil =>
    cases h
    rfl
  | cons run runs ih =>
    -- the bits of the run, and the bits behind them
    rw [List.flatMap_cons] at h ⊢
    obtain ⟨v₁, v₂, h₁, h₂, rfl⟩ := Relational.forall₂_append_left h
    rw [narrowBits_append h₁.length_eq]
    cases run with
    | known bits =>
      rw [Run.columns, narrowBits_known, List.nil_append, rebuilt, ih h₂, describes_known h₁]
    | unknown width =>
      have hlen : v₁.length = width := by
        rw [← h₁.length_eq]
        exact List.length_replicate ..
      have hv₁ : narrowBits (List.replicate width .kUnknown) v₁ = v₁ := by
        rw [← hlen]
        exact narrowBits_unknown v₁
      rw [Run.columns, hv₁, rebuilt, ← hlen, List.take_left, List.drop_left, ih h₂]

/-! ## The constant columns -/

theorem describesBit_updateBit_left {t : TernaryValue} {b c : Bool} (h : DescribesBit t b) :
    DescribesBit (updateBit t c) b := by
  revert h
  cases t <;> cases b <;> cases c <;> decide

theorem describesBit_updateBit_right (t : TernaryValue) (c : Bool) :
    DescribesBit (updateBit t c) c := by
  cases t <;> cases c <;> decide

/-- What describes an element still does so, and the next element is described as well. -/
theorem updateWithIntersection_spec {b : Bits} (h : t.length = b.bitCount) :
    ∃ t', updateWithIntersection t b = some t' ∧ t'.length = t.length ∧ Describes t' b.toBitVector ∧
      ∀ v, Describes t v → Describes t' v := by
  have hlen : t.length = b.toBitVector.length := h.trans (length_toBitVector b).symm
  refine ⟨t.zipWith updateBit b.toBitVector, if_pos h, by simp [hlen], ?_, ?_⟩
  all_goals
    clear h
    generalize b.toBitVector = u at hlen
  · induction t generalizing u with
    | nil =>
      obtain rfl := List.length_eq_zero_iff.mp hlen.symm
      exact .nil
    | cons x t ih =>
      rcases u with - | ⟨c, u⟩
      · cases hlen
      · exact .cons (describesBit_updateBit_right x c) (ih u (Nat.succ.inj hlen))
  · intro v hv
    induction hv generalizing u with
    | nil => exact .nil
    | @cons x c t v hx _ ih =>
      rcases u with - | ⟨d, u⟩
      · cases hlen
      · exact .cons (describesBit_updateBit_left hx) (ih u (Nat.succ.inj hlen))

/-- The loop over the elements: the columns which are left describe each of them. -/
theorem constantBits_spec {elements : List Bits} {w : ℕ} (hw : ∀ b ∈ elements, b.bitCount = w)
    (ht : t.length = w) : ∃ t', elements.foldlM updateWithIntersection t =
      some t' ∧ t'.length = w ∧ (∀ b ∈ elements, Describes t' b.toBitVector) ∧
      ∀ v, Describes t v → Describes t' v := by
  induction elements generalizing t with
  | nil => exact ⟨t, rfl, ht, nofun, fun v hv => hv⟩
  | cons b elements ih =>
    have hb : t.length = b.bitCount := ht.trans (hw b (List.mem_cons_self ..)).symm
    obtain ⟨t₁, ht₁, hlen₁, hb₁, hkeep₁⟩ := updateWithIntersection_spec hb
    obtain ⟨t', ht', hlen, hall, hkeep⟩ :=
      ih (fun c hc => hw c (List.mem_cons_of_mem _ hc)) (hlen₁.trans ht)
    refine ⟨t', ?_, hlen, fun c hc => ?_, fun v hv => hkeep v (hkeep₁ v hv)⟩
    · rw [List.foldlM_cons, ht₁]
      exact ht'
    · rcases List.mem_cons.mp hc with rfl | hc
      · exact hkeep _ hb₁
      · exact hall c hc

/-! ## Cutting the columns into runs -/

variable {env : Env} {nodes nodes' : List LogicNode} {columns : List TernaryValue} {s : SliceState}

/-- A slice stands for a run, which is not empty. -/
def SliceRun (env : Env) (nodes : List LogicNode) : Slice → Run → Prop
  | .literal l, .known bits => bits ≠ [] ∧
    HasValue env nodes l (.bits bits.length) (.bits (Bits.ofBools bits))
  | .nonconstant _ width, .unknown width' => 0 < width ∧ width = width'
  | _, _ => False

theorem SliceRun.grow {slice : Slice} {run : Run} (hle : nodes <+: nodes')
    (h : SliceRun env nodes slice run) : SliceRun env nodes' slice run := by
  cases slice with
  | literal l =>
    cases run with
    | known bits => exact ⟨h.1, h.2.grow hle⟩
    | unknown width => exact h
  | nonconstant start width => cases run <;> exact h

/-- The columns so far are those of the slices, and of the slice which is not finished. -/
structure Cut (env : Env) (nodes : List LogicNode) (columns : List TernaryValue) (s : SliceState) :
    Prop where
  runs : ∃ runs, List.Forall₂ (SliceRun env nodes) s.slices runs ∧
    columns = runs.flatMap Run.columns ++
      (s.currentKnownSlice.map knownColumn ++ List.replicate s.width .kUnknown)
  one : s.currentKnownSlice = [] ∨ s.width = 0

theorem Cut.grow (h : Cut env nodes columns s) (hle : nodes <+: nodes') :
    Cut env nodes' columns s := by
  obtain ⟨runs, hruns, hcolumns⟩ := h.runs
  exact ⟨⟨runs, hruns.imp fun _ _ => SliceRun.grow hle, hcolumns⟩, h.one⟩

theorem finishKnownSlice_returns (hvalid : Valid env nodes) (h : Cut env nodes columns s) :
    Returns env nodes (finishKnownSlice s) fun nodes' s' => Cut env nodes' columns s' ∧
      s'.currentKnownSlice = [] := by
  unfold finishKnownSlice
  by_cases hempty : s.currentKnownSlice.isEmpty = true
  · rw [if_pos hempty]
    exact Returns.pure hvalid ⟨h, List.isEmpty_iff.mp hempty⟩
  · rw [if_neg hempty]
    refine Returns.bind (returns_makeLiteral hvalid (conforms_bits _))
      fun nodes₁ l hvalid₁ hle₁ hl => ?_
    refine Returns.pure hvalid₁ ⟨?_, rfl⟩
    obtain ⟨runs, hruns, hcolumns⟩ := (h.grow hle₁).runs
    have hwidth : s.width = 0 :=
      h.one.resolve_left fun hnil => hempty (List.isEmpty_iff.mpr hnil)
    refine ⟨⟨runs ++ [.known s.currentKnownSlice], ?_, ?_⟩, Or.inl rfl⟩
    · exact Relational.forall₂_append hruns
        (.cons ⟨fun hnil => hempty (List.isEmpty_iff.mpr hnil), hl⟩ .nil)
    · rw [hcolumns, List.flatMap_append, List.flatMap_singleton, hwidth]
      simp only [Run.columns, List.map_nil, List.replicate_zero, List.append_nil]

theorem Cut.finishUnknownSlice (h : Cut env nodes columns s) :
    Cut env nodes columns (finishUnknownSlice s) ∧
    (NarrowLiteralArray.finishUnknownSlice s).width = 0 ∧
      (NarrowLiteralArray.finishUnknownSlice s).currentKnownSlice = s.currentKnownSlice := by
  unfold NarrowLiteralArray.finishUnknownSlice
  by_cases hzero : s.width = 0
  · rw [if_pos hzero]
    exact ⟨h, hzero, rfl⟩
  · rw [if_neg hzero]
    obtain ⟨runs, hruns, hcolumns⟩ := h.runs
    have hnil : s.currentKnownSlice = [] := h.one.resolve_right hzero
    refine ⟨⟨⟨runs ++ [.unknown s.width], ?_, ?_⟩, Or.inr rfl⟩, rfl, rfl⟩
    · exact Relational.forall₂_append hruns (.cons ⟨Nat.pos_of_ne_zero hzero, rfl⟩ .nil)
    · rw [hcolumns, List.flatMap_append, List.flatMap_singleton, hnil]
      simp only [Run.columns, List.map_nil, List.replicate_zero, List.append_nil, List.nil_append]

/-- One more column. -/
theorem sliceStep_spec (hvalid : Valid env nodes) (h : Cut env nodes columns s)
    (column : TernaryValue × ℕ) : Returns env nodes (sliceStep s column) fun nodes' s' =>
      Cut env nodes' (columns ++ [column.1]) s' := by
  unfold sliceStep
  by_cases hunknown : column.1 = .kUnknown
  · rw [if_pos hunknown]
    refine Returns.bind (finishKnownSlice_returns hvalid h) fun nodes₁ s₁ hvalid₁ hle₁ hs₁ => ?_
    obtain ⟨hcut, hnil⟩ := hs₁
    refine Returns.pure hvalid₁ ?_
    obtain ⟨runs, hruns, hcolumns⟩ := hcut.runs
    have hext : (extendUnknownSlice s₁ column.2).slices = s₁.slices ∧
        (extendUnknownSlice s₁ column.2).currentKnownSlice = [] ∧
        (extendUnknownSlice s₁ column.2).width = s₁.width + 1 := by
      unfold extendUnknownSlice
      split
      · rename_i hzero
        exact ⟨rfl, hnil, by rw [hzero]⟩
      · exact ⟨rfl, hnil, rfl⟩
    obtain ⟨hslices, hknown, hwidth⟩ := hext
    refine ⟨⟨runs, hslices ▸ hruns, ?_⟩, Or.inl hknown⟩
    rw [hcolumns, hknown, hwidth, hnil, hunknown, List.replicate_succ', List.append_assoc,
      List.append_assoc]
  · rw [if_neg hunknown]
    refine Returns.pure hvalid ?_
    obtain ⟨hcut, hzero, hknown⟩ := h.finishUnknownSlice
    obtain ⟨runs, hruns, hcolumns⟩ := hcut.runs
    have hcolumn : column.1 = knownColumn (decide (column.1 = .kKnownOne)) := by
      rcases hc : column.1 with - | - | -
      · rfl
      · rfl
      · exact absurd hc hunknown
    refine ⟨⟨runs, hruns, ?_⟩, Or.inr hzero⟩
    show columns ++ [column.1] = _ ++ (List.map _ (_ ++ [decide (column.1 = .kKnownOne)]) ++
      List.replicate (NarrowLiteralArray.finishUnknownSlice s).width _)
    rw [hcolumns, hzero, List.map_append, List.map_singleton, ← hcolumn, List.replicate_zero,
      List.append_nil, List.append_nil, List.append_assoc]

/-- The loop over the columns. -/
theorem sliceLoop_spec (rest : List (TernaryValue × ℕ)) (hvalid : Valid env nodes)
    (h : Cut env nodes columns s) : Returns env nodes (rest.foldlM sliceStep s) fun nodes' s' =>
      Cut env nodes' (columns ++ rest.map Prod.fst) s' := by
  induction rest generalizing nodes columns s with
  | nil =>
    refine Returns.pure hvalid ?_
    rwa [List.map_nil, List.append_nil]
  | cons column rest ih =>
    refine Returns.bind (sliceStep_spec hvalid h column) fun nodes₁ s₁ hvalid₁ _ hs₁ => ?_
    refine (ih hvalid₁ hs₁).mono fun nodes₂ s₂ _ _ hs₂ => ?_
    rwa [List.map_cons, ← List.singleton_append, ← List.append_assoc]

/-! ## The sliced array -/

theorem numberOfKnownBits_append (t u : List TernaryValue) :
    numberOfKnownBits (t ++ u) = numberOfKnownBits t + numberOfKnownBits u :=
  List.countP_append

theorem numberOfKnownBits_known (bits : List Bool) :
    numberOfKnownBits (bits.map knownColumn) = bits.length := by
  unfold numberOfKnownBits
  rw [List.countP_map]
  refine List.countP_eq_length.mpr fun b _ => ?_
  cases b <;> rfl

theorem numberOfKnownBits_unknown (n : ℕ) : numberOfKnownBits (List.replicate n .kUnknown) = 0 := by
  refine List.countP_eq_zero.mpr fun value hvalue => ?_
  rw [List.eq_of_mem_replicate hvalue]
  decide

theorem numberOfKnownBits_add_length (h : t.length = v.length) :
    numberOfKnownBits t + (narrowBits t v).length = t.length := by
  induction t generalizing v with
  | nil => rfl
  | cons x t ih =>
    rcases v with - | ⟨b, v⟩
    · cases h
    · have hrest := ih (Nat.succ.inj h)
      have hsplit : numberOfKnownBits (x :: t) = numberOfKnownBits [x] + numberOfKnownBits t :=
        numberOfKnownBits_append [x] t
      have hbits : narrowBits (x :: t) (b :: v) = narrowBits [x] [b] ++ narrowBits t v :=
        narrowBits_append (t := [x]) (v := [b]) rfl
      have hone : numberOfKnownBits [x] + (narrowBits [x] [b]).length = 1 := by
        cases x <;> rfl
      rw [hbits, List.length_append, List.length_cons]
      omega

/-- When all columns are constant all elements are the same. -/
theorem eq_toKnownBitsValues {e : Bits} (hlength : t.length = e.bitCount)
    (hknown : numberOfKnownBits t = e.bitCount) (h : Describes t e.toBitVector) :
    e = toKnownBitsValues t := by
  have hall := List.countP_eq_length.mp (hknown.trans hlength.symm)
  have hv : e.toBitVector = t.map fun value => decide (value = .kKnownOne) := by
    generalize e.toBitVector = v at h
    clear hlength hknown
    induction h with
    | nil => rfl
    | @cons x b t v hx _ ih =>
      have hxk := of_decide_eq_true (hall x (List.mem_cons_self ..))
      rw [List.map_cons, ← ih fun y hy => hall y (List.mem_cons_of_mem _ hy)]
      cases x with
      | kUnknown => exact absurd rfl hxk
      | kKnownZero => exact congrArg (· :: v) hx
      | kKnownOne => exact congrArg (· :: v) hx
  apply Evaluator.bool_bitsToVector_injective
  rw [toKnownBitsValues, Evaluator.bool_bitsToVector_ofBools, ← hv,
    Evaluator.bool_bitsToVector_eq_toBitVector]

/-- What is known of a sliced array whose elements have the width. -/
inductive SlicedExact (env : Env) (nodes : List LogicNode) (elements : List Bits) (w : ℕ) :
    SlicedArray → Prop
  | constant {l : ℕ} {bits : Bits} (hl : HasValue env nodes l (.bits w) (.bits bits))
      (hall : ∀ e ∈ elements, e = bits) : SlicedExact env nodes elements w ⟨[.literal l], none⟩
  | whole {literal : Option ℕ} : SlicedExact env nodes elements w ⟨[.nonconstant 0 w], literal⟩
  | split {slices : List Slice} {runs : List Run} {constantBits : List TernaryValue} {l : ℕ}
      (hslices : List.Forall₂ (SliceRun env nodes) slices runs) (htwo : 2 ≤ slices.length)
      (hruns : constantBits = runs.flatMap Run.columns) (hlength : constantBits.length = w)
      (hall : ∀ e ∈ elements, Describes constantBits e.toBitVector)
      (hl : HasValue env nodes l
        (.array elements.length (.bits (w - numberOfKnownBits constantBits)))
        (.array (elements.map fun e => .bits (narrowElement constantBits e)))) :
      SlicedExact env nodes elements w ⟨slices, some l⟩

/-- Columns of both kinds make more than one run. -/
theorem two_le_length (hslices : List.Forall₂ (SliceRun env nodes) slices runs)
    (hall : numberOfKnownBits (runs.flatMap Run.columns) ≠ (runs.flatMap Run.columns).length)
    (hnone : numberOfKnownBits (runs.flatMap Run.columns) ≠ 0) : 2 ≤ slices.length := by
  rw [hslices.length_eq]
  rcases runs with - | ⟨run, - | ⟨run', runs⟩⟩
  · exact absurd rfl hnone
  · rw [List.flatMap_cons, List.flatMap_nil, List.append_nil] at hall hnone
    cases run with
    | known bits =>
      rw [Run.columns, numberOfKnownBits_known, List.length_map] at hall
      exact absurd rfl hall
    | unknown width => exact absurd (numberOfKnownBits_unknown width) hnone
  · exact Nat.le_add_left 2 _

theorem bitCount_narrowElement {e : Bits} (h : t.length = e.bitCount) :
    (narrowElement t e).bitCount = t.length - numberOfKnownBits t := by
  have hlen := numberOfKnownBits_add_length (h.trans (length_toBitVector e).symm)
  show (narrowBits t e.toBitVector).length = _
  omega

/-- The elements are split. -/
theorem splitElements_returns (hvalid : Valid env nodes) {elements : List Bits}
    {constantBits : List TernaryValue} {w : ℕ} (hne : elements ≠ [])
    (hw : ∀ b ∈ elements, b.bitCount = w) (hlength : constantBits.length = w)
    (hall : ∀ e ∈ elements, Describes constantBits e.toBitVector)
    (hknown : numberOfKnownBits constantBits ≠ w) (hnone : numberOfKnownBits constantBits ≠ 0) :
    Returns env nodes (splitElements elements constantBits w) fun nodes' sliced =>
      SlicedExact env nodes' elements w sliced := by
  have hstart : Cut env nodes [] ⟨[], [], -1, 0⟩ := ⟨⟨[], .nil, rfl⟩, Or.inl rfl⟩
  refine Returns.bind (sliceLoop_spec _ hvalid hstart) fun nodes₁ s₁ hvalid₁ _ hs₁ => ?_
  refine Returns.bind (finishKnownSlice_returns hvalid₁ hs₁) fun nodes₂ s₂ hvalid₂ _ hs₂ => ?_
  obtain ⟨hcut, hzero, hknownSlice⟩ := hs₂.1.finishUnknownSlice
  have harray : Interpreter.mkArray (elements.map fun e => .bits (narrowElement constantBits e)) =
      some (.array (elements.map fun e => .bits (narrowElement constantBits e))) := by
    refine if_neg ?_
    rw [List.isEmpty_iff, List.map_eq_nil_iff]
    exact hne
  refine Returns.lift_bind harray ?_
  have hconf :
      (Value.array (elements.map fun e => .bits (narrowElement constantBits e))).conformsToType
      (.array elements.length (.bits (w - numberOfKnownBits constantBits))) = true := by
    have hlen : (elements.map fun e => Value.bits (narrowElement constantBits e)).length =
        elements.length := List.length_map ..
    rw [← hlen]
    refine conforms_array fun v hv => ?_
    obtain ⟨e, he, rfl⟩ := List.mem_map.mp hv
    rw [Value.conformsToType, bitCount_narrowElement (hlength.trans (hw e he).symm), hlength,
      beq_self_eq_true]
  refine Returns.bind (returns_makeLiteral hvalid₂ hconf) fun nodes₃ l hvalid₃ hle₃ hl => ?_
  refine Returns.pure hvalid₃ ?_
  obtain ⟨runs, hruns, hcolumns⟩ := (hcut.grow hle₃).runs
  rw [hzero, hknownSlice, hs₂.2, List.nil_append, List.map_nil, List.nil_append,
    List.replicate_zero, List.append_nil, List.zipIdx_map_fst] at hcolumns
  refine .split hruns (two_le_length hruns ?_ ?_) hcolumns hlength hall hl
  · rw [← hcolumns, hlength]
    exact hknown
  · rw [← hcolumns]
    exact hnone

/-- `NarrowLiteralArrayToSlices`. -/
theorem narrowLiteralArrayToSlices_returns (hvalid : Valid env nodes) (literal : ℕ)
    (splitsEnabled : Bool) {elements : List Bits} {w : ℕ} (hne : elements ≠ [])
    (hw : ∀ b ∈ elements, b.bitCount = w) :
    Returns env nodes (narrowLiteralArrayToSlices literal splitsEnabled elements)
      fun nodes' sliced => SlicedExact env nodes' elements w sliced := by
  rcases elements with - | ⟨first, rest⟩
  · exact absurd rfl hne
  · have hfirst : first.bitCount = w := hw first (List.mem_cons_self ..)
    have hlen : (bitsToTernary first).length = w := by
      rw [bitsToTernary, List.length_map, length_toBitVector, hfirst]
    obtain ⟨t, ht, htlen, hall, -⟩ := constantBits_spec hw hlen
    refine Returns.lift_bind ht ?_
    by_cases hknown : numberOfKnownBits t = first.bitCount
    · rw [if_pos hknown]
      refine Returns.bind (returns_makeLiteral hvalid (conforms_bits _))
        fun nodes₁ l hvalid₁ _ hl => Returns.pure hvalid₁ ?_
      have hbits : (toKnownBitsValues t).bitCount = w := by
        show (t.map _).length = w
        rw [List.length_map, htlen]
      refine .constant (hbits ▸ hl) fun e he => ?_
      exact eq_toKnownBitsValues (htlen.trans (hw e he).symm)
        (hknown.trans (hfirst.trans (hw e he).symm)) (hall e he)
    · rw [if_neg hknown]
      by_cases hnone : numberOfKnownBits t = 0
      · rw [if_pos hnone, hfirst]
        exact Returns.pure hvalid .whole
      · rw [if_neg hnone]
        cases splitsEnabled with
        | false =>
          rw [hfirst]
          exact Returns.pure hvalid .whole
        | true =>
          rw [hfirst] at hknown ⊢
          exact splitElements_returns hvalid hne hw htlen hall hknown hnone

/-! ## Reading an element -/

/-- The number of bits which are read from the narrowed element. -/
def unknownWidth : List Run → ℕ
  | [] => 0
  | .known _ :: runs => unknownWidth runs
  | .unknown width :: runs => width + unknownWidth runs

theorem numberOfKnownBits_add_unknownWidth (runs : List Run) :
    numberOfKnownBits (runs.flatMap Run.columns) + unknownWidth runs =
      (runs.flatMap Run.columns).length := by
  induction runs with
  | nil => rfl
  | cons run runs ih =>
    rw [List.flatMap_cons, numberOfKnownBits_append, List.length_append]
    cases run with
    | known bits =>
      rw [unknownWidth, Run.columns, numberOfKnownBits_known, List.length_map]
      omega
    | unknown width =>
      rw [unknownWidth, Run.columns, numberOfKnownBits_unknown, List.length_replicate]
      omega

/-- No slice is empty. -/
theorem length_slices_le (h : List.Forall₂ (SliceRun env nodes) slices runs) :
    slices.length ≤ (runs.flatMap Run.columns).length := by
  induction h with
  | nil => exact Nat.zero_le _
  | @cons slice run slices runs hslice _ ih =>
    have hpos : 1 ≤ run.columns.length := by
      cases slice with
      | literal l =>
        cases run with
        | known bits =>
          rw [Run.columns, List.length_map]
          exact List.length_pos_iff.mpr hslice.1
        | unknown => exact hslice.elim
      | nonconstant start width =>
        cases run with
        | known => exact hslice.elim
        | unknown width' =>
          rw [Run.columns, List.length_replicate, ← hslice.2]
          exact hslice.1
    rw [List.length_cons, List.flatMap_cons, List.length_append]
    omega

/-- The slices which are read, in the order of the bits. -/
theorem sliceNodes_returns {i : ℕ} {u : Bits}
    (hslices : List.Forall₂ (SliceRun env nodes) slices runs) (hvalid : Valid env nodes)
    (hi : HasBits env nodes i u) {position : ℕ} (hfit : position + unknownWidth runs ≤ u.bitCount) :
    Returns env nodes (sliceNodes i position slices) fun nodes' ids => ids.length = slices.length ∧
      ∃ bs, List.Forall₂ (HasBits env nodes') ids bs ∧
        (bs.map Bits.toBitVector).flatten = rebuilt runs (u.toBitVector.drop position) := by
  induction slices generalizing nodes runs position with
  | nil =>
    cases hslices
    exact Returns.pure hvalid ⟨rfl, [], .nil, rfl⟩
  | cons slice slices ih =>
    rcases runs with - | ⟨run, runs⟩
    · cases hslices
    obtain ⟨hslice, hrest⟩ := List.forall₂_cons.mp hslices
    cases slice with
    | literal l =>
      cases run with
      | unknown => exact hslice.elim
      | known bits =>
        refine Returns.bind (ih hrest hvalid hi hfit) fun nodes₁ ids hvalid₁ hle₁ hids => ?_
        obtain ⟨hlen, bs, hbs, hflat⟩ := hids
        refine Returns.pure hvalid₁ ⟨congrArg Nat.succ hlen,
          Bits.ofBools bits :: bs, .cons (hslice.2.grow hle₁) hbs, ?_⟩
        rw [List.map_cons, List.flatten_cons, hflat, rebuilt,
          ← Evaluator.bool_bitsToVector_eq_toBitVector, Evaluator.bool_bitsToVector_ofBools]
    | nonconstant start width =>
      cases run with
      | known => exact hslice.elim
      | unknown width' =>
        obtain ⟨-, rfl⟩ := hslice
        rw [unknownWidth] at hfit
        refine Returns.bind (returns_makeBitSlice hvalid hi (by omega))
          fun nodes₁ j hvalid₁ hle₁ hj => ?_
        refine Returns.bind (ih (hrest.imp fun _ _ => SliceRun.grow hle₁) hvalid₁
          (hi.grow hle₁) (by omega)) fun nodes₂ ids hvalid₂ hle₂ hids => ?_
        obtain ⟨hlen, bs, hbs, hflat⟩ := hids
        refine Returns.pure hvalid₂ ⟨congrArg Nat.succ hlen, _ :: bs, .cons (hj.grow hle₂) hbs, ?_⟩
        rw [List.map_cons, List.flatten_cons, hflat, rebuilt, toBitVector_slice (by omega),
          List.drop_drop]

/-! ## The value which replaces an array index -/

/-- The position which an index selects. -/
def position (b : Bits) (elements : List Bits) : ℕ :=
  Interpreter.bitsToBoundedUint64 b (elements.length - 1)

/-- One index chooses an element, or the last one. -/
theorem arrayIndexFrom_singleton (vs : List Value) (b : Bits) :
    Interpreter.arrayIndexFrom (.array vs) [b] =
      vs[Interpreter.bitsToBoundedUint64 b (vs.length - 1)]? := by
  rw [Interpreter.arrayIndexFrom]
  rcases vs[Interpreter.bitsToBoundedUint64 b (vs.length - 1)]? with - | u
  · rfl
  · rfl

/-- An element which is read, put together from the narrowed one. -/
theorem replaceArrayIndex_returns (hvalid : Valid env nodes) {elements : List Bits} {w : ℕ}
    (hwidth : w < 2 ^ 64) (hw : ∀ e ∈ elements, e.bitCount = w) {constantBits : List TernaryValue}
    {l index : ℕ} {b e : Bits} (hslices : List.Forall₂ (SliceRun env nodes) slices runs)
    (hruns : constantBits = runs.flatMap Run.columns) (hlength : constantBits.length = w)
    (hl : HasValue env nodes l (.array elements.length (.bits (w - numberOfKnownBits constantBits)))
      (.array (elements.map fun e => .bits (narrowElement constantBits e))))
    (hindex : HasBits env nodes index b) (he : elements[position b elements]? = some e)
    (hdescribes : Describes constantBits e.toBitVector) :
    Returns env nodes (replaceArrayIndex l slices [index]) fun nodes' i =>
      HasBits env nodes' i e := by
  have hew : e.bitCount = w := hw e (List.mem_of_getElem? he)
  have hnarrow : (narrowElement constantBits e).bitCount = w - numberOfKnownBits constantBits := by
    rw [bitCount_narrowElement (hlength.trans hew.symm), hlength]
  refine Returns.bind (returns_getType hvalid hl) fun nodes₁ type hvalid₁ hle₁ htype => ?_
  subst htype
  refine Returns.lift_bind (a := .bits (w - numberOfKnownBits constantBits)) rfl ?_
  -- the element of the narrowed array is the narrowed element
  have hoperands : HaveValues env nodes₁ [l, index]
      [(_, .array (elements.map fun e => .bits (narrowElement constantBits e))), (_, .bits b)] :=
    .cons (hl.grow hle₁) (.cons (hindex.grow hle₁) .nil)
  have hread : Returns env nodes₁ (makeVerified (.core .arrayIndex) [l, index]
      (.bits (w - numberOfKnownBits constantBits))) fun nodes' i =>
        HasBits env nodes' i (narrowElement constantBits e) := by
    rw [← hnarrow]
    refine returns_makeVerified hvalid₁ hoperands (by
      rw [List.length_cons, List.length_singleton]
      decide) (fun _ => ?_) (fun _ _ => ?_) (conforms_bits _)
    · exact decide_eq_true (congrArg (fun k => some (Ty.bits k)) hnarrow.symm)
    · show Interpreter.arrayIndexFrom (.array _) [b] = _
      rw [arrayIndexFrom_singleton, List.length_map, List.getElem?_map]
      show (elements[position b elements]?).map _ = _
      rw [he, Option.map_some]
  refine Returns.bind hread fun nodes₂ i hvalid₂ hle₂ hi => ?_
  have hslices₂ : List.Forall₂ (SliceRun env nodes₂) slices runs :=
    hslices.imp fun _ _ => SliceRun.grow (hle₁.trans hle₂)
  have hfit : 0 + unknownWidth runs ≤ (narrowElement constantBits e).bitCount := by
    have := numberOfKnownBits_add_unknownWidth runs
    rw [← hruns] at this
    omega
  refine Returns.bind (sliceNodes_returns hslices₂ hvalid₂ hi hfit)
    fun nodes₃ ids hvalid₃ _ hids => ?_
  obtain ⟨hlen, bs, hbs, hflat⟩ := hids
  -- there are no more slices than columns
  have hcount : ids.reverse.length < 2 ^ 64 := by
    have := length_slices_le hslices
    rw [← hruns] at this
    rw [List.length_reverse]
    omega
  refine (makeConcat_returns hvalid₃ (List.rel_reverse hbs) hcount).mono fun nodes₄ j _ _ hj => ?_
  have hconcat : BitsOps.concat bs.reverse = e := by
    apply eq_of_toBitVector
    rw [toBitVector_concat, List.reverse_reverse, hflat, narrowElement,
      ← Evaluator.bool_bitsToVector_eq_toBitVector, Evaluator.bool_bitsToVector_ofBools, hruns]
    exact rebuilt_narrowBits runs (hruns ▸ hdescribes)
  rwa [hconcat] at hj

/-! ## The pass on one literal -/

variable {literal size w : ℕ} {elements : List Bits}

/-- A user which is replaced reads an element. -/
theorem access_facts (hvalid : Valid env nodes)
    (hliteral : HasValue env nodes literal (.array size (.bits w)) (.array (elements.map .bits)))
    {i : ℕ} (hn : nodes[i]? = some n) (hmem : literal ∈ n.operands)
    (haccess : isAccess (i, n) = true) : ∃ index b e, n.operands = [literal, index] ∧
      HasBits env nodes index b ∧ elements[position b elements]? = some e ∧
      HasValue env nodes i (.bits w) (.bits e) := by
  obtain ⟨ps, v, hfacts⟩ := hvalid.node hn
  obtain ⟨op, operands, type, hlt⟩ := n
  obtain ⟨hop, hindices⟩ := Bool.and_eq_true_iff.mp haccess
  obtain rfl : op = .core .arrayIndex := of_decide_eq_true hop
  have hall := hfacts.operands
  have hcheck := hfacts.verify
  have heval := hfacts.eval
  rcases operands with - | ⟨array, indices⟩
  · cases hmem
  rcases ps with - | ⟨p, ps⟩
  · cases hall
  obtain ⟨harray, hrest⟩ := List.forall₂_cons.mp hall
  have hverify : ((ps.map Prod.fst).all Ty.isBits && !Verifier.typeHasToken type &&
      decide (Verifier.getIndexedElementType p.1 (ps.map Prod.fst).length = some type)) = true :=
    hcheck
  obtain ⟨hbits, htype⟩ := Bool.and_eq_true_iff.mp hverify
  have hbits := (Bool.and_eq_true_iff.mp hbits).1
  have htype := of_decide_eq_true htype
  have hisBits : ∀ q ∈ ps, q.1.isBits = true := fun q hq =>
    List.all_eq_true.mp hbits q.1 (List.mem_map_of_mem hq)
  -- the literal, an array, is not one of the indices
  have hlit : array = literal := by
    rcases List.mem_cons.mp hmem with h | h
    · exact h.symm
    · obtain ⟨k, hk, hkl⟩ := List.getElem_of_mem h
      have hk' : k < ps.length := hrest.length_eq ▸ hk
      have hd := (List.forall₂_iff_get.mp hrest).2 k hk hk'
      rw [List.get_eq_getElem, List.get_eq_getElem, hkl] at hd
      have hb := hisBits _ (List.getElem_mem hk')
      rw [hd.type_eq hliteral] at hb
      cases hb
  subst hlit
  have hp : p = (.array size (.bits w), .array (elements.map .bits)) :=
    Prod.ext (harray.type_eq hliteral) (harray.value_eq hvalid hliteral)
  subst hp
  rcases indices with - | ⟨index, - | ⟨index', indices⟩⟩
  · cases hindices
  · rcases ps with - | ⟨⟨t, u⟩, - | ⟨q', ps⟩⟩
    · cases hrest
    · obtain ⟨hq, -⟩ := List.forall₂_cons.mp hrest
      have htb := hisBits (t, u) (List.mem_singleton_self _)
      cases t with
      | bits k =>
        obtain ⟨b, rfl, rfl⟩ := Value.asBits_of_conforms hq.conforms
        obtain rfl : type = .bits w := (Option.some.inj htype).symm
        have hread : (elements.map Value.bits)[Interpreter.bitsToBoundedUint64 b
            ((elements.map Value.bits).length - 1)]? = some v :=
          (arrayIndexFrom_singleton _ b).symm.trans heval
        rw [List.length_map, List.getElem?_map] at hread
        rcases he : elements[position b elements]? with - | e
        · rw [position] at he
          rw [he] at hread
          cases hread
        · rw [position] at he
          rw [he] at hread
          obtain rfl := Option.some.inj hread
          exact ⟨index, b, e, rfl, hq, he, hfacts.result⟩
      | _ => cases htb
    · cases (List.forall₂_cons.mp hrest).2
  · rcases ps with - | ⟨q, - | ⟨q', ps⟩⟩
    · cases hrest
    · cases (List.forall₂_cons.mp hrest).2
    · cases htype

/-- A node and what replaces it. -/
def Replaced (env : Env) (nodes : List LogicNode) (user : ℕ × LogicNode) (p : ℕ × ℕ) : Prop :=
  p.1 = user.1 ∧ ∃ t v, HasValue env nodes p.1 t v ∧ HasValue env nodes p.2 t v

theorem Replaced.grow {user : ℕ × LogicNode} {p : ℕ × ℕ} (hle : nodes <+: nodes')
    (h : Replaced env nodes user p) : Replaced env nodes' user p := by
  obtain ⟨hp, t, v, h₁, h₂⟩ := h
  exact ⟨hp, t, v, h₁.grow hle, h₂.grow hle⟩

/-- The loops over the users. -/
theorem replaceUsers_returns {before : List LogicNode} (hbefore : Valid env before)
    (hle : before <+: nodes) (hvalid : Valid env nodes) (hwidth : w < 2 ^ 64)
    (hw : ∀ e ∈ elements, e.bitCount = w)
    (hliteral : HasValue env before literal (.array size (.bits w)) (.array (elements.map .bits)))
    {accesses : List (ℕ × LogicNode)} (haccesses : ∀ user ∈ accesses,
      before[user.1]? = some user.2 ∧ literal ∈ user.2.operands ∧ isAccess user = true)
    {sliced : SlicedArray} (hsliced : SlicedExact env nodes elements w sliced) :
    Returns env nodes (replaceUsers literal accesses sliced) fun nodes' replaced =>
      ∀ p ∈ replaced, ∃ user ∈ accesses, Replaced env nodes' user p := by
  have hloop : ∀ {f : ℕ × LogicNode → NodeM (ℕ × ℕ)}, (∀ user ∈ accesses, ∀ nodes',
      nodes <+: nodes' → Valid env nodes' → Returns env nodes' (f user) fun nodes'' p =>
        Replaced env nodes'' user p) →
      Returns env nodes (accesses.mapM f) fun nodes' replaced =>
        ∀ p ∈ replaced, ∃ user ∈ accesses, Replaced env nodes' user p := by
    intro f hf
    refine (Returns.mapM (T := Replaced env) (fun hle h => h.grow hle) accesses hvalid hf).mono
      fun nodes' ps _ _ hps p hp => ?_
    obtain ⟨k, hk, rfl⟩ := List.getElem_of_mem hp
    have hk' : k < accesses.length := hps.length_eq ▸ hk
    exact ⟨accesses[k], List.getElem_mem hk', (List.forall₂_iff_get.mp hps).2 k hk' hk⟩
  have hcheck : ∀ {user : ℕ × LogicNode} {index : ℕ}, user.2.operands = [literal, index] →
      checkArray literal user = some () := by
    intro user index h
    rw [checkArray, h]
    exact if_pos rfl
  cases hsliced with
  | @constant l bits hl hall =>
    refine hloop fun user huser nodes₁ hle₁ hvalid₁ => ?_
    obtain ⟨hn, hmem, haccess⟩ := haccesses user huser
    obtain ⟨index, b, e, hoperands, -, he, hi⟩ := access_facts hbefore hliteral hn hmem haccess
    refine Returns.lift_bind (hcheck hoperands) (Returns.pure hvalid₁ ⟨rfl, _, _,
      hi.grow (hle.trans hle₁), ?_⟩)
    rw [hall e (List.mem_of_getElem? he)]
    exact hl.grow hle₁
  | whole => exact Returns.pure hvalid nofun
  | @split slices runs constantBits l hslices htwo hruns hlength hall hl =>
    rcases slices with - | ⟨s₁, - | ⟨s₂, slices⟩⟩
    · cases htwo
    · exact absurd htwo (Nat.not_succ_le_self 1)
    · have hslices' : replaceUsers literal accesses ⟨s₁ :: s₂ :: slices, some l⟩ =
          accesses.mapM fun user => do
            StateT.lift (checkArray literal user)
            let value ← replaceArrayIndex l (s₁ :: s₂ :: slices) user.2.operands.tail
            return (user.1, value) := by
        cases s₁ <;> rfl
      rw [hslices']
      refine hloop fun user huser nodes₁ hle₁ hvalid₁ => ?_
      obtain ⟨hn, hmem, haccess⟩ := haccesses user huser
      obtain ⟨index, b, e, hoperands, hindex, he, hi⟩ :=
        access_facts hbefore hliteral hn hmem haccess
      refine Returns.lift_bind (hcheck hoperands) ?_
      rw [hoperands]
      have hew : e.bitCount = w := hw e (List.mem_of_getElem? he)
      refine Returns.bind (replaceArrayIndex_returns hvalid₁ hwidth hw
        (hslices.imp fun _ _ => SliceRun.grow hle₁) hruns hlength (hl.grow hle₁)
        (hindex.grow (hle.trans hle₁)) he (hall e (List.mem_of_getElem? he)))
        fun nodes₂ j hvalid₂ hle₂ hj => Returns.pure hvalid₂ ⟨rfl, _, _,
          hi.grow (hle.trans (hle₁.trans hle₂)), hew ▸ hj⟩

theorem literalElements_eq_some (h : literalElements n = some elements) :
    ∃ values size w, n.op = .core (.literal (.array values)) ∧ n.type = .array size (.bits w) ∧
      Interpreter.bitsVector values = some elements := by
  unfold literalElements at h
  split at h
  · rename_i values size w hop htype
    exact ⟨values, size, w, hop, htype, h⟩
  · cases h

/-- A literal array has its elements. -/
theorem literal_facts (hvalid : Valid env nodes) (hn : nodes[literal]? = some n)
    (h : literalElements n = some elements) : ∃ size w, n.type = .array size (.bits w) ∧
      HasValue env nodes literal (.array size (.bits w)) (.array (elements.map .bits)) ∧
      ∀ e ∈ elements, e.bitCount = w := by
  obtain ⟨values, size, w, hop, htype, hvalues⟩ := literalElements_eq_some h
  obtain ⟨ps, v, hfacts⟩ := hvalid.node hn
  have hresult := hfacts.result
  have heval := hfacts.eval
  obtain ⟨op, operands, type, hlt⟩ := n
  obtain rfl : op = .core (.literal (.array values)) := hop
  obtain rfl : type = .array size (.bits w) := htype
  obtain rfl : Value.array values = v := Option.some.inj heval
  obtain rfl := Narrowing.eq_map_of_bitsVector hvalues
  refine ⟨size, w, rfl, hresult, fun e he => ?_⟩
  obtain ⟨vs, hvs, -, hall⟩ := Narrowing.array_of_conforms hresult.conforms
  obtain rfl := Value.array.inj hvs
  exact beq_iff_eq.mp (hall _ (List.mem_map_of_mem he))

/-- The pass fails no check, and a node which is replaced, an array index of the literal, has the
value of the new node, whatever the index is. -/
theorem maybeNarrowLiteralArray_exact (hvalid : Valid env nodes) {n : LogicNode}
    (hn : nodes[literal]? = some n)
    (hwidth : ∀ size w, n.type = .array size (.bits w) → w < 2 ^ 63) (splitsEnabled : Bool) :
    Returns env nodes (maybeNarrowLiteralArray literal splitsEnabled) fun nodes' replaced =>
      ∀ p ∈ replaced, (∃ user, nodes[p.1]? = some user ∧ user.op = .core .arrayIndex ∧
        literal ∈ user.operands) ∧
        ∃ t v, HasValue env nodes' p.1 t v ∧ HasValue env nodes' p.2 t v := by
  refine Returns.bind (returns_getNode hvalid hn) fun nodes₁ m _ _ hm => ?_
  obtain ⟨rfl, rfl⟩ := hm
  rcases helements : literalElements m with - | elements
  · exact Returns.pure hvalid nofun
  · obtain ⟨size, w, htype, hliteral, hw⟩ := literal_facts hvalid hn helements
    show Returns env nodes₁ (if elements.isEmpty then pure [] else _) _
    by_cases hempty : elements.isEmpty = true
    · rw [if_pos hempty]
      exact Returns.pure hvalid nofun
    · rw [if_neg hempty]
      have husers : Returns env nodes₁ (users literal) fun nodes' us => nodes' = nodes₁ ∧
          ∀ user ∈ us, nodes₁[user.1]? = some user.2 ∧ literal ∈ user.2.operands := by
        refine ⟨_, nodes₁, rfl, List.prefix_rfl, hvalid, rfl, fun user huser => ?_⟩
        obtain ⟨hmem, hcontains⟩ := List.mem_filter.mp huser
        obtain ⟨q, hq, rfl⟩ := List.mem_map.mp hmem
        exact ⟨List.mem_zipIdx_iff_getElem?.mp hq, List.contains_iff_mem.mp hcontains⟩
      refine Returns.bind husers fun nodes₂ us _ _ hus => ?_
      obtain ⟨rfl, hus⟩ := hus
      show Returns env nodes₂ (if _ then _ else pure []) _
      split
      · refine Returns.bind (narrowLiteralArrayToSlices_returns hvalid literal splitsEnabled
          (fun hnil => hempty (List.isEmpty_iff.mpr hnil)) hw)
          fun nodes₃ sliced hvalid₃ hle₃ hsliced => ?_
        have haccesses : ∀ user ∈ us.filter isAccess, nodes₂[user.1]? = some user.2 ∧
            literal ∈ user.2.operands ∧ isAccess user = true := by
          intro user huser
          obtain ⟨hmem, haccess⟩ := List.mem_filter.mp huser
          exact ⟨(hus user hmem).1, (hus user hmem).2, haccess⟩
        have hw64 : w < 2 ^ 64 := (hwidth size w htype).trans (by decide)
        refine (replaceUsers_returns hvalid hle₃ hvalid₃ hw64 hw hliteral haccesses hsliced).mono
          fun nodes₄ replaced _ _ hreplaced p hp => ?_
        obtain ⟨user, huser, hpu, t, v, h₁, h₂⟩ := hreplaced p hp
        obtain ⟨hnode, hmem, haccess⟩ := haccesses user huser
        refine ⟨⟨user.2, hpu ▸ hnode, ?_, hmem⟩, t, v, h₁, h₂⟩
        exact of_decide_eq_true (Bool.and_eq_true_iff.mp haccess).1
      · exact Returns.pure hvalid nofun

theorem noOperands_size : ([] : List ℕ).length < 2 ^ 64 := by decide

theorem accessOperands_size : [1, 0].length < 2 ^ 64 := by decide

/-- Two elements, the same but for one bit. -/
def twoElements : List LogicNode :=
  [⟨.core .param, [], .bits 1, noOperands_size⟩,
    ⟨.core (.literal (.array [.bits (Bits.ofNat 3 5), .bits (Bits.ofNat 3 7)])), [],
      .array 2 (.bits 3), noOperands_size⟩,
    ⟨.core .arrayIndex, [1, 0], .bits 3, accessOperands_size⟩]

/-- The index is one. -/
def indexOne : Env := fun _ _ => .bits (Bits.ofNat 1 1)

theorem valid_twoElements : Valid indexOne twoElements where
  verify := by decide
  run := ⟨_, rfl⟩

theorem maybeNarrowLiteralArray_exact_twoElements : Valid indexOne twoElements ∧
    Returns indexOne twoElements (maybeNarrowLiteralArray 1 true) fun nodes' replaced =>
      ∀ p ∈ replaced, (∃ user, twoElements[p.1]? = some user ∧ user.op = .core .arrayIndex ∧
        1 ∈ user.operands) ∧
        ∃ t v, HasValue indexOne nodes' p.1 t v ∧ HasValue indexOne nodes' p.2 t v :=
  ⟨valid_twoElements, maybeNarrowLiteralArray_exact valid_twoElements rfl
    (fun _ _ h => by cases h; decide) true⟩

/-- The array index is replaced with a concatenation of three slices. -/
example : (maybeNarrowLiteralArray 1 true twoElements).map (fun p => (p.1, p.2.length)) =
    some ([(2, 8)], 9) := by decide

end NarrowLiteralArray

end Xls
