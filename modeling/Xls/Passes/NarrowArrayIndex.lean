/-
# Array indices as select chains

`NarrowVisitor::MaybeConvertArrayIndexToSelect` (`xls/passes/narrowing_pass.cc`): an array index
whose indices have few possible values, by their intervals, becomes a chain of selects over the
elements with these indices.  The first element is chosen when no other one is.

* `maybeConvertArrayIndexToSelect` : the source;
* `ensures_selectChainFrom` : which element the chain selects;
* `maybeConvert_iff` : when this is the element of the array index.
-/
import Xls.Ir.NodeBuilder
import Xls.IntervalSet.Enumerate
import Xls.MathUtil

namespace Xls

namespace Narrowing

open NodeBuilder

/-! ## The source -/

/-- The dimensions of an array type which `count` indices index on. -/
def dimensions : Ty → ℕ → Option (List ℕ)
  | _, 0 => some []
  | .array size elementType, count + 1 => (dimensions elementType count).map (size :: ·)
  | _, _ + 1 => none

/-- `GetIndexedElementType`. -/
def getIndexedElementType : Ty → ℕ → Option Ty
  | t, 0 => some t
  | .array _ elementType, count + 1 => getIndexedElementType elementType count
  | _, _ + 1 => none

/-- The loop which computes the size of the index space, an `int64_t`: `none` when the product
overflows, and `some none` gives up. -/
def indexSpaceSize (threshold : ℤ) : List IntervalSet → ℤ → Option (Option ℤ)
  | [], indexSpaceSize => some (some indexSpaceSize)
  | set :: sets, size =>
    if size > threshold then some none
    else set.size.bind fun
      | some n => if size * n < 2 ^ 63 then indexSpaceSize threshold sets (size * n) else none
      | none => some none

/-- The index space has more than one point and not too many. -/
def spaceIsSmall (threshold : ℤ) (sets : List IntervalSet) : Option Bool :=
  (indexSpaceSize threshold sets 1).map fun
    | none => false
    | some size => size ≠ 1 ∧ size ≤ threshold

/-- `handle_possible_index`: the case and the condition of one possible index. -/
def handlePossibleIndex (array : ℕ) (indices : List ℕ) (elementType : Ty) (indexes : List Bits) :
    NodeM (ℕ × ℕ) := do
  let indexLiterals ← indexes.mapM fun b =>
    makeNode (.core (.literal (.bits b))) [] (.bits b.bitCount)
  let element ← makeNode (.core .arrayIndex) (array :: indexLiterals) elementType
  let equalityChecks ← (indices.zip indexLiterals).mapM fun p =>
    makeNode (.core .eq) [p.1, p.2] (.bits 1)
  let condition ← makeNode .and equalityChecks (.bits 1)
  return (element, condition)

/-- The digits of a number as bits; none when one does not fit or is not covered. -/
def possibleIndex : List IntervalSet → List ℕ → Option (List Bits)
  | set :: sets, index :: indexes =>
    match Bits.uBits index set.bitCount with
    | some b => if set.covers b.toNat then (possibleIndex sets indexes).map (b :: ·) else none
    | none => none
  | _, _ => some []

/-- The cases and the conditions in the order of the loop. -/
def collectCases (array : ℕ) (indices : List ℕ) (elementType : Ty) (sets : List IntervalSet)
    (dimension : List ℕ) : NodeM (List (ℕ × ℕ)) := fun nodes =>
  (mixedRadixIterate dimension (fun (s : List (ℕ × ℕ) × List LogicNode) number =>
    match possibleIndex sets number with
    | none => some (s, false)
    | some indexes => ((handlePossibleIndex array indices elementType indexes).run s.2).map
      fun r => ((s.1 ++ [r.1], r.2), false)) ([], nodes)).map Prod.fst

/-- The loop which builds the chain, from the chain so far. -/
def selectChainFrom (type : Ty) (restOfChain : ℕ) : List (ℕ × ℕ) → NodeM ℕ
  | [] => pure restOfChain
  | (element, condition) :: cases => do
    let restOfChain ← makeNode (.core (.sel false)) [condition, restOfChain, element] type
    selectChainFrom type restOfChain cases

/-- The select chain: the first case is taken as it is. -/
def selectChain (type : Ty) : List (ℕ × ℕ) → NodeM (Option ℕ)
  | [] => pure none
  | (element, _) :: cases => some <$> selectChainFrom type element cases

/-- `MaybeConvertArrayIndexToSelect`: the node which replaces the array index, if any.  The
intervals of a node are those of the query engine. -/
def maybeConvertArrayIndexToSelect (getIntervals : ℕ → IntervalSet) (threshold : ℤ)
    (array : ℕ) (indices : List ℕ) : NodeM (Option ℕ) := do
  if indices = [] then return none
  let arrayType ← getType array
  let dimension ← StateT.lift (dimensions arrayType indices.length)
  let indexIntervals := indices.map getIntervals
  let small ← StateT.lift (spaceIsSmall threshold indexIntervals)
  if small then
    let elementType ← StateT.lift (getIndexedElementType arrayType indices.length)
    let cases ← collectCases array indices elementType indexIntervals dimension
    selectChain elementType cases
  else return none

/-! ## Elements of arrays -/

/-- The element of an array at some indices. -/
def element (a : Value) (indexes : List Bits) : Value :=
  (Interpreter.arrayIndexFrom a indexes).getD .token

theorem bitsToBoundedUint64_of_lt {b : Bits} {n : ℕ} (h : b.toNat < n) :
    Interpreter.bitsToBoundedUint64 b (n - 1) = b.toNat := by
  rw [Interpreter.bitsToBoundedUint64, if_neg]
  rintro ⟨-, hlt⟩
  omega

theorem array_of_conforms {a : Value} {n : ℕ} {t : Ty} (h : a.conformsToType (.array n t) = true) :
    ∃ vs, a = .array vs ∧ vs.length = n ∧ ∀ v ∈ vs, v.conformsToType t = true := by
  cases a with
  | array vs =>
    rw [Value.conformsToType, Bool.and_eq_true, beq_iff_eq] at h
    refine ⟨vs, rfl, h.1, fun v hv => ?_⟩
    obtain ⟨i, hi⟩ := List.mem_iff_getElem?.mp hv
    exact (Value.conformToType_getElem? h.2 hi).1
  | bits b => cases h
  | token => cases h
  | tuple vs => cases h

theorem eq_map_of_bitsVector {vs : List Value} {bs : List Bits}
    (h : Interpreter.bitsVector vs = some bs) : vs = bs.map .bits := by
  induction vs generalizing bs with
  | nil =>
    cases h
    rfl
  | cons v vs ih =>
    rw [Interpreter.bitsVector] at h
    split at h
    · rename_i b bs' hb hbs
      cases h
      cases v with
      | bits c =>
        cases hb
        rw [List.map_cons, ← ih hbs]
      | token => cases hb
      | tuple us => cases hb
      | array us => cases hb
    · cases h

theorem arrayIndex_eq_some {a result : Value} {vs : List Value}
    (h : Interpreter.arrayIndex (a :: vs) = some result) :
    ∃ bs, vs = bs.map .bits ∧ Interpreter.arrayIndexFrom a bs = some result := by
  rw [Interpreter.arrayIndex] at h
  split at h
  · rename_i bs hbs
    exact ⟨bs, eq_map_of_bitsVector hbs, h⟩
  · cases h

/-- An array has an element at indices in bounds, and it is of the element type. -/
theorem arrayIndexFrom_of_lt : ∀ (t : Ty) {a : Value} {elementType : Ty} {dims : List ℕ}
    {indexes : List Bits}, a.conformsToType t = true → dimensions t indexes.length = some dims →
    getIndexedElementType t indexes.length = some elementType →
    List.Forall₂ (fun (b : Bits) d => b.toNat < d) indexes dims →
    Interpreter.arrayIndexFrom a indexes = some (element a indexes) ∧
      (element a indexes).conformsToType elementType = true
  | t, a, elementType, dims, [], ha, _, htype, _ => by
    have htype : t = elementType := by
      cases t <;> simpa [getIndexedElementType] using htype
    exact ⟨rfl, htype ▸ ha⟩
  | .array n t, a, elementType, _, b :: indexes, ha, hdims, htype, hlt => by
    obtain ⟨vs, rfl, hlength, hvs⟩ := array_of_conforms ha
    obtain ⟨dims, hrest, rfl⟩ := Option.map_eq_some_iff.mp hdims
    obtain ⟨hb, hlt⟩ := List.forall₂_cons.mp hlt
    have hget := List.getElem?_eq_getElem (hlength ▸ hb : b.toNat < vs.length)
    obtain ⟨helem, hconf⟩ := arrayIndexFrom_of_lt t (hvs _ (List.getElem_mem _)) hrest htype hlt
    have heq : Interpreter.arrayIndexFrom (.array vs) (b :: indexes) =
        Interpreter.arrayIndexFrom vs[b.toNat] indexes := by
      rw [Interpreter.arrayIndexFrom, bitsToBoundedUint64_of_lt (hlength ▸ hb), hget]
    have helement : element (.array vs) (b :: indexes) = element vs[b.toNat] indexes := by
      rw [element, heq, element]
    rw [heq, helement]
    exact ⟨helem, hconf⟩
  | .bits _, _, _, _, _ :: _, _, hdims, _, _ => by cases hdims
  | .token, _, _, _, _ :: _, _, hdims, _, _ => by cases hdims
  | .tuple _, _, _, _, _ :: _, _, hdims, _, _ => by cases hdims

/-- An array which has an element at some indices is not empty in any dimension. -/
theorem dims_pos : ∀ (t : Ty) {a result : Value} {dims : List ℕ} {indexes : List Bits},
    a.conformsToType t = true → dimensions t indexes.length = some dims →
    Interpreter.arrayIndexFrom a indexes = some result → ∀ d ∈ dims, 0 < d
  | t, _, _, dims, [], _, hdims, _ => by
    have hdims : dims = [] := by
      cases t <;> simpa [dimensions] using hdims.symm
    rw [hdims]
    exact fun _ hd => absurd hd List.not_mem_nil
  | .array n t, a, result, _, b :: indexes, ha, hdims, helem => by
    obtain ⟨vs, rfl, hlength, hvs⟩ := array_of_conforms ha
    obtain ⟨dims, hrest, rfl⟩ := Option.map_eq_some_iff.mp hdims
    rw [Interpreter.arrayIndexFrom] at helem
    split at helem
    · rename_i u hu
      obtain ⟨hlt, -⟩ := List.getElem?_eq_some_iff.mp hu
      exact List.forall_mem_cons.mpr
        ⟨by omega, dims_pos t (hvs u (List.mem_of_getElem? hu)) hrest helem⟩
    · cases helem
  | .bits _, _, _, _, _ :: _, _, hdims, _ => by cases hdims
  | .token, _, _, _, _ :: _, _, hdims, _ => by cases hdims
  | .tuple _, _, _, _, _ :: _, _, hdims, _ => by cases hdims

/-! ## Possible indices -/

/-- The indices in bounds which the intervals allow, in the order of the loop. -/
def possibleIndexes (dims : List ℕ) (sets : List IntervalSet) : List (List Bits) :=
  (mixedRadixNumbers dims).filterMap (possibleIndex sets)

/-- The indices have the digits of the number, and the widths of the interval sets. -/
theorem possibleIndex_eq_some : ∀ {sets : List IntervalSet} {number : List ℕ} {t : List Bits},
    sets.length = number.length → possibleIndex sets number = some t →
    t.map Bits.toNat = number ∧ List.Forall₂ (fun (b : Bits) s => b.bitCount = s.bitCount) t sets
  | [], [], t, _, h => by
    cases h
    exact ⟨rfl, .nil⟩
  | set :: sets, index :: number, t, hlength, h => by
    rw [possibleIndex] at h
    split at h
    · rename_i b hb
      obtain ⟨hwidth, hvalue⟩ := Bits.uBits_eq_some hb
      obtain ⟨-, h⟩ := Option.ite_none_right_eq_some.mp h
      obtain ⟨u, hu, rfl⟩ := Option.map_eq_some_iff.mp h
      obtain ⟨hdigits, hwidths⟩ :=
        possibleIndex_eq_some (by simpa using hlength) hu
      exact ⟨by rw [List.map_cons, hdigits, hvalue], .cons hwidth hwidths⟩
    · cases h
  | [], _ :: _, _, hlength, _ => by cases hlength
  | _ :: _, [], _, hlength, _ => by cases hlength

variable {t : List Bits} {sets : List IntervalSet} {indices dims : List ℕ}

/-- Covered indices are possible. -/
theorem possibleIndex_of_covers {bs : List Bits}
    (h : List.Forall₂ (fun (b : Bits) s => b.bitCount = s.bitCount ∧ s.covers b.toNat = true)
      bs sets) : possibleIndex sets (bs.map Bits.toNat) = some bs := by
  induction h with
  | nil => rfl
  | @cons b s bs sets hb _ ih =>
    have hu : Bits.uBits b.toNat s.bitCount = some b := by
      rw [← hb.1, Bits.uBits, dif_pos b.isLt]
    rw [List.map_cons, possibleIndex]
    simp only [hu, hb.2, if_true, ih, Option.map_some]

/-! ## The cases -/

variable {env : Env} {nodes : List LogicNode} {a : Value} {bs : List Bits} {elementType : Ty}

/-- The case of some indices: its element, and whether they are the values of the indices. -/
def CaseCarries (env : Env) (a : Value) (bs : List Bits) (elementType : Ty)
    (nodes : List LogicNode) (r : ℕ × ℕ) (t : List Bits) : Prop :=
  Carries env nodes r.1 (element a t) ∧ (element a t).conformsToType elementType = true ∧
    Carries env nodes r.2 (.bits (BitsOps.ofBool (decide (bs = t))))

theorem CaseCarries.grow {nodes' : List LogicNode} {r : ℕ × ℕ}
    (h : CaseCarries env a bs elementType nodes r t) (hle : nodes <+: nodes') :
    CaseCarries env a bs elementType nodes' r t :=
  ⟨h.1.grow hle, h.2.1, h.2.2.grow hle⟩

/-- All digits are equal exactly if the numbers are. -/
theorem all_zip_eq : ∀ {bs t : List Bits}, t.length = bs.length →
    (((bs.zip t).map fun q => decide (Value.bits q.1 = .bits q.2)).all fun c => c) = decide (bs = t)
  | [], [], _ => rfl
  | b :: bs, c :: t, h => by
    rw [List.zip_cons_cons, List.map_cons, List.all_cons, all_zip_eq (by simpa using h)]
    simp
  | [], _ :: _, h | _ :: _, [], h => by cases h

/-- One case. -/
theorem ensures_handlePossibleIndex {array : ℕ} (hinv : (valuedWorld env).Inv nodes)
    (harray : Carries env nodes array a)
    (hindices : List.Forall₂ (Carries env nodes) indices (bs.map .bits)) (hne : bs ≠ [])
    (hlength : t.length = bs.length) (helem : Interpreter.arrayIndexFrom a t = some (element a t))
    (hconf : (element a t).conformsToType elementType = true) :
    (valuedWorld env).Ensures nodes (handlePossibleIndex array indices elementType t)
      fun nodes r => CaseCarries env a bs elementType nodes r t := by
  -- the literals
  have hliterals : (valuedWorld env).Ensures nodes
      (t.mapM fun b => makeNode (.core (.literal (.bits b))) [] (.bits b.bitCount))
      fun nodes literals => List.Forall₂ (Carries env nodes) literals (t.map Value.bits) := by
    have hmap := World.ensures_mapM (W := valuedWorld env)
      (R := fun _ (b : Bits) (v : Value) => Value.bits b = v) (T := Carries env)
      (f := fun b => makeNode (.core (.literal (.bits b))) [] (.bits b.bitCount)) (g := fun v => v)
      ⟨fun _ h => h⟩ (stable_carries env) (fun {_ b v} hinv hv => by
        subst hv
        exact ensures_makeNode hinv .nil (fun _ _ => rfl) (conforms_bits b)) hinv
      (List.forall₂_map_right_iff.mpr (List.forall₂_same.mpr fun _ _ => rfl) :
        List.Forall₂ _ t (t.map Value.bits))
    rwa [List.map_id'] at hmap
  refine hliterals.bind fun nodes₁ literals hinv₁ hle₁ hliterals => ?_
  have harray₁ := harray.grow hle₁
  have hindices₁ := hindices.imp fun _ _ h => Carries.grow h hle₁
  -- the element
  refine (ensures_makeNode (v := element a t) hinv₁ (.cons harray₁ hliterals) (fun _ _ => ?_)
    hconf).bind fun nodes₂ elementNode hinv₂ hle₂ helement => ?_
  · show Interpreter.arrayIndex (a :: t.map .bits) = _
    rw [Interpreter.arrayIndex, bitsVector_map]
    exact helem
  have hindices₂ := hindices₁.imp fun _ _ h => Carries.grow h hle₂
  have hliterals₂ := hliterals.imp fun _ _ h => Carries.grow h hle₂
  -- the comparisons
  have hzip : List.Forall₂ (fun (p : ℕ × ℕ) (q : Bits × Bits) =>
      Carries env nodes₂ p.1 (.bits q.1) ∧ Carries env nodes₂ p.2 (.bits q.2))
      (indices.zip literals) (bs.zip t) :=
    Relational.forall₂_zip (List.forall₂_map_right_iff.mp hindices₂)
      (List.forall₂_map_right_iff.mp hliterals₂)
  have hchecks := World.ensures_mapM (W := valuedWorld env)
    (R := fun nodes (p : ℕ × ℕ) (q : Bits × Bits) =>
      Carries env nodes p.1 (.bits q.1) ∧ Carries env nodes p.2 (.bits q.2))
    (T := Carries env) (f := fun p => makeNode (.core .eq) [p.1, p.2] (.bits 1))
    (g := fun q => .bits (BitsOps.ofBool (decide (Value.bits q.1 = .bits q.2))))
    ⟨fun hle h => ⟨h.1.grow hle, h.2.grow hle⟩⟩ (stable_carries env) (fun {_ p q} hinv h =>
      ensures_makeNode hinv (.cons h.1 (.cons h.2 .nil)) (fun id hl => eval_eq env id _ hl _ _)
        (conforms_ofBool _)) hinv₂ hzip
  refine hchecks.bind fun nodes₃ checks hinv₃ hle₃ hchecks => ?_
  -- the conjunction
  have hcs : (bs.zip t).map (fun q => decide (Value.bits q.1 = .bits q.2)) ≠ [] := by
    rw [ne_eq, List.map_eq_nil_iff, List.zip_eq_nil_iff, not_or]
    refine ⟨hne, fun ht => hne ?_⟩
    rw [ht] at hlength
    exact List.length_eq_zero_iff.mp hlength.symm
  have hmap : (bs.zip t).map (fun q => Value.bits (BitsOps.ofBool
      (decide (Value.bits q.1 = .bits q.2)))) = ((bs.zip t).map fun q =>
        decide (Value.bits q.1 = .bits q.2)).map fun c => .bits (BitsOps.ofBool c) := by
    rw [List.map_map]
    rfl
  rw [hmap] at hchecks
  refine (ensures_makeNode hinv₃ hchecks (fun id hl => eval_and env id _ hl hcs)
    (conforms_ofBool _)).bind fun nodes₄ condition hinv₄ hle₄ hcondition => ?_
  rw [all_zip_eq hlength] at hcondition
  exact .pure hinv₄ ⟨(helement.grow hle₃).grow hle₄, hconf, hcondition⟩

/-- The cases of some numbers, behind those which are there. -/
theorem visit_cases {array : ℕ} (hindices : ∀ {nodes'}, nodes <+: nodes' →
      List.Forall₂ (Carries env nodes') indices (bs.map .bits)) (harray : Carries env nodes array a)
    (hne : bs ≠ []) {numbers : List (List ℕ)}
    (hnumbers : ∀ number ∈ numbers, ∀ t, possibleIndex sets number = some t →
      t.length = bs.length ∧ Interpreter.arrayIndexFrom a t = some (element a t) ∧
        (element a t).conformsToType elementType = true) :
    ∀ {cases cases' : List (ℕ × ℕ)} {ts : List (List Bits)} {nodes₁ nodes' : List LogicNode}
      {stop : Bool}, (valuedWorld env).Inv nodes₁ → nodes <+: nodes₁ →
    List.Forall₂ (CaseCarries env a bs elementType nodes₁) cases ts →
    Visit.visit (fun (s : List (ℕ × ℕ) × List LogicNode) number =>
      match possibleIndex sets number with
      | none => some (s, false)
      | some indexes => ((handlePossibleIndex array indices elementType indexes).run s.2).map
        fun r => ((s.1 ++ [r.1], r.2), false)) numbers (cases, nodes₁) =
      some ((cases', nodes'), stop) →
    (valuedWorld env).Inv nodes' ∧ nodes₁ <+: nodes' ∧
      List.Forall₂ (CaseCarries env a bs elementType nodes') cases'
        (ts ++ numbers.filterMap (possibleIndex sets)) := by
  induction numbers with
  | nil =>
    intro cases cases' ts nodes₁ nodes' stop hinv _ hcases h
    cases h
    rw [List.filterMap_nil, List.append_nil]
    exact ⟨hinv, List.prefix_refl _, hcases⟩
  | cons number numbers ih =>
    intro cases cases' ts nodes₁ nodes' stop hinv hle hcases h
    rw [List.forall_mem_cons] at hnumbers
    obtain ⟨hnumber, hnumbers⟩ := hnumbers
    rw [List.filterMap_cons]
    rcases Visit.visit_cons h with ⟨hstop, -⟩ | ⟨⟨cases₁, nodes₂⟩, hstep, hrest⟩
    · -- no case asks to stop
      cases hpossible : possibleIndex sets number with
      | none =>
        rw [hpossible] at hstop
        cases hstop
      | some t =>
        rw [hpossible] at hstop
        obtain ⟨r, -, heq⟩ := Option.map_eq_some_iff.mp hstop
        cases heq
    · cases hpossible : possibleIndex sets number with
      | none =>
        rw [hpossible] at hstep
        cases hstep
        exact ih hnumbers hinv hle hcases hrest
      | some t =>
        rw [hpossible] at hstep
        obtain ⟨⟨r, nodes₃⟩, hr, heq⟩ := Option.map_eq_some_iff.mp hstep
        cases heq
        obtain ⟨hlength, helem, hconf⟩ := hnumber t hpossible
        obtain ⟨hinv', hle', hcase⟩ := ensures_handlePossibleIndex hinv (harray.grow hle)
          (hindices hle) hne hlength helem hconf r _ hr
        have hcases' := (hcases.imp fun _ _ h => CaseCarries.grow h hle')
        obtain ⟨hinv'', hle'', hall⟩ := ih hnumbers hinv' (hle.trans hle')
          (Relational.forall₂_append hcases' (.cons hcase .nil)) hrest
        rw [List.append_assoc] at hall
        exact ⟨hinv'', hle'.trans hle'', hall⟩

/-! ## The chain -/

/-- The chain over some cases selects the element at the values of the indices if these are among
the cases. -/
theorem ensures_selectChainFrom {cases : List (ℕ × ℕ)} {ts : List (List Bits)} :
    ∀ {nodes : List LogicNode} {restOfChain : ℕ} {v : Value}, (valuedWorld env).Inv nodes →
    Carries env nodes restOfChain v → v.conformsToType elementType = true →
    List.Forall₂ (CaseCarries env a bs elementType nodes) cases ts →
    (valuedWorld env).Ensures nodes (selectChainFrom elementType restOfChain cases)
      fun nodes chain => Carries env nodes chain (if bs ∈ ts then element a bs else v) := by
  induction cases generalizing ts with
  | nil =>
    intro nodes restOfChain v hinv hrest _ hcases
    cases hcases
    exact .pure hinv hrest
  | cons r cases ih =>
    intro nodes restOfChain v hinv hrest hconf hcases
    obtain _ | ⟨⟨helement, hconf', hcondition⟩, hcases⟩ := hcases
    rename_i t ts
    refine (ensures_makeNode hinv (.cons hcondition (.cons hrest (.cons helement .nil)))
      (fun id hl => eval_sel env id _ _ hl _ _ _) ?_).bind fun nodes' chain hinv' hle hchain => ?_
    · split
      · exact hconf'
      · exact hconf
    · have hchain' : Carries env nodes' chain (if bs = t then element a t else v) := by
        simpa only [decide_eq_true_eq] using hchain
      refine (ih hinv' hchain' (by split <;> assumption)
        (hcases.imp fun _ _ h => CaseCarries.grow h hle)).mono fun nodes'' chain' _ _ h => ?_
      have heq : (if bs ∈ ts then element a bs else if bs = t then element a t else v) =
          if bs ∈ t :: ts then element a bs else v := by
        by_cases hmem : bs ∈ ts
        · rw [if_pos hmem, if_pos (List.mem_cons_of_mem t hmem)]
        · by_cases heq : bs = t
          · rw [if_neg hmem, if_pos heq, if_pos (heq ▸ List.mem_cons_self), heq]
          · rw [if_neg hmem, if_neg heq, if_neg]
            exact fun h => (List.mem_cons.mp h).elim heq hmem
      rw [← heq]
      exact h

/-! ## The element of the array index -/

theorem toNat_map_forall₂ (h : List.Forall₂ (· < ·) (t.map Bits.toNat) dims) :
    List.Forall₂ (fun (b : Bits) d => b.toNat < d) t dims :=
  List.forall₂_map_left_iff.mp h

theorem length_dimensions : ∀ {t : Ty} {count : ℕ} {dims : List ℕ},
    dimensions t count = some dims → dims.length = count
  | t, 0, dims, h => by
    have hdims : dims = [] := by
      cases t <;> simpa [dimensions] using h.symm
    rw [hdims, List.length_nil]
  | .array _ t, count + 1, _, h => by
    obtain ⟨dims, hrest, rfl⟩ := Option.map_eq_some_iff.mp h
    rw [List.length_cons, length_dimensions hrest]
  | .bits _, _ + 1, _, h => by cases h
  | .token, _ + 1, _, h => by cases h
  | .tuple _, _ + 1, _, h => by cases h

/-- Numbers which are visited are in bounds. -/
theorem lt_of_possibleIndex {number : List ℕ} (hpos : ∀ d ∈ dims, 0 < d)
    (hlength : sets.length = dims.length) (hnumber : number ∈ mixedRadixNumbers dims)
    (ht : possibleIndex sets number = some t) :
    List.Forall₂ (fun (b : Bits) d => b.toNat < d) t dims := by
  have hlt := lt_of_mem_mixedRadixNumbers hnumber
  obtain ⟨hdigits, -⟩ := possibleIndex_eq_some (hlength.trans hlt.length_eq.symm) ht
  rw [← hdigits] at hlt
  apply toNat_map_forall₂
  refine (List.forall₂_iff_get.mpr ⟨hlt.length_eq, fun i hi hi' => ?_⟩)
  have hd := (List.forall₂_iff_get.mp hlt).2 i hi hi'
  rwa [max_eq_right (hpos _ (List.get_mem _ _))] at hd

/-- The values of the indices are possible exactly if they are in bounds. -/
theorem mem_possibleIndexes (hpos : ∀ d ∈ dims, 0 < d) (hlength : sets.length = dims.length)
    (hcovers : List.Forall₂ (fun (b : Bits) s => b.bitCount = s.bitCount ∧ s.covers b.toNat = true)
      bs sets) :
    bs ∈ possibleIndexes dims sets ↔ List.Forall₂ (fun (b : Bits) d => b.toNat < d) bs dims := by
  rw [possibleIndexes, List.mem_filterMap]
  constructor
  · rintro ⟨number, hnumber, ht⟩
    exact lt_of_possibleIndex hpos hlength hnumber ht
  · intro hlt
    exact ⟨bs.map Bits.toNat, mem_mixedRadixNumbers (List.forall₂_map_left_iff.mpr hlt),
      possibleIndex_of_covers hcovers⟩

/-- The parts of a conversion which makes a chain. -/
theorem maybeConvert_eq_some {getIntervals : ℕ → IntervalSet} {threshold : ℤ} {array chain : ℕ}
    {nodes' : List LogicNode}
    (h : (maybeConvertArrayIndexToSelect getIntervals threshold array indices).run nodes =
      some (some chain, nodes')) :
    ∃ n dims elementType cases nodes₁, indices ≠ [] ∧ nodes[array]? = some n ∧
      dimensions n.type indices.length = some dims ∧
      getIndexedElementType n.type indices.length = some elementType ∧
      (collectCases array indices elementType (indices.map getIntervals) dims).run nodes =
        some (cases, nodes₁) ∧
      (selectChain elementType cases).run nodes₁ = some (some chain, nodes') := by
  unfold maybeConvertArrayIndexToSelect at h
  split at h
  · cases h
  · rename_i hne
    obtain ⟨⟨arrayType, nodes₀⟩, htype, h⟩ := Option.bind_eq_some_iff.mp h
    obtain ⟨n, hn, heq⟩ := Option.map_eq_some_iff.mp htype
    cases heq
    obtain ⟨⟨dims, nodes₀⟩, hdims, h⟩ := Option.bind_eq_some_iff.mp h
    obtain ⟨dims', hdims', heq⟩ := Option.bind_eq_some_iff.mp hdims
    cases heq
    obtain ⟨⟨small, nodes₀⟩, hsmall, h⟩ := Option.bind_eq_some_iff.mp h
    obtain ⟨small, -, heq⟩ := Option.bind_eq_some_iff.mp hsmall
    cases heq
    cases small with
    | false => cases h
    | true =>
      obtain ⟨⟨elementType, nodes₀⟩, helem, h⟩ := Option.bind_eq_some_iff.mp h
      obtain ⟨elementType', helem', heq⟩ := Option.bind_eq_some_iff.mp helem
      cases heq
      obtain ⟨⟨cases, nodes₁⟩, hcases, h⟩ := Option.bind_eq_some_iff.mp h
      exact ⟨n, _, _, cases, nodes₁, hne, hn, hdims', helem', hcases, h⟩

/-- **Array indices as select chains.**  When the array index is replaced by a chain, both have the
same value exactly if all indices are in bounds or the element of the array index is the one at the
first possible indices. -/
theorem maybeConvert_iff {getIntervals : ℕ → IntervalSet} {threshold : ℤ} {array chain i : ℕ}
    {indices : List ℕ} {n : LogicNode} {nodes' : List LogicNode} {values : List Value}
    (hrun : LogicInterpreter.run env ⟨nodes⟩ = some values) (hn : nodes[i]? = some n)
    (hop : n.op = .core .arrayIndex) (hoperands : n.operands = array :: indices)
    (hsound : ∀ index ∈ indices, ∀ b, values[index]? = some (.bits b) →
      b.bitCount = (getIntervals index).bitCount ∧ (getIntervals index).covers b.toNat = true)
    (hconvert : (maybeConvertArrayIndexToSelect getIntervals threshold array indices).run nodes =
      some (some chain, nodes')) :
    ∃ (arrayNode : LogicNode) (a result : Value) (bs first : List Bits) (dims : List ℕ)
      (values' : List Value), nodes[array]? = some arrayNode ∧
      dimensions arrayNode.type indices.length = some dims ∧ values[array]? = some a ∧
      List.Forall₂ (fun index b => values[index]? = some (.bits b)) indices bs ∧
      Interpreter.arrayIndexFrom a bs = some result ∧ values[i]? = some result ∧
      (possibleIndexes dims (indices.map getIntervals)).head? = some first ∧
      LogicInterpreter.run env ⟨nodes'⟩ = some values' ∧
      (values'[chain]? = values[i]? ↔ List.Forall₂ (fun (b : Bits) d => b.toNat < d) bs dims ∨
          Interpreter.arrayIndexFrom a first = some result) := by
  obtain ⟨arrayNode, dims, elementType, cases, nodes₁, hne, harrayNode, hdims, htype, hcollect,
    hchain⟩ := maybeConvert_eq_some hconvert
  -- the values of the array index and its operands
  obtain ⟨operands, result, hvs, heval, -, hresult⟩ := exists_value hrun hn
  rw [hoperands] at hvs
  obtain ⟨a, vs, ha, hindices, rfl⟩ := List.forall₂_cons_left_iff.mp hvs
  obtain ⟨bs, hbs, helem⟩ : ∃ bs, vs = bs.map .bits ∧
      Interpreter.arrayIndexFrom a bs = some result := by
    rw [LogicInterpreter.evalNode, hop] at heval
    exact arrayIndex_eq_some heval
  subst hbs
  rw [List.forall₂_map_right_iff] at hindices
  obtain ⟨-, a', -, -, haconf, ha'⟩ := exists_value hrun harrayNode
  rw [ha] at ha'
  cases ha'
  have hlength : bs.length = indices.length := hindices.length_eq.symm
  have hpos := dims_pos arrayNode.type haconf (hlength ▸ hdims) helem
  have hdimsLength : (indices.map getIntervals).length = dims.length := by
    rw [List.length_map, length_dimensions hdims]
  have hcovers : List.Forall₂ (fun (b : Bits) s => b.bitCount = s.bitCount ∧
      s.covers b.toNat = true) bs (indices.map getIntervals) := by
    rw [List.forall₂_map_right_iff]
    exact (Relational.forall₂_imp_mem hindices fun index hindex b hb =>
      hsound index hindex b hb).flip
  -- the cases
  have hpossible : ∀ number ∈ mixedRadixNumbers dims, ∀ t,
      possibleIndex (indices.map getIntervals) number = some t →
      t.length = bs.length ∧ Interpreter.arrayIndexFrom a t = some (element a t) ∧
        (element a t).conformsToType elementType = true := by
    intro number hnumber t ht
    have hlt := lt_of_possibleIndex hpos hdimsLength hnumber ht
    have htlength : t.length = indices.length := by
      rw [hlt.length_eq, length_dimensions hdims]
    exact ⟨htlength.trans hlength.symm, arrayIndexFrom_of_lt arrayNode.type haconf
      (htlength ▸ hdims) (htlength ▸ htype) hlt⟩
  obtain ⟨⟨⟨cases', nodes₂⟩, stop⟩, hvisit, heq⟩ := Option.map_eq_some_iff.mp hcollect
  cases heq
  rw [mixedRadixIterate_eq_visit] at hvisit
  have hbsne : bs ≠ [] := by
    rintro rfl
    exact hne (List.length_eq_zero_iff.mp hlength.symm)
  obtain ⟨hinv₁, -, hcases⟩ := visit_cases
    (fun {_} (hle : nodes <+: _) => List.forall₂_map_right_iff.mpr
      (hindices.imp fun _ _ h => (carries_of_run hrun h).grow hle))
    (carries_of_run hrun ha) hbsne hpossible ⟨values, hrun⟩ (List.prefix_refl nodes) .nil hvisit
  rw [List.nil_append] at hcases
  change List.Forall₂ _ cases (possibleIndexes dims (indices.map getIntervals)) at hcases
  have hpossibleFirst : ∀ {first rest}, possibleIndexes dims (indices.map getIntervals) =
      first :: rest → Interpreter.arrayIndexFrom a first = some (element a first) := by
    intro first rest hfirst
    obtain ⟨number, hnumber, ht⟩ := List.mem_filterMap.mp
      (hfirst ▸ List.mem_cons_self : first ∈ possibleIndexes dims (indices.map getIntervals))
    exact (hpossible number hnumber first ht).2.1
  -- the chain
  have hmem := mem_possibleIndexes hpos hdimsLength hcovers
  cases hfirst : possibleIndexes dims (indices.map getIntervals) with
  | nil =>
    rw [hfirst] at hcases
    cases hcases
    cases hchain
  | cons first rest =>
    rw [hfirst] at hcases hmem
    obtain _ | ⟨⟨helement, hconf, -⟩, hcases⟩ := hcases
    rename_i r cases
    obtain ⟨⟨chain', nodes₃⟩, hfrom, heq⟩ := Option.bind_eq_some_iff.mp hchain
    cases heq
    obtain ⟨⟨values', hrun'⟩, -, hvalue⟩ :=
      ensures_selectChainFrom hinv₁ helement hconf hcases _ _ hfrom
    refine ⟨arrayNode, a, result, bs, first, dims, values', harrayNode, hdims, ha, hindices,
      helem, hresult, by rw [hfirst, List.head?_cons], hrun', ?_⟩
    rw [hvalue.value hrun', hresult, Option.some.injEq, ← hmem, List.mem_cons]
    -- the chain denotes the element at the indices when this is one of the cases
    have hbs : element a bs = result := by rw [element, helem, Option.getD_some]
    have hfirstElem := hpossibleFirst hfirst
    rw [hfirstElem, Option.some.injEq]
    by_cases heq : bs = first
    · subst heq
      rw [ite_self, hbs]
      simp
    · by_cases hrest : bs ∈ rest
      · rw [if_pos hrest, hbs]
        simp [hrest]
      · rw [if_neg hrest]
        simp [heq, hrest]

/-! ## An index out of bounds -/

/-- Eight bits. -/
def byte (n : Fin (2 ^ 8)) : Value := .bits ⟨8, n, n.isLt⟩

theorem noOperands_lt : ([] : List ℕ).length < 2 ^ 64 := by decide

theorem twoOperands_lt : [0, 1].length < 2 ^ 64 := by decide

/-- An array of three elements, indexed by a parameter. -/
def threeElements : List LogicNode :=
  [⟨.core (.literal (.array [byte 10, byte 20, byte 30])), [], .array 3 (.bits 8), noOperands_lt⟩,
    ⟨.core .param, [], .bits 3, noOperands_lt⟩,
    ⟨.core .arrayIndex, [0, 1], .bits 8, twoOperands_lt⟩]

theorem zero_lt_eight : 0 < 2 ^ 3 := by decide

theorem five_lt_eight : 5 < 2 ^ 3 := by decide

/-- The parameter is zero or five. -/
def zeroOrFive (_ : ℕ) : IntervalSet where
  bitCount := 3
  isNormalized := true
  intervals := [⟨0, 0, zero_lt_eight, zero_lt_eight⟩, ⟨5, 5, five_lt_eight, five_lt_eight⟩]
  normal := fun _ => by simp [Xls.Normal, Interval.Proper]

/-- The parameter. -/
def index (value : Fin 8) : Env := fun _ _ => .bits ⟨3, value, value.isLt⟩

theorem maybeConvert_zero : ∃ chain nodes' values',
    (maybeConvertArrayIndexToSelect zeroOrFive 4 0 [1]).run threeElements =
      some (some chain, nodes') ∧
    LogicInterpreter.run (index 0) ⟨nodes'⟩ = some values' ∧
    values'[chain]? = some (.bits ⟨8, 10, by decide⟩) := by
  have hconvert : ((maybeConvertArrayIndexToSelect zeroOrFive 4 0 [1]).run threeElements).map
      Prod.fst = some (some 4) := by
    decide +kernel
  obtain ⟨⟨chain, nodes'⟩, hconvert, heq⟩ := Option.map_eq_some_iff.mp hconvert
  cases heq
  have hrun : LogicInterpreter.run (index 0) ⟨threeElements⟩ = some
      [.array [.bits ⟨8, 10, by decide⟩, .bits ⟨8, 20, by decide⟩, .bits ⟨8, 30, by decide⟩],
        .bits ⟨3, 0, by decide⟩, .bits ⟨8, 10, by decide⟩] := by
    decide +kernel
  obtain ⟨arrayNode, a, result, bs, first, dims, values', harrayNode, hdims, -, hbs, -, -, -, hrun',
    hiff⟩ := maybeConvert_iff (i := 2) hrun rfl rfl rfl (by
      intro index hindex b hb
      rw [List.mem_singleton] at hindex
      subst hindex
      cases hb
      decide) hconvert
  refine ⟨4, nodes', values', hconvert, hrun', ?_⟩
  cases harrayNode
  cases hdims
  obtain _ | ⟨hb, _ | _⟩ := hbs
  cases hb
  exact hiff.mpr (.inl (.cons (by decide) .nil))

/-- The chain selects the first element, and the array index the last one. -/
theorem maybeConvert_five : ¬ ∀ (env : Env) (nodes nodes' : List LogicNode)
    (getIntervals : ℕ → IntervalSet) (threshold : ℤ) (array chain i : ℕ) (indices : List ℕ)
    (n : LogicNode) (values values' : List Value),
    LogicInterpreter.run env ⟨nodes⟩ = some values → nodes[i]? = some n →
    n.op = .core .arrayIndex → n.operands = array :: indices →
    (∀ index ∈ indices, ∀ b, values[index]? = some (.bits b) →
      b.bitCount = (getIntervals index).bitCount ∧ (getIntervals index).covers b.toNat = true) →
    (maybeConvertArrayIndexToSelect getIntervals threshold array indices).run nodes =
      some (some chain, nodes') →
    LogicInterpreter.run env ⟨nodes'⟩ = some values' → values'[chain]? = values[i]? := by
  intro h
  have hconvert : ((maybeConvertArrayIndexToSelect zeroOrFive 4 0 [1]).run threeElements).bind
      (fun r => (LogicInterpreter.run (index 5) ⟨r.2⟩).map fun values' =>
        (r.1, r.1.bind fun chain => values'[chain]?)) =
      some (some 4, some (.bits ⟨8, 10, by decide⟩)) := by
    decide +kernel
  obtain ⟨⟨chain, nodes'⟩, hconvert, hrun'⟩ := Option.bind_eq_some_iff.mp hconvert
  obtain ⟨values', hrun', heq⟩ := Option.map_eq_some_iff.mp hrun'
  obtain ⟨hchain, hvalue⟩ := Prod.mk.inj heq
  simp only at hchain
  subst hchain
  have hrun : LogicInterpreter.run (index 5) ⟨threeElements⟩ = some
      [.array [.bits ⟨8, 10, by decide⟩, .bits ⟨8, 20, by decide⟩, .bits ⟨8, 30, by decide⟩],
        .bits ⟨3, 5, by decide⟩, .bits ⟨8, 30, by decide⟩] := by
    decide +kernel
  have heq := h _ _ nodes' zeroOrFive 4 0 4 2 [1] _ _ values' hrun rfl rfl rfl (by
    intro index hindex b hb
    rw [List.mem_singleton] at hindex
    subst hindex
    cases hb
    decide) hconvert hrun'
  rw [Option.bind_some, heq] at hvalue
  cases hvalue

end Narrowing

end Xls
