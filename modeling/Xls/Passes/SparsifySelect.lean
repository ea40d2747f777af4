/-
# Sparse selects

`SparsifySelectPass` (`xls/passes/sparsify_select_pass.cc`): a select with more cases than its
selector has values becomes a chain of selects, one for each interval of these values.  The
default of such a select is a literal of bits type, whatever the type of the cases is.  `none` is
a status which is not OK.

* `arms_of_select` : what the verifier and a run say about the arms of the select;
* `addInterval_returns` : one more interval, when its select yields a value of the type;
* `addInterval_stuck` : the literal is no value of another type;
* `runOnSelect_preserves_iff` : when the pass succeeds with a node of the same value.
-/
import Xls.IntervalSet.Complement
import Xls.IntervalSet.Enumerate
import Xls.Ir.VerifiedBuilder
import Xls.Lib.FoldM

namespace Xls

namespace SparsifySelect

open NodeBuilder

/-! ## The source -/

/-- `IntervalsSortedBySize`. -/
def intervalsSortedBySize (set : IntervalSet) : List (Interval set.normalize.bitCount) :=
  set.normalize.intervals.insertionSort fun a b => a.sizeBits ≤ b.sizeBits

/-- The case which a value of the selector chooses; `ToUint64` fails from `2 ^ 64` on. -/
def caseInRange (cases : List ℕ) (default : Option ℕ) (value : ℕ) : Option ℕ :=
  if value < 2 ^ 64 then
    if value < cases.length then cases[value]? else default
  else none

/-- `MakeNode<Select>`, whose type is that of the first case. -/
def makeSelect (selector : ℕ) (cases : List ℕ) (default : Option ℕ) : NodeM ℕ :=
  match cases with
  | [] => failure
  | first :: _ => do
    let type ← getType first
    makeVerified (.core (.sel default.isSome)) (selector :: (cases ++ default.toList)) type

/-- `MakeNode<BinOp>` of a subtraction. -/
def makeSub (lhs rhs : ℕ) : NodeM ℕ := do
  let type ← getType lhs
  makeVerified (.core .sub) [lhs, rhs] type

/-- The select over one interval. -/
def selectInRange (selector : ℕ) (casesInRange : List ℕ) (lowerBound : ℕ) (type : Ty) :
    NodeM ℕ := do
  let selectorMinusLowerBound ← makeSub selector lowerBound
  let zeroLiteral ← makeBitsLiteral (Bits.zero type.flatBitCount)
  makeSelect selectorMinusLowerBound casesInRange (some zeroLiteral)

/-- The rest of the chain, unless the selector is between the bounds. -/
def addToChain (selector lowerBound upperBound ifInRange : ℕ) : Option ℕ → NodeM (Option ℕ)
  | none => pure (some ifInRange)
  | some other => do
    let geLowerBound ← makeVerified (.core .uge) [selector, lowerBound] (.bits 1)
    let leUpperBound ← makeVerified (.core .ule) [selector, upperBound] (.bits 1)
    let isInRange ← makeVerified .and [geLowerBound, leUpperBound] (.bits 1)
    some <$> makeSelect isInRange [other, ifInRange] none

/-- The body of the loop of `SparsifySelect`. -/
def addInterval (selector : ℕ) (cases : List ℕ) (default : Option ℕ) (type : Ty) {w : ℕ}
    (other : Option ℕ) (interval : Interval w) : NodeM (Option ℕ) := do
  let casesInRange ← StateT.lift (interval.elements.mapM (caseInRange cases default))
  let lowerBound ← makeBitsLiteral interval.lowerBound
  let upperBound ← makeBitsLiteral interval.upperBound
  let ifInRange ← selectInRange selector casesInRange lowerBound type
  addToChain selector lowerBound upperBound ifInRange other

/-- `ReplaceUsesWith`, which checks the type. -/
def replaceUsesWith (type : Ty) : Option ℕ → NodeM (Option ℕ)
  | none => pure none
  | some other => do
    let otherType ← getType other
    if otherType = type then pure (some other) else failure

/-- `SparsifySelect`: the node which replaces the select. -/
def sparsifySelect (selector : ℕ) (cases : List ℕ) (default : Option ℕ) (type : Ty)
    (selectorIntervals : IntervalSet) : NodeM (Option ℕ) := do
  let other ← (intervalsSortedBySize selectorIntervals).foldlM
    (addInterval selector cases default type) none
  replaceUsesWith type other

/-- The cases of a select, from its operands behind the selector. -/
def selectCases {α : Type} (hasDefault : Bool) (arms : List α) : List α :=
  if hasDefault then arms.dropLast else arms

/-- The default of a select. -/
def selectDefault {α : Type} (hasDefault : Bool) (arms : List α) : Option α :=
  if hasDefault then arms.getLast? else none

/-- The body of the loop of the pass, for one select and the intervals of its selector. -/
def runOnSelect (hasDefault : Bool) (selector : ℕ) (arms : List ℕ) (type : Ty)
    (selectorIntervals : IntervalSet) : NodeM (Option ℕ) := do
  let size ← StateT.lift selectorIntervals.size
  match size with
  | none => return none
  | some size =>
    let cases := selectCases hasDefault arms
    if size ≥ cases.length then return none
    else sparsifySelect selector cases (selectDefault hasDefault arms) type selectorIntervals

/-! ## The value of a select -/

variable {env : Env} {nodes nodes' : List LogicNode} {type : Ty}

/-- The arm for a value of the selector. -/
def arm {α : Type} (cases : List α) (default : Option α) (value : ℕ) : Option α :=
  if value < cases.length then cases[value]? else default

/-- The arms of a select with a default stand one behind the other. -/
theorem arm_eq {α : Type} (hasDefault : Bool) (arms : List α) (value : ℕ) :
    arm (selectCases hasDefault arms) (selectDefault hasDefault arms) value =
      arms[if hasDefault then min value (arms.length - 1) else value]? := by
  cases hasDefault with
  | false =>
    show (if value < arms.length then arms[value]? else none) = arms[value]?
    split
    · rfl
    · rename_i hvalue
      rw [List.getElem?_eq_none (not_lt.mp hvalue)]
  | true =>
    show (if value < arms.dropLast.length then arms.dropLast[value]? else arms.getLast?) =
      arms[min value (arms.length - 1)]?
    rw [List.length_dropLast]
    split
    · rename_i hvalue
      rw [List.getElem?_dropLast, if_pos hvalue, min_eq_left hvalue.le]
    · rename_i hvalue
      rw [min_eq_right (not_lt.mp hvalue), List.getLast?_eq_getElem?]

variable {hasDefault covered : Bool} {m j i : ℕ} {us : List Value} {ids : List ℕ} {other : Option ℕ}
  {set : IntervalSet}

/-- The interpreter chooses that arm. -/
theorem sel_eq {d : Bits} {vs : List Value} (hpos : 0 < (selectCases hasDefault vs).length)
    (hwidth : (selectCases hasDefault vs).length ≤ 2 ^ d.bitCount) :
    Interpreter.sel hasDefault (.bits d :: vs) =
      arm (selectCases hasDefault vs) (selectDefault hasDefault vs) d.toNat := by
  have harms : Interpreter.selectArms hasDefault vs =
      (selectCases hasDefault vs, selectDefault hasDefault vs) := by
    cases hasDefault <;> rfl
  unfold Interpreter.sel
  simp only [harms]
  rcases hcases : selectCases hasDefault vs with - | ⟨u, us⟩
  · rw [hcases] at hpos
    exact absurd hpos (Nat.lt_irrefl 0)
  · rw [hcases] at hwidth
    have hcount : (u :: us).length = us.length + 1 := rfl
    have hlast : (u :: us).length - 1 < 2 ^ d.bitCount := by omega
    have hbits : Bits.uBits ((u :: us).length - 1) d.bitCount =
        some ⟨d.bitCount, (u :: us).length - 1, hlast⟩ := dif_pos hlast
    simp only [hbits, BitsOps.uLessThan, decide_eq_true_eq, arm]
    split
    · rw [if_neg (by omega)]
    · rw [if_pos (by omega)]

/-- The select which is taken apart, on a value of its selector. -/
structure Arms (env : Env) (nodes : List LogicNode) (cases : List ℕ) (default : Option ℕ)
    (type : Ty) (v : Bits) (result : Value) : Prop where
  arm : ∀ k < 2 ^ v.bitCount, ∃ j u, arm cases default k = some j ∧
    HasValue env nodes j type u ∧ (k = v.toNat → u = result)
  noToken : Verifier.typeHasToken type = false
  pos : 0 < cases.length
  length : cases.length + 1 < 2 ^ 64
  width : cases.length ≤ 2 ^ v.bitCount

/-- What the verifier has checked of a select. -/
structure SelTypes (hasDefault : Bool) (type : Ty) (w : ℕ) (arms : List Ty) : Prop where
  noToken : Verifier.typeHasToken type = false
  cases : ∀ t ∈ selectCases hasDefault arms, t = type
  width : 0 < (selectCases hasDefault arms).length → (selectCases hasDefault arms).length ≤ 2 ^ w
  all : hasDefault = false → arms.length = 2 ^ w

/-- A power of two has as many bits as its predecessor, but one. -/
theorem minBitCountUnsigned_pred_of_isPowerOfTwo (h : Verifier.isPowerOfTwo m = true) :
    2 ^ Bits.minBitCountUnsigned (m - 1) = m := by
  unfold Verifier.isPowerOfTwo at h
  rw [Bool.and_eq_true, decide_eq_true_eq, decide_eq_true_eq] at h
  obtain ⟨hpos, hpow⟩ := h
  have hle : Bits.minBitCountUnsigned (m - 1) ≤ m.log2 := by
    rw [Bits.minBitCountUnsigned_le_iff]
    omega
  have hge : m - 1 < 2 ^ Bits.minBitCountUnsigned (m - 1) :=
    Bits.minBitCountUnsigned_le_iff.mp le_rfl
  apply le_antisymm
  · calc 2 ^ Bits.minBitCountUnsigned (m - 1) ≤ 2 ^ m.log2 := Nat.pow_le_pow_right (by decide) hle
      _ = m := hpow
  · omega

theorem selTypes_of_verify {w : ℕ} {arms : List Ty}
    (h : Verifier.selTypes hasDefault type (.bits w :: arms) = true) :
    SelTypes hasDefault type w arms := by
  have hcases : (if hasDefault = true then arms.dropLast else arms) =
      selectCases hasDefault arms := rfl
  unfold Verifier.selTypes at h
  simp only [hcases, Bool.and_eq_true, decide_eq_true_eq, Bool.not_eq_true', List.all_eq_true] at h
  obtain ⟨⟨⟨⟨hpos, hnoToken⟩, hwidth⟩, hexact⟩, hall⟩ := h
  refine ⟨hnoToken, hall, fun hne => ?_, ?_⟩
  · have hempty : (selectCases hasDefault arms).isEmpty = false :=
      List.isEmpty_eq_false_iff.mpr (List.ne_nil_of_length_pos hne)
    rw [hempty, if_neg Bool.false_ne_true, Bits.minBitCountUnsigned_le_iff] at hwidth
    omega
  · -- without a default the cases are exact
    rintro rfl
    have hempty : (selectCases false arms).isEmpty = false :=
      List.isEmpty_eq_false_iff.mpr (List.ne_nil_of_length_pos hpos)
    rw [hempty, bne_iff_ne, Ne, eq_comm, Bool.not_eq_false,
      Bool.and_eq_true, decide_eq_true_eq] at hexact
    rw [hexact.1]
    exact (minBitCountUnsigned_pred_of_isPowerOfTwo hexact.2).symm

theorem length_selectCases {α : Type} (hasDefault : Bool) (arms : List α) :
    (selectCases hasDefault arms).length = if hasDefault then arms.length - 1 else arms.length := by
  cases hasDefault
  · rfl
  · exact List.length_dropLast ..

/-- An arm is one of the cases, or the default. -/
theorem mem_selectCases {α : Type} {arms : List α} {p : ℕ} {x : α} (h : arms[p]? = some x) :
    x ∈ selectCases hasDefault arms ∨ hasDefault = true ∧ p = arms.length - 1 := by
  obtain ⟨hp, -⟩ := List.getElem?_eq_some_iff.mp h
  cases hasDefault with
  | false => exact Or.inl (List.mem_of_getElem? h)
  | true =>
    rcases lt_or_ge p (arms.length - 1) with hlt | hge
    · left
      apply List.mem_of_getElem? (i := p)
      rw [← h]
      exact List.getElem?_dropLast.trans (if_pos hlt)
    · exact Or.inr ⟨rfl, by omega⟩

/-- Every arm has the type of the select, as far as the default has it. -/
theorem typeOfArm {w : ℕ} {arms : List ℕ} {types : List Ty}
    (htypes : SelTypes hasDefault type w types) (hlen : types.length = arms.length)
    (hdefault : ∀ d, selectDefault hasDefault arms = some d →
      nodes[d]?.map LogicNode.type = some type) {p : ℕ} {t : Ty} (ht : types[p]? = some t)
    (hj : arms[p]? = some j) (htype : nodes[j]?.map LogicNode.type = some t) : t = type := by
  have hmem : t ∈ selectCases hasDefault types ∨ _ := mem_selectCases ht
  rcases hmem with hmem | ⟨rfl, rfl⟩
  · exact htypes.cases t hmem
  · have hlast : selectDefault true arms = some j := by
      rw [hlen] at hj
      exact List.getLast?_eq_getElem?.trans hj
    exact Option.some.inj (htype.symm.trans (hdefault j hlast))

theorem arms_of_select (hvalid : Valid env nodes) {n : LogicNode} {selector : ℕ} {arms : List ℕ}
    {v : Bits} (hn : nodes[i]? = some n) (hop : n.op = .core (.sel hasDefault))
    (hoperands : n.operands = selector :: arms)
    (hdefault : ∀ d, selectDefault hasDefault arms = some d →
      nodes[d]?.map LogicNode.type = some n.type) (hv : HasBits env nodes selector v) :
    ∃ result, HasValue env nodes i n.type result ∧
      Arms env nodes (selectCases hasDefault arms) (selectDefault hasDefault arms) n.type v
        result := by
  obtain ⟨ps, result, facts⟩ := hvalid.node hn
  obtain ⟨op, operands, type, hlength⟩ := n
  obtain rfl : op = .core (.sel hasDefault) := hop
  obtain rfl : operands = selector :: arms := hoperands
  rcases facts.operands with - | ⟨hselector, harms⟩
  rename_i p ps
  obtain ⟨t, u⟩ := p
  obtain rfl : t = .bits v.bitCount := hselector.type_eq hv
  obtain rfl : u = .bits v := hselector.value_eq hvalid hv
  have htypes : SelTypes hasDefault type v.bitCount (ps.map Prod.fst) :=
    selTypes_of_verify facts.verify
  have heval : Interpreter.sel hasDefault (.bits v :: ps.map Prod.snd) = some result := facts.eval
  have hlen : ps.length = arms.length := harms.length_eq.symm
  have hcount : ∀ {α : Type} (l : List α), l.length = arms.length →
      (selectCases hasDefault l).length = (selectCases hasDefault arms).length := by
    intro α l hl
    rw [length_selectCases, length_selectCases, hl]
  have hpos : 0 < (selectCases hasDefault (ps.map Prod.snd)).length := by
    rw [List.length_pos_iff]
    intro hnil
    unfold Interpreter.sel at heval
    cases hasDefault <;> simp_all [Interpreter.selectArms, selectCases]
  rw [hcount _ (by rw [List.length_map, hlen])] at hpos
  have hwidth : (selectCases hasDefault arms).length ≤ 2 ^ v.bitCount := by
    have hcases := hcount (ps.map Prod.fst) (by rw [List.length_map, hlen])
    rw [← hcases] at hpos ⊢
    exact htypes.width hpos
  rw [sel_eq (by rwa [hcount _ (by rw [List.length_map, hlen])])
    (by rwa [hcount _ (by rw [List.length_map, hlen])]), arm_eq, List.length_map, hlen] at heval
  refine ⟨result, facts.result, ?_, htypes.noToken, hpos, ?_, hwidth⟩
  · intro k hk
    rw [length_selectCases] at hpos
    have hp : (if hasDefault then min k (arms.length - 1) else k) < arms.length := by
      cases hasDefault with
      | false =>
        have hall := htypes.all rfl
        rw [List.length_map, hlen] at hall
        rw [if_neg Bool.false_ne_true, hall]
        exact hk
      | true =>
        rw [if_pos rfl] at hpos ⊢
        omega
    rw [arm_eq]
    obtain ⟨p, hpk⟩ : ∃ p, p = if hasDefault then min k (arms.length - 1) else k := ⟨_, rfl⟩
    rw [← hpk] at hp ⊢
    have hp' : p < ps.length := hlen ▸ hp
    have hdenotes : HasValue env nodes arms[p] ps[p].1 ps[p].2 := harms.get hp hp'
    have htype : ps[p].1 = type := by
      refine typeOfArm htypes (by rw [List.length_map, hlen]) hdefault (p := p) ?_
        (List.getElem?_eq_getElem hp) hdenotes.type
      rw [List.getElem?_map, List.getElem?_eq_getElem hp', Option.map_some]
    refine ⟨arms[p], ps[p].2, List.getElem?_eq_getElem hp, htype ▸ hdenotes, ?_⟩
    rintro rfl
    rw [← hpk, List.getElem?_map, List.getElem?_eq_getElem hp'] at heval
    exact Option.some.inj heval
  · rw [List.length_cons] at hlength
    rw [length_selectCases]
    split <;> omega

/-! ## Selects with a default, and with two cases -/

theorem minBitCountUnsigned_pred_le {w : ℕ} (hpos : 0 < m) (hm : m ≤ 2 ^ w) :
    Bits.minBitCountUnsigned (m - 1) ≤ w := by
  rw [Bits.minBitCountUnsigned_le_iff]
  omega

/-- Fewer cases than values of the selector are not exact. -/
theorem not_exact {w : ℕ} (hpos : 0 < m) (hm : m < 2 ^ w) :
    (decide (w = Bits.minBitCountUnsigned (m - 1)) && Verifier.isPowerOfTwo m) = false := by
  rw [Bool.and_eq_false_iff, decide_eq_false_iff_not, or_iff_not_imp_left]
  intro hw
  unfold Verifier.isPowerOfTwo
  rw [Bool.and_eq_false_iff, decide_eq_false_iff_not, decide_eq_false_iff_not]
  refine Or.inr fun hpow => ?_
  -- a smaller width is not enough for the greatest case
  have hlog : m.log2 < w := by
    rw [← hpow] at hm
    exact (Nat.pow_lt_pow_iff_right (by decide)).mp hm
  have hle : Bits.minBitCountUnsigned (m - 1) ≤ m.log2 := by
    rw [Bits.minBitCountUnsigned_le_iff]
    omega
  omega

/-- The checks on a select with a default. -/
theorem selTypes_default {w : ℕ} (hpos : 0 < m) (hm : m < 2 ^ w)
    (htoken : Verifier.typeHasToken type = false) (t : Ty) :
    Verifier.selTypes true type (.bits w :: (List.replicate m type ++ [t])) = true := by
  have hne : (List.replicate m type).isEmpty = false := by
    rw [List.isEmpty_eq_false_iff, Ne, List.replicate_eq_nil_iff]
    omega
  simp only [Verifier.selTypes, if_true, List.dropLast_concat, hne, Bool.false_eq_true, if_false,
    List.length_replicate, not_exact hpos hm, htoken, List.length_append,
    decide_eq_true (minBitCountUnsigned_pred_le hpos hm.le)]
  rw [Bool.and_eq_true]
  refine ⟨rfl, List.all_eq_true.mpr fun t ht => ?_⟩
  exact decide_eq_true (List.eq_of_mem_replicate ht)

/-- The value of a select with a default. -/
theorem sel_default {d : Bits} (z : Value) (hpos : 0 < us.length)
    (hlen : us.length ≤ 2 ^ d.bitCount) :
    Interpreter.sel true (.bits d :: (us ++ [z])) =
      if d.toNat < us.length then us[d.toNat]? else some z := by
  have hcases : selectCases true (us ++ [z]) = us := List.dropLast_concat
  have hdefault : selectDefault true (us ++ [z]) = some z := List.getLast?_concat
  rw [sel_eq (by rwa [hcases]) (by rwa [hcases]), hcases, hdefault]
  rfl

/-! ## The nodes of the chain -/

theorem returns_makeSub (hvalid : Valid env nodes) {a b : Bits} (hi : HasBits env nodes i a)
    (hj : HasBits env nodes j b) (hwidth : b.bitCount = a.bitCount) :
    Returns env nodes (makeSub i j) fun nodes' k => HasBits env nodes' k (BitsOps.sub a b) := by
  refine Returns.bind (returns_getType hvalid hi) fun nodes₁ t hvalid₁ hle₁ ht => ?_
  subst ht
  have hoperands : HaveValues env nodes₁ [i, j]
      [(.bits a.bitCount, .bits a), (.bits b.bitCount, .bits b)] :=
    .cons (hi.grow hle₁) (.cons (hj.grow hle₁) .nil)
  refine returns_makeVerified hvalid₁ hoperands (show 2 < 2 ^ 64 by decide) (fun _ => ?_)
    (fun _ _ => rfl) (conforms_bits _)
  show (true && decide ([Ty.bits a.bitCount, .bits b.bitCount] = [.bits a.bitCount, .bits a.bitCount]))
    = true
  rw [hwidth, decide_eq_true rfl, Bool.and_self]

/-- A comparison of two nodes of bits type. -/
theorem returns_makeCompare (hvalid : Valid env nodes) {op : Op} {a b : Bits} {c : Bool}
    (hi : HasBits env nodes i a) (hj : HasBits env nodes j b) (hwidth : b.bitCount = a.bitCount)
    (hverify : ∀ h, LogicVerifier.verifyNode ⟨.core op, [i, j], .bits 1, h⟩
      [.bits a.bitCount, .bits a.bitCount] = true)
    (heval : ∀ id h, LogicInterpreter.evalNode env id ⟨.core op, [i, j], .bits 1, h⟩
      [.bits a, .bits b] = some (.bits (BitsOps.ofBool c))) :
    Returns env nodes (makeVerified (.core op) [i, j] (.bits 1)) fun nodes' k =>
      HasBits env nodes' k (BitsOps.ofBool c) := by
  have hoperands : HaveValues env nodes [i, j]
      [(.bits a.bitCount, .bits a), (.bits b.bitCount, .bits b)] := .cons hi (.cons hj .nil)
  refine returns_makeVerified hvalid hoperands (show 2 < 2 ^ 64 by decide) (fun h => ?_) heval
    (conforms_ofBool c)
  rw [List.map_cons, List.map_cons, hwidth]
  exact hverify h

/-- A select with a default, of cases of one type. -/
theorem makeSelect_default (hvalid : Valid env nodes) {selector z : ℕ} {d : Bits} {t : Ty}
    {zero u : Value} (hd : HasBits env nodes selector d)
    (hus : HaveValues env nodes ids (us.map fun u => (type, u))) (hz : HasValue env nodes z t zero)
    (hpos : 0 < ids.length) (hlen : ids.length < 2 ^ d.bitCount) (hlength : ids.length + 2 < 2 ^ 64)
    (htoken : Verifier.typeHasToken type = false)
    (hu : (if d.toNat < us.length then us[d.toNat]? else some zero) = some u) :
    (u.conformsToType type = true → Returns env nodes (makeSelect selector ids (some z))
      fun nodes' i => HasValue env nodes' i type u) ∧
    (u.conformsToType type = false → Stuck env nodes (makeSelect selector ids (some z))) := by
  have hcount : ids.length = us.length := by rw [hus.length_eq, List.length_map]
  rcases ids with - | ⟨first, rest⟩
  · exact absurd hpos (Nat.lt_irrefl 0)
  obtain ⟨p, ps, hps⟩ := List.exists_cons_of_ne_nil (l := us) (by rintro rfl; cases hcount)
  have hfirst : HasValue env nodes first type p := by
    rw [hps] at hus
    rcases hus with - | ⟨h, -⟩
    exact h
  have hget := returns_getType hvalid hfirst
  -- the select itself, once its type is known
  have hoperands : ∀ nodes₁, nodes <+: nodes₁ →
      HaveValues env nodes₁ (selector :: (first :: rest ++ [z]))
        ((.bits d.bitCount, .bits d) :: (us.map (fun u => (type, u)) ++ [(t, zero)])) := by
    intro nodes₁ hle
    exact .cons (hd.grow hle) (List.rel_append (hus.grow hle) (.cons (hz.grow hle) .nil))
  have hfst : ((.bits d.bitCount, .bits d) :: (us.map (fun u => (type, u)) ++ [(t, zero)])).map
      Prod.fst = .bits d.bitCount :: (List.replicate us.length type ++ [t]) := by
    rw [List.map_cons, List.map_append, List.map_map]
    exact congrArg (fun l => Ty.bits d.bitCount :: (l ++ [t])) (List.map_const' ..)
  have hsnd : ((.bits d.bitCount, .bits d) :: (us.map (fun u => (type, u)) ++ [(t, zero)])).map
      Prod.snd = .bits d :: (us ++ [zero]) := by
    rw [List.map_cons, List.map_append, List.map_map]
    exact congrArg (fun l => Value.bits d :: (l ++ [zero])) (List.map_id us)
  have heval : ∀ id h, LogicInterpreter.evalNode env id
      ⟨.core (.sel true), selector :: (first :: rest ++ [z]), type, h⟩
      (.bits d :: (us ++ [zero])) = some u := by
    intro id h
    rw [← hu]
    exact sel_default zero (hcount ▸ hpos) (hcount ▸ hlen.le)
  have hlength' : (selector :: (first :: rest ++ [z])).length < 2 ^ 64 := by
    rw [List.length_cons, List.length_append]
    exact hlength
  constructor
  · intro hconf
    refine Returns.bind hget fun nodes₁ type' hvalid₁ hle₁ htype => ?_
    subst htype
    refine returns_makeVerified hvalid₁ (hoperands nodes₁ hle₁) hlength' (fun h => ?_)
      (fun id h => ?_) hconf
    · rw [hfst]
      exact selTypes_default (hcount ▸ hpos) (hcount ▸ hlen) htoken t
    · rw [hsnd]
      exact heval id h
  · intro hconf
    refine Returns.stuck_bind hget fun nodes₁ type' hvalid₁ hle₁ htype => ?_
    subst htype
    refine stuck_makeVerified hvalid₁ (hoperands nodes₁ hle₁) fun id h w hw => ?_
    rw [hsnd] at hw
    cases (heval id h).symm.trans hw
    exact hconf

/-- A select with two cases. -/
theorem makeSelect_two (hvalid : Valid env nodes) {selector : ℕ} {c : Bool} {x y : Value}
    (hc : HasBits env nodes selector (BitsOps.ofBool c)) (hi : HasValue env nodes i type x)
    (hj : HasValue env nodes j type y) (htoken : Verifier.typeHasToken type = false) :
    Returns env nodes (makeSelect selector [i, j] none) fun nodes' k =>
      HasValue env nodes' k type (if c then y else x) := by
  refine Returns.bind (returns_getType hvalid hi) fun nodes₁ type' hvalid₁ hle₁ htype => ?_
  subst htype
  have hoperands : HaveValues env nodes₁ [selector, i, j]
      [(.bits 1, .bits (BitsOps.ofBool c)), (type', x), (type', y)] :=
    .cons (hc.grow hle₁) (.cons (hi.grow hle₁) (.cons (hj.grow hle₁) .nil))
  refine returns_makeVerified hvalid₁ hoperands (show 3 < 2 ^ 64 by decide) (fun _ => ?_)
    (fun id h => eval_sel env id _ type' h c x y) ?_
  · show Verifier.selTypes false type' [.bits 1, type', type'] = true
    simp [Verifier.selTypes, htoken]
    decide
  · split
    · exact hj.conforms
    · exact hi.conforms

/-! ## One interval -/

variable {cases : List ℕ} {default : Option ℕ} {v : Bits} {result : Value} {selector : ℕ} {w : ℕ}
  {interval : Interval w}
  (harms : Arms env nodes cases default type v result) (hvalid : Valid env nodes)
  (hw : v.bitCount = w) (hproper : interval.Proper) (hv : HasBits env nodes selector v)

theorem Arms.grow (h : Arms env nodes cases default type v result) (hle : nodes <+: nodes') :
    Arms env nodes' cases default type v result := by
  refine ⟨fun k hk => ?_, h.noToken, h.pos, h.length, h.width⟩
  obtain ⟨j, u, hj, hu, heq⟩ := h.arm k hk
  exact ⟨j, u, hj, hu.grow hle, heq⟩

/-- The cases for some values of the selector. -/
theorem Arms.mapM_caseInRange (h : Arms env nodes cases default type v result) (ks : List ℕ)
    (hks : ∀ k ∈ ks, k < 2 ^ v.bitCount ∧ k < 2 ^ 64) :
    ∃ ids, ∃ us : List Value, ks.mapM (caseInRange cases default) = some ids ∧
      HaveValues env nodes ids (us.map fun u => (type, u)) ∧
      List.Forall₂ (fun k u => k = v.toNat → u = result) ks us := by
  induction ks with
  | nil => exact ⟨[], [], rfl, .nil, .nil⟩
  | cons k ks ih =>
    obtain ⟨hk, hk64⟩ := hks k (List.mem_cons_self ..)
    obtain ⟨ids, us, hids, hus, hresult⟩ := ih fun k' hk' => hks k' (List.mem_cons_of_mem k hk')
    obtain ⟨j, u, hj, hu, heq⟩ := h.arm k hk
    have hcase : caseInRange cases default k = some j := (if_pos hk64).trans hj
    refine ⟨j :: ids, u :: us, ?_, .cons hu hus, .cons heq hresult⟩
    rw [List.mapM_cons, hcase, hids]
    rfl

include harms hw hproper in
/-- The cases for the values in an interval. -/
theorem Arms.casesInRange (hupper : interval.upper < 2 ^ 64) :
    ∃ ids, ∃ us : List Value, interval.elements.mapM (caseInRange cases default) = some ids ∧
      HaveValues env nodes ids (us.map fun u => (type, u)) ∧ us.length = interval.pointCount ∧
      (interval.covers v.toNat = true → us[v.toNat - interval.lower]? = some result) := by
  have helements : interval.elements =
      List.range' interval.lower (interval.upper - interval.lower + 1) := by
    unfold Interval.elements
    rw [(Interval.isImproper_eq_false_iff interval).mpr hproper, if_neg Bool.false_ne_true]
  obtain ⟨ids, us, hids, hus, hresult⟩ := harms.mapM_caseInRange interval.elements fun k hk => by
    rw [helements, List.mem_range'_1] at hk
    have hlt := interval.upper_lt
    unfold Interval.Proper at hproper
    rw [hw]
    omega
  have hlen : us.length = interval.pointCount := by
    rw [← hresult.length_eq, helements, List.length_range']
    rfl
  refine ⟨ids, us, hids, hus, hlen, fun hcovers => ?_⟩
  have hv : v.toNat < 2 ^ w := hw ▸ v.isLt
  rw [Interval.covers_iff_of_proper hproper hv] at hcovers
  -- the place of the selector in the interval
  have hplace : v.toNat - interval.lower < us.length := by
    rw [hlen]
    unfold Interval.pointCount
    omega
  have hplace' : v.toNat - interval.lower < interval.elements.length :=
    hresult.length_eq ▸ hplace
  rw [List.getElem?_eq_getElem hplace]
  refine congrArg some (hresult.get hplace' hplace ?_)
  rw [List.get_eq_getElem]
  simp only [helements, List.getElem_range']
  omega

/-- What the select over one interval yields. -/
def inRange (interval : Interval w) (type : Ty) (v : Bits) (result : Value) : Value :=
  if interval.covers v.toNat then result else .bits (Bits.zero type.flatBitCount)

include hw hproper in
/-- The distance of the selector from the lower bound is beyond the cases outside of the
interval, as the subtraction wraps. -/
theorem sub_lowerBound :
    (BitsOps.sub v interval.lowerBound).toNat =
        (if interval.lower ≤ v.toNat then v.toNat - interval.lower
          else 2 ^ w - interval.lower + v.toNat) ∧
      ((BitsOps.sub v interval.lowerBound).toNat < interval.pointCount ↔
        interval.covers v.toNat = true) := by
  have hv : v.toNat < 2 ^ w := hw ▸ v.isLt
  have hupper := interval.upper_lt
  unfold Interval.Proper at hproper
  have hsub : (BitsOps.sub v interval.lowerBound).toNat =
      (v.toNat + (2 ^ w - interval.lower)) % 2 ^ w := by
    subst hw
    exact Bits.ofNat_toNat ..
  have hvalue : (BitsOps.sub v interval.lowerBound).toNat =
      if interval.lower ≤ v.toNat then v.toNat - interval.lower
        else 2 ^ w - interval.lower + v.toNat := by
    rw [hsub]
    split
    · rw [show v.toNat + (2 ^ w - interval.lower) = (v.toNat - interval.lower) + 2 ^ w by omega,
        Nat.add_mod_right, Nat.mod_eq_of_lt (by omega)]
    · rw [Nat.mod_eq_of_lt (by omega), Nat.add_comm]
  rw [hvalue, Interval.covers_iff_of_proper hproper hv]
  unfold Interval.pointCount
  split <;> omega

include hvalid hw hproper hv in
/-- The select over one interval, of fewer values than cases. -/
theorem selectInRange_spec {lower : ℕ} (hlower : HasBits env nodes lower interval.lowerBound)
    (hus : HaveValues env nodes ids (us.map fun u => (type, u)))
    (hcount : us.length = interval.pointCount)
    (hresult : interval.covers v.toNat = true → us[v.toNat - interval.lower]? = some result)
    (hlen : ids.length < 2 ^ w) (hlength : ids.length + 2 < 2 ^ 64)
    (htoken : Verifier.typeHasToken type = false) :
    ((inRange interval type v result).conformsToType type = true →
      Returns env nodes (selectInRange selector ids lower type) fun nodes' i =>
        HasValue env nodes' i type (inRange interval type v result)) ∧
    ((inRange interval type v result).conformsToType type = false →
      Stuck env nodes (selectInRange selector ids lower type)) := by
  have hids : ids.length = us.length := by rw [hus.length_eq, List.length_map]
  have hsub := returns_makeSub hvalid hv hlower hw.symm
  obtain ⟨hvalue, hcovers⟩ := sub_lowerBound hw hproper
  have hchosen : (if (BitsOps.sub v interval.lowerBound).toNat < us.length then
      us[(BitsOps.sub v interval.lowerBound).toNat]?
      else some (.bits (Bits.zero type.flatBitCount))) = some (inRange interval type v result) := by
    rw [hcount]
    unfold inRange
    by_cases h : interval.covers v.toNat = true
    · have hle : interval.lower ≤ v.toNat :=
        ((Interval.covers_iff_of_proper hproper (hw ▸ v.isLt)).mp h).1
      rw [if_pos (hcovers.mpr h), if_pos h, hvalue, if_pos hle]
      exact hresult h
    · rw [if_neg (mt hcovers.mp h), if_neg h]
  have hspec : ∀ nodes₁ d, Valid env nodes₁ → nodes <+: nodes₁ →
      HasBits env nodes₁ d (BitsOps.sub v interval.lowerBound) → ∀ nodes₂ z,
      Valid env nodes₂ → nodes₁ <+: nodes₂ → HasValue env nodes₂ z (.bits type.flatBitCount)
        (.bits (Bits.zero type.flatBitCount)) → _ :=
    fun nodes₁ d _ hle₁ hd nodes₂ z hvalid₂ hle₂ hz =>
      makeSelect_default hvalid₂ (hd.grow hle₂) (hus.grow (hle₁.trans hle₂)) hz
        (by rw [hids, hcount]; exact Nat.succ_pos _) (by
          show _ < 2 ^ v.bitCount
          rwa [hw]) hlength htoken hchosen
  constructor
  · intro hconf
    refine Returns.bind hsub fun nodes₁ d hvalid₁ hle₁ hd => ?_
    refine Returns.bind (returns_makeBitsLiteral hvalid₁ _) fun nodes₂ z hvalid₂ hle₂ hz => ?_
    exact (hspec nodes₁ d hvalid₁ hle₁ hd nodes₂ z hvalid₂ hle₂ hz).1 hconf
  · intro hconf
    refine Returns.stuck_bind hsub fun nodes₁ d hvalid₁ hle₁ hd => ?_
    refine Returns.stuck_bind (returns_makeBitsLiteral hvalid₁ _) fun nodes₂ z hvalid₂ hle₂ hz => ?_
    exact (hspec nodes₁ d hvalid₁ hle₁ hd nodes₂ z hvalid₂ hle₂ hz).2 hconf

/-! ## The chain -/

/-- The end of the chain so far, which has the result if an interval so far has the selector. -/
def Chain (env : Env) (nodes : List LogicNode) (type : Ty) (result : Value) (covered : Bool) :
    Option ℕ → Prop
  | none => covered = false
  | some other => ∃ u, HasValue env nodes other type u ∧ (covered = true → u = result)

theorem Chain.grow (h : Chain env nodes type result covered other) (hle : nodes <+: nodes') :
    Chain env nodes' type result covered other := by
  cases other with
  | none => exact h
  | some other =>
    obtain ⟨u, hu, heq⟩ := h
    exact ⟨u, hu.grow hle, heq⟩

include hw hproper in
/-- The selector is between the bounds exactly when the interval has it. -/
theorem between_eq :
    (BitsOps.uLessThanOrEqual interval.lowerBound v &&
      (BitsOps.uLessThanOrEqual v interval.upperBound && true)) = interval.covers v.toNat := by
  rw [Bool.eq_iff_iff, Bool.and_true, Bool.and_eq_true,
    Interval.covers_iff_of_proper hproper (hw ▸ v.isLt)]
  exact and_congr decide_eq_true_iff decide_eq_true_iff

include hvalid hw hproper hv in
theorem addToChain_returns {lower upper ifInRange : ℕ}
    (hlower : HasBits env nodes lower interval.lowerBound)
    (hupper : HasBits env nodes upper interval.upperBound)
    (hif : HasValue env nodes ifInRange type (inRange interval type v result))
    (htoken : Verifier.typeHasToken type = false)
    (hother : Chain env nodes type result covered other) :
    Returns env nodes (addToChain selector lower upper ifInRange other) fun nodes' other' =>
      Chain env nodes' type result (covered || interval.covers v.toNat) other' := by
  cases other with
  | none =>
    obtain rfl : covered = false := hother
    refine Returns.pure hvalid ⟨_, hif, fun hcovers => ?_⟩
    exact if_pos hcovers
  | some other =>
    obtain ⟨u, hu, heq⟩ := hother
    have hge : Returns env nodes (makeVerified (.core .uge) [selector, lower] (.bits 1)) _ :=
      returns_makeCompare hvalid hv hlower hw.symm
        (fun _ => show (decide _ && decide _) = true by simp)
        (fun _ _ => boolResult_one _)
    refine Returns.bind hge fun nodes₁ ge hvalid₁ hle₁ hge => ?_
    have hle : Returns env nodes₁ (makeVerified (.core .ule) [selector, upper] (.bits 1)) _ :=
      returns_makeCompare hvalid₁ (hv.grow hle₁) (hupper.grow hle₁) hw.symm
        (fun _ => show (decide _ && decide _) = true by simp)
        (fun _ _ => boolResult_one _)
    refine Returns.bind hle fun nodes₂ le hvalid₂ hle₂ hle => ?_
    have hoperands : HaveValues env nodes₂ [ge, le]
        [(.bits 1, .bits (BitsOps.ofBool (BitsOps.uLessThanOrEqual interval.lowerBound v))),
          (.bits 1, .bits (BitsOps.ofBool (BitsOps.uLessThanOrEqual v interval.upperBound)))] :=
      .cons (hge.grow hle₂) (.cons hle .nil)
    have hand : Returns env nodes₂ (makeVerified .and [ge, le] (.bits 1)) _ :=
      returns_makeVerified hvalid₂ hoperands (show 2 < 2 ^ 64 by decide) (fun _ => rfl)
        (fun id h => eval_and env id [ge, le] h (List.cons_ne_nil _ [_])) (conforms_ofBool _)
    refine Returns.bind hand fun nodes₃ both hvalid₃ hle₃ hboth => ?_
    have hle₀₃ := hle₁.trans (hle₂.trans hle₃)
    have hbetween : HasBits env nodes₃ both (BitsOps.ofBool (interval.covers v.toNat)) := by
      rw [← between_eq hw hproper]
      exact hboth
    refine Returns.map (Returns.mono (makeSelect_two hvalid₃ hbetween (hu.grow hle₀₃)
      (hif.grow hle₀₃) htoken) fun nodes₄ k _ _ hk => ⟨_, hk, fun hcovers => ?_⟩)
    unfold inRange
    by_cases h : interval.covers v.toNat = true
    · rw [if_pos h, if_pos h]
    · rw [if_neg h]
      rw [Bool.not_eq_true] at h
      rw [h, Bool.or_false] at hcovers
      exact heq hcovers

theorem grows_makeSelect (selector : ℕ) (cases : List ℕ) (default : Option ℕ) :
    Grows (makeSelect selector cases default) := by
  cases cases with
  | nil => exact grows_lift none
  | cons first rest => exact (grows_getType first).bind fun _ => grows_makeVerified _ _ _

theorem grows_selectInRange (selector : ℕ) (ids : List ℕ) (lower : ℕ) (type : Ty) :
    Grows (selectInRange selector ids lower type) :=
  ((grows_getType _).bind fun _ => grows_makeVerified _ _ _).bind fun _ =>
    (grows_makeBitsLiteral _).bind fun _ => grows_makeSelect _ _ _

theorem grows_addToChain (selector lower upper ifInRange : ℕ) (other : Option ℕ) :
    Grows (addToChain selector lower upper ifInRange other) := by
  cases other with
  | none => exact grows_pure _
  | some other =>
    exact (grows_makeVerified _ _ _).bind fun _ => (grows_makeVerified _ _ _).bind fun _ =>
      (grows_makeVerified _ _ _).bind fun _ => (grows_makeSelect _ _ _).map

theorem grows_addInterval (other : Option ℕ) (interval : Interval w) :
    Grows (addInterval selector cases default type other interval) :=
  (grows_lift _).bind fun _ => (grows_makeBitsLiteral _).bind fun _ =>
    (grows_makeBitsLiteral _).bind fun _ => (grows_selectInRange _ _ _ _).bind fun _ =>
      grows_addToChain _ _ _ _ _

include harms hvalid hw hproper hv in
/-- The select over one interval, once the literals for its bounds are there. -/
theorem ifInRange_spec {lower : ℕ} (hcount : interval.pointCount < cases.length)
    (hus : HaveValues env nodes ids (us.map fun u => (type, u)))
    (hlen : us.length = interval.pointCount)
    (hresult : interval.covers v.toNat = true → us[v.toNat - interval.lower]? = some result)
    (hlower : HasBits env nodes lower interval.lowerBound) :
    ((inRange interval type v result).conformsToType type = true →
      Returns env nodes (selectInRange selector ids lower type) fun nodes' i =>
        HasValue env nodes' i type (inRange interval type v result)) ∧
    ((inRange interval type v result).conformsToType type = false →
      Stuck env nodes (selectInRange selector ids lower type)) := by
  have hids : ids.length = interval.pointCount := by rw [hus.length_eq, List.length_map, hlen]
  have hwidth := harms.width
  have hlength := harms.length
  rw [hw] at hwidth
  exact selectInRange_spec hvalid hw hproper hv hlower hus hlen hresult (by omega) (by omega)
    harms.noToken

include harms hvalid hw hproper hv in
/-- One more interval, of fewer values than there are cases. -/
theorem addInterval_returns
    (hcount : interval.pointCount < cases.length) (hupper : interval.upper < 2 ^ 64)
    (hconf : (inRange interval type v result).conformsToType type = true)
    (hother : Chain env nodes type result covered other) :
    Returns env nodes (addInterval selector cases default type other interval) fun nodes' other' =>
        Chain env nodes' type result (covered || interval.covers v.toNat) other' := by
  obtain ⟨ids, us, hids, hus, hlen, hresult⟩ := harms.casesInRange hw hproper hupper
  refine Returns.lift_bind hids ?_
  refine Returns.bind (returns_makeBitsLiteral hvalid _) fun nodes₁ lower hvalid₁ hle₁ hlower => ?_
  refine Returns.bind (returns_makeBitsLiteral hvalid₁ _)
    fun nodes₂ upper hvalid₂ hle₂ hupperBound => ?_
  have hle₀₂ := hle₁.trans hle₂
  refine Returns.bind ((ifInRange_spec (harms.grow hle₀₂) hvalid₂ hw hproper (hv.grow hle₀₂)
    hcount (hus.grow hle₀₂) hlen hresult (hlower.grow hle₂)).1 hconf)
    fun nodes₃ ifInRange hvalid₃ hle₃ hif => ?_
  have hle₀₃ := hle₀₂.trans hle₃
  exact addToChain_returns hvalid₃ hw hproper (hv.grow hle₀₃) (hlower.grow (hle₂.trans hle₃))
    (hupperBound.grow hle₃) hif harms.noToken (hother.grow hle₀₃)

include hproper in
/-- A value of the selector which is no `uint64_t`. -/
theorem addInterval_stuck_of_le (h : 2 ^ 64 ≤ interval.upper) :
    Stuck env nodes (addInterval selector cases default type other interval) := by
  have hmapM : interval.elements.mapM (caseInRange cases default) = none := by
    rw [← Option.not_isSome_iff_eq_none, Option.isSome_iff_exists]
    rintro ⟨ids, hids⟩
    obtain ⟨l₁, l₂, hsplit, -⟩ := Interval.elements_split hproper hproper le_rfl
    have hmem : interval.upper ∈ interval.elements := by
      rw [hsplit]
      exact List.mem_append_right l₁ (List.mem_cons_self ..)
    obtain ⟨k, hk, hupper⟩ := List.getElem_of_mem hmem
    have hall := mapM_eq_some_iff.mp hids
    have hcase := hall.get hk (hall.length_eq ▸ hk)
    rw [List.get_eq_getElem, hupper] at hcase
    unfold caseInRange at hcase
    rw [if_neg (not_lt.mpr h)] at hcase
    cases hcase
  unfold addInterval
  rw [hmapM]
  exact stuck_lift.bind_left fun _ => (grows_makeBitsLiteral _).bind fun _ =>
    (grows_makeBitsLiteral _).bind fun _ => (grows_selectInRange _ _ _ _).bind fun _ =>
      grows_addToChain _ _ _ _ _

theorem conforms_bits_eq_false (b : Bits) (h : type.isBits = false) :
    (Value.bits b).conformsToType type = false := by
  cases type with
  | bits w => cases h
  | tuple ts => rfl
  | array size t => rfl
  | token => rfl

include harms hvalid hw hproper hv in
/-- The literal is no value of a tuple or of an array. -/
theorem addInterval_stuck
    (hcount : interval.pointCount < cases.length) (htype : type.isBits = false)
    (hcovers : interval.covers v.toNat = false) :
    Stuck env nodes (addInterval selector cases default type other interval) := by
  rcases le_or_gt (2 ^ 64) interval.upper with hupper | hupper
  · exact addInterval_stuck_of_le hproper hupper
  · obtain ⟨ids, us, hids, hus, hlen, hresult⟩ := harms.casesInRange hw hproper hupper
    refine Stuck.bind fun ids' nodes' hlift => ?_
    obtain ⟨ids'', hids'', heq⟩ := Option.bind_eq_some_iff.mp hlift
    cases heq
    cases hids.symm.trans hids''
    refine Returns.stuck_bind (returns_makeBitsLiteral hvalid _)
      fun nodes₁ lower hvalid₁ hle₁ hlower => ?_
    refine Returns.stuck_bind (returns_makeBitsLiteral hvalid₁ _)
      fun nodes₂ upper hvalid₂ hle₂ _ => ?_
    have hle₀₂ := hle₁.trans hle₂
    have hzero : (inRange interval type v result).conformsToType type = false := by
      unfold inRange
      rw [hcovers]
      exact conforms_bits_eq_false _ htype
    exact ((ifInRange_spec (harms.grow hle₀₂) hvalid₂ hw hproper (hv.grow hle₀₂) hcount
      (hus.grow hle₀₂) hlen hresult (hlower.grow hle₂)).2 hzero).bind_left fun _ =>
        grows_addToChain _ _ _ _ _

/-- The intervals of the loop are good for the selector: each select yields a value of the type. -/
structure Good (cases : List ℕ) (type : Ty) (v : Bits) (intervals : List (Interval w)) : Prop where
  proper : ∀ i ∈ intervals, i.Proper
  count : ∀ i ∈ intervals, i.pointCount < cases.length
  upper : ∀ i ∈ intervals, i.upper < 2 ^ 64
  inRange : ∀ i ∈ intervals, type.isBits = true ∨ i.covers v.toNat = true

theorem conforms_zero (h : type.isBits = true) :
    (Value.bits (Bits.zero type.flatBitCount)).conformsToType type = true := by
  cases type with
  | bits w => exact conforms_bits (Bits.zero w)
  | tuple ts => cases h
  | array size t => cases h
  | token => cases h

theorem inRange_conforms (hresult : result.conformsToType type = true)
    (h : type.isBits = true ∨ interval.covers v.toNat = true) :
    (inRange interval type v result).conformsToType type = true := by
  unfold inRange
  split
  · exact hresult
  · rename_i hcovers
    exact conforms_zero (h.resolve_right hcovers)

include harms hvalid hw hv in
/-- The whole loop. -/
theorem foldlM_addInterval (hresult : result.conformsToType type = true)
    {intervals : List (Interval w)} (hgood : Good cases type v intervals)
    (hother : Chain env nodes type result covered other) :
    Returns env nodes (intervals.foldlM (addInterval selector cases default type) other)
      fun nodes' other' => Chain env nodes' type result
        (covered || intervals.any fun i => i.covers v.toNat) other' := by
  induction intervals generalizing nodes covered other with
  | nil =>
    rw [List.any_nil, Bool.or_false]
    exact Returns.pure hvalid hother
  | cons interval rest ih =>
    have hmem : interval ∈ interval :: rest := List.mem_cons_self ..
    rw [List.any_cons, ← Bool.or_assoc]
    refine Returns.bind (addInterval_returns harms hvalid hw (hgood.proper _ hmem) hv
      (hgood.count _ hmem) (hgood.upper _ hmem)
        (inRange_conforms hresult (hgood.inRange _ hmem)) hother)
          fun nodes₁ other₁ hvalid₁ hle₁ h₁ => ?_
    have hrest : Good cases type v rest :=
      ⟨fun i hi => hgood.proper i (List.mem_cons_of_mem _ hi),
        fun i hi => hgood.count i (List.mem_cons_of_mem _ hi),
        fun i hi => hgood.upper i (List.mem_cons_of_mem _ hi),
        fun i hi => hgood.inRange i (List.mem_cons_of_mem _ hi)⟩
    exact ih (harms.grow hle₁) hvalid₁ (hv.grow hle₁) hrest h₁

/-! ## The pass -/

theorem sparsifySelect_eq (hset : set.isNormalized = true) :
    sparsifySelect selector cases default type set =
      ((set.intervals.insertionSort fun a b => a.sizeBits ≤ b.sizeBits).foldlM
        (addInterval selector cases default type) none >>= replaceUsesWith type) := by
  unfold sparsifySelect intervalsSortedBySize
  rw [IntervalSet.normalize_eq_self hset]

/-- The size of a set is the sum of the sizes of its intervals. -/
theorem pointSum_of_size {k : ℕ} (hset : set.isNormalized = true) (h : set.size = some (some k)) :
    pointSum set.intervals = k := by
  obtain ⟨hfits, hoverflows⟩ := IntervalSet.sizeFrom_eq
    (fun i hi => (set.normal hset).proper hi) (show 0 < 2 ^ 63 by norm_num)
  unfold IntervalSet.size at h
  rw [if_pos hset] at h
  by_cases hfit : IntervalSet.TotalFits set.intervals 0
  · rw [hfits hfit, Nat.zero_add] at h
    exact Option.some.inj (Option.ite_none_right_eq_some.mp (Option.some.inj h)).2
  · rw [hoverflows hfit] at h
    cases h

theorem pointCount_le_pointSum {intervals : List (Interval w)} {i : Interval w}
    (hi : i ∈ intervals) : i.pointCount ≤ pointSum intervals :=
  List.le_sum_of_mem (List.mem_map_of_mem hi)

/-- The intervals which the pass can make selects of. -/
def Rewritable (type : Ty) (set : IntervalSet) : Prop :=
  (type.isBits = true ∨ set.intervals.length ≤ 1) ∧ ∀ i ∈ set.intervals, i.upper < 2 ^ 64

include harms hvalid hv in
theorem sparsifySelect_returns
    (hresult : result.conformsToType type = true) (hset : set.isNormalized = true)
    (hcovers : set.Covers v) (hcount : pointSum set.intervals < cases.length)
    (h : Rewritable type set) :
    Returns env nodes (sparsifySelect selector cases default type set) fun nodes' r =>
      ∃ j, r = some j ∧ HasValue env nodes' j type result := by
  have hperm := List.perm_insertionSort (fun a b : Interval set.bitCount => a.sizeBits ≤ b.sizeBits)
    set.intervals
  obtain ⟨i, hi, hiv⟩ := hcovers.exists_interval
  have hgood : Good cases type v
      (set.intervals.insertionSort fun a b => a.sizeBits ≤ b.sizeBits) := by
    refine ⟨fun j hj => (set.normal hset).proper (hperm.mem_iff.mp hj),
      fun j hj => (pointCount_le_pointSum (hperm.mem_iff.mp hj)).trans_lt hcount,
      fun j hj => h.2 j (hperm.mem_iff.mp hj), fun j hj => h.1.imp_right fun hone => ?_⟩
    -- the only interval has the selector
    obtain ⟨k, hk⟩ := List.length_eq_one_iff.mp (le_antisymm hone (List.length_pos_of_mem hi))
    have hj' := hperm.mem_iff.mp hj
    rw [hk, List.mem_singleton] at hi hj'
    rw [hj', ← hi]
    exact hiv
  have hany : (set.intervals.insertionSort fun a b => a.sizeBits ≤ b.sizeBits).any
      (fun i => i.covers v.toNat) = true := List.any_eq_true.mpr ⟨i, hperm.mem_iff.mpr hi, hiv⟩
  rw [sparsifySelect_eq hset]
  refine Returns.bind (foldlM_addInterval harms hvalid hcovers.1 hv hresult hgood
    (show Chain env nodes type result false none from rfl)) fun nodes₁ other hvalid₁ hle₁ hother => ?_
  rw [hany] at hother
  cases other with
  | none => cases hother
  | some other =>
    obtain ⟨u, hu, heq⟩ := hother
    refine Returns.bind (returns_getType hvalid₁ hu) fun nodes₂ t hvalid₂ hle₂ ht => ?_
    rw [if_pos ht]
    exact Returns.pure hvalid₂ ⟨other, rfl, heq rfl ▸ hu.grow hle₂⟩

/-- Two intervals of a normal form do not both have the selector. -/
theorem exists_not_covers {intervals : List (Interval w)} (h : Normal intervals)
    (hlen : 1 < intervals.length) {k : ℕ} (hk : k < 2 ^ w) :
    ∃ i ∈ intervals, i.covers k = false := by
  obtain ⟨i, j, rest, rfl⟩ : ∃ i j rest, intervals = i :: j :: rest := by
    rcases intervals with - | ⟨i, - | ⟨j, rest⟩⟩
    · cases hlen
    · exact absurd hlen (Nat.lt_irrefl 1)
    · exact ⟨i, j, rest, rfl⟩
  by_cases hi : i.covers k = true
  · refine ⟨j, List.mem_cons_of_mem i (List.mem_cons_self ..), ?_⟩
    have hgap := h.gap (List.mem_cons_self ..)
    rw [Interval.covers_iff_of_proper (h.proper (List.mem_cons_self ..)) hk] at hi
    rw [← Bool.not_eq_true, Interval.covers_iff_of_proper (h.tail.proper (List.mem_cons_self ..)) hk]
    omega
  · exact ⟨i, List.mem_cons_self .., Bool.eq_false_of_not_eq_true hi⟩

include harms hv in
theorem sparsifySelect_stuck (hset : set.isNormalized = true) (hcovers : set.Covers v)
    (hcount : pointSum set.intervals < cases.length) (h : ¬ Rewritable type set) :
    Stuck env nodes (sparsifySelect selector cases default type set) := by
  have hperm := List.perm_insertionSort (fun a b : Interval set.bitCount => a.sizeBits ≤ b.sizeBits)
    set.intervals
  have hnormal := set.normal hset
  rw [sparsifySelect_eq hset]
  have hgrows : ∀ other, Grows (replaceUsesWith type other) := by
    intro other
    cases other with
    | none => exact grows_pure none
    | some other =>
      refine (grows_getType other).bind fun t => ?_
      split
      · exact grows_pure _
      · exact grows_lift none
  refine Stuck.bind_left ?_ hgrows
  rcases not_and_or.mp h with htype | hupper
  · obtain ⟨hbits, hone⟩ := not_or.mp htype
    obtain ⟨i, hi, hiv⟩ := exists_not_covers hnormal (not_le.mp hone) hcovers.lt
    refine stuck_foldlM grows_addInterval (hperm.mem_iff.mpr hi) none
      fun other nodes' hle hvalid => ?_
    exact addInterval_stuck (harms.grow hle) hvalid hcovers.1 (hnormal.proper hi) (hv.grow hle)
      ((pointCount_le_pointSum hi).trans_lt hcount) (Bool.eq_false_of_not_eq_true hbits) hiv
  · push Not at hupper
    obtain ⟨i, hi, hupper⟩ := hupper
    exact stuck_foldlM grows_addInterval (hperm.mem_iff.mpr hi) none
      fun _ _ _ _ => addInterval_stuck_of_le (hnormal.proper hi) hupper

/-- The pass succeeds with a node of the value of the select exactly when the set can be counted,
and its intervals are good wherever the select is rewritten. -/
theorem runOnSelect_preserves_iff {set : IntervalSet} {i : ℕ} {n : LogicNode} {hasDefault : Bool}
    {arms : List ℕ} (hvalid : Valid env nodes) (hn : nodes[i]? = some n)
    (hop : n.op = .core (.sel hasDefault)) (hoperands : n.operands = selector :: arms)
    (hdefault : ∀ d, selectDefault hasDefault arms = some d →
      nodes[d]?.map LogicNode.type = some n.type)
    (hset : set.isNormalized = true) (hv : HasBits env nodes selector v)
    (hcovers : set.Covers v) :
    Returns env nodes (runOnSelect hasDefault selector arms n.type set) (fun nodes' r =>
      ∀ j, r = some j → ∃ u, HasValue env nodes' j n.type u ∧ HasValue env nodes' i n.type u) ↔
    ∃ size, set.size = some size ∧
      ∀ k, size = some k → k < (selectCases hasDefault arms).length → Rewritable n.type set := by
  obtain ⟨result, hresult, harms⟩ := arms_of_select hvalid hn hop hoperands hdefault hv
  rcases hsize : set.size with - | - | k
  · -- the total of `Size` overflows
    have hstuck : Stuck env nodes (runOnSelect hasDefault selector arms n.type set) := by
      unfold runOnSelect
      rw [hsize]
      exact Stuck.bind fun a nodes' h => by cases h
    refine ⟨fun h => absurd hstuck h.not_stuck, ?_⟩
    rintro ⟨size, hsome, -⟩
    cases hsome
  · -- the set is too large to be counted, and the select stays
    have hrun : runOnSelect hasDefault selector arms n.type set = pure none := by
      unfold runOnSelect
      rw [hsize]
      rfl
    rw [hrun]
    exact ⟨fun _ => ⟨none, rfl, nofun⟩, fun _ => Returns.pure hvalid nofun⟩
  · have hsum := pointSum_of_size hset hsize
    unfold runOnSelect
    rw [hsize]
    show Returns env nodes (if k ≥ (selectCases hasDefault arms).length then pure none else _) _ ↔ _
    by_cases hk : k < (selectCases hasDefault arms).length
    · rw [if_neg (not_le.mpr hk)]
      rw [← hsum] at hk
      by_cases hgood : Rewritable n.type set
      · refine ⟨fun _ => ⟨_, rfl, fun _ _ _ => hgood⟩, fun _ => ?_⟩
        refine (sparsifySelect_returns harms hvalid hv hresult.conforms hset hcovers hk hgood).mono
          fun nodes' r _ hle hr j hj => ?_
        obtain ⟨j', rfl, hj'⟩ := hr
        cases hj
        exact ⟨result, hj', hresult.grow hle⟩
      · refine ⟨fun h => ?_, ?_⟩
        · exact absurd (sparsifySelect_stuck harms hv hset hcovers hk hgood) h.not_stuck
        · rintro ⟨size, hsome, hall⟩
          cases hsome
          exact absurd (hall k rfl (hsum ▸ hk)) hgood
    · rw [if_pos (not_lt.mp hk)]
      refine ⟨fun _ => ⟨_, rfl, fun k' hk' hlt => ?_⟩, fun _ => Returns.pure hvalid nofun⟩
      cases hk'
      exact absurd hlt hk

theorem literalOperands_length : ([] : List ℕ).length < 2 ^ 64 := by decide

theorem selectOperands_length : [0, 1, 2, 1, 2].length < 2 ^ 64 := by decide

/-- A select of three cases with a default, the selector being a parameter of two bits. -/
def threeCases (type : Ty) (a b : Value) : List LogicNode :=
  [⟨.core .param, [], .bits 2, literalOperands_length⟩,
    ⟨.core (.literal a), [], type, literalOperands_length⟩,
    ⟨.core (.literal b), [], type, literalOperands_length⟩,
    ⟨.core (.sel true), [0, 1, 2, 1, 2], type, selectOperands_length⟩]

/-- The selector is zero. -/
def selectorZero : Env := fun _ _ => .bits (Bits.ofNat 2 0)

theorem zero_lt_four : 0 < 2 ^ 2 := by decide

theorem two_lt_four : 2 < 2 ^ 2 := by decide

/-- The selector is known to be zero or two. -/
def zeroOrTwo : IntervalSet where
  bitCount := 2
  isNormalized := true
  intervals := [⟨0, 0, zero_lt_four, zero_lt_four⟩, ⟨2, 2, two_lt_four, two_lt_four⟩]
  normal _ := by
    constructor
    · simp [Interval.Proper]
    · simp

theorem valid_threeCases : Valid selectorZero
    (threeCases (.bits 3) (.bits (Bits.ofNat 3 5)) (.bits (Bits.ofNat 3 6))) where
  verify := by decide
  run := ⟨_, rfl⟩

theorem denotes_selectorZero (type : Ty) (a b : Value) :
    HasBits selectorZero (threeCases type a b) 0 (Bits.ofNat 2 0) where
  type := rfl
  carries := ⟨(threeCases type a b).take 1, _, List.take_prefix _ _, rfl, rfl⟩
  conforms := rfl

theorem covers_zeroOrTwo : zeroOrTwo.Covers (Bits.ofNat 2 0) := by decide

theorem runOnSelect_preserves_iff_zeroOrTwo : Returns selectorZero
      (threeCases (.bits 3) (.bits (Bits.ofNat 3 5)) (.bits (Bits.ofNat 3 6)))
      (runOnSelect true 0 [1, 2, 1, 2] (.bits 3) zeroOrTwo) (fun nodes' r =>
        ∀ j, r = some j → ∃ u, HasValue selectorZero nodes' j (.bits 3) u ∧
          HasValue selectorZero nodes' 3 (.bits 3) u) ↔
    ∃ size, zeroOrTwo.size = some size ∧
      ∀ k, size = some k → k < (selectCases true [1, 2, 1, 2]).length →
        Rewritable (.bits 3) zeroOrTwo :=
  runOnSelect_preserves_iff (i := 3)
    (n := ⟨.core (.sel true), [0, 1, 2, 1, 2], .bits 3, selectOperands_length⟩)
    valid_threeCases rfl rfl rfl (fun _ h => by cases h; rfl) rfl (denotes_selectorZero _ _ _)
    covers_zeroOrTwo

/-- Two selects over one value each, a comparison with the second one, and a select of both. -/
example : ((runOnSelect true 0 [1, 2, 1, 2] (.bits 3) zeroOrTwo)
    (threeCases (.bits 3) (.bits (Bits.ofNat 3 5)) (.bits (Bits.ofNat 3 6)))).map
      (fun p => (p.1, p.2.length)) = some (some 17, 18) := by decide

/-- Tuples of one bit. -/
def tuples : List LogicNode :=
  threeCases (.tuple [.bits 1]) (.tuple [.bits (Bits.ofNat 1 0)]) (.tuple [.bits (Bits.ofNat 1 1)])

theorem valid_tuples : Valid selectorZero tuples where
  verify := by decide
  run := ⟨_, rfl⟩

/-- The literal of one bit is what the select over the second interval yields. -/
theorem tuples_stuck : Valid selectorZero tuples ∧ zeroOrTwo.Covers (Bits.ofNat 2 0) ∧
    HasBits selectorZero tuples 0 (Bits.ofNat 2 0) ∧
    ((runOnSelect true 0 [1, 2, 1, 2] (.tuple [.bits 1]) zeroOrTwo) tuples).isSome = true ∧
    Stuck selectorZero tuples (runOnSelect true 0 [1, 2, 1, 2] (.tuple [.bits 1]) zeroOrTwo) := by
  refine ⟨valid_tuples, covers_zeroOrTwo, denotes_selectorZero _ _ _, by decide, ?_⟩
  intro r nodes' hrun hvalid
  obtain ⟨values, hvalues⟩ := hvalid.run
  have hnone : ((runOnSelect true 0 [1, 2, 1, 2] (.tuple [.bits 1]) zeroOrTwo) tuples).bind
      (fun p => LogicInterpreter.run selectorZero ⟨p.2⟩) = none := by decide
  rw [hrun, Option.bind_some, hvalues] at hnone
  cases hnone

end SparsifySelect

end Xls
