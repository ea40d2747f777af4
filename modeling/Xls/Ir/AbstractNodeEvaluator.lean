/-
# Abstract evaluation of nodes

`AbstractEvaluate` (`xls/ir/abstract_node_evaluator.h`) on the operations which the diagrams
evaluate: it calls the operation of the evaluator which the node asks for.  `none` is an error
status or a failed check; the operations which `ShouldEvaluate` keeps away are not modelled.

* `Abstracts.abstractEvaluate` : on elements which describe the operands of a node, the
  elements computed describe the value which the interpreter computes.
-/
import Xls.Ir.LogicSoundness
import Xls.Ir.StatefulSoundness

namespace Xls

/-- `BitCountOrDie`. -/
def Ty.bitCountOrDie : Ty → Option ℕ
  | .bits w => some w
  | _ => none

namespace StatefulEvaluator

open Evaluator (bool vectors bitsValues splitArms)

section Definition

variable {S α : Type} (E : StatefulEvaluator S α)

/-- An operation on one operand (`check_operand_count(1)`). -/
def unary (f : List α → StateT S Option (List α)) : List (List α) → StateT S Option (List α)
  | [v] => f v
  | _ => failure

/-- An operation on two operands (`check_operand_count(2)`). -/
def binary (f : List α → List α → StateT S Option (List α)) :
    List (List α) → StateT S Option (List α)
  | [v, w] => f v w
  | _ => failure

/-- An operation on a selector and cases. -/
def selecting (f : List α → List (List α) → StateT S Option (List α)) :
    List (List α) → StateT S Option (List α)
  | selector :: cases => f selector cases
  | [] => failure

/-- `Vector({element})`. -/
def single (x : StateT S Option α) : StateT S Option (List α) := do
  pure [← x]

/-- `Vector({Not(element)})`. -/
def singleNot (x : StateT S Option α) : StateT S Option (List α) := do
  pure [← E.not (← x)]

/-- An operation which only moves elements, with the width of the node. -/
def ofWidth (n : LogicNode) (f : ℕ → List α → Option (List α)) (v : List α) :
    StateT S Option (List α) :=
  StateT.lift (n.type.bitCountOrDie.bind fun w => f w v)

variable [DecidableEq α]

/-- `AbstractEvaluate`. -/
def abstractEvaluate (n : LogicNode) (selectorIsOneHot : Bool)
    (defaultHandler : StateT S Option (List α)) (operands : List (List α)) :
    StateT S Option (List α) :=
  match n.op with
  | .and => E.bitwiseAnd operands
  | .nand => do E.bitwiseNot (← E.bitwiseAnd operands)
  | .nor => do E.bitwiseNot (← E.bitwiseOr operands)
  | .not => unary E.bitwiseNot operands
  | .or => E.bitwiseOr operands
  | .xor => E.bitwiseXor operands
  | .bitSlice start width =>
    unary (fun v => StateT.lift (Evaluator.bitSlice v start width)) operands
  | .dynamicBitSlice _ => defaultHandler
  | .reverse => unary (fun v => pure v.reverse) operands
  | .oneHot .lsb => unary E.oneHotLsbToMsb operands
  | .oneHot .msb => unary E.oneHotMsbToLsb operands
  | .oneHotSel => selecting (fun s cases => E.oneHotSelect s cases (!selectorIsOneHot)) operands
  | .decode width => unary (fun v => E.decode v width) operands
  | .encode => unary E.encode operands
  | .core op =>
    match op with
    | .literal (.bits b) => if operands = [] then pure (E.bitsToVector b) else failure
    | .literal _ => defaultHandler
    | .concat => pure (Evaluator.concat operands)
    | .zeroExt _ => unary (ofWidth n fun w v => E.zeroExtend v w) operands
    | .signExt _ => unary (ofWidth n fun w v => Evaluator.signExtend v w) operands
    | .identity => unary pure operands
    | .sel hasDefault => selecting (fun s arms =>
      E.select s (splitArms hasDefault arms).1 (splitArms hasDefault arms).2) operands
    | .prioritySel =>
      selecting (fun s cases => E.prioritySelect s cases (!selectorIsOneHot)) operands
    | .eq => binary (fun v w => single (E.equals v w)) operands
    | .ne => binary (fun v w => E.singleNot (E.equals v w)) operands
    | .ugt => binary (fun v w => single (E.uLessThan w v)) operands
    | .uge => binary (fun v w => E.singleNot (E.uLessThan v w)) operands
    | .ult => binary (fun v w => single (E.uLessThan v w)) operands
    | .ule => binary (fun v w => E.singleNot (E.uLessThan w v)) operands
    | .andReduce => unary E.andReduce operands
    | .orReduce => unary E.orReduce operands
    | .xorReduce => unary E.xorReduce operands
    | _ => failure

/-- The operations for which a value is computed. -/
def Evaluated : LogicOp → Prop
  | .dynamicBitSlice _ => False
  | .core op =>
    match op with
    | .literal _ | .concat | .zeroExt _ | .signExt _ | .identity | .sel _ | .prioritySel
    | .eq | .ne | .ugt | .uge | .ult | .ule | .andReduce | .orReduce | .xorReduce => True
    | _ => False
  | _ => True

end Definition

/-! ## Soundness -/

namespace Abstracts

open Interpreter (boolResult)

variable {S α : Type} {E : StatefulEvaluator S α} {W : World S} {describes : S → α → Bool → Prop}
  {s : S} {vs : List (List α)} {bs : List Bits} {a b r : Bits}

variable {Q : S → List α → Prop} {c : Bool} {type : Ty}

theorem ensures_unary {f : List α → StateT S Option (List α)}
    (hvs : List.Forall₂ (Vector describes s) vs (vectors [b]))
    (hf : ∀ v, Vector describes s v (bool.bitsToVector b) → W.Ensures s (f v) Q) :
    W.Ensures s (unary f vs) Q := by
  rcases hvs with _ | ⟨hv, hrest⟩
  rcases hrest with _ | _
  exact hf _ hv

theorem ensures_binary {f : List α → List α → StateT S Option (List α)}
    (hvs : List.Forall₂ (Vector describes s) vs (vectors [a, b]))
    (hf : ∀ v w, Vector describes s v (bool.bitsToVector a) →
      Vector describes s w (bool.bitsToVector b) → W.Ensures s (f v w) Q) :
    W.Ensures s (binary f vs) Q := by
  rcases hvs with _ | ⟨hv, hrest⟩
  rcases hrest with _ | ⟨hw, hrest⟩
  rcases hrest with _ | _
  exact hf _ _ hv hw

theorem ensures_selecting {f : List α → List (List α) → StateT S Option (List α)}
    (hvs : List.Forall₂ (Vector describes s) vs (vectors (b :: bs)))
    (hf : ∀ v cases, Vector describes s v (bool.bitsToVector b) →
      List.Forall₂ (Vector describes s) cases (vectors bs) → W.Ensures s (f v cases) Q) :
    W.Ensures s (selecting f vs) Q := by
  rcases hvs with _ | ⟨hv, hrest⟩
  exact hf _ _ hv hrest

/-- The vector of a truth value. -/
theorem vector_boolResult (h : boolResult (.bits 1) c = some (.bits r)) :
    bool.bitsToVector r = [c] := by
  obtain ⟨r', hr, heq⟩ := Option.map_eq_some_iff.mp h
  cases heq
  obtain ⟨hw, hn⟩ := Bits.uBits_eq_some hr
  exact (Evaluator.eq_bool_bitsToVector (by simpa using hw.symm) (by simpa using hn.symm)).symm

theorem ensures_single {x : StateT S Option α} {y : Option Bool}
    (hr : boolResult (.bits 1) c = some (.bits r)) (hx : W.Ensures s x (World.Meets describes y))
    (hy : ∀ d, y = some d → d = c) :
    W.Ensures s (single x) fun t v => Vector describes t v (bool.bitsToVector r) := by
  refine (hx.of_meets hy).bind fun t e ht _ he => .pure ht ?_
  rw [vector_boolResult hr]
  exact .cons he .nil

theorem ensures_singleNot (h : E.Abstracts W describes) {x : StateT S Option α} {y : Option Bool}
    (hr : boolResult (.bits 1) (!c) = some (.bits r)) (hx : W.Ensures s x (World.Meets describes y))
    (hy : ∀ d, y = some d → d = c) :
    W.Ensures s (E.singleNot x) fun t v => Vector describes t v (bool.bitsToVector r) := by
  refine (hx.of_meets hy).bind fun t e ht _ he => ?_
  refine (h.not ht he).bind fun u e' hu _ he' => .pure hu ?_
  rw [vector_boolResult hr]
  exact .cons he' .nil

/-- The comparisons check the widths. -/
theorem bool_equals_inv (h : bool.equals (bool.bitsToVector a) (bool.bitsToVector b) = some c) :
    c = decide (a = b) := by
  have hw : a.bitCount = b.bitCount := by
    unfold Evaluator.equals at h
    split at h
    · rename_i hlen
      simpa using hlen
    · cases h
  rw [Evaluator.bool_equals_eq hw] at h
  exact (Option.some.inj h).symm

theorem bool_uLessThan_inv (h : bool.uLessThan (bool.bitsToVector a) (bool.bitsToVector b) = some c) :
    c = BitsOps.uLessThan a b := by
  have hw : a.bitCount = b.bitCount := by
    unfold Evaluator.uLessThan at h
    split at h
    · rename_i hlen
      simpa using hlen
    · cases h
  rw [Evaluator.bool_uLessThan_eq hw] at h
  exact (Option.some.inj h).symm

/-- A comparison of the interpreter on bits. -/
theorem compareOp_bitsValues {f : Bits → Bits → Bool}
    (h : Interpreter.compareOp f type (bitsValues bs) = some (.bits r)) :
    ∃ a b, bs = [a, b] ∧ boolResult type (f a b) = some (.bits r) := by
  unfold Interpreter.compareOp at h
  split at h
  · rename_i a b hab
    exact ⟨a, b, Evaluator.bits2_bitsValues hab, h⟩
  · cases h

theorem equalityOp_bitsValues {expected : Bool}
    (h : Interpreter.equalityOp expected type (bitsValues bs) = some (.bits r)) :
    ∃ a b, bs = [a, b] ∧ boolResult type (decide (a = b) == expected) = some (.bits r) := by
  rcases bs with _ | ⟨a, _ | ⟨b, _ | ⟨c, bs⟩⟩⟩
  · cases h
  · cases h
  · refine ⟨a, b, rfl, ?_⟩
    have heq : decide (Value.bits a = Value.bits b) = decide (a = b) := by
      rw [decide_eq_decide, Value.bits.injEq]
    rw [← heq]
    exact h
  · cases h

theorem uLessThanOrEqual_eq_not (a b : Bits) :
    BitsOps.uLessThanOrEqual a b = !BitsOps.uLessThan b a := by
  rw [BitsOps.uLessThanOrEqual, BitsOps.uLessThan, ← decide_not, decide_eq_decide]
  exact not_lt.symm

/-- The n-ary operations of the interpreter on bits. -/
theorem naryOp_bitsValues {f : List Bits → Option Bits}
    (h : LogicInterpreter.naryOp f (bitsValues bs) = some (.bits r)) : f bs = some r := by
  rw [LogicInterpreter.naryOp, Evaluator.bitsVector_bitsValues, Option.bind_some,
    Option.map_eq_some_iff] at h
  obtain ⟨r', hr', heq⟩ := h
  cases heq
  exact hr'

theorem bitSlice_bitsValues {start width : ℕ}
    (h : LogicInterpreter.bitSlice start width (bitsValues bs) = some (.bits r)) :
    ∃ b, bs = [b] ∧ start + width ≤ b.bitCount ∧ r = BitsOps.slice b start width := by
  rw [LogicInterpreter.bitSlice, Option.bind_eq_some_iff] at h
  obtain ⟨b, hb, h⟩ := h
  split at h
  · rename_i hle
    cases h
    exact ⟨b, Evaluator.bits1_bitsValues hb, hle, rfl⟩
  · cases h

section Node

variable [DecidableEq α]

/-- The types of the operands. -/
abbrev bitsTypes (bs : List Bits) : List Ty := bs.map fun b => .bits b.bitCount

/-- A select is as wide as its first case. -/
theorem firstCase_width {sel : Bits} {cs : List Bits}
    (h : LogicVerifier.oneHotSelTypes (.bits r.bitCount) (bitsTypes (sel :: cs)) = true) :
    (cs[0]?).map Bits.bitCount = some r.bitCount := by
  rw [LogicVerifier.oneHotSelTypes, Bool.and_eq_true] at h
  rcases cs with _ | ⟨c, cs⟩
  · cases h.2
  · simpa using h.2

/-- The types which the comparisons are given. -/
theorem type_of_compareTypes {type : Ty} {types : List Ty}
    (h : Verifier.compareTypes type types = true) : type = .bits 1 := by
  unfold Verifier.compareTypes at h
  split at h
  · rw [Bool.and_eq_true, decide_eq_true_eq, decide_eq_true_eq] at h
    exact h.2
  · cases h

theorem extendTypes_spec {w n : ℕ} {types : List Ty}
    (h : Verifier.extendTypes n (.bits w) types = true) : w = n := by
  unfold Verifier.extendTypes at h
  split at h
  · rw [Bool.and_eq_true, decide_eq_true_eq, decide_eq_true_eq] at h
    exact Ty.bits.inj h.2
  · cases h

/-- The widths of a select: all cases have that of the node, and the selector can number them. -/
theorem selTypes_spec {hasDefault : Bool} {sel : Bits} {arms : List Bits} {w : ℕ}
    (h : Verifier.selTypes hasDefault (.bits w) (bitsTypes (sel :: arms)) = true)
    (hne : (splitArms hasDefault arms).1 ≠ []) :
    (∀ c ∈ (splitArms hasDefault arms).1, c.bitCount = w) ∧
      (splitArms hasDefault arms).1.length ≤ 2 ^ sel.bitCount := by
  have hcases : (if hasDefault then (bitsTypes arms).dropLast else bitsTypes arms) =
      bitsTypes (splitArms hasDefault arms).1 := by
    rcases hasDefault with _ | _
    · rfl
    · exact List.map_dropLast.symm
  simp only [Verifier.selTypes, List.map_cons] at h
  rw [hcases] at h
  generalize (splitArms hasDefault arms).1 = cs at *
  have hnonempty : (bitsTypes cs).isEmpty = false := by
    rcases cs with _ | ⟨c, cs⟩
    · exact absurd rfl hne
    · rfl
  rw [hnonempty] at h
  simp only [Bool.and_eq_true, decide_eq_true_eq, List.all_eq_true, List.length_map] at h
  obtain ⟨⟨⟨-, hfit⟩, -⟩, htypes⟩ := h
  constructor
  · intro c hc
    exact Ty.bits.inj (htypes _ (List.mem_map.mpr ⟨c, hc, rfl⟩))
  · have hlt := Bits.minBitCountUnsigned_le_iff.mp hfit
    omega

theorem zeroExtend_le (b : Bits) (w : ℕ) : b.bitCount ≤ (BitsOps.zeroExtend b w).bitCount := by
  simp [BitsOps.zeroExtend, BitsOps.concat]

omit [DecidableEq α] in
theorem forall₂_splitArms {β γ : Type*} {R : β → γ → Prop} (hasDefault : Bool) {l : List β}
    {m : List γ} (h : List.Forall₂ R l m) :
    List.Forall₂ R (splitArms hasDefault l).1 (splitArms hasDefault m).1 ∧
      Option.Rel R (splitArms hasDefault l).2 (splitArms hasDefault m).2 := by
  rcases hasDefault with _ | _
  · exact ⟨h, .none⟩
  · exact ⟨Relational.forall₂_dropLast h, Relational.rel_getLast? h⟩

section

variable (hvs : List.Forall₂ (Vector describes s) vs (vectors bs))

include hvs

omit [DecidableEq α] in
/-- A comparison of two vectors, as one truth value. -/
theorem ensures_compare {f : Bits → Bits → Bool} {p : List α → List α → StateT S Option (List α)}
    {w : ℕ} {types : List Ty} (hverify : Verifier.compareTypes (.bits w) types = true)
    (heval : ∃ a b, bs = [a, b] ∧ boolResult (.bits w) (f a b) = some (.bits r))
    (hp : ∀ {a b v w}, Vector describes s v (bool.bitsToVector a) →
      Vector describes s w (bool.bitsToVector b) → boolResult (.bits 1) (f a b) = some (.bits r) →
      W.Ensures s (p v w) Q) : W.Ensures s (binary p vs) Q := by
  obtain ⟨a, b, rfl, hr⟩ := heval
  rw [type_of_compareTypes hverify] at hr
  exact ensures_binary hvs fun v w hv hw => hp hv hw hr

omit [DecidableEq α] in
theorem ensures_unOp {f : Bits → Bits} {p : List α → StateT S Option (List α)}
    (heval : Interpreter.unOp f (bitsValues bs) = some (.bits r))
    (hp : ∀ {b v}, Vector describes s v (bool.bitsToVector b) →
      W.Ensures s (p v) fun t v => Vector describes t v (bool.bitsToVector (f b))) :
    W.Ensures s (unary p vs) fun t v => Vector describes t v (bool.bitsToVector r) := by
  obtain ⟨b, rfl, rfl⟩ := Evaluator.unOp_bitsValues heval
  exact ensures_unary hvs fun v hv => hp hv

end

omit [DecidableEq α] in
theorem ensures_zeroExt (h : E.Abstracts W describes) (hs : W.Inv s)
    (hvs : List.Forall₂ (Vector describes s) vs (vectors bs)) {w : ℕ} {types : List Ty}
    (hverify : Verifier.extendTypes w (.bits r.bitCount) types = true)
    (heval : Interpreter.unOp (fun b => BitsOps.zeroExtend b w) (bitsValues bs) = some (.bits r)) :
    W.Ensures s (unary (fun v => StateT.lift (E.zeroExtend v r.bitCount)) vs) fun t v =>
      Vector describes t v (bool.bitsToVector r) := by
  obtain ⟨b, rfl, rfl⟩ := Evaluator.unOp_bitsValues heval
  refine ensures_unary hvs fun v hv => World.Ensures.lift hs fun u hu => ?_
  obtain ⟨z, hz, hvec⟩ := h.zeroExtend hs _ hv hu
  rw [Evaluator.bool_zeroExtend_eq (zeroExtend_le b w)] at hz
  cases hz
  rw [extendTypes_spec hverify] at hvec
  exact hvec

omit [DecidableEq α] in
theorem ensures_signExt (hs : W.Inv s)
    (hvs : List.Forall₂ (Vector describes s) vs (vectors bs)) {w : ℕ} {types : List Ty}
    (hverify : Verifier.extendTypes w (.bits r.bitCount) types = true)
    (heval : Interpreter.unOp (fun b => BitsOps.signExtend b w) (bitsValues bs) = some (.bits r)) :
    W.Ensures s (unary (fun v => StateT.lift (Evaluator.signExtend v r.bitCount)) vs) fun t v =>
      Vector describes t v (bool.bitsToVector r) := by
  obtain ⟨b, rfl, rfl⟩ := Evaluator.unOp_bitsValues heval
  refine ensures_unary hvs fun v hv => World.Ensures.lift hs fun u hu => ?_
  have hrel := Evaluator.Abstracts.signExtend (BitsOps.signExtend b w).bitCount hv
  rw [hu] at hrel
  generalize hz : Evaluator.signExtend (bool.bitsToVector b) _ = z at hrel
  cases hrel with
  | some hvec =>
    rw [Evaluator.bool_signExtend_eq hz, extendTypes_spec hverify] at hvec
    exact hvec

theorem ensures_sel (h : E.Abstracts W describes) (hs : W.Inv s)
    (hvs : List.Forall₂ (Vector describes s) vs (vectors bs)) (hlength : bs.length < 2 ^ 64)
    {hasDefault : Bool}
    (hverify : Verifier.selTypes hasDefault (.bits r.bitCount) (bitsTypes bs) = true)
    (heval : Interpreter.sel hasDefault (bitsValues bs) = some (.bits r)) :
    W.Ensures s (selecting (fun s arms => E.select s (splitArms hasDefault arms).1
        (splitArms hasDefault arms).2) vs) fun t v =>
      Vector describes t v (bool.bitsToVector r) := by
  rcases bs with _ | ⟨sel, arms⟩
  · cases heval
  have hsize : arms.length < 2 ^ 64 := (Nat.lt_succ_self _).trans hlength
  obtain ⟨hne, -⟩ := Evaluator.sel_bitsValues heval
  obtain ⟨hcases, hfit⟩ := selTypes_spec hverify hne
  have hchoose := Evaluator.chooses_sel hsize heval
  refine ensures_selecting hvs fun v vectors hv harms => ?_
  obtain ⟨hcs, hd⟩ := forall₂_splitArms hasDefault harms
  rw [Evaluator.splitArms_map] at hcs hd
  refine (h.select hs hv hcs hd ?_).of_meets fun x hx => ?_
  · rw [List.length_map, Option.isSome_map]
    exact hchoose
  · exact Evaluator.bool_sel_eq hsize hcases hfit rfl heval hx

/-- A selector which is not known to be one-hot may be zero. -/
theorem zero_or_oneHot {isOneHot : Bool} {v : List Bool} (h : isOneHot = true → true ∈ v) :
    (!isOneHot) = true ∨ true ∈ v := by
  rcases isOneHot with _ | _
  · exact .inl rfl
  · exact .inr (h rfl)

section Evaluate

variable (h : E.Abstracts W describes) (hs : W.Inv s)
  (hvs : List.Forall₂ (Vector describes s) vs (vectors bs)) {n : LogicNode}
  (hverify : LogicVerifier.verifyNode n (bitsTypes bs) = true) {env : Env} {id : ℕ}
  (heval : LogicInterpreter.evalNode env id n (bitsValues bs) = some (.bits r))
  (htype : n.type = .bits r.bitCount) (hop : Evaluated n.op) (isOneHot : Bool)
  (honeHot : isOneHot = true → ∀ b ∈ bs.head?, true ∈ bool.bitsToVector b)
  (handler : StateT S Option (List α))

include h hs hvs hverify heval htype hop honeHot

/-- The operations of `LogicOp` but those of `Op`. -/
theorem abstractEvaluate_logic (hcore : ∀ op, n.op ≠ .core op) :
    W.Ensures s (E.abstractEvaluate n isOneHot handler vs) fun t v =>
      Vector describes t v (bool.bitsToVector r) := by
  obtain ⟨op, operands, type, hlt⟩ := n
  subst htype
  unfold LogicVerifier.verifyNode at hverify
  cases op with
  | and =>
    refine (h.bitwiseAnd hs hvs).of_meets fun x hx => ?_
    rw [Evaluator.bitwiseAnd, Evaluator.bool_bitwise Evaluator.bitwise_and
      (naryOp_bitsValues heval)] at hx
    exact (Option.some.inj hx).symm
  | nand =>
    obtain ⟨r', hr', rfl⟩ := Option.map_eq_some_iff.mp (naryOp_bitsValues heval)
    refine (h.bitwiseAnd hs hvs).bind fun t v ht _ hv => ?_
    obtain ⟨x, hx, hv⟩ := hv
    rw [Evaluator.bitwiseAnd, Evaluator.bool_bitwise Evaluator.bitwise_and hr'] at hx
    cases hx
    rw [← Evaluator.bool_bitwiseNot_eq]
    exact h.bitwiseNot ht hv
  | nor =>
    obtain ⟨r', hr', rfl⟩ := Option.map_eq_some_iff.mp (naryOp_bitsValues heval)
    refine (h.bitwiseOr hs hvs).bind fun t v ht _ hv => ?_
    obtain ⟨x, hx, hv⟩ := hv
    rw [Evaluator.bitwiseOr, Evaluator.bool_bitwise Evaluator.bitwise_or hr'] at hx
    cases hx
    rw [← Evaluator.bool_bitwiseNot_eq]
    exact h.bitwiseNot ht hv
  | not =>
    refine ensures_unOp hvs heval fun hv => ?_
    rw [← Evaluator.bool_bitwiseNot_eq]
    exact h.bitwiseNot hs hv
  | or =>
    refine (h.bitwiseOr hs hvs).of_meets fun x hx => ?_
    rw [Evaluator.bitwiseOr, Evaluator.bool_bitwise Evaluator.bitwise_or
      (naryOp_bitsValues heval)] at hx
    exact (Option.some.inj hx).symm
  | xor =>
    refine (h.bitwiseXor hs hvs).of_meets fun x hx => ?_
    rw [Evaluator.bitwiseXor, Evaluator.bool_bitwise Evaluator.bitwise_xor
      (naryOp_bitsValues heval)] at hx
    exact (Option.some.inj hx).symm
  | bitSlice start width =>
    obtain ⟨b, rfl, hle, rfl⟩ := bitSlice_bitsValues heval
    refine ensures_unary hvs fun v hv => World.Ensures.lift hs fun w hw => ?_
    have hrel := Evaluator.Abstracts.bitSlice start width hv
    rw [hw, Evaluator.bool_bitSlice_eq hle] at hrel
    cases hrel with
    | some hrel => exact hrel
  | dynamicBitSlice width => exact hop.elim
  | reverse =>
    obtain ⟨b, rfl, rfl⟩ := Evaluator.unOp_bitsValues heval
    refine ensures_unary hvs fun v hv => .pure hs ?_
    rw [← Evaluator.bool_reverse_eq]
    exact List.rel_reverse hv
  | oneHot priority =>
    obtain ⟨b, one, rfl, hone, hr⟩ := Evaluator.oneHot_bitsValues heval
    have hw : r.bitCount = b.bitCount + 1 := by simpa using hverify
    rw [hw] at hone hr
    rcases priority with _ | _
    · refine ensures_unary hvs fun v hv => ?_
      rw [hr, ← Evaluator.bool_oneHotLsbToMsb_eq hone]
      exact h.oneHotLsbToMsb hs hv
    · refine ensures_unary hvs fun v hv => ?_
      rw [hr, ← Evaluator.bool_oneHotMsbToLsb_eq hone]
      exact h.oneHotMsbToLsb hs hv
  | oneHotSel =>
    -- the interpreter starts with the selector
    rcases bs with - | ⟨sel, cs⟩
    · cases heval
    have hzero := zero_or_oneHot (honeHot · sel rfl)
    refine ensures_selecting hvs fun v cases hv hcases => ?_
    refine (h.oneHotSelect hs hv hcases (!isOneHot) hzero).of_meets fun x hx => ?_
    exact Evaluator.bool_oneHotSel_eq (!isOneHot) hzero (firstCase_width hverify) heval hx
  | decode width =>
    have hw : ∀ b, bs = [b] → r.bitCount = width := by
      rintro b rfl
      simp [bitsTypes] at hverify
      exact hverify.1
    have hdecode := fun out : List Bool => @Evaluator.bool_decode_eq _ _ _ out heval
    obtain ⟨b, rfl, -⟩ := hdecode []
    refine ensures_unary hvs fun v hv => ?_
    refine (h.decode hs hv width).of_meets fun x hx => ?_
    obtain ⟨c, hc, hdecode⟩ := hdecode x
    cases hc
    rw [← hw b rfl] at hx
    exact hdecode hx
  | encode =>
    obtain ⟨b, rfl, hencode⟩ := Evaluator.bool_encode_eq heval
    refine ensures_unary hvs fun v hv => ?_
    have hw : r.bitCount = Bits.minBitCountUnsigned (Evaluator.sizeMinusOne b.bitCount) := by
      simpa using hverify
    rw [← hencode hw]
    exact h.encode hs hv
  | core op => exact absurd rfl (hcore op)

/-- The operations of `Op`. -/
theorem abstractEvaluate_core {op : Op} (hn : n.op = .core op) (hlength : bs.length < 2 ^ 64) :
    W.Ensures s (E.abstractEvaluate n isOneHot handler vs) fun t v =>
      Vector describes t v (bool.bitsToVector r) := by
  obtain ⟨lop, operands, type, hlt⟩ := n
  subst hn htype
  unfold LogicVerifier.verifyNode Verifier.verifyNode at hverify
  cases op with
  | literal value =>
    cases heval
    have hnil : bs = [] := by
      have hempty := (Bool.and_eq_true_iff.mp hverify).1
      simpa using hempty
    subst hnil
    rcases hvs with _ | _
    exact .pure hs (h.bitsToVector hs r)
  | concat =>
    obtain ⟨cs, hcs, hr⟩ := Option.map_eq_some_iff.mp heval
    rw [Evaluator.bitsVector_bitsValues] at hcs
    cases hcs
    cases hr
    refine .pure hs ?_
    rw [← Evaluator.bool_concat_eq]
    exact Evaluator.Abstracts.concat hvs
  | zeroExt w => exact ensures_zeroExt h hs hvs hverify heval
  | signExt w => exact ensures_signExt hs hvs hverify heval
  | identity =>
    rcases bs with _ | ⟨b, _ | ⟨c, bs⟩⟩
    · cases heval
    · cases heval
      exact ensures_unary hvs fun v hv => .pure hs hv
    · rcases hvs with _ | ⟨_, _ | ⟨_, _⟩⟩
      exact .failure
  | sel hasDefault => exact ensures_sel h hs hvs hlength hverify heval
  | prioritySel =>
    rcases bs with - | ⟨sel, cs⟩
    · cases heval
    have hzero := zero_or_oneHot (honeHot · sel rfl)
    refine ensures_selecting hvs fun v cases hv hcases => ?_
    refine (h.prioritySelect hs hv hcases (!isOneHot) hzero).of_meets fun x hx => ?_
    exact Evaluator.bool_prioritySel_eq (!isOneHot) hzero (firstCase_width hverify) rfl heval hx
  | eq =>
    refine ensures_compare hvs hverify (equalityOp_bitsValues heval) fun hv hw hr =>
      ensures_single hr (h.equals hs hv hw) fun d hd => ?_
    rw [bool_equals_inv hd, beq_true]
  | ne =>
    refine ensures_compare hvs hverify (equalityOp_bitsValues heval) fun hv hw hr => ?_
    rw [beq_false] at hr
    exact ensures_singleNot h hr (h.equals hs hv hw) fun d => bool_equals_inv
  | ugt =>
    exact ensures_compare hvs hverify (compareOp_bitsValues heval) fun hv hw hr =>
      ensures_single hr (h.uLessThan hs hw hv) fun d => bool_uLessThan_inv
  | uge =>
    refine ensures_compare hvs hverify (compareOp_bitsValues heval) fun hv hw hr => ?_
    rw [uLessThanOrEqual_eq_not] at hr
    exact ensures_singleNot h hr (h.uLessThan hs hv hw) fun d => bool_uLessThan_inv
  | ult =>
    exact ensures_compare hvs hverify (compareOp_bitsValues heval) fun hv hw hr =>
      ensures_single hr (h.uLessThan hs hv hw) fun d => bool_uLessThan_inv
  | ule =>
    refine ensures_compare hvs hverify (compareOp_bitsValues heval) fun hv hw hr => ?_
    rw [uLessThanOrEqual_eq_not] at hr
    exact ensures_singleNot h hr (h.uLessThan hs hw hv) fun d => bool_uLessThan_inv
  | andReduce =>
    refine ensures_unOp hvs heval fun hv => ?_
    rw [← Evaluator.bool_andReduce_eq]
    exact h.andReduce hs hv
  | orReduce =>
    refine ensures_unOp hvs heval fun hv => ?_
    rw [← Evaluator.bool_orReduce_eq]
    exact h.orReduce hs hv
  | xorReduce =>
    refine ensures_unOp hvs heval fun hv => ?_
    rw [← Evaluator.bool_xorReduce_eq]
    exact h.xorReduce hs hv
  | param | add | sub | neg | umul | udiv | gate | sgt | sge | slt | sle | array | arrayIndex
  | arrayConcat | tuple | tupleIndex | other => exact hop.elim

end Evaluate

end Node

end Abstracts

end StatefulEvaluator
end Xls
