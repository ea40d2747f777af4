/-
# Selects between the data of a receive and zero

`ReceiveDefaultValueSimplificationPass` (`xls/passes/receive_default_value_simplification_pass.cc`)
replaces a select between zero and the data of a receive by the data when the selector is the
predicate of the receive or the valid bit of a receive, which need not be the same one.

* `Value.eq_zeroOfType` : there is one value of a type without a set bit;
* `select_eq_data_iff` : one select which is replaced;
* `replacements_exact` : all of them, along the pass.
-/
import Xls.Ir.ProcGraph

namespace Xls

namespace Value

/-! ## The value without a set bit -/

mutual

/-- `IsAllZeros`; a token is no valid kind. -/
def isAllZeros : Value → Option Bool
  | .bits b => some b.isZero
  | .tuple vs => areAllZeros vs
  | .array vs => areAllZeros vs
  | .token => none

/-- The loop of `IsAllZeros`. -/
def areAllZeros : List Value → Option Bool
  | [] => some true
  | v :: vs =>
    match v.isAllZeros with
    | some true => areAllZeros vs
    | result => result

end

/-- No leaf of the value has a set bit. -/
def ZeroLeaves (v : Value) : Prop := ∀ b ∈ v.leaves, b.toNat = 0

mutual

theorem zero_of_isAllZeros : ∀ v : Value, v.isAllZeros = some true → v.ZeroLeaves
  | .bits b, h => by
    intro c hc
    rw [List.mem_singleton.mp hc]
    exact beq_iff_eq.mp (Option.some.inj h)
  | .token, h => by cases h
  | .tuple vs, h => zero_of_areAllZeros vs h
  | .array vs, h => zero_of_areAllZeros vs h

theorem zero_of_areAllZeros : ∀ vs : List Value, areAllZeros vs = some true →
    ∀ b ∈ leavesList vs, b.toNat = 0
  | [], _ => fun b hb => absurd hb List.not_mem_nil
  | v :: vs, h => by
    rw [areAllZeros] at h
    rcases hv : v.isAllZeros with - | - | -
    · rw [hv] at h
      cases h
    · rw [hv] at h
      cases h
    · rw [hv] at h
      intro b hb
      rcases List.mem_append.mp hb with hb | hb
      · exact zero_of_isAllZeros v hv b hb
      · exact zero_of_areAllZeros vs h b hb

end

mutual

/-- The only value of a type without a set bit is its zero. -/
theorem eq_zeroOfType : ∀ (v : Value) (t : Ty), v.conformsToType t = true → v.ZeroLeaves →
    v = zeroOfType t
  | .bits b, .bits n, h, hz => by
    have hb : b.bitCount = n := by simpa [conformsToType] using h
    subst hb
    have hzero : b = Bits.zero b.bitCount := by
      have hb0 := hz b (List.mem_singleton.mpr rfl)
      cases b
      subst hb0
      rfl
    exact congrArg Value.bits hzero
  | .token, .token, _, _ => rfl
  | .tuple vs, .tuple ts, h, hz => congrArg Value.tuple (eq_zeroOfTypes vs ts h hz)
  | .array vs, .array n t, h, hz => by
    rw [conformsToType, Bool.and_eq_true, beq_iff_eq] at h
    rw [zeroOfType, ← h.1]
    exact congrArg Value.array (eq_replicate_zeroOfType vs t h.2 hz)
  | .bits _, .token, h, _ | .bits _, .tuple _, h, _ | .bits _, .array _ _, h, _ => by cases h
  | .token, .bits _, h, _ | .token, .tuple _, h, _ | .token, .array _ _, h, _ => by cases h
  | .tuple _, .bits _, h, _ | .tuple _, .token, h, _ | .tuple _, .array _ _, h, _ => by cases h
  | .array _, .bits _, h, _ | .array _, .token, h, _ | .array _, .tuple _, h, _ => by cases h

theorem eq_zeroOfTypes : ∀ (vs : List Value) (ts : List Ty), conformsToTypes vs ts = true →
    (∀ b ∈ leavesList vs, b.toNat = 0) → vs = zeroOfTypes ts
  | [], [], _, _ => rfl
  | v :: vs, t :: ts, h, hz => by
    rw [conformsToTypes, Bool.and_eq_true] at h
    rw [zeroOfTypes, ← eq_zeroOfType v t h.1 fun b hb => hz b (List.mem_append_left _ hb),
      ← eq_zeroOfTypes vs ts h.2 fun b hb => hz b (List.mem_append_right _ hb)]
  | [], _ :: _, h, _ | _ :: _, [], h, _ => by cases h

theorem eq_replicate_zeroOfType : ∀ (vs : List Value) (t : Ty), conformToType vs t = true →
    (∀ b ∈ leavesList vs, b.toNat = 0) → vs = List.replicate vs.length (zeroOfType t)
  | [], _, _, _ => rfl
  | v :: vs, t, h, hz => by
    rw [conformToType, Bool.and_eq_true] at h
    have hv := eq_zeroOfType v t h.1 fun b hb => hz b (List.mem_append_left _ hb)
    have hvs := eq_replicate_zeroOfType vs t h.2 fun b hb => hz b (List.mem_append_right _ hb)
    rw [List.length_cons, List.replicate_succ, ← hvs, ← hv]

end

theorem zeroLeaves_zeroOfType (t : Ty) : (zeroOfType t).ZeroLeaves := by
  intro b hb
  rw [leaves_zeroOfType] at hb
  obtain ⟨l, -, rfl⟩ := List.mem_map.mp hb
  rfl

theorem getElem?_zeroOfTypes (ts : List Ty) (i : ℕ) :
    (zeroOfTypes ts)[i]? = ts[i]?.map zeroOfType := by
  induction ts generalizing i with
  | nil => rfl
  | cons t ts ih =>
    cases i with
    | zero => rfl
    | succ i => exact ih i

end Value

namespace ReceiveDefaultValueSimplification

open Ir

/-! ## The source -/

/-- `ReceiveData`. -/
structure ReceiveData where
  receive : ℕ
  data : ℕ
  deriving DecidableEq

/-- A receive with its predicate and whether it is blocking. -/
def asReceive (g : Graph) (node : ℕ) : Option (Option ℕ × Bool) :=
  match g.vertex node with
  | some ⟨⟨.receive _ isPredicated isBlocking, _⟩, operands⟩ =>
    some (if isPredicated then operands[1]? else none, isBlocking)
  | _ => none

/-- The operand of a `TupleIndex`. -/
def tupleIndexOperand (g : Graph) (index node : ℕ) : Option ℕ :=
  match g.vertex node with
  | some ⟨⟨.pure (.tupleIndex i), _⟩, [operand]⟩ => if i = index then some operand else none
  | _ => none

/-- `MatchReceiveDataValue`. -/
def matchReceiveDataValue (g : Graph) (node : ℕ) : Option ReceiveData :=
  match tupleIndexOperand g 1 node with
  | some receive => if (asReceive g receive).isSome then some ⟨receive, node⟩ else none
  | none => none

/-- `IsValidBitOfNonblockingReceive`. -/
def isValidBitOfNonblockingReceive (g : Graph) (node : ℕ) : Bool :=
  match tupleIndexOperand g 2 node with
  | some receive => (asReceive g receive).any fun r => !r.2
  | none => false

/-- The selector and the two cases of a select without default, `IsBinarySelect`. -/
def asBinarySelect (g : Graph) (node : ℕ) : Option (ℕ × ℕ × ℕ) :=
  match g.vertex node with
  | some ⟨⟨.pure (.sel false), _⟩, [selector, case0, case1]⟩ => some (selector, case0, case1)
  | _ => none

/-- The value of a literal. -/
def asLiteral (g : Graph) (node : ℕ) : Option Value :=
  match g.vertex node with
  | some ⟨⟨.pure (.literal value), _⟩, _⟩ => some value
  | _ => none

/-- `MatchUselessSelectAfterReceive`; a select has no tokens, so that the check of `IsAllZeros`
does not fail. -/
def matchUselessSelectAfterReceive (g : Graph) (select : ℕ) : Option ReceiveData := do
  let (selector, case0, case1) ← asBinarySelect g select
  let receiveData ← matchReceiveDataValue g case1
  let literal ← asLiteral g case0
  if literal.isAllZeros ≠ some true then none
  else do
    let (predicate, isBlocking) ← asReceive g receiveData.receive
    if predicate = some selector then some receiveData
    -- the valid bit may be of any receive
    else if !isBlocking && isValidBitOfNonblockingReceive g selector then some receiveData
    else none

/-- A select which is replaced, in the graph at that time. -/
structure Replacement where
  graph : Graph
  select : ℕ
  receiveData : ReceiveData

/-- `RunOnProcInternal` along the nodes in topological order: the proc at the end and the selects
which have been replaced.  `none` is a failed check. -/
def runOnProcInternal : List ℕ → Ir.Proc → Option (Ir.Proc × List Replacement)
  | [], p => some (p, [])
  | node :: rest, p =>
    match matchUselessSelectAfterReceive p.graph node with
    | none => runOnProcInternal rest p
    | some receiveData => do
      let next ← p.replaceUsesWith node receiveData.data
      let (final, replacements) ← runOnProcInternal rest next
      some (final, ⟨p.graph, node, receiveData⟩ :: replacements)

/-! ## The outcome of a receive -/

variable {e : Environment} {g : Graph} {val : ℕ → Value}

/-- The data which a receive delivers: it is active, and there is some. -/
def delivered (e : Environment) (g : Graph) (val : ℕ → Value) (node : ℕ) : Option Value :=
  match g.vertex node with
  | some ⟨⟨.receive _ isPredicated _, _⟩, operands⟩ =>
    if predicate isPredicated (operands[1]?.map val) = some true then e.received node else none
  | _ => none

theorem evalNode_of_isValuation (hval : TermGraph.IsValuation (sem e) g val) {i : ℕ}
    {n : Vertex NodeData} (hn : g.vertex i = some n) :
    evalNode e i n.label (n.operands.map val) = some (val i) ∧
      (val i).conformsToType n.label.type = true :=
  Option.filter_eq_some_iff.mp (hval i n hn)

variable {node : ℕ} {receiveData : ReceiveData}

theorem vertex_of_tupleIndexOperand {index operand : ℕ}
    (h : tupleIndexOperand g index node = some operand) :
    ∃ t, g.vertex node = some ⟨⟨.pure (.tupleIndex index), t⟩, [operand]⟩ := by
  unfold tupleIndexOperand at h
  split at h
  · rename_i i t o hvertex
    split at h
    · rename_i hi
      rw [hvertex, hi, Option.some.inj h]
      exact ⟨t, rfl⟩
    · cases h
  · cases h

theorem vertex_of_asReceive {p : Option ℕ} {isBlocking : Bool}
    (h : asReceive g node = some (p, isBlocking)) : ∃ channel isPredicated t operands,
      g.vertex node = some ⟨⟨.receive channel isPredicated isBlocking, t⟩, operands⟩ ∧
        p = if isPredicated then operands[1]? else none := by
  unfold asReceive at h
  split at h
  · rename_i channel isPredicated blocking t operands hvertex
    obtain ⟨rfl, rfl⟩ := Prod.mk.inj (Option.some.inj h)
    exact ⟨channel, isPredicated, t, operands, hvertex, rfl⟩
  · cases h

theorem vertex_of_asBinarySelect {selector case0 case1 : ℕ}
    (h : asBinarySelect g node = some (selector, case0, case1)) :
    ∃ t, g.vertex node = some ⟨⟨.pure (.sel false), t⟩, [selector, case0, case1]⟩ := by
  unfold asBinarySelect at h
  split at h
  · rename_i t _ _ _ hvertex
    obtain ⟨rfl, hcases⟩ := Prod.mk.inj (Option.some.inj h)
    obtain ⟨rfl, rfl⟩ := Prod.mk.inj hcases
    exact ⟨t, hvertex⟩
  · cases h

section

variable (hval : TermGraph.IsValuation (sem e) g val)

include hval

theorem val_of_asLiteral {v : Value} (h : asLiteral g node = some v) : val node = v := by
  unfold asLiteral at h
  split at h
  · rename_i hvertex
    rw [Option.some.inj h] at hvertex
    exact (Option.some.inj (evalNode_of_isValuation hval hvertex).1).symm
  · cases h

/-- A receive which delivers something has it behind the token; else it is a zero. -/
theorem receive_outcome {p : Option ℕ}
    {isBlocking : Bool} (h : asReceive g node = some (p, isBlocking)) :
    (∃ v rest, delivered e g val node = some v ∧ val node = .tuple (.token :: v :: rest) ∧
      (isBlocking = false → rest = [.bits ⟨1, 1, Nat.one_lt_two⟩])) ∨
    delivered e g val node = none ∧ ∃ t, val node = Value.zeroOfType t := by
  obtain ⟨channel, isPredicated, t, operands, hvertex, -⟩ := vertex_of_asReceive h
  have heval : evalReceive isPredicated isBlocking t (e.received node) (operands.map val) =
      some (val node) := (evalNode_of_isValuation hval hvertex).1
  unfold evalReceive at heval
  rw [List.getElem?_map] at heval
  rw [delivered, hvertex]
  simp only
  rcases hp : predicate isPredicated (operands[1]?.map val) with - | - | -
  · rw [hp] at heval
    cases heval
  · rw [hp] at heval
    exact Or.inr ⟨rfl, t, (Option.some.inj heval).symm⟩
  · rw [hp] at heval
    rcases hdata : e.received node with - | v
    · rw [hdata] at heval
      cases isBlocking with
      | false => exact Or.inr ⟨rfl, t, (Option.some.inj heval).symm⟩
      | true => cases heval
    · rw [hdata] at heval
      have hvalue := (Option.some.inj heval).symm
      cases isBlocking with
      | false => exact Or.inl ⟨v, _, rfl, hvalue, fun _ => rfl⟩
      | true => exact Or.inl ⟨v, _, rfl, hvalue, fun h => by cases h⟩

/-- An element of a zero tuple is a zero. -/
theorem zeroLeaves_tupleIndex {index operand : ℕ}
    (h : tupleIndexOperand g index node = some operand) {t : Ty}
    (hzero : val operand = Value.zeroOfType t) : (val node).ZeroLeaves := by
  obtain ⟨t', hvertex⟩ := vertex_of_tupleIndexOperand h
  have heval : Interpreter.tupleIndex index [val operand] = some (val node) :=
    (evalNode_of_isValuation hval hvertex).1
  rw [hzero] at heval
  cases t with
  | bits n => cases heval
  | token => cases heval
  | array n t => cases heval
  | tuple ts =>
    rw [Value.zeroOfType, Interpreter.tupleIndex, Value.getElem?_zeroOfTypes,
      Option.map_eq_some_iff] at heval
    obtain ⟨u, -, hu⟩ := heval
    rw [← hu]
    exact Value.zeroLeaves_zeroOfType u

theorem getElem?_of_tupleIndex {index operand : ℕ}
    (h : tupleIndexOperand g index node = some operand) {vs : List Value}
    (htuple : val operand = .tuple vs) : vs[index]? = some (val node) := by
  obtain ⟨t, hvertex⟩ := vertex_of_tupleIndexOperand h
  have heval : Interpreter.tupleIndex index [val operand] = some (val node) :=
    (evalNode_of_isValuation hval hvertex).1
  rwa [htuple] at heval

/-- The data of a receive is what it delivers, or zero. -/
theorem data_outcome (h : matchReceiveDataValue g node = some receiveData) :
    receiveData.data = node ∧ (∀ v, delivered e g val receiveData.receive = some v → val node = v) ∧
      (delivered e g val receiveData.receive = none → (val node).ZeroLeaves) := by
  unfold matchReceiveDataValue at h
  split at h
  · rename_i receive hreceive
    split at h
    · rename_i hsome
      obtain rfl := Option.some.inj h
      obtain ⟨⟨p, isBlocking⟩, hr⟩ := Option.isSome_iff_exists.mp hsome
      refine ⟨rfl, fun v hv => ?_, fun hnone => ?_⟩
      · rcases receive_outcome hval hr with ⟨u, rest, hu, htuple, -⟩ | ⟨hnone, -⟩
        · have hdata := getElem?_of_tupleIndex hval hreceive htuple
          rw [← Option.some.inj hdata]
          exact Option.some.inj (hu.symm.trans hv)
        · cases hnone.symm.trans hv
      · rcases receive_outcome hval hr with ⟨u, rest, hu, -, -⟩ | ⟨-, t, hzero⟩
        · cases hu.symm.trans hnone
        · exact zeroLeaves_tupleIndex hval hreceive hzero
    · cases h
  · cases h

/-- The valid bit is zero exactly when the receive delivers nothing. -/
theorem valid_outcome
    (h : isValidBitOfNonblockingReceive g node = true) {b : Bits} (hb : val node = .bits b) :
    ∃ receive, tupleIndexOperand g 2 node = some receive ∧
      (b.toNat = 0 ↔ delivered e g val receive = none) := by
  unfold isValidBitOfNonblockingReceive at h
  split at h
  · rename_i receive hreceive
    refine ⟨receive, hreceive, ?_⟩
    rcases hr : asReceive g receive with - | ⟨p, isBlocking⟩
    · rw [hr] at h
      cases h
    · rw [hr] at h
      have hfalse : isBlocking = false := by simpa using h
      rcases receive_outcome hval hr with ⟨u, rest, hu, htuple, hrest⟩ | ⟨hnone, t, hzero⟩
      · obtain rfl := hrest hfalse
        have hbit := getElem?_of_tupleIndex hval hreceive htuple
        rw [hb] at hbit
        obtain rfl := Value.bits.inj (Option.some.inj hbit)
        refine iff_of_false Nat.one_ne_zero ?_
        rw [hu]
        exact Option.some_ne_none u
      · have hzeroes := zeroLeaves_tupleIndex hval hreceive hzero
        rw [hb] at hzeroes
        exact iff_of_true (hzeroes b (List.mem_singleton.mpr rfl)) hnone
  · cases h

omit hval in
/-- A receive with a false predicate delivers nothing. -/
theorem predicate_outcome {selector : ℕ} {isBlocking : Bool}
    (h : asReceive g node = some (some selector, isBlocking)) {b : Bits}
    (hb : val selector = .bits b) (hzero : b.toNat = 0) : delivered e g val node = none := by
  obtain ⟨channel, isPredicated, t, operands, hvertex, hp⟩ := vertex_of_asReceive h
  cases isPredicated with
  | false => cases hp
  | true =>
    have hoperand : operands[1]? = some selector := hp.symm
    have hone : b.isOne = false := by
      rw [Bits.isOne, hzero]
      rfl
    rw [delivered, hvertex]
    simp only
    rw [hoperand, Option.map_some, hb, if_neg]
    rw [predicate, Option.bind_some, Value.asBits, Option.map_some, hone]
    exact fun h => by cases h

/-- A select of two cases is one of them. -/
theorem select_outcome {selector case0 case1 : ℕ}
    (h : asBinarySelect g node = some (selector, case0, case1)) :
    ∃ b, val selector = .bits b ∧ (b.toNat = 0 ∧ val node = val case0 ∨
      b.toNat ≠ 0 ∧ val node = val case1) := by
  obtain ⟨t, hvertex⟩ := vertex_of_asBinarySelect h
  have heval : Interpreter.sel false [val selector, val case0, val case1] = some (val node) :=
    (evalNode_of_isValuation hval hvertex).1
  rcases hs : val selector with b | - | vs | vs
  · refine ⟨b, rfl, ?_⟩
    rw [hs] at heval
    unfold Interpreter.sel at heval
    simp only [Interpreter.selectArms, Bool.false_eq_true, if_false] at heval
    split at heval
    · cases heval
    · split at heval
      · cases heval
      · rcases hn : b.toNat with - | - | n
        · rw [hn] at heval
          exact Or.inl ⟨rfl, (Option.some.inj heval).symm⟩
        · rw [hn] at heval
          exact Or.inr ⟨Nat.one_ne_zero, (Option.some.inj heval).symm⟩
        · rw [hn] at heval
          cases heval
  · rw [hs] at heval
    cases heval
  · rw [hs] at heval
    cases heval
  · rw [hs] at heval
    cases heval

end

/-! ## The replacements -/

/-- The select goes by the valid bit of another receive, which delivers nothing, while its own
receive delivers data with a set bit. -/
def Misjudged (e : Environment) (val : ℕ → Value) (r : Replacement) : Prop :=
  ∃ selector cases isBlocking other v,
    asBinarySelect r.graph r.select = some (selector, cases) ∧
    (∃ p, asReceive r.graph r.receiveData.receive = some (p, isBlocking) ∧ p ≠ some selector) ∧
    tupleIndexOperand r.graph 2 selector = some other ∧
    other ≠ r.receiveData.receive ∧
    delivered e r.graph val other = none ∧
    delivered e r.graph val r.receiveData.receive = some v ∧ v.isAllZeros ≠ some true

theorem typeOf_conforms (hval : TermGraph.IsValuation (sem e) g val) {i : ℕ} {t : Ty}
    (h : g.typeOf i = some t) : (val i).conformsToType t = true := by
  obtain ⟨n, hn, rfl⟩ := Option.map_eq_some_iff.mp h
  exact (evalNode_of_isValuation hval hn).2

/-- One select which is replaced. -/
theorem select_eq_data_iff (hval : TermGraph.IsValuation (sem e) g val) {select : ℕ}
    (h : matchUselessSelectAfterReceive g select = some receiveData)
    (htype : g.typeOf select = g.typeOf receiveData.data) :
    val select = val receiveData.data ↔ ¬ Misjudged e val ⟨g, select, receiveData⟩ := by
  simp only [matchUselessSelectAfterReceive, Option.bind_eq_bind, Option.bind_eq_some_iff] at h
  obtain ⟨⟨selector, case0, case1⟩, hselect, rd, hdata, literal, hliteral, h⟩ := h
  split at h
  · cases h
  · rename_i hzeros
    rw [not_not] at hzeros
    obtain ⟨⟨p, isBlocking⟩, hreceive, h⟩ := Option.bind_eq_some_iff.mp h
    obtain ⟨b, hb, hcase⟩ := select_outcome hval hselect
    -- the type of the select
    obtain ⟨t, hvertex⟩ := vertex_of_asBinarySelect hselect
    have ht : g.typeOf select = some t := by
      rw [Graph.typeOf, hvertex]
      rfl
    have hmatched : rd = receiveData := by
      split at h
      · exact Option.some.inj h
      · split at h
        · exact Option.some.inj h
        · cases h
    subst hmatched
    obtain ⟨hrd, hsome, hnone⟩ := data_outcome hval hdata
    rw [hrd] at htype ⊢
    have hzero : (val case0).ZeroLeaves := by
      rw [val_of_asLiteral hval hliteral]
      exact Value.zero_of_isAllZeros literal hzeros
    -- the first case and the data agree when neither has a set bit
    have hagree : val select = val case0 → (val case1).ZeroLeaves → val select = val case1 := by
      intro hval0 hdata0
      rw [Value.eq_zeroOfType _ _ (typeOf_conforms hval (htype ▸ ht)) hdata0]
      exact Value.eq_zeroOfType _ _ (typeOf_conforms hval ht) (by rwa [hval0])
    rcases hcase with ⟨hb0, hval0⟩ | ⟨hb1, hval1⟩
    · by_cases hp : p = some selector
      · -- the receive is not active
        subst hp
        have hinactive : delivered e g val rd.receive = none := predicate_outcome hreceive hb hb0
        refine iff_of_true (hagree hval0 (hnone hinactive)) ?_
        rintro ⟨s, cases, blocking, other, v, -, -, -, -, -, hv, -⟩
        cases hv.symm.trans hinactive
      · rw [if_neg hp] at h
        split at h
        · rename_i hvalid
          obtain ⟨other, hother, hinvalid⟩ :=
            valid_outcome hval (Bool.and_eq_true_iff.mp hvalid).2 hb
          have hotherNone := hinvalid.mp hb0
          rcases hdelivered : delivered e g val rd.receive with - | v
          · refine iff_of_true (hagree hval0 (hnone hdelivered)) ?_
            rintro ⟨s, cases, blocking, other, v, -, -, -, -, -, hv, -⟩
            cases hv.symm.trans hdelivered
          · have hne : other ≠ rd.receive := by
              rintro rfl
              cases hdelivered.symm.trans hotherNone
            have hv := hsome v hdelivered
            constructor
            · rintro hequal ⟨s, cases, blocking, o, u, -, -, -, -, -, hu, hset⟩
              obtain rfl := Option.some.inj (hdelivered.symm.trans hu)
              apply hset
              rw [← hv, ← hequal, hval0, val_of_asLiteral hval hliteral, hzeros]
            · intro hjudged
              apply hagree hval0
              rw [hv]
              apply Value.zero_of_isAllZeros v
              by_contra hset
              exact hjudged ⟨selector, _, isBlocking, other, v, hselect, ⟨p, hreceive, hp⟩, hother,
                hne, hotherNone, hdelivered, hset⟩
        · cases h
    · -- the selector is not zero
      refine iff_of_true hval1 ?_
      rintro ⟨s, cases, blocking, other, v, hs, ⟨q, hq, hqs⟩, hother, -, hotherNone, -, -⟩
      obtain ⟨rfl, -⟩ := Prod.mk.inj (Option.some.inj (hselect.symm.trans hs))
      obtain ⟨rfl, rfl⟩ := Prod.mk.inj (Option.some.inj (hreceive.symm.trans hq))
      rw [if_neg hqs] at h
      split at h
      · rename_i hvalid
        obtain ⟨o, ho, hinvalid⟩ := valid_outcome hval (Bool.and_eq_true_iff.mp hvalid).2 hb
        obtain rfl := Option.some.inj (ho.symm.trans hother)
        exact hb1 (hinvalid.mpr hotherNone)
      · cases h

/-- Along the pass, in an activation of the proc: every select which is replaced has the value of
the data exactly when none of them is misjudged. -/
theorem replacements_exact (order : List ℕ) : ∀ {p final : Ir.Proc}
    {replacements : List Replacement}, runOnProcInternal order p = some (final, replacements) →
    TermGraph.IsValuation (sem e) p.graph val →
    ((∀ r ∈ replacements, val r.select = val r.receiveData.data) ↔
      ∀ r ∈ replacements, ¬ Misjudged e val r) := by
  induction order with
  | nil =>
    intro p final replacements h _
    obtain ⟨-, rfl⟩ := Prod.mk.inj (Option.some.inj h)
    exact ⟨fun _ r hr => absurd hr List.not_mem_nil, fun _ r hr => absurd hr List.not_mem_nil⟩
  | cons node order ih =>
    intro p final replacements h hval
    rw [runOnProcInternal] at h
    split at h
    · exact ih h hval
    · rename_i receiveData hmatch
      obtain ⟨next, hnext, h⟩ := Option.bind_eq_some_iff.mp h
      obtain ⟨⟨final', rest⟩, hrest, h⟩ := Option.bind_eq_some_iff.mp h
      obtain ⟨-, rfl⟩ := Prod.mk.inj (Option.some.inj h)
      unfold Ir.Proc.replaceUsesWith at hnext
      split at hnext
      · rename_i htype
        obtain rfl := Option.some.inj hnext
        have hfirst := select_eq_data_iff hval hmatch htype
        rw [List.forall_mem_cons, List.forall_mem_cons]
        -- the rest sees the activation only when the first replacement has been right
        by_cases hequal : val node = val receiveData.data
        · refine and_congr hfirst (ih hrest ?_)
          exact (TermGraph.isValuation_replaceUses hequal).mpr hval
        · exact iff_of_false (fun h => hequal h.1) fun h => hequal (hfirst.mpr h.1)
      · cases hnext

/-- Two receives which do not block, and a select between zero and the data of the first by the
valid bit of the second. -/
def twoReceives : Ir.Proc where
  graph := [
    some ⟨⟨.pure .param, .token⟩, []⟩,
    some ⟨⟨.receive 0 false false, .tuple [.token, .bits 8, .bits 1]⟩, [0]⟩,
    some ⟨⟨.receive 1 false false, .tuple [.token, .bits 8, .bits 1]⟩, [0]⟩,
    some ⟨⟨.pure (.literal (.bits (Bits.ofNat 8 0))), .bits 8⟩, []⟩,
    some ⟨⟨.pure (.tupleIndex 1), .bits 8⟩, [1]⟩,
    some ⟨⟨.pure (.tupleIndex 2), .bits 1⟩, [2]⟩,
    some ⟨⟨.pure (.sel false), .bits 8⟩, [5, 3, 4]⟩,
    some ⟨⟨.pure .param, .bits 8⟩, []⟩]
  tokenParam := 0
  stateParams := [7]
  initValues := [.bits (Bits.ofNat 8 0)]
  nextToken := 0
  nextState := [6]

/-- The first receive finds a five, the second one nothing. -/
def fiveReceived (node : ℕ) : Option Value :=
  if node = 1 then some (.bits (Bits.ofNat 8 5)) else none

/-- The values of the nodes then. -/
def fiveValues (node : ℕ) : Value :=
  ([.token, .tuple [.token, .bits (Bits.ofNat 8 5), .bits (Bits.ofNat 1 1)],
    .tuple [.token, .bits (Bits.ofNat 8 0), .bits (Bits.ofNat 1 0)], .bits (Bits.ofNat 8 0),
    .bits (Bits.ofNat 8 5), .bits (Bits.ofNat 1 0), .bits (Bits.ofNat 8 0),
    .bits (Bits.ofNat 8 0)] : List Value).getD node .token

theorem fiveValues_isValuation : TermGraph.IsValuation
    (sem (twoReceives.environment (fun _ _ _ => .token) fiveReceived [.bits (Bits.ofNat 8 0)]))
    twoReceives.graph fiveValues := by
  intro i n hn
  have hi : i < 8 := TermGraph.lt_length_of_vertex hn
  interval_cases i <;> (obtain rfl := Option.some.inj hn; rfl)

theorem runOnProc_twoReceives : ∃ final, runOnProcInternal (List.range 8) twoReceives =
    some (final, [⟨twoReceives.graph, 6, ⟨1, 4⟩⟩]) := ⟨_, rfl⟩

/-- The select is zero in this activation, and it is replaced by the data, a five. -/
theorem twoReceives_misjudged : ∃ final r,
    runOnProcInternal (List.range 8) twoReceives = some (final, [r]) ∧
    TermGraph.IsValuation
      (sem (twoReceives.environment (fun _ _ _ => .token) fiveReceived [.bits (Bits.ofNat 8 0)]))
      twoReceives.graph fiveValues ∧
    fiveValues r.select = .bits (Bits.ofNat 8 0) ∧
    fiveValues r.receiveData.data = .bits (Bits.ofNat 8 5) := by
  obtain ⟨final, hrun⟩ := runOnProc_twoReceives
  exact ⟨final, _, hrun, fiveValues_isValuation, rfl, rfl⟩

theorem replacements_exact_twoReceives : ∃ final r,
    runOnProcInternal (List.range 8) twoReceives = some (final, [r]) ∧
    ((∀ r' ∈ [r], fiveValues r'.select = fiveValues r'.receiveData.data) ↔ ∀ r' ∈ [r],
      ¬ Misjudged (twoReceives.environment (fun _ _ _ => .token) fiveReceived
        [.bits (Bits.ofNat 8 0)]) fiveValues r') := by
  obtain ⟨final, hrun⟩ := runOnProc_twoReceives
  exact ⟨final, _, hrun, replacements_exact (List.range 8) hrun fiveValues_isValuation⟩

end ReceiveDefaultValueSimplification

end Xls
