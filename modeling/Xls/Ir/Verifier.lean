/-
# The IR verifier

The checks of `NodeChecker` (`xls/ir/verifier.cc`) on the modelled operations: the
number and the types of the operands and the type of the node.  `verify` also asks
that operands precede their node, which is how the model states that the graph has
no cycles.
-/
import Xls.Ir.Function

namespace Xls

namespace Verifier

mutual

/-- `TypeHasToken`. -/
def typeHasToken : Ty → Bool
  | .bits _ => false
  | .token => true
  | .tuple ts => typesHaveToken ts
  | .array _ t => typeHasToken t

/-- Some type of a list has a token. -/
def typesHaveToken : List Ty → Bool
  | [] => false
  | t :: ts => typeHasToken t || typesHaveToken ts

end

/-- `GetIndexedElementType`. -/
def getIndexedElementType : Ty → ℕ → Option Ty
  | t, 0 => some t
  | .array _ t, size + 1 => getIndexedElementType t size
  | _, _ + 1 => none

/-- `ExpectAllSameBitsType` with the expected number of operands. -/
def allSameBitsType (count : ℕ) (type : Ty) (operandTypes : List Ty) : Bool :=
  type.isBits && decide (operandTypes = List.replicate count type)

/-- Comparisons: two operands of one type, a one-bit result. -/
def compareTypes (type : Ty) (operandTypes : List Ty) : Bool :=
  match operandTypes with
  | [a, b] => decide (b = a) && decide (type = .bits 1)
  | _ => false

/-- Reductions: one bits operand, a one-bit result. -/
def reductionTypes (type : Ty) (operandTypes : List Ty) : Bool :=
  match operandTypes with
  | [.bits _] => decide (type = .bits 1)
  | _ => false

/-- `HandleExtendOp`. -/
def extendTypes (newBitCount : ℕ) (type : Ty) (operandTypes : List Ty) : Bool :=
  match operandTypes with
  | [.bits w] => decide (w ≤ newBitCount) && decide (type = .bits newBitCount)
  | _ => false

/-- `IsPowerOfTwo`. -/
def isPowerOfTwo (n : ℕ) : Bool := decide (0 < n) && decide (2 ^ n.log2 = n)

/-- `HandleSel`: enough selector bits, and a default exactly when some selector value
lies beyond the cases. -/
def selTypes (hasDefault : Bool) (type : Ty) (operandTypes : List Ty) : Bool :=
  match operandTypes with
  | .bits selectorWidth :: arms =>
    let cases := if hasDefault then arms.dropLast else arms
    -- without cases, `cases().size() - 1` is the greatest 64-bit value
    let minimumSelectorWidth :=
      if cases.isEmpty then 64 else Bits.minBitCountUnsigned (cases.length - 1)
    let exact := decide (selectorWidth = minimumSelectorWidth) && isPowerOfTwo cases.length
    decide (0 < arms.length) && !typeHasToken type &&
      decide (minimumSelectorWidth ≤ selectorWidth) && (hasDefault != exact) &&
      cases.all fun t => decide (t = type)
  | _ => false

/-- `HandlePrioritySel`. -/
def prioritySelTypes (type : Ty) (operandTypes : List Ty) : Bool :=
  match operandTypes with
  | .bits selectorWidth :: cases =>
    decide (0 < cases.length) && !typeHasToken type && decide (selectorWidth = cases.length)
  | _ => false

/-- The widths of operands which are all bits, added up. -/
def totalBits : List Ty → Option ℕ
  | [] => some 0
  | .bits w :: rest => (totalBits rest).map (w + ·)
  | _ :: _ => none

/-- `HandleArrayConcat`. -/
def arrayConcatType : List Ty → Option Ty
  | [] => none
  | [.array n t] => some (.array n t)
  | .array n t :: rest =>
    match arrayConcatType rest with
    | some (.array m u) => if u = t then some (.array (n + m) t) else none
    | _ => none
  | _ :: _ => none

/-- The checks on one node. -/
def verifyNode (n : Node) (operandTypes : List Ty) : Bool :=
  match n.op with
  | .param => operandTypes.isEmpty
  | .literal value => operandTypes.isEmpty && value.conformsToType n.type
  | .add | .sub | .udiv => allSameBitsType 2 n.type operandTypes
  | .neg => allSameBitsType 1 n.type operandTypes
  | .umul =>
    match operandTypes with
    | [.bits _, .bits _] => n.type.isBits
    | _ => false
  | .concat => decide ((totalBits operandTypes).map Ty.bits = some n.type)
  | .zeroExt w | .signExt w => extendTypes w n.type operandTypes
  | .identity => decide (operandTypes = [n.type])
  | .sel hasDefault => selTypes hasDefault n.type operandTypes
  | .prioritySel => prioritySelTypes n.type operandTypes
  | .gate => decide (operandTypes = [.bits 1, n.type])
  | .eq | .ne | .ugt | .uge | .ult | .ule | .sgt | .sge | .slt | .sle =>
    compareTypes n.type operandTypes
  | .andReduce | .orReduce | .xorReduce => reductionTypes n.type operandTypes
  | .array =>
    match n.type with
    | .array size t => decide (operandTypes = List.replicate size t)
    | _ => false
  | .arrayIndex =>
    match operandTypes with
    | array :: indices =>
      indices.all Ty.isBits && !typeHasToken n.type &&
        decide (getIndexedElementType array indices.length = some n.type)
    | [] => false
  | .arrayConcat => decide (arrayConcatType operandTypes = some n.type)
  | .tuple => decide (n.type = .tuple operandTypes)
  | .tupleIndex index =>
    match operandTypes with
    | [.tuple ts] => decide (ts[index]? = some n.type)
    | _ => false
  | .other _ _ => true

/-- The types of the operands of a node at position `id`, which must precede it. -/
def operandTypes (f : FunctionBase) (id : ℕ) : List ℕ → Option (List Ty)
  | [] => some []
  | i :: rest =>
    if i < id then
      match f.nodes[i]?, operandTypes f id rest with
      | some n, some types => some (n.type :: types)
      | _, _ => none
    else none

/-- The checks on the nodes from position `id` on. -/
def verifyFrom (f : FunctionBase) : ℕ → List Node → Bool
  | _, [] => true
  | id, n :: rest =>
    match operandTypes f id n.operands with
    | some types => verifyNode n types && verifyFrom f (id + 1) rest
    | none => false

/-- The function is accepted by the verifier. -/
def verify (f : FunctionBase) : Bool :=
  verifyFrom f 0 f.nodes && f.implicitUses.all fun i => decide (i < f.nodes.length)

/-- Every node of a verified function passes its checks. -/
theorem verifyNode_of_verifyFrom {f : FunctionBase} {nodes : List Node} {id i : ℕ} {n : Node}
    (h : verifyFrom f id nodes = true) (hn : nodes[i]? = some n) :
    ∃ types, operandTypes f (id + i) n.operands = some types ∧ verifyNode n types = true := by
  induction nodes generalizing id i with
  | nil => simp at hn
  | cons a rest ih =>
    rw [verifyFrom] at h
    split at h
    · rename_i types htypes
      rw [Bool.and_eq_true] at h
      cases i with
      | zero =>
        simp only [List.getElem?_cons_zero, Option.some.injEq] at hn
        subst hn
        exact ⟨types, htypes, h.1⟩
      | succ i =>
        rw [show id + (i + 1) = id + 1 + i by omega]
        exact ih h.2 hn
    · cases h

theorem verifyNode_of_verify {f : FunctionBase} (h : verify f = true) {i : ℕ} {n : Node}
    (hn : f.nodes[i]? = some n) :
    ∃ types, operandTypes f i n.operands = some types ∧ verifyNode n types = true := by
  rw [verify, Bool.and_eq_true] at h
  simpa using verifyNode_of_verifyFrom h.1 hn

end Verifier

/-! ## Values of a run -/

namespace Interpreter

/-- What a run says about the node at a position. -/
structure NodeRun (env : Env) (values : List Value) (i : ℕ) (n : Node) (v : Value) : Prop where
  value : values[i]? = some v
  conforms : v.conformsToType n.type = true
  eval : ∃ operands, resolve (values.take i) n.operands = some operands ∧
    evalNode env i n operands = some v

theorem step_eq_some {env : Env} {values values' : List Value} {n : Node}
    (h : step env values n = some values') :
    ∃ v operands, values' = values ++ [v] ∧ resolve values n.operands = some operands ∧
      evalNode env values.length n operands = some v ∧ v.conformsToType n.type = true := by
  unfold step at h
  split at h
  · cases h
  · rename_i operands hoperands
    split at h
    · cases h
    · rename_i v hv
      split at h
      · rename_i hconf
        cases h
        exact ⟨v, operands, rfl, hoperands, hv, hconf⟩
      · cases h

/-- The nodes read so far keep their values, and each further node runs. -/
theorem foldlM_step {env : Env} {nodes : List Node} {values out : List Value}
    (h : nodes.foldlM (step env) values = some out) :
    values <+: out ∧ out.length = values.length + nodes.length ∧
    ∀ i n, nodes[i]? = some n → ∃ v, NodeRun env out (values.length + i) n v := by
  induction nodes generalizing values with
  | nil =>
    simp only [List.foldlM_nil, Option.pure_def, Option.some.injEq] at h
    subst h
    exact ⟨List.prefix_rfl, rfl, by simp⟩
  | cons a rest ih =>
    rw [List.foldlM_cons, Option.bind_eq_bind, Option.bind_eq_some_iff] at h
    obtain ⟨values', hstep, hrest⟩ := h
    obtain ⟨v, operands, rfl, hres, heval, hconf⟩ := step_eq_some hstep
    obtain ⟨hpre, hlen, hnodes⟩ := ih hrest
    rw [List.length_append, List.length_singleton] at hlen hnodes
    have hpre' : values <+: out := (List.prefix_append values [v]).trans hpre
    refine ⟨hpre', by rw [List.length_cons]; omega, ?_⟩
    intro i n hn
    cases i with
    | zero =>
      simp only [List.getElem?_cons_zero, Option.some.injEq] at hn
      subst hn
      obtain ⟨back, rfl⟩ := hpre
      refine ⟨v, ?_, hconf, operands, ?_, ?_⟩
      · simp
      · simp [hres]
      · simpa using heval
    | succ i =>
      rw [show values.length + (i + 1) = values.length + 1 + i by omega]
      exact hnodes i n hn

/-- Every node of a run takes the value computed from its operands. -/
theorem run_spec {env : Env} {f : FunctionBase} {values : List Value}
    (h : run env f = some values) :
    values.length = f.nodes.length ∧
    ∀ i n, f.nodes[i]? = some n → ∃ v, NodeRun env values i n v := by
  obtain ⟨-, hlen, hnodes⟩ := foldlM_step h
  simp only [List.length_nil, Nat.zero_add] at hlen hnodes
  exact ⟨hlen, hnodes⟩

theorem resolve_cons {values : List Value} {i : ℕ} {ids : List ℕ} {operands : List Value}
    (h : resolve values (i :: ids) = some operands) :
    ∃ v vs, values[i]? = some v ∧ resolve values ids = some vs ∧ operands = v :: vs := by
  rw [resolve] at h
  split at h
  · rename_i v vs hv hvs
    cases h
    exact ⟨v, vs, hv, hvs, rfl⟩
  · cases h

end Interpreter

end Xls
