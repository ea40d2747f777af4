/-
# Rules for operands and comparisons

The rules of `CanonicalizeNode` which move a literal to the right and which make a comparison
strict.  A commutative operation and its type check do not see the order of two operands, and a
comparison is the commuted one from the other side.

* `sound_new`, `sound_literal` : what a rule shows of its new nodes;
* `sound_commuteOperands`, `sound_commuteComparison`, `sound_strictComparison` : the rules.
-/
import Xls.Ir.NodeBuilder
import Xls.Passes.Canonicalization

namespace Xls

namespace Canonicalization

open NodeGraph

variable {env : Env} {g : NodeGraph} {i k : ℕ} {val : ℕ → Value}

/-! ## Values and types of nodes -/

variable {n : Vertex NodeLabel} {t s type : Ty} {w selector default : ℕ} {d : NodeLabel}
  {x y b : Bits} {v : Value} {f : Bits → Bits → Bool} {op : Op} {rewrite : Rewrite} {cases : List ℕ}

theorem eval_of_valuation (hval : Valuation env g val) (hn : g.vertex k = some n) :
    evalLabel env k n.label (n.operands.map val) = some (val k) ∧
      (val k).conformsToType n.label.type = true := sem_eq_some.mp (hval k n hn)

theorem conforms_of_typeOf (hval : Valuation env g val) (h : g.typeOf k = some t) :
    (val k).conformsToType t = true := by
  obtain ⟨n, hn, rfl⟩ := Option.map_eq_some_iff.mp h
  exact (eval_of_valuation hval hn).2

/-- A node of bits type has bits. -/
theorem exists_bits (hval : Valuation env g val) (h : g.typeOf k = some (.bits w)) :
    ∃ b, val k = .bits b ∧ b.bitCount = w := Value.asBits_of_conforms (conforms_of_typeOf hval h)

theorem verify_of_vertex (hg : Verified g) (hn : g.vertex k = some n) :
    ∃ types, List.Forall₂ (fun i t => g.typeOf i = some t) n.operands types ∧
      verifyLabel n.label types = true ∧ n.operands.length < 2 ^ 64 :=
  verifyVertex_iff.mp (hg k n hn)

/-- The types of two operands. -/
theorem verify_two (hg : Verified g) {x y : ℕ} (hn : g.vertex k = some ⟨d, [x, y]⟩) :
    ∃ s t, g.typeOf x = some s ∧ g.typeOf y = some t ∧ verifyLabel d [s, t] = true := by
  obtain ⟨types, htypes, hlabel, -⟩ := verify_of_vertex hg hn
  cases htypes with
  | cons hx htypes =>
    cases htypes with
    | cons hy htypes =>
      cases htypes
      exact ⟨_, _, hx, hy, hlabel⟩

theorem verify_one (hg : Verified g) {x : ℕ} (hn : g.vertex k = some ⟨d, [x]⟩) :
    ∃ s, g.typeOf x = some s ∧ verifyLabel d [s] = true := by
  obtain ⟨types, htypes, hlabel, -⟩ := verify_of_vertex hg hn
  cases htypes with
  | cons hx htypes =>
    cases htypes
    exact ⟨_, hx, hlabel⟩

theorem verifyVertex_two {x y : ℕ} (hx : g.typeOf x = some s) (hy : g.typeOf y = some t)
    (h : verifyLabel d [s, t] = true) : g.verifyVertex ⟨d, [x, y]⟩ = true :=
  verifyVertex_iff.mpr ⟨[s, t], .cons hx (.cons hy .nil), h, show 2 < 2 ^ 64 by decide⟩

theorem typeOf_of_vertex (hn : g.vertex k = some n) : g.typeOf k = some n.label.type := by
  rw [typeOf, hn, Option.map_some]

theorem literalValue_eq_some (h : literalValue g k = some v) :
    ∃ t operands, g.vertex k = some ⟨⟨.logic (.core (.literal v)), t⟩, operands⟩ := by
  unfold literalValue at h
  split at h
  · rename_i hvertex
    rw [Option.some.inj h] at hvertex
    exact ⟨_, _, hvertex⟩
  · cases h

/-- The value and the type of a literal of bits. -/
theorem literalBits_spec (hg : Verified g) (h : literalBits g k = some b) :
    g.typeOf k = some (.bits b.bitCount) ∧ ∀ env val, Valuation env g val → val k = .bits b := by
  obtain ⟨v, hv, hb⟩ := Option.bind_eq_some_iff.mp h
  obtain ⟨t, operands, hvertex⟩ := literalValue_eq_some hv
  obtain ⟨types, -, hlabel, -⟩ := verify_of_vertex hg hvertex
  have hconf : v.conformsToType t = true := by
    have hverify : (types.isEmpty && v.conformsToType t) = true := hlabel
    exact (Bool.and_eq_true_iff.mp hverify).2
  cases v with
  | bits c =>
    obtain rfl := Option.some.inj hb
    cases t with
    | bits w =>
      have hw : c.bitCount = w := by simpa [Value.conformsToType] using hconf
      refine ⟨?_, fun env val hval => ?_⟩
      · rw [typeOf_of_vertex hvertex, hw]
      · exact (Option.some.inj (eval_of_valuation hval hvertex).1).symm
    | token => cases hconf
    | tuple ts => cases hconf
    | array n t => cases hconf
  | token => cases hb
  | tuple vs => cases hb
  | array vs => cases hb

/-! ## New nodes -/

/-- One new node with the value of the old one. -/
theorem sound_new {m : Vertex NodeLabel} (hn : g.vertex i = some n)
    (hverify : g.verifyVertex m = true) (htype : m.label.type = n.label.type)
    (hvalue : ∀ env val, Valuation env g val →
      evalLabel env g.length m.label (m.operands.map val) = some (val i)) :
    Sound i g.length g [m] := by
  have hsem : ∀ env val, Valuation env g val →
      sem env g.length m.label (m.operands.map val) = some (val i) := fun env val hval =>
    sem_eq_some.mpr ⟨hvalue env val hval, htype ▸ (eval_of_valuation hval hn).2⟩
  refine ⟨hverify, fun env val hval => ⟨_, hsem env val hval⟩, ?_, fun env val hval => ?_⟩
  · rw [typeOf_make_length, htype, typeOf_make_of_eq_some (typeOf_of_vertex hn)]
  · obtain ⟨hold, hnew⟩ := TermGraph.isValuation_make.mp hval
    exact Option.some.inj (hnew.symm.trans (hsem env val hold))

/-- A new literal in front of other new nodes. -/
theorem sound_literal {r : ℕ} {rest : List (Vertex NodeLabel)}
    (h : Sound i r (g.make (literalNode b)) rest) : Sound i r g (literalNode b :: rest) := by
  refine ⟨?_, fun env val _ => ?_, h⟩
  · exact verifyVertex_iff.mpr ⟨[], .nil, NodeBuilder.conforms_bits b, Nat.two_pow_pos 64⟩
  · exact ⟨.bits b, sem_eq_some.mpr ⟨rfl, NodeBuilder.conforms_bits b⟩⟩

theorem val_literalNode (hval : Valuation env (g.make (literalNode b)) val) :
    val g.length = .bits b :=
  (Option.some.inj (sem_eq_some.mp (TermGraph.isValuation_make.mp hval).2).1).symm

theorem typeOf_literalNode (b : Bits) :
    typeOf (g.make (literalNode b)) g.length = some (.bits b.bitCount) := typeOf_make_length

theorem vertex_make {m : Vertex NodeLabel} (hn : g.vertex i = some n) :
    (g.make m).vertex i = some n := by
  rw [TermGraph.vertex_make_of_ne (TermGraph.lt_length_of_vertex hn).ne, hn]

/-! ## Literals on the right -/

/-- The operands and the result of a commutative operation on bits have one type. -/
theorem sameType_of_verify
    (hop : d.op = .logic .and ∨ d.op = .logic .nand ∨ d.op = .logic .nor ∨ d.op = .logic .or ∨
      d.op = .logic .xor ∨ d.op = .logic (.core .add)) (h : verifyLabel d [s, t] = true) :
    ∃ w, d.type = .bits w ∧ s = .bits w ∧ t = .bits w := by
  have hsame : Verifier.allSameBitsType 2 d.type [s, t] = true := by
    rcases d with ⟨op, type⟩
    rcases hop with rfl | rfl | rfl | rfl | rfl | rfl
    all_goals exact h
  unfold Verifier.allSameBitsType at hsame
  rw [Bool.and_eq_true, decide_eq_true_eq] at hsame
  obtain ⟨hbits, hequal⟩ := hsame
  obtain ⟨hs, htail⟩ := List.cons.inj hequal
  obtain ⟨ht, -⟩ := List.cons.inj htail
  rcases htype : d.type with w | - | ts | ⟨n, u⟩
  · exact ⟨w, rfl, hs.trans htype, ht.trans htype⟩
  all_goals
    rw [htype] at hbits
    cases hbits

theorem nary_swap {f : Bits → Bits → Bits}
    (hf : ∀ a b : Bits, a.bitCount = b.bitCount → f a b = f b a) {a : Bits}
    (h : a.bitCount = b.bitCount) : BitsOps.nary f [a, b] = BitsOps.nary f [b, a] := by
  have hab : ∀ c ∈ [b], c.bitCount = a.bitCount := by
    intro c hc
    rw [List.mem_singleton.mp hc, h]
  have hba : ∀ c ∈ [a], c.bitCount = b.bitCount := by
    intro c hc
    rw [List.mem_singleton.mp hc, h]
  rw [BitsOps.nary, BitsOps.nary, if_pos hab, if_pos hba]
  exact congrArg some (hf a b h)

theorem and_swap (a b : Bits) (h : a.bitCount = b.bitCount) : BitsOps.and a b = BitsOps.and b a := by
  rw [BitsOps.and, BitsOps.and, h, Nat.and_comm]

theorem or_swap (a b : Bits) (h : a.bitCount = b.bitCount) : BitsOps.or a b = BitsOps.or b a := by
  rw [BitsOps.or, BitsOps.or, h, Nat.or_comm]

theorem xor_swap (a b : Bits) (h : a.bitCount = b.bitCount) : BitsOps.xor a b = BitsOps.xor b a := by
  rw [BitsOps.xor, BitsOps.xor, h, Nat.xor_comm]

theorem add_swap (a b : Bits) (h : a.bitCount = b.bitCount) : BitsOps.add a b = BitsOps.add b a := by
  rw [BitsOps.add, BitsOps.add, h, Nat.add_comm]

theorem uMul_swap (a b : Bits) : BitsOps.uMul a b = BitsOps.uMul b a := by
  rw [BitsOps.uMul, BitsOps.uMul, Nat.add_comm, Nat.mul_comm]

theorem sMul_swap (a b : Bits) : BitsOps.sMul a b = BitsOps.sMul b a := by
  rw [BitsOps.sMul, BitsOps.sMul, Nat.add_comm, Int.mul_comm]

/-- An operation on two values of bits which may be exchanged. -/
theorem bits2_swap {α : Type} {f : Bits × Bits → α} (hf : ∀ a b, f (a, b) = f (b, a))
    (v u : Value) : (Interpreter.bits2 [u, v]).map f = (Interpreter.bits2 [v, u]).map f := by
  cases v with
  | bits a =>
    cases u with
    | bits b => exact congrArg some (hf b a)
    | token => rfl
    | tuple vs => rfl
    | array vs => rfl
  | token => cases u <;> rfl
  | tuple vs => cases u <;> rfl
  | array vs => cases u <;> rfl

theorem equalityOp_swap (expected : Bool) (type : Ty) (v u : Value) :
    Interpreter.equalityOp expected type [u, v] = Interpreter.equalityOp expected type [v, u] := by
  have hdecide : decide (u = v) = decide (v = u) := decide_eq_decide.mpr eq_comm
  rw [Interpreter.equalityOp, Interpreter.equalityOp, hdecide]

/-- A product on two values of bits which is cut or extended. -/
def fitOp (product : Bits → Bits → Bits) (extend : Bits → ℕ → Bits) (type : Ty)
    (operands : List Value) : Option Value :=
  match type with
  | .bits w =>
    (Interpreter.bits2 operands).map fun p => .bits (fitProduct extend (product p.1 p.2) w)
  | _ => none

theorem fitOp_swap {product : Bits → Bits → Bits} (hproduct : ∀ a b, product a b = product b a)
    (extend : Bits → ℕ → Bits) (type : Ty) (v u : Value) :
    fitOp product extend type [u, v] = fitOp product extend type [v, u] := by
  cases type with
  | bits w => exact bits2_swap (fun a b => by rw [hproduct]) v u
  | token => rfl
  | tuple ts => rfl
  | array n t => rfl

theorem umul_eq (type : Ty) (operands : List Value) :
    Interpreter.umul type operands = fitOp BitsOps.uMul BitsOps.zeroExtend type operands := by
  unfold Interpreter.umul fitOp
  cases type with
  | bits w =>
    rcases Interpreter.bits2 operands with - | ⟨a, b⟩
    · rfl
    · simp only [Option.map_some, fitProduct]
      split
      · rfl
      · split <;> rfl
  | token => rcases Interpreter.bits2 operands with - | ⟨a, b⟩ <;> rfl
  | tuple ts => rcases Interpreter.bits2 operands with - | ⟨a, b⟩ <;> rfl
  | array n t => rcases Interpreter.bits2 operands with - | ⟨a, b⟩ <;> rfl

theorem smul_eq (type : Ty) (operands : List Value) :
    smul type operands = fitOp BitsOps.sMul BitsOps.signExtend type operands := by
  unfold smul fitOp
  cases type <;> rcases Interpreter.bits2 operands with - | ⟨a, b⟩ <;> rfl

theorem mulp_swap {product : Bits → Bits → Bits} (hproduct : ∀ a b, product a b = product b a)
    (extend : Bits → ℕ → Bits) (w : ℕ) (v u : Value) :
    mulp product extend w [u, v] = mulp product extend w [v, u] := by
  have hmap : ∀ operands, mulp product extend w operands =
      (Interpreter.bits2 operands).map fun p => .tuple [.bits (mulpOffsetForSimulation w),
        .bits (BitsOps.sub (fitProduct extend (product p.1 p.2) w)
          (mulpOffsetForSimulation w))] := by
    intro operands
    unfold mulp
    rcases Interpreter.bits2 operands with - | ⟨a, b⟩ <;> rfl
  rw [hmap, hmap]
  exact bits2_swap (fun a b => by rw [hproduct]) v u

theorem commutative_cases {op : GraphOp} (h : opIsCommutative op = true) :
    op = .logic .and ∨ op = .logic .nand ∨ op = .logic .nor ∨ op = .logic .or ∨
      op = .logic .xor ∨ op = .logic (.core .add) ∨ op = .logic (.core .umul) ∨
      op = .logic (.core .eq) ∨ op = .logic (.core .ne) ∨ op = .smul ∨ (∃ w, op = .smulp w) ∨
      (∃ w, op = .umulp w) ∨ op = .afterAll := by
  unfold opIsCommutative at h
  split at h
  all_goals first | cases h; done | simp

/-- The operands of a commutative operation may be exchanged. -/
theorem evalLabel_swap {u : Value} {j : ℕ} (hcomm : opIsCommutative d.op = true)
    (hverify : verifyLabel d [s, t] = true) (hv : v.conformsToType s = true)
    (hu : u.conformsToType t = true) : evalLabel env j d [u, v] = evalLabel env k d [v, u] := by
  -- the operations which ask for one width
  have hbits : (d.op = .logic .and ∨ d.op = .logic .nand ∨ d.op = .logic .nor ∨ d.op = .logic .or ∨
      d.op = .logic .xor ∨ d.op = .logic (.core .add)) →
      ∃ a b, v = .bits a ∧ u = .bits b ∧ a.bitCount = b.bitCount := by
    intro hop
    obtain ⟨w, -, rfl, rfl⟩ := sameType_of_verify hop hverify
    obtain ⟨a, rfl, ha⟩ := Value.asBits_of_conforms hv
    obtain ⟨b, rfl, hb⟩ := Value.asBits_of_conforms hu
    exact ⟨a, b, rfl, rfl, ha.trans hb.symm⟩
  rcases d with ⟨op, type⟩
  rcases commutative_cases hcomm with
    rfl | rfl | rfl | rfl | rfl | rfl | rfl | rfl | rfl | rfl | ⟨w, rfl⟩ | ⟨w, rfl⟩ | rfl
  · obtain ⟨a, b, rfl, rfl, hw⟩ := hbits (by simp)
    exact congrArg (Option.map Value.bits) (nary_swap and_swap hw.symm)
  · obtain ⟨a, b, rfl, rfl, hw⟩ := hbits (by simp)
    exact congrArg (fun r => Option.map Value.bits (Option.map BitsOps.not r))
      (nary_swap and_swap hw.symm)
  · obtain ⟨a, b, rfl, rfl, hw⟩ := hbits (by simp)
    exact congrArg (fun r => Option.map Value.bits (Option.map BitsOps.not r))
      (nary_swap or_swap hw.symm)
  · obtain ⟨a, b, rfl, rfl, hw⟩ := hbits (by simp)
    exact congrArg (Option.map Value.bits) (nary_swap or_swap hw.symm)
  · obtain ⟨a, b, rfl, rfl, hw⟩ := hbits (by simp)
    exact congrArg (Option.map Value.bits) (nary_swap xor_swap hw.symm)
  · obtain ⟨a, b, rfl, rfl, hw⟩ := hbits (by simp)
    exact congrArg (fun r => some (Value.bits r)) (add_swap b a hw.symm)
  · show Interpreter.umul type [u, v] = Interpreter.umul type [v, u]
    rw [umul_eq, umul_eq, fitOp_swap uMul_swap]
  · exact equalityOp_swap true type v u
  · exact equalityOp_swap false type v u
  · show smul type [u, v] = smul type [v, u]
    rw [smul_eq, smul_eq, fitOp_swap sMul_swap]
  · exact mulp_swap sMul_swap BitsOps.signExtend w v u
  · exact mulp_swap uMul_swap BitsOps.zeroExtend w v u
  · rfl

theorem verifyLabel_swap (hcomm : opIsCommutative d.op = true) (h : verifyLabel d [s, t] = true) :
    verifyLabel d [t, s] = true := by
  have hsame : (d.op = .logic .and ∨ d.op = .logic .nand ∨ d.op = .logic .nor ∨ d.op = .logic .or ∨
      d.op = .logic .xor ∨ d.op = .logic (.core .add)) → verifyLabel d [t, s] = true := by
    intro hop
    obtain ⟨w, -, rfl, rfl⟩ := sameType_of_verify hop h
    exact h
  have hcompare : Verifier.compareTypes d.type [s, t] = true →
      Verifier.compareTypes d.type [t, s] = true := by
    simp only [Verifier.compareTypes, Bool.and_eq_true, decide_eq_true_eq]
    exact fun h => ⟨h.1.symm, h.2⟩
  rcases d with ⟨op, type⟩
  rcases commutative_cases hcomm with
    rfl | rfl | rfl | rfl | rfl | rfl | rfl | rfl | rfl | rfl | ⟨w, rfl⟩ | ⟨w, rfl⟩ | rfl
  iterate 6 exact hsame (by simp)
  · cases s <;> cases t <;> exact h
  · exact hcompare h
  · exact hcompare h
  · cases s <;> cases t <;> exact h
  · cases s <;> cases t <;> exact h
  · cases s <;> cases t <;> exact h
  · unfold verifyLabel at h ⊢
    simp only [List.all_cons, List.all_nil, Bool.and_true] at h ⊢
    rw [Bool.and_comm (decide (t = .token))]
    exact h

/-- A clone on exchanged operands has the type of the node. -/
theorem cloneType_eq {y : ℕ} {u : Ty} (hcomm : opIsCommutative d.op = true)
    (h : verifyLabel d [s, t] = true) (hy : g.typeOf y = some t) (hu : cloneType g d y = some u) :
    u = d.type := by
  have hsame : (d.op = .logic .and ∨ d.op = .logic .nand ∨ d.op = .logic .nor ∨ d.op = .logic .or ∨
      d.op = .logic .xor ∨ d.op = .logic (.core .add)) → some u = some t → u = d.type := by
    intro hop heq
    obtain ⟨w, htype, -, ht⟩ := sameType_of_verify hop h
    rw [Option.some.inj heq, ht, htype]
  rcases d with ⟨op, type⟩
  rcases commutative_cases hcomm with
    rfl | rfl | rfl | rfl | rfl | rfl | rfl | rfl | rfl | rfl | ⟨w, rfl⟩ | ⟨w, rfl⟩ | rfl
  iterate 6 exact hsame (by simp) (hu.symm.trans hy)
  all_goals exact (Option.some.inj hu).symm

theorem sound_commuteOperands (hg : Verified g) (h : commuteOperands g i = some rewrite) :
    Sound i rewrite.replacement g rewrite.newNodes := by
  obtain ⟨d, x, y, u, hvertex, hcomm, -, -, hu, rfl⟩ := commuteOperands_eq_some h
  obtain ⟨s, t, hx, hy, hverify⟩ := verify_two hg hvertex
  obtain rfl := cloneType_eq hcomm hverify hy hu
  refine sound_new hvertex (verifyVertex_two hy hx (verifyLabel_swap hcomm hverify)) rfl ?_
  intro env val hval
  rw [← (eval_of_valuation hval hvertex).1]
  exact evalLabel_swap hcomm hverify (conforms_of_typeOf hval hx) (conforms_of_typeOf hval hy)

/-! ## Comparisons -/

/-- The checks of a comparison. -/
theorem verifyLabel_compare (hop : opIsCompare op = true) :
    verifyLabel ⟨.logic (.core op), type⟩ [s, t] = true ↔ t = s ∧ type = .bits 1 := by
  have hcompare : verifyLabel ⟨.logic (.core op), type⟩ [s, t] =
      Verifier.compareTypes type [s, t] := by
    unfold opIsCompare compareOpCommuted at hop
    split at hop
    all_goals first | rfl | cases hop
  rw [hcompare, Verifier.compareTypes, Bool.and_eq_true, decide_eq_true_eq, decide_eq_true_eq]

theorem compareOp_flip {f' : Bits → Bits → Bool} (hf : ∀ a b, f a b = f' b a) (type : Ty)
    (v u : Value) : Interpreter.compareOp f type [v, u] = Interpreter.compareOp f' type [u, v] := by
  cases v <;> cases u <;> first | rfl | skip
  rename_i a b
  show Interpreter.boolResult type (f a b) = Interpreter.boolResult type (f' b a)
  rw [hf]

/-- `op(x, y)` is `op_commuted(y, x)`. -/
theorem evalLabel_commuted {op' : Op} (h : compareOpCommuted op = some op') (type : Ty)
    (v u : Value) {j : ℕ} : evalLabel env j ⟨.logic (.core op'), type⟩ [u, v] =
      evalLabel env k ⟨.logic (.core op), type⟩ [v, u] := by
  unfold compareOpCommuted at h
  split at h
  · cases h
    exact equalityOp_swap true type v u
  · cases h
    exact equalityOp_swap false type v u
  all_goals first | cases h; done | skip
  all_goals
    obtain rfl := Option.some.inj h
    exact compareOp_flip (fun a b => rfl) type u v

theorem opIsCompare_commuted {op' : Op} (h : compareOpCommuted op = some op') :
    opIsCompare op = true ∧ opIsCompare op' = true := by
  refine ⟨?_, ?_⟩
  · rw [opIsCompare, h]
    rfl
  · unfold compareOpCommuted at h
    split at h
    all_goals first | cases h; done | (obtain rfl := Option.some.inj h; rfl)

theorem sound_commuteComparison (hg : Verified g) (h : commuteComparison g i = some rewrite) :
    Sound i rewrite.replacement g rewrite.newNodes := by
  obtain ⟨op, op', type, x, y, hvertex, hop', -, -, rfl⟩ := commuteComparison_eq_some h
  obtain ⟨hop, hcompare⟩ := opIsCompare_commuted hop'
  obtain ⟨s, t, hx, hy, hverify⟩ := verify_two hg hvertex
  obtain ⟨rfl, rfl⟩ := (verifyLabel_compare hop).mp hverify
  refine sound_new hvertex
    (verifyVertex_two hy hx ((verifyLabel_compare hcompare).mpr ⟨rfl, rfl⟩)) rfl ?_
  intro env val hval
  rw [← (eval_of_valuation hval hvertex).1]
  exact evalLabel_commuted hop' (.bits 1) (val x) (val y)

/-- The value of a comparison of numbers, as a bit. -/
theorem eval_number {u w : Value}
    (hop : ∀ operands, evalLabel env k ⟨.logic (.core op), .bits 1⟩ operands =
      Interpreter.compareOp f (.bits 1) operands)
    (h : evalLabel env k ⟨.logic (.core op), .bits 1⟩ [v, u] = some w) :
    ∃ a b, v = .bits a ∧ u = .bits b ∧ w = .bits (BitsOps.ofBool (f a b)) := by
  rw [hop] at h
  cases v with
  | bits a =>
    cases u with
    | bits b =>
      have hw : some w = _ := h.symm.trans (NodeBuilder.boolResult_one (f a b))
      exact ⟨a, b, rfl, rfl, Option.some.inj hw⟩
    | token => cases h
    | tuple vs => cases h
    | array vs => cases h
  | token => cases h
  | tuple vs => cases h
  | array vs => cases h

theorem toNat_decrement (h : b.isZero = false) : (BitsOps.decrement b).toNat = b.toNat - 1 := by
  have hpos : b.toNat ≠ 0 := by
    rintro hzero
    rw [Bits.isZero, hzero] at h
    cases h
  have hlt := b.isLt
  show (b.toNat + (2 ^ b.bitCount - 1)) % 2 ^ b.bitCount = b.toNat - 1
  rw [show b.toNat + (2 ^ b.bitCount - 1) = (b.toNat - 1) + 2 ^ b.bitCount by omega,
    Nat.add_mod_right, Nat.mod_eq_of_lt (by omega)]

theorem toNat_increment (h : b.isAllOnes = false) : (BitsOps.increment b).toNat = b.toNat + 1 := by
  have hne : b.toNat ≠ 2 ^ b.bitCount - 1 := by
    rintro hones
    rw [Bits.isAllOnes, hones, beq_self_eq_true] at h
    cases h
  have hlt := b.isLt
  exact Nat.mod_eq_of_lt (by omega)

/-- A comparison `op'` with a new literal `b` which says what `op` says of the old one. -/
theorem sound_compareLiteral (hg : Verified g) {op' : Op} {x y : ℕ} {literal : Bits}
    {f' : Bits → Bits → Bool} (hvertex : g.vertex i = some ⟨⟨.logic (.core op), type⟩, [x, y]⟩)
    (hliteral : literalBits g y = some literal) (hop : opIsCompare op = true)
    (hop' : opIsCompare op' = true) (hwidth : b.bitCount = literal.bitCount)
    (hf : ∀ env k operands, evalLabel env k ⟨.logic (.core op), .bits 1⟩ operands =
      Interpreter.compareOp f (.bits 1) operands)
    (hf' : ∀ env k operands, evalLabel env k ⟨.logic (.core op'), .bits 1⟩ operands =
      Interpreter.compareOp f' (.bits 1) operands) (hequal : ∀ a, f' a b = f a literal) :
    Sound i (g.length + 1) g [literalNode b, compareNode op' x g.length] := by
  obtain ⟨htype, hval⟩ := literalBits_spec hg hliteral
  obtain ⟨s, t, hx, hy, hverify⟩ := verify_two hg hvertex
  obtain rfl := Option.some.inj (hy.symm.trans htype)
  obtain ⟨hst, rfl⟩ := (verifyLabel_compare hop).mp hverify
  subst hst
  apply sound_literal
  have hlength : g.length + 1 = (g.make (literalNode b)).length := TermGraph.length_make.symm
  rw [hlength]
  refine sound_new (vertex_make hvertex) ?_ rfl ?_
  · refine verifyVertex_two (typeOf_make_of_eq_some hx) (typeOf_literalNode b) ?_
    rw [verifyLabel_compare hop', hwidth]
    exact ⟨rfl, rfl⟩
  · intro env val hmade
    obtain ⟨hold, -⟩ := TermGraph.isValuation_make.mp hmade
    obtain ⟨a, c, ha, hc, hvalue⟩ := eval_number (hf env i) (eval_of_valuation hold hvertex).1
    rw [hval env val hold] at hc
    obtain rfl := Value.bits.inj hc
    show evalLabel env _ ⟨.logic (.core op'), .bits 1⟩ [val x, val g.length] = _
    rw [val_literalNode hmade, ha, hvalue, hf']
    show Interpreter.boolResult (.bits 1) (f' a b) = _
    rw [NodeBuilder.boolResult_one, hequal]

theorem sound_strictComparison (hg : Verified g) (h : strictComparison g i = some rewrite) :
    Sound i rewrite.replacement g rewrite.newNodes := by
  obtain ⟨op, type, x, y, literal, b, op', hvertex, hliteral, hrule, rfl⟩ :=
    strictComparison_eq_some h
  rcases hrule with ⟨rfl, hzero, rfl, rfl⟩ | ⟨rfl, hones, rfl, rfl⟩
  · refine sound_compareLiteral hg hvertex hliteral rfl rfl rfl (fun _ _ _ => rfl)
      (fun _ _ _ => rfl) fun a => ?_
    -- `literal - 1 < a` and `literal ≤ a`
    have hpos : literal.toNat ≠ 0 := by
      rintro hnone
      rw [Bits.isZero, hnone] at hzero
      cases hzero
    rw [BitsOps.uLessThan, toNat_decrement hzero]
    exact decide_eq_decide.mpr (by omega)
  · refine sound_compareLiteral hg hvertex hliteral rfl rfl rfl (fun _ _ _ => rfl)
      (fun _ _ _ => rfl) fun a => ?_
    rw [BitsOps.uLessThan, toNat_increment hones]
    exact decide_eq_decide.mpr Nat.lt_succ_iff

end Canonicalization

end Xls
