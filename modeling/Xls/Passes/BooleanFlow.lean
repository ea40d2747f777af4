/-
# The flow of truth tables

A boolean computation over frontier nodes has a value for each assignment of the frontier.  The
vector which `FlowFromFrontierToNode` flows to a node holds these values, one for each of the eight
assignments of three variables.

* `runLogicOp_get` : the operations act bit by bit;
* `flow_spec` : the vector of a node, also with memoized results;
* `evalBool_spec` : every assignment of the frontier has values.
-/
import Xls.Passes.BooleanSimplification
import Xls.Passes.CanonicalizationSoundness

namespace Xls

namespace BooleanSimplification

open NodeGraph TruthTable

variable {g : NodeGraph} {n : Vertex NodeLabel} {i k w : ℕ}

/-! ## The operations, bit by bit -/

/-- An operation on booleans. -/
def boolOp (op : GraphOp) (bs : List Bool) : Bool :=
  match op with
  | .logic .and => bs.all id
  | .logic .nand => !bs.all id
  | .logic .or => bs.any id
  | .logic .nor => !bs.any id
  | .logic .xor => bs.foldl Bool.xor false
  | .logic .not => !bs.headD false
  | _ => false

theorem nary_get {f : Bits → Bits → Bits} {h : Bool → Bool → Bool} (hf : Evaluator.Bitwise f h)
    {b : Bits} {bs : List Bits} (hb : b.bitCount = w) (hw : ∀ c ∈ bs, c.bitCount = w) :
    ∃ r, BitsOps.nary f (b :: bs) = some r ∧ r.bitCount = w ∧
      ∀ t < w, r.get t = (bs.map fun c => c.get t).foldl h (b.get t) := by
  have hall : ∀ c ∈ bs, c.bitCount = b.bitCount := fun c hc => (hw c hc).trans hb.symm
  refine ⟨bs.foldl f b, ?_, ?_⟩
  · rw [BitsOps.nary, if_pos hall]
  · clear hall
    induction bs generalizing b with
    | nil => exact ⟨hb, fun t ht => rfl⟩
    | cons c bs ih =>
      have hstep : (f b c).bitCount = w := (hf.width b c).trans hb
      obtain ⟨hcount, hget⟩ := ih hstep fun d hd => hw d (List.mem_cons_of_mem _ hd)
      refine ⟨hcount, fun t ht => ?_⟩
      rw [List.foldl_cons, hget t ht, List.map_cons, List.foldl_cons]
      congr 1
      exact hf.bit b c t (hb ▸ ht)

theorem foldl_and_eq (b : Bool) (bs : List Bool) :
    bs.foldl Evaluator.bool.and b = (b :: bs).all id := by
  induction bs generalizing b with
  | nil => simp
  | cons c bs ih =>
    rw [List.foldl_cons, ih]
    show ((b && c) && bs.all id) = (b && (c && bs.all id))
    rw [Bool.and_assoc]

theorem foldl_or_eq (b : Bool) (bs : List Bool) :
    bs.foldl Evaluator.bool.or b = (b :: bs).any id := by
  induction bs generalizing b with
  | nil => simp
  | cons c bs ih =>
    rw [List.foldl_cons, ih]
    show ((b || c) || bs.any id) = (b || (c || bs.any id))
    rw [Bool.or_assoc]

theorem foldl_xor_eq (b : Bool) (bs : List Bool) :
    bs.foldl Evaluator.bool.xor b = (b :: bs).foldl Bool.xor false := by
  have hxor : Evaluator.bool.xor = Bool.xor := by
    funext a c
    cases a <;> cases c <;> rfl
  rw [hxor, List.foldl_cons, Bool.false_xor]

theorem not_get {b : Bits} {t : ℕ} (ht : t < b.bitCount) : (BitsOps.not b).get t = !b.get t := by
  have h := Evaluator.bool_bitwiseNot_eq b
  have hget := congrArg (fun v => v.getD t false) h
  rw [Evaluator.getD_bool_bitsToVector] at hget
  show (BitsOps.not b).toNat.testBit t = !b.toNat.testBit t
  rw [← hget, ← Evaluator.getD_bool_bitsToVector]
  have hlength : t < (Evaluator.bool.bitsToVector b).length := by
    rw [Evaluator.length_bool_bitsToVector]
    exact ht
  show ((Evaluator.bool.bitsToVector b).map Bool.not).getD t false = _
  rw [List.getD_eq_getElem _ _ (by rwa [List.length_map]), List.getElem_map,
    List.getD_eq_getElem _ _ hlength]

/-- The operations of truth tables and the negation. -/
def IsBoolOp (op : LogicOp) : Prop := op = .not ∨ op ∈ kLogicOps

variable {op : LogicOp} {V : List ℕ} {rank : ℕ → ℕ}

/-- The operations on words are those on booleans, bit by bit. -/
theorem runLogicOp_get (hop : IsBoolOp op) {bs : List Bits} (hne : bs ≠ [])
    (hw : ∀ b ∈ bs, b.bitCount = w) (hone : op = .not → bs.length = 1) :
    ∃ r, runLogicOp (.logic op) bs = some r ∧ r.bitCount = w ∧
      ∀ t < w, r.get t = boolOp (.logic op) (bs.map fun b => b.get t) := by
  rcases bs with - | ⟨b, bs⟩
  · exact absurd rfl hne
  have hb := hw b (List.mem_cons_self ..)
  have hrest : ∀ c ∈ bs, c.bitCount = w := fun c hc => hw c (List.mem_cons_of_mem _ hc)
  rcases hop with rfl | hop
  · have hnil : bs = [] := List.length_eq_zero_iff.mp (Nat.succ.inj (hone rfl))
    subst hnil
    exact ⟨BitsOps.not b, rfl, hb, fun t ht => not_get (hb ▸ ht)⟩
  · simp only [kLogicOps, List.mem_cons, List.not_mem_nil, or_false] at hop
    rcases hop with rfl | rfl | rfl | rfl | rfl
    · obtain ⟨r, hr, hcount, hget⟩ := nary_get Evaluator.bitwise_and hb hrest
      refine ⟨BitsOps.not r, congrArg (Option.map BitsOps.not) hr, hcount, fun t ht => ?_⟩
      rw [not_get (hcount ▸ ht), hget t ht, foldl_and_eq]
      rfl
    · obtain ⟨r, hr, hcount, hget⟩ := nary_get Evaluator.bitwise_or hb hrest
      refine ⟨BitsOps.not r, congrArg (Option.map BitsOps.not) hr, hcount, fun t ht => ?_⟩
      rw [not_get (hcount ▸ ht), hget t ht, foldl_or_eq]
      rfl
    · obtain ⟨r, hr, hcount, hget⟩ := nary_get Evaluator.bitwise_xor hb hrest
      refine ⟨r, hr, hcount, fun t ht => ?_⟩
      rw [hget t ht, foldl_xor_eq]
      rfl
    · obtain ⟨r, hr, hcount, hget⟩ := nary_get Evaluator.bitwise_and hb hrest
      refine ⟨r, hr, hcount, fun t ht => ?_⟩
      rw [hget t ht, foldl_and_eq]
      rfl
    · obtain ⟨r, hr, hcount, hget⟩ := nary_get Evaluator.bitwise_or hb hrest
      refine ⟨r, hr, hcount, fun t ht => ?_⟩
      rw [hget t ht, foldl_or_eq]
      rfl

theorem isLogicOp_iff {op : GraphOp} : isLogicOp op = true ↔ ∃ op', op = .logic op' ∧
    IsBoolOp op' ∧ op' ≠ .xor := by
  constructor
  · intro h
    unfold isLogicOp at h
    split at h
    · exact ⟨_, rfl, Or.inr (by decide), by decide⟩
    · exact ⟨_, rfl, Or.inr (by decide), by decide⟩
    · exact ⟨_, rfl, Or.inr (by decide), by decide⟩
    · exact ⟨_, rfl, Or.inl rfl, by decide⟩
    · exact ⟨_, rfl, Or.inr (by decide), by decide⟩
    · cases h
  · rintro ⟨op', rfl, rfl | hop, hxor⟩
    · rfl
    · simp only [kLogicOps, List.mem_cons, List.not_mem_nil, or_false] at hop
      rcases hop with rfl | rfl | rfl | rfl | rfl
      · rfl
      · rfl
      · exact absurd rfl hxor
      · rfl
      · rfl

/-- The operations of the interpreter. -/
theorem evalLabel_bool {env : Env} (hop : IsBoolOp op) (type : Ty) (bs : List Bits)
    (hone : op = .not → bs.length = 1) :
    evalLabel env i ⟨.logic op, type⟩ (bs.map .bits) = (runLogicOp (.logic op) bs).map .bits := by
  have hvector : Interpreter.bitsVector (bs.map .bits) = some bs := NodeBuilder.bitsVector_map bs
  have hnary : ∀ f, LogicInterpreter.naryOp f (bs.map .bits) = (f bs).map .bits := by
    intro f
    rw [LogicInterpreter.naryOp, hvector]
    rfl
  rcases hop with rfl | hop
  · obtain ⟨b, rfl⟩ := List.length_eq_one_iff.mp (hone rfl)
    rfl
  · simp only [kLogicOps, List.mem_cons, List.not_mem_nil, or_false] at hop
    rcases hop with rfl | rfl | rfl | rfl | rfl
    · exact hnary BitsOps.naryNand
    · exact hnary BitsOps.naryNor
    · exact hnary BitsOps.naryXor
    · exact hnary BitsOps.naryAnd
    · exact hnary BitsOps.naryOr

/-- The checks of such a node. -/
theorem verifyLabel_bool (hop : IsBoolOp op) {type : Ty} {types : List Ty} :
    verifyLabel ⟨.logic op, type⟩ types = true ↔ (∃ w, type = .bits w) ∧ types ≠ [] ∧
      (∀ t ∈ types, t = type) ∧ (op = .not → types.length = 1) := by
  have hsame : ∀ m, Verifier.allSameBitsType m type types = true ↔
      (∃ w, type = .bits w) ∧ types = List.replicate m type := by
    intro m
    unfold Verifier.allSameBitsType
    cases type with
    | bits w => simp [Ty.isBits]
    | token => simp [Ty.isBits]
    | tuple ts => simp [Ty.isBits]
    | array n t => simp [Ty.isBits]
  have hnary : (decide (0 < types.length) && Verifier.allSameBitsType types.length type types) =
      true ↔ (∃ w, type = .bits w) ∧ types ≠ [] ∧ ∀ t ∈ types, t = type := by
    rw [Bool.and_eq_true, decide_eq_true_eq, hsame, List.length_pos_iff, List.eq_replicate_iff]
    constructor
    · rintro ⟨hne, hbits, -, hall⟩
      exact ⟨hbits, hne, hall⟩
    · rintro ⟨hbits, hne, hall⟩
      exact ⟨hne, hbits, rfl, hall⟩
  rcases hop with rfl | hop
  · show Verifier.allSameBitsType 1 type types = true ↔ _
    rw [hsame, List.eq_replicate_iff]
    constructor
    · rintro ⟨hbits, hlength, hall⟩
      refine ⟨hbits, ?_, hall, fun _ => hlength⟩
      rintro rfl
      cases hlength
    · rintro ⟨hbits, -, hall, hlength⟩
      exact ⟨hbits, hlength rfl, hall⟩
  · have hnot : op ≠ .not := by
      rintro rfl
      exact absurd hop (by decide)
    have hverify : verifyLabel ⟨.logic op, type⟩ types =
        (decide (0 < types.length) && Verifier.allSameBitsType types.length type types) := by
      simp only [kLogicOps, List.mem_cons, List.not_mem_nil, or_false] at hop
      rcases hop with rfl | rfl | rfl | rfl | rfl <;> rfl
    rw [hverify, hnary]
    constructor
    · rintro ⟨hbits, hne, hall⟩
      exact ⟨hbits, hne, hall, fun h => absurd h hnot⟩
    · rintro ⟨hbits, hne, hall, -⟩
      exact ⟨hbits, hne, hall⟩

/-! ## Boolean computations -/

/-- The node is one of those which the tracker handles. -/
def Logic (g : NodeGraph) (k : ℕ) : Prop := ∃ n, g.vertex k = some n ∧ isLogicOp n.label.op = true

/-- Values of the boolean nodes of one width, at one bit; those of the other nodes are free. -/
def BoolValuation (g : NodeGraph) (w : ℕ) (ρ : ℕ → Bool) : Prop :=
  ∀ k n, g.vertex k = some n → isLogicOp n.label.op = true → n.label.type = .bits w →
    ρ k = boolOp n.label.op (n.operands.map ρ)

/-- A boolean computation over frontier nodes. -/
inductive Expr (g : NodeGraph) (V : List ℕ) : ℕ → Prop
  | frontier {k : ℕ} (h : k ∈ V) : Expr g V k
  | node {k : ℕ} {n : Vertex NodeLabel} (hn : g.vertex k = some n)
      (hop : isLogicOp n.label.op = true) (h : ∀ o ∈ n.operands, Expr g V o) : Expr g V k

/-- The values of the frontier nodes are those of an assignment of the variables. -/
def Assigns (V : List ℕ) (ρ : ℕ → Bool) (t : ℕ) : Prop :=
  ∀ j v, V[j]? = some v → ρ v = (getInitialVector j).get t

/-- The vector of a node: its values for the eight assignments. -/
structure Flows (g : NodeGraph) (w : ℕ) (V : List ℕ) (k : ℕ) (r : Bits) : Prop where
  bitCount : r.bitCount = 8
  get : ∀ t < 8, ∀ ρ, BoolValuation g w ρ → Assigns V ρ t → r.get t = ρ k

/-- The operands of an operation on booleans have its type. -/
theorem boolOp_operands (hg : Verified g) (hn : g.vertex k = some n)
    (hlabel : n.label.op = .logic op) (hbool : IsBoolOp op) : ∃ w,
      n.label.type = .bits w ∧ n.operands ≠ [] ∧ (op = .not → n.operands.length = 1) ∧
      ∀ o ∈ n.operands, g.typeOf o = some (.bits w) := by
  obtain ⟨types, htypes, hverify, -⟩ := Canonicalization.verify_of_vertex hg hn
  have hform : n.label = ⟨.logic op, n.label.type⟩ := by
    rw [← hlabel]
  rw [hform, verifyLabel_bool hbool] at hverify
  obtain ⟨⟨w, hw⟩, hne, hall, hone⟩ := hverify
  refine ⟨w, hw, ?_, ?_, ?_⟩
  · intro hnil
    rw [hnil] at htypes
    cases htypes
    exact hne rfl
  · intro hnot
    rw [htypes.length_eq]
    exact hone hnot
  · intro o ho
    obtain ⟨t, ht⟩ := Relational.exists_of_mapM (typesOf_eq_some.mpr htypes) ho
    have hmem := Relational.mem_of_mapM (typesOf_eq_some.mpr htypes) ho ht
    rw [ht, hall t hmem, hw]

/-- The operands of a node which the tracker handles have its type. -/
theorem logic_operands (hg : Verified g) (hn : g.vertex k = some n)
    (hop : isLogicOp n.label.op = true) : ∃ op w, n.label.op = .logic op ∧ IsBoolOp op ∧
      n.label.type = .bits w ∧ n.operands ≠ [] ∧ (op = .not → n.operands.length = 1) ∧
      ∀ o ∈ n.operands, g.typeOf o = some (.bits w) := by
  obtain ⟨op, hlabel, hbool, -⟩ := isLogicOp_iff.mp hop
  obtain ⟨w, hrest⟩ := boolOp_operands hg hn hlabel hbool
  exact ⟨op, w, hlabel, hbool, hrest⟩

theorem frontierIndex_eq_some (h : frontierIndex V k = some i) :
    V[i]? = some k := of_decide_eq_true (List.find?_eq_some_iff_append.mp h).1

theorem frontierIndex_eq_none (hV : V.length ≤ 3) (h : frontierIndex V k = none) : k ∉ V := by
  intro hmem
  obtain ⟨j, hj⟩ := List.mem_iff_getElem?.mp hmem
  obtain ⟨hlt, -⟩ := List.getElem?_eq_some_iff.mp hj
  have hj3 : j ∈ ([0, 1, 2] : List ℕ) := by
    have : j < 3 := by omega
    interval_cases j <;> decide
  exact List.find?_eq_none.mp h j hj3 (decide_eq_true hj)

theorem getInitialVector_bitCount (j : ℕ) : (getInitialVector j).bitCount = 8 := by
  rcases j with - | - | j <;> rfl

/-- A frontier node has the vector of its variable. -/
theorem flows_frontier (h : V[i]? = some k) : Flows g w V k (getInitialVector i) :=
  ⟨getInitialVector_bitCount i, fun _ _ _ _ hassigns => (hassigns i k h).symm⟩

theorem flows_operands {os : List ℕ} {rs : List Bits} (h : List.Forall₂ (Flows g w V) os rs) :
    (∀ r ∈ rs, r.bitCount = 8) ∧ ∀ t < 8, ∀ ρ, BoolValuation g w ρ → Assigns V ρ t →
      (rs.map fun b => b.get t) = os.map ρ := by
  induction h with
  | nil => exact ⟨(fun r hr => by cases hr), fun _ _ _ _ _ => rfl⟩
  | cons ho _ ih =>
    obtain ⟨hcounts, hvalues⟩ := ih
    refine ⟨?_, ?_⟩
    · intro r hr
      rcases List.mem_cons.mp hr with rfl | hr
      · exact ho.bitCount
      · exact hcounts r hr
    · intro t ht ρ hρ hassigns
      rw [List.map_cons, List.map_cons, ho.get t ht ρ hρ hassigns, hvalues t ht ρ hρ hassigns]

/-- The vector of a node, from those of its operands. -/
theorem flows_node (hg : Verified g) (hn : g.vertex k = some n) (hop : isLogicOp n.label.op = true)
    (hw : n.label.type = .bits w) {rs : List Bits} (hrs : List.Forall₂ (Flows g w V) n.operands rs) :
    ∃ r, runLogicOp n.label.op rs = some r ∧ Flows g w V k r := by
  obtain ⟨op, w', hlabel, hbool, -, hne, hone, -⟩ := logic_operands hg hn hop
  obtain ⟨hcounts, hvalues⟩ := flows_operands hrs
  have hlength := hrs.length_eq
  have hnil : rs ≠ [] := by
    rintro rfl
    exact hne (List.length_eq_zero_iff.mp hlength)
  obtain ⟨r, hr, hcount, hget⟩ := runLogicOp_get hbool hnil hcounts fun h => hlength ▸ hone h
  refine ⟨r, hlabel ▸ hr, hcount, fun t ht ρ hρ hassigns => ?_⟩
  rw [hget t ht, hvalues t ht ρ hρ hassigns, hρ k n hn hop hw, hlabel]

/-! ## The flow -/

/-- The memoized results are vectors of their nodes. -/
def Memoized (g : NodeGraph) (w : ℕ) (V : List ℕ) (memoized : ℕ → Option Bits) : Prop :=
  ∀ k r, memoized k = some r → Flows g w V k r

theorem Memoized.update {memoized : ℕ → Option Bits} {r : Bits} (h : Memoized g w V memoized)
    (hr : Flows g w V k r) : Memoized g w V (Function.update memoized k (some r)) := by
  intro j q hq
  by_cases hj : j = k
  · subst hj
    rw [Function.update_self] at hq
    exact Option.some.inj hq ▸ hr
  · rw [Function.update_of_ne hj] at hq
    exact h j q hq

/-- What a flow to a node may assume and gives. -/
def FlowsTo (g : NodeGraph) (w : ℕ) (V : List ℕ) (rank : ℕ → ℕ) (fuel k : ℕ) : Prop :=
  ∀ memoized, Memoized g w V memoized →
    (∀ r memoized', flowFromFrontierToNode g V fuel memoized k = some (r, memoized') →
      Flows g w V k r ∧ Memoized g w V memoized') ∧
    (rank k < fuel → flowFromFrontierToNode g V fuel memoized k ≠ none)

/-- The loop over the operands. -/
theorem flow_operands {fuel : ℕ} {os : List ℕ} (h : ∀ o ∈ os, FlowsTo g w V rank fuel o)
    (acc : List Bits) (memoized : ℕ → Option Bits) (hmemoized : Memoized g w V memoized) :
    (∀ state, os.foldlM (fun state o => (flowFromFrontierToNode g V fuel state.2 o).map fun r =>
        (state.1 ++ [r.1], r.2)) (acc, memoized) = some state →
      Memoized g w V state.2 ∧ ∃ rs, state.1 = acc ++ rs ∧ List.Forall₂ (Flows g w V) os rs) ∧
    ((∀ o ∈ os, rank o < fuel) →
      os.foldlM (fun state o => (flowFromFrontierToNode g V fuel state.2 o).map fun r =>
        (state.1 ++ [r.1], r.2)) (acc, memoized) ≠ none) := by
  induction os generalizing acc memoized with
  | nil =>
    refine ⟨fun state hstate => ?_, fun _ => Option.some_ne_none _⟩
    obtain rfl := Option.some.inj hstate
    exact ⟨hmemoized, [], (List.append_nil acc).symm, .nil⟩
  | cons o os ih =>
    have hrest : ∀ o ∈ os, FlowsTo g w V rank fuel o := fun o ho =>
      h o (List.mem_cons_of_mem _ ho)
    obtain ⟨hsome, htotal⟩ := h o (List.mem_cons_self ..) memoized hmemoized
    rw [List.foldlM_cons]
    rcases hflow : flowFromFrontierToNode g V fuel memoized o with - | ⟨r, memoized'⟩
    · refine ⟨fun state hstate => ?_, fun hrank => ?_⟩
      · cases hstate
      · exact absurd hflow (htotal (hrank o (List.mem_cons_self ..)))
    · obtain ⟨hr, hmemoized'⟩ := hsome r memoized' hflow
      obtain ⟨ihsome, ihtotal⟩ := ih hrest (acc ++ [r]) memoized' hmemoized'
      refine ⟨fun state hstate => ?_, fun hrank => ?_⟩
      · obtain ⟨hlast, rs, hacc, hrs⟩ := ihsome state hstate
        refine ⟨hlast, r :: rs, ?_, .cons hr hrs⟩
        rw [hacc, List.append_assoc, List.singleton_append]
      · exact ihtotal fun o ho => hrank o (List.mem_cons_of_mem _ ho)

/-- The flow to a boolean computation. -/
theorem flow_spec (hg : Verified g) (hrank : g.Ranks rank) (hV : V.length ≤ 3)
    (fuel : ℕ) (h : Expr g V k) (hk : g.typeOf k = some (.bits w)) : FlowsTo g w V rank fuel k := by
  induction fuel generalizing k with
  | zero =>
    intro memoized _
    exact ⟨(fun r memoized' hflow => by cases hflow), fun hlt => absurd hlt (Nat.not_lt_zero _)⟩
  | succ fuel ih =>
    intro memoized hmemoized
    rw [flowFromFrontierToNode]
    rcases hmemo : memoized k with - | r
    · rcases hindex : frontierIndex V k with - | i
      · -- a node of the computation
        cases h with
        | frontier h => exact absurd h (frontierIndex_eq_none hV hindex)
        | node hn hop h =>
          rename_i n
          obtain ⟨op, w', hlabel, -, hw', -, -, htypes⟩ := logic_operands hg hn hop
          obtain rfl : w' = w := by
            rw [Canonicalization.typeOf_of_vertex hn, hw'] at hk
            exact Ty.bits.inj (Option.some.inj hk)
          have hoperands : ∀ o ∈ n.operands, FlowsTo g w' V rank fuel o := fun o ho =>
            ih (h o ho) (htypes o ho)
          obtain ⟨hsome, htotal⟩ := flow_operands hoperands [] memoized hmemoized
          simp only [hn]
          rcases hloop : n.operands.foldlM (fun state o =>
            (flowFromFrontierToNode g V fuel state.2 o).map fun r =>
              (state.1 ++ [r.1], r.2)) (([] : List Bits), memoized) with - | state
          · rw [hloop]
            refine ⟨(fun r memoized' hflow => by cases hflow), fun hlt => ?_⟩
            refine absurd hloop (htotal fun o ho => ?_)
            have := hrank k n hn o ho
            omega
          · obtain ⟨hlast, rs, hacc, hrs⟩ := hsome state hloop
            obtain ⟨r, hr, hflows⟩ := flows_node hg hn hop hw' hrs
            have hstate : runLogicOp n.label.op state.1 = some r := by
              rw [hacc, List.nil_append, hr]
            rw [hloop]
            simp only [Option.bind_eq_bind, Option.bind_some, hstate]
            refine ⟨fun r' memoized' hflow => ?_, fun _ => Option.some_ne_none _⟩
            obtain ⟨rfl, rfl⟩ := Prod.mk.inj (Option.some.inj hflow)
            exact ⟨hflows, hlast.update hflows⟩
      · have hflows : Flows g w V k (getInitialVector i) :=
          flows_frontier (frontierIndex_eq_some hindex)
        refine ⟨fun r memoized' hflow => ?_, fun _ => Option.some_ne_none _⟩
        obtain ⟨rfl, rfl⟩ := Prod.mk.inj (Option.some.inj hflow)
        exact ⟨hflows, hmemoized.update hflows⟩
    · refine ⟨fun r' memoized' hflow => ?_, fun _ => Option.some_ne_none _⟩
      obtain ⟨rfl, rfl⟩ := Prod.mk.inj (Option.some.inj hflow)
      exact ⟨hmemoized k r hmemo, hmemoized⟩

/-! ## Assignments -/

/-- The values of the boolean nodes, from those of the other ones. -/
def evalBool (g : NodeGraph) (β : ℕ → Bool) : ℕ → ℕ → Bool
  | 0, k => β k
  | fuel + 1, k =>
    match g.vertex k with
    | some n => if isLogicOp n.label.op then boolOp n.label.op (n.operands.map (evalBool g β fuel))
      else β k
    | none => β k

theorem evalBool_of_not_logic {β : ℕ → Bool} (h : ¬ Logic g k) (fuel : ℕ) :
    evalBool g β fuel k = β k := by
  cases fuel with
  | zero => rfl
  | succ fuel =>
    rw [evalBool]
    split
    · rename_i n hn
      rw [if_neg fun hop => h ⟨n, hn, hop⟩]
    · rfl

/-- Enough fuel makes no difference. -/
theorem evalBool_stable {β : ℕ → Bool} (hrank : g.Ranks rank) {fuel fuel' : ℕ}
    (h : rank k < fuel) (h' : rank k < fuel') : evalBool g β fuel k = evalBool g β fuel' k := by
  induction fuel generalizing k fuel' with
  | zero => exact absurd h (Nat.not_lt_zero _)
  | succ fuel ih =>
    cases fuel' with
    | zero => exact absurd h' (Nat.not_lt_zero _)
    | succ fuel' =>
      rw [evalBool, evalBool]
      rcases hn : g.vertex k with - | n
      · rfl
      · have hmap : n.operands.map (evalBool g β fuel) = n.operands.map (evalBool g β fuel') := by
          apply List.map_congr_left
          intro o ho
          have hlt := hrank k n hn o ho
          exact ih (by omega) (by omega)
        simp only [hmap]

/-- Every assignment of the other nodes has values. -/
theorem evalBool_spec (hrank : g.Ranks rank)
    (β : ℕ → Bool) : ∃ ρ, (∀ w, BoolValuation g w ρ) ∧ ∀ k, ¬ Logic g k → ρ k = β k := by
  refine ⟨fun k => evalBool g β (rank k + 1) k, ?_, fun k hk => evalBool_of_not_logic hk _⟩
  intro w k n hn hop _
  show evalBool g β (rank k + 1) k = _
  rw [evalBool, hn]
  simp only [hop, if_true]
  congr 1
  apply List.map_congr_left
  intro o ho
  exact evalBool_stable hrank (hrank k n hn o ho) (Nat.lt_succ_self _)

/-- Each assignment of three variables is one of the eight. -/
theorem exists_assignment : ∀ b c d : Bool, ∃ t < 8, (getInitialVector 0).get t = b ∧
    (getInitialVector 1).get t = c ∧ (getInitialVector 2).get t = d := by
  decide

theorem exists_assigns (hV : V.length ≤ 3) (ρ : ℕ → Bool) : ∃ t < 8, Assigns V ρ t := by
  obtain ⟨t, ht, h0, h1, h2⟩ :=
    exists_assignment (ρ (V.getD 0 0)) (ρ (V.getD 1 0)) (ρ (V.getD 2 0))
  refine ⟨t, ht, fun j v hj => ?_⟩
  obtain ⟨hlt, hget⟩ := List.getElem?_eq_some_iff.mp hj
  have hv : v = V.getD j 0 := by
    rw [List.getD_eq_getElem _ _ hlt, hget]
  have hj3 : j < 3 := by omega
  interval_cases j
  · rw [h0, hv]
  · rw [h1, hv]
  · rw [h2, hv]

/-- Each of the eight assignments of frontier nodes has values. -/
theorem exists_values (hrank : g.Ranks rank)
    (hV : V.Nodup) (hfrontier : ∀ v ∈ V, ¬ Logic g v) (t : ℕ) :
    ∃ ρ, (∀ w, BoolValuation g w ρ) ∧ Assigns V ρ t := by
  obtain ⟨ρ, hρ, hβ⟩ := evalBool_spec hrank fun k => (getInitialVector (V.idxOf k)).get t
  refine ⟨ρ, hρ, fun j v hj => ?_⟩
  obtain ⟨hlt, hget⟩ := List.getElem?_eq_some_iff.mp hj
  rw [hβ v (hfrontier v (List.mem_of_getElem? hj)), ← hget, hV.idxOf_getElem j hlt]

theorem all_ones_iff : ∀ {value : ℕ} (h : value < 2 ^ 8),
    (Bits.mk 8 value h).isAllOnes = true ↔ ∀ t < 8, (Bits.mk 8 value h).get t = true := by
  decide +kernel

theorem isAllOnes_iff_get {r : Bits} (h : r.bitCount = 8) :
    r.isAllOnes = true ↔ ∀ t < 8, r.get t = true := by
  obtain ⟨count, value, hlt⟩ := r
  obtain rfl : count = 8 := h
  exact all_ones_iff hlt

/-- The computation of a node is true for all values. -/
def Tautology (g : NodeGraph) (k : ℕ) : Prop :=
  ∀ ρ, (∀ w, BoolValuation g w ρ) → ρ k = true

/-- A vector is all ones for a computation which is always true. -/
theorem Flows.isAllOnes_iff {r : Bits} (h : Flows g w V k r) (hrank : g.Ranks rank) (hV : V.Nodup)
    (hlength : V.length ≤ 3) (hfrontier : ∀ v ∈ V, ¬ Logic g v) :
    r.isAllOnes = true ↔ Tautology g k := by
  rw [isAllOnes_iff_get h.bitCount]
  constructor
  · intro hones ρ hρ
    obtain ⟨t, ht, hassigns⟩ := exists_assigns hlength ρ
    rw [← h.get t ht ρ (hρ w) hassigns, hones t ht]
  · intro htrue t ht
    obtain ⟨ρ, hρ, hassigns⟩ := exists_values hrank hV hfrontier t
    rw [h.get t ht ρ (hρ w) hassigns, htrue ρ hρ]

end BooleanSimplification

end Xls
