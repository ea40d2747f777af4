/-
# Replacements of boolean computations

What `ResolveTruthTable` makes for a truth table has, at every bit, the value of the table.  The
operations it makes are left alone when they are visited: their own table is the same operation on
the variables which are there, and `MatchesSymmetrical` knows it.

* `resolve_spec` : the new nodes and the value of the replacement;
* `resolve_operation` : an operation which was made is not replaced.
-/
import Xls.Passes.BooleanFlow

namespace Xls

namespace BooleanSimplification

open NodeGraph TruthTable
open Canonicalization (literalNode bitCountOrDie)

variable {env : Env} {g g' : NodeGraph} {n : Vertex NodeLabel} {i k w L : ℕ} {V : List ℕ}
  {val : ℕ → Value}

/-! ## Values for free frontiers -/

/-- The nodes which the tracker handles and the nodes from a position on have their values; those
of the other nodes are free. -/
structure FreeValuation (env : Env) (g : NodeGraph) (L : ℕ) (val : ℕ → Value) : Prop where
  type : ∀ k n, g.vertex k = some n → (val k).conformsToType n.label.type = true
  value : ∀ k n, g.vertex k = some n → isLogicOp n.label.op = true ∨ L ≤ k →
    evalLabel env k n.label (n.operands.map val) = some (val k)

/-- The bit of a value at a position. -/
def bitAt (v : Value) (p : ℕ) : Bool :=
  match v with
  | .bits b => b.get p
  | _ => false

theorem FreeValuation.bits (h : FreeValuation env g L val) (hk : g.typeOf k = some (.bits w)) :
    ∃ b, val k = .bits b ∧ b.bitCount = w := by
  obtain ⟨n, hn, htype⟩ := Option.map_eq_some_iff.mp hk
  have hconforms := h.type k n hn
  rw [htype] at hconforms
  exact Value.asBits_of_conforms hconforms

variable {os js : List ℕ} {p j o : ℕ} {op : LogicOp} {t : TruthTable} {key : Bits} {rank : ℕ → ℕ}

/-- The words of nodes of one width. -/
theorem exists_words (hos : ∀ o ∈ os, ∃ b, val o = .bits b ∧ b.bitCount = w) (p : ℕ) :
    ∃ bs : List Bits, os.map val = bs.map .bits ∧ (∀ b ∈ bs, b.bitCount = w) ∧
      bs.length = os.length ∧ (bs.map fun b => b.get p) = os.map fun o => bitAt (val o) p := by
  induction os with
  | nil => exact ⟨[], rfl, (fun b hb => by cases hb), rfl, rfl⟩
  | cons o os ih =>
    obtain ⟨b, hb, hcount⟩ := hos o (List.mem_cons_self ..)
    obtain ⟨bs, hbs, hcounts, hlength, hbits⟩ := ih fun o ho => hos o (List.mem_cons_of_mem _ ho)
    refine ⟨b :: bs, ?_, ?_, ?_, ?_⟩
    · rw [List.map_cons, List.map_cons, hb, hbs]
    · intro c hc
      rcases List.mem_cons.mp hc with rfl | hc
      · exact hcount
      · exact hcounts c hc
    · rw [List.length_cons, List.length_cons, hlength]
    · rw [List.map_cons, List.map_cons, hbits, hb]
      rfl

/-- The bits of an operation on operands of one width. -/
theorem FreeValuation.bitAt_operation (h : FreeValuation env g L val) (hn : g.vertex k = some n)
    (hlabel : n.label.op = .logic op) (hop : IsBoolOp op)
    (hvalue : isLogicOp n.label.op = true ∨ L ≤ k) (hne : n.operands ≠ [])
    (hone : op = .not → n.operands.length = 1)
    (hoperands : ∀ o ∈ n.operands, g.typeOf o = some (.bits w)) (hp : p < w) :
    bitAt (val k) p = boolOp (.logic op) (n.operands.map fun o => bitAt (val o) p) := by
  obtain ⟨bs, hbs, hcounts, hlength, hbits⟩ :=
    exists_words (fun o ho => h.bits (hoperands o ho)) p
  have hnil : bs ≠ [] := by
    rintro rfl
    exact hne (List.length_eq_zero_iff.mp hlength.symm)
  have honeBits : op = .not → bs.length = 1 := fun hnot => hlength.trans (hone hnot)
  obtain ⟨b, hb, -, hget⟩ := runLogicOp_get hop hnil hcounts honeBits
  have heval := h.value k n hn hvalue
  have hform : n.label = ⟨.logic op, n.label.type⟩ := by
    rw [← hlabel]
  rw [hform, hbs, evalLabel_bool hop _ _ honeBits, hb] at heval
  rw [← Option.some.inj heval, ← hbits, ← hget p hp]
  rfl

/-- An operation on words of one width has a value. -/
theorem evalLabel_total (env : Env) (k : ℕ) (hop : IsBoolOp op) {bs : List Bits} (hne : bs ≠ [])
    (hw : ∀ b ∈ bs, b.bitCount = w) (hone : op = .not → bs.length = 1) :
    ∃ r, evalLabel env k ⟨.logic op, .bits w⟩ (bs.map .bits) = some (.bits r) ∧ r.bitCount = w := by
  obtain ⟨r, hr, hcount, -⟩ := runLogicOp_get hop hne hw hone
  refine ⟨r, ?_, hcount⟩
  rw [evalLabel_bool hop _ _ hone, hr]
  rfl

/-- The bits at one position are values of the boolean nodes. -/
theorem FreeValuation.boolValuation (hg : Verified g) (h : FreeValuation env g L val) (hp : p < w) :
    BoolValuation g w fun k => bitAt (val k) p := by
  intro k n hn hop hw
  obtain ⟨op, w', hlabel, hbool, hw', hne, hone, htypes⟩ := logic_operands hg hn hop
  obtain rfl : w = w' := Ty.bits.inj (hw.symm.trans hw')
  rw [hlabel]
  exact h.bitAt_operation hn hlabel hbool (Or.inl hop) hne hone htypes hp

theorem eq_of_get {a b : Bits} (hw : a.bitCount = b.bitCount)
    (h : ∀ p < a.bitCount, a.get p = b.get p) : a = b := by
  refine Bits.ext hw (Nat.eq_of_testBit_eq fun p => ?_)
  rcases lt_or_ge p a.bitCount with hp | hp
  · exact h p hp
  · have hle : 2 ^ a.bitCount ≤ 2 ^ p := Nat.pow_le_pow_right (by decide) hp
    rw [Nat.testBit_lt_two_pow (a.isLt.trans_le hle),
      Nat.testBit_lt_two_pow (b.isLt.trans_le (hw ▸ hle))]

/-- Two nodes of one width have one value when they have the same bits. -/
theorem FreeValuation.eq_of_bitAt (h : FreeValuation env g L val)
    (hi : g.typeOf i = some (.bits w)) (hr : g.typeOf r = some (.bits w))
    (hbits : ∀ p < w, bitAt (val i) p = bitAt (val r) p) : val i = val r := by
  obtain ⟨a, ha, rfl⟩ := h.bits hi
  obtain ⟨b, hb, hcount⟩ := h.bits hr
  rw [ha, hb] at hbits ⊢
  rw [eq_of_get hcount.symm hbits]

/-! ## Values of tables -/

/-- A variable or its negation. -/
def literalBool (negated value : Bool) : Bool := if negated then !value else value

theorem operandVector_spec (t : TruthTable) (j : ℕ) : (t.operandVector j).bitCount = 8 ∧
    ∀ s < 8, (t.operandVector j).get s =
      literalBool (t.negated j) ((getInitialVector j).get s) := by
  unfold operandVector literalBool
  split_ifs
  · refine ⟨getInitialVector_bitCount j, fun s hs => ?_⟩
    rw [not_get]
    rw [getInitialVector_bitCount]
    exact hs
  · exact ⟨getInitialVector_bitCount j, fun s _ => rfl⟩

theorem runNaryOp_eq (hop : op ∈ kLogicOps) (bs : List Bits) :
    runNaryOp op bs = runLogicOp (.logic op) bs := by
  simp only [kLogicOps, List.mem_cons, List.not_mem_nil, or_false] at hop
  rcases hop with rfl | rfl | rfl | rfl | rfl <;> rfl

/-- The vector of a table of an operation. -/
theorem computeTruthTable_get {bits : Bits} (hop : op ∈ kLogicOps) (ht : t.logicalOp = some op)
    (hne : t.presentVariables ≠ []) (h : t.computeTruthTable = some bits) :
    bits.bitCount = 8 ∧ ∀ s < 8, bits.get s = boolOp (.logic op) (t.presentVariables.map fun j =>
        literalBool (t.negated j) ((getInitialVector j).get s)) := by
  have hcompute : t.computeTruthTable =
      runLogicOp (.logic op) (t.presentVariables.map t.operandVector) := by
    rw [computeTruthTable, ht, ← runNaryOp_eq hop]
  have hcounts : ∀ b ∈ t.presentVariables.map t.operandVector, b.bitCount = 8 := by
    intro b hb
    obtain ⟨j, -, rfl⟩ := List.mem_map.mp hb
    exact (operandVector_spec t j).1
  have hnot : op ≠ .not := by
    rintro rfl
    exact absurd hop (by decide)
  obtain ⟨b, hb, hcount, hget⟩ := runLogicOp_get (Or.inr hop)
    (fun hnil => hne (List.map_eq_nil_iff.mp hnil)) hcounts fun h => absurd h hnot
  obtain rfl : bits = b := Option.some.inj (h.symm.trans (hcompute.trans hb))
  refine ⟨hcount, fun s hs => ?_⟩
  rw [hget s hs, List.map_map]
  congr 1
  apply List.map_congr_left
  intro j _
  exact (operandVector_spec t j).2 s hs

/-- The vector of a table of one variable. -/
theorem computeTruthTable_single {bits : Bits} (ht : t.logicalOp = none)
    (hj : t.presentVariables = [j]) (h : t.computeTruthTable = some bits) : ∀ s < 8, bits.get s =
      literalBool (t.negated j) ((getInitialVector j).get s) := by
  have hcompute : t.computeTruthTable = some (t.operandVector j) := by
    rw [computeTruthTable, ht, hj]
    rfl
  obtain rfl := Option.some.inj (h.symm.trans hcompute)
  exact (operandVector_spec t j).2

/-! ## New nodes -/

/-- Frontier nodes of one width. -/
structure FrontierNodes (g : NodeGraph) (L w : ℕ) (V : List ℕ) : Prop where
  nodup : V.Nodup
  length : V.length ≤ 3
  lt : ∀ v ∈ V, v < L
  notLogic : ∀ v ∈ V, ¬ Logic g v
  type : ∀ v ∈ V, g.typeOf v = some (.bits w)

/-- The node for a variable of a table: the frontier node, or a new negation of it. -/
def VariableNode (g : NodeGraph) (L w : ℕ) (V : List ℕ) (t : TruthTable) (j o : ℕ) : Prop :=
  ∃ v, V[j]? = some v ∧
    if t.negated j then L ≤ o ∧ g.vertex o = some ⟨⟨.logic .not, .bits w⟩, [v]⟩ else o = v

/-- The nodes which are made for truth tables. -/
inductive NewNode (g : NodeGraph) (L : ℕ) (n : Vertex NodeLabel) : Prop
  | literal (b : Bits) (hn : n = literalNode b)
  | negation (w v : ℕ) (hn : n = ⟨⟨.logic .not, .bits w⟩, [v]⟩) (hlt : v < L)
      (hlogic : ¬ Logic g v)
  | operation (t : TruthTable) (op : LogicOp) (w : ℕ) (V : List ℕ)
      (hlabel : n.label = ⟨.logic op, .bits w⟩) (ht : t ∈ truthTables)
      (hcanonical : isCanonical t = true) (hop : t.logicalOp = some op)
      (hV : FrontierNodes g L w V)
      (hoperands : List.Forall₂ (VariableNode g L w V t) t.presentVariables n.operands)

/-- The graph with some nodes which are made for truth tables. -/
structure Made (L : ℕ) (g g' : NodeGraph) : Prop where
  verified : Verified g'
  le : g.length ≤ g'.length
  old : ∀ k < g.length, g'.vertex k = g.vertex k
  new : ∀ k n, g.length ≤ k → g'.vertex k = some n →
    NewNode g' L n ∧ ∀ o ∈ n.operands, o < k

theorem logic_of_old (hold : ∀ k < g.length, g'.vertex k = g.vertex k) (hk : k < g.length) :
    Logic g' k ↔ Logic g k := by
  rw [Logic, Logic, hold k hk]

theorem typeOf_of_old (hold : ∀ k < g.length, g'.vertex k = g.vertex k) (hk : k < g.length) :
    g'.typeOf k = g.typeOf k := by
  rw [typeOf, typeOf, hold k hk]

theorem FrontierNodes.mono (h : FrontierNodes g L w V) (hL : L ≤ g.length)
    (hold : ∀ k < g.length, g'.vertex k = g.vertex k) : FrontierNodes g' L w V := by
  refine ⟨h.nodup, h.length, h.lt, fun v hv => ?_, fun v hv => ?_⟩
  · rw [logic_of_old hold ((h.lt v hv).trans_le hL)]
    exact h.notLogic v hv
  · rw [typeOf_of_old hold ((h.lt v hv).trans_le hL), h.type v hv]

theorem VariableNode.mono (h : VariableNode g L w V t j o)
    (hold : ∀ k < g.length, g'.vertex k = g.vertex k) : VariableNode g' L w V t j o := by
  obtain ⟨v, hv, ho⟩ := h
  refine ⟨v, hv, ?_⟩
  split_ifs at ho ⊢
  · refine ⟨ho.1, ?_⟩
    rw [hold o (TermGraph.lt_length_of_vertex ho.2), ho.2]
  · exact ho

theorem NewNode.mono (h : NewNode g L n) (hL : L ≤ g.length)
    (hold : ∀ k < g.length, g'.vertex k = g.vertex k) : NewNode g' L n := by
  cases h with
  | literal b hn => exact .literal b hn
  | negation w v hn hlt hlogic =>
    refine .negation w v hn hlt ?_
    rw [logic_of_old hold (hlt.trans_le hL)]
    exact hlogic
  | operation t op w V hlabel ht hcanonical hop hV hoperands =>
    exact .operation t op w V hlabel ht hcanonical hop (hV.mono hL hold)
      (hoperands.imp fun j o ho => ho.mono hold)

theorem Made.refl (hg : Verified g) : Made L g g :=
  ⟨hg, le_rfl, fun _ _ => rfl, fun _ _ hk hn =>
    absurd (TermGraph.lt_length_of_vertex hn) (not_lt.mpr hk)⟩

theorem Made.trans {g'' : NodeGraph} (h : Made L g g') (h' : Made L g' g'') (hL : L ≤ g.length) :
    Made L g g'' := by
  refine ⟨h'.verified, h.le.trans h'.le, fun k hk => ?_, fun k n hk hn => ?_⟩
  · rw [h'.old k (hk.trans_le h.le), h.old k hk]
  · rcases lt_or_ge k g'.length with hlt | hge
    · rw [h'.old k hlt] at hn
      obtain ⟨hnew, hoperands⟩ := h.new k n hk hn
      exact ⟨hnew.mono (hL.trans h.le) h'.old, hoperands⟩
    · exact h'.new k n hge hn

/-- One new node. -/
theorem Made.make (hg : Verified g) (hverify : g.verifyVertex n = true)
    (hnew : NewNode (g.make n) L n) : Made L g (g.make n) := by
  refine ⟨hg.make hverify, ?_, fun k hk => TermGraph.vertex_make_of_ne hk.ne, fun k m hk hm => ?_⟩
  · rw [TermGraph.length_make]
    exact Nat.le_succ _
  · have hlt := TermGraph.lt_length_of_vertex hm
    rw [TermGraph.length_make] at hlt
    obtain rfl : k = g.length := by omega
    rw [TermGraph.vertex_make_length, Option.some.injEq] at hm
    subst hm
    exact ⟨hnew, lt_length_of_verifyVertex hverify⟩

theorem makeNode_of_verify (h : g.verifyVertex n = true) :
    makeNode g n = some (g.make n, g.length) := if_pos h

/-- A new operation on nodes of one width. -/
theorem verify_operation (hop : IsBoolOp op) (hne : os ≠ [])
    (hos : ∀ o ∈ os, g.typeOf o = some (.bits w)) (hone : op = .not → os.length = 1)
    (hlength : os.length < 2 ^ 64) : g.verifyVertex ⟨⟨.logic op, .bits w⟩, os⟩ = true := by
  refine verifyVertex_iff.mpr ⟨List.replicate os.length (.bits w),
    Canonicalization.forall₂_typeOf hos, (verifyLabel_bool hop).mpr ⟨⟨w, rfl⟩, ?_, ?_, ?_⟩, hlength⟩
  · intro hnil
    exact hne (List.length_eq_zero_iff.mp ((List.replicate_eq_nil_iff _).mp hnil))
  · intro t ht
    exact List.eq_of_mem_replicate ht
  · rw [List.length_replicate]
    exact hone

/-- The new nodes only use each other and frontier nodes. -/
abbrev OnFrontier (V : List ℕ) (g g' : NodeGraph) : Prop :=
  TermGraph.Extends (fun _ => True) (fun o => o ∈ V) g g'

theorem OnFrontier.append {g'' : NodeGraph} (h : OnFrontier V g g') (h' : OnFrontier V g' g'') :
    OnFrontier V g g'' := TermGraph.Extends.trans h h' fun _ ho => Or.inl ho

/-- One round of the loop over the variables. -/
theorem addOperand_spec {acc : List ℕ} {v : ℕ} (hg : Verified g) (hL : L ≤ g.length)
    (hV : FrontierNodes g L w V) (hv : V[j]? = some v) :
    ∃ g' o, addOperand t V (g, acc) j = some (g', acc ++ [o]) ∧ Made L g g' ∧
      OnFrontier V g g' ∧ g'.length ≤ g.length + 1 ∧ VariableNode g' L w V t j o ∧
      g'.typeOf o = some (.bits w) ∧ (o ∈ V ∨ g.length ≤ o) := by
  have hmem := List.mem_of_getElem? hv
  by_cases hnegated : t.negated j = true
  · have hverify : g.verifyVertex ⟨⟨.logic .not, .bits w⟩, [v]⟩ = true := by
      refine verify_operation (Or.inl rfl) (List.cons_ne_nil _ _) ?_ (fun _ => rfl)
        (show 1 < 2 ^ 64 by decide)
      intro o ho
      rw [List.mem_singleton.mp ho]
      exact hV.type v hmem
    have hold : ∀ k < g.length, TermGraph.vertex (g.make ⟨⟨.logic .not, .bits w⟩, [v]⟩) k =
        g.vertex k := fun k hk => TermGraph.vertex_make_of_ne hk.ne
    refine ⟨_, g.length, ?_, .make hg hverify (.negation w v rfl (hV.lt v hmem) ?_),
      .make trivial ?_, ?_, ?_, ?_⟩
    · rw [addOperand, hv, Option.bind_eq_bind, Option.bind_some, if_pos hnegated]
      show (g.typeOf v).bind _ = _
      rw [hV.type v hmem, Option.bind_some, makeNode_of_verify hverify]
      rfl
    · rw [logic_of_old hold ((hV.lt v hmem).trans_le hL)]
      exact hV.notLogic v hmem
    · intro o ho
      rw [List.mem_singleton.mp ho]
      exact ⟨(hV.lt v hmem).trans_le hL, hmem⟩
    · rw [TermGraph.length_make]
    · refine ⟨v, hv, ?_⟩
      rw [if_pos hnegated]
      exact ⟨hL, TermGraph.vertex_make_length⟩
    · exact ⟨typeOf_make_length, Or.inr le_rfl⟩
  · refine ⟨g, v, ?_, .refl hg, .refl _ _ g, Nat.le_succ _, ⟨v, hv, ?_⟩, hV.type v hmem,
      Or.inl hmem⟩
    · rw [addOperand, hv, Option.bind_eq_bind, Option.bind_some, if_neg hnegated]
    · rw [if_neg hnegated]

/-- The loop over the variables. -/
theorem addOperands_spec {acc : List ℕ} (hg : Verified g) (hL : L ≤ g.length)
    (hV : FrontierNodes g L w V) (hjs : ∀ j ∈ js, j < V.length) :
    ∃ g' os, js.foldlM (addOperand t V) (g, acc) = some (g', acc ++ os) ∧ Made L g g' ∧
      OnFrontier V g g' ∧ g'.length ≤ g.length + js.length ∧
      List.Forall₂ (VariableNode g' L w V t) js os ∧
      ∀ o ∈ os, g'.typeOf o = some (.bits w) ∧ (o ∈ V ∨ g.length ≤ o) := by
  induction js generalizing g acc with
  | nil =>
    refine ⟨g, [], ?_, .refl hg, .refl _ _ g, le_rfl, .nil, fun o ho => by cases ho⟩
    rw [List.append_nil]
    rfl
  | cons j js ih =>
    have hj := hjs j (List.mem_cons_self ..)
    obtain ⟨g₁, o, hstep, hmade, huses, hlength, ho, htype, hmem⟩ :=
      addOperand_spec hg hL hV (List.getElem?_eq_getElem hj)
    obtain ⟨g', os, hloop, hmade', huses', hlength', hos, htypes⟩ :=
      ih hmade.verified (hL.trans hmade.le) (hV.mono hL hmade.old)
        fun j hj => hjs j (List.mem_cons_of_mem _ hj)
    refine ⟨g', o :: os, ?_, hmade.trans hmade' hL, huses.append huses', ?_,
      .cons (ho.mono hmade'.old) hos, ?_⟩
    · rw [List.foldlM_cons, hstep, Option.bind_eq_bind, Option.bind_some, hloop,
        List.append_assoc, List.singleton_append]
    · rw [List.length_cons]
      omega
    · intro o' ho'
      rcases List.mem_cons.mp ho' with rfl | ho'
      · refine ⟨?_, hmem⟩
        rw [typeOf_of_old hmade'.old (lt_length_of_typeOf htype), htype]
      · exact (htypes o' ho').imp_right fun h => h.imp_right hmade.le.trans

/-! ## Replacements -/

/-- New nodes, and a node with the value of the original. -/
structure Replacement (L : ℕ) (V : List ℕ) (g : NodeGraph) (i : ℕ) (g' : NodeGraph) (r : ℕ) :
    Prop where
  made : Made L g g'
  uses : OnFrontier V g g'
  node : r ∈ V ∨ g.length ≤ r
  length : g'.length ≤ g.length + 4
  type : g'.typeOf r = g.typeOf i
  value : ∀ env val, FreeValuation env g' L val → val i = val r

/-- The values of the nodes of the graph before the new ones. -/
theorem FreeValuation.of_made (h : FreeValuation env g' L val) (hmade : Made L g g') :
    FreeValuation env g L val := by
  constructor
  · intro k n hn
    refine h.type k n ?_
    rw [hmade.old k (TermGraph.lt_length_of_vertex hn), hn]
  · intro k n hn
    refine h.value k n ?_
    rw [hmade.old k (TermGraph.lt_length_of_vertex hn), hn]

/-- The bit of the node for a variable. -/
theorem VariableNode.bitAt (h : VariableNode g L w V t j o) (hval : FreeValuation env g L val)
    (hV : FrontierNodes g L w V) (hp : p < w) :
    ∃ v, V[j]? = some v ∧
      bitAt (val o) p = literalBool (t.negated j) (BooleanSimplification.bitAt (val v) p) := by
  obtain ⟨v, hv, ho⟩ := h
  refine ⟨v, hv, ?_⟩
  unfold literalBool
  split_ifs at ho ⊢
  · obtain ⟨hle, hvertex⟩ := ho
    refine (hval.bitAt_operation hvertex rfl (Or.inl rfl) (Or.inr hle) (List.cons_ne_nil _ _)
      (fun _ => rfl) ?_ hp).trans rfl
    intro o ho
    rw [List.mem_singleton.mp ho]
    exact hV.type v (List.mem_of_getElem? hv)
  · rw [ho]

variable (h : List.Forall₂ (VariableNode g L w V t) js os)

include h in
theorem variableNodes_bitAt {s : ℕ} (hval : FreeValuation env g L val) (hV : FrontierNodes g L w V)
    (hp : p < w) (hassigns : Assigns V (fun k => BooleanSimplification.bitAt (val k) p) s) :
    (os.map fun o => bitAt (val o) p) =
      js.map fun j => literalBool (t.negated j) ((getInitialVector j).get s) := by
  induction h with
  | nil => rfl
  | cons ho _ ih =>
    obtain ⟨v, hv, hbit⟩ := ho.bitAt hval hV hp
    have hassign : BooleanSimplification.bitAt (val v) p = _ := hassigns _ v hv
    rw [List.map_cons, List.map_cons, ih, hbit, hassign]

/-- The assignment which a valuation makes at one position. -/
theorem Flows.bitAt (h : Flows g w V i key) (hg : Verified g) (hval : FreeValuation env g L val)
    (hV : V.length ≤ 3) (hp : p < w) :
    ∃ s < 8, Assigns V (fun k => bitAt (val k) p) s ∧
      key.get s = BooleanSimplification.bitAt (val i) p := by
  obtain ⟨s, hs, hassigns⟩ := exists_assigns hV fun k => BooleanSimplification.bitAt (val k) p
  exact ⟨s, hs, hassigns, h.get s hs _ (hval.boolValuation hg hp) hassigns⟩

/-- A new literal all of whose bits are those of the table. -/
theorem replacement_literal {b : Bits} (hg : Verified g) (hi : g.typeOf i = some (.bits w))
    (hflows : Flows g w V i key) (hV : V.length ≤ 3) (hL : L ≤ g.length) (hb : b.bitCount = w)
    {c : Bool} (hkey : ∀ s < 8, key.get s = c) (hget : ∀ p < w, b.get p = c) :
    ∃ g', makeNode g (literalNode b) = some (g', g.length) ∧ Replacement L V g i g' g.length := by
  have hverify : g.verifyVertex (literalNode b) = true :=
    verifyVertex_iff.mpr ⟨[], .nil, NodeBuilder.conforms_bits b, Nat.two_pow_pos 64⟩
  have hmade : Made L g (g.make (literalNode b)) := .make hg hverify (.literal b rfl)
  refine ⟨_, makeNode_of_verify hverify, hmade, .make trivial (fun o ho => by cases ho),
    Or.inr le_rfl, ?_, ?_, ?_⟩
  · rw [TermGraph.length_make]
    omega
  · rw [Canonicalization.typeOf_literalNode, hi, hb]
  · intro env val hval
    have hlt := lt_length_of_typeOf hi
    have hval' := hval.of_made hmade
    refine hval.eq_of_bitAt (w := w) ?_ ?_ fun p hp => ?_
    · rw [typeOf_of_old hmade.old hlt, hi]
    · rw [Canonicalization.typeOf_literalNode, hb]
    · obtain ⟨s, hs, -, hkeyAt⟩ := hflows.bitAt hg hval' hV hp
      have hliteral : val g.length = .bits b := by
        have heval := hval.value g.length _ TermGraph.vertex_make_length (Or.inr hL)
        exact (Option.some.inj heval).symm
      rw [← hkeyAt, hkey s hs, hliteral]
      exact (hget p hp).symm

/-- The replacement by a table. -/
theorem createReplacement_spec (hg : Verified g) (hi : g.typeOf i = some (.bits w))
    (hflows : Flows g w V i key) (hV : FrontierNodes g L w V) (hL : L ≤ g.length)
    (ht : findTable key = some t) (hcanonical : isCanonical t = true)
    (hpresent : ∀ j ∈ t.presentVariables, j < V.length) :
    ∃ g' r, createReplacement t g V = some (g', r) ∧ Replacement L V g i g' r := by
  obtain ⟨hmem, hkey⟩ := mem_truthTables ht
  have hlt := lt_length_of_typeOf hi
  obtain ⟨g₁, os, hloop, hmade, huses, hlength, hos, hnodes⟩ :=
    addOperands_spec hg hL hV hpresent
  have htypes : ∀ o ∈ os, g₁.typeOf o = some (.bits w) := fun o ho => (hnodes o ho).1
  have hle := hmade.le
  rcases truthTables_shape t hmem with ⟨hop, hshape⟩ | ⟨⟨op, hopMem, hop⟩, hshape⟩
  · -- a frontier node or its negation
    obtain ⟨j, hj⟩ : ∃ j, t.presentVariables = [j] := by
      rcases hshape with h | h | h <;> exact ⟨_, h⟩
    rw [hj] at hos hlength
    obtain ⟨o, ho, rfl⟩ : ∃ o, VariableNode g₁ L w V t j o ∧ os = [o] := by
      cases hos with
      | cons ho hnil =>
        cases hnil
        exact ⟨_, ho, rfl⟩
    refine ⟨g₁, o, ?_, hmade, huses, ?_, ?_, ?_, ?_⟩
    · rw [createReplacement, hloop, hop]
      rfl
    · exact (hnodes o (List.mem_singleton.mpr rfl)).2
    · rw [List.length_singleton] at hlength
      omega
    · rw [htypes o (List.mem_singleton.mpr rfl), hi]
    · intro env val hval
      have hval' := hval.of_made hmade
      refine hval.eq_of_bitAt (w := w) ?_ (htypes o (List.mem_singleton.mpr rfl)) fun p hp => ?_
      · rw [typeOf_of_old hmade.old hlt, hi]
      · obtain ⟨s, hs, hassigns, hkeyAt⟩ := hflows.bitAt hg hval' hV.length hp
        obtain ⟨v, hv, hbit⟩ := ho.bitAt hval (hV.mono hL hmade.old) hp
        have hassign : BooleanSimplification.bitAt (val v) p = (getInitialVector j).get s :=
          hassigns j v hv
        rw [← hkeyAt, computeTruthTable_single hop hj hkey s hs, hbit, hassign]
  · -- an operation
    have hne : t.presentVariables ≠ [] := by
      rcases hshape with h | h | h | h <;> rw [h] <;> exact List.cons_ne_nil _ _
    have hcount : t.presentVariables.length ≤ 3 := by
      rcases hshape with h | h | h | h <;> rw [h] <;> decide
    have hosLength : os.length = t.presentVariables.length := hos.length_eq.symm
    have hosNe : os ≠ [] := by
      rintro rfl
      exact hne (List.length_eq_zero_iff.mp hosLength.symm)
    have hnot : op ≠ .not := by
      rintro rfl
      exact absurd hopMem (by decide)
    have hverify : g₁.verifyVertex ⟨⟨.logic op, .bits w⟩, os⟩ = true := by
      refine verify_operation (Or.inr hopMem) hosNe htypes (fun h => absurd h hnot) ?_
      omega
    have hold : ∀ k < g₁.length, TermGraph.vertex (g₁.make ⟨⟨.logic op, .bits w⟩, os⟩) k =
        g₁.vertex k := fun k hk => TermGraph.vertex_make_of_ne hk.ne
    have hV₁ := hV.mono hL hmade.old
    have hlast : Made L g₁ (g₁.make ⟨⟨.logic op, .bits w⟩, os⟩) := by
      refine .make hmade.verified hverify (.operation t op w V rfl hmem hcanonical hop ?_ ?_)
      · exact hV₁.mono (hL.trans hle) hold
      · exact hos.imp fun j o ho => ho.mono hold
    have hall := hmade.trans hlast hL
    have hlastUses : OnFrontier V g (g₁.make ⟨⟨.logic op, .bits w⟩, os⟩) := by
      have hmake : TermGraph.Extends (fun _ => True) (fun o => o ∈ os) g₁
          (g₁.make ⟨⟨.logic op, .bits w⟩, os⟩) :=
        .make trivial fun o ho => ⟨lt_length_of_typeOf (htypes o ho), ho⟩
      exact huses.trans hmake fun o ho => (hnodes o ho).2
    refine ⟨_, g₁.length, ?_, hall, hlastUses, Or.inr hle, ?_, ?_, ?_⟩
    · obtain ⟨first, rest, rfl⟩ := List.exists_cons_of_ne_nil hosNe
      rw [createReplacement, hloop, hop]
      show (g₁.typeOf first).bind _ = _
      rw [htypes first (List.mem_cons_self ..)]
      exact makeNode_of_verify hverify
    · rw [TermGraph.length_make]
      omega
    · rw [typeOf_make_length, hi]
    · intro env val hval
      have hval₁ := hval.of_made hlast
      have hval' := hval.of_made hall
      refine hval.eq_of_bitAt (w := w) ?_ typeOf_make_length fun p hp => ?_
      · rw [typeOf_of_old hall.old hlt, hi]
      · obtain ⟨s, hs, hassigns, hkeyAt⟩ := hflows.bitAt hg hval' hV.length hp
        have htypes' : ∀ o ∈ os,
            typeOf (g₁.make ⟨⟨.logic op, .bits w⟩, os⟩) o = some (.bits w) := fun o ho =>
          typeOf_make_of_eq_some (htypes o ho)
        have hbit := hval.bitAt_operation TermGraph.vertex_make_length rfl (Or.inr hopMem)
          (Or.inr (hL.trans hle)) hosNe (fun h => absurd h hnot) htypes' hp
        have hmap := variableNodes_bitAt hos hval₁ hV₁ hp hassigns
        rw [← hkeyAt, (computeTruthTable_get hopMem hop hne hkey).2 s hs, hbit, ← hmap]

/-! ## Resolving -/

theorem sBits_neg_one (hw : 0 < w) : ∃ ones, sBits (-1) w = some ones ∧ ones.bitCount = w ∧
    ∀ p < w, ones.get p = true := by
  have hfits : ¬ BitmapBits.minBitCountSigned (-1) > w := by
    show ¬ 1 > w
    omega
  refine ⟨Bits.ofInt w (-1), if_neg hfits, rfl, fun p hp => ?_⟩
  have hvalue : (Bits.ofInt w (-1)).toNat = 2 ^ w - 1 := by
    show (BitVec.ofInt w (-1)).toNat = 2 ^ w - 1
    have hpos := Nat.two_pow_pos w
    have hcast : ((2 ^ w : ℕ) : ℤ) = 2 ^ w := Nat.cast_pow 2 _
    rw [BitVec.toNat_ofInt, Nat.cast_pow, Nat.cast_ofNat, Int.emod_eq_add_self_emod,
      Int.emod_eq_of_lt (by omega) (by omega)]
    omega
  rw [Bits.get, hvalue, Nat.testBit_two_pow_sub_one]
  exact decide_eq_true hp

theorem get_of_isZero {b : Bits} (h : b.isZero = true) (s : ℕ) : b.get s = false := by
  rw [Bits.get, eq_of_beq h, Nat.zero_testBit]

/-- The third variable makes no difference for two frontier nodes. -/
theorem Flows.ignoresZ (h : Flows g w V i key) (hrank : g.Ranks rank)
    (hV : FrontierNodes g L w V) (hlength : V.length = 2) : ignoresZ key = true := by
  have hvectors : ∀ s ∈ ([0, 2, 4, 6] : List ℕ), s + 1 < 8 ∧ ∀ j < 2,
      (getInitialVector j).get (s + 1) = (getInitialVector j).get s := by
    decide
  refine List.all_eq_true.mpr fun s hs => beq_iff_eq.mpr ?_
  obtain ⟨hlt, hsame⟩ := hvectors s hs
  obtain ⟨ρ, hρ, hassigns⟩ := exists_values hrank hV.nodup hV.notLogic s
  have hnext : Assigns V ρ (s + 1) := by
    intro j v hj
    have hj2 : j < 2 := hlength ▸ (List.getElem?_eq_some_iff.mp hj).1
    rw [hassigns j v hj, hsame j hj2]
  rw [h.get s (Nat.lt_of_succ_lt hlt) ρ (hρ w) hassigns, h.get (s + 1) hlt ρ (hρ w) hnext]

/-- The variables of the table which is found are frontier nodes. -/
theorem Flows.present_lt (h : Flows g w V i key) (hrank : g.Ranks rank)
    (hV : FrontierNodes g L w V) (hlength : 2 ≤ V.length) (ht : findTable key = some t) :
    ∀ j ∈ t.presentVariables, j < V.length := by
  intro j hj
  obtain ⟨hmem, hkey⟩ := mem_truthTables ht
  have hj3 : j < 3 := by
    have hj' : j ∈ ([0, 1, 2] : List ℕ) := (List.mem_filter.mp hj).1
    simp only [List.mem_cons, List.not_mem_nil, or_false] at hj'
    omega
  rcases Nat.lt_or_ge 2 V.length with hthree | htwo
  · omega
  · have htable := truthTables_ignoresZ t hmem key hkey (h.ignoresZ hrank hV (by omega))
    have hne : j ≠ 2 := by
      rintro rfl
      exact htable hj
    omega

theorem bitCountOrDie_of_typeOf (hi : g.typeOf i = some (.bits w)) :
    bitCountOrDie g i = some w := by
  rw [bitCountOrDie, hi]

/-- What a node is resolved to: the literal of ones is not made for the width zero. -/
theorem resolve_spec (hg : Verified g) (hrank : g.Ranks rank)
    (hi : g.typeOf i = some (.bits w)) (hflows : Flows g w V i key) (hV : FrontierNodes g L w V)
    (hL : L ≤ g.length) (hlength : 2 ≤ V.length) :
    (w = 0 ∧ key.isAllOnes = true ∧ resolveTruthTable g key V i = none) ∨
      (¬ (w = 0 ∧ key.isAllOnes = true) ∧ (resolveTruthTable g key V i = some none ∨
        ∃ g' r, resolveTruthTable g key V i = some (some (g', r)) ∧ Replacement L V g i g' r)) := by
  have hcount : 2 ≤ V.length ∧ V.length ≤ 3 := ⟨hlength, hV.length⟩
  have hdie := bitCountOrDie_of_typeOf hi
  unfold resolveTruthTable
  rw [if_pos hcount, hdie]
  by_cases hones : key.isAllOnes = true
  · have hkey := (isAllOnes_iff_get hflows.bitCount).mp hones
    rw [if_pos hones, Option.bind_eq_bind, Option.bind_some]
    rcases Nat.eq_zero_or_pos w with rfl | hw
    · exact Or.inl ⟨rfl, hones, rfl⟩
    · obtain ⟨ones, honesEq, honesCount, honesGet⟩ := sBits_neg_one hw
      obtain ⟨g', hmake, hreplacement⟩ :=
        replacement_literal hg hi hflows hV.length hL honesCount hkey honesGet
      refine Or.inr ⟨fun h => hw.ne' h.1, Or.inr ⟨g', g.length, ?_, hreplacement⟩⟩
      rw [honesEq, Option.bind_eq_bind, Option.bind_some, hmake]
      rfl
  · refine Or.inr ⟨fun h => hones h.2, ?_⟩
    rw [if_neg hones]
    by_cases hzero : key.isZero = true
    · obtain ⟨g', hmake, hreplacement⟩ := replacement_literal hg hi hflows hV.length hL
        (b := Bits.zero w) rfl (fun s _ => get_of_isZero hzero s) fun p _ => get_of_isZero rfl p
      refine Or.inr ⟨g', g.length, ?_, hreplacement⟩
      rw [if_pos hzero, Option.bind_eq_bind, Option.bind_some, hmake]
      rfl
    · rw [if_neg hzero]
      rcases hfind : findTable key with - | t
      · exact Or.inl rfl
      · by_cases hmatches : matchesSymmetrical t g i V = true
        · exact Or.inl (if_pos hmatches)
        · obtain ⟨g', r, hcreate, hreplacement⟩ := createReplacement_spec hg hi hflows hV hL hfind
            (isCanonical_of_findTable hfind (Bool.eq_false_iff.mpr hones)
              (Bool.eq_false_iff.mpr hzero)) (hflows.present_lt hrank hV hlength hfind)
          refine Or.inr ⟨g', r, ?_, hreplacement⟩
          simp only
          rw [if_neg hmatches, hcreate]
          rfl

/-! ## Operations which were made -/

/-- The frontier of an operation which was made: the nodes of the variables which are there. -/
def presentNodes (V : List ℕ) (t : TruthTable) : List ℕ :=
  t.presentVariables.map fun j => V.getD j 0

theorem VariableNode.getD (h : VariableNode g L w V t j o) : V[j]? = some (V.getD j 0) := by
  obtain ⟨v, hv, -⟩ := h
  rw [List.getD_eq_getElem?_getD, hv]
  rfl

/-- The operands are the variables of the compressed table. -/
theorem variableNodes_compress (ht : t ∈ truthTables) (hop : t.logicalOp ≠ none)
    (h : List.Forall₂ (VariableNode g L w V t) t.presentVariables os) :
    List.Forall₂ (VariableNode g L w (presentNodes V t) (compress t))
      (compress t).presentVariables os := by
  obtain ⟨hrange, hnegated⟩ := compress_spec t ht hop
  rw [List.forall₂_iff_get] at h ⊢
  obtain ⟨hlength, hnodes⟩ := h
  refine ⟨by rw [hrange, List.length_range, hlength], fun j hj ho => ?_⟩
  have hlt : j < t.presentVariables.length := by
    rw [hrange, List.length_range] at hj
    exact hj
  have hvariable : (compress t).presentVariables.get ⟨j, hj⟩ = j := by
    simp only [List.get_eq_getElem, hrange, List.getElem_range]
  have hsame : (compress t).negated j = t.negated (t.presentVariables.get ⟨j, hlt⟩) := by
    have hget := congrArg (fun l => l[j]?) hnegated
    simp only [List.getElem?_map, List.getElem?_eq_getElem hj, List.getElem?_eq_getElem hlt,
      Option.map_some, Option.some.injEq] at hget
    have hindex : (compress t).presentVariables[j] = j := hvariable
    rw [hindex] at hget
    exact hget
  have hnode := hnodes j hlt ho
  rw [hvariable]
  obtain ⟨v, hv, hresult⟩ := hnode
  refine ⟨v, ?_, ?_⟩
  · rw [presentNodes, List.getElem?_map, List.getElem?_eq_getElem hlt, Option.map_some]
    show some (V[t.presentVariables.get ⟨j, hlt⟩]?.getD 0) = some v
    rw [hv, Option.getD_some]
  · rw [hsame]
    exact hresult

/-- The variables which are there are frontier nodes. -/
theorem FrontierNodes.present (hV : FrontierNodes g L w V)
    (h : List.Forall₂ (VariableNode g L w V t) t.presentVariables os) :
    FrontierNodes g L w (presentNodes V t) := by
  have hget : ∀ j ∈ t.presentVariables, V[j]? = some (V.getD j 0) := by
    intro j hj
    obtain ⟨o, -, ho⟩ := Relational.exists_of_forall₂ h hj
    exact ho.getD
  have hmem : ∀ v ∈ presentNodes V t, v ∈ V := by
    intro v hv
    obtain ⟨j, hj, rfl⟩ := List.mem_map.mp hv
    exact List.mem_of_getElem? (hget j hj)
  have hnodup : t.presentVariables.Nodup := List.Nodup.filter _ (by decide)
  refine ⟨?_, ?_, fun v hv => hV.lt v (hmem v hv), fun v hv => hV.notLogic v (hmem v hv),
    fun v hv => hV.type v (hmem v hv)⟩
  · refine List.Nodup.map_on (fun j hj j' hj' heq => ?_) hnodup
    have hj'' := hget j' hj'
    rw [← heq, ← hget j hj] at hj''
    exact (List.getElem?_inj (List.getElem?_eq_some_iff.mp (hget j hj)).1 hV.nodup).mp hj''.symm
  · rw [presentNodes, List.length_map]
    exact List.length_filter_le _ _

theorem VariableNode.bool {ρ : ℕ → Bool} (h : VariableNode g L w V t j o) (hρ : BoolValuation g w ρ)
    {s : ℕ} (hassigns : Assigns V ρ s) :
    ρ o = literalBool (t.negated j) ((getInitialVector j).get s) := by
  obtain ⟨v, hv, ho⟩ := h
  unfold literalBool
  split_ifs at ho ⊢
  · rw [hρ o _ ho.2 rfl rfl, ← hassigns j v hv]
    rfl
  · rw [ho, hassigns j v hv]

include h in
theorem variableNodes_bool {ρ : ℕ → Bool} {s : ℕ} (hρ : BoolValuation g w ρ)
    (hassigns : Assigns V ρ s) :
    os.map ρ = js.map fun j => literalBool (t.negated j) ((getInitialVector j).get s) := by
  induction h with
  | nil => rfl
  | cons ho _ ih => rw [List.map_cons, List.map_cons, ih, ho.bool hρ hassigns]

/-- The operands match the table they were made for. -/
theorem matchesSymmetrical_of_operands {k : ℕ} (hn : g.vertex k = some n)
    (hlabel : n.label.op = .logic op) (hop : t.logicalOp = some op)
    (h : List.Forall₂ (VariableNode g L w V t) t.presentVariables n.operands) :
    matchesSymmetrical t g k V = true := by
  unfold matchesSymmetrical
  rw [hop]
  refine Bool.and_eq_true_iff.mpr ⟨?_, List.all_eq_true.mpr fun j hj => ?_⟩
  · rw [hn, Option.map_some, hlabel]
    exact decide_eq_true rfl
  · obtain ⟨o, ho, v, hv, hnode⟩ := Relational.exists_of_forall₂ h hj
    unfold matchesOperand anyOperandWhere
    rw [hv, hn]
    split_ifs at hnode ⊢
    · refine List.any_eq_true.mpr ⟨o, ho, ?_⟩
      rw [isNotOf, hnode.2]
      exact decide_eq_true rfl
    · exact List.any_eq_true.mpr ⟨o, ho, decide_eq_true hnode⟩

/-- An operation which was made is left alone. -/
theorem resolve_operation {k : ℕ} (hrank : g.Ranks rank)
    (hn : g.vertex k = some n) (hlabel : n.label = ⟨.logic op, .bits w⟩)
    (hlogic : isLogicOp n.label.op = true) (ht : t ∈ truthTables)
    (hcanonical : isCanonical t = true) (hop : t.logicalOp = some op) (hV : FrontierNodes g L w V)
    (hoperands : List.Forall₂ (VariableNode g L w V t) t.presentVariables n.operands)
    (hflows : Flows g w (presentNodes V t) k key) :
    2 ≤ (presentNodes V t).length ∧ resolveTruthTable g key (presentNodes V t) k = some none := by
  have hsome : t.logicalOp ≠ none := by
    rw [hop]
    exact Option.some_ne_none op
  obtain ⟨hopMem, hshape⟩ : op ∈ kLogicOps ∧ 2 ≤ t.presentVariables.length := by
    rcases truthTables_shape t ht with ⟨hnone, -⟩ | ⟨⟨op', hmem, hop'⟩, hshape⟩
    · exact absurd hnone hsome
    · obtain rfl := Option.some.inj (hop.symm.trans hop')
      refine ⟨hmem, ?_⟩
      rcases hshape with h | h | h | h <;> rw [h] <;> decide
  have hV' := hV.present hoperands
  have hlength : 2 ≤ (presentNodes V t).length := by
    rw [presentNodes, List.length_map]
    exact hshape
  have hnodes := variableNodes_compress ht hsome hoperands
  obtain ⟨bits, hbits, hones, hzero, hfind⟩ :=
    isCanonical_iff.mp (isCanonical_compress t ht hcanonical hsome)
  have hpresent : (compress t).presentVariables ≠ [] := by
    rw [(compress_spec t ht hsome).1]
    intro hnil
    have := congrArg List.length hnil
    rw [List.length_range, List.length_nil] at this
    omega
  obtain ⟨hcount, hget⟩ := computeTruthTable_get hopMem (t := compress t) hop hpresent hbits
  -- the vector which flows to the operation is that of the compressed table
  have hkey : key = bits := by
    refine eq_of_get (hflows.bitCount.trans hcount.symm) fun s hs => ?_
    rw [hflows.bitCount] at hs
    obtain ⟨ρ, hρ, hassigns⟩ := exists_values hrank hV'.nodup hV'.notLogic s
    rw [hflows.get s hs ρ (hρ w) hassigns, hget s hs,
      hρ w k n hn hlogic (congrArg NodeLabel.type hlabel), variableNodes_bool hnodes (hρ w) hassigns,
      hlabel]
  refine ⟨hlength, ?_⟩
  unfold resolveTruthTable
  rw [if_pos ⟨hlength, hV'.length⟩, hkey, hones, hzero, hfind]
  exact if_pos (matchesSymmetrical_of_operands hn (congrArg NodeLabel.op hlabel) 
    (t := compress t) hop hnodes)

end BooleanSimplification

end Xls
