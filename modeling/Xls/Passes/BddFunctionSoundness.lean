/-
# Soundness of BDD functions

For every run of the interpreter there is an assignment of the variables under which every
expression of `BddFunction.run` has the value of its bit.  The assignment grows along the nodes:
the bits of a node which became new variables are set to what the node computes, which does not
change the expressions of the nodes before.

* `abstracts_saturatingBdd` : the saturating evaluator is sound;
* `freshen_grown`, `createNewNodeVector_grown` : new variables take any given bits;
* `evaluateNode_grown` : one node;
* `run_explains` : all nodes.
-/
import Xls.Passes.BddFunction

namespace Xls

open DecisionDiagram (denote)
open Evaluator (bool vectors bitsValues)

/-- Diagrams grow: the expressions stay. -/
def bddWorld : World BinaryDecisionDiagram where
  Inv := BinaryDecisionDiagram.Inv
  Le bdd bdd' := bdd.nodes.length ≤ bdd'.nodes.length ∧
    ∀ i < bdd.nodes.length, ∀ σ, denote bdd'.node σ i = denote bdd.node σ i
  refl _ := ⟨le_rfl, fun _ _ _ => rfl⟩
  trans h h' := ⟨h.1.trans h'.1,
    fun i hi σ => (h'.2 i (hi.trans_le h.1) σ).trans (h.2 i hi σ)⟩

/-- The expression has the value of the bit. -/
def Denotes (σ : ℕ → Bool) (bdd : BinaryDecisionDiagram) (i : ℕ) (b : Bool) : Prop :=
  i < bdd.nodes.length ∧ denote bdd.node σ i = b

/-- An expression has one value. -/
theorem Denotes.unique {σ : ℕ → Bool} {bdd : BinaryDecisionDiagram} {i : ℕ} {x y : Bool}
    (h : Denotes σ bdd i x) (h' : Denotes σ bdd i y) : x = y :=
  h.2.symm.trans h'.2

/-- The sentinel admits any bit. -/
def DenotesUnless (σ : ℕ → Bool) (bdd : BinaryDecisionDiagram) (a : SaturatingBddNodeIndex)
    (b : Bool) : Prop :=
  ∀ i ∈ a, Denotes σ bdd i b

theorem stable_denotes (σ : ℕ → Bool) : bddWorld.Stable (Denotes σ) where
  grow := by
    intro bdd bdd' i b hle h
    exact ⟨h.1.trans_le hle.1, (hle.2 i h.1 σ).trans h.2⟩

theorem stable_denotesUnless (σ : ℕ → Bool) : bddWorld.Stable (DenotesUnless σ) where
  grow := by
    intro bdd bdd' a b hle h i hi
    exact (stable_denotes σ).grow hle (h i hi)

/-! ## The evaluator -/

namespace SaturatingBdd

variable {σ : ℕ → Bool} {bdd : BinaryDecisionDiagram}

/-- A call of the diagram on expressions. -/
theorem ensures_call (hbdd : bddWorld.Inv bdd) {c : BinaryDecisionDiagram.Call} (hc : c.Valid bdd) :
    bddWorld.Ensures bdd (fun bdd => bdd.call c) fun bdd' r => Denotes σ bdd' r (c.meaning bdd σ) := by
  intro r bdd' hcall
  obtain ⟨r', bdd'', hreturns, hwf, hbase⟩ := hbdd.1.call hbdd.2 hc
  have heq := hreturns.result.symm.trans hcall
  cases heq
  exact ⟨⟨hwf, hbase⟩, ⟨hreturns.length_le, hreturns.keeps⟩, hreturns.lt, hreturns.denote_eq σ⟩

theorem ensures_limit (pathLimit : ℤ) (hbdd : bddWorld.Inv bdd) {r : ℕ} {b : Bool}
    (h : Denotes σ bdd r b) :
    bddWorld.Ensures bdd (limit pathLimit r) fun bdd' a => DenotesUnless σ bdd' a b := by
  intro a bdd' hrun
  have hlt := h.1
  rw [limit] at hrun
  simp only [bind, StateT.bind, get, getThe, MonadStateOf.get, StateT.get, pure,
    Option.bind_some, List.getElem?_eq_getElem hlt] at hrun
  cases hrun
  refine ⟨hbdd, bddWorld.refl bdd, fun i hi => ?_⟩
  split at hi
  · cases hi
  · cases hi
    exact h

theorem ensures_binary (pathLimit : ℤ) {op : ℕ → ℕ → BddM ℕ} {f : Bool → Bool → Bool}
    (hop : ∀ {bdd i j x y}, bddWorld.Inv bdd → Denotes σ bdd i x → Denotes σ bdd j y →
      bddWorld.Ensures bdd (op i j) fun bdd' r => Denotes σ bdd' r (f x y))
    (hbdd : bddWorld.Inv bdd) {a b : SaturatingBddNodeIndex} {x y : Bool}
    (ha : DenotesUnless σ bdd a x) (hb : DenotesUnless σ bdd b y) :
    bddWorld.Ensures bdd (binary pathLimit op a b) fun bdd' c =>
      DenotesUnless σ bdd' c (f x y) := by
  rcases a with _ | i
  · exact .pure hbdd (by rintro _ ⟨⟩)
  · rcases b with _ | j
    · exact .pure hbdd (by rintro _ ⟨⟩)
    · exact (hop hbdd (ha i rfl) (hb j rfl)).bind fun bdd' r hbdd' _ hr =>
        ensures_limit pathLimit hbdd' hr

end SaturatingBdd

/-- The saturating evaluator is sound for every assignment. -/
theorem abstracts_saturatingBdd (pathLimit : ℤ) (σ : ℕ → Bool) :
    (saturatingBddEvaluator pathLimit).Abstracts bddWorld (DenotesUnless σ) where
  stable := stable_denotesUnless σ
  one := by
    rintro bdd hbdd _ ⟨⟩
    exact ⟨hbdd.1.two_le, hbdd.1.denote_one σ⟩
  zero := by
    rintro bdd hbdd _ ⟨⟩
    exact ⟨Nat.lt_of_succ_lt hbdd.1.two_le, hbdd.1.denote_zero σ⟩
  zero_only := by
    intro bdd hbdd h
    have hzero := (h _ rfl).2
    rw [hbdd.1.denote_zero] at hzero
    cases hzero
  not := by
    intro bdd a x hbdd ha
    rcases a with _ | i
    · exact .pure hbdd (by rintro _ ⟨⟩)
    · have hi := ha i rfl
      have hcall := SaturatingBdd.ensures_call (σ := σ) (c := .not i) hbdd hi.1
      rw [BinaryDecisionDiagram.Call.meaning, hi.2] at hcall
      exact World.Ensures.bind hcall fun bdd' r hbdd' _ hr =>
        SaturatingBdd.ensures_limit pathLimit hbdd' hr
  and := by
    intro bdd a b x y hbdd ha hb
    refine SaturatingBdd.ensures_binary pathLimit ?_ hbdd ha hb
    intro bdd i j x y hbdd hi hj
    have hcall := SaturatingBdd.ensures_call (σ := σ) (c := .and i j) hbdd ⟨hi.1, hj.1⟩
    rwa [BinaryDecisionDiagram.Call.meaning, hi.2, hj.2] at hcall
  or := by
    intro bdd a b x y hbdd ha hb
    refine SaturatingBdd.ensures_binary pathLimit ?_ hbdd ha hb
    intro bdd i j x y hbdd hi hj
    have hcall := SaturatingBdd.ensures_call (σ := σ) (c := .or i j) hbdd ⟨hi.1, hj.1⟩
    rwa [BinaryDecisionDiagram.Call.meaning, hi.2, hj.2] at hcall

/-! ## New variables -/

/-- The diagram and the assignment after new variables: the expressions keep their values. -/
structure Grown (σ : ℕ → Bool) (bdd : BinaryDecisionDiagram) (σ' : ℕ → Bool)
    (bdd' : BinaryDecisionDiagram) : Prop where
  inv : bdd'.Inv
  denotes : ∀ {i b}, Denotes σ bdd i b → Denotes σ' bdd' i b

theorem Grown.refl {σ : ℕ → Bool} {bdd : BinaryDecisionDiagram} (h : bdd.Inv) : Grown σ bdd σ bdd :=
  ⟨h, id⟩

theorem Grown.trans {σ σ' σ'' : ℕ → Bool} {bdd bdd' bdd'' : BinaryDecisionDiagram}
    (h : Grown σ bdd σ' bdd') (h' : Grown σ' bdd' σ'' bdd'') : Grown σ bdd σ'' bdd'' :=
  ⟨h'.inv, fun hd => h'.denotes (h.denotes hd)⟩

/-- The value of an expression depends on the variables of the diagram only. -/
theorem denote_update_nextVar {bdd : BinaryDecisionDiagram} (h : bdd.Wf) (σ : ℕ → Bool) (b : Bool)
    (i : ℕ) : denote bdd.node (Function.update σ bdd.nextVar b) i = denote bdd.node σ i := by
  refine h.reduced.toOrdered.denote_congr_vars fun j n hn => ?_
  exact Function.update_of_ne (h.var_lt hn).ne ..

/-- A new variable takes any given value. -/
theorem newVariable_grown {σ : ℕ → Bool} {bdd bdd' : BinaryDecisionDiagram} {r : ℕ} (h : bdd.Inv)
    (b : Bool) (hnew : bdd.newVariable = some (r, bdd')) :
    ∃ σ', Grown σ bdd σ' bdd' ∧ Denotes σ' bdd' r b := by
  obtain ⟨r', bdd'', hreturns, hwf, hbase⟩ := h.1.newVariable h.2
  have heq : bdd.newVariable = some (r', bdd'') := hreturns.result
  rw [heq] at hnew
  cases hnew
  refine ⟨Function.update σ bdd.nextVar b, ⟨⟨hwf, hbase⟩, ?_⟩, hreturns.lt, ?_⟩
  · rintro i x ⟨hi, hx⟩
    refine ⟨hi.trans_le hreturns.length_le, ?_⟩
    rw [hreturns.keeps i hi, denote_update_nextVar h.1, hx]
  · rw [hreturns.denote_eq, BinaryDecisionDiagram.Call.meaning, Function.update_self]

namespace BddFunction

/-- The bits of a vector of expressions. -/
abbrev DenotesVector (σ : ℕ → Bool) (bdd : BinaryDecisionDiagram) : List ℕ → List Bool → Prop :=
  List.Forall₂ (Denotes σ bdd)

variable {v : List SaturatingBddNodeIndex} {n : LogicNode} {before rest : List LogicNode}
  {values ops : List Value} {entries : List (Option (List ℕ))} {ids : List ℕ} {types : List Ty}
  {f : LogicFunction} {env : Env}

/-- The bits which exceeded the path limit become variables with the bits of the node. -/
theorem freshen_grown {σ : ℕ → Bool} {bdd bdd' : BinaryDecisionDiagram} (h : bdd.Inv)
    {x : List Bool} (hv : List.Forall₂ (DenotesUnless σ bdd) v x) {v' : List ℕ}
    (hrun : (v.mapM freshen) bdd = some (v', bdd')) :
    ∃ σ', Grown σ bdd σ' bdd' ∧ DenotesVector σ' bdd' v' x := by
  induction v generalizing σ bdd x v' with
  | nil =>
    rcases hv with _ | _
    cases hrun
    exact ⟨σ, .refl h, .nil⟩
  | cons a v ih =>
    rcases hv with _ | @⟨_, b, _, x, ha, hv⟩
    rw [List.mapM_cons] at hrun
    obtain ⟨⟨i, bdd₁⟩, hone, hrun⟩ := Option.bind_eq_some_iff.mp hrun
    obtain ⟨⟨is, bdd₂⟩, hrest, hrun⟩ := Option.bind_eq_some_iff.mp hrun
    cases hrun
    have hstep : ∃ σ₁, Grown σ bdd σ₁ bdd₁ ∧ Denotes σ₁ bdd₁ i b := by
      rcases a with _ | a
      · exact newVariable_grown h b hone
      · cases hone
        exact ⟨σ, .refl h, ha i rfl⟩
    obtain ⟨σ₁, hgrown, hi⟩ := hstep
    have hv₁ : List.Forall₂ (DenotesUnless σ₁ bdd₁) v x :=
      hv.imp fun _ _ hd j hj => hgrown.denotes (hd j hj)
    obtain ⟨σ₂, hgrown₂, his⟩ := ih hgrown.inv hv₁ hrest
    exact ⟨σ₂, hgrown.trans hgrown₂, .cons (hgrown₂.denotes hi) his⟩

/-- A vector of new variables takes any given bits. -/
theorem createNewNodeVector_grown {σ : ℕ → Bool} {bdd bdd' : BinaryDecisionDiagram} (h : bdd.Inv)
    {b : Bits} (htype : n.type = .bits b.bitCount)
    (hrun : createNewNodeVector n bdd = some (v, bdd')) :
    ∃ σ', Grown σ bdd σ' bdd' ∧ List.Forall₂ (DenotesUnless σ' bdd') v (bool.bitsToVector b) := by
  rw [createNewNodeVector, htype] at hrun
  change ((List.range b.bitCount).mapM fun _ => newElement) bdd = some (v, bdd') at hrun
  rw [Evaluator.bool_bitsToVector]
  generalize List.range b.bitCount = l at hrun ⊢
  induction l generalizing σ bdd v with
  | nil =>
    cases hrun
    exact ⟨σ, .refl h, .nil⟩
  | cons k l ih =>
    rw [List.mapM_cons] at hrun
    obtain ⟨⟨i, bdd₁⟩, hone, hrun⟩ := Option.bind_eq_some_iff.mp hrun
    obtain ⟨⟨is, bdd₂⟩, hrest, hrun⟩ := Option.bind_eq_some_iff.mp hrun
    cases hrun
    obtain ⟨⟨r, bdd₃⟩, hnew, hone⟩ := Option.bind_eq_some_iff.mp hone
    cases hone
    obtain ⟨σ₁, hgrown, hr⟩ := newVariable_grown (σ := σ) h (b.toNat.testBit k) hnew
    obtain ⟨σ₂, hgrown₂, his⟩ := ih hgrown.inv hrest
    refine ⟨σ₂, hgrown.trans hgrown₂, .cons ?_ his⟩
    rintro j ⟨⟩
    exact hgrown₂.denotes hr

/-! ## One node -/

/-- The entry of a node explains its value: nodes of bits type have expressions for their bits. -/
def EntryExplains (σ : ℕ → Bool) (bdd : BinaryDecisionDiagram) (entry : Option (List ℕ)) :
    Value → Prop
  | .bits b => ∃ v, entry = some v ∧ DenotesVector σ bdd v (bool.bitsToVector b)
  | _ => entry = none

/-- What is known of a node and its value: the type, and that a one-hot number is not zero. -/
structure NodeValue (n : LogicNode) (v : Value) : Prop where
  conforms : v.conformsToType n.type = true
  oneHot : ∀ p b, n.op = .oneHot p → v = .bits b → true ∈ bool.bitsToVector b

variable {σ : ℕ → Bool} {bdd bdd' : BinaryDecisionDiagram}

theorem entryExplains_grown {σ' : ℕ → Bool} (h : Grown σ bdd σ' bdd') {entry : Option (List ℕ)}
    {v : Value} (he : EntryExplains σ bdd entry v) : EntryExplains σ' bdd' entry v := by
  rcases v with b | _ | _ | _
  · obtain ⟨v, rfl, hv⟩ := he
    exact ⟨v, rfl, hv.imp fun _ _ hd => h.denotes hd⟩
  · exact he
  · exact he
  · exact he

theorem isBits_eq_true {t : Ty} (h : t.isBits = true) : ∃ w, t = .bits w := by
  rcases t with w | _ | _ | _
  · exact ⟨w, rfl⟩
  · cases h
  · cases h
  · cases h

/-- The operands of a node, when they all have bits type. -/
theorem operands_spec (hnodes : List.Forall₂ NodeValue before values)
    (hentries : List.Forall₂ (EntryExplains σ bdd) entries values)
    {vs : List (List SaturatingBddNodeIndex)}
    (htypes : LogicVerifier.operandTypes before ids = some types)
    (hops : Interpreter.resolve values ids = some ops)
    (hbits : ids.all (fun i => (before[i]?.map fun o => o.type.isBits).getD false) = true)
    (hvs : ids.mapM (fun i => entries[i]?.join.map (List.map some)) = some vs) :
    ∃ bs, types = StatefulEvaluator.Abstracts.bitsTypes bs ∧ ops = bitsValues bs ∧
      bs.length = ids.length ∧
      List.Forall₂ (StatefulEvaluator.Abstracts.Vector (DenotesUnless σ) bdd) vs (vectors bs) ∧
      ∀ i ∈ ids.head?, ∀ b ∈ bs.head?, values[i]? = some (.bits b) := by
  induction ids generalizing types ops vs with
  | nil =>
    cases htypes
    cases hops
    cases hvs
    exact ⟨[], rfl, rfl, rfl, .nil, by rintro _ ⟨⟩⟩
  | cons i ids ih =>
    rw [LogicVerifier.operandTypes] at htypes
    split at htypes
    · rename_i o types' ho htypes'
      cases htypes
      obtain ⟨u, ops', hu, hops', rfl⟩ := Interpreter.resolve_cons hops
      rw [List.all_cons, Bool.and_eq_true, ho, Option.map_some] at hbits
      rw [List.mapM_cons, Option.bind_eq_bind, Option.bind_eq_some_iff] at hvs
      obtain ⟨e, he, hvs⟩ := hvs
      rw [Option.bind_eq_bind, Option.bind_eq_some_iff] at hvs
      obtain ⟨vs', hvs', hvs⟩ := hvs
      cases hvs
      obtain ⟨bs, rfl, rfl, hlen, hvecs, -⟩ := ih htypes' hops' hbits.2 hvs'
      have hconf := (Relational.forall₂_getElem? hnodes ho hu).conforms
      obtain ⟨w, hw⟩ := isBits_eq_true hbits.1
      rw [hw] at hconf
      obtain ⟨b, rfl, hb⟩ := Value.asBits_of_conforms hconf
      -- the entry of the operand
      rw [Option.map_eq_some_iff] at he
      obtain ⟨v, hv, rfl⟩ := he
      obtain ⟨v', hv', hden⟩ := Relational.forall₂_getElem? hentries
        (Option.join_eq_some_iff.mp hv) hu
      cases hv'
      refine ⟨b :: bs, ?_, rfl, ?_, .cons ?_ hvecs, ?_⟩
      · rw [hw, ← hb]
        rfl
      · rw [List.length_cons, List.length_cons, hlen]
      · refine List.forall₂_map_left_iff.mpr (hden.imp fun j x hj => ?_)
        rintro k ⟨⟩
        exact hj
      · rintro _ ⟨⟩ _ ⟨⟩
        exact hu
    · cases htypes

theorem evaluated_of_shouldEvaluate (h : shouldEvaluate f n = true)
    (hop : ∀ w, n.op ≠ .dynamicBitSlice w) : StatefulEvaluator.Evaluated n.op := by
  obtain ⟨op, operands, type, hlt⟩ := n
  rw [shouldEvaluate, Bool.and_eq_true] at h
  cases op with
  | dynamicBitSlice w => exact absurd rfl (hop w)
  | core op =>
    cases op with
    | param | add | sub | neg | umul | udiv | gate | sgt | sge | slt | sle | array | arrayIndex
    | arrayConcat | tuple | tupleIndex | other => cases h.2
    | _ => trivial
  | _ => trivial

/-- The value of a node. -/
structure NodeResult (env : Env) (id : ℕ) (n : LogicNode) (types : List Ty) (ops : List Value)
    (b : Bits) : Prop where
  verify : LogicVerifier.verifyNode n types = true
  eval : LogicInterpreter.evalNode env id n ops = some (.bits b)
  type : n.type = .bits b.bitCount

/-- The node computed by the evaluator, or by the default handler. -/
theorem abstractEvaluate_grown (pathLimit : ℤ) (hbdd : bdd.Inv) {bs : List Bits}
    {vs : List (List SaturatingBddNodeIndex)} {id : ℕ} {b : Bits}
    (hresult : NodeResult env id n (StatefulEvaluator.Abstracts.bitsTypes bs) (bitsValues bs) b)
    (hlen : bs.length < 2 ^ 64)
    (hvs : List.Forall₂ (StatefulEvaluator.Abstracts.Vector (DenotesUnless σ) bdd) vs (vectors bs))
    (hshould : shouldEvaluate f n = true) (oneHot : Bool)
    (honeHot : oneHot = true → ∀ b ∈ bs.head?, true ∈ bool.bitsToVector b)
    (hrun : (saturatingBddEvaluator pathLimit).abstractEvaluate n oneHot (createNewNodeVector n) vs
      bdd = some (v, bdd')) :
    ∃ σ', Grown σ bdd σ' bdd' ∧ List.Forall₂ (DenotesUnless σ' bdd') v (bool.bitsToVector b) := by
  have habs := abstracts_saturatingBdd pathLimit σ
  by_cases hdynamic : ∃ w, n.op = .dynamicBitSlice w
  · obtain ⟨w, hop⟩ := hdynamic
    rw [StatefulEvaluator.abstractEvaluate, hop] at hrun
    exact createNewNodeVector_grown hbdd hresult.type hrun
  · have heval := evaluated_of_shouldEvaluate hshould fun w hop => hdynamic ⟨w, hop⟩
    have hensures : bddWorld.Ensures bdd ((saturatingBddEvaluator pathLimit).abstractEvaluate n
        oneHot (createNewNodeVector n) vs) fun bdd' v =>
          StatefulEvaluator.Abstracts.Vector (DenotesUnless σ) bdd' v (bool.bitsToVector b) := by
      by_cases hcore : ∃ op, n.op = .core op
      · obtain ⟨op, hop⟩ := hcore
        exact habs.abstractEvaluate_core hbdd hvs hresult.verify hresult.eval hresult.type heval
          oneHot honeHot _ hop hlen
      · exact habs.abstractEvaluate_logic hbdd hvs hresult.verify hresult.eval hresult.type heval
          oneHot honeHot _ fun op hop => hcore ⟨op, hop⟩
    obtain ⟨hinv, hle, hv⟩ := hensures v bdd' hrun
    exact ⟨σ, ⟨hinv, (stable_denotes σ).grow hle⟩, hv⟩

/-- What is known of the nodes so far: their values are explained by their entries. -/
structure Explains (σ : ℕ → Bool) (bdd : BinaryDecisionDiagram) (before : List LogicNode)
    (values : List Value) (entries : List (Option (List ℕ))) : Prop where
  inv : bdd.Inv
  nodes : List.Forall₂ NodeValue before values
  entries : List.Forall₂ (EntryExplains σ bdd) entries values

theorem Explains.length_eq (h : Explains σ bdd before values entries) :
    before.length = values.length ∧ entries.length = values.length :=
  ⟨h.nodes.length_eq, h.entries.length_eq⟩

/-- Nodes which are not of bits type have no entry. -/
theorem entryExplains_none {v : Value} (hbits : n.type.isBits ≠ true)
    (hconf : v.conformsToType n.type = true) : EntryExplains σ bdd none v := by
  rcases v with b | _ | _ | _
  · rcases htype : n.type with w | _ | _ | _
    · rw [htype] at hbits
      exact absurd rfl hbits
    · rw [htype] at hconf
      cases hconf
    · rw [htype] at hconf
      cases hconf
    · rw [htype] at hconf
      cases hconf
  · rfl
  · rfl
  · rfl

/-- The value of a `one_hot` node is not zero. -/
theorem nodeValue_of_eval {id : ℕ} {v : Value} (hverify : LogicVerifier.verifyNode n types = true)
    (hops : ∀ p, n.op = .oneHot p → ∃ bs, ops = bitsValues bs ∧
      types = StatefulEvaluator.Abstracts.bitsTypes bs)
    (heval : LogicInterpreter.evalNode env id n ops = some v)
    (hconf : v.conformsToType n.type = true) : NodeValue n v := by
  refine ⟨hconf, ?_⟩
  rintro p b hop rfl
  obtain ⟨bs, rfl, rfl⟩ := hops p hop
  obtain ⟨op, operands, type, hlt⟩ := n
  subst hop
  have htype : type = .bits b.bitCount := by
    rcases type with w | _ | _ | _
    · rw [show b.bitCount = w by simpa [Value.conformsToType] using hconf]
    · cases hconf
    · cases hconf
    · cases hconf
  subst htype
  obtain ⟨a, one, rfl, hone, hb⟩ := Evaluator.oneHot_bitsValues heval
  have hw : b.bitCount = a.bitCount + 1 := by
    simpa [LogicVerifier.verifyNode] using hverify
  rw [hw] at hone hb
  rw [hb]
  exact Evaluator.true_mem_oneHot hone

theorem getElem?_before (hf : f.nodes = before ++ rest) {i : ℕ} (hi : i < before.length) :
    f.nodes[i]? = before[i]? := by
  rw [hf, List.getElem?_append_left hi]

/-- Operands stand among the nodes before. -/
theorem lt_of_operandTypes (h : LogicVerifier.operandTypes before ids = some types) :
    ∀ i ∈ ids, i < before.length := by
  induction ids generalizing types with
  | nil => simp
  | cons j ids ih =>
    rw [LogicVerifier.operandTypes] at h
    split at h
    · rename_i o types' ho htypes'
      intro i hi
      rcases List.mem_cons.mp hi with rfl | hi
      · exact (List.getElem?_eq_some_iff.mp ho).1
      · exact ih htypes' i hi
    · cases h

theorem bitsOperands_before (hf : f.nodes = before ++ rest)
    (htypes : LogicVerifier.operandTypes before n.operands = some types)
    (h : bitsOperands f n = true) :
    n.operands.all (fun i => (before[i]?.map fun o => o.type.isBits).getD false) = true := by
  rw [List.all_eq_true]
  intro i hi
  have hbits := List.all_eq_true.mp h i hi
  rwa [getElem?_before hf (lt_of_operandTypes htypes i hi)] at hbits

/-- A selector which is a `one_hot` node is not zero. -/
theorem oneHot_operand (hf : f.nodes = before ++ rest)
    (hnodes : List.Forall₂ NodeValue before values)
    (htypes : LogicVerifier.operandTypes before ids = some types) {i : ℕ} (hi : i ∈ ids.head?)
    (hone : isOneHot f i = true) {b : Bits} (hb : values[i]? = some (.bits b)) :
    true ∈ bool.bitsToVector b := by
  have hlt := lt_of_operandTypes htypes i (List.mem_of_head? hi)
  rw [isOneHot, getElem?_before hf hlt, List.getElem?_eq_getElem hlt] at hone
  split at hone
  · rename_i p hop
    exact (Relational.forall₂_getElem? hnodes (List.getElem?_eq_getElem hlt) hb).oneHot p b
      (Option.some.inj hop) rfl
  · cases hone

/-- One node of the run: its entry explains its value, and the others stay explained. -/
theorem evaluateNode_grown (pathLimit : ℤ) (nodeFilter : Option (ℕ → Bool))
    (hf : f.nodes = before ++ n :: rest) (h : Explains σ bdd before values entries) {id : ℕ}
    {v : Value} (htypes : LogicVerifier.operandTypes before n.operands = some types)
    (hverify : LogicVerifier.verifyNode n types = true)
    (hops : Interpreter.resolve values n.operands = some ops)
    (heval : LogicInterpreter.evalNode env id n ops = some v)
    (hconf : v.conformsToType n.type = true) {entry : Option (List ℕ)}
    (hrun : evaluateNode pathLimit nodeFilter f entries n bdd = some (entry, bdd')) :
    ∃ σ', Grown σ bdd σ' bdd' ∧ EntryExplains σ' bdd' entry v := by
  unfold evaluateNode at hrun
  by_cases hbits : n.type.isBits = true
  · rw [if_pos hbits] at hrun
    obtain ⟨⟨vector, bdd₁⟩, hvector, hrun⟩ := Option.bind_eq_some_iff.mp hrun
    obtain ⟨⟨vector', bdd₂⟩, hfresh, hrun⟩ := Option.bind_eq_some_iff.mp hrun
    cases hrun
    obtain ⟨w, hw⟩ := isBits_eq_true hbits
    rw [hw] at hconf
    obtain ⟨b, rfl, hb⟩ := Value.asBits_of_conforms hconf
    have htype : n.type = .bits b.bitCount := by rw [hw, hb]
    have hstep : ∃ σ', Grown σ bdd σ' bdd₁ ∧
        List.Forall₂ (DenotesUnless σ' bdd₁) vector (bool.bitsToVector b) := by
      unfold nodeVector at hvector
      split at hvector
      · rename_i hcond
        simp only [Bool.and_eq_true] at hcond
        obtain ⟨⟨hshould, -⟩, hoperands⟩ := hcond
        obtain ⟨⟨vs, bdd₃⟩, hvs, hvector⟩ := Option.bind_eq_some_iff.mp hvector
        obtain ⟨vs', hvs', heq⟩ := Option.bind_eq_some_iff.mp hvs
        cases heq
        obtain ⟨bs, rfl, rfl, hlen, hvecs, hhead⟩ := operands_spec h.nodes h.entries htypes hops
          (bitsOperands_before hf htypes hoperands) hvs'
        refine abstractEvaluate_grown pathLimit h.inv ⟨hverify, heval, htype⟩
          (hlen ▸ n.operands_lt) hvecs hshould _ ?_ hvector
        intro honeHot c hc
        rw [Option.getD_eq_iff, or_iff_left (by simp), Option.map_eq_some_iff] at honeHot
        obtain ⟨i, hi, hone⟩ := honeHot
        exact oneHot_operand hf h.nodes htypes hi hone (hhead i hi c hc)
      · exact createNewNodeVector_grown h.inv htype hvector
    obtain ⟨σ₁, hgrown₁, hvec⟩ := hstep
    obtain ⟨σ₂, hgrown₂, hvec'⟩ := freshen_grown hgrown₁.inv hvec hfresh
    exact ⟨σ₂, hgrown₁.trans hgrown₂, vector', rfl, hvec'⟩
  · rw [if_neg hbits] at hrun
    cases hrun
    exact ⟨σ, .refl h.inv, entryExplains_none hbits hconf⟩

/-! ## All nodes -/

theorem operands_conform (hnodes : List.Forall₂ NodeValue before values)
    (htypes : LogicVerifier.operandTypes before ids = some types)
    (hops : Interpreter.resolve values ids = some ops) :
    List.Forall₂ (fun (v : Value) t => v.conformsToType t = true) ops types := by
  induction ids generalizing types ops with
  | nil =>
    cases htypes
    cases hops
    exact .nil
  | cons i ids ih =>
    rw [LogicVerifier.operandTypes] at htypes
    split at htypes
    · rename_i o types' ho htypes'
      cases htypes
      obtain ⟨u, ops', hu, hops', rfl⟩ := Interpreter.resolve_cons hops
      exact .cons (Relational.forall₂_getElem? hnodes ho hu).conforms (ih htypes' hops')
    · cases htypes

/-- The operand of a verified `one_hot` is a value of bits. -/
theorem oneHot_operands {p : LsbOrMsb} (hop : n.op = .oneHot p)
    (hverify : LogicVerifier.verifyNode n types = true)
    (hconf : List.Forall₂ (fun (v : Value) t => v.conformsToType t = true) ops types) :
    ∃ bs, ops = bitsValues bs ∧ types = StatefulEvaluator.Abstracts.bitsTypes bs := by
  obtain ⟨op, operands, type, hlt⟩ := n
  subst hop
  unfold LogicVerifier.verifyNode at hverify
  simp only at hverify
  split at hverify
  · rcases hconf with _ | ⟨hv, hrest⟩
    rcases hrest with _ | _
    obtain ⟨b, rfl, hb⟩ := Value.asBits_of_conforms hv
    exact ⟨[b], rfl, by rw [← hb]; rfl⟩
  · cases hverify

/-- The nodes of the run, from those which have been explained on. -/
theorem run_explains (pathLimit : ℤ) (nodeFilter : Option (ℕ → Bool)) (rest : List LogicNode)
    (hf : f.nodes = before ++ rest) {values' : List Value} {entries' : List (Option (List ℕ))}
    (h : Explains σ bdd before values entries)
    (hverify : (rest.foldlM LogicVerifier.verifyStep before).isSome = true)
    (hvalues : rest.foldlM (LogicInterpreter.step env) values = some values')
    (hrun : (rest.foldlM (runStep pathLimit nodeFilter f) entries) bdd = some (entries', bdd')) :
    ∃ σ', Explains σ' bdd' f.nodes values' entries' := by
  induction rest generalizing before values entries σ bdd with
  | nil =>
    cases hvalues
    cases hrun
    rw [List.append_nil] at hf
    exact ⟨σ, hf ▸ h⟩
  | cons n rest ih =>
    -- the verifier
    rw [List.foldlM_cons, Option.bind_eq_bind, Option.isSome_bind, Option.any_eq_true_iff_get]
      at hverify
    obtain ⟨hone, hverify⟩ := hverify
    obtain ⟨next, hnext⟩ := Option.isSome_iff_exists.mp hone
    simp only [hnext, Option.get_some] at hverify
    unfold LogicVerifier.verifyStep at hnext
    split at hnext
    · rename_i types htypes
      split at hnext
      · rename_i hnode
        cases hnext
        -- the interpreter
        rw [List.foldlM_cons, Option.bind_eq_bind, Option.bind_eq_some_iff] at hvalues
        obtain ⟨values₁, hstep, hvalues⟩ := hvalues
        obtain ⟨v, ops, rfl, hops, heval, hconf⟩ := LogicInterpreter.step_eq_some hstep
        -- the diagram
        obtain ⟨⟨entries₁, bdd₁⟩, hentry, hrun⟩ := Option.bind_eq_some_iff.mp hrun
        obtain ⟨⟨entry, bdd₂⟩, hentry, heq⟩ := Option.bind_eq_some_iff.mp hentry
        cases heq
        obtain ⟨σ₁, hgrown, hexplains⟩ := evaluateNode_grown pathLimit nodeFilter hf h htypes
          hnode hops heval hconf hentry
        have hvalue := nodeValue_of_eval hnode
          (fun p hop => oneHot_operands hop hnode (operands_conform h.nodes htypes hops))
          heval hconf
        refine ih (σ := σ₁) (by rw [hf, List.append_assoc]; rfl) ?_ hverify hvalues hrun
        refine ⟨hgrown.inv, List.rel_append h.nodes (.cons hvalue .nil), ?_⟩
        exact List.rel_append (h.entries.imp fun _ _ he => entryExplains_grown hgrown he)
          (.cons hexplains .nil)
      · cases hnext
    · cases hnext

end BddFunction

end Xls
