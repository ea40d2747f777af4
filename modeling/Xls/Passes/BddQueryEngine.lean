/-
# BDD queries

`BddQueryEngine` (`xls/passes/bdd_query_engine.cc`): questions about the bits of a function,
answered on their expressions.  A query adds expressions to the diagram, so that an answer may
depend on the queries before; a positive answer is right whatever they were.

* `ask_sound` : one query;
* `run_and_queries_sound` : the diagram and every sequence of queries, for every evaluation.
-/
import Xls.Passes.BddFunctionSoundness

namespace Xls

open DecisionDiagram (denote)
open Evaluator (bool)

/-- `TreeBitLocation`, of a node of bits type. -/
structure TreeBitLocation where
  node : ℕ
  bitIndex : ℕ
  deriving DecidableEq, Repr

/-- The bit of a location in a concrete evaluation. -/
def TreeBitLocation.value (loc : TreeBitLocation) (values : List Value) : Bool :=
  match values[loc.node]? with
  | some (.bits b) => b.get loc.bitIndex
  | _ => false

namespace BddQueryEngine

/-- `GetBddNode`. -/
def getBddNode (nodeMap : List (Option (List ℕ))) (loc : TreeBitLocation) : BddM ℕ :=
  StateT.lift (nodeMap[loc.node]?.join.bind fun v => v[loc.bitIndex]?)

/-- `IsTracked`: the nodes of bits type are. -/
def isTracked (nodeMap : List (Option (List ℕ))) (node : ℕ) : Bool := nodeMap[node]?.join.isSome

/-- `ExceedsPathLimit`. -/
def exceedsPathLimit (pathLimit : ℤ) (node : ℕ) : BddM Bool := do
  let bdd ← get
  match bdd.nodes[node]? with
  | some n => pure (decide (0 < pathLimit ∧ pathLimit < n.pathCount))
  | none => failure

/-- `Not`, `And` and `Or` of the diagram. -/
def bddNot (a : ℕ) : BddM ℕ := fun bdd => bdd.not a

def bddAnd (a b : ℕ) : BddM ℕ := fun bdd => bdd.and a b

def bddOr (a b : ℕ) : BddM ℕ := fun bdd => bdd.or a b

/-- The pairs of bits in the order of the loops. -/
def pairs : List TreeBitLocation → List (TreeBitLocation × TreeBitLocation)
  | [] => []
  | x :: xs => xs.map (fun y => (x, y)) ++ pairs xs

/-- The loops of `AtMostOneTrue`, from a result on. -/
def atMostOneTrueLoop (pathLimit : ℤ) (nodeMap : List (Option (List ℕ))) :
    List (TreeBitLocation × TreeBitLocation) → ℕ → BddM Bool
  | [], result => pure (decide (result = BinaryDecisionDiagram.zero))
  | (x, y) :: rest, result => do
    let both ← bddAnd (← getBddNode nodeMap x) (← getBddNode nodeMap y)
    let result ← bddOr result both
    let exceeds ← exceedsPathLimit pathLimit result
    if exceeds then pure false else atMostOneTrueLoop pathLimit nodeMap rest result

/-- `AtMostOneTrue`. -/
def atMostOneTrue (pathLimit : ℤ) (nodeMap : List (Option (List ℕ)))
    (bits : List TreeBitLocation) : BddM Bool :=
  if 64 < bits.length then pure false
  else if bits.any fun loc => !isTracked nodeMap loc.node then pure false
  else atMostOneTrueLoop pathLimit nodeMap (pairs bits) BinaryDecisionDiagram.zero

/-- The loop of `AtLeastOneTrue`, from a result on. -/
def atLeastOneTrueLoop (pathLimit : ℤ) (nodeMap : List (Option (List ℕ))) :
    List TreeBitLocation → ℕ → BddM Bool
  | [], result => pure (decide (result = BinaryDecisionDiagram.one))
  | loc :: rest, result =>
    if isTracked nodeMap loc.node then do
      let result ← bddOr result (← getBddNode nodeMap loc)
      let exceeds ← exceedsPathLimit pathLimit result
      if exceeds then pure false else atLeastOneTrueLoop pathLimit nodeMap rest result
    else pure false

/-- `AtLeastOneTrue`. -/
def atLeastOneTrue (pathLimit : ℤ) (nodeMap : List (Option (List ℕ)))
    (bits : List TreeBitLocation) : BddM Bool :=
  atLeastOneTrueLoop pathLimit nodeMap bits BinaryDecisionDiagram.zero

/-- `Implies` on expressions. -/
def impliesNodes (a b : ℕ) : BddM Bool := do
  let violated ← bddAnd a (← bddNot b)
  pure (decide (violated = BinaryDecisionDiagram.zero))

/-- `Implies`. -/
def implies (nodeMap : List (Option (List ℕ))) (a b : TreeBitLocation) : BddM Bool :=
  if isTracked nodeMap a.node && isTracked nodeMap b.node then do
    impliesNodes (← getBddNode nodeMap a) (← getBddNode nodeMap b)
  else pure false

/-- `KnownEquals`. -/
def knownEquals (nodeMap : List (Option (List ℕ))) (a b : TreeBitLocation) : BddM Bool :=
  if isTracked nodeMap a.node && isTracked nodeMap b.node then do
    let x ← getBddNode nodeMap a
    let y ← getBddNode nodeMap b
    pure (decide (x = y))
  else pure false

/-- `KnownNotEquals`. -/
def knownNotEquals (nodeMap : List (Option (List ℕ))) (a b : TreeBitLocation) : BddM Bool :=
  if isTracked nodeMap a.node && isTracked nodeMap b.node then do
    let x ← getBddNode nodeMap a
    let y ← bddNot (← getBddNode nodeMap b)
    pure (decide (x = y))
  else pure false

/-- An expression or its negation. -/
def qualified (value : Bool) (a : ℕ) : BddM ℕ := if value then pure a else bddNot a

/-- The conjunction of the predicate bits, from a conjunction on. -/
def predicate (nodeMap : List (Option (List ℕ))) :
    List (TreeBitLocation × Bool) → ℕ → BddM ℕ
  | [], conjunction => pure conjunction
  | (loc, value) :: rest, conjunction => do
    let bit ← qualified value (← getBddNode nodeMap loc)
    predicate nodeMap rest (← bddAnd conjunction bit)

/-- `implied_true_or_false`. -/
def impliedTrueOrFalse (condition bit : ℕ) (value : Bool) : BddM Bool := do
  impliesNodes condition (← qualified value bit)

/-- The value which the predicate implies for one bit, if any. -/
def impliedBit (condition bit : ℕ) : BddM (Option Bool) := do
  let isTrue ← impliedTrueOrFalse condition bit true
  if isTrue then pure (some true)
  else do
    let isFalse ← impliedTrueOrFalse condition bit false
    pure (if isFalse then some false else none)

/-- The loop over the bits of the node. -/
def impliedBits (condition : ℕ) : List ℕ → BddM (Option (List Bool))
  | [] => pure (some [])
  | bit :: rest => do
    match ← impliedBit condition bit with
    | some value => do
      let values ← impliedBits condition rest
      pure (values.map (value :: ·))
    | none => pure none

/-- `ImpliedNodeValue`. -/
def impliedNodeValue (nodeMap : List (Option (List ℕ)))
    (predicateBitValues : List (TreeBitLocation × Bool)) (node : ℕ) : BddM (Option Bits) :=
  match nodeMap[node]?.join with
  | none => pure none
  | some vector => do
    let condition ← predicate nodeMap predicateBitValues BinaryDecisionDiagram.one
    if condition = BinaryDecisionDiagram.zero then pure none
    else do
      let bits ← impliedBits condition vector
      pure (bits.map Bits.ofBools)

/-- The queries. -/
inductive Query where
  | atMostOneTrue (bits : List TreeBitLocation)
  | atLeastOneTrue (bits : List TreeBitLocation)
  | implies (a b : TreeBitLocation)
  | knownEquals (a b : TreeBitLocation)
  | knownNotEquals (a b : TreeBitLocation)
  | impliedNodeValue (predicateBitValues : List (TreeBitLocation × Bool)) (node : ℕ)
  deriving DecidableEq, Repr

/-- Their answers. -/
inductive Answer where
  | bool (positive : Bool)
  | value (bits : Option Bits)
  deriving DecidableEq

/-- One query. -/
def ask (pathLimit : ℤ) (nodeMap : List (Option (List ℕ))) : Query → BddM Answer
  | .atMostOneTrue bits => Answer.bool <$> atMostOneTrue pathLimit nodeMap bits
  | .atLeastOneTrue bits => Answer.bool <$> atLeastOneTrue pathLimit nodeMap bits
  | .implies a b => Answer.bool <$> implies nodeMap a b
  | .knownEquals a b => Answer.bool <$> knownEquals nodeMap a b
  | .knownNotEquals a b => Answer.bool <$> knownNotEquals nodeMap a b
  | .impliedNodeValue bits node => Answer.value <$> impliedNodeValue nodeMap bits node

/-- What a positive answer says about a concrete evaluation. -/
def Query.Holds (values : List Value) : Query → Answer → Prop
  | .atMostOneTrue bits, .bool true =>
    bits.Pairwise fun a b => ¬ (a.value values = true ∧ b.value values = true)
  | .atLeastOneTrue bits, .bool true => ∃ a ∈ bits, a.value values = true
  | .implies a b, .bool true => a.value values = true → b.value values = true
  | .knownEquals a b, .bool true => a.value values = b.value values
  | .knownNotEquals a b, .bool true => a.value values ≠ b.value values
  | .impliedNodeValue bits node, .value (some b) =>
    (∀ p ∈ bits, p.1.value values = p.2) → values[node]? = some (.bits b)
  | _, _ => True

/-! ## Soundness of the queries -/

variable {σ : ℕ → Bool} {bdd : BinaryDecisionDiagram} {nodeMap : List (Option (List ℕ))}
  {values : List Value}

/-- The expressions have the bits of the evaluation. -/
def Known (σ : ℕ → Bool) (nodeMap : List (Option (List ℕ))) (values : List Value)
    (bdd : BinaryDecisionDiagram) : Prop :=
  List.Forall₂ (BddFunction.EntryExplains σ bdd) nodeMap values

variable (hbdd : bddWorld.Inv bdd) (h : Known σ nodeMap values bdd)

section

include h

theorem Known.grow {bdd' : BinaryDecisionDiagram} (hle : bddWorld.Le bdd bdd') :
    Known σ nodeMap values bdd' := by
  refine h.imp fun entry v he => ?_
  rcases v with b | _ | _ | _
  · obtain ⟨v, rfl, hv⟩ := he
    exact ⟨v, rfl, hv.imp fun _ _ hd => (stable_denotes σ).grow hle hd⟩
  · exact he
  · exact he
  · exact he

/-- An entry of the map, and the bits of its node. -/
theorem Known.entry {node : ℕ} {v : List ℕ} (hv : nodeMap[node]?.join = some v) :
    ∃ b, values[node]? = some (.bits b) ∧
      BddFunction.DenotesVector σ bdd v (bool.bitsToVector b) := by
  have hv := Option.join_eq_some_iff.mp hv
  have hlt : node < values.length := h.length_eq ▸ (List.getElem?_eq_some_iff.mp hv).1
  have hget := List.getElem?_eq_getElem hlt
  have he := Relational.forall₂_getElem? h hv hget
  generalize values[node] = u at hget he
  rcases u with b | _ | _ | _
  · obtain ⟨v', hv', hden⟩ := he
    cases hv'
    exact ⟨b, hget, hden⟩
  · cases he
  · cases he
  · cases he

end

include hbdd h in
theorem ensures_getBddNode (loc : TreeBitLocation) :
    bddWorld.Ensures bdd (getBddNode nodeMap loc) fun t i => Denotes σ t i (loc.value values) := by
  refine World.Ensures.lift hbdd fun i hi => ?_
  obtain ⟨v, hv, hi⟩ := Option.bind_eq_some_iff.mp hi
  obtain ⟨b, hb, hden⟩ := h.entry hv
  have hlt := (List.getElem?_eq_some_iff.mp hi).1
  rw [hden.length_eq] at hlt
  have hbit := Relational.forall₂_getElem? hden hi (List.getElem?_eq_getElem hlt)
  rw [← List.getD_eq_getElem _ false, Evaluator.getD_bool_bitsToVector] at hbit
  rw [TreeBitLocation.value, hb]
  exact hbit

section Operations

variable {i j : ℕ} {x y : Bool} (hi : Denotes σ bdd i x)

section

include hbdd hi

theorem ensures_bddNot :
    bddWorld.Ensures bdd (bddNot i) fun t r => Denotes σ t r (!x) := by
  have hcall := SaturatingBdd.ensures_call (σ := σ) (c := .not i) hbdd hi.1
  rwa [BinaryDecisionDiagram.Call.meaning, hi.2] at hcall

theorem ensures_bddAnd (hj : Denotes σ bdd j y) :
    bddWorld.Ensures bdd (bddAnd i j) fun t r => Denotes σ t r (x && y) := by
  have hcall := SaturatingBdd.ensures_call (σ := σ) (c := .and i j) hbdd ⟨hi.1, hj.1⟩
  rwa [BinaryDecisionDiagram.Call.meaning, hi.2, hj.2] at hcall

theorem ensures_bddOr (hj : Denotes σ bdd j y) :
    bddWorld.Ensures bdd (bddOr i j) fun t r => Denotes σ t r (x || y) := by
  have hcall := SaturatingBdd.ensures_call (σ := σ) (c := .or i j) hbdd ⟨hi.1, hj.1⟩
  rwa [BinaryDecisionDiagram.Call.meaning, hi.2, hj.2] at hcall

end

theorem ensures_exceedsPathLimit (pathLimit : ℤ) (hbdd : bddWorld.Inv bdd) (i : ℕ) :
    bddWorld.Ensures bdd (exceedsPathLimit pathLimit i) fun _ _ => True := by
  intro b bdd' hrun
  unfold exceedsPathLimit at hrun
  rcases hi : bdd.nodes[i]? with _ | n
  · simp [bind, StateT.bind, get, getThe, MonadStateOf.get, StateT.get, hi] at hrun
    cases hrun
  · simp [bind, StateT.bind, get, getThe, MonadStateOf.get, StateT.get, hi] at hrun
    cases hrun
    exact ⟨hbdd, bddWorld.refl bdd, trivial⟩

section

include hbdd

theorem denotes_zero : Denotes σ bdd BinaryDecisionDiagram.zero false :=
  ⟨Nat.lt_of_succ_lt hbdd.1.two_le, hbdd.1.denote_zero σ⟩

theorem denotes_one : Denotes σ bdd BinaryDecisionDiagram.one true :=
  ⟨hbdd.1.two_le, hbdd.1.denote_one σ⟩

end

end Operations

/-- An answer which is positive only when a fact holds. -/
abbrev Positive (p : Prop) (answer : Bool) : Prop := answer = true → p

variable {b : Bool} {c : ℕ}

theorem ensures_atMostOneTrueLoop (pathLimit : ℤ) (l : List (TreeBitLocation × TreeBitLocation))
    (hbdd : bddWorld.Inv bdd) (h : Known σ nodeMap values bdd) {result : ℕ}
    (hb : Denotes σ bdd result b) :
    bddWorld.Ensures bdd (atMostOneTrueLoop pathLimit nodeMap l result) fun _ answer =>
      Positive (b = false ∧ ∀ p ∈ l, ¬ (p.1.value values = true ∧ p.2.value values = true))
        answer := by
  induction l generalizing bdd result b with
  | nil =>
    refine .pure hbdd fun hzero => ⟨?_, by simp⟩
    rw [of_decide_eq_true hzero] at hb
    exact hb.unique (denotes_zero hbdd)
  | cons p l ih =>
    obtain ⟨x, y⟩ := p
    refine (ensures_getBddNode hbdd h x).bind fun bdd₁ i hbdd₁ hle₁ hi => ?_
    have h₁ := h.grow hle₁
    refine (ensures_getBddNode hbdd₁ h₁ y).bind fun bdd₂ j hbdd₂ hle₂ hj => ?_
    have h₂ := h₁.grow hle₂
    have hi₂ := (stable_denotes σ).grow hle₂ hi
    refine (ensures_bddAnd hbdd₂ hi₂ hj).bind fun bdd₃ both hbdd₃ hle₃ hboth => ?_
    have h₃ := h₂.grow hle₃
    have hb₃ := (stable_denotes σ).grow (bddWorld.trans hle₁ (bddWorld.trans hle₂ hle₃)) hb
    refine (ensures_bddOr hbdd₃ hb₃ hboth).bind fun bdd₄ r hbdd₄ hle₄ hr => ?_
    have h₄ := h₃.grow hle₄
    refine (ensures_exceedsPathLimit pathLimit hbdd₄ r).bind fun bdd₅ e hbdd₅ hle₅ _ => ?_
    refine .ite (fun _ => .pure hbdd₅ fun hfalse => by cases hfalse) fun _ => ?_
    refine (ih hbdd₅ (h₄.grow hle₅) ((stable_denotes σ).grow hle₅ hr)).mono
      fun _ answer _ _ hanswer htrue => ?_
    obtain ⟨hor, hrest⟩ := hanswer htrue
    rw [Bool.or_eq_false_iff] at hor
    refine ⟨hor.1, ?_⟩
    intro q hq
    rcases List.mem_cons.mp hq with rfl | hq
    · rintro ⟨hx, hy⟩
      rw [hx, hy] at hor
      cases hor.2
    · exact hrest q hq

/-- Each pair of bits is looked at. -/
theorem pairwise_of_pairs {R : TreeBitLocation → TreeBitLocation → Prop} :
    ∀ {bits : List TreeBitLocation}, (∀ p ∈ pairs bits, R p.1 p.2) → bits.Pairwise R
  | [], _ => .nil
  | x :: xs, h => by
    refine .cons (fun y hy => ?_) (pairwise_of_pairs fun p hp => ?_)
    · exact h (x, y) (List.mem_append_left _ (List.mem_map.mpr ⟨y, hy, rfl⟩))
    · exact h p (List.mem_append_right _ hp)

theorem ensures_atMostOneTrue (pathLimit : ℤ) (bits : List TreeBitLocation)
    (hbdd : bddWorld.Inv bdd) (h : Known σ nodeMap values bdd) :
    bddWorld.Ensures bdd (atMostOneTrue pathLimit nodeMap bits) fun _ answer =>
      Positive (bits.Pairwise fun a b => ¬ (a.value values = true ∧ b.value values = true))
        answer := by
  refine .ite (fun _ => .pure hbdd fun hfalse => by cases hfalse) fun _ => ?_
  refine .ite (fun _ => .pure hbdd fun hfalse => by cases hfalse) fun _ => ?_
  refine (ensures_atMostOneTrueLoop pathLimit (pairs bits) hbdd h (denotes_zero hbdd)).mono
    fun _ answer _ _ hanswer htrue => pairwise_of_pairs (hanswer htrue).2

theorem ensures_atLeastOneTrueLoop (pathLimit : ℤ) (bits : List TreeBitLocation)
    (hbdd : bddWorld.Inv bdd) (h : Known σ nodeMap values bdd) {result : ℕ}
    (hb : Denotes σ bdd result b) :
    bddWorld.Ensures bdd (atLeastOneTrueLoop pathLimit nodeMap bits result) fun _ answer =>
      Positive (b = true ∨ ∃ a ∈ bits, a.value values = true) answer := by
  induction bits generalizing bdd result b with
  | nil =>
    refine .pure hbdd fun hone => .inl ?_
    rw [of_decide_eq_true hone] at hb
    exact hb.unique (denotes_one hbdd)
  | cons loc bits ih =>
    refine .ite (fun _ => ?_) fun _ => .pure hbdd fun hfalse => by cases hfalse
    refine (ensures_getBddNode hbdd h loc).bind fun bdd₁ i hbdd₁ hle₁ hi => ?_
    have hb₁ := (stable_denotes σ).grow hle₁ hb
    refine (ensures_bddOr hbdd₁ hb₁ hi).bind fun bdd₂ r hbdd₂ hle₂ hr => ?_
    refine (ensures_exceedsPathLimit pathLimit hbdd₂ r).bind fun bdd₃ e hbdd₃ hle₃ _ => ?_
    refine .ite (fun _ => .pure hbdd₃ fun hfalse => by cases hfalse) fun _ => ?_
    refine (ih hbdd₃ (((h.grow hle₁).grow hle₂).grow hle₃)
      ((stable_denotes σ).grow hle₃ hr)).mono fun _ answer _ _ hanswer htrue => ?_
    rcases hanswer htrue with hor | ⟨a, ha, hset⟩
    · rcases Bool.or_eq_true_iff.mp hor with hx | hx
      · exact .inl hx
      · exact .inr ⟨loc, List.mem_cons_self, hx⟩
    · exact .inr ⟨a, List.mem_cons_of_mem _ ha, hset⟩

section

include hbdd

theorem ensures_impliesNodes {i j : ℕ} {x y : Bool}
    (hi : Denotes σ bdd i x) (hj : Denotes σ bdd j y) :
    bddWorld.Ensures bdd (impliesNodes i j) fun _ answer =>
      Positive (x = true → y = true) answer := by
  refine (ensures_bddNot hbdd hj).bind fun bdd₁ n hbdd₁ hle₁ hn => ?_
  refine (ensures_bddAnd hbdd₁ ((stable_denotes σ).grow hle₁ hi) hn).bind
    fun bdd₂ r hbdd₂ _ hr => ?_
  refine .pure hbdd₂ fun hzero hx => ?_
  rw [of_decide_eq_true hzero] at hr
  have hand := hr.unique (denotes_zero hbdd₂)
  rw [hx, Bool.true_and, Bool.not_eq_false'] at hand
  exact hand

section

include h

theorem ensures_implies (a b : TreeBitLocation) :
    bddWorld.Ensures bdd (implies nodeMap a b) fun _ answer =>
      Positive (a.value values = true → b.value values = true) answer := by
  refine .ite (fun _ => ?_) fun _ => .pure hbdd fun hfalse => by cases hfalse
  refine (ensures_getBddNode hbdd h a).bind fun bdd₁ i hbdd₁ hle₁ hi => ?_
  refine (ensures_getBddNode hbdd₁ (h.grow hle₁) b).bind fun bdd₂ j hbdd₂ hle₂ hj => ?_
  exact ensures_impliesNodes hbdd₂ ((stable_denotes σ).grow hle₂ hi) hj

theorem ensures_knownEquals (a b : TreeBitLocation) :
    bddWorld.Ensures bdd (knownEquals nodeMap a b) fun _ answer =>
      Positive (a.value values = b.value values) answer := by
  refine .ite (fun _ => ?_) fun _ => .pure hbdd fun hfalse => by cases hfalse
  refine (ensures_getBddNode hbdd h a).bind fun bdd₁ i hbdd₁ hle₁ hi => ?_
  refine (ensures_getBddNode hbdd₁ (h.grow hle₁) b).bind fun bdd₂ j hbdd₂ hle₂ hj => ?_
  refine .pure hbdd₂ fun heq => ?_
  rw [of_decide_eq_true heq] at hi
  exact ((stable_denotes σ).grow hle₂ hi).unique hj

theorem ensures_knownNotEquals (a b : TreeBitLocation) :
    bddWorld.Ensures bdd (knownNotEquals nodeMap a b) fun _ answer =>
      Positive (a.value values ≠ b.value values) answer := by
  refine .ite (fun _ => ?_) fun _ => .pure hbdd fun hfalse => by cases hfalse
  refine (ensures_getBddNode hbdd h a).bind fun bdd₁ i hbdd₁ hle₁ hi => ?_
  refine (ensures_getBddNode hbdd₁ (h.grow hle₁) b).bind fun bdd₂ j hbdd₂ hle₂ hj => ?_
  refine (ensures_bddNot hbdd₂ hj).bind fun bdd₃ n hbdd₃ hle₃ hn => ?_
  refine .pure hbdd₃ fun heq hvalue => ?_
  rw [of_decide_eq_true heq] at hi
  have hneg := ((stable_denotes σ).grow (bddWorld.trans hle₂ hle₃) hi).unique hn
  rw [hvalue] at hneg
  exact (Bool.not_eq_self _).mp hneg.symm

end

theorem ensures_qualified {i : ℕ} {x : Bool} (hi : Denotes σ bdd i x) (value : Bool) :
    bddWorld.Ensures bdd (qualified value i) fun t r => Denotes σ t r (x == value) := by
  rcases value with _ | _
  · refine (ensures_bddNot hbdd hi).mono fun t r _ _ hr => ?_
    rw [beq_false]
    exact hr
  · refine .pure hbdd ?_
    rw [beq_true]
    exact hi

omit hbdd in
theorem ensures_predicate (bits : List (TreeBitLocation × Bool)) (hbdd : bddWorld.Inv bdd)
    (h : Known σ nodeMap values bdd) (hb : Denotes σ bdd c b) :
    bddWorld.Ensures bdd (predicate nodeMap bits c) fun t r =>
      Denotes σ t r (b && bits.all fun p => p.1.value values == p.2) := by
  induction bits generalizing bdd c b with
  | nil =>
    refine .pure hbdd ?_
    rw [List.all_nil, Bool.and_true]
    exact hb
  | cons p bits ih =>
    obtain ⟨loc, value⟩ := p
    refine (ensures_getBddNode hbdd h loc).bind fun bdd₁ i hbdd₁ hle₁ hi => ?_
    refine (ensures_qualified hbdd₁ hi value).bind fun bdd₂ q hbdd₂ hle₂ hq => ?_
    have hle := bddWorld.trans hle₁ hle₂
    refine (ensures_bddAnd hbdd₂ ((stable_denotes σ).grow hle hb) hq).bind
      fun bdd₃ c' hbdd₃ hle₃ hc' => ?_
    rw [List.all_cons, ← Bool.and_assoc]
    exact ih hbdd₃ (h.grow (bddWorld.trans hle hle₃)) hc'

/-- A value is implied when the condition leaves no other. -/
theorem ensures_impliedTrueOrFalse {i : ℕ} {x : Bool}
    (hc : Denotes σ bdd c b) (hi : Denotes σ bdd i x) (value : Bool) :
    bddWorld.Ensures bdd (impliedTrueOrFalse c i value) fun _ answer =>
      Positive (b = true → x = value) answer := by
  refine (ensures_qualified hbdd hi value).bind fun bdd₁ q hbdd₁ hle₁ hq => ?_
  refine (ensures_impliesNodes hbdd₁ ((stable_denotes σ).grow hle₁ hc) hq).mono
    fun _ answer _ _ hanswer htrue hb => ?_
  exact beq_iff_eq.mp (hanswer htrue hb)

theorem ensures_impliedBit {i : ℕ} {x : Bool} (hc : Denotes σ bdd c b) (hi : Denotes σ bdd i x) :
    bddWorld.Ensures bdd (impliedBit c i) fun _ answer =>
      ∀ value ∈ answer, b = true → x = value := by
  refine (ensures_impliedTrueOrFalse hbdd hc hi true).bind fun bdd₁ isTrue hbdd₁ hle₁ htrue => ?_
  refine .ite (fun hset => .pure hbdd₁ ?_) fun _ => ?_
  · rintro _ ⟨⟩
    exact htrue hset
  · refine (ensures_impliedTrueOrFalse hbdd₁ ((stable_denotes σ).grow hle₁ hc)
      ((stable_denotes σ).grow hle₁ hi) false).bind fun bdd₂ isFalse hbdd₂ _ hfalse => ?_
    refine .pure hbdd₂ fun value hvalue => ?_
    split at hvalue
    · rename_i hset
      cases hvalue
      exact hfalse hset
    · cases hvalue

end

theorem ensures_impliedBits (bits : List ℕ) (hbdd : bddWorld.Inv bdd) {xs : List Bool}
    (hc : Denotes σ bdd c b) (hbits : BddFunction.DenotesVector σ bdd bits xs) :
    bddWorld.Ensures bdd (impliedBits c bits) fun _ answer =>
      ∀ v ∈ answer, b = true → xs = v := by
  induction bits generalizing bdd xs with
  | nil =>
    rcases hbits with _ | _
    refine .pure hbdd ?_
    rintro _ ⟨⟩ _
    rfl
  | cons i bits ih =>
    rcases hbits with _ | @⟨_, x, _, xs, hi, hbits⟩
    refine (ensures_impliedBit hbdd hc hi).bind fun bdd₁ answer hbdd₁ hle₁ hanswer => ?_
    rcases answer with _ | value
    · refine .pure hbdd₁ ?_
      rintro _ ⟨⟩
    · refine (ih hbdd₁ ((stable_denotes σ).grow hle₁ hc)
        (hbits.imp fun _ _ hd => (stable_denotes σ).grow hle₁ hd)).bind
        fun bdd₂ rest hbdd₂ _ hrest => .pure hbdd₂ fun v hv hb => ?_
      obtain ⟨v', hv', rfl⟩ := Option.map_eq_some_iff.mp hv
      rw [hanswer value rfl hb, hrest v' hv' hb]

theorem ensures_impliedNodeValue (bits : List (TreeBitLocation × Bool)) (node : ℕ)
    (hbdd : bddWorld.Inv bdd) (h : Known σ nodeMap values bdd) :
    bddWorld.Ensures bdd (impliedNodeValue nodeMap bits node) fun _ answer =>
      ∀ b ∈ answer, (∀ p ∈ bits, p.1.value values = p.2) → values[node]? = some (.bits b) := by
  unfold impliedNodeValue
  split
  · refine .pure hbdd ?_
    rintro _ ⟨⟩
  · rename_i vector hvector
    obtain ⟨b, hb, hden⟩ := h.entry hvector
    refine (ensures_predicate bits hbdd h (denotes_one hbdd)).bind fun bdd₁ c hbdd₁ hle₁ hc => ?_
    refine .ite (fun _ => .pure hbdd₁ (by rintro _ ⟨⟩)) fun _ => ?_
    refine (ensures_impliedBits vector hbdd₁ hc
      (hden.imp fun _ _ hd => (stable_denotes σ).grow hle₁ hd)).bind
      fun bdd₂ implied hbdd₂ _ himplied => .pure hbdd₂ fun b' hb' hholds => ?_
    obtain ⟨v, hv, rfl⟩ := Option.map_eq_some_iff.mp hb'
    have hcondition : (true && bits.all fun p => p.1.value values == p.2) = true := by
      rw [Bool.true_and, List.all_eq_true]
      exact fun p hp => beq_iff_eq.mpr (hholds p hp)
    rw [← himplied v hv hcondition, hb]
    congr 2
    refine Evaluator.bool_bitsToVector_injective ?_
    rw [Evaluator.bool_bitsToVector_ofBools]

/-- A query whose positive answer is right. -/
theorem ensures_bool {m : StateT BinaryDecisionDiagram Option Bool} {P : Prop} {q : Query}
    (h : bddWorld.Ensures bdd m fun _ answer => Positive P answer)
    (hfalse : q.Holds values (.bool false)) (htrue : P → q.Holds values (.bool true)) :
    bddWorld.Ensures bdd (m >>= fun a => pure (Answer.bool a)) fun _ answer =>
      q.Holds values answer := by
  refine h.bind fun _ a ht _ ha => ?_
  rcases a with _ | _
  · exact .pure ht hfalse
  · exact .pure ht (htrue (ha rfl))

/-- **One query.**  A positive answer is right in the evaluation. -/
theorem ask_sound (pathLimit : ℤ) (q : Query) (hbdd : bddWorld.Inv bdd)
    (h : Known σ nodeMap values bdd) :
    bddWorld.Ensures bdd (ask pathLimit nodeMap q) fun _ answer => q.Holds values answer := by
  rcases q with bits | bits | ⟨a, b⟩ | ⟨a, b⟩ | ⟨a, b⟩ | ⟨bits, node⟩
  · exact ensures_bool (ensures_atMostOneTrue pathLimit bits hbdd h) trivial id
  · refine ensures_bool (ensures_atLeastOneTrueLoop pathLimit bits hbdd h (denotes_zero hbdd))
      trivial ?_
    rintro (hfalse | hsome)
    · cases hfalse
    · exact hsome
  · exact ensures_bool (ensures_implies hbdd h a b) trivial id
  · exact ensures_bool (ensures_knownEquals hbdd h a b) trivial id
  · exact ensures_bool (ensures_knownNotEquals hbdd h a b) trivial id
  · refine ((ensures_impliedNodeValue bits node hbdd h).bind fun _ a ht _ ha => ?_ :
      bddWorld.Ensures bdd (_ >>= fun a => pure (Answer.value a)) _)
    rcases a with _ | b
    · exact .pure ht trivial
    · exact .pure ht (ha b rfl)

/-- Every query of a sequence. -/
theorem ask_all_sound (pathLimit : ℤ) (queries : List Query) (hbdd : bddWorld.Inv bdd)
    (h : Known σ nodeMap values bdd) :
    bddWorld.Ensures bdd (queries.mapM (ask pathLimit nodeMap)) fun _ answers =>
      List.Forall₂ (fun q a => q.Holds values a) queries answers := by
  have hmap := World.ensures_mapM (W := bddWorld)
    (R := fun bdd (q q' : Query) => q = q' ∧ Known σ nodeMap values bdd)
    (T := fun _ (a : Answer) (q : Query) => q.Holds values a) (f := ask pathLimit nodeMap) (g := id)
    ⟨fun hle hq => ⟨hq.1, hq.2.grow hle⟩⟩ ⟨fun _ ha => ha⟩
    (fun {_ q _} hbdd hq => hq.1 ▸ ask_sound pathLimit q hbdd hq.2) hbdd
    (List.forall₂_same.mpr fun q _ => ⟨rfl, h⟩ : List.Forall₂ _ queries queries)
  refine hmap.mono fun _ answers _ _ hanswers => ?_
  rw [List.map_id] at hanswers
  exact hanswers.flip

end BddQueryEngine

namespace BinaryDecisionDiagram

/-- An assignment of the variables, as the values of their nodes. -/
def assignment (bdd : BinaryDecisionDiagram) (σ : ℕ → Bool) (base : ℕ) : Option Bool :=
  (bdd.node base).map fun n => σ n.var

theorem evaluate_assignment {bdd : BinaryDecisionDiagram} (h : bdd.Inv) {σ : ℕ → Bool} {i : ℕ}
    {b : Bool} (hi : Denotes σ bdd i b) : bdd.evaluate i (bdd.assignment σ) = .ok b := by
  have hbase : ∀ v base, bdd.nodeMap ⟨v, one, zero⟩ = some base →
      bdd.assignment σ base = some (σ v) := by
    intro v base hmap
    rw [assignment, h.1.map_iff.mp hmap]
    rfl
  have heval := (h.1.canonical h.2).evaluate i hi.1 (bdd.assignment σ) σ fun v base b hmap hb => by
    rw [hbase v base hmap] at hb
    exact Option.some.inj hb
  rcases heval with hok | ⟨v, base, -, hmap, hnone⟩
  · rw [hok, hi.2]
  · rw [hbase v base hmap] at hnone
    cases hnone

end BinaryDecisionDiagram

namespace BddFunction

open BddQueryEngine (Query ask)

/-- The run of the pass next to an evaluation. -/
theorem exists_explains {f : LogicFunction} (hverify : LogicVerifier.verify f = true)
    {pathLimit : ℤ} {nodeFilter : Option (ℕ → Bool)} {bf : BddFunction}
    (hrun : run pathLimit nodeFilter f = some bf) {env : Env} {values : List Value}
    (hvalues : LogicInterpreter.run env f = some values) :
    ∃ σ, Explains σ bf.bdd f.nodes values bf.nodeMap := by
  obtain ⟨⟨entries, bdd⟩, hfold, rfl⟩ := Option.map_eq_some_iff.mp hrun
  exact run_explains (σ := fun _ => false) pathLimit nodeFilter f.nodes rfl
    ⟨BinaryDecisionDiagram.inv_empty, .nil, .nil⟩ hverify hvalues hfold

/-- **BDD functions and queries.**  For every evaluation of a verified function there is an
assignment of the variables under which every expression of the pass evaluates to its bit; and
whatever queries are asked one after the other, every positive answer is right in every
evaluation. -/
theorem run_and_queries_sound {f : LogicFunction} (hverify : LogicVerifier.verify f = true)
    {pathLimit : ℤ} {nodeFilter : Option (ℕ → Bool)} {bf : BddFunction}
    (hrun : run pathLimit nodeFilter f = some bf) :
    (∀ (env : Env) (values : List Value), LogicInterpreter.run env f = some values →
      ∃ σ : ℕ → Bool, ∀ (i : ℕ) (n : LogicNode), f.nodes[i]? = some n → n.type.isBits = true →
        ∃ (b : Bits) (v : List ℕ), values[i]? = some (.bits b) ∧ n.type = .bits b.bitCount ∧
          bf.nodeMap[i]? = some (some v) ∧ v.length = b.bitCount ∧
          ∀ (j e : ℕ), v[j]? = some e → bf.bdd.evaluate e (bf.bdd.assignment σ) = .ok (b.get j)) ∧
    ∀ (queries : List Query) (answers : List BddQueryEngine.Answer) (bdd' : BinaryDecisionDiagram),
      (queries.mapM (ask pathLimit bf.nodeMap)).run bf.bdd = some (answers, bdd') →
      ∀ (env : Env) (values : List Value), LogicInterpreter.run env f = some values →
        List.Forall₂ (fun q a => q.Holds values a) queries answers := by
  constructor
  · intro env values hvalues
    obtain ⟨σ, h⟩ := exists_explains hverify hrun hvalues
    refine ⟨σ, fun i n hn hbits => ?_⟩
    have hlt : i < values.length := h.length_eq.1 ▸ (List.getElem?_eq_some_iff.mp hn).1
    have hvalue := List.getElem?_eq_getElem hlt
    have hconf := (Relational.forall₂_getElem? h.nodes hn hvalue).conforms
    obtain ⟨w, hw⟩ := isBits_eq_true hbits
    rw [hw] at hconf
    obtain ⟨b, hb, hbw⟩ := Value.asBits_of_conforms hconf
    have hentry := List.getElem?_eq_getElem (show i < bf.nodeMap.length from h.length_eq.2 ▸ hlt)
    have hexplains := Relational.forall₂_getElem? h.entries hentry hvalue
    rw [hb] at hvalue hexplains
    obtain ⟨v, hv, hden⟩ := hexplains
    refine ⟨b, v, hvalue, by rw [hw, hbw], by rw [hentry, hv], ?_, fun j e he => ?_⟩
    · rw [hden.length_eq, Evaluator.length_bool_bitsToVector]
    · have hj : j < (bool.bitsToVector b).length :=
        hden.length_eq ▸ (List.getElem?_eq_some_iff.mp he).1
      have hbit := Relational.forall₂_getElem? hden he (List.getElem?_eq_getElem hj)
      rw [← List.getD_eq_getElem _ false, Evaluator.getD_bool_bitsToVector] at hbit
      exact BinaryDecisionDiagram.evaluate_assignment h.inv hbit
  · intro queries answers bdd' hask env values hvalues
    obtain ⟨σ, h⟩ := exists_explains hverify hrun hvalues
    exact (BddQueryEngine.ask_all_sound pathLimit queries h.inv h.entries answers bdd' hask).2.2

/-- A parameter of one bit, its negation, and both again through a `one_hot` and a
`one_hot_sel`. -/
def negated : LogicFunction where
  nodes := [⟨.core .param, [], .bits 1, by decide⟩, ⟨.not, [0], .bits 1, by decide⟩,
    ⟨.oneHot .lsb, [0], .bits 2, by decide⟩, ⟨.oneHotSel, [2, 0, 1], .bits 1, by decide⟩]

/-- A parameter and its negation exclude each other, and the one fixes the other. -/
theorem run_and_queries_sound_negated : ∃ bf answers bdd', run 2 none negated = some bf ∧
    ([Query.atMostOneTrue [⟨0, 0⟩, ⟨1, 0⟩], .impliedNodeValue [(⟨0, 0⟩, true)] 1].mapM
      (ask 2 bf.nodeMap)).run bf.bdd = some (answers, bdd') ∧
    answers = [.bool true, .value (some ⟨1, 0, by decide⟩)] ∧
    ∀ (env : Env) (values : List Value), LogicInterpreter.run env negated = some values →
      List.Forall₂ (fun q a => Query.Holds values q a)
        [.atMostOneTrue [⟨0, 0⟩, ⟨1, 0⟩], .impliedNodeValue [(⟨0, 0⟩, true)] 1] answers := by
  have hanswers : ((run 2 none negated).bind fun bf =>
      ((([Query.atMostOneTrue [⟨0, 0⟩, ⟨1, 0⟩], .impliedNodeValue [(⟨0, 0⟩, true)] 1].mapM
        (ask 2 bf.nodeMap)).run bf.bdd).map Prod.fst)) =
      some [.bool true, .value (some ⟨1, 0, by decide⟩)] := by
    decide +kernel
  obtain ⟨bf, hrun, hask⟩ := Option.bind_eq_some_iff.mp hanswers
  obtain ⟨⟨answers, bdd'⟩, hask, rfl⟩ := Option.map_eq_some_iff.mp hask
  exact ⟨bf, _, bdd', hrun, hask, rfl,
    (run_and_queries_sound (f := negated) (by decide) hrun).2 _ _ bdd' hask⟩

end BddFunction

end Xls
