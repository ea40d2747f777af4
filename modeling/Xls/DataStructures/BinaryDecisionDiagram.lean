/-
# Binary decision diagrams

`BinaryDecisionDiagram` (`xls/data_structures/binary_decision_diagram.cc`): a table of
nodes which is shared by all expressions, with a map from the contents of a node to its
index and a map with the results of `IfThenElse`.  `none` is a failed `XLS_CHECK` or an
`at` out of range.

In every reachable state the diagram is ordered and reduced, so that two indices are
equal exactly when they denote the same function.
-/
import Xls.Lib.DecisionDiagram
import Xls.Lib.Run

namespace Xls

open DecisionDiagram (denote paths Above Ordered Reduced)

/-- `BddNode`.  A leaf has no variable and no children. -/
structure BddNode where
  content : Option DecisionDiagram.Node
  pathCount : ℕ
  deriving DecidableEq, Repr

/-- `BinaryDecisionDiagram`. -/
structure BinaryDecisionDiagram where
  nextVar : ℕ
  nodes : List BddNode
  nodeMap : DecisionDiagram.Node → Option ℕ
  iteMap : ℕ × ℕ × ℕ → Option ℕ

namespace BinaryDecisionDiagram

/-- The greatest `int32_t`. -/
def int32Max : ℕ := 2147483647

/-- The constructor: the leaves `0` and `1`. -/
def empty : BinaryDecisionDiagram where
  nextVar := 0
  nodes := [⟨none, 1⟩, ⟨none, 1⟩]
  nodeMap _ := none
  iteMap _ := none

/-- `zero`. -/
def zero : ℕ := 0

/-- `one`. -/
def one : ℕ := 1

/-- The variable and the children of an index; leaves have none. -/
def node (bdd : BinaryDecisionDiagram) (i : ℕ) : Option DecisionDiagram.Node :=
  bdd.nodes[i]?.bind BddNode.content

/-- `GetOrCreateNode`. -/
def getOrCreateNode (bdd : BinaryDecisionDiagram) (var high low : ℕ) :
    Option (ℕ × BinaryDecisionDiagram) :=
  let key : DecisionDiagram.Node := ⟨var, high, low⟩
  match bdd.nodeMap key with
  | some index => some (index, bdd)
  | none =>
    if low = high then some (low, bdd)
    else
      match bdd.nodes[low]?, bdd.nodes[high]? with
      | some lowNode, some highNode =>
        let pathCount := min (lowNode.pathCount + highNode.pathCount) int32Max
        some (bdd.nodes.length,
          { bdd with
            nodes := bdd.nodes ++ [⟨some key, pathCount⟩]
            nodeMap := Function.update bdd.nodeMap key (some bdd.nodes.length) })
      | _, _ => none

/-- `Restrict`. -/
def restrict (bdd : BinaryDecisionDiagram) (expr var : ℕ) (value : Bool) : Option ℕ :=
  if expr = zero ∨ expr = one then some expr
  else
    match bdd.node expr with
    | none => none
    | some n =>
      if var ≤ n.var then
        if n.var = var then some (if value then n.high else n.low) else some expr
      else none

/-- The variable of an expression, unless it is a leaf, joined to the least so far. -/
def minWith (bdd : BinaryDecisionDiagram) (minVar expr : ℕ) : Option ℕ :=
  if expr ≠ zero ∧ expr ≠ one then (bdd.node expr).map fun n => min minVar n.var else some minVar

/-- The least variable of the three expressions, the first of which is not a leaf. -/
def minVar (bdd : BinaryDecisionDiagram) (cond ifTrue ifFalse : ℕ) : Option ℕ := do
  let n ← bdd.node cond
  let least ← bdd.minWith n.var ifTrue
  bdd.minWith least ifFalse

/-- The end of `IfThenElse`: the expression with the given cofactors. -/
def ofCofactors (bdd : BinaryDecisionDiagram) (var trueCofactor falseCofactor : ℕ) :
    Option (ℕ × BinaryDecisionDiagram) :=
  if trueCofactor = falseCofactor then some (trueCofactor, bdd)
  else bdd.getOrCreateNode var trueCofactor falseCofactor

/-- `IfThenElse`, with fuel for the recursion. -/
def ifThenElse : ℕ → BinaryDecisionDiagram → ℕ → ℕ → ℕ → Option (ℕ × BinaryDecisionDiagram)
  | 0, _, _, _, _ => none
  | fuel + 1, bdd, cond, ifTrue, ifFalse =>
    if cond = one then some (ifTrue, bdd)
    else if cond = zero then some (ifFalse, bdd)
    else if ifTrue = one ∧ ifFalse = zero then some (cond, bdd)
    else if ifTrue = ifFalse then some (ifTrue, bdd)
    else
      match bdd.iteMap (cond, ifTrue, ifFalse) with
      | some index => some (index, bdd)
      | none => do
        let var ← bdd.minVar cond ifTrue ifFalse
        let (trueCofactor, bdd) ← ifThenElse fuel bdd (← bdd.restrict cond var true)
          (← bdd.restrict ifTrue var true) (← bdd.restrict ifFalse var true)
        let (falseCofactor, bdd) ← ifThenElse fuel bdd (← bdd.restrict cond var false)
          (← bdd.restrict ifTrue var false) (← bdd.restrict ifFalse var false)
        let (expr, bdd) ← bdd.ofCofactors var trueCofactor falseCofactor
        some (expr,
          { bdd with iteMap := Function.update bdd.iteMap (cond, ifTrue, ifFalse) (some expr) })

/-- `IfThenElse`.  Each level of the recursion has a greater variable. -/
def ite (bdd : BinaryDecisionDiagram) (cond ifTrue ifFalse : ℕ) :
    Option (ℕ × BinaryDecisionDiagram) :=
  ifThenElse (bdd.nextVar + 1) bdd cond ifTrue ifFalse

/-- `NewVariable`. -/
def newVariable (bdd : BinaryDecisionDiagram) : Option (ℕ × BinaryDecisionDiagram) :=
  getOrCreateNode { bdd with nextVar := bdd.nextVar + 1 } bdd.nextVar one zero

/-- `Not`. -/
def not (bdd : BinaryDecisionDiagram) (expr : ℕ) : Option (ℕ × BinaryDecisionDiagram) :=
  bdd.ite expr zero one

/-- `Or`. -/
def or (bdd : BinaryDecisionDiagram) (a b : ℕ) : Option (ℕ × BinaryDecisionDiagram) :=
  bdd.ite a one b

/-- `And`. -/
def and (bdd : BinaryDecisionDiagram) (a b : ℕ) : Option (ℕ × BinaryDecisionDiagram) :=
  bdd.ite a b zero

/-- What ends `Evaluate` without a value: the error for a variable without a value, and an
index out of range. -/
inductive EvaluateError where
  | missingValue (var node : ℕ)
  | outOfRange
  deriving DecidableEq, Repr

/-- The loop of `Evaluate`. -/
def evaluateLoop (bdd : BinaryDecisionDiagram) (values : ℕ → Option Bool) :
    ℕ → ℕ → Except EvaluateError Bool
  | 0, _ => .error .outOfRange
  | fuel + 1, result =>
    if result ≠ zero ∧ result ≠ one then
      match bdd.node result with
      | none => .error .outOfRange
      | some n =>
        match bdd.nodeMap ⟨n.var, one, zero⟩ with
        | none => .error .outOfRange
        | some varNode =>
          match values varNode with
          | none => .error (.missingValue n.var varNode)
          | some value => evaluateLoop bdd values fuel (if value then n.high else n.low)
    else .ok (decide (result = one))

/-- `Evaluate`.  The index gets smaller in each round. -/
def evaluate (bdd : BinaryDecisionDiagram) (expr : ℕ) (values : ℕ → Option Bool) :
    Except EvaluateError Bool :=
  bdd.evaluateLoop values (expr + 1) expr

/-! ## The invariant -/

/-- The table is an ordered and reduced diagram, and the maps and counts agree with it. -/
structure Wf (bdd : BinaryDecisionDiagram) : Prop where
  leaf_zero : bdd.nodes[0]? = some ⟨none, 1⟩
  leaf_one : bdd.nodes[1]? = some ⟨none, 1⟩
  reduced : Reduced bdd.node bdd.nodes.length
  var_lt : ∀ {i n}, bdd.node i = some n → n.var < bdd.nextVar
  map_iff : ∀ {n i}, bdd.nodeMap n = some i ↔ bdd.node i = some n
  ite_lt : ∀ {c t f r}, bdd.iteMap (c, t, f) = some r →
    c < bdd.nodes.length ∧ t < bdd.nodes.length ∧ f < bdd.nodes.length ∧ r < bdd.nodes.length
  ite_eq : ∀ {c t f r}, bdd.iteMap (c, t, f) = some r → ∀ σ, denote bdd.node σ r =
    if denote bdd.node σ c then denote bdd.node σ t else denote bdd.node σ f
  count : ∀ {i n}, bdd.nodes[i]? = some n → n.pathCount = min (paths bdd.node i).length int32Max

/-- Every variable has its own node. -/
def HasBase (bdd : BinaryDecisionDiagram) : Prop :=
  ∀ v < bdd.nextVar, ∃ i, bdd.nodeMap ⟨v, one, zero⟩ = some i

/-- The table has grown and the nodes in it have stayed. -/
structure Extends (bdd bdd' : BinaryDecisionDiagram) : Prop where
  nextVar_eq : bdd'.nextVar = bdd.nextVar
  length_le : bdd.nodes.length ≤ bdd'.nodes.length
  node_eq : ∀ i < bdd.nodes.length, bdd'.node i = bdd.node i
  map_le : ∀ {n i}, bdd.nodeMap n = some i → bdd'.nodeMap n = some i

theorem Extends.refl (bdd : BinaryDecisionDiagram) : Extends bdd bdd :=
  ⟨rfl, le_rfl, fun _ _ => rfl, id⟩

theorem Extends.trans {bdd bdd' bdd'' : BinaryDecisionDiagram} (h : Extends bdd bdd')
    (h' : Extends bdd' bdd'') : Extends bdd bdd'' where
  nextVar_eq := h'.nextVar_eq.trans h.nextVar_eq
  length_le := h.length_le.trans h'.length_le
  node_eq i hi := (h'.node_eq i (hi.trans_le h.length_le)).trans (h.node_eq i hi)
  map_le hn := h'.map_le (h.map_le hn)

theorem Extends.hasBase {bdd bdd' : BinaryDecisionDiagram} (h : Extends bdd bdd')
    (hbase : HasBase bdd) : HasBase bdd' := by
  intro v hv
  rw [h.nextVar_eq] at hv
  obtain ⟨i, hi⟩ := hbase v hv
  exact ⟨i, h.map_le hi⟩

variable {bdd : BinaryDecisionDiagram} (h : Wf bdd)

section Basic

variable {bdd' : BinaryDecisionDiagram} {i : ℕ} {n : DecisionDiagram.Node}

section

include h

theorem Wf.extends_denote (hext : Extends bdd bdd') (hi : i < bdd.nodes.length) (σ : ℕ → Bool) :
    denote bdd'.node σ i = denote bdd.node σ i :=
  DecisionDiagram.denote_congr h.reduced.toOrdered hext.node_eq hi

theorem Wf.node_zero : bdd.node 0 = none := by
  simp [node, h.leaf_zero]

theorem Wf.node_one : bdd.node 1 = none := by
  simp [node, h.leaf_one]

theorem Wf.denote_zero (σ : ℕ → Bool) : denote bdd.node σ zero = false := by
  rw [zero, DecisionDiagram.denote_leaf h.node_zero]
  rfl

theorem Wf.denote_one (σ : ℕ → Bool) : denote bdd.node σ one = true := by
  rw [one, DecisionDiagram.denote_leaf h.node_one]
  rfl

theorem Wf.two_le : 2 ≤ bdd.nodes.length :=
  (List.getElem?_eq_some_iff.mp h.leaf_one).1

end

theorem lt_of_node (hn : bdd.node i = some n) : i < bdd.nodes.length := by
  by_contra hge
  simp [node, List.getElem?_eq_none (not_lt.mp hge)] at hn

include h in
theorem Wf.node_of_ne (hi : i < bdd.nodes.length) (hzero : i ≠ zero) (hone : i ≠ one) :
    ∃ n, bdd.node i = some n := by
  rcases hn : bdd.node i with _ | n
  · rcases h.reduced.leaf hi hn with h0 | h1
    · exact absurd h0 hzero
    · exact absurd h1 hone
  · exact ⟨n, rfl⟩

theorem wf_empty : Wf empty := by
  have hnode : ∀ i, empty.node i = none := by
    intro i
    rcases i with _ | _ | i <;> rfl
  have hnone : ∀ {i n}, ¬ empty.node i = some n := by
    intro i n hn
    rw [hnode] at hn
    cases hn
  refine ⟨rfl, rfl, ⟨⟨?_, ?_, ?_, ?_⟩, ?_, ?_, ?_⟩, ?_, ?_, ?_, ?_, ?_⟩
  iterate 6 exact fun hn => absurd hn hnone
  · intro i hi _
    have hi : i < 2 := hi
    omega
  · exact fun hn => absurd hn hnone
  · intro n i
    exact iff_of_false (by simp [empty]) hnone
  · intro c t f r hr
    cases hr
  · intro c t f r hr
    cases hr
  · intro i n hn
    rw [DecisionDiagram.paths_leaf (hnode i)]
    rcases i with _ | _ | i
    · cases hn
      rfl
    · cases hn
      rfl
    · simp [empty] at hn

end Basic

/-! ## New nodes -/

section Append

variable {key : DecisionDiagram.Node} {pathCount : ℕ}

/-- The diagram with one more node. -/
def append (bdd : BinaryDecisionDiagram) (key : DecisionDiagram.Node) (pathCount : ℕ) :
    BinaryDecisionDiagram :=
  { bdd with
    nodes := bdd.nodes ++ [⟨some key, pathCount⟩]
    nodeMap := Function.update bdd.nodeMap key (some bdd.nodes.length) }

theorem node_append :
    (bdd.append key pathCount).node = Function.update bdd.node bdd.nodes.length (some key) := by
  funext i
  rcases lt_trichotomy i bdd.nodes.length with hi | rfl | hi
  · rw [Function.update_of_ne hi.ne]
    simp [node, append, List.getElem?_append_left hi]
  · simp [node, append]
  · rw [Function.update_of_ne hi.ne']
    have hlen : (bdd.nodes ++ [BddNode.mk (some key) pathCount]).length ≤ i := by
      rw [List.length_append]
      exact hi
    simp [node, append, List.getElem?_eq_none hlen, List.getElem?_eq_none hi.le]

theorem node_append_of_lt {i : ℕ} (hi : i < bdd.nodes.length) :
    (bdd.append key pathCount).node i = bdd.node i := by
  rw [node_append, Function.update_of_ne hi.ne]

theorem node_append_length : (bdd.append key pathCount).node bdd.nodes.length = some key := by
  rw [node_append, Function.update_self]

/-- A node of the longer table is an old one or the new one. -/
theorem node_append_cases {i : ℕ} {n : DecisionDiagram.Node}
    (hn : (bdd.append key pathCount).node i = some n) :
    bdd.node i = some n ∨ i = bdd.nodes.length ∧ n = key := by
  rw [node_append] at hn
  by_cases hi : i = bdd.nodes.length
  · subst hi
    rw [Function.update_self] at hn
    exact .inr ⟨rfl, (Option.some.inj hn).symm⟩
  · rw [Function.update_of_ne hi] at hn
    exact .inl hn

theorem length_append : (bdd.append key pathCount).nodes.length = bdd.nodes.length + 1 := by
  simp [append]

variable (pathCount) in
theorem extends_append (hnew : bdd.nodeMap key = none) :
    Extends bdd (bdd.append key pathCount) where
  nextVar_eq := rfl
  length_le := by
    rw [length_append]
    exact Nat.le_succ _
  node_eq i hi := node_append_of_lt hi
  map_le := by
    intro n i hn
    show Function.update bdd.nodeMap key (some bdd.nodes.length) n = some i
    have hne : n ≠ key := by
      rintro rfl
      rw [hnew] at hn
      cases hn
    rw [Function.update_of_ne hne, hn]

section

include h

/-- The longer table is still an ordered and reduced diagram. -/
theorem Wf.reduced_append (hnew : bdd.nodeMap key = none) (hne : key.high ≠ key.low)
    (hhigh : key.high < bdd.nodes.length) (hlow : key.low < bdd.nodes.length)
    (habove : Above bdd.node (key.var + 1) key.high)
    (habove' : Above bdd.node (key.var + 1) key.low) :
    Reduced (bdd.append key pathCount).node (bdd.append key pathCount).nodes.length := by
  have hord := h.reduced.toOrdered
  have hkeep : ∀ {k i}, i < bdd.nodes.length → Above bdd.node k i →
      Above (bdd.append key pathCount).node k i := by
    intro k i hi hk n hn
    rw [node_append_of_lt hi] at hn
    exact hk n hn
  have hfresh : ∀ {i}, ¬ bdd.node i = some key := by
    intro i hi
    rw [h.map_iff.mpr hi] at hnew
    cases hnew
  refine ⟨⟨?_, ?_, ?_, ?_⟩, ?_, ?_, ?_⟩
  · intro i n hn
    rcases node_append_cases hn with hn | ⟨rfl, rfl⟩
    · exact hord.high_lt hn
    · exact hhigh
  · intro i n hn
    rcases node_append_cases hn with hn | ⟨rfl, rfl⟩
    · exact hord.low_lt hn
    · exact hlow
  · intro i n hn
    rcases node_append_cases hn with hn | ⟨rfl, rfl⟩
    · exact hkeep ((hord.high_lt hn).trans (lt_of_node hn)) (hord.above_high hn)
    · exact hkeep hhigh habove
  · intro i n hn
    rcases node_append_cases hn with hn | ⟨rfl, rfl⟩
    · exact hkeep ((hord.low_lt hn).trans (lt_of_node hn)) (hord.above_low hn)
    · exact hkeep hlow habove'
  · intro i n hn
    rcases node_append_cases hn with hn | ⟨rfl, rfl⟩
    · exact h.reduced.high_ne_low hn
    · exact hne
  · intro i j n hi hj
    rcases node_append_cases hi with holdI | ⟨rfl, rfl⟩
    · rcases node_append_cases hj with holdJ | ⟨rfl, rfl⟩
      · exact h.reduced.unique holdI holdJ
      · exact absurd holdI hfresh
    · rcases node_append_cases hj with holdJ | ⟨rfl, -⟩
      · exact absurd holdJ hfresh
      · rfl
  · intro i hi hn
    rw [length_append] at hi
    have hi' : i ≠ bdd.nodes.length := by
      rintro rfl
      rw [node_append_length] at hn
      cases hn
    have hlt : i < bdd.nodes.length := by omega
    rw [node_append_of_lt hlt] at hn
    exact h.reduced.leaf hlt hn

theorem Wf.append (hnew : bdd.nodeMap key = none) (hne : key.high ≠ key.low)
    (hhigh : key.high < bdd.nodes.length) (hlow : key.low < bdd.nodes.length)
    (habove : Above bdd.node (key.var + 1) key.high)
    (habove' : Above bdd.node (key.var + 1) key.low) (hvar : key.var < bdd.nextVar)
    (hcount : pathCount = min ((paths bdd.node key.high).length + (paths bdd.node key.low).length)
      int32Max) : Wf (bdd.append key pathCount) := by
  have hext : Extends bdd (bdd.append key pathCount) := extends_append pathCount hnew
  have hred : Reduced (bdd.append key pathCount).node (bdd.append key pathCount).nodes.length :=
    h.reduced_append hnew hne hhigh hlow habove habove'
  have hpaths : ∀ {i}, i < bdd.nodes.length →
      paths (bdd.append key pathCount).node i = paths bdd.node i :=
    fun hi => DecisionDiagram.paths_congr h.reduced.toOrdered hext.node_eq hi
  have hlt : ∀ {i}, i < bdd.nodes.length → i < (bdd.append key pathCount).nodes.length := by
    intro i hi
    rw [length_append]
    omega
  exact
    { leaf_zero := by
        show (bdd.nodes ++ _)[0]? = _
        rw [List.getElem?_append_left (by omega), h.leaf_zero]
      leaf_one := by
        show (bdd.nodes ++ _)[1]? = _
        rw [List.getElem?_append_left (by omega), h.leaf_one]
      reduced := hred
      var_lt := by
        intro i n hn
        rcases node_append_cases hn with hn | ⟨-, rfl⟩
        · exact h.var_lt hn
        · exact hvar
      map_iff := by
        intro n i
        show Function.update bdd.nodeMap key (some bdd.nodes.length) n = some i ↔ _
        by_cases hn : n = key
        · subst hn
          rw [Function.update_self]
          constructor
          · rintro ⟨⟩
            exact node_append_length
          · intro hi
            rcases node_append_cases hi with hi | ⟨rfl, -⟩
            · rw [h.map_iff.mpr hi] at hnew
              cases hnew
            · rfl
        · rw [Function.update_of_ne hn, h.map_iff]
          constructor
          · intro hi
            rw [node_append_of_lt (lt_of_node hi), hi]
          · intro hi
            rcases node_append_cases hi with hi | ⟨-, rfl⟩
            · exact hi
            · exact absurd rfl hn
      ite_lt := by
        intro c t f r hr
        obtain ⟨hc, ht, hf, hr⟩ := h.ite_lt hr
        exact ⟨hlt hc, hlt ht, hlt hf, hlt hr⟩
      ite_eq := by
        intro c t f r hr σ
        obtain ⟨hc, ht, hf, hr'⟩ := h.ite_lt hr
        rw [h.extends_denote hext hr', h.extends_denote hext hc, h.extends_denote hext ht,
          h.extends_denote hext hf]
        exact h.ite_eq hr σ
      count := by
        intro i n hn
        have hn : (bdd.nodes ++ [⟨some key, pathCount⟩])[i]? = some n := hn
        rcases lt_trichotomy i bdd.nodes.length with hi | rfl | hi
        · rw [List.getElem?_append_left hi] at hn
          rw [hpaths hi]
          exact h.count hn
        · rw [List.getElem?_append_right le_rfl] at hn
          simp only [Nat.sub_self] at hn
          cases hn
          rw [hred.toOrdered.length_paths node_append_length, hpaths hhigh, hpaths hlow]
          exact hcount
        · rw [List.getElem?_eq_none (by rw [List.length_append]; exact hi)] at hn
          cases hn }

end

end Append

section

include h

/-- `GetOrCreateNode` returns the node with the given cofactors. -/
theorem Wf.getOrCreateNode (var : ℕ) {high low : ℕ} (hhigh : high < bdd.nodes.length)
    (hlow : low < bdd.nodes.length) (habove : Above bdd.node (var + 1) high)
    (habove' : Above bdd.node (var + 1) low) (hvar : var < bdd.nextVar) :
    ∃ r bdd', bdd.getOrCreateNode var high low = some (r, bdd') ∧ Wf bdd' ∧ Extends bdd bdd' ∧
      r < bdd'.nodes.length ∧ (high ≠ low → bdd'.nodeMap ⟨var, high, low⟩ = some r) ∧
      ∀ σ, denote bdd'.node σ r =
        if σ var then denote bdd.node σ high else denote bdd.node σ low := by
  unfold BinaryDecisionDiagram.getOrCreateNode
  rcases hmap : bdd.nodeMap ⟨var, high, low⟩ with _ | r
  · simp only [hmap]
    by_cases heq : low = high
    · subst heq
      rw [if_pos rfl]
      exact ⟨low, bdd, rfl, h, .refl bdd, hlow, fun hne => absurd rfl hne, fun σ => by simp⟩
    · rw [if_neg heq, List.getElem?_eq_getElem hlow, List.getElem?_eq_getElem hhigh]
      have hcount : min (bdd.nodes[low].pathCount + bdd.nodes[high].pathCount) int32Max =
          min ((paths bdd.node high).length + (paths bdd.node low).length) int32Max := by
        rw [h.count (List.getElem?_eq_getElem hlow), h.count (List.getElem?_eq_getElem hhigh)]
        omega
      have hext := extends_append (min (bdd.nodes[low].pathCount + bdd.nodes[high].pathCount)
        int32Max) hmap
      have hwf := h.append hmap (Ne.symm heq) hhigh hlow habove habove' hvar hcount
      refine ⟨_, _, rfl, hwf, hext, ?_, fun _ => Function.update_self .., fun σ => ?_⟩
      · exact lt_of_node node_append_length
      · have hnode := hwf.reduced.toOrdered.denote_node node_append_length (σ := σ)
        rw [h.extends_denote hext hhigh, h.extends_denote hext hlow] at hnode
        exact hnode
  · simp only [hmap]
    have hnode := h.map_iff.mp hmap
    exact ⟨r, bdd, rfl, h, .refl bdd, lt_of_node hnode, fun _ => hmap,
      fun σ => h.reduced.toOrdered.denote_node hnode⟩

theorem Wf.ofCofactors {var high low : ℕ} (hhigh : high < bdd.nodes.length)
    (hlow : low < bdd.nodes.length) (habove : Above bdd.node (var + 1) high)
    (habove' : Above bdd.node (var + 1) low) (hvar : var < bdd.nextVar) :
    ∃ r bdd', bdd.ofCofactors var high low = some (r, bdd') ∧ Wf bdd' ∧ Extends bdd bdd' ∧
      r < bdd'.nodes.length ∧ ∀ σ, denote bdd'.node σ r =
        if σ var then denote bdd.node σ high else denote bdd.node σ low := by
  unfold BinaryDecisionDiagram.ofCofactors
  by_cases heq : high = low
  · rw [if_pos heq]
    exact ⟨high, bdd, rfl, h, .refl bdd, hhigh, fun σ => by simp [heq]⟩
  · rw [if_neg heq]
    obtain ⟨r, bdd', hget, hwf, hext, hr, -, hden⟩ :=
      h.getOrCreateNode var hhigh hlow habove habove' hvar
    exact ⟨r, bdd', hget, hwf, hext, hr, hden⟩

end

/-! ## If-then-else -/

section Ite

variable {bdd' : BinaryDecisionDiagram} {k c t f : ℕ} (hc : c < bdd.nodes.length)
  (ht : t < bdd.nodes.length) (hf : f < bdd.nodes.length)

theorem Extends.above (hext : Extends bdd bdd') {i : ℕ} (hi : i < bdd.nodes.length)
    (h : Above bdd.node k i) : Above bdd'.node k i := by
  intro n hn
  rw [hext.node_eq i hi] at hn
  exact h n hn

section

include h

/-- `Restrict` returns the cofactor, and its check does not fail for a variable which is not
behind that of the expression. -/
theorem Wf.restrict {expr var : ℕ} (hexpr : expr < bdd.nodes.length)
    (habove : Above bdd.node var expr) (value : Bool) :
    ∃ r, bdd.restrict expr var value = some r ∧ r < bdd.nodes.length ∧ Above bdd.node (var + 1) r ∧
      ∀ σ, denote bdd.node σ r = denote bdd.node (Function.update σ var value) expr := by
  have hord := h.reduced.toOrdered
  unfold BinaryDecisionDiagram.restrict
  by_cases hleaf : expr = zero ∨ expr = one
  · have hnode : bdd.node expr = none := by
      rcases hleaf with rfl | rfl
      · exact h.node_zero
      · exact h.node_one
    have habove' : Above bdd.node (var + 1) expr := DecisionDiagram.above_of_leaf hnode
    refine ⟨expr, if_pos hleaf, hexpr, habove', fun σ => ?_⟩
    rw [hord.denote_update habove']
  · obtain ⟨n, hn⟩ := h.node_of_ne hexpr (fun h0 => hleaf (.inl h0)) (fun h1 => hleaf (.inr h1))
    have hvar := habove n hn
    simp only [hleaf, hn, hvar]
    by_cases heq : n.var = var
    · subst heq
      have hhigh := (hord.high_lt hn).trans hexpr
      have hlow := (hord.low_lt hn).trans hexpr
      simp only [↓reduceIte]
      rcases value with _ | _
      · exact ⟨n.low, rfl, hlow, hord.above_low hn, fun σ => (hord.denote_update_node hn false).symm⟩
      · exact ⟨n.high, rfl, hhigh, hord.above_high hn,
          fun σ => (hord.denote_update_node hn true).symm⟩
    · have habove' : Above bdd.node (var + 1) expr := by
        intro n' hn'
        rw [hn] at hn'
        cases hn'
        omega
      simp only [heq]
      exact ⟨expr, rfl, hexpr, habove', fun σ => (hord.denote_update habove' value).symm⟩

theorem Wf.minWith {expr least : ℕ} (hexpr : expr < bdd.nodes.length)
    (habove : Above bdd.node k expr) (hk : k ≤ least) :
    ∃ v, bdd.minWith least expr = some v ∧ v ≤ least ∧ k ≤ v ∧ Above bdd.node v expr := by
  unfold BinaryDecisionDiagram.minWith
  by_cases hleaf : expr ≠ zero ∧ expr ≠ one
  · obtain ⟨n, hn⟩ := h.node_of_ne hexpr hleaf.1 hleaf.2
    simp only [hleaf, ne_eq, hn]
    refine ⟨_, rfl, Nat.min_le_left .., Nat.le_min.mpr ⟨hk, habove n hn⟩, ?_⟩
    intro n' hn'
    rw [hn] at hn'
    cases hn'
    exact Nat.min_le_right ..
  · have hnode : bdd.node expr = none := by
      rw [not_and_or, not_not, not_not] at hleaf
      rcases hleaf with rfl | rfl
      · exact h.node_zero
      · exact h.node_one
    exact ⟨least, if_neg hleaf, le_rfl, hk, DecisionDiagram.above_of_leaf hnode⟩

/-- The least variable of the three expressions. -/
theorem Wf.minVar {n : DecisionDiagram.Node} (hc : bdd.node c = some n) (ht : t < bdd.nodes.length)
    (hf : f < bdd.nodes.length) (hck : Above bdd.node k c) (htk : Above bdd.node k t)
    (hfk : Above bdd.node k f) :
    ∃ v, bdd.minVar c t f = some v ∧ k ≤ v ∧ v < bdd.nextVar ∧ Above bdd.node v c ∧
      Above bdd.node v t ∧ Above bdd.node v f := by
  obtain ⟨v₁, hv₁, hle₁, hk₁, habove₁⟩ := h.minWith ht htk (hck n hc)
  obtain ⟨v, hv, hle, hk, habove⟩ := h.minWith hf hfk hk₁
  refine ⟨v, by simp [BinaryDecisionDiagram.minVar, hc, hv₁, hv], hk, ?_, ?_, habove₁.mono hle,
    habove⟩
  · exact (hle.trans hle₁).trans_lt (h.var_lt hc)
  · intro n' hn'
    rw [hc] at hn'
    cases hn'
    exact hle.trans hle₁

end

include h hc ht hf in
/-- A new entry of the map of results. -/
theorem Wf.setIte {r : ℕ} (hr : r < bdd.nodes.length) (heq : ∀ σ, denote bdd.node σ r =
      if denote bdd.node σ c then denote bdd.node σ t else denote bdd.node σ f) :
    Wf { bdd with iteMap := Function.update bdd.iteMap (c, t, f) (some r) } := by
  have hcases : ∀ {c' t' f' r'}, Function.update bdd.iteMap (c, t, f) (some r) (c', t', f') =
      some r' → bdd.iteMap (c', t', f') = some r' ∨ c' = c ∧ t' = t ∧ f' = f ∧ r' = r := by
    intro c' t' f' r' hr'
    by_cases hkey : (c', t', f') = (c, t, f)
    · rw [hkey, Function.update_self] at hr'
      cases hkey
      cases hr'
      exact .inr ⟨rfl, rfl, rfl, rfl⟩
    · rw [Function.update_of_ne hkey] at hr'
      exact .inl hr'
  exact
    { leaf_zero := h.leaf_zero
      leaf_one := h.leaf_one
      reduced := h.reduced
      var_lt := h.var_lt
      map_iff := h.map_iff
      ite_lt := by
        intro c' t' f' r' hr'
        rcases hcases hr' with hold | ⟨rfl, rfl, rfl, rfl⟩
        · exact h.ite_lt hold
        · exact ⟨hc, ht, hf, hr⟩
      ite_eq := by
        intro c' t' f' r' hr'
        rcases hcases hr' with hold | ⟨rfl, rfl, rfl, rfl⟩
        · exact h.ite_eq hold
        · exact heq
      count := h.count }

/-- A result of `IfThenElse`: it extends the diagram by a node for the function. -/
def IteResult (bdd : BinaryDecisionDiagram) (c t f : ℕ)
    (result : Option (ℕ × BinaryDecisionDiagram)) : Prop :=
  ∃ r bdd', result = some (r, bdd') ∧ Wf bdd' ∧ Extends bdd bdd' ∧ r < bdd'.nodes.length ∧
    ∀ σ, denote bdd'.node σ r =
      if denote bdd.node σ c then denote bdd.node σ t else denote bdd.node σ f

include h in
/-- `IfThenElse` on the cofactors of the three expressions. -/
theorem Wf.cofactor (fuel : ℕ) {v : ℕ} (hc : c < bdd.nodes.length) (ht : t < bdd.nodes.length)
    (hf : f < bdd.nodes.length) (hcv : Above bdd.node v c) (htv : Above bdd.node v t)
    (hfv : Above bdd.node v f) (value : Bool)
    (ih : ∀ {c t f}, c < bdd.nodes.length → t < bdd.nodes.length → f < bdd.nodes.length →
      Above bdd.node (v + 1) c → Above bdd.node (v + 1) t → Above bdd.node (v + 1) f →
      IteResult bdd c t f (BinaryDecisionDiagram.ifThenElse fuel bdd c t f)) :
    ∃ c' t' f' r bdd', bdd.restrict c v value = some c' ∧ bdd.restrict t v value = some t' ∧
      bdd.restrict f v value = some f' ∧
      BinaryDecisionDiagram.ifThenElse fuel bdd c' t' f' = some (r, bdd') ∧ Wf bdd' ∧
      Extends bdd bdd' ∧ r < bdd'.nodes.length ∧ Above bdd'.node (v + 1) r ∧
      ∀ σ, σ v = value → denote bdd'.node σ r =
        if denote bdd.node σ c then denote bdd.node σ t else denote bdd.node σ f := by
  obtain ⟨c', hc', hltC, haboveC, heqC⟩ := h.restrict hc hcv value
  obtain ⟨t', ht', hltT, haboveT, heqT⟩ := h.restrict ht htv value
  obtain ⟨f', hf', hltF, haboveF, heqF⟩ := h.restrict hf hfv value
  obtain ⟨r, bdd', hite, hwf, hext, hr, hden⟩ := ih hltC hltT hltF haboveC haboveT haboveF
  refine ⟨c', t', f', r, bdd', hc', ht', hf', hite, hwf, hext, hr, ?_, ?_⟩
  · -- the result depends on the later variables only
    refine hwf.reduced.above_of_denote hr fun σ σ' hσ => ?_
    have hord := h.reduced.toOrdered
    rw [hden, hden, hord.denote_eq_of_above haboveC hσ, hord.denote_eq_of_above haboveT hσ,
      hord.denote_eq_of_above haboveF hσ]
  · intro σ hσ
    have hself : Function.update σ v value = σ := by rw [← hσ, Function.update_eq_self]
    rw [hden, heqC, heqT, heqF, hself]

section

include h hc ht hf

/-- `IfThenElse` returns the node of the function; the fuel suffices, since the least variable
grows. -/
theorem Wf.ifThenElse {fuel : ℕ} (hck : Above bdd.node k c) (htk : Above bdd.node k t)
    (hfk : Above bdd.node k f) (hk : k ≤ bdd.nextVar) (hfuel : bdd.nextVar < k + fuel) :
    IteResult bdd c t f (BinaryDecisionDiagram.ifThenElse fuel bdd c t f) := by
  induction fuel generalizing bdd c t f k with
  | zero => omega
  | succ fuel ih =>
    rw [BinaryDecisionDiagram.ifThenElse]
    split
    · rename_i hone
      exact ⟨t, bdd, rfl, h, .refl bdd, ht, fun σ => by simp [hone, h.denote_one]⟩
    split
    · rename_i hzero
      exact ⟨f, bdd, rfl, h, .refl bdd, hf, fun σ => by simp [hzero, h.denote_zero]⟩
    split
    · rename_i htf
      refine ⟨c, bdd, rfl, h, .refl bdd, hc, fun σ => ?_⟩
      simp [htf.1, htf.2, h.denote_one, h.denote_zero]
    split
    · rename_i htf
      exact ⟨t, bdd, rfl, h, .refl bdd, ht, fun σ => by simp [htf]⟩
    rename_i hone hzero _ _
    split
    · rename_i r hr
      exact ⟨r, bdd, rfl, h, .refl bdd, (h.ite_lt hr).2.2.2, h.ite_eq hr⟩
    obtain ⟨n, hn⟩ := h.node_of_ne hc hzero hone
    obtain ⟨v, hv, hkv, hvlt, hcv, htv, hfv⟩ := h.minVar hn ht hf hck htk hfk
    -- the two cofactors
    obtain ⟨c₁, t₁, f₁, high, bdd₁, hc₁, ht₁, hf₁, hite₁, hwf₁, hext₁, hhigh, habove₁, hden₁⟩ :=
      h.cofactor fuel hc ht hf hcv htv hfv true fun hc ht hf hcv htv hfv =>
        ih h hc ht hf hcv htv hfv (by omega) (by omega)
    have hlt₁ : ∀ {i}, i < bdd.nodes.length → i < bdd₁.nodes.length :=
      fun hi => hi.trans_le hext₁.length_le
    have hnext := hext₁.nextVar_eq
    obtain ⟨c₂, t₂, f₂, low, bdd₂, hc₂, ht₂, hf₂, hite₂, hwf₂, hext₂, hlow, habove₂, hden₂⟩ :=
      hwf₁.cofactor fuel (hlt₁ hc) (hlt₁ ht) (hlt₁ hf) (hext₁.above hc hcv)
        (hext₁.above ht htv) (hext₁.above hf hfv) false fun hc ht hf hcv htv hfv =>
        ih hwf₁ hc ht hf hcv htv hfv (by omega) (by omega)
    have hext := hext₁.trans hext₂
    have hhigh₂ : high < bdd₂.nodes.length := hhigh.trans_le hext₂.length_le
    have habove₁' : Above bdd₂.node (v + 1) high := hext₂.above hhigh habove₁
    have hnext₂ := hext.nextVar_eq
    obtain ⟨r, bdd₃, hnode, hwf₃, hext₃, hr, hdenr⟩ :=
      hwf₂.ofCofactors hhigh₂ hlow habove₁' habove₂ (by omega)
    have hext' := hext.trans hext₃
    have hlt₃ : ∀ {i}, i < bdd.nodes.length → i < bdd₃.nodes.length :=
      fun hi => hi.trans_le hext'.length_le
    have hfinal : ∀ σ, denote bdd₃.node σ r =
        if denote bdd.node σ c then denote bdd.node σ t else denote bdd.node σ f := by
      intro σ
      rw [hdenr]
      rcases hσ : σ v with _ | _
      · simp only [Bool.false_eq_true, ↓reduceIte]
        rw [hden₂ σ hσ, h.extends_denote hext₁ hc, h.extends_denote hext₁ ht,
          h.extends_denote hext₁ hf]
      · simp only [↓reduceIte]
        rw [hwf₁.extends_denote hext₂ hhigh, hden₁ σ hσ]
    refine ⟨r, { bdd₃ with iteMap := Function.update bdd₃.iteMap (c, t, f) (some r) }, ?_, ?_,
      ⟨hext'.nextVar_eq, hext'.length_le, hext'.node_eq, hext'.map_le⟩, hr, hfinal⟩
    · simp [hv, hc₁, ht₁, hf₁, hite₁, hc₂, ht₂, hf₂, hite₂, hnode]
    · refine hwf₃.setIte (hlt₃ hc) (hlt₃ ht) (hlt₃ hf) hr fun σ => ?_
      rw [hfinal, h.extends_denote hext' hc, h.extends_denote hext' ht, h.extends_denote hext' hf]

theorem Wf.ite : IteResult bdd c t f (bdd.ite c t f) :=
  h.ifThenElse hc ht hf (fun _ _ => Nat.zero_le _) (fun _ _ => Nat.zero_le _)
    (fun _ _ => Nat.zero_le _) (Nat.zero_le _) (by omega)

end

end Ite

/-! ## Evaluation -/

include h in
/-- `Evaluate` computes the function of the node, or reports a variable without a value. -/
theorem Wf.evaluateLoop (hbase : HasBase bdd) {values : ℕ → Option Bool} {σ : ℕ → Bool}
    (hσ : ∀ v base b, bdd.nodeMap ⟨v, one, zero⟩ = some base → values base = some b → σ v = b)
    {fuel i : ℕ} (hi : i < bdd.nodes.length) (hfuel : i < fuel) :
    bdd.evaluateLoop values fuel i = .ok (denote bdd.node σ i) ∨
    ∃ v base, bdd.evaluateLoop values fuel i = .error (.missingValue v base) ∧
      bdd.nodeMap ⟨v, one, zero⟩ = some base ∧ values base = none := by
  induction fuel generalizing i with
  | zero => omega
  | succ fuel ih =>
    rw [BinaryDecisionDiagram.evaluateLoop]
    by_cases hleaf : i ≠ zero ∧ i ≠ one
    · obtain ⟨n, hn⟩ := h.node_of_ne hi hleaf.1 hleaf.2
      obtain ⟨base, hmap⟩ := hbase n.var (h.var_lt hn)
      simp only [hleaf, ne_eq, hn, hmap]
      rcases hvalue : values base with _ | b
      · exact .inr ⟨n.var, base, rfl, hmap, hvalue⟩
      · have hhigh := h.reduced.high_lt hn
        have hlow := h.reduced.low_lt hn
        rw [h.reduced.toOrdered.denote_node hn, hσ n.var base b hmap hvalue]
        rcases b with _ | _
        · exact ih (hlow.trans hi) (show n.low < fuel by omega)
        · exact ih (hhigh.trans hi) (show n.high < fuel by omega)
    · rw [not_and_or, not_not, not_not] at hleaf
      rcases hleaf with rfl | rfl
      · exact .inl (by rw [h.denote_zero]; rfl)
      · exact .inl (by rw [h.denote_one]; rfl)

/-! ## Sequences of calls -/

/-- The calls which change the diagram. -/
inductive Call where
  | newVariable
  | not (expr : ℕ)
  | and (a b : ℕ)
  | or (a b : ℕ)
  deriving DecidableEq, Repr

/-- The operands are indices of nodes. -/
def Call.Valid (bdd : BinaryDecisionDiagram) : Call → Prop
  | .newVariable => True
  | .not expr => expr < bdd.nodes.length
  | .and a b | .or a b => a < bdd.nodes.length ∧ b < bdd.nodes.length

/-- One call. -/
def call (bdd : BinaryDecisionDiagram) : Call → Option (ℕ × BinaryDecisionDiagram)
  | .newVariable => bdd.newVariable
  | .not expr => bdd.not expr
  | .and a b => bdd.and a b
  | .or a b => bdd.or a b

/-- The function which a call is to return. -/
def Call.meaning (bdd : BinaryDecisionDiagram) (σ : ℕ → Bool) : Call → Bool
  | .newVariable => σ bdd.nextVar
  | .not expr => !denote bdd.node σ expr
  | .and a b => denote bdd.node σ a && denote bdd.node σ b
  | .or a b => denote bdd.node σ a || denote bdd.node σ b

/-- A call on indices of nodes, as a step. -/
def Step (bdd : BinaryDecisionDiagram) (c : Call) (bdd' : BinaryDecisionDiagram) : Prop :=
  c.Valid bdd ∧ ∃ r, bdd.call c = some (r, bdd')

/-- A call succeeds, returns a node of its function and keeps the functions of all nodes. -/
structure Returns (bdd : BinaryDecisionDiagram) (c : Call) (r : ℕ) (bdd' : BinaryDecisionDiagram) :
    Prop where
  result : bdd.call c = some (r, bdd')
  lt : r < bdd'.nodes.length
  denote_eq : ∀ σ, denote bdd'.node σ r = c.meaning bdd σ
  length_le : bdd.nodes.length ≤ bdd'.nodes.length
  keeps : ∀ i < bdd.nodes.length, ∀ σ, denote bdd'.node σ i = denote bdd.node σ i

section

include h

theorem IteResult.returns (hbase : HasBase bdd) {c : Call} {cond ifTrue ifFalse : ℕ}
    (hite : IteResult bdd cond ifTrue ifFalse (bdd.call c))
    (hmeaning : ∀ σ, (if denote bdd.node σ cond then denote bdd.node σ ifTrue
      else denote bdd.node σ ifFalse) = c.meaning bdd σ) :
    ∃ r bdd', Returns bdd c r bdd' ∧ Wf bdd' ∧ HasBase bdd' := by
  obtain ⟨r, bdd', hcall, hwf, hext, hr, hden⟩ := hite
  exact ⟨r, bdd', ⟨hcall, hr, fun σ => (hden σ).trans (hmeaning σ), hext.length_le,
    fun i hi σ => h.extends_denote hext hi σ⟩, hwf, hext.hasBase hbase⟩

/-- A new variable. -/
theorem Wf.newVariable (hbase : HasBase bdd) :
    ∃ r bdd', Returns bdd .newVariable r bdd' ∧ Wf bdd' ∧ HasBase bdd' := by
  have hwf : Wf { bdd with nextVar := bdd.nextVar + 1 } :=
    { leaf_zero := h.leaf_zero
      leaf_one := h.leaf_one
      reduced := h.reduced
      var_lt := fun hn => (h.var_lt hn).trans (Nat.lt_succ_self _)
      map_iff := h.map_iff
      ite_lt := h.ite_lt
      ite_eq := h.ite_eq
      count := h.count }
  have htwo := h.two_le
  obtain ⟨r, bdd', hget, hwf', hext, hr, hmap, hden⟩ :=
    hwf.getOrCreateNode bdd.nextVar (show one < bdd.nodes.length from htwo)
      (show zero < bdd.nodes.length from Nat.lt_of_succ_lt htwo)
      (DecisionDiagram.above_of_leaf h.node_one) (DecisionDiagram.above_of_leaf h.node_zero)
      (Nat.lt_succ_self _)
  refine ⟨r, bdd', ⟨hget, hr, fun σ => ?_, hext.length_le, fun i hi σ => ?_⟩, hwf', ?_⟩
  · rw [hden, hwf.denote_one, hwf.denote_zero]
    show _ = σ bdd.nextVar
    rcases σ bdd.nextVar with _ | _
    · rfl
    · rfl
  · exact hwf.extends_denote hext hi σ
  · intro v hv
    rw [hext.nextVar_eq] at hv
    rcases Nat.lt_succ_iff_lt_or_eq.mp hv with hv | rfl
    · obtain ⟨i, hi⟩ := hbase v hv
      exact ⟨i, hext.map_le hi⟩
    · exact ⟨r, hmap (by decide)⟩

/-- Each call on indices of nodes succeeds and keeps the invariant. -/
theorem Wf.call (hbase : HasBase bdd) {c : Call} (hc : c.Valid bdd) :
    ∃ r bdd', Returns bdd c r bdd' ∧ Wf bdd' ∧ HasBase bdd' := by
  have htwo := h.two_le
  have hzero : zero < bdd.nodes.length := show 0 < _ by omega
  have hone : one < bdd.nodes.length := show 1 < _ by omega
  rcases c with _ | expr | ⟨a, b⟩ | ⟨a, b⟩
  · exact h.newVariable hbase
  · refine IteResult.returns h hbase (h.ite hc hzero hone) fun σ => ?_
    rw [h.denote_zero, h.denote_one, Call.meaning]
    rcases denote bdd.node σ expr with _ | _ <;> rfl
  · refine IteResult.returns h hbase (h.ite hc.1 hc.2 hzero) fun σ => ?_
    rw [h.denote_zero, Call.meaning]
    rcases denote bdd.node σ a with _ | _ <;> rfl
  · refine IteResult.returns h hbase (h.ite hc.1 hone hc.2) fun σ => ?_
    rw [h.denote_one, Call.meaning]
    rcases denote bdd.node σ a with _ | _ <;> rfl

end

/-- A canonical diagram on which the operations compute what they are for. -/
structure Canonical (bdd : BinaryDecisionDiagram) : Prop where
  ordered : ∀ i n, bdd.node i = some n → n.high ≠ n.low ∧
    (∀ n', bdd.node n.high = some n' → n.var < n'.var) ∧
    ∀ n', bdd.node n.low = some n' → n.var < n'.var
  eq_iff : ∀ i j, i < bdd.nodes.length → j < bdd.nodes.length →
    (i = j ↔ ∀ σ, denote bdd.node σ i = denote bdd.node σ j)
  call : ∀ c : Call, c.Valid bdd → ∃ r bdd', Returns bdd c r bdd'
  evaluate : ∀ i < bdd.nodes.length, ∀ (values : ℕ → Option Bool) (σ : ℕ → Bool),
    (∀ v base b, bdd.nodeMap ⟨v, one, zero⟩ = some base → values base = some b → σ v = b) →
    bdd.evaluate i values = .ok (denote bdd.node σ i) ∨
    ∃ v base, bdd.evaluate i values = .error (.missingValue v base) ∧
      bdd.nodeMap ⟨v, one, zero⟩ = some base ∧ values base = none
  pathCount : ∀ i n, bdd.nodes[i]? = some n →
    n.pathCount = min (paths bdd.node i).length int32Max

include h in
theorem Wf.canonical (hbase : HasBase bdd) :
    Canonical bdd := by
  refine ⟨?_, ?_, ?_, ?_, fun i n hn => h.count hn⟩
  · intro i n hn
    exact ⟨h.reduced.high_ne_low hn, fun n' => h.reduced.above_high hn n',
      fun n' => h.reduced.above_low hn n'⟩
  · intro i j hi hj
    constructor
    · rintro rfl σ
      rfl
    · exact h.reduced.canonical hi hj
  · intro c hc
    obtain ⟨r, bdd', hreturns, -⟩ := h.call hbase hc
    exact ⟨r, bdd', hreturns⟩
  · intro i hi values σ hσ
    exact h.evaluateLoop hbase hσ hi (Nat.lt_succ_self i)

/-- The invariant of the reachable diagrams. -/
def Inv (bdd : BinaryDecisionDiagram) : Prop := Wf bdd ∧ HasBase bdd

theorem inv_empty : Inv empty := ⟨wf_empty, fun v hv => absurd hv (Nat.not_lt_zero v)⟩

/-- Every reachable diagram is canonical. -/
theorem canonical_of_run {bdd : BinaryDecisionDiagram}
    {calls : List (BinaryDecisionDiagram × Call)} (hrun : Lts.Run Step empty calls bdd) :
    Canonical bdd := by
  have hinv : Inv bdd := by
    refine (hrun.invariant inv_empty ?_).1
    rintro bdd c bdd' ⟨hwf, hbase⟩ ⟨hvalid, r, hcall⟩
    obtain ⟨r', bdd'', hreturns, hwf', hbase'⟩ := hwf.call hbase hvalid
    rw [hreturns.result] at hcall
    cases hcall
    exact ⟨hwf', hbase'⟩
  exact hinv.1.canonical hinv.2

/-- The diagram after a call. -/
def after (bdd : BinaryDecisionDiagram) (c : Call) : BinaryDecisionDiagram :=
  ((bdd.call c).map (·.2)).getD bdd

theorem step_after {bdd : BinaryDecisionDiagram} {c : Call} (hvalid : c.Valid bdd)
    (hsome : (bdd.call c).isSome = true) : Step bdd c (bdd.after c) := by
  obtain ⟨⟨r, bdd'⟩, hcall⟩ := Option.isSome_iff_exists.mp hsome
  exact ⟨hvalid, r, by simp [after, hcall]⟩

/-- Two variables and their conjunction. -/
def conjunction : BinaryDecisionDiagram :=
  ((empty.after .newVariable).after .newVariable).after (.and 2 3)

theorem canonical_conjunction : conjunction.nodes.map (·.content) =
      [none, none, some ⟨0, 1, 0⟩, some ⟨1, 1, 0⟩, some ⟨0, 3, 0⟩] ∧ Canonical conjunction :=
  ⟨by decide, canonical_of_run (.cons (step_after (c := .newVariable) trivial (by decide))
      (.cons (step_after (c := .newVariable) trivial (by decide))
        (.cons (step_after (c := .and 2 3) ⟨by decide, by decide⟩ (by decide)) (.nil _))))⟩

end BinaryDecisionDiagram

end Xls
