/-
# Token simplification

`TokenSimplificationPass` (`xls/passes/token_simplification_pass.cc`) simplifies the `after_all` and
`min_delay` nodes of a function or proc, one rewrite after the other over all nodes.  A rewrite makes
new nodes and removes the node it is run on, or its users.

* `TokenPath` : paths along tokens, with the sum of the delays on them;
* `Preserved` : the other nodes are left, and the longest delays between them stay the same;
* `Preserved.trans` : one rewrite after the other;
* `Grown.preserved_replaced` : a node is replaced by one with the same delays.
-/
import Xls.Ir.Verifier
import Xls.Lib.Digraph
import Xls.Lib.LongestPath
import Xls.Passes.DeadCodeElimination
import Mathlib.Data.List.Sort

namespace Xls.TokenSimplification

/-- A node: the operation, the type, and the delay of a `min_delay`. -/
structure NodeData where
  op : Opcode
  type : Ty
  delay : ℕ
  deriving DecidableEq

/-- An `after_all`. -/
def afterAll : NodeData := ⟨.afterAll, .token, 0⟩

/-- A `min_delay`. -/
def minDelay (delay : ℕ) : NodeData := ⟨.minDelay, .token, delay⟩

/-- The nodes of a function or a proc, and those with an implicit use: the return value, or the next
token and the next state. -/
structure FunctionBase where
  nodes : TermGraph NodeData
  implicitUses : List ℕ

mutual

/-- `NumberOfTokensInType`. -/
def numberOfTokensInType : Ty → ℕ
  | .bits _ => 0
  | .token => 1
  | .tuple ts => numberOfTokensInTypes ts
  | .array n t => numberOfTokensInType t * n

/-- The loop over the elements of a tuple. -/
def numberOfTokensInTypes : List Ty → ℕ
  | [] => 0
  | t :: ts => numberOfTokensInType t + numberOfTokensInTypes ts

end

namespace FunctionBase

/-- `GetType`. -/
def type (f : FunctionBase) (i : ℕ) : Option Ty := (f.nodes.vertex i).map fun n => n.label.type

/-- `TypeHasToken` of the type of a node. -/
def hasToken (f : FunctionBase) (i : ℕ) : Bool := (f.type i).any Verifier.typeHasToken

/-- `MakeNode`; the node is `f.nodes.length`. -/
def makeNode (f : FunctionBase) (d : NodeData) (operands : List ℕ) : FunctionBase :=
  { f with nodes := f.nodes.make ⟨d, operands⟩ }

/-- `ReplaceUsesWith`, with the implicit uses. -/
def replaceUsesWith (f : FunctionBase) (i j : ℕ) : Option FunctionBase :=
  if f.type i = f.type j then
    some ⟨f.nodes.replaceUses i j, f.implicitUses.map (TermGraph.redirect i j)⟩
  else none

/-- `RemoveNode`. -/
def removeNode (f : FunctionBase) (i : ℕ) : Option FunctionBase :=
  if f.nodes.hasUsers i = false ∧ i ∉ f.implicitUses then some { f with nodes := f.nodes.remove i }
  else none

/-- `ReplaceUsesWith` and `RemoveNode`. -/
def replaceNode (f : FunctionBase) (i j : ℕ) : Option FunctionBase :=
  (f.replaceUsesWith i j).bind fun f' => f'.removeNode i

/-- The function with `j` in the place of `i`. -/
def replaced (f : FunctionBase) (i j : ℕ) : FunctionBase :=
  ⟨f.nodes.replaceVertex i j, f.implicitUses.map (TermGraph.redirect i j)⟩

/-- The operands behind a node for `DependenciesOf`: no way leads through an `invoke`. -/
def dependencies (f : FunctionBase) (i : ℕ) : List ℕ :=
  match f.nodes.vertex i with
  | some n => if n.label.op = .invoke then [] else n.operands.filter f.hasToken
  | none => []

/-- `DependenciesOf`. -/
def dependenciesOf (f : FunctionBase) (root : ℕ) : List ℕ :=
  if f.hasToken root then Digraph.search f.dependencies f.nodes.length root else []

/-! ## The rewrites -/

/-- A change, if there was none before. -/
def changed (f : Option FunctionBase) : Option (FunctionBase × Bool) := f.map fun f => (f, true)

/-- `SimplifyTrivialMinDelay`. -/
def simplifyTrivialMinDelay (f : FunctionBase) (node : ℕ) : Option (FunctionBase × Bool) :=
  match f.nodes.vertex node with
  | none => none
  | some ⟨⟨.minDelay, _, delay⟩, [operand]⟩ =>
    if delay = 0 then changed (f.replaceNode node operand)
    else
      match f.nodes.vertex operand with
      | some ⟨⟨.afterAll, _, _⟩, []⟩ => changed (f.replaceNode node operand)
      | _ => some (f, false)
  | some _ => some (f, false)

/-- `CollapseMinDelay`.  The sum of the delays is an `int64_t`: when it overflows it is negative, and
`MakeNode` rejects the node. -/
def collapseMinDelay (f : FunctionBase) (node : ℕ) : Option (FunctionBase × Bool) :=
  match f.nodes.vertex node with
  | none => none
  | some ⟨⟨.minDelay, _, delay⟩, [operand]⟩ =>
    match f.nodes.vertex operand with
    | some ⟨⟨.minDelay, _, delay'⟩, [operand']⟩ =>
      if delay + delay' < 2 ^ 63 then
        changed ((f.makeNode (minDelay (delay + delay')) [operand']).replaceNode node f.nodes.length)
      else none
    | _ => some (f, false)
  | some _ => some (f, false)

/-- The operand and the delay of a `min_delay`. -/
def asMinDelay (f : FunctionBase) (i : ℕ) : Option (ℕ × ℕ) :=
  match f.nodes.vertex i with
  | some ⟨⟨.minDelay, _, delay⟩, [operand]⟩ => some (operand, delay)
  | _ => none

/-- The loop of `PushDownMinDelay` which makes the new operands. -/
def pushInputs (leastDelay : ℕ) : FunctionBase → List (ℕ × ℕ) → FunctionBase × List ℕ
  | f, [] => (f, [])
  | f, (operand, delay) :: inputs =>
    if 0 < delay - leastDelay then
      let (f', newOperands) :=
        pushInputs leastDelay (f.makeNode (minDelay (delay - leastDelay)) [operand]) inputs
      (f', f.nodes.length :: newOperands)
    else
      let (f', newOperands) := pushInputs leastDelay f inputs
      (f', operand :: newOperands)

/-- `PushDownMinDelay`. -/
def pushDownMinDelay (f : FunctionBase) (node : ℕ) : Option (FunctionBase × Bool) :=
  match f.nodes.vertex node with
  | none => none
  | some ⟨⟨.afterAll, _, _⟩, operands⟩ =>
    match operands.mapM f.asMinDelay with
    | some ((operand, delay) :: inputs) =>
      let leastDelay := inputs.foldl (fun least input => min least input.2) delay
      if leastDelay = 0 then some (f, false)
      else
        let (f', newOperands) := pushInputs leastDelay f ((operand, delay) :: inputs)
        let f'' := f'.makeNode afterAll newOperands
        changed ((f''.makeNode (minDelay leastDelay) [f'.nodes.length]).replaceNode node
          f''.nodes.length)
    | _ => some (f, false)
  | some _ => some (f, false)

/-- `users`. -/
def users (f : FunctionBase) (i : ℕ) : List ℕ := f.nodes.users i

/-- The operation of a node. -/
def isAfterAll (f : FunctionBase) (i : ℕ) : Bool :=
  (f.nodes.vertex i).any fun n => decide (n.label.op = .afterAll)

/-- The loop of `CollapseAfterAll` over the users of a node with some operands. -/
def collapseInto (node : ℕ) (operands : List ℕ) : List ℕ → FunctionBase → Option FunctionBase
  | [], f => some f
  | user :: users, f =>
    match f.nodes.vertex user with
    | none => none
    | some n =>
      let newOperands := n.operands.filter (fun operand => operand != node) ++ operands
      match (f.makeNode afterAll newOperands).replaceNode user f.nodes.length with
      | none => none
      | some f' => collapseInto node operands users f'

/-- `CollapseAfterAll`. -/
def collapseAfterAll (f : FunctionBase) (node : ℕ) : Option (FunctionBase × Bool) :=
  match f.nodes.vertex node with
  | none => none
  | some ⟨⟨.afterAll, _, _⟩, operands⟩ =>
    if node ∈ f.implicitUses then some (f, false)
    else if (f.users node).all f.isAfterAll then
      match collapseInto node operands (f.users node) f with
      | none => none
      | some f' => (f'.removeNode node).map fun f'' => (f'', !(f.users node).isEmpty)
    else some (f, false)
  | some _ => some (f, false)

/-- One operand of `ReplaceOverlappingAfterAll`: the operands it depends on are replaced by it.  All
of them are tokens. -/
def overlap (f : FunctionBase) (node p : ℕ) : FunctionBase × Bool :=
  match f.nodes.vertex node with
  | none => (f, false)
  | some n =>
    match n.operands[p]? with
    | none => (f, false)
    | some operand =>
      let replaces := fun other => decide (other ∈ f.dependenciesOf operand ∧ operand ≠ other)
      let operands := n.operands.map fun other => if replaces other then operand else other
      ({ f with nodes := f.nodes.set node (some ⟨n.label, operands⟩) }, n.operands.any replaces)

/-- `ReplaceOverlappingAfterAll`. -/
def replaceOverlappingAfterAll (f : FunctionBase) (node : ℕ) : Option (FunctionBase × Bool) :=
  match f.nodes.vertex node with
  | none => none
  | some ⟨⟨.afterAll, _, _⟩, operands⟩ =>
    some ((List.range operands.length).foldl (fun s p =>
      let (f', changed) := s.1.overlap node p
      (f', s.2 || changed)) (f, false))
  | some _ => some (f, false)

/-- `RemoveDuplicateAfterAll`; the ids of nodes grow with their positions. -/
def removeDuplicateAfterAll (f : FunctionBase) (node : ℕ) : Option (FunctionBase × Bool) :=
  match f.nodes.vertex node with
  | none => none
  | some ⟨⟨.afterAll, _, _⟩, operands⟩ =>
    if operands.dedup.length ≠ operands.length then
      changed ((f.makeNode afterAll (operands.dedup.insertionSort (· ≤ ·))).replaceNode node
        f.nodes.length)
    else some (f, false)
  | some _ => some (f, false)

/-- `SimplifyTrivialAfterAll`. -/
def simplifyTrivialAfterAll (f : FunctionBase) (node : ℕ) : Option (FunctionBase × Bool) :=
  match f.nodes.vertex node with
  | none => none
  | some ⟨⟨.afterAll, _, _⟩, [operand]⟩ => changed (f.replaceNode node operand)
  | some _ => some (f, false)

end FunctionBase

/-- A loop of the pass: a rewrite is run on the nodes of a list which is taken before. -/
def rewriteAll (rewrite : FunctionBase → ℕ → Option (FunctionBase × Bool))
    (order : FunctionBase → List ℕ) (s : FunctionBase × Bool) : Option (FunctionBase × Bool) :=
  (order s.1).foldlM (fun s node => (rewrite s.1 node).map fun r => (r.1, s.2 || r.2)) s

/-- `RunOnFunctionBaseInternal`, for the orders of `TopoSort` and `ReverseTopoSort`. -/
def runOnFunctionBaseInternal (topoSort reverseTopoSort : FunctionBase → List ℕ)
    (f : FunctionBase) : Option (FunctionBase × Bool) :=
  if f.nodes.any fun v => v.any fun n => decide (1 < numberOfTokensInType n.label.type) then
    some (f, false)
  else
    (rewriteAll FunctionBase.simplifyTrivialMinDelay topoSort (f, false)).bind fun s =>
    (rewriteAll FunctionBase.collapseMinDelay topoSort s).bind fun s =>
    (rewriteAll FunctionBase.pushDownMinDelay topoSort s).bind fun s =>
    (rewriteAll FunctionBase.collapseAfterAll reverseTopoSort s).bind fun s =>
    (rewriteAll FunctionBase.replaceOverlappingAfterAll topoSort s).bind fun s =>
    (rewriteAll FunctionBase.removeDuplicateAfterAll topoSort s).bind fun s =>
    (rewriteAll FunctionBase.simplifyTrivialAfterAll topoSort s).bind fun s =>
    if s.2 then (rewriteAll FunctionBase.collapseMinDelay topoSort s).map fun r => (r.1, true)
    else some s

/-! ## Delays -/

/-- A path goes through the nodes with a token in their type.  Whether it goes through an `invoke`, of
which it is not known that its result waits for its operands, makes no difference below. -/
def metric (throughInvoke : Bool) : LongestPath.Metric NodeData where
  on d := Verifier.typeHasToken d.type
  through d := throughInvoke || decide (d.op ≠ .invoke)
  weight d := if d.op = .minDelay then d.delay else 0

/-- A path along tokens from `a` to `b`, with the sum of the delays on it. -/
abbrev TokenPath (throughInvoke : Bool) (f : FunctionBase) (a b delay : ℕ) : Prop :=
  LongestPath.Path (metric throughInvoke) f.nodes a b delay

/-- The longest delays from a node to each node. -/
abbrev IsDelays (throughInvoke : Bool) (f : FunctionBase) (a : ℕ) (val : ℕ → WithBot ℕ) : Prop :=
  TermGraph.IsValuation (LongestPath.sem (metric throughInvoke) a) f.nodes val

/-- The nodes the pass may remove. -/
def IsRewritable (op : Opcode) : Prop := op = .afterAll ∨ op = .minDelay

instance : DecidablePred IsRewritable := fun op =>
  inferInstanceAs (Decidable (op = .afterAll ∨ op = .minDelay))

/-- A chain goes through nodes which the pass may remove, from any node on. -/
def chain : LongestPath.Metric NodeData where
  on _ := true
  through d := decide (IsRewritable d.op)
  weight d := if d.op = .minDelay then d.delay else 0

/-- The delays on each chain have a sum which an `int64_t` holds. -/
def FunctionBase.DelaysFit (f : FunctionBase) : Prop :=
  ∀ a b delay, LongestPath.Path chain f.nodes a b delay → delay < 2 ^ 63

/-- A time for each node, which is not before the delays of the chains to it. -/
def FunctionBase.Arrives (f : FunctionBase) (arrival : ℕ → ℕ) : Prop :=
  f.nodes.Rises (fun d => if chain.through d then some (chain.weight d) else none) arrival ∧
    ∀ k, arrival k < 2 ^ 63

/-- The nodes have such times. -/
def FunctionBase.HasArrivals (f : FunctionBase) : Prop := ∃ arrival, f.Arrives arrival

namespace FunctionBase

/-- The node is there, and the pass may not remove it. -/
def IsFixed (f : FunctionBase) (i : ℕ) (d : NodeData) : Prop :=
  ∃ n, f.nodes.vertex i = some n ∧ n.label = d ∧ ¬ IsRewritable d.op

/-- The checks of the verifier on `after_all` and `min_delay`, and that operands and implicit uses are
nodes. -/
structure Checked (f : FunctionBase) : Prop where
  live : LongestPath.Live f.nodes
  implicitUses : ∀ i ∈ f.implicitUses, (f.nodes.vertex i).isSome = true
  afterAll : ∀ k n, f.nodes.vertex k = some n → n.label.op = .afterAll →
    n.label.type = .token ∧ ∀ o ∈ n.operands, f.type o = some .token
  minDelay : ∀ k n, f.nodes.vertex k = some n → n.label.op = .minDelay →
    n.label.type = .token ∧ ∃ o, n.operands = [o] ∧ f.type o = some .token

/-- What the verifier accepts. -/
structure Verified (f : FunctionBase) : Prop where
  checked : f.Checked
  acyclic : f.nodes.IsAcyclic

end FunctionBase

/-- What a rewrite preserves: the fixed nodes, the longest delays from a fixed node to the nodes and
the implicit uses, and that there are arrival times. -/
structure Preserved (f f' : FunctionBase) : Prop where
  length_le : f.nodes.length ≤ f'.nodes.length
  fixed : ∀ i d, f.IsFixed i d ↔ f'.IsFixed i d
  delays : ∀ throughInvoke a d val, f.IsFixed a d → IsDelays throughInvoke f a val →
    ∃ val', IsDelays throughInvoke f' a val' ∧ (∀ k < f.nodes.length, val' k = val k) ∧
      f'.implicitUses.map val' = f.implicitUses.map val
  length_implicitUses : f'.implicitUses.length = f.implicitUses.length
  arrives : f.HasArrivals → f'.HasArrivals

variable {f f' f'' f₁ : FunctionBase} {i j k a : ℕ} {d : NodeData} {operands : List ℕ}
  {throughInvoke : Bool} {val : ℕ → WithBot ℕ} {n : Vertex NodeData}

/-- No rewrite. -/
theorem Preserved.refl (f : FunctionBase) : Preserved f f := by
  refine ⟨Nat.le_refl _, fun _ _ => Iff.rfl, ?_, rfl, id⟩
  intro throughInvoke a d val _ hval
  exact ⟨val, hval, fun _ _ => rfl, rfl⟩

/-- Two rewrites in a row. -/
theorem Preserved.trans (h : Preserved f f') (h' : Preserved f' f'') : Preserved f f'' := by
  refine ⟨h.length_le.trans h'.length_le, fun i d => (h.fixed i d).trans (h'.fixed i d), ?_,
    h'.length_implicitUses.trans h.length_implicitUses, fun ha => h'.arrives (h.arrives ha)⟩
  intro throughInvoke a d val ha hval
  obtain ⟨val', hval', hagree, himplicit⟩ := h.delays throughInvoke a d val ha hval
  obtain ⟨val'', hval'', hagree', himplicit'⟩ :=
    h'.delays throughInvoke a d val' ((h.fixed a d).mp ha) hval'
  refine ⟨val'', hval'', ?_, himplicit'.trans himplicit⟩
  intro k hk
  rw [hagree' k (Nat.lt_of_lt_of_le hk h.length_le), hagree k hk]

namespace FunctionBase

/-! ## Arrival times -/

/-- The longest chains are arrival times. -/
theorem DelaysFit.hasArrivals (h : f.DelaysFit) (hlive : LongestPath.Live f.nodes) :
    f.HasArrivals :=
  LongestPath.exists_rises hlive (fun _ => rfl) (by positivity) h

/-- Arrival times bound the chains. -/
theorem HasArrivals.delaysFit (h : f.HasArrivals) : f.DelaysFit := by
  obtain ⟨arrival, hrises, hlt⟩ := h
  intro a b delay hpath
  exact (Nat.le_of_add_left_le (hpath.le_of_rises hrises)).trans_lt (hlt b)

/-- The operands of a node on a chain arrive before it, by its delay. -/
theorem Arrives.le {arrival : ℕ → ℕ} (h : f.Arrives arrival) (hn : f.nodes.vertex k = some n)
    (hop : IsRewritable n.label.op) {o : ℕ} (ho : o ∈ n.operands) :
    arrival o + chain.weight n.label ≤ arrival k :=
  h.1 k n _ hn (if_pos (decide_eq_true hop)) o ho

/-- A new node arrives after its operands. -/
theorem Arrives.makeNode {arrival : ℕ → ℕ} {r : ℕ} (h : f.Arrives arrival)
    (hbounded : f.nodes.Bounded) (hr : r < 2 ^ 63)
    (hoperands : ∀ o ∈ operands, o < f.nodes.length ∧ arrival o + chain.weight d ≤ r) :
    (f.makeNode d operands).Arrives (Function.update arrival f.nodes.length r) := by
  constructor
  · refine h.1.make hbounded fun o ho => ⟨(hoperands o ho).1, fun w hw => ?_⟩
    cases (Option.ite_none_right_eq_some.mp hw).2
    exact (hoperands o ho).2
  · intro k
    rw [Function.update_apply]
    split_ifs
    · exact hr
    · exact h.2 k

/-! ## Checked functions -/

/-- The type is that of the node. -/
theorem type_eq_some_iff {t : Ty} : f.type i = some t ↔
    ∃ n, f.nodes.vertex i = some n ∧ n.label.type = t := by
  rw [type, Option.map_eq_some_iff]

/-- A node with a type is there. -/
theorem isSome_of_type {t : Ty} (h : f.type i = some t) : (f.nodes.vertex i).isSome = true := by
  obtain ⟨n, hn, -⟩ := type_eq_some_iff.mp h
  rw [hn]
  rfl

/-- Its number is in range. -/
theorem lt_length_of_isSome (h : (f.nodes.vertex i).isSome = true) : i < f.nodes.length := by
  obtain ⟨n, hn⟩ := Option.isSome_iff_exists.mp h
  exact TermGraph.lt_length_of_vertex hn

/-- So is that of a node with a type. -/
theorem lt_length_of_type {t : Ty} (h : f.type i = some t) : i < f.nodes.length :=
  lt_length_of_isSome (isSome_of_type h)

/-- Operands are in range. -/
theorem Checked.bounded (h : f.Checked) : f.nodes.Bounded := fun k n hn o ho =>
  lt_length_of_isSome (h.live k n hn o ho)

/-! ## New nodes -/

/-- One node more. -/
theorem length_makeNode : (f.makeNode d operands).nodes.length = f.nodes.length + 1 :=
  TermGraph.length_make

/-- The old nodes stay. -/
theorem vertex_makeNode (hk : k < f.nodes.length) :
    (f.makeNode d operands).nodes.vertex k = f.nodes.vertex k := by
  rw [makeNode, TermGraph.vertex_make_of_ne hk.ne]

/-- The new node. -/
theorem vertex_makeNode_length :
    (f.makeNode d operands).nodes.vertex f.nodes.length = some ⟨d, operands⟩ :=
  TermGraph.vertex_make_length

/-- Old nodes keep their types. -/
theorem type_makeNode (hk : k < f.nodes.length) : (f.makeNode d operands).type k = f.type k := by
  rw [type, type, vertex_makeNode hk]

/-- A node is an old one or the new one. -/
theorem vertex_makeNode_cases (hn : (f.makeNode d operands).nodes.vertex k = some n) :
    f.nodes.vertex k = some n ∨ k = f.nodes.length ∧ n = ⟨d, operands⟩ := by
  by_cases hk : k = f.nodes.length
  · rw [hk, vertex_makeNode_length, Option.some.injEq] at hn
    exact Or.inr ⟨hk, hn.symm⟩
  · rw [makeNode, TermGraph.vertex_make_of_ne hk] at hn
    exact Or.inl hn

/-- A new `after_all` or `min_delay` of tokens. -/
theorem Checked.makeNode (h : f.Checked) (hoperands : ∀ o ∈ operands, f.type o = some .token)
    (hd : d = TokenSimplification.afterAll ∨
      ∃ delay o, d = TokenSimplification.minDelay delay ∧ operands = [o]) :
    (f.makeNode d operands).Checked := by
  have htype : ∀ o t, f.type o = some t → (f.makeNode d operands).type o = some t := by
    intro o t ho
    rw [type_makeNode (lt_length_of_type ho), ho]
  have hlive : ∀ o, (f.nodes.vertex o).isSome = true →
      ((f.makeNode d operands).nodes.vertex o).isSome = true := by
    intro o ho
    rw [vertex_makeNode (lt_length_of_isSome ho), ho]
  refine ⟨?_, fun i hi => hlive i (h.implicitUses i hi), ?_, ?_⟩
  · intro k n hn o ho
    rcases vertex_makeNode_cases hn with hn | ⟨-, rfl⟩
    · exact hlive o (h.live k n hn o ho)
    · exact hlive o (isSome_of_type (hoperands o ho))
  · intro k n hn hop
    rcases vertex_makeNode_cases hn with hn | ⟨-, rfl⟩
    · obtain ⟨ht, hos⟩ := h.afterAll k n hn hop
      exact ⟨ht, fun o ho => htype o _ (hos o ho)⟩
    · refine ⟨?_, fun o ho => htype o _ (hoperands o ho)⟩
      rcases hd with rfl | ⟨delay, o, rfl, -⟩
      · rfl
      · cases hop
  · intro k n hn hop
    rcases vertex_makeNode_cases hn with hn | ⟨-, rfl⟩
    · obtain ⟨ht, o, ho, hto⟩ := h.minDelay k n hn hop
      exact ⟨ht, o, ho, htype o _ hto⟩
    · rcases hd with rfl | ⟨delay, o, rfl, rfl⟩
      · cases hop
      · exact ⟨rfl, o, rfl, htype o _ (hoperands o (List.mem_singleton_self o))⟩

/-! ## Replaced nodes -/

/-- The other nodes are redirected. -/
theorem vertex_replaced (hk : k ≠ i) : (f.replaced i j).nodes.vertex k =
    (f.nodes.vertex k).map fun n => ⟨n.label, n.operands.map (TermGraph.redirect i j)⟩ :=
  TermGraph.vertex_replaceVertex_of_ne hk

/-- No number is reused. -/
theorem length_replaced : (f.replaced i j).nodes.length = f.nodes.length :=
  TermGraph.length_replaceVertex

/-- The other nodes stay. -/
theorem isSome_replaced (hk : k ≠ i) (h : (f.nodes.vertex k).isSome = true) :
    ((f.replaced i j).nodes.vertex k).isSome = true := by
  rw [vertex_replaced hk, Option.isSome_map, h]

/-- They keep their types. -/
theorem type_replaced (hk : k ≠ i) : (f.replaced i j).type k = f.type k := by
  rw [type, vertex_replaced hk, Option.map_map]
  rfl

/-- Nothing uses the replaced node. -/
theorem redirect_ne (hij : i ≠ j) : TermGraph.redirect i j k ≠ i := by
  rw [TermGraph.redirect]
  split_ifs with hk
  · exact hij.symm
  · exact hk

/-- Uses keep their types. -/
theorem type_redirect (hij : i ≠ j) (htype : f.type i = f.type j) :
    (f.replaced i j).type (TermGraph.redirect i j k) = f.type k := by
  rw [type_replaced (redirect_ne hij), TermGraph.redirect]
  split_ifs with hk
  · rw [hk, htype]
  · rfl

/-- A node in the place of another one with its type. -/
theorem Checked.replaced (h : f.Checked) (hij : i ≠ j) (htype : f.type i = f.type j)
    (hj : (f.nodes.vertex j).isSome = true) : (f.replaced i j).Checked := by
  have hlive : ∀ o, (f.nodes.vertex o).isSome = true →
      ((f.replaced i j).nodes.vertex (TermGraph.redirect i j o)).isSome = true := by
    intro o ho
    apply isSome_replaced (redirect_ne hij)
    rw [TermGraph.redirect]
    split_ifs
    · exact hj
    · exact ho
  have hvertex : ∀ k n, (f.replaced i j).nodes.vertex k = some n → ∃ m,
      f.nodes.vertex k = some m ∧ m.label = n.label ∧
        n.operands = m.operands.map (TermGraph.redirect i j) := by
    intro k n hn
    rw [vertex_replaced (TermGraph.ne_of_vertex_replaceVertex hn), Option.map_eq_some_iff] at hn
    obtain ⟨m, hm, rfl⟩ := hn
    exact ⟨m, hm, rfl, rfl⟩
  refine ⟨?_, ?_, ?_, ?_⟩
  · intro k n hn o ho
    obtain ⟨m, hm, -, hoperands⟩ := hvertex k n hn
    rw [hoperands] at ho
    obtain ⟨o', ho', rfl⟩ := List.mem_map.mp ho
    exact hlive o' (h.live k m hm o' ho')
  · intro k hk
    obtain ⟨k', hk', rfl⟩ := List.mem_map.mp hk
    exact hlive k' (h.implicitUses k' hk')
  · intro k n hn hop
    obtain ⟨m, hm, hlabel, hoperands⟩ := hvertex k n hn
    rw [← hlabel] at hop ⊢
    obtain ⟨ht, hos⟩ := h.afterAll k m hm hop
    refine ⟨ht, fun o ho => ?_⟩
    rw [hoperands] at ho
    obtain ⟨o', ho', rfl⟩ := List.mem_map.mp ho
    rw [type_redirect hij htype, hos o' ho']
  · intro k n hn hop
    obtain ⟨m, hm, hlabel, hoperands⟩ := hvertex k n hn
    rw [← hlabel] at hop ⊢
    obtain ⟨ht, o, ho, hto⟩ := h.minDelay k m hm hop
    refine ⟨ht, TermGraph.redirect i j o, ?_, ?_⟩
    · rw [hoperands, ho]
      rfl
    · rw [type_redirect hij htype, hto]

/-- A node without uses is removed. -/
theorem removeNode_eq_some (huses : ¬ f.nodes.Uses i) (himplicit : i ∉ f.implicitUses) :
    f.removeNode i = some { f with nodes := f.nodes.remove i } := by
  rw [removeNode, if_pos]
  refine ⟨?_, himplicit⟩
  rw [Bool.eq_false_iff]
  exact fun h => huses (TermGraph.hasUsers_iff.mp h)

/-- A node of the same type may stand in. -/
theorem replaceNode_eq_some (hij : i ≠ j) (htype : f.type i = f.type j) :
    f.replaceNode i j = some (f.replaced i j) := by
  rw [replaceNode, replaceUsesWith, if_pos htype, Option.bind_some, removeNode_eq_some]
  · rfl
  · exact TermGraph.not_uses_replaceUses hij
  · intro hmem
    obtain ⟨k, -, hk⟩ := List.mem_map.mp hmem
    exact redirect_ne hij hk

end FunctionBase

/-! ## Growth and replacement -/

/-- Nodes were made which the pass may remove. -/
structure Grown (f f' : FunctionBase) : Prop where
  length_le : f.nodes.length ≤ f'.nodes.length
  vertex : ∀ k < f.nodes.length, f'.nodes.vertex k = f.nodes.vertex k
  implicitUses : f'.implicitUses = f.implicitUses
  fresh : ∀ k n, f.nodes.length ≤ k → f'.nodes.vertex k = some n → IsRewritable n.label.op
  grows : ∀ throughInvoke a,
    TermGraph.Grows (LongestPath.sem (metric throughInvoke) a) f.nodes f'.nodes

/-- No new node. -/
theorem Grown.refl (f : FunctionBase) : Grown f f := by
  refine ⟨Nat.le_refl _, fun _ _ => rfl, rfl, ?_, fun _ _ => TermGraph.Grows.refl _ _⟩
  intro k n hk hn
  exact absurd (TermGraph.lt_length_of_vertex hn) (Nat.not_lt.mpr hk)

/-- More new nodes. -/
theorem Grown.trans (h : Grown f f') (h' : Grown f' f'') : Grown f f'' := by
  refine ⟨h.length_le.trans h'.length_le, ?_, h'.implicitUses.trans h.implicitUses, ?_,
    fun t a => (h.grows t a).trans (h'.grows t a)⟩
  · intro k hk
    rw [h'.vertex k (Nat.lt_of_lt_of_le hk h.length_le), h.vertex k hk]
  · intro k n hk hn
    rcases Nat.lt_or_ge k f'.nodes.length with hlt | hge
    · rw [h'.vertex k hlt] at hn
      exact h.fresh k n hk hn
    · exact h'.fresh k n hge hn

/-- `MakeNode` of an `after_all` or a `min_delay`. -/
theorem grown_makeNode (hchecked : f.Checked) (hd : IsRewritable d.op)
    (hoperands : ∀ o ∈ operands, o < f.nodes.length) : Grown f (f.makeNode d operands) := by
  refine ⟨?_, fun k hk => FunctionBase.vertex_makeNode hk, rfl, ?_, ?_⟩
  · rw [FunctionBase.length_makeNode]
    omega
  · intro k n hk hn
    rcases FunctionBase.vertex_makeNode_cases hn with hn | ⟨-, rfl⟩
    · exact absurd (TermGraph.lt_length_of_vertex hn) (Nat.not_lt.mpr hk)
    · exact hd
  · intro throughInvoke a
    exact TermGraph.Grows.make hchecked.bounded hoperands fun val _ => ⟨_, rfl⟩

/-- A node is replaced by one with the same delays. -/
theorem Grown.preserved_replaced (h : Grown f f₁) (hchecked : f.Checked)
    (hn : f.nodes.vertex i = some n) (hop : IsRewritable n.label.op)
    (hval : ∀ throughInvoke a d val, f.IsFixed a d → IsDelays throughInvoke f₁ a val →
      val i = val j)
    (harrives : f.HasArrivals → ∃ arrival, f₁.Arrives arrival ∧ arrival j ≤ arrival i) :
    Preserved f (f₁.replaced i j) := by
  refine ⟨?_, ?_, ?_, ?_, ?_⟩
  · rw [FunctionBase.length_replaced]
    exact h.length_le
  · intro k d
    by_cases hki : k = i
    · rw [hki]
      constructor
      · rintro ⟨m, hm, rfl, hfixed⟩
        rw [hn, Option.some.injEq] at hm
        rw [← hm] at hfixed
        exact absurd hop hfixed
      · rintro ⟨m, hm, -⟩
        exact absurd rfl (TermGraph.ne_of_vertex_replaceVertex hm)
    · constructor
      · rintro ⟨m, hm, rfl, hfixed⟩
        refine ⟨⟨m.label, m.operands.map (TermGraph.redirect i j)⟩, ?_, rfl, hfixed⟩
        rw [FunctionBase.vertex_replaced hki, h.vertex k (TermGraph.lt_length_of_vertex hm), hm]
        rfl
      · rintro ⟨m', hm', hlabel, hfixed⟩
        rw [FunctionBase.vertex_replaced hki, Option.map_eq_some_iff] at hm'
        obtain ⟨m, hm, rfl⟩ := hm'
        rcases Nat.lt_or_ge k f.nodes.length with hlt | hge
        · rw [h.vertex k hlt] at hm
          exact ⟨m, hm, hlabel, hfixed⟩
        · have hfresh := h.fresh k m hge hm
          rw [← hlabel] at hfixed
          exact absurd hfresh hfixed
  · intro throughInvoke a d val ha hdelays
    obtain ⟨val₁, hval₁, hagree⟩ := (h.grows throughInvoke a).extend val hdelays
    have heq := hval throughInvoke a d val₁ ha hval₁
    refine ⟨val₁, TermGraph.IsValuation.replaceVertex hval₁ heq, hagree, ?_⟩
    change (f₁.implicitUses.map (TermGraph.redirect i j)).map val₁ = _
    rw [TermGraph.map_redirect heq, h.implicitUses]
    apply List.map_congr_left
    intro k hk
    exact hagree k (FunctionBase.lt_length_of_isSome (hchecked.implicitUses k hk))
  · rw [FunctionBase.replaced, List.length_map, h.implicitUses]
  · intro hf
    obtain ⟨arrival, ⟨hrises, hlt⟩, hle⟩ := harrives hf
    exact ⟨arrival, hrises.replaceVertex hle, hlt⟩

end Xls.TokenSimplification
