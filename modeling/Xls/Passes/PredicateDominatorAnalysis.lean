/-
# Predicate dominator analysis

`PredicateDominatorAnalysis` (`xls/passes/predicate_dominator_analysis.cc`) finds for
each node the nearest arm of a select through which all uses of the node pass.  The
arms form shared linked lists, kept in `predicateStacks`; the list of a node is the
common part of the lists of its users, each extended by an arm where the user is a
select.

The main result of this file is that the list of a node holds exactly the arms which
every path of uses to a node without users passes through.
-/
import Xls.Ir.Users
import Xls.Lib.ParentTree
import Mathlib.Data.List.Nodup
import Mathlib.Logic.Function.Basic

namespace Xls

/-- `PredicateState::ArmT`. -/
inductive Arm where
  | case (index : ℕ)
  | default
  deriving DecidableEq, Repr

/-- `PredicateState`, whose selects are `Select` nodes here. -/
inductive PredicateState where
  | base
  | select (node : ℕ) (arm : Arm)
  deriving DecidableEq, Repr

namespace Select

/-- The arm of the operand `k` behind the selector, out of `count`. -/
def armOf (hasDefault : Bool) (count k : ℕ) : Arm :=
  if hasDefault ∧ k + 1 = count then .default else .case k

/-- `cases` and `default_value`, each with its arm. -/
def arms (hasDefault : Bool) (operands : List ℕ) : List (ℕ × Arm) :=
  operands.zipIdx.map fun p => (p.1, armOf hasDefault operands.length p.2)

theorem armOf_injective {hasDefault : Bool} {count k k' : ℕ}
    (h : armOf hasDefault count k = armOf hasDefault count k') : k = k' := by
  unfold armOf at h
  split at h
  · split at h
    · omega
    · cases h
  · split at h
    · cases h
    · cases h
      rfl

theorem mem_arms {hasDefault : Bool} {operands : List ℕ} {i : ℕ} {arm : Arm} :
    (i, arm) ∈ arms hasDefault operands ↔
      ∃ k, operands[k]? = some i ∧ armOf hasDefault operands.length k = arm := by
  simp [arms, List.mem_zipIdx_iff_getElem?]

theorem arms_nodup {hasDefault : Bool} {operands : List ℕ} :
    ((arms hasDefault operands).map Prod.snd).Nodup := by
  rw [arms, List.map_map]
  have hsnd : (Prod.snd ∘ fun p : ℕ × ℕ => (p.1, armOf hasDefault operands.length p.2)) =
      armOf hasDefault operands.length ∘ Prod.snd := rfl
  rw [hsnd, ← List.map_map, List.zipIdx_map_snd]
  exact (List.nodup_range' 1 (by decide)).map fun _ _ => armOf_injective

end Select

namespace PredicateDominatorAnalysis

/-! ## The analysis -/

/-- A cell of a linked list of arms. -/
structure PredicateStackNode where
  selector : Option ℕ
  arm : Arm
  previous : ℕ
  distanceToRoot : ℕ
  deriving DecidableEq, Repr

/-- `kRootPredicateId`. -/
def rootPredicateId : ℕ := 0

/-- `kRootPredicateStackNode`. -/
def rootPredicateStackNode : PredicateStackNode where
  selector := none
  arm := .case 0
  previous := rootPredicateId
  distanceToRoot := 0

/-- The loop which shortens the longer list. -/
def shorten (arena : List PredicateStackNode) : ℕ → ℕ → Option ℕ
  | 0, candidate => some candidate
  | k + 1, candidate =>
    match arena[candidate]? with
    | some node => shorten arena k node.previous
    | none => none

/-- The loop which walks down both lists until they join.  The fuel is the length of
the lists. -/
def joinFrom (arena : List PredicateStackNode) : ℕ → ℕ → ℕ → Option ℕ
  | 0, a, b => if a = b then some a else none
  | fuel + 1, a, b =>
    if a = b then some a
    else if a = rootPredicateId ∨ b = rootPredicateId then none
    else
      match arena[a]?, arena[b]? with
      | some aNode, some bNode => joinFrom arena fuel aNode.previous bNode.previous
      | _, _ => none

/-- `FindJoinPoint` behind the swap, with `a` not longer than `b`. -/
def joinOrdered (arena : List PredicateStackNode) (a aLength b bLength : ℕ) : Option ℕ :=
  match shorten arena (bLength - aLength) b with
  | some b => joinFrom arena aLength a b
  | none => none

/-- `FindJoinPoint`; `none` is a failed check. -/
def findJoinPoint (arena : List PredicateStackNode) (a b : Option ℕ) : Option ℕ :=
  if a = none ∧ b = none then none
  else if (∃ x ∈ a, arena.length ≤ x) ∨ ∃ x ∈ b, arena.length ≤ x then none
  else if a = some rootPredicateId ∨ b = some rootPredicateId then some rootPredicateId
  else if a = b then a
  else
    match a, b with
    | none, b => b
    | a, none => a
    | some a, some b =>
      match arena[a]?, arena[b]? with
      | some aSet, some bSet =>
        if bSet.distanceToRoot < aSet.distanceToRoot then
          joinOrdered arena b bSet.distanceToRoot a aSet.distanceToRoot
        else joinOrdered arena a aSet.distanceToRoot b bSet.distanceToRoot
      | _, _ => none

/-- `AnalysisHelper`.  A node without a state reads as the root, as in a hash map. -/
structure AnalysisHelper where
  nodeStates : ℕ → ℕ
  predicateStacks : List PredicateStackNode

/-- The lambda `handle_arm`: a new cell on the list of the select. -/
def handleArm (node user : ℕ) (nodeStates : ℕ → ℕ)
    (acc : List PredicateStackNode × Option ℕ) (arm : ℕ × Arm) :
    Option (List PredicateStackNode × Option ℕ) :=
  if arm.1 ≠ node then some acc
  else
    let prev := nodeStates user
    match acc.1[prev]? with
    | some prevNode =>
      let arena := acc.1 ++ [⟨some user, arm.2, prev, prevNode.distanceToRoot + 1⟩]
      (findJoinPoint arena (some acc.1.length) acc.2).map fun head => (arena, some head)
    | none => none

/-- `HandleStandardNodeUse`. -/
def handleStandardNodeUse (user : ℕ) (st : AnalysisHelper) (head : Option ℕ) :
    Option (List PredicateStackNode × Option ℕ) :=
  (findJoinPoint st.predicateStacks head (some (st.nodeStates user))).map fun head =>
    (st.predicateStacks, some head)

/-- `HandlePossibleNewArm`. -/
def handlePossibleNewArm (node user : ℕ) (hasDefault : Bool) (operands : List ℕ)
    (st : AnalysisHelper) (head : Option ℕ) : Option (List PredicateStackNode × Option ℕ) :=
  match operands with
  | selector :: rest =>
    if selector = node then handleStandardNodeUse user st head
    else
      (Select.arms hasDefault rest).foldlM (handleArm node user st.nodeStates)
        (st.predicateStacks, head)
  | [] => none

/-- The choice between the two kinds of uses. -/
def handleUse (node user : ℕ) (n : Node) (st : AnalysisHelper) (head : Option ℕ) :
    Option (List PredicateStackNode × Option ℕ) :=
  match n.op with
  | .sel hasDefault => handlePossibleNewArm node user hasDefault n.operands st head
  | _ => handleStandardNodeUse user st head

/-- The body of the loop over the users. -/
def handleUser (f : FunctionBase) (node : ℕ) (acc : AnalysisHelper × Option ℕ) (user : ℕ) :
    Option (AnalysisHelper × Option ℕ) :=
  match f.nodes[user]? with
  | none => none
  | some n =>
    match handleUse node user n acc.1 acc.2 with
    | some (arena, some head) =>
      some (⟨Function.update acc.1.nodeStates node head, arena⟩, some head)
    | _ => none

/-- `HandleNode`. -/
def handleNode (f : FunctionBase) (us : Users f) (st : AnalysisHelper) (node : ℕ) :
    Option AnalysisHelper :=
  match us.users node with
  | [] => some { st with nodeStates := Function.update st.nodeStates node rootPredicateId }
  | users => (users.foldlM (handleUser f node) (st, none)).map Prod.fst

/-- The predicate of a list head; the selector is cast to a `Select`. -/
def predicateState (f : FunctionBase) (arena : List PredicateStackNode) (head : ℕ) :
    Option PredicateState :=
  if head = rootPredicateId then some .base
  else
    match arena[head]? with
    | some ⟨some selector, arm, _, _⟩ =>
      match f.nodes[selector]? with
      | some ⟨.sel _, _, _⟩ => some (.select selector arm)
      | _ => none
    | _ => none

/-- The states of all nodes, in reverse topological order. -/
def analyzeStates (f : FunctionBase) (us : Users f) : Option AnalysisHelper :=
  (List.range f.nodes.length).reverse.foldlM (handleNode f us)
    ⟨fun _ => rootPredicateId, [rootPredicateStackNode]⟩

/-- `Analyze`: the predicate of each node. -/
def analyze (f : FunctionBase) (us : Users f) : Option (List PredicateState) :=
  match analyzeStates f us with
  | some st =>
    (List.range f.nodes.length).mapM fun node =>
      predicateState f st.predicateStacks (st.nodeStates node)
  | none => none

/-! ## The lists in the arena -/

/-- The next cell of a list. -/
def parent (arena : List PredicateStackNode) (id : ℕ) : ℕ :=
  (arena[id]?.map PredicateStackNode.previous).getD rootPredicateId

/-- The length of a list. -/
def depth (arena : List PredicateStackNode) (id : ℕ) : ℕ :=
  (arena[id]?.map PredicateStackNode.distanceToRoot).getD 0

/-- A cell holds an arm of a select. -/
def HasArm (node : PredicateStackNode) (arm : ℕ × Arm) : Prop :=
  node.selector = some arm.1 ∧ node.arm = arm.2

/-- The arm is on the list of `id`. -/
def OnStack (arena : List PredicateStackNode) (id : ℕ) (arm : ℕ × Arm) : Prop :=
  ∃ i node, ParentTree.Ancestor (parent arena) i id ∧ arena[i]? = some node ∧ HasArm node arm

/-- The cells behind the root hold different arms and link to earlier cells. -/
structure ArenaWf (arena : List PredicateStackNode) : Prop where
  root : arena[0]? = some rootPredicateStackNode
  selector : ∀ id node, id ≠ 0 → arena[id]? = some node → ∃ s, node.selector = some s
  previous : ∀ id node, id ≠ 0 → arena[id]? = some node →
    node.previous < id ∧ node.distanceToRoot = depth arena node.previous + 1
  arm_unique : ∀ (i j : ℕ) arm nodeᵢ nodeⱼ, arena[i]? = some nodeᵢ → arena[j]? = some nodeⱼ →
    HasArm nodeᵢ arm → HasArm nodeⱼ arm → i = j

variable {arena : List PredicateStackNode}

variable {id : ℕ} {node : PredicateStackNode}

theorem parent_eq (h : arena[id]? = some node) : parent arena id = node.previous := by
  simp [parent, h]

theorem depth_eq (h : arena[id]? = some node) : depth arena id = node.distanceToRoot := by
  simp [depth, h]

theorem lt_length (h : arena[id]? = some node) :
    id < arena.length := (List.getElem?_eq_some_iff.mp h).1

theorem exists_node (h : id < arena.length) : ∃ node, arena[id]? = some node :=
  ⟨_, List.getElem?_eq_getElem h⟩

namespace ArenaWf

variable (hwf : ArenaWf arena)

include hwf

theorem tree : ParentTree (parent arena) (depth arena) 0 {id | id < arena.length} where
  root_mem := lt_length hwf.root
  parent_root := parent_eq hwf.root
  depth_root := depth_eq hwf.root
  parent_mem id hid := by
    obtain ⟨node, hget⟩ := exists_node hid
    rw [parent_eq hget]
    by_cases hzero : id = 0
    · subst hzero
      rw [hwf.root] at hget
      cases hget
      exact hid
    · exact lt_trans (hwf.previous id _ hzero hget).1 hid
  depth_parent id hid hzero := by
    obtain ⟨node, hget⟩ := exists_node hid
    rw [parent_eq hget, depth_eq hget]
    exact (hwf.previous id _ hzero hget).2

/-- The root list is empty. -/
theorem not_onStack_root (arm : ℕ × Arm) : ¬ OnStack arena rootPredicateId arm := by
  rintro ⟨i, node, hi, hget, harm, -⟩
  obtain rfl := hwf.tree.ancestor_root.mp hi
  rw [hwf.root] at hget
  cases hget
  cases harm

/-- Two lists share an arm only where they share its cell. -/
theorem onStack_of_common {a b j : ℕ} (hj : ∀ i, ParentTree.Ancestor (parent arena) i j ↔
      ParentTree.Ancestor (parent arena) i a ∧ ParentTree.Ancestor (parent arena) i b)
    (arm : ℕ × Arm) : OnStack arena j arm ↔ OnStack arena a arm ∧ OnStack arena b arm := by
  constructor
  · rintro ⟨i, node, hi, hget, harm⟩
    obtain ⟨hia, hib⟩ := (hj i).mp hi
    exact ⟨⟨i, node, hia, hget, harm⟩, ⟨i, node, hib, hget, harm⟩⟩
  · rintro ⟨⟨i, node, hia, hget, harm⟩, ⟨i', node', hib, hget', harm'⟩⟩
    obtain rfl := hwf.arm_unique i i' arm node node' hget hget' harm harm'
    exact ⟨i, node, (hj i).mpr ⟨hia, hib⟩, hget, harm⟩

theorem shorten_spec {k a b : ℕ} (ha : a < arena.length) (hb : b < arena.length)
    (hk : depth arena b = depth arena a + k) :
    ∃ c, shorten arena k b = some c ∧ c < arena.length ∧ depth arena c = depth arena a ∧
      ∀ i, ParentTree.Ancestor (parent arena) i a ∧ ParentTree.Ancestor (parent arena) i c ↔
        ParentTree.Ancestor (parent arena) i a ∧ ParentTree.Ancestor (parent arena) i b := by
  induction k generalizing b with
  | zero => exact ⟨b, rfl, hb, hk, fun _ => Iff.rfl⟩
  | succ k ih =>
    obtain ⟨node, hget⟩ := exists_node hb
    have hne : b ≠ 0 := by
      rintro rfl
      have := hwf.tree.depth_root
      omega
    have hdepth := hwf.tree.depth_parent b hb hne
    obtain ⟨c, hc, hclt, hcdepth, hiff⟩ := ih (hwf.tree.parent_mem b hb) (by omega)
    refine ⟨c, ?_, hclt, hcdepth, ?_⟩
    · rw [shorten, hget]
      rw [parent_eq hget] at hc
      exact hc
    · intro i
      rw [hiff i]
      exact (hwf.tree.common_parent_right ha (by omega)).symm

theorem joinFrom_spec {fuel a b : ℕ} (ha : a < arena.length) (hb : b < arena.length)
    (hfuel : depth arena a = fuel) (hdepth : depth arena a = depth arena b) :
    ∃ j, joinFrom arena fuel a b = some j ∧ j < arena.length ∧
      ∀ i, ParentTree.Ancestor (parent arena) i j ↔
        ParentTree.Ancestor (parent arena) i a ∧ ParentTree.Ancestor (parent arena) i b := by
  induction fuel generalizing a b with
  | zero =>
    obtain rfl := hwf.tree.eq_root_of_depth ha hfuel
    obtain rfl := hwf.tree.eq_root_of_depth hb (by omega)
    refine ⟨0, ?_, ha, fun i => (and_self_iff).symm⟩
    rw [joinFrom, if_pos rfl]
  | succ fuel ih =>
    by_cases hab : a = b
    · subst hab
      refine ⟨a, ?_, ha, fun i => (and_self_iff).symm⟩
      rw [joinFrom, if_pos rfl]
    · obtain ⟨aNode, hga⟩ := exists_node ha
      obtain ⟨bNode, hgb⟩ := exists_node hb
      have hroot := hwf.tree.depth_root
      have ha0 : a ≠ 0 := by
        rintro rfl
        omega
      have hb0 : b ≠ 0 := by
        rintro rfl
        omega
      have hda := hwf.tree.depth_parent a ha ha0
      have hdb := hwf.tree.depth_parent b hb hb0
      obtain ⟨j, hj, hjlt, hiff⟩ := ih (hwf.tree.parent_mem a ha) (hwf.tree.parent_mem b hb)
        (by omega) (by omega)
      refine ⟨j, ?_, hjlt, ?_⟩
      · rw [joinFrom, if_neg hab, if_neg (by simp [rootPredicateId, ha0, hb0]), hga, hgb]
        rw [parent_eq hga, parent_eq hgb] at hj
        exact hj
      · intro i
        rw [hiff i]
        exact (hwf.tree.common_parents ha hb hdepth hab).symm

theorem joinOrdered_spec {a b : ℕ} (ha : a < arena.length) (hb : b < arena.length)
    (hle : depth arena a ≤ depth arena b) :
    ∃ j, joinOrdered arena a (depth arena a) b (depth arena b) = some j ∧ j < arena.length ∧
      ∀ arm, OnStack arena j arm ↔ OnStack arena a arm ∧ OnStack arena b arm := by
  obtain ⟨c, hc, hclt, hcdepth, hshort⟩ :=
    hwf.shorten_spec (k := depth arena b - depth arena a) ha hb (by omega)
  obtain ⟨j, hj, hjlt, hjoin⟩ := hwf.joinFrom_spec ha hclt rfl hcdepth.symm
  refine ⟨j, ?_, hjlt, hwf.onStack_of_common fun i => (hjoin i).trans (hshort i)⟩
  rw [joinOrdered, hc]
  exact hj

/-- The arms on the list found by `findJoinPoint` are the arms on both lists. -/
theorem findJoinPoint_spec {a b : Option ℕ} (hne : a ≠ none ∨ b ≠ none)
    (ha : ∀ x ∈ a, x < arena.length) (hb : ∀ x ∈ b, x < arena.length) :
    ∃ j, findJoinPoint arena a b = some j ∧ j < arena.length ∧ ∀ arm, OnStack arena j arm ↔
        (∀ x ∈ a, OnStack arena x arm) ∧ ∀ x ∈ b, OnStack arena x arm := by
  have hfirst : ¬ (a = none ∧ b = none) := by tauto
  have hrange : ¬ ((∃ x ∈ a, arena.length ≤ x) ∨ ∃ x ∈ b, arena.length ≤ x) := by
    rintro (⟨x, hx, hle⟩ | ⟨x, hx, hle⟩)
    · have := ha x hx
      omega
    · have := hb x hx
      omega
  unfold findJoinPoint
  rw [if_neg hfirst, if_neg hrange]
  by_cases hroot : a = some rootPredicateId ∨ b = some rootPredicateId
  · rw [if_pos hroot]
    refine ⟨rootPredicateId, rfl, lt_length hwf.root, fun arm => ?_⟩
    refine iff_of_false (hwf.not_onStack_root arm) ?_
    rintro ⟨hall, hall'⟩
    rcases hroot with rfl | rfl
    · exact hwf.not_onStack_root arm (hall _ rfl)
    · exact hwf.not_onStack_root arm (hall' _ rfl)
  rw [if_neg hroot]
  by_cases hab : a = b
  · subst hab
    obtain ⟨x, rfl⟩ : ∃ x, a = some x := Option.ne_none_iff_exists'.mp (by tauto)
    rw [if_pos rfl]
    exact ⟨x, rfl, ha x rfl, fun arm => by simp⟩
  rw [if_neg hab]
  rcases a with _ | a
  · obtain ⟨y, rfl⟩ : ∃ y, b = some y := Option.ne_none_iff_exists'.mp (by tauto)
    exact ⟨y, rfl, hb y rfl, fun arm => by simp⟩
  rcases b with _ | b
  · exact ⟨a, rfl, ha a rfl, fun arm => by simp⟩
  have halt := ha a rfl
  have hblt := hb b rfl
  obtain ⟨aNode, hga⟩ := exists_node halt
  obtain ⟨bNode, hgb⟩ := exists_node hblt
  simp only [hga, hgb, Option.mem_some_iff, forall_eq', ← depth_eq hga, ← depth_eq hgb]
  split
  · rename_i hlt
    obtain ⟨j, hj, hjlt, hiff⟩ := hwf.joinOrdered_spec hblt halt hlt.le
    exact ⟨j, hj, hjlt, fun arm => (hiff arm).trans and_comm⟩
  · rename_i hlt
    exact hwf.joinOrdered_spec halt hblt (not_lt.mp hlt)

end ArenaWf

/-! ## Growing the arena -/

theorem getElem?_append_singleton {cell node : PredicateStackNode} {id : ℕ} :
    (arena ++ [cell])[id]? = some node ↔
      arena[id]? = some node ∨ id = arena.length ∧ node = cell := by
  rcases lt_trichotomy id arena.length with hlt | rfl | hlt
  · rw [List.getElem?_append_left hlt]
    constructor
    · exact .inl
    · rintro (h | ⟨rfl, -⟩)
      · exact h
      · omega
  · simp [eq_comm]
  · rw [List.getElem?_eq_none (by simp; omega), List.getElem?_eq_none hlt.le]
    simp
    omega

variable {arena' : List PredicateStackNode}

theorem getElem?_of_isPrefix (h : arena <+: arena') {id : ℕ} (hid : id < arena.length) :
    arena'[id]? = arena[id]? := by
  obtain ⟨back, rfl⟩ := h
  exact List.getElem?_append_left hid

/-- New cells do not change the lists which exist. -/
theorem ArenaWf.onStack_of_isPrefix (hwf : ArenaWf arena) (h : arena <+: arena') {id : ℕ}
    (hid : id < arena.length) (arm : ℕ × Arm) :
    OnStack arena' id arm ↔ OnStack arena id arm := by
  have hanc : ∀ i, ParentTree.Ancestor (parent arena') i id ↔
      ParentTree.Ancestor (parent arena) i id := by
    intro i
    refine ParentTree.ancestor_congr hwf.tree.parent_mem ?_ hid
    intro x hx
    rw [parent, parent, getElem?_of_isPrefix h hx]
  constructor
  · rintro ⟨i, node, hi, hget, harm⟩
    rw [hanc] at hi
    rw [getElem?_of_isPrefix h (hwf.tree.ancestor_mem hi hid)] at hget
    exact ⟨i, node, hi, hget, harm⟩
  · rintro ⟨i, node, hi, hget, harm⟩
    refine ⟨i, node, (hanc i).mpr hi, ?_, harm⟩
    rw [getElem?_of_isPrefix h (lt_length hget), hget]

theorem depth_of_isPrefix (h : arena <+: arena') {id : ℕ} (hid : id < arena.length) :
    depth arena' id = depth arena id := by
  rw [depth, depth, getElem?_of_isPrefix h hid]

/-- The arms in the arena satisfy `K`. -/
def ArmsIn (arena : List PredicateStackNode) (K : ℕ × Arm → Prop) : Prop :=
  ∀ (id : ℕ) node arm, arena[id]? = some node → HasArm node arm → K arm

variable {K P : ℕ × Arm → Prop} {s user : ℕ} {head : Option ℕ} {done : List ℕ} {st : AnalysisHelper}

/-- A new arm on an existing list. -/
theorem ArenaWf.push (hwf : ArenaWf arena) (harms : ArmsIn arena K) {prev : ℕ} {a : Arm}
    (hprev : prev < arena.length) (hnew : ¬ K (s, a)) :
    ArenaWf (arena ++ [⟨some s, a, prev, depth arena prev + 1⟩]) where
  root := by
    rw [List.getElem?_append_left (lt_length hwf.root)]
    exact hwf.root
  selector id node hid hget := by
    rcases getElem?_append_singleton.mp hget with hget | ⟨-, rfl⟩
    · exact hwf.selector id node hid hget
    · exact ⟨s, rfl⟩
  previous id node hid hget := by
    rcases getElem?_append_singleton.mp hget with hget | ⟨rfl, rfl⟩
    · obtain ⟨hlt, hdepth⟩ := hwf.previous id node hid hget
      rw [depth_of_isPrefix (List.prefix_append _ _) (hlt.trans (lt_length hget))]
      exact ⟨hlt, hdepth⟩
    · rw [depth_of_isPrefix (List.prefix_append _ _) hprev]
      exact ⟨hprev, rfl⟩
  arm_unique i j arm nodeᵢ nodeⱼ hᵢ hⱼ harmᵢ harmⱼ := by
    have hcell : ∀ arm, HasArm ⟨some s, a, prev, depth arena prev + 1⟩ arm → arm = (s, a) := by
      rintro ⟨s', a'⟩ ⟨hs, ha⟩
      cases hs
      cases ha
      rfl
    rcases getElem?_append_singleton.mp hᵢ with hᵢ | ⟨rfl, rfl⟩
    · rcases getElem?_append_singleton.mp hⱼ with hⱼ | ⟨rfl, rfl⟩
      · exact hwf.arm_unique i j arm nodeᵢ nodeⱼ hᵢ hⱼ harmᵢ harmⱼ
      · obtain rfl := hcell arm harmⱼ
        exact absurd (harms i nodeᵢ _ hᵢ harmᵢ) hnew
    · rcases getElem?_append_singleton.mp hⱼ with hⱼ | ⟨rfl, rfl⟩
      · obtain rfl := hcell arm harmᵢ
        exact absurd (harms j nodeⱼ _ hⱼ harmⱼ) hnew
      · rfl

theorem ArmsIn.push (harms : ArmsIn arena K) {prev d : ℕ} {a : Arm} :
    ArmsIn (arena ++ [⟨some s, a, prev, d⟩]) fun arm => K arm ∨ arm = (s, a) := by
  rintro id node ⟨s', a'⟩ hget harm
  rcases getElem?_append_singleton.mp hget with hget | ⟨-, rfl⟩
  · exact .inl (harms id node _ hget harm)
  · obtain ⟨hs, ha⟩ := harm
    cases hs
    cases ha
    exact .inr rfl

theorem ArenaWf.onStack_push (hwf : ArenaWf arena) {prev d : ℕ} {a : Arm}
    (hprev : prev < arena.length) (arm : ℕ × Arm) :
    OnStack (arena ++ [⟨some s, a, prev, d⟩]) arena.length arm ↔
      arm = (s, a) ∨ OnStack arena prev arm := by
  have hlast : (arena ++ [(⟨some s, a, prev, d⟩ : PredicateStackNode)])[arena.length]? =
      some ⟨some s, a, prev, d⟩ := by simp
  rw [← hwf.onStack_of_isPrefix (List.prefix_append arena [⟨some s, a, prev, d⟩]) hprev]
  constructor
  · rintro ⟨i, node, hi, hget, harm⟩
    rcases ParentTree.ancestor_iff.mp hi with rfl | hi
    · rw [hlast] at hget
      cases hget
      obtain ⟨hs, ha⟩ := harm
      cases hs
      cases ha
      exact .inl rfl
    · rw [parent_eq hlast] at hi
      exact .inr ⟨i, node, hi, hget, harm⟩
  · rintro (rfl | ⟨i, node, hi, hget, harm⟩)
    · exact ⟨arena.length, _, .refl, hlast, rfl, rfl⟩
    · refine ⟨i, node, .step ?_, hget, harm⟩
      rw [parent_eq hlast]
      exact hi

/-! ## The arms which guard a node -/

/-- The node `s` is a select. -/
def IsSelect (f : FunctionBase) (s : ℕ) (hasDefault : Bool) (selector : ℕ) (rest : List ℕ) :
    Prop :=
  ∃ type, f.nodes[s]? = some ⟨.sel hasDefault, selector :: rest, type⟩

/-- The node `u` is the select of the arm and uses `n` nowhere but in it. -/
def OnlyInArm (f : FunctionBase) (arm : ℕ × Arm) (n u : ℕ) : Prop :=
  u = arm.1 ∧ ∃ hasDefault selector rest, IsSelect f u hasDefault selector rest ∧
    selector ≠ n ∧ ∀ a, (n, a) ∈ Select.arms hasDefault rest → a = arm.2

/-- A path of uses leads from the node to a node without users and does not pass through
the arm. -/
inductive Escapes (f : FunctionBase) (arm : ℕ × Arm) : ℕ → Prop
  | unused {n : ℕ} : (∀ u, ¬ Uses f u n) → Escapes f arm n
  | use {n u : ℕ} : Uses f u n → ¬ OnlyInArm f arm n u → Escapes f arm u → Escapes f arm n

/-- Every path of uses from the node to a node without users passes through the arm. -/
def Guards (f : FunctionBase) (arm : ℕ × Arm) (n : ℕ) : Prop := ¬ Escapes f arm n

variable {f : FunctionBase}

theorem guards_iff {arm : ℕ × Arm} {n : ℕ} :
    Guards f arm n ↔ (∃ u, Uses f u n) ∧ ∀ u, Uses f u n → OnlyInArm f arm n u ∨ Guards f arm u := by
  constructor
  · intro h
    constructor
    · by_contra hnone
      exact h (.unused (not_exists.mp hnone))
    · intro u hu
      by_contra hno
      rw [not_or] at hno
      exact h (.use hu hno.1 (not_not.mp hno.2))
  · rintro ⟨⟨u, hu⟩, hall⟩ hesc
    rcases hesc with hunused | ⟨hu', hnot, hesc⟩
    · exact hunused u hu
    · rcases hall _ hu' with honly | hguards
      · exact hnot honly
      · exact hguards hesc

/-- `n` is the operand of an arm. -/
def ArmOperand (f : FunctionBase) (arm : ℕ × Arm) (n : ℕ) : Prop :=
  ∃ hasDefault selector rest, IsSelect f arm.1 hasDefault selector rest ∧
    (n, arm.2) ∈ Select.arms hasDefault rest

theorem IsSelect.unique {selector selector' : ℕ} {hasDefault hasDefault' : Bool}
    {rest rest' : List ℕ} (h : IsSelect f s hasDefault selector rest)
    (h' : IsSelect f s hasDefault' selector' rest') :
    hasDefault = hasDefault' ∧ selector = selector' ∧ rest = rest' := by
  obtain ⟨type, h⟩ := h
  obtain ⟨type', h'⟩ := h'
  rw [h] at h'
  cases h'
  exact ⟨rfl, rfl, rfl⟩

theorem ArmOperand.unique {arm : ℕ × Arm} {n n' : ℕ} (h : ArmOperand f arm n)
    (h' : ArmOperand f arm n') : n = n' := by
  obtain ⟨hasDefault, selector, rest, hsel, hmem⟩ := h
  obtain ⟨hasDefault', selector', rest', hsel', hmem'⟩ := h'
  obtain ⟨rfl, rfl, rfl⟩ := hsel.unique hsel'
  obtain ⟨k, hk, harm⟩ := Select.mem_arms.mp hmem
  obtain ⟨k', hk', harm'⟩ := Select.mem_arms.mp hmem'
  obtain rfl := Select.armOf_injective (harm.trans harm'.symm)
  rw [hk] at hk'
  exact Option.some.inj hk'

/-! ## The loops -/

/-- The list `head`, if there is one, holds the arms of `P`; without a list these are all
arms. -/
def Joined (arena : List PredicateStackNode) (head : Option ℕ) (P : ℕ × Arm → Prop) : Prop :=
  (∀ h ∈ head, h < arena.length) ∧ ∀ arm, (∀ h ∈ head, OnStack arena h arm) ↔ P arm

theorem Joined.of_isPrefix (hwf : ArenaWf arena) (hpre : arena <+: arena') (h : Joined arena head P) :
    Joined arena' head P := by
  constructor
  · intro x hx
    exact lt_of_lt_of_le (h.1 x hx) hpre.length_le
  · intro arm
    rw [← h.2 arm]
    refine forall₂_congr fun x hx => ?_
    exact hwf.onStack_of_isPrefix hpre (h.1 x hx) arm

theorem Joined.join {a b : Option ℕ} {Q : ℕ × Arm → Prop} (hwf : ArenaWf arena)
    (hne : a ≠ none ∨ b ≠ none) (ha : Joined arena a P) (hb : Joined arena b Q) :
    ∃ j, findJoinPoint arena a b = some j ∧ Joined arena (some j) fun arm => P arm ∧ Q arm := by
  obtain ⟨j, hj, hjlt, hiff⟩ := hwf.findJoinPoint_spec hne ha.1 hb.1
  refine ⟨j, hj, ?_, ?_⟩
  · rintro x ⟨⟩
    exact hjlt
  · intro arm
    show _ ↔ P arm ∧ Q arm
    rw [← ha.2 arm, ← hb.2 arm, ← hiff arm]
    simp

/-- The loop over the arms of a select adds a cell for each arm of the node. -/
theorem foldlM_handleArm {node : ℕ} {nodeStates : ℕ → ℕ} {Q : ℕ × Arm → Prop} {l : List (ℕ × Arm)}
    (hwf : ArenaWf arena) (harms : ArmsIn arena K) (hnodup : (l.map Prod.snd).Nodup)
    (hnew : ∀ a, (node, a) ∈ l → ¬ K (user, a)) (hstate : Joined arena (some (nodeStates user)) Q)
    (hhead : Joined arena head P) :
    ∃ arena' head', l.foldlM (handleArm node user nodeStates) (arena, head) = some (arena', head') ∧
      ArenaWf arena' ∧ arena <+: arena' ∧
      ArmsIn arena' (fun arm => K arm ∨ arm.1 = user ∧ (node, arm.2) ∈ l) ∧
      Joined arena' head' (fun arm => P arm ∧ ∀ a, (node, a) ∈ l → arm = (user, a) ∨ Q arm) ∧
      (head ≠ none ∨ (∃ a, (node, a) ∈ l) → head' ≠ none) := by
  induction l generalizing arena head K P with
  | nil =>
    refine ⟨arena, head, rfl, hwf, List.prefix_rfl, ?_, ?_, by simp⟩
    · intro id n arm hget harm
      exact .inl (harms id n arm hget harm)
    · simpa using hhead
  | cons x l ih =>
    rw [List.map_cons, List.nodup_cons] at hnodup
    rw [List.foldlM_cons]
    obtain ⟨i, a⟩ := x
    by_cases hi : i = node
    · subst hi
      -- the arm is pushed and joined with the head
      have hprev : nodeStates user < arena.length := hstate.1 _ rfl
      obtain ⟨prevNode, hprevNode⟩ := exists_node hprev
      have hfresh : ¬ K (user, a) := hnew a (by simp)
      have hwf' := hwf.push harms hprev hfresh
      rw [depth_eq hprevNode] at hwf'
      set cells := arena ++ [⟨some user, a, nodeStates user, prevNode.distanceToRoot + 1⟩]
        with hcells
      have hpre : arena <+: cells := List.prefix_append _ _
      have hcons : Joined cells (some arena.length) fun arm => arm = (user, a) ∨ Q arm := by
        constructor
        · rintro y ⟨⟩
          simp [hcells]
        · intro arm
          have hQ := hstate.2 arm
          have hpush := hwf.onStack_push (s := user) (a := a)
            (d := prevNode.distanceToRoot + 1) hprev arm
          simp only [Option.mem_some_iff, forall_eq'] at hQ ⊢
          rw [← hQ]
          exact hpush
      obtain ⟨j, hj, hjoined⟩ := hcons.join hwf' (.inl (by simp)) (hhead.of_isPrefix hwf hpre)
      have hstep : handleArm i user nodeStates (arena, head) (i, a) = some (cells, some j) := by
        simp only [handleArm, ne_eq, not_true_eq_false, hprevNode]
        rw [hj]
        rfl
      have hnew' : ∀ a', (i, a') ∈ l → ¬ (K (user, a') ∨ (user, a') = (user, a)) := by
        rintro a' ha' (hK | heq)
        · exact hnew a' (by simp [ha']) hK
        · obtain ⟨-, rfl⟩ := Prod.mk.inj heq
          exact hnodup.1 (List.mem_map.mpr ⟨_, ha', rfl⟩)
      obtain ⟨arena', head', hfold, hwf'', hpre', harms', hjoined', hsome⟩ :=
        ih hwf' harms.push hnodup.2 hnew' (hstate.of_isPrefix hwf hpre) hjoined
      refine ⟨arena', head', ?_, hwf'', hpre.trans hpre', ?_, ?_, ?_⟩
      · rw [hstep]
        exact hfold
      · intro id n arm hget harm
        rcases harms' id n arm hget harm with (hK | rfl) | ⟨huser, hmem⟩
        · exact .inl hK
        · exact .inr ⟨rfl, by simp⟩
        · exact .inr ⟨huser, by simp [hmem]⟩
      · refine ⟨hjoined'.1, fun arm => (hjoined'.2 arm).trans ?_⟩
        constructor
        · rintro ⟨⟨hQ, hP⟩, hall⟩
          refine ⟨hP, fun a' ha' => ?_⟩
          rcases List.mem_cons.mp ha' with heq | hmem
          · cases heq
            exact hQ
          · exact hall a' hmem
        · rintro ⟨hP, hall⟩
          exact ⟨⟨hall a (by simp), hP⟩, fun a' ha' => hall a' (by simp [ha'])⟩
      · intro _
        exact hsome (.inl (by simp))
    · have hstep : handleArm node user nodeStates (arena, head) (i, a) = some (arena, head) := by
        simp [handleArm, hi]
      have hmem : ∀ a', (node, a') ∈ (i, a) :: l ↔ (node, a') ∈ l := by
        intro a'
        simp [Ne.symm hi]
      simp only [hmem] at hnew ⊢
      rw [hstep]
      exact ih hwf harms hnodup.2 hnew hstate hhead

/-- What holds while the users `done` of `node` have been visited: the arms in the arena
belong to operands behind `node` or to these users. -/
structure LoopInv (f : FunctionBase) (node : ℕ) (done : List ℕ) (st : AnalysisHelper)
    (head : Option ℕ) : Prop where
  wf : ArenaWf st.predicateStacks
  arms : ArmsIn st.predicateStacks fun arm =>
    ∃ i, ArmOperand f arm i ∧ (node < i ∨ i = node ∧ arm.1 ∈ done)
  states : ∀ i, node < i → i < f.nodes.length →
    Joined st.predicateStacks (some (st.nodeStates i)) fun arm => Guards f arm i
  head : Joined st.predicateStacks head fun arm =>
    ∀ u ∈ done, OnlyInArm f arm node u ∨ Guards f arm u

section

variable {node : ℕ} (h : LoopInv f node done st head)

include h

/-- A use which is not in an arm of a select. -/
theorem handleStandardNodeUse_spec (huser : node < user) (hlt : user < f.nodes.length)
    (hnot : ∀ arm, ¬ OnlyInArm f arm node user) :
    ∃ j, handleStandardNodeUse user st head = some (st.predicateStacks, some j) ∧
      LoopInv f node (done ++ [user]) st (some j) := by
  obtain ⟨j, hj, hjoined⟩ := h.head.join h.wf (.inr (by simp)) (h.states user huser hlt)
  refine ⟨j, by rw [handleStandardNodeUse, hj]; rfl, h.wf, ?_, h.states, hjoined.1, ?_⟩
  · intro id n arm hget harm
    obtain ⟨i, hi, hcase⟩ := h.arms id n arm hget harm
    refine ⟨i, hi, hcase.imp_right fun hdone => ⟨hdone.1, ?_⟩⟩
    exact List.mem_append_left _ hdone.2
  · intro arm
    rw [hjoined.2 arm]
    simp only [List.mem_append, List.mem_singleton, or_imp, forall_and, forall_eq, hnot arm,
      false_or]

/-- A use in some arms of a select. -/
theorem foldlM_handleArm_spec {selector : ℕ} {hasDefault : Bool} {rest : List ℕ}
    (huser : node < user) (hlt : user < f.nodes.length)
    (hnew : user ∉ done) (hsel : IsSelect f user hasDefault selector rest)
    (hselector : selector ≠ node) (hmem : node ∈ rest) :
    ∃ arena' j, (Select.arms hasDefault rest).foldlM (handleArm node user st.nodeStates)
        (st.predicateStacks, head) = some (arena', some j) ∧
      LoopInv f node (done ++ [user]) { st with predicateStacks := arena' } (some j) := by
  have hfresh : ∀ a, (node, a) ∈ Select.arms hasDefault rest →
      ¬ ∃ i, ArmOperand f (user, a) i ∧ (node < i ∨ i = node ∧ user ∈ done) := by
    rintro a ha ⟨i, hi, hcase⟩
    obtain rfl := hi.unique ⟨hasDefault, selector, rest, hsel, ha⟩
    rcases hcase with hlt | ⟨-, hdone⟩
    · omega
    · exact hnew hdone
  obtain ⟨arena', head', hfold, hwf', hpre, harms', hjoined, hsome⟩ :=
    foldlM_handleArm h.wf h.arms Select.arms_nodup hfresh (h.states user huser hlt) h.head
  have hexists : ∃ a, (node, a) ∈ Select.arms hasDefault rest := by
    obtain ⟨k, hk, hget⟩ := List.mem_iff_getElem.mp hmem
    exact ⟨_, Select.mem_arms.mpr ⟨k, List.getElem?_eq_some_iff.mpr ⟨hk, hget⟩, rfl⟩⟩
  obtain ⟨j, rfl⟩ := Option.ne_none_iff_exists'.mp (hsome (.inr hexists))
  refine ⟨arena', j, hfold, hwf', ?_, ?_, hjoined.1, ?_⟩
  · intro id n arm hget harm
    rcases harms' id n arm hget harm with ⟨i, hi, hcase⟩ | ⟨rfl, ha⟩
    · refine ⟨i, hi, hcase.imp_right fun hdone => ⟨hdone.1, ?_⟩⟩
      exact List.mem_append_left _ hdone.2
    · exact ⟨node, ⟨hasDefault, selector, rest, hsel, ha⟩, .inr ⟨rfl, by simp⟩⟩
  · intro i hi hilt
    exact (h.states i hi hilt).of_isPrefix h.wf hpre
  · intro arm
    rw [hjoined.2 arm]
    simp only [List.mem_append, List.mem_singleton, or_imp, forall_and, forall_eq]
    refine and_congr_right fun _ => ?_
    constructor
    · intro hall
      by_cases hguards : Guards f arm user
      · exact .inr hguards
      · obtain ⟨a, ha⟩ := hexists
        have harm := (hall a ha).resolve_right hguards
        refine .inl ⟨by rw [harm], hasDefault, selector, rest, hsel, hselector, ?_⟩
        intro a' ha'
        rw [(hall a' ha').resolve_right hguards]
    · rintro (⟨huser', hasDefault', selector', rest', hsel', -, honly⟩ | hguards) a ha
      · obtain ⟨rfl, rfl, rfl⟩ := hsel.unique hsel'
        exact .inl (Prod.ext huser'.symm (honly a ha).symm)
      · exact .inr hguards

omit h in
theorem handleUse_of_ne_sel {n : Node} (h : ∀ hasDefault, n.op ≠ .sel hasDefault) :
    handleUse node user n st head = handleStandardNodeUse user st head := by
  unfold handleUse
  split
  · rename_i hasDefault hop
    exact absurd hop (h hasDefault)
  · rfl

/-- The use of a node by one of its users. -/
theorem handleUse_spec {n : Node} (huser : node < user)
    (hnew : user ∉ done) (hn : f.nodes[user]? = some n) (hmem : node ∈ n.operands) :
    ∃ arena' j, handleUse node user n st head = some (arena', some j) ∧
      LoopInv f node (done ++ [user]) { st with predicateStacks := arena' } (some j) := by
  have hlt : user < f.nodes.length := (List.getElem?_eq_some_iff.mp hn).1
  by_cases hop : ∃ hasDefault, n.op = .sel hasDefault
  · obtain ⟨hasDefault, hop⟩ := hop
    obtain ⟨op, operands, type⟩ := n
    obtain rfl : op = .sel hasDefault := hop
    rcases operands with _ | ⟨selector, rest⟩
    · simp at hmem
    have hsel : IsSelect f user hasDefault selector rest := ⟨type, hn⟩
    simp only [handleUse, handlePossibleNewArm]
    by_cases hselector : selector = node
    · rw [if_pos hselector]
      obtain ⟨j, hj, hinv⟩ := handleStandardNodeUse_spec h huser hlt (by
        rintro arm ⟨-, hasDefault', selector', rest', hsel', hne, -⟩
        obtain ⟨rfl, rfl, rfl⟩ := hsel.unique hsel'
        exact hne hselector)
      exact ⟨_, j, hj, hinv⟩
    · rw [if_neg hselector]
      have hrest : node ∈ rest := by simpa [Ne.symm hselector] using hmem
      exact foldlM_handleArm_spec h huser hlt hnew hsel hselector hrest
  · rw [handleUse_of_ne_sel (not_exists.mp hop)]
    obtain ⟨j, hj, hinv⟩ := handleStandardNodeUse_spec h huser hlt (by
      rintro arm ⟨-, hasDefault, selector, rest, ⟨type', hsel⟩, -⟩
      rw [hn] at hsel
      cases hsel
      exact hop ⟨_, rfl⟩)
    exact ⟨_, j, hj, hinv⟩

/-- One round of the loop over the users. -/
theorem handleUser_spec (huser : node < user)
    (hnew : user ∉ done) (huses : Uses f user node) :
    ∃ st' j, handleUser f node (st, head) user = some (st', some j) ∧ st'.nodeStates node = j ∧
      LoopInv f node (done ++ [user]) st' (some j) := by
  obtain ⟨n, hn, hmem⟩ := huses
  obtain ⟨arena', j, hj, hwf, harms, hstates, hhead⟩ := handleUse_spec h huser hnew hn hmem
  refine ⟨⟨Function.update st.nodeStates node j, arena'⟩, j, ?_, by simp, hwf, harms, ?_, hhead⟩
  · simp only [handleUser, hn, hj]
  · intro i hi hilt
    show Joined arena' (some (Function.update st.nodeStates node j i)) _
    rw [Function.update_of_ne (by omega)]
    exact hstates i hi hilt

/-- The loop over the users. -/
theorem foldlM_handleUser {users : List ℕ}
    (hhead : ∀ j ∈ head, st.nodeStates node = j) (hnodup : users.Nodup)
    (hnew : ∀ u ∈ users, u ∉ done) (huses : ∀ u ∈ users, node < u ∧ Uses f u node) :
    ∃ st' head', users.foldlM (handleUser f node) (st, head) = some (st', head') ∧
      (∀ j ∈ head', st'.nodeStates node = j) ∧ (users ≠ [] → head' ≠ none) ∧
      LoopInv f node (done ++ users) st' head' := by
  induction users generalizing done st head with
  | nil => exact ⟨st, head, rfl, hhead, by simp, by simpa using h⟩
  | cons user users ih =>
    obtain ⟨hnot, hnodup⟩ := List.nodup_cons.mp hnodup
    obtain ⟨hlt, huse⟩ := huses user (by simp)
    obtain ⟨st₁, j, hstep, hstate, hinv⟩ := handleUser_spec h hlt (hnew user (by simp)) huse
    have hnew₁ : ∀ u ∈ users, u ∉ done ++ [user] := by
      intro u hu hmem
      rcases List.mem_append.mp hmem with hdone | hone
      · exact hnew u (by simp [hu]) hdone
      · rw [List.mem_singleton.mp hone] at hu
        exact hnot hu
    obtain ⟨st', head', hfold, hstate', hsome, hinv'⟩ :=
      ih hinv (by simpa using hstate) hnodup hnew₁ fun u hu => huses u (by simp [hu])
    refine ⟨st', head', ?_, hstate', ?_, ?_⟩
    · rw [List.foldlM_cons, hstep]
      exact hfold
    · intro _
      by_cases hempty : users = []
      · subst hempty
        cases hfold
        simp
      · exact hsome hempty
    · rw [List.append_assoc] at hinv'
      exact hinv'

end

/-! ## The whole analysis -/

/-- What holds once the nodes from position `k` on have been handled. -/
structure StatesInv (f : FunctionBase) (k : ℕ) (st : AnalysisHelper) : Prop where
  wf : ArenaWf st.predicateStacks
  arms : ArmsIn st.predicateStacks fun arm => ∃ i, ArmOperand f arm i ∧ k ≤ i
  states : ∀ i, k ≤ i → i < f.nodes.length →
    Joined st.predicateStacks (some (st.nodeStates i)) fun arm => Guards f arm i

theorem StatesInv.init : StatesInv f f.nodes.length
    ⟨fun _ => rootPredicateId, [rootPredicateStackNode]⟩ where
  wf := by
    refine ⟨rfl, ?_, ?_, ?_⟩
    · intro id node hid hget
      simp [hid] at hget
    · intro id node hid hget
      simp [hid] at hget
    · intro i j arm nodeᵢ nodeⱼ hᵢ hⱼ _ _
      have hi := lt_length hᵢ
      have hj := lt_length hⱼ
      simp only [List.length_singleton] at hi hj
      omega
  arms := by
    rintro id node arm hget ⟨hselector, -⟩
    obtain ⟨-, rfl⟩ : id = 0 ∧ rootPredicateStackNode = node := by
      simpa [List.getElem?_singleton] using hget
    cases hselector
  states i hi hlt := by omega

/-- One node: its list holds the arms which guard it. -/
theorem handleNode_spec (us : Users f) {node : ℕ} (horder : ∀ u, Uses f u node → node < u)
    (h : StatesInv f (node + 1) st) :
    ∃ st', handleNode f us st node = some st' ∧ StatesInv f node st' := by
  have huses : ∀ u, u ∈ us.users node ↔ Uses f u node := fun u => us.mem_iff
  have hother : ∀ (st' : AnalysisHelper), (∀ i, node < i → i < f.nodes.length →
        Joined st'.predicateStacks (some (st'.nodeStates i)) fun arm => Guards f arm i) →
      Joined st'.predicateStacks (some (st'.nodeStates node)) (fun arm => Guards f arm node) →
      ∀ i, node ≤ i → i < f.nodes.length →
        Joined st'.predicateStacks (some (st'.nodeStates i)) fun arm => Guards f arm i := by
    intro st' hbehind hnode i hi hilt
    rcases Nat.eq_or_lt_of_le hi with rfl | hi
    · exact hnode
    · exact hbehind i hi hilt
  unfold handleNode
  split
  · rename_i hnone
    -- a node without users gets the empty list
    have hunused : ∀ u, ¬ Uses f u node := by
      intro u hu
      rw [← huses, hnone] at hu
      cases hu
    refine ⟨_, rfl, h.wf, ?_, hother _ ?_ ?_⟩
    · intro id n arm hget harm
      obtain ⟨i, hi, hle⟩ := h.arms id n arm hget harm
      exact ⟨i, hi, by omega⟩
    · intro i hi hilt
      show Joined st.predicateStacks (some (Function.update st.nodeStates node _ i)) _
      rw [Function.update_of_ne (by omega)]
      exact h.states i hi hilt
    · refine ⟨?_, fun arm => ?_⟩
      · simp [lt_length h.wf.root, rootPredicateId]
      · refine iff_of_false ?_ fun hguards => hguards (.unused hunused)
        simpa using h.wf.not_onStack_root arm
  · rename_i hsome
    have hstart : LoopInv f node [] st none := by
      refine ⟨h.wf, ?_, h.states, by simp, by simp⟩
      intro id n arm hget harm
      obtain ⟨i, hi, hle⟩ := h.arms id n arm hget harm
      exact ⟨i, hi, .inl hle⟩
    obtain ⟨st', head', hfold, hstate, hne, hwf, harms, hstates, hhead⟩ :=
      foldlM_handleUser hstart (by simp) (us.nodup node) (by simp) fun u hu =>
        ⟨horder u ((huses u).mp hu), (huses u).mp hu⟩
    have hnonempty : us.users node ≠ [] := fun hnil => hsome hnil
    obtain ⟨j, rfl⟩ := Option.ne_none_iff_exists'.mp (hne hnonempty)
    refine ⟨st', by rw [hfold]; rfl, hwf, ?_, hother st' hstates ?_⟩
    · intro id n arm hget harm
      obtain ⟨i, hi, hcase⟩ := harms id n arm hget harm
      exact ⟨i, hi, by omega⟩
    · rw [hstate j rfl]
      refine ⟨hhead.1, fun arm => (hhead.2 arm).trans ?_⟩
      obtain ⟨u, hu⟩ := List.exists_mem_of_ne_nil _ hnonempty
      show (∀ u ∈ [] ++ us.users node, _) ↔ Guards f arm node
      rw [guards_iff]
      simp only [List.nil_append, huses]
      exact ⟨fun hall => ⟨⟨u, (huses u).mp hu⟩, hall⟩, fun hall => hall.2⟩

/-- The loop over the nodes. -/
theorem foldlM_handleNode (us : Users f) (horder : ∀ u n, Uses f u n → n < u) {k : ℕ}
    (h : StatesInv f k st) :
    ∃ st', (List.range k).reverse.foldlM (handleNode f us) st = some st' ∧ StatesInv f 0 st' := by
  induction k generalizing st with
  | zero => exact ⟨st, rfl, h⟩
  | succ k ih =>
    obtain ⟨st₁, hstep, hinv⟩ := handleNode_spec us (horder · k) h
    obtain ⟨st', hfold, hinv'⟩ := ih hinv
    refine ⟨st', ?_, hinv'⟩
    rw [List.range_succ, List.reverse_append, List.reverse_singleton, List.singleton_append,
      List.foldlM_cons, hstep]
    exact hfold

/-- The predicate of a node is the nearest of the arms which guard it. -/
def Describes (f : FunctionBase) (node : ℕ) : PredicateState → Prop
  | .base => ∀ arm, ¬ Guards f arm node
  | .select s a => Guards f (s, a) node

theorem predicateState_spec (h : StatesInv f 0 st) {node : ℕ} (hlt : node < f.nodes.length) :
    ∃ p, predicateState f st.predicateStacks (st.nodeStates node) = some p ∧
      Describes f node p := by
  obtain ⟨hhead, hiff⟩ := h.states node (Nat.zero_le _) hlt
  simp only [Option.mem_some_iff, forall_eq'] at hhead hiff
  generalize st.nodeStates node = head at *
  unfold predicateState
  by_cases hroot : head = rootPredicateId
  · subst hroot
    refine ⟨.base, if_pos rfl, fun arm hguards => ?_⟩
    exact h.wf.not_onStack_root arm ((hiff arm).mpr hguards)
  · obtain ⟨cell, hcell⟩ := exists_node hhead
    obtain ⟨s, hs⟩ := h.wf.selector head cell hroot hcell
    have harm : HasArm cell (s, cell.arm) := ⟨hs, rfl⟩
    obtain ⟨i, ⟨hasDefault, selector, rest, ⟨type, hsel⟩, -⟩, -⟩ :=
      h.arms head cell _ hcell harm
    refine ⟨.select s cell.arm, ?_, (hiff _).mp ⟨head, cell, .refl, hcell, harm⟩⟩
    obtain ⟨cellSelector, a, previous, distance⟩ := cell
    obtain rfl : cellSelector = some s := hs
    rw [if_neg hroot, hcell]
    simp only at hsel ⊢
    rw [hsel]

theorem mapM_forall₂ {α β : Type} {g : α → Option β} {P : α → β → Prop} {l : List α}
    (h : ∀ x ∈ l, ∃ y, g x = some y ∧ P x y) : ∃ ys, l.mapM g = some ys ∧ List.Forall₂ P l ys := by
  induction l with
  | nil => exact ⟨[], rfl, .nil⟩
  | cons x l ih =>
    obtain ⟨y, hy, hP⟩ := h x (by simp)
    obtain ⟨ys, hys, hall⟩ := ih fun x hx => h x (by simp [hx])
    refine ⟨y :: ys, ?_, .cons hP hall⟩
    rw [List.mapM_cons, hy, hys]
    rfl

/-- The analysis fails no check, and describes every node. -/
theorem analyze_spec (us : Users f) (horder : ∀ u n, Uses f u n → n < u) :
    ∃ result, analyze f us = some result ∧ result.length = f.nodes.length ∧
      ∀ node p, result[node]? = some p → Describes f node p := by
  obtain ⟨st, hst, hinv⟩ := foldlM_handleNode us horder StatesInv.init
  obtain ⟨result, hresult, hall⟩ :=
    mapM_forall₂ (P := Describes f) (l := List.range f.nodes.length)
      (g := fun node => predicateState f st.predicateStacks (st.nodeStates node))
      fun node hnode => predicateState_spec hinv (List.mem_range.mp hnode)
  have hlength : result.length = f.nodes.length := by
    rw [← hall.length_eq, List.length_range]
  refine ⟨result, ?_, hlength, ?_⟩
  · rw [analyze, analyzeStates, hst]
    exact hresult
  · intro node p hp
    have hnode : node < f.nodes.length := by
      rw [← hlength]
      exact (List.getElem?_eq_some_iff.mp hp).1
    have hget := (List.forall₂_iff_get.mp hall).2 node (by simpa using hnode)
      (by rw [hlength]; exact hnode)
    rw [List.get_eq_getElem, List.get_eq_getElem, List.getElem_range] at hget
    rw [List.getElem?_eq_some_iff] at hp
    rw [hp.2] at hget
    exact hget

end PredicateDominatorAnalysis

end Xls
