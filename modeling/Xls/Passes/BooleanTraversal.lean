/-
# The traversal of boolean computations

One visit of a node makes at most four nodes for a node of the function, and none for a node which
was made: those are left alone.

* `visitSingleNode_spec` : each visit keeps the invariant of the traversal, and no check fails
  outside of tautologies of width zero.
-/
import Xls.Passes.BooleanFrontiers

namespace Xls

namespace BooleanSimplification

open NodeGraph

variable {f₀ g g' : NodeGraph} {n : Vertex NodeLabel} {i k o v w fuel : ℕ} {V : List ℕ}
  {rank₀ : ℕ → ℕ} {s s' : Tracker}

/-! ## Tautologies of width zero -/

/-- A node of width zero which has two or three frontier nodes and is true for all of their
values. -/
def ZeroTautology (g : NodeGraph) (k : ℕ) : Prop :=
  Logic g k ∧ g.typeOf k = some (.bits 0) ∧ Tautology g k ∧
    ∃ V : List ℕ, V.Nodup ∧ 2 ≤ V.length ∧ V.length ≤ 3 ∧ ∀ v, v ∈ V ↔ Leaf g k v

/-- The frontier of such a node. -/
theorem vector_of_holds {S : ℕ → Prop} {F : Frontier} (h : Holds S F) (hV : V.Nodup)
    (hlength : V.length ≤ 3) (hS : ∀ v, v ∈ V ↔ S v) :
    ∃ W, F = .vector W ∧ W.length = V.length := by
  cases F with
  | tooMany =>
    obtain ⟨W, hW, hcount, hmem⟩ := h
    have hle : W.length ≤ V.length :=
      (List.subperm_of_subset hW fun v hv => (hS v).mpr (hmem v hv)).length_le
    omega
  | vector W =>
    obtain ⟨hW, -, hmem⟩ := h
    refine ⟨W, rfl, ((List.perm_ext_iff_of_nodup hW hV).mpr fun v => ?_).length_eq⟩
    rw [hmem, hS]

/-! ## The order of the nodes which were made -/

/-- The nodes which were made come after all others, in the order in which they were made. -/
def grownRank (L : ℕ) (rank₀ : ℕ → ℕ) (k : ℕ) : ℕ :=
  if k < L then rank₀ k else (Finset.range L).sup rank₀ + 1 + (k - L)

variable {L : ℕ} {os : List ℕ}

theorem grownRank_le (hk : k < L + 4 * L) :
    grownRank L rank₀ k ≤ (Finset.range L).sup rank₀ + 1 + 4 * L := by
  rw [grownRank]
  split_ifs with hlt
  · have hle : rank₀ k ≤ (Finset.range L).sup rank₀ := Finset.le_sup (Finset.mem_range.mpr hlt)
    omega
  · omega

/-- A visit which does not fail. -/
theorem kept_of_some {P : Tracker → Prop} {A B : Prop} (h : P s) :
    (∀ s', some s = some s' → P s') ∧ (A → B → some s ≠ none) :=
  ⟨fun _ hs' => Option.some.inj hs' ▸ h, fun _ _ => Option.some_ne_none _⟩

variable (hf : Verified f₀) (hrank : f₀.Ranks rank₀)

include hf hrank in
theorem ranks_grownRank (hmade : Made f₀.length f₀ g) :
    TermGraph.Ranks g (grownRank f₀.length rank₀) := by
  intro k n hn o ho
  rcases lt_or_ge k f₀.length with hk | hk
  · rw [hmade.old k hk] at hn
    have hlt := hrank k n hn o ho
    rw [grownRank, grownRank, if_pos hk, if_pos (hf.bounded k n hn o ho)]
    exact hlt
  · have hlt := (hmade.new k n hk hn).2 o ho
    rw [grownRank, grownRank, if_neg (not_lt.mpr hk)]
    split_ifs with hold
    · have hle : rank₀ o ≤ (Finset.range f₀.length).sup rank₀ :=
        Finset.le_sup (Finset.mem_range.mpr hold)
      omega
    · omega

/-- An order in which each replacement comes before the node it replaces. -/
structure Ranks (L : ℕ) (rank₀ : ℕ → ℕ) (g : NodeGraph) (replacements : List (ℕ × ℕ))
    (rank : ℕ → ℕ) : Prop where
  old : ∀ k < L, rank k = 5 * rank₀ k
  operands : g.Ranks rank
  replacements : ∀ p ∈ replacements, rank p.2 < rank p.1

/-- New nodes at some place of an order. -/
def insertedRank (L : ℕ) (rank : ℕ → ℕ) (place k : ℕ) : ℕ :=
  if k < L then rank k else place + (k - L)

theorem insertedRank_old {place : ℕ} {rank : ℕ → ℕ} (hk : k < L) :
    insertedRank L rank place k = rank k := if_pos hk

theorem insertedRank_new {place : ℕ} {rank : ℕ → ℕ} (hk : L ≤ k) :
    insertedRank L rank place k = place + (k - L) := if_neg (not_lt.mpr hk)

/-- The order grows: the nodes for a replacement come right before the node they replace. -/
theorem Ranks.replacement {r : ℕ} {replacements : List (ℕ × ℕ)} {rank : ℕ → ℕ}
    (h : Ranks L rank₀ g replacements rank) (hL : L ≤ g.length) (hg : Verified g)
    (hreplacements : ∀ p ∈ replacements, p.1 < g.length ∧ p.2 < g.length) (hi : i < L)
    (hV : ∀ v ∈ V, v < L ∧ rank₀ v < rank₀ i) (hr : Replacement L V g i g' r) (hrlt : r < g'.length)
    (hpos : 0 < rank₀ i) :
    Ranks L rank₀ g' (replacements ++ [(i, r)]) (insertedRank g.length rank (5 * rank₀ i - 4)) := by
  have hcount := hr.length
  have hfrontier : ∀ v ∈ V, rank v + 5 ≤ 5 * rank₀ i ∧ v < g.length := by
    intro v hv
    obtain ⟨hlt, hless⟩ := hV v hv
    rw [h.old v hlt]
    omega
  refine ⟨fun k hk => ?_, fun k n hn o ho => ?_, fun p hp => ?_⟩
  · rw [insertedRank_old (hk.trans_le hL), h.old k hk]
  · rcases lt_or_ge k g.length with hk | hk
    · rw [hr.made.old k hk] at hn
      rw [insertedRank_old hk, insertedRank_old (hg.bounded k n hn o ho)]
      exact h.operands k n hn o ho
    · obtain ⟨hlt, hmem | hge⟩ := (hr.uses.new k n hk hn).2 o ho
      · obtain ⟨hle, hold⟩ := hfrontier o hmem
        rw [insertedRank_new hk, insertedRank_old hold]
        omega
      · rw [insertedRank_new hk, insertedRank_new hge]
        omega
  · rcases List.mem_append.mp hp with hp | hp
    · obtain ⟨h1, h2⟩ := hreplacements p hp
      rw [insertedRank_old h1, insertedRank_old h2]
      exact h.replacements p hp
    · obtain rfl := List.mem_singleton.mp hp
      rw [insertedRank_old (hi.trans_le hL), h.old i hi]
      rcases hr.node with hmem | hge
      · obtain ⟨hle, hold⟩ := hfrontier r hmem
        rw [insertedRank_old hold]
        omega
      · rw [insertedRank_new hge]
        omega

/-! ## The invariant -/

/-- A node of the function and a node with its value. -/
structure Replaced (L : ℕ) (g : NodeGraph) (p : ℕ × ℕ) : Prop where
  lt : p.1 < L
  type : g.typeOf p.1 = g.typeOf p.2
  live : p.2 < g.length
  value : ∀ env val, FreeValuation env g L val → val p.1 = val p.2

/-- The state of the traversal of the function `f₀`. -/
structure Inv (f₀ : NodeGraph) (rank₀ : ℕ → ℕ) (s : Tracker) : Prop where
  made : Made f₀.length f₀ s.nodes
  visited : ∀ k ∈ s.visited, ∃ n, s.nodes.vertex k = some n ∧ ∀ o ∈ n.operands, o ∈ s.visited
  nodup : s.visited.Nodup
  frontier : ∀ k F, s.nodeToFrontier k = some F → k ∈ s.visited ∧ Logic s.nodes k
  leaves : ∀ k ∈ s.visited, k < f₀.length → Logic f₀ k →
    ∃ F, s.nodeToFrontier k = some F ∧ Holds (Leaf f₀ k) F
  negation : ∀ k ∈ s.visited, ∀ w v, f₀.length ≤ k →
    s.nodes.vertex k = some ⟨⟨.logic .not, .bits w⟩, [v]⟩ →
      s.nodeToFrontier k = some (.vector [v])
  replaced : ∀ p ∈ s.nodeReplacements, Replaced f₀.length s.nodes p
  ranks : ∃ rank, Ranks f₀.length rank₀ s.nodes s.nodeReplacements rank
  regular : ∀ k ∈ s.visited, k < f₀.length → ¬ ZeroTautology f₀ k
  count : s.nodes.length ≤ f₀.length + 4 * s.visited.countP fun k => decide (k < f₀.length)

/-- The tracker after some visits. -/
structure Later (s s' : Tracker) : Prop where
  le : s.nodes.length ≤ s'.nodes.length
  old : ∀ k < s.nodes.length, s'.nodes.vertex k = s.nodes.vertex k
  visited : ∀ k ∈ s.visited, k ∈ s'.visited

theorem Later.refl (s : Tracker) : Later s s := ⟨le_rfl, fun _ _ => rfl, fun _ h => h⟩

theorem Later.trans {s'' : Tracker} (h : Later s s') (h' : Later s' s'') : Later s s'' :=
  ⟨h.le.trans h'.le, fun k hk => (h'.old k (hk.trans_le h.le)).trans (h.old k hk),
    fun k hk => h'.visited k (h.visited k hk)⟩

theorem Later.vertex (h : Later s s') (hn : s.nodes.vertex k = some n) :
    s'.nodes.vertex k = some n :=
  (h.old k (TermGraph.lt_length_of_vertex hn)).trans hn

theorem Replaced.mono {p : ℕ × ℕ} (h : Replaced L g p) (hL : L ≤ g.length) (hmade : Made L g g') :
    Replaced L g' p := by
  refine ⟨h.lt, ?_, h.live.trans_le hmade.le, fun env val hval => ?_⟩
  · rw [typeOf_of_old hmade.old (h.lt.trans_le hL), typeOf_of_old hmade.old h.live, h.type]
  · exact h.value env val (hval.of_made hmade)

variable (hs : Inv f₀ rank₀ s) (hn : s.nodes.vertex i = some n) (hi : i ∉ s.visited)
  (hoperands : ∀ o ∈ n.operands, o ∈ s.visited)

section

include hs

theorem Inv.le : f₀.length ≤ s.nodes.length := hs.made.le

/-- No more than four nodes are made for each node of the function. -/
theorem Inv.length_le : s.nodes.length ≤ f₀.length + 4 * f₀.length := by
  have hcount : (s.visited.countP fun k => decide (k < f₀.length)) ≤ f₀.length := by
    have hsub : s.visited.filter (fun k => decide (k < f₀.length)) ⊆ List.range f₀.length := by
      intro k hk
      exact List.mem_range.mpr (of_decide_eq_true (List.mem_filter.mp hk).2)
    rw [List.countP_eq_length_filter]
    have hle := (List.subperm_of_subset (hs.nodup.filter _) hsub).length_le
    rwa [List.length_range] at hle
  have := hs.count
  omega

/-- A frontier node has no frontier. -/
theorem Inv.frontier_of_not_logic (h : ¬ Logic s.nodes v) : s.nodeToFrontier v = none := by
  rcases hF : s.nodeToFrontier v with - | F
  · rfl
  · exact absurd (hs.frontier v F hF).2 h

theorem Inv.logic_iff (hk : k < f₀.length) :
    Logic s.nodes k ↔ Logic f₀ k := logic_of_old hs.made.old hk

section

include hn hi hoperands

/-- One visit. -/
theorem Inv.visit {m : ℕ → Option Frontier} {new : List (ℕ × ℕ)} (hmade : Made f₀.length s.nodes g')
    (hframe : ∀ k, k ≠ i → m k = s.nodeToFrontier k)
    (hfrontier : ∀ F, m i = some F → Logic s.nodes i)
    (hleaves : i < f₀.length → Logic f₀ i → ∃ F, m i = some F ∧ Holds (Leaf f₀ i) F)
    (hnegation : ∀ w v, f₀.length ≤ i →
      s.nodes.vertex i = some ⟨⟨.logic .not, .bits w⟩, [v]⟩ → m i = some (.vector [v]))
    (hreplaced : ∀ p ∈ new, Replaced f₀.length g' p)
    (hranks : ∃ rank, Ranks f₀.length rank₀ g' (s.nodeReplacements ++ new) rank)
    (hregular : i < f₀.length → ¬ ZeroTautology f₀ i)
    (hcount : g'.length ≤ s.nodes.length + if i < f₀.length then 4 else 0) :
    Inv f₀ rank₀ ⟨g', i :: s.visited, m, s.nodeReplacements ++ new⟩ := by
  have hlater : ∀ {k n}, s.nodes.vertex k = some n → TermGraph.vertex g' k = some n := by
    intro k n hk
    rw [hmade.old k (TermGraph.lt_length_of_vertex hk), hk]
  have hlive : ∀ k ∈ s.visited, k < s.nodes.length := by
    intro k hk
    obtain ⟨m, hm, -⟩ := hs.visited k hk
    exact TermGraph.lt_length_of_vertex hm
  constructor
  · exact hs.made.trans hmade le_rfl
  · intro k hk
    rcases List.mem_cons.mp hk with rfl | hk
    · exact ⟨n, hlater hn, fun o ho => List.mem_cons_of_mem _ (hoperands o ho)⟩
    · obtain ⟨m, hm, hall⟩ := hs.visited k hk
      exact ⟨m, hlater hm, fun o ho => List.mem_cons_of_mem _ (hall o ho)⟩
  · exact List.nodup_cons.mpr ⟨hi, hs.nodup⟩
  · intro k F hF
    by_cases hk : k = i
    · subst hk
      refine ⟨List.mem_cons_self .., ?_⟩
      rw [logic_of_old hmade.old (TermGraph.lt_length_of_vertex hn)]
      exact hfrontier F hF
    · obtain ⟨hmem, hlogic⟩ := hs.frontier k F ((hframe k hk).symm.trans hF)
      refine ⟨List.mem_cons_of_mem _ hmem, ?_⟩
      rw [logic_of_old hmade.old (hlive k hmem)]
      exact hlogic
  · intro k hk hlt hlogic
    rcases List.mem_cons.mp hk with rfl | hk
    · exact hleaves hlt hlogic
    · obtain ⟨F, hF, hholds⟩ := hs.leaves k hk hlt hlogic
      have hne : k ≠ i := fun heq => hi (heq ▸ hk)
      exact ⟨F, (hframe k hne).trans hF, hholds⟩
  · intro k hk w v hle hvertex
    rcases List.mem_cons.mp hk with rfl | hk
    · rw [hmade.old k (TermGraph.lt_length_of_vertex hn)] at hvertex
      exact hnegation w v hle hvertex
    · have hne : k ≠ i := fun heq => hi (heq ▸ hk)
      rw [hmade.old k (hlive k hk)] at hvertex
      exact (hframe k hne).trans (hs.negation k hk w v hle hvertex)
  · intro p hp
    rcases List.mem_append.mp hp with hp | hp
    · exact (hs.replaced p hp).mono hs.le hmade
    · exact hreplaced p hp
  · exact hranks
  · intro k hk hlt
    rcases List.mem_cons.mp hk with rfl | hk
    · exact hregular hlt
    · exact hs.regular k hk hlt
  · have hold := hs.count
    rw [List.countP_cons]
    simp only [decide_eq_true_eq]
    split_ifs at hcount ⊢ <;> omega

/-- A visit which makes no nodes. -/
theorem Inv.visit_same {m : ℕ → Option Frontier} (hframe : ∀ k, k ≠ i → m k = s.nodeToFrontier k)
    (hfrontier : ∀ F, m i = some F → Logic s.nodes i)
    (hleaves : i < f₀.length → Logic f₀ i → ∃ F, m i = some F ∧ Holds (Leaf f₀ i) F)
    (hnegation : ∀ w v, f₀.length ≤ i →
      s.nodes.vertex i = some ⟨⟨.logic .not, .bits w⟩, [v]⟩ → m i = some (.vector [v]))
    (hregular : i < f₀.length → ¬ ZeroTautology f₀ i) :
    Inv f₀ rank₀ ⟨s.nodes, i :: s.visited, m, s.nodeReplacements⟩ := by
  have hranks := hs.ranks
  have hnone : ∀ p ∈ ([] : List (ℕ × ℕ)), Replaced f₀.length s.nodes p := fun p hp => by cases hp
  have hvisit := hs.visit hn hi hoperands (.refl hs.made.verified) hframe hfrontier hleaves
    hnegation hnone (by rwa [List.append_nil]) hregular (Nat.le_add_right ..)
  rwa [List.append_nil] at hvisit

end

/-! ## The frontiers of visited nodes -/

include hf in
/-- The frontier of a node of the function has its leaves. -/
theorem Inv.holds_leaves (hn : f₀.vertex i = some n) (hop : isLogicOp n.label.op = true)
    (hoperands : ∀ o ∈ n.operands, o ∈ s.visited) :
    Holds (Leaf f₀ i) (unionOperandFrontier s.nodeToFrontier n.operands) := by
  have hos : ∀ o ∈ n.operands, Holds (fun x => (¬ Logic f₀ o ∧ x = o) ∨ Leaf f₀ o x)
      (operandFrontier s.nodeToFrontier o) := by
    intro o ho
    have hlt := hf.bounded i n hn o ho
    by_cases hlogic : Logic f₀ o
    · obtain ⟨F, hF, hholds⟩ := hs.leaves o (hoperands o ho) hlt hlogic
      rw [operandFrontier, hF]
      refine hholds.congr fun x => ?_
      rw [or_iff_right fun h => h.1 hlogic]
    · have hnone := hs.frontier_of_not_logic (v := o) (by rwa [hs.logic_iff hlt])
      rw [operandFrontier, hnone]
      refine holds_singleton.congr fun x => ?_
      refine ⟨fun hx => Or.inl ⟨hlogic, hx⟩, ?_⟩
      rintro (⟨-, hx⟩ | hx)
      · exact hx
      · exact absurd hx.logic hlogic
  exact (holds_unionOperandFrontier hos).congr fun x => (leaf_iff hn hop).symm

/-- The frontier of a new negation. -/
theorem Inv.negation_frontier (hlogic : ¬ Logic s.nodes v) :
    unionOperandFrontier s.nodeToFrontier [v] = .vector [v] := by
  refine unionOperandFrontier_singles (.cons ?_ .nil) (List.nodup_singleton v)
    (show 1 ≤ 3 by decide)
  rw [operandFrontier, hs.frontier_of_not_logic hlogic, Option.getD_none]

/-- The frontier of an operation which was made. -/
theorem Inv.operation_frontier {t : TruthTable} (hV : FrontierNodes s.nodes f₀.length w V)
    (h : List.Forall₂ (VariableNode s.nodes f₀.length w V t) t.presentVariables os)
    (hoperands : ∀ o ∈ os, o ∈ s.visited) :
    unionOperandFrontier s.nodeToFrontier os = .vector (presentNodes V t) := by
  have hV' := hV.present h
  have hsingles : List.Forall₂ (fun o v => operandFrontier s.nodeToFrontier o = .vector [v]) os
      (presentNodes V t) := by
    rw [presentNodes, List.forall₂_map_right_iff]
    refine Relational.forall₂_imp_mem h.flip fun o ho j hj => ?_
    have hget := VariableNode.getD hj
    obtain ⟨v, hv, hnode⟩ := hj
    obtain rfl : V.getD j 0 = v := Option.some.inj (hget.symm.trans hv)
    rw [operandFrontier]
    split_ifs at hnode
    · rw [hs.negation o (hoperands o ho) w _ hnode.1 hnode.2, Option.getD_some]
    · have hlogic := hV.notLogic _ (List.mem_of_getElem? hv)
      rw [hnode, hs.frontier_of_not_logic hlogic, Option.getD_none]
  exact unionOperandFrontier_singles hsingles hV'.nodup hV'.length

end

/-! ## One visit -/

/-- The frontier of a node is noted. -/
def noteFrontier (s : Tracker) (i : ℕ) (F : Frontier) : Tracker :=
  { s with nodeToFrontier := Function.update s.nodeToFrontier i (some F) }

/-- Frontiers of other sizes are only noted. -/
theorem handleLogicOp_of_small
    (h : ∀ V, unionOperandFrontier s.nodeToFrontier os = .vector V → V.length < 2) :
    handleLogicOp fuel s i os =
      some (noteFrontier s i (unionOperandFrontier s.nodeToFrontier os)) := by
  unfold handleLogicOp
  rcases hF : unionOperandFrontier s.nodeToFrontier os with V | -
  · exact if_neg (not_le.mpr (h V hF))
  · rfl

/-- The tracker after a table is resolved. -/
def afterResolve (s : Tracker) (i : ℕ) : Option (NodeGraph × ℕ) → Tracker
  | none => s
  | some (g, r) => { s with nodes := g, nodeReplacements := s.nodeReplacements ++ [(i, r)] }

theorem handleLogicOp_of_vector (fuel : ℕ) (s : Tracker) (i : ℕ)
    (h : unionOperandFrontier s.nodeToFrontier os = .vector V) (hlength : 2 ≤ V.length) :
    handleLogicOp fuel s i os =
      (flowFromFrontierToNode s.nodes V fuel (fun _ => none) i).bind fun r =>
        (resolveTruthTable s.nodes r.1 V i).map
          (afterResolve (noteFrontier s i (.vector V)) i) := by
  unfold handleLogicOp
  rw [h]
  show (if V.length ≥ 2 then _ else _) = _
  rw [if_pos hlength]
  rcases flowFromFrontierToNode s.nodes V fuel (fun _ => none) i with - | ⟨key, memoized⟩
  · rfl
  · show (resolveTruthTable s.nodes key V i).bind _ = (resolveTruthTable s.nodes key V i).map _
    rcases resolveTruthTable s.nodes key V i with - | - | ⟨g, r⟩ <;> rfl

/-- The state after the visit of a node. -/
structure Visited (f₀ : NodeGraph) (rank₀ : ℕ → ℕ) (s : Tracker) (i : ℕ) (s' : Tracker) :
    Prop where
  inv : Inv f₀ rank₀ s'
  later : Later s s'
  visited : s'.visited = i :: s.visited

/-- A node is marked as visited before its handler runs. -/
def mark (s : Tracker) (i : ℕ) : Tracker := { s with visited := i :: s.visited }

section

include hs

include hn hi hoperands in
/-- Only the frontier of a boolean node is noted. -/
theorem Inv.visited_note (hop : isLogicOp n.label.op = true) {F : Frontier}
    (hleaves : i < f₀.length → Holds (Leaf f₀ i) F)
    (hnegation : ∀ w v, f₀.length ≤ i → n = ⟨⟨.logic .not, .bits w⟩, [v]⟩ → F = .vector [v])
    (hregular : i < f₀.length → ¬ ZeroTautology f₀ i) :
    Visited f₀ rank₀ s i (noteFrontier (mark s i) i F) := by
  have hself : Function.update s.nodeToFrontier i (some F) i = some F := Function.update_self ..
  refine ⟨hs.visit_same hn hi hoperands (fun k hk => Function.update_of_ne hk ..)
    (fun _ _ => ⟨n, hn, hop⟩) (fun hlt _ => ⟨F, hself, hleaves hlt⟩) (fun w v hle hvertex => ?_)
    hregular, ⟨le_rfl, fun _ _ => rfl, fun k hk => List.mem_cons_of_mem _ hk⟩, rfl⟩
  exact hself.trans (congrArg some (hnegation w v hle (Option.some.inj (hn.symm.trans hvertex))))

section

include hf hrank

/-- The flow to a visited node. -/
theorem Inv.flow (fuel : ℕ) (hV : V.length ≤ 3) (hexpr : Expr s.nodes V i)
    (hi : s.nodes.typeOf i = some (.bits w)) :
    (∀ r, flowFromFrontierToNode s.nodes V fuel (fun _ => none) i = some r →
      Flows s.nodes w V i r.1) ∧
    (grownRank f₀.length rank₀ i < fuel →
      flowFromFrontierToNode s.nodes V fuel (fun _ => none) i ≠ none) := by
  have hgrown := ranks_grownRank hf hrank hs.made
  obtain ⟨hsome, htotal⟩ := flow_spec hs.made.verified hgrown hV fuel hexpr hi (fun _ => none)
    fun k r hr => by cases hr
  exact ⟨fun r hr => (hsome r.1 r.2 hr).1, htotal⟩

include hn hi hoperands in
/-- The visit of an operation which was made: it is left alone. -/
theorem Inv.visit_operation (hop : isLogicOp n.label.op = true) (hle : f₀.length ≤ i)
    {t : TruthTable} {op : LogicOp} (hlabel : n.label = ⟨.logic op, .bits w⟩) (ht : t ∈ truthTables)
    (hcanonical : isCanonical t = true) (htop : t.logicalOp = some op)
    (hV : FrontierNodes s.nodes f₀.length w V)
    (hnodes : List.Forall₂ (VariableNode s.nodes f₀.length w V t) t.presentVariables n.operands)
    (fuel : ℕ) :
    (∀ s', handleLogicOp fuel (mark s i) i n.operands = some s' → Visited f₀ rank₀ s i s') ∧
    (grownRank f₀.length rank₀ i < fuel → handleLogicOp fuel (mark s i) i n.operands ≠ none) := by
  have hfrontier := hs.operation_frontier hV hnodes hoperands
  have hV' := hV.present hnodes
  have hgrown := ranks_grownRank hf hrank hs.made
  have htype : s.nodes.typeOf i = some (.bits w) := by
    rw [Canonicalization.typeOf_of_vertex hn, hlabel]
  have hexpr : Expr s.nodes (presentNodes V t) i := by
    refine .node hn hop fun o ho => ?_
    obtain ⟨j, hj, hnode⟩ : ∃ j ∈ t.presentVariables,
        VariableNode s.nodes f₀.length w V t j o := Relational.exists_of_forall₂ hnodes.flip ho
    have hmem : V.getD j 0 ∈ presentNodes V t := List.mem_map.mpr ⟨j, hj, rfl⟩
    have hget := hnode.getD
    obtain ⟨v, hv, hresult⟩ := hnode
    obtain rfl : V.getD j 0 = v := Option.some.inj (hget.symm.trans hv)
    split_ifs at hresult
    · refine .node hresult.2 rfl fun o' ho' => ?_
      rw [List.mem_singleton.mp ho']
      exact .frontier hmem
    · rw [hresult]
      exact .frontier hmem
  obtain ⟨hsome, htotal⟩ := hs.flow hf hrank fuel hV'.length hexpr htype
  have hlength : 2 ≤ (presentNodes V t).length := by
    have hflow := hs.flow hf hrank (grownRank f₀.length rank₀ i + 1) hV'.length hexpr htype
    obtain ⟨r, hr⟩ := Option.ne_none_iff_exists'.mp (hflow.2 (Nat.lt_succ_self _))
    exact (resolve_operation hgrown hn hlabel hop ht hcanonical htop hV hnodes (hflow.1 r hr)).1
  have hhandle := handleLogicOp_of_vector fuel (mark s i) i hfrontier hlength
  rw [hhandle]
  rcases hflow : flowFromFrontierToNode s.nodes (presentNodes V t) fuel (fun _ => none) i with
    - | r
  · have hnone : flowFromFrontierToNode (mark s i).nodes (presentNodes V t) fuel (fun _ => none) i =
        none := hflow
    rw [hnone]
    exact ⟨(fun s' hs' => by cases hs'), fun hlt => absurd hflow (htotal hlt)⟩
  · have hresolve := (resolve_operation hgrown hn hlabel hop ht hcanonical htop hV hnodes
      (hsome r hflow)).2
    have hresult : (flowFromFrontierToNode (mark s i).nodes (presentNodes V t) fuel (fun _ => none)
        i).bind (fun r => (resolveTruthTable (mark s i).nodes r.1 (presentNodes V t) i).map
          (afterResolve (noteFrontier (mark s i) i (.vector (presentNodes V t))) i)) =
        some (noteFrontier (mark s i) i (.vector (presentNodes V t))) := by
      show (flowFromFrontierToNode s.nodes _ fuel _ i).bind _ = _
      rw [hflow]
      show (resolveTruthTable s.nodes r.1 _ i).map _ = _
      rw [hresolve]
      rfl
    rw [hresult]
    refine ⟨fun s' hs' => ?_, fun _ => Option.some_ne_none _⟩
    obtain rfl := Option.some.inj hs'
    refine hs.visited_note hn hi hoperands hop (fun hlt => absurd hle (not_le.mpr hlt)) ?_
      fun hlt => absurd hle (not_le.mpr hlt)
    rintro w' v - rfl
    -- a negation is no operation of a table
    have hnot : op = .not := by cases hlabel; rfl
    rcases truthTables_shape t ht with ⟨hnone, -⟩ | ⟨⟨op', hmem, hop'⟩, -⟩
    · exact absurd (htop.symm.trans hnone) (Option.some_ne_none op)
    · obtain rfl := Option.some.inj (htop.symm.trans hop')
      rw [hnot] at hmem
      exact absurd hmem (by decide)

/-- The visit of a node which gets a replacement. -/
theorem Inv.visit_replacement (hn : f₀.vertex i = some n) (hi : i ∉ s.visited)
    (hoperands : ∀ o ∈ n.operands, o ∈ s.visited) (hop : isLogicOp n.label.op = true)
    (hV : Holds (Leaf f₀ i) (.vector V)) (hlength : 2 ≤ V.length) (hregular : ¬ ZeroTautology f₀ i)
    {r : ℕ} (hr : Replacement f₀.length V s.nodes i g' r) :
    Visited f₀ rank₀ s i
      (afterResolve (noteFrontier (mark s i) i (.vector V)) i (some (g', r))) := by
  have hlt := TermGraph.lt_length_of_vertex hn
  have hns : s.nodes.vertex i = some n := (hs.made.old i hlt).trans hn
  obtain ⟨-, w, -, -, hw, -, -, -⟩ := logic_operands hf hn hop
  have htype : s.nodes.typeOf i = some (.bits w) := by
    rw [Canonicalization.typeOf_of_vertex hns, hw]
  have hleaf : ∀ v ∈ V, v < f₀.length ∧ rank₀ v < rank₀ i := by
    intro v hv
    have h := (hV.2.2 v).mp hv
    have hk : f₀.typeOf i = some (.bits w) := by
      rw [Canonicalization.typeOf_of_vertex hn, hw]
    exact ⟨lt_length_of_typeOf (h.type hf hk), h.rank_lt hrank⟩
  have hpos : 0 < rank₀ i := by
    rcases V with - | ⟨v, V⟩
    · exact absurd hlength (by decide)
    · exact (Nat.zero_le _).trans_lt (hleaf v (List.mem_cons_self ..)).2
  have hrlt : r < g'.length := lt_length_of_typeOf (hr.type.trans htype)
  have hself : Function.update s.nodeToFrontier i (some (.vector V)) i = some (.vector V) :=
    Function.update_self ..
  have hreplaced : ∀ p ∈ [(i, r)], Replaced f₀.length g' p := by
    intro p hp
    obtain rfl := List.mem_singleton.mp hp
    refine ⟨hlt, ?_, hrlt, hr.value⟩
    rw [hr.type, typeOf_of_old hr.made.old (TermGraph.lt_length_of_vertex hns)]
  obtain ⟨rank, hranks⟩ := hs.ranks
  have hranks' := hranks.replacement hs.le hs.made.verified
    (fun p hp => ⟨(hs.replaced p hp).lt.trans_le hs.le, (hs.replaced p hp).live⟩) hlt hleaf hr hrlt
      hpos
  refine ⟨hs.visit hns hi hoperands hr.made (fun k hk => Function.update_of_ne hk ..)
    (fun _ _ => ⟨n, hns, hop⟩) (fun _ _ => ⟨_, hself, hV⟩)
    (fun w v hle _ => absurd hle (not_le.mpr hlt)) hreplaced ⟨_, hranks'⟩ (fun _ => hregular) ?_,
    ⟨hr.made.le, hr.made.old, fun k hk => List.mem_cons_of_mem _ hk⟩, rfl⟩
  rw [if_pos hlt]
  exact hr.length

/-- The visit of a boolean node of the function. -/
theorem Inv.visit_logic (hn : f₀.vertex i = some n) (hi : i ∉ s.visited)
    (hoperands : ∀ o ∈ n.operands, o ∈ s.visited) (hop : isLogicOp n.label.op = true) :
    (∀ s', handleLogicOp fuel (mark s i) i n.operands = some s' → Visited f₀ rank₀ s i s') ∧
    (grownRank f₀.length rank₀ i < fuel → ¬ ZeroTautology f₀ i →
      handleLogicOp fuel (mark s i) i n.operands ≠ none) := by
  have hlt := TermGraph.lt_length_of_vertex hn
  have hns : s.nodes.vertex i = some n := (hs.made.old i hlt).trans hn
  have hholds := hs.holds_leaves hf hn hop hoperands
  have hnote : ∀ F, Holds (Leaf f₀ i) F → ¬ ZeroTautology f₀ i →
      Visited f₀ rank₀ s i (noteFrontier (mark s i) i F) := fun F hF hregular =>
    hs.visited_note hns hi hoperands hop (fun _ => hF)
      (fun _ _ hle _ => absurd hle (not_le.mpr hlt)) fun _ => hregular
  by_cases hsmall : ∀ V, unionOperandFrontier s.nodeToFrontier n.operands = .vector V → V.length < 2
  · have hregular : ¬ ZeroTautology f₀ i := by
      rintro ⟨-, -, -, V, hV, hge, hle, hleaves⟩
      obtain ⟨W, hW, hcount⟩ := vector_of_holds hholds hV hle hleaves
      have := hsmall W hW
      omega
    have hhandle : handleLogicOp fuel (mark s i) i n.operands = some (noteFrontier (mark s i) i
        (unionOperandFrontier s.nodeToFrontier n.operands)) := handleLogicOp_of_small hsmall
    rw [hhandle]
    refine kept_of_some ?_
    exact hnote _ hholds hregular
  · push Not at hsmall
    obtain ⟨V, hF, hlength⟩ := hsmall
    rw [hF] at hholds
    obtain ⟨hnodup, hle, hmem⟩ := hholds
    obtain ⟨-, w, -, -, hw, -, -, -⟩ := logic_operands hf hn hop
    have htype₀ : f₀.typeOf i = some (.bits w) := by
      rw [Canonicalization.typeOf_of_vertex hn, hw]
    have htype : s.nodes.typeOf i = some (.bits w) := by
      rw [Canonicalization.typeOf_of_vertex hns, hw]
    have hgrown := ranks_grownRank hf hrank hs.made
    have hV : FrontierNodes s.nodes f₀.length w V :=
      (frontierNodes_of_leaves hf htype₀ hnodup hle fun v hv => (hmem v).mp hv).mono le_rfl
        hs.made.old
    have hexpr : Expr s.nodes V i :=
      (expr_of_leaves hrank ⟨n, hn, hop⟩ fun v hv => (hmem v).mpr hv).mono hs.made.old
    obtain ⟨hsome, htotal⟩ := hs.flow hf hrank fuel hle hexpr htype
    rw [handleLogicOp_of_vector fuel (mark s i) i hF hlength]
    show (∀ s', (flowFromFrontierToNode s.nodes V fuel _ i).bind _ = some s' → _) ∧
      (_ → _ → (flowFromFrontierToNode s.nodes V fuel _ i).bind _ ≠ none)
    rcases hflow : flowFromFrontierToNode s.nodes V fuel (fun _ => none) i with - | r
    · exact ⟨(fun s' hs' => by cases hs'), fun hfuel _ => absurd hflow (htotal hfuel)⟩
    · have hflows := hsome r hflow
      have htautology : r.1.isAllOnes = true ↔ Tautology f₀ i := by
        rw [hflows.isAllOnes_iff hgrown hnodup hle hV.notLogic,
          tautology_iff hf hgrown hs.made.old hlt]
      show (∀ s', (resolveTruthTable s.nodes r.1 V i).map _ = some s' → _) ∧
        (_ → _ → (resolveTruthTable s.nodes r.1 V i).map _ ≠ none)
      rcases resolve_spec hs.made.verified hgrown htype hflows hV hs.le hlength with
        ⟨rfl, hones, hresolve⟩ | ⟨hregular, hresolve⟩
      · rw [hresolve]
        refine ⟨(fun s' hs' => by cases hs'), fun _ hzero => absurd ?_ hzero⟩
        exact ⟨⟨n, hn, hop⟩, htype₀, htautology.mp hones, V, hnodup, hlength, hle, hmem⟩
      · have hzero : ¬ ZeroTautology f₀ i := by
          rintro ⟨-, hbits, htrue, -⟩
          obtain rfl : w = 0 := Ty.bits.inj (Option.some.inj (htype₀.symm.trans hbits))
          exact hregular ⟨rfl, htautology.mpr htrue⟩
        rcases hresolve with hresolve | ⟨g', r', hresolve, hreplacement⟩
        · rw [hresolve]
          refine kept_of_some ?_
          exact hnote _ ⟨hnodup, hle, hmem⟩ hzero
        · rw [hresolve]
          refine kept_of_some ?_
          exact hs.visit_replacement hf hrank hn hi hoperands hop ⟨hnodup, hle, hmem⟩ hlength hzero
            hreplacement

/-- Each visit keeps the invariant, and fails for tautologies of width zero only. -/
theorem visitSingleNode_spec (fuel : ℕ) (hn : s.nodes.vertex i = some n) (hi : i ∉ s.visited)
    (hoperands : ∀ o ∈ n.operands, o ∈ s.visited) :
    (∀ s', visitSingleNode fuel (mark s i) i n = some s' → Visited f₀ rank₀ s i s') ∧
    (grownRank f₀.length rank₀ i < fuel → ¬ ZeroTautology f₀ i →
      visitSingleNode fuel (mark s i) i n ≠ none) := by
  rw [visitSingleNode]
  by_cases hop : isLogicOp n.label.op = true
  · rw [if_pos hop]
    rcases lt_or_ge i f₀.length with hlt | hge
    · exact hs.visit_logic hf hrank ((hs.made.old i hlt).symm.trans hn) hi hoperands hop
    · obtain ⟨hnew, -⟩ := hs.made.new i n hge hn
      cases hnew with
      | literal b hliteral =>
        rw [hliteral] at hop
        cases hop
      | negation w v hform hlt hlogic =>
        have hfrontier : unionOperandFrontier s.nodeToFrontier n.operands = .vector [v] := by
          rw [hform]
          exact hs.negation_frontier hlogic
        have hhandle : handleLogicOp fuel (mark s i) i n.operands =
            some (noteFrontier (mark s i) i (.vector [v])) := by
          refine (handleLogicOp_of_small fun V hV => ?_).trans ?_
          · obtain rfl := Frontier.vector.inj (hfrontier.symm.trans hV)
            exact Nat.lt_succ_self 1
          · show some (noteFrontier (mark s i) i
              (unionOperandFrontier s.nodeToFrontier n.operands)) = _
            rw [hfrontier]
        rw [hhandle]
        refine kept_of_some ?_
        refine hs.visited_note hn hi hoperands hop (fun hlt => absurd hge (not_le.mpr hlt)) ?_
          fun hlt => absurd hge (not_le.mpr hlt)
        intro w' v' _ hform'
        rw [hform] at hform'
        cases hform'
        rfl
      | operation t op w V hlabel ht hcanonical htop hV hnodes =>
        obtain ⟨hsome, htotal⟩ := hs.visit_operation hf hrank hn hi hoperands hop hge hlabel ht
          hcanonical htop hV hnodes fuel
        exact ⟨hsome, fun hfuel _ => htotal hfuel⟩
  · rw [if_neg hop]
    refine kept_of_some ?_
    have hnotLogic : ∀ {g : NodeGraph}, g.vertex i = some n → ¬ Logic g i := by
      rintro g hg ⟨m, hm, hop'⟩
      obtain rfl := Option.some.inj (hg.symm.trans hm)
      exact hop hop'
    have hnone := hs.frontier_of_not_logic (hnotLogic hn)
    have hold : i < f₀.length → ¬ Logic f₀ i := fun hlt =>
      hnotLogic ((hs.made.old i hlt).symm.trans hn)
    refine ⟨hs.visit_same hn hi hoperands (fun _ _ => rfl) (fun F hF => ?_)
      (fun hlt hlogic => absurd hlogic (hold hlt)) (fun w v _ hvertex => ?_)
      (fun hlt hzero => hold hlt hzero.1),
      ⟨le_rfl, fun _ _ => rfl, fun k hk => List.mem_cons_of_mem _ hk⟩, rfl⟩
    · have hF' : s.nodeToFrontier i = some F := hF
      rw [hnone] at hF'
      cases hF'
    · obtain rfl := Option.some.inj (hn.symm.trans hvertex)
      exact absurd rfl hop

end

end

end BooleanSimplification

end Xls
