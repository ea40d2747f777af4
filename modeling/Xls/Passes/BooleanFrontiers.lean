/-
# Frontiers of boolean computations

The frontier which the tracker unites from the operands of a node holds the nodes where its
computation begins, as long as these are three at most.

* `holds_unionOperandFrontier` : the frontier of a node, from those of its operands;
* `unionOperandFrontier_singles` : operands with one frontier node each, in their order;
* `tautology_iff` : new nodes behind a function change no computation of it.
-/
import Xls.Passes.BooleanReplacement

namespace Xls

namespace BooleanSimplification

open NodeGraph

variable {g g' : NodeGraph} {n : Vertex NodeLabel} {i k o v w : ℕ} {V : List ℕ}
  {rank : ℕ → ℕ} {S T : ℕ → Prop} {F : Frontier}

/-! ## Sets of frontier nodes -/

/-- The frontier holds the nodes of a set, or there are more than three. -/
def Holds (S : ℕ → Prop) : Frontier → Prop
  | .vector V => V.Nodup ∧ V.length ≤ 3 ∧ ∀ v, v ∈ V ↔ S v
  | .tooMany => ∃ V : List ℕ, V.Nodup ∧ 3 < V.length ∧ ∀ v ∈ V, S v

theorem Holds.congr (h : Holds S F) (hST : ∀ v, S v ↔ T v) : Holds T F := by
  have hset : S = T := funext fun v => propext (hST v)
  exact hset ▸ h

theorem holds_empty : Holds (fun _ => False) (.vector []) :=
  ⟨List.nodup_nil, Nat.zero_le _, fun v => by simp⟩

theorem holds_singleton : Holds (fun x => x = v) (.vector [v]) :=
  ⟨List.nodup_singleton v, show 1 ≤ 3 by decide, fun x => List.mem_singleton⟩

/-- Too many nodes stay too many. -/
theorem holds_tooMany (h : Holds S .tooMany) (hST : ∀ v, S v → T v) : Holds T .tooMany := by
  obtain ⟨V, hnodup, hlength, hV⟩ := h
  exact ⟨V, hnodup, hlength, fun v hv => hST v (hV v hv)⟩

theorem holds_addNonBool (h : Holds S F) : Holds (fun x => S x ∨ x = v) (addNonBool v F) := by
  cases F with
  | tooMany => exact holds_tooMany h fun x hx => Or.inl hx
  | vector V =>
    obtain ⟨hnodup, hlength, hV⟩ := h
    rw [addNonBool]
    split_ifs with hmem hfull
    · refine ⟨hnodup, hlength, fun x => ?_⟩
      rw [hV]
      refine ⟨Or.inl, ?_⟩
      rintro (hx | rfl)
      · exact hx
      · exact (hV x).mp hmem
    · have hgrown : (V ++ [v]).Nodup := List.nodup_append_comm.mp (List.nodup_cons.mpr ⟨hmem, hnodup⟩)
      refine ⟨V ++ [v], hgrown, ?_, fun x hx => ?_⟩
      · rw [List.length_append]
        exact Nat.lt_succ_of_le hfull
      · rcases List.mem_append.mp hx with hx | hx
        · exact Or.inl ((hV x).mp hx)
        · exact Or.inr (List.mem_singleton.mp hx)
    · refine ⟨List.nodup_append_comm.mp (List.nodup_cons.mpr ⟨hmem, hnodup⟩), ?_, fun x => ?_⟩
      · rw [List.length_append]
        exact Nat.lt_of_not_ge hfull
      · rw [List.mem_append, List.mem_singleton, hV]

theorem holds_foldl_addNonBool (h : Holds S F) (V : List ℕ) :
    Holds (fun x => S x ∨ x ∈ V) (V.foldl (fun out node => addNonBool node out) F) := by
  induction V generalizing S F with
  | nil => exact h.congr fun x => by simp
  | cons v V ih =>
    refine (ih (holds_addNonBool h)).congr fun x => ?_
    rw [List.mem_cons, or_assoc]

theorem holds_union {arg out : Frontier} (hout : Holds S out) (harg : Holds T arg) :
    Holds (fun x => S x ∨ T x) (union arg out) := by
  cases out with
  | tooMany => exact holds_tooMany hout fun x hx => Or.inl hx
  | vector W =>
    cases arg with
    | tooMany => exact holds_tooMany harg fun x hx => Or.inr hx
    | vector V =>
      refine (holds_foldl_addNonBool hout V).congr fun x => ?_
      rw [harg.2.2 x]

/-- The frontier of an operand; one which has none is a frontier node. -/
def operandFrontier (nodeToFrontier : ℕ → Option Frontier) (o : ℕ) : Frontier :=
  (nodeToFrontier o).getD (.vector [o])

theorem addOperandFrontier_eq (m : ℕ → Option Frontier) (accum : Frontier) :
    addOperandFrontier m accum o = union (operandFrontier m o) accum := by
  rw [addOperandFrontier, operandFrontier]
  rcases m o with - | frontier
  · cases accum <;> rfl
  · rfl

variable {m : ℕ → Option Frontier} {os : List ℕ}

theorem holds_foldl_operands {S : ℕ → ℕ → Prop} (hos : ∀ o ∈ os, Holds (S o) (operandFrontier m o))
    {accum : Frontier} (h : Holds T accum) :
    Holds (fun x => T x ∨ ∃ o ∈ os, S o x) (os.foldl (addOperandFrontier m) accum) := by
  induction os generalizing T accum with
  | nil => exact h.congr fun x => by simp
  | cons o os ih =>
    have ho := hos o (List.mem_cons_self ..)
    rw [List.foldl_cons, addOperandFrontier_eq]
    refine (ih (fun p hp => hos p (List.mem_cons_of_mem _ hp)) (holds_union h ho)).congr fun x => ?_
    rw [or_assoc, List.exists_mem_cons_iff]

/-- The frontier of a node has the frontier nodes of its operands. -/
theorem holds_unionOperandFrontier {S : ℕ → ℕ → Prop}
    (hos : ∀ o ∈ os, Holds (S o) (operandFrontier m o)) :
    Holds (fun x => ∃ o ∈ os, S o x) (unionOperandFrontier m os) :=
  (holds_foldl_operands hos holds_empty).congr fun x => by rw [false_or]

/-- Operands with one frontier node each. -/
theorem unionOperandFrontier_singles
    (h : List.Forall₂ (fun o v => operandFrontier m o = .vector [v]) os V) (hV : V.Nodup)
    (hlength : V.length ≤ 3) : unionOperandFrontier m os = .vector V := by
  have hloop : ∀ {os V : List ℕ} (W : List ℕ),
      List.Forall₂ (fun o v => operandFrontier m o = .vector [v]) os V → (W ++ V).Nodup →
      (W ++ V).length ≤ 3 → os.foldl (addOperandFrontier m) (.vector W) = .vector (W ++ V) := by
    intro os V W h
    induction h generalizing W with
    | nil =>
      intro _ _
      rw [List.append_nil]
      rfl
    | cons ho _ ih =>
      rename_i o v os V _
      intro hnodup hcount
      have hsplit : W ++ v :: V = (W ++ [v]) ++ V := List.append_cons W v V
      rw [hsplit] at hnodup hcount ⊢
      have hmem : v ∉ W := fun hv =>
        (List.nodup_append.mp (List.nodup_append.mp hnodup).1).2.2 v hv v
          (List.mem_singleton.mpr rfl) rfl
      have hroom : ¬ W.length ≥ kMaxFrontierNodes := by
        rw [List.length_append, List.length_append, List.length_singleton] at hcount
        show ¬ W.length ≥ 3
        omega
      have hadd : union (.vector [v]) (.vector W) = .vector (W ++ [v]) := by
        show addNonBool v (.vector W) = _
        rw [addNonBool, if_neg hmem, if_neg hroom]
      rw [List.foldl_cons, addOperandFrontier_eq, ho, hadd]
      exact ih (W ++ [v]) hnodup hcount
  exact hloop [] h hV hlength

/-! ## Leaves -/

/-- The frontier nodes of a boolean computation. -/
inductive Leaf (g : NodeGraph) : ℕ → ℕ → Prop
  | operand {k o : ℕ} {n : Vertex NodeLabel} (hn : g.vertex k = some n)
      (hop : isLogicOp n.label.op = true) (ho : o ∈ n.operands) (hlogic : ¬ Logic g o) : Leaf g k o
  | step {k o v : ℕ} {n : Vertex NodeLabel} (hn : g.vertex k = some n)
      (hop : isLogicOp n.label.op = true) (ho : o ∈ n.operands) (h : Leaf g o v) : Leaf g k v

theorem Leaf.logic (h : Leaf g k v) : Logic g k := by
  cases h with
  | operand hn hop _ _ => exact ⟨_, hn, hop⟩
  | step hn hop _ _ => exact ⟨_, hn, hop⟩

theorem Leaf.notLogic (h : Leaf g k v) : ¬ Logic g v := by
  induction h with
  | operand _ _ _ hlogic => exact hlogic
  | step _ _ _ _ ih => exact ih

theorem Leaf.rank_lt (h : Leaf g k v) (hrank : g.Ranks rank) : rank v < rank k := by
  induction h with
  | operand hn _ ho _ => exact hrank _ _ hn _ ho
  | step hn _ ho _ ih => exact ih.trans (hrank _ _ hn _ ho)

theorem Leaf.type (h : Leaf g k v) (hg : Verified g) (hk : g.typeOf k = some (.bits w)) :
    g.typeOf v = some (.bits w) := by
  have htypes : ∀ {k n o}, g.vertex k = some n → isLogicOp n.label.op = true → o ∈ n.operands →
      g.typeOf k = some (.bits w) → g.typeOf o = some (.bits w) := by
    intro k n o hn hop ho hk
    obtain ⟨op, w', -, -, hw', -, -, hall⟩ := logic_operands hg hn hop
    rw [Canonicalization.typeOf_of_vertex hn, hw'] at hk
    rw [hall o ho]
    exact hk
  induction h with
  | operand hn hop ho _ => exact htypes hn hop ho hk
  | step hn hop ho _ ih => exact ih (htypes hn hop ho hk)

/-- The leaves of a node are those of its operands. -/
theorem leaf_iff (hn : g.vertex k = some n) (hop : isLogicOp n.label.op = true) :
    Leaf g k v ↔ ∃ o ∈ n.operands, (¬ Logic g o ∧ v = o) ∨ Leaf g o v := by
  constructor
  · intro h
    cases h with
    | operand hn' hop' ho hlogic =>
      obtain rfl := Option.some.inj (hn.symm.trans hn')
      exact ⟨v, ho, Or.inl ⟨hlogic, rfl⟩⟩
    | step hn' hop' ho h =>
      obtain rfl := Option.some.inj (hn.symm.trans hn')
      exact ⟨_, ho, Or.inr h⟩
  · rintro ⟨o, ho, ⟨hlogic, rfl⟩ | h⟩
    · exact .operand hn hop ho hlogic
    · exact .step hn hop ho h

/-- A computation whose leaves are frontier nodes. -/
theorem expr_of_leaves (hrank : g.Ranks rank) (hk : Logic g k)
    (hV : ∀ v, Leaf g k v → v ∈ V) : Expr g V k := by
  induction hr : rank k using Nat.strong_induction_on generalizing k with
  | _ r ih =>
    obtain ⟨n, hn, hop⟩ := hk
    refine .node hn hop fun o ho => ?_
    by_cases hlogic : Logic g o
    · have hlt : rank o < r := hr ▸ hrank k n hn o ho
      exact ih (rank o) hlt hlogic (fun v hv => hV v (.step hn hop ho hv)) rfl
    · exact .frontier (hV o (.operand hn hop ho hlogic))

/-- The frontier nodes of a node of the function. -/
theorem frontierNodes_of_leaves (hg : Verified g) (hk : g.typeOf k = some (.bits w))
    (hnodup : V.Nodup) (hlength : V.length ≤ 3) (hV : ∀ v ∈ V, Leaf g k v) :
    FrontierNodes g g.length w V :=
  ⟨hnodup, hlength, fun v hv => lt_length_of_typeOf ((hV v hv).type hg hk),
    fun v hv => (hV v hv).notLogic, fun v hv => (hV v hv).type hg hk⟩

/-! ## New nodes behind a function -/

theorem Expr.mono (h : Expr g V k) (hold : ∀ k < g.length, g'.vertex k = g.vertex k) :
    Expr g' V k := by
  induction h with
  | frontier hk => exact .frontier hk
  | node hn hop _ ih =>
    refine .node ?_ hop ih
    rw [hold _ (TermGraph.lt_length_of_vertex hn), hn]

/-- Values of the function extend to the new nodes. -/
theorem exists_boolValuation {ρ : ℕ → Bool} (hg : Verified g) (hrank : g'.Ranks rank)
    (hold : ∀ k < g.length, g'.vertex k = g.vertex k) (h : ∀ w, BoolValuation g w ρ) :
    ∃ ρ', (∀ w, BoolValuation g' w ρ') ∧ ∀ k < g.length, ρ' k = ρ k := by
  obtain ⟨ρ', hρ', hfree⟩ := evalBool_spec hrank ρ
  refine ⟨ρ', hρ', fun k => ?_⟩
  induction hr : rank k using Nat.strong_induction_on generalizing k with
  | _ r ih =>
    intro hk
    by_cases hlogic : Logic g' k
    · obtain ⟨n, hn', hop⟩ := hlogic
      have hn : g.vertex k = some n := (hold k hk).symm.trans hn'
      obtain ⟨-, w, -, -, hw, -, -, -⟩ := logic_operands hg hn hop
      rw [hρ' w k n hn' hop hw, h w k n hn hop hw]
      congr 1
      apply List.map_congr_left
      intro o ho
      exact ih (rank o) (hr ▸ hrank k n hn' o ho) o rfl (hg.bounded k n hn o ho)
    · exact hfree k hlogic

theorem tautology_iff (hg : Verified g) (hrank : g'.Ranks rank)
    (hold : ∀ k < g.length, g'.vertex k = g.vertex k) (hk : k < g.length) :
    Tautology g' k ↔ Tautology g k := by
  constructor
  · intro h ρ hρ
    obtain ⟨ρ', hρ', hsame⟩ := exists_boolValuation hg hrank hold hρ
    rw [← hsame k hk]
    exact h ρ' hρ'
  · intro h ρ hρ
    refine h ρ fun w k n hn => hρ w k n ?_
    rw [hold k (TermGraph.lt_length_of_vertex hn), hn]

end BooleanSimplification

end Xls
