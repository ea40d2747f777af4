/-
# What canonicalization may still rewrite

Each rule of `CanonicalizeNode` spends something: a literal on the left, a comparison which is not
strict, a difference, an extension, an inverted selector or a default.  Here each node has a cost,
which is what its operation, its operands and its form may still cause, and the sum over the nodes
which were not rewritten is what is left.

* `rewrites_of_rewriteNode` : what all rules have in common;
* `cost_make`, `cost_replaceUses_le` : the costs when the graph changes;
* `total_make_le`, `total_replaceUses_le` : the sum of the costs.
-/
import Mathlib.Algebra.BigOperators.Group.Finset.Basic
import Mathlib.Algebra.Order.BigOperators.Group.Finset
import Xls.Passes.CanonicalizationSoundness

namespace Xls

namespace Canonicalization

open NodeGraph

variable {overlong : ℕ → BitVec 64} {g : NodeGraph} {n m : Vertex NodeLabel} {i j k r : ℕ}
  {rank rank' : ℕ → ℕ} {rewrite : Rewrite}

/-! ## Nodes which no rule rewrites -/

/-- A literal, or a strict comparison with a literal. -/
def Settled (g : NodeGraph) (n : Vertex NodeLabel) : Prop :=
  (∃ v, n.label.op = .logic (.core (.literal v))) ∨
    ∃ op t x k, n = ⟨⟨.logic (.core op), t⟩, [x, k]⟩ ∧ (op = .ugt ∨ op = .ult) ∧
      isLiteral g k = true

theorem isLiteral_iff : isLiteral g k = true ↔
    ∃ v t operands, g.vertex k = some ⟨⟨.logic (.core (.literal v)), t⟩, operands⟩ := by
  rw [isLiteral, Option.isSome_iff_exists]
  constructor
  · rintro ⟨v, hv⟩
    exact ⟨v, literalValue_eq_some hv⟩
  · rintro ⟨v, t, operands, hvertex⟩
    refine ⟨v, ?_⟩
    rw [literalValue, hvertex]

variable {b : Bits} {x y : ℕ} {arms : List ℕ} {d : NodeLabel} {op : Op}
  {new : List (Vertex NodeLabel)}

theorem isLiteral_of_literalBits (h : literalBits g k = some b) : isLiteral g k = true := by
  obtain ⟨v, hv, -⟩ := Option.bind_eq_some_iff.mp h
  rw [isLiteral, hv]
  rfl

theorem settled_of_isLiteral (hn : g.vertex k = some n) (h : isLiteral g k = true) :
    Settled g n := by
  obtain ⟨v, t, operands, hvertex⟩ := isLiteral_iff.mp h
  obtain rfl := Option.some.inj (hn.symm.trans hvertex)
  exact Or.inl ⟨v, rfl⟩

theorem extendOperand_eq_some (h : extendOperand g i = some x) : ∃ op t,
    g.vertex i = some ⟨⟨.logic (.core op), t⟩, [x]⟩ ∧
      ((∃ w, op = .zeroExt w) ∨ ∃ w, op = .signExt w) := by
  unfold extendOperand at h
  split at h
  · rename_i w t y hvertex
    obtain rfl := Option.some.inj h
    exact ⟨_, t, hvertex, Or.inl ⟨w, rfl⟩⟩
  · rename_i w t y hvertex
    obtain rfl := Option.some.inj h
    exact ⟨_, t, hvertex, Or.inr ⟨w, rfl⟩⟩
  · cases h

/-- The operations of literals and of strict comparisons. -/
def opSettled : GraphOp → Bool
  | .logic (.core (.literal _)) | .logic (.core .ugt) | .logic (.core .ult) => true
  | _ => false

theorem not_settled (h : opSettled n.label.op = false) : ¬ Settled g n := by
  rintro (⟨v, hv⟩ | ⟨op, t, x, k, rfl, rfl | rfl, -⟩)
  · rw [hv] at h
    cases h
  · cases h
  · cases h

theorem opSettled_of_commutative {op : GraphOp} (h : opIsCommutative op = true) :
    opSettled op = false := by
  unfold opSettled
  split
  · cases h
  · cases h
  · cases h
  · rfl

/-- What all rules have in common: they leave literals and strict comparisons with literals alone,
make no default, and the replacement is new or the operand of an extension. -/
structure Rewrites (g : NodeGraph) (i : ℕ) (rewrite : Rewrite) : Prop where
  vertex : ∃ n, g.vertex i = some n ∧ ¬ Settled g n
  noDefault : ∀ n ∈ rewrite.newNodes, n.label.op ≠ .logic (.core (.sel true))
  replacement : g.length ≤ rewrite.replacement ∨
    ∃ d, g.vertex i = some ⟨d, [rewrite.replacement]⟩

theorem rewrites_select {selector : ℕ} {cases : List ℕ} {default : Option ℕ}
    (h : asSelect g i = some (selector, cases, default)) :
    ∃ n, g.vertex i = some n ∧ ¬ Settled g n := by
  obtain ⟨hasDefault, type, arms, hvertex, -⟩ := vertex_of_asSelect h
  exact ⟨_, hvertex, not_settled rfl⟩

/-- One new node, or a literal and a new node. -/
theorem noDefault_pair (hm : m.label.op ≠ .logic (.core (.sel true)))
    (hn : n.label.op ≠ .logic (.core (.sel true))) :
    ∀ k ∈ [m, n], k.label.op ≠ .logic (.core (.sel true)) := by
  intro k hk
  rcases List.mem_pair.mp hk with rfl | rfl
  · exact hm
  · exact hn

theorem rewrites_of_rewriteNode (h : rewriteNode overlong g i = some (some rewrite)) :
    Rewrites g i rewrite := by
  rcases rewriteNode_cases h with h | h | h | h | h | h | h | h | h
  · obtain ⟨d, x, y, t, hvertex, hcomm, -, -, -, rfl⟩ := commuteOperands_eq_some h
    refine ⟨⟨_, hvertex, not_settled (opSettled_of_commutative hcomm)⟩, ?_, .inl le_rfl⟩
    intro n hn hop
    obtain rfl := List.mem_singleton.mp hn
    rw [show d.op = _ from hop] at hcomm
    cases hcomm
  · obtain ⟨op, op', t, x, y, hvertex, hop, -, hy, rfl⟩ := commuteComparison_eq_some h
    refine ⟨⟨_, hvertex, ?_⟩, ?_, .inl le_rfl⟩
    · rintro (⟨v, hv⟩ | ⟨op, t, x, k, hform, -, hk⟩)
      · cases hv
        cases hop
      · cases hform
        cases hy.symm.trans hk
    · intro n hn hop'
      obtain rfl := List.mem_singleton.mp hn
      cases hop'
      cases (opIsCompare_commuted hop).2
  · obtain ⟨op, t, x, y, literal, b, op', hvertex, -, hrule, rfl⟩ := strictComparison_eq_some h
    have hstrict : opSettled (.logic (.core op)) = false ∧
        GraphOp.logic (.core op') ≠ .logic (.core (.sel true)) := by
      rcases hrule with ⟨rfl, -, -, rfl⟩ | ⟨rfl, -, -, rfl⟩
      · exact ⟨rfl, fun hop => by cases hop⟩
      · exact ⟨rfl, fun hop => by cases hop⟩
    exact ⟨⟨_, hvertex, not_settled hstrict.1⟩,
      noDefault_pair (fun hop => by cases hop) hstrict.2, .inl (Nat.le_succ _)⟩
  · obtain ⟨a, k, op, t, hmatch, -, rfl⟩ := canonicalizeClamp_eq_some h
    obtain ⟨selector, d, c, default, cmp, type, b, hselect, -, hform⟩ := matchClamp_eq_some hmatch
    refine ⟨rewrites_select hselect, noDefault_pair (fun hop => ?_) (fun hop => by cases hop),
      .inl (Nat.le_succ _)⟩
    rcases (clampForm_spec hform).strict' with rfl | rfl <;> cases hop
  · obtain ⟨type, x, y, literal, t, hvertex, -, -, rfl⟩ := subtractLiteral_eq_some h
    exact ⟨⟨_, hvertex, not_settled rfl⟩,
      noDefault_pair (fun hop => by cases hop) (fun hop => by cases hop), .inl (Nat.le_succ _)⟩
  · obtain ⟨x, w, hx, -, -, rfl⟩ := removeExtension_eq_some h
    obtain ⟨op, t, hvertex, ⟨w, rfl⟩ | ⟨w, rfl⟩⟩ := extendOperand_eq_some hx
    · exact ⟨⟨_, hvertex, not_settled rfl⟩, List.forall_mem_nil _, .inr ⟨_, hvertex⟩⟩
    · exact ⟨⟨_, hvertex, not_settled rfl⟩, List.forall_mem_nil _, .inr ⟨_, hvertex⟩⟩
  · obtain ⟨v, type, x, w, b, hvertex, -, -, -, rfl⟩ := zeroExtension_eq_some h
    exact ⟨⟨_, hvertex, not_settled rfl⟩,
      noDefault_pair (fun hop => by cases hop) (fun hop => by cases hop), .inl (Nat.le_succ _)⟩
  · obtain ⟨selector, case0, case1, p, t, hselect, -, -, rfl⟩ := invertedSelect_eq_some h
    refine ⟨rewrites_select hselect, fun n hn hop => ?_, .inl le_rfl⟩
    obtain rfl := List.mem_singleton.mp hn
    cases hop
  · obtain ⟨selector, cases, default, t, hsingle, rfl⟩ := defaultToCase_eq_some h
    refine ⟨rewrites_select (singleDefault_eq_some.mp hsingle).1, fun n hn hop => ?_, .inl le_rfl⟩
    obtain rfl := List.mem_singleton.mp hn
    cases hop

theorem lt_length_of_rewrite (h : rewriteNode overlong g i = some (some rewrite)) :
    i < g.length := by
  obtain ⟨n, hn, -⟩ := (rewrites_of_rewriteNode h).vertex
  exact TermGraph.lt_length_of_vertex hn

/-- The rules leave literals and strict comparisons with literals alone. -/
theorem not_settled_of_rewrite (hn : g.vertex i = some n)
    (h : rewriteNode overlong g i = some (some rewrite)) : ¬ Settled g n := by
  obtain ⟨n', hn', hsettled⟩ := (rewrites_of_rewriteNode h).vertex
  obtain rfl := Option.some.inj (hn.symm.trans hn')
  exact hsettled

/-! ## What a node may still cause -/

/-- Operands come before their users in some order, which begins with the literals. -/
structure Ranked (g : NodeGraph) (rank : ℕ → ℕ) : Prop where
  operands : g.Ranks rank
  literal : ∀ k, isLiteral g k = true → rank k = 0

/-- The operations which a rule replaces by another one. -/
def opCost : GraphOp → ℕ
  | .logic (.core .uge) | .logic (.core .ule) | .logic (.core .sub) => 1
  | .logic (.core (.zeroExt _)) | .logic (.core (.signExt _)) => 1
  | _ => 0

/-- The operations whose operands are exchanged. -/
def opMoves : GraphOp → Bool
  | .logic (.core op) => opIsCommutative (.logic (.core op)) || opIsCompare op
  | op => opIsCommutative op

/-- The operand on the right may become a literal. -/
def moveCost (g : NodeGraph) (n : Vertex NodeLabel) : ℕ :=
  match n.operands with
  | [_, y] => if opMoves n.label.op && !isLiteral g y then 1 else 0
  | _ => 0

/-- The canonical form of a clamp. -/
def IsClamp (g : NodeGraph) (n : Vertex NodeLabel) : Prop :=
  ∃ s x k t t' op, n = ⟨⟨.logic (.core (.sel false)), t⟩, [s, x, k]⟩ ∧
    g.vertex s = some ⟨⟨.logic (.core op), t'⟩, [x, k]⟩ ∧ (op = .ugt ∨ op = .ult) ∧
    isLiteral g k = true

open Classical in
/-- A select loses a default and inverted selectors, or becomes a clamp. -/
noncomputable def selectCost (g : NodeGraph) (rank : ℕ → ℕ) (n : Vertex NodeLabel) : ℕ :=
  match n.label.op, n.operands with
  | .logic (.core (.sel hasDefault)), s :: _ =>
    (if IsClamp g n then 0 else 1 + rank s) + hasDefault.toNat
  | _, _ => 0

noncomputable def cost (g : NodeGraph) (rank : ℕ → ℕ) (n : Vertex NodeLabel) : ℕ :=
  opCost n.label.op + moveCost g n + selectCost g rank n

noncomputable def costAt (g : NodeGraph) (rank : ℕ → ℕ) (k : ℕ) : ℕ :=
  ((g.vertex k).map (cost g rank)).getD 0

theorem costAt_of_vertex (hn : g.vertex k = some n) : costAt g rank k = cost g rank n := by
  rw [costAt, hn, Option.map_some, Option.getD_some]

open Classical in
theorem selectCost_eq {hasDefault : Bool} {t : Ty} {s : ℕ} :
    selectCost g rank ⟨⟨.logic (.core (.sel hasDefault)), t⟩, s :: arms⟩ =
      (if IsClamp g ⟨⟨.logic (.core (.sel hasDefault)), t⟩, s :: arms⟩ then 0 else 1 + rank s) +
        hasDefault.toNat := rfl

theorem selectCost_eq_zero (h : ∀ hasDefault t s arms,
    n ≠ ⟨⟨.logic (.core (.sel hasDefault)), t⟩, s :: arms⟩) : selectCost g rank n = 0 := by
  unfold selectCost
  split
  · rename_i hasDefault s arms hop hoperands
    rcases n with ⟨⟨op, t⟩, operands⟩
    obtain rfl : op = _ := hop
    obtain rfl : operands = _ := hoperands
    exact absurd rfl (h hasDefault t s arms)
  · rfl

theorem moveCost_two :
    moveCost g ⟨d, [x, y]⟩ = if opMoves d.op && !isLiteral g y then 1 else 0 := rfl

theorem selectCost_sel {hasDefault : Bool} {t : Ty} {s : ℕ}
    (h : ¬ IsClamp g ⟨⟨.logic (.core (.sel hasDefault)), t⟩, s :: arms⟩) :
    selectCost g rank ⟨⟨.logic (.core (.sel hasDefault)), t⟩, s :: arms⟩ =
      1 + rank s + hasDefault.toNat := by
  rw [selectCost_eq, if_neg h]

theorem selectCost_le {hasDefault : Bool} {t : Ty} {s : ℕ} :
    selectCost g rank ⟨⟨.logic (.core (.sel hasDefault)), t⟩, s :: arms⟩ ≤
      1 + rank s + hasDefault.toNat := by
  rw [selectCost_eq]
  split_ifs <;> omega

/-- A canonical clamp causes nothing. -/
theorem selectCost_clamp (h : IsClamp g n) : selectCost g rank n = 0 := by
  obtain ⟨s, x, k, t, t', op, rfl, hrest⟩ := h
  rw [selectCost_eq, if_pos ⟨s, x, k, t, t', op, rfl, hrest⟩]
  rfl

theorem cost_clamp (h : IsClamp g n) : cost g rank n = 0 := by
  rw [cost, selectCost_clamp h]
  obtain ⟨s, x, k, t, t', op, rfl, -⟩ := h
  rfl

theorem moveCost_of_literal (h : isLiteral g y = true) : moveCost g ⟨d, [x, y]⟩ = 0 := by
  rw [moveCost_two, h, Bool.not_true, Bool.and_false]
  exact if_neg Bool.false_ne_true

theorem moveCost_of_not_literal (hop : opMoves d.op = true) (h : isLiteral g y = false) :
    moveCost g ⟨d, [x, y]⟩ = 1 := by
  rw [moveCost_two, hop, h]
  rfl

theorem opMoves_of_commutative {op : GraphOp} (h : opIsCommutative op = true) :
    opMoves op = true := by
  unfold opMoves
  split
  · rw [h, Bool.true_or]
  · exact h

/-! ## Costs when the graph changes -/

theorem isLiteral_make (h : k < g.length) : isLiteral (g.make m) k = isLiteral g k := by
  rw [isLiteral, isLiteral, literalValue, literalValue, TermGraph.vertex_make_of_ne h.ne]

theorem isLiteral_replaceUses : isLiteral (g.replaceUses i j) k = isLiteral g k := by
  rw [Bool.eq_iff_iff, isLiteral_iff, isLiteral_iff]
  constructor
  · rintro ⟨v, t, operands, hvertex⟩
    rw [TermGraph.vertex_replaceUses, Option.map_eq_some_iff] at hvertex
    obtain ⟨⟨d, os⟩, hn, hform⟩ := hvertex
    cases hform
    exact ⟨v, t, os, hn⟩
  · rintro ⟨v, t, operands, hvertex⟩
    refine ⟨v, t, operands.map (TermGraph.redirect i j), ?_⟩
    rw [TermGraph.vertex_replaceUses, hvertex]
    rfl

theorem isClamp_make (h : ∀ o ∈ n.operands, o < g.length) : IsClamp (g.make m) n ↔ IsClamp g n := by
  constructor
  · rintro ⟨s, x, k, t, t', op, rfl, hs, hop, hk⟩
    have hs' : s < g.length := h s (List.mem_cons_self ..)
    have hk' : k < g.length := h k (by simp)
    rw [TermGraph.vertex_make_of_ne hs'.ne] at hs
    rw [isLiteral_make hk'] at hk
    exact ⟨s, x, k, t, t', op, rfl, hs, hop, hk⟩
  · rintro ⟨s, x, k, t, t', op, rfl, hs, hop, hk⟩
    have hs' : s < g.length := h s (List.mem_cons_self ..)
    have hk' : k < g.length := h k (by simp)
    refine ⟨s, x, k, t, t', op, rfl, ?_, hop, ?_⟩
    · rw [TermGraph.vertex_make_of_ne hs'.ne, hs]
    · rw [isLiteral_make hk', hk]

theorem cost_make (h : ∀ o ∈ n.operands, o < g.length) (hrank : ∀ k < g.length, rank' k = rank k) :
    cost (g.make m) rank' n = cost g rank n := by
  have hmove : moveCost (g.make m) n = moveCost g n := by
    unfold moveCost
    split
    · rename_i x y hoperands
      rw [isLiteral_make (h y (by rw [hoperands]; simp))]
    · rfl
  have hselect : selectCost (g.make m) rank' n = selectCost g rank n := by
    by_cases hsel : ∃ hasDefault t s arms, n = ⟨⟨.logic (.core (.sel hasDefault)), t⟩, s :: arms⟩
    · obtain ⟨hasDefault, t, s, arms, rfl⟩ := hsel
      by_cases hclamp : IsClamp g ⟨⟨.logic (.core (.sel hasDefault)), t⟩, s :: arms⟩
      · rw [selectCost_clamp hclamp, selectCost_clamp ((isClamp_make h).mpr hclamp)]
      · rw [selectCost_sel hclamp, selectCost_sel (mt (isClamp_make h).mp hclamp),
          hrank s (h s (List.mem_cons_self ..))]
    · push Not at hsel
      rw [selectCost_eq_zero hsel, selectCost_eq_zero hsel]
  rw [cost, cost, hmove, hselect]

/-- A node with other operands, where a settled node keeps its uses. -/
theorem cost_replaceUses_le (hi : ∀ n, g.vertex i = some n → ¬ Settled g n)
    (hrank : rank r ≤ rank i) (n : Vertex NodeLabel) :
    cost (g.replaceUses i r) rank ⟨n.label, n.operands.map (TermGraph.redirect i r)⟩ ≤
      cost g rank n := by
  have hkept : ∀ {k : ℕ} {m : Vertex NodeLabel}, g.vertex k = some m → Settled g m →
      TermGraph.redirect i r k = k := by
    intro k m hm hsettled
    rw [TermGraph.redirect, if_neg]
    rintro rfl
    exact hi m hm hsettled
  have hliteral : ∀ {k : ℕ}, isLiteral g k = true → TermGraph.redirect i r k = k := by
    intro k hk
    obtain ⟨v, t, operands, hvertex⟩ := isLiteral_iff.mp hk
    exact hkept hvertex (settled_of_isLiteral hvertex hk)
  have hmove : moveCost (g.replaceUses i r) ⟨n.label, n.operands.map (TermGraph.redirect i r)⟩ ≤
      moveCost g n := by
    unfold moveCost
    rcases n.operands with - | ⟨x, - | ⟨y, - | ⟨z, rest⟩⟩⟩
    · exact le_rfl
    · exact le_rfl
    · -- a literal on the right stays there
      show (if opMoves n.label.op && !isLiteral (g.replaceUses i r) (TermGraph.redirect i r y)
        then 1 else 0) ≤ if opMoves n.label.op && !isLiteral g y then 1 else 0
      rw [isLiteral_replaceUses]
      by_cases hy : isLiteral g y = true
      · rw [hliteral hy]
      · rw [Bool.not_eq_true] at hy
        rw [hy]
        split_ifs <;> simp_all
    · exact le_rfl
  have hselect : selectCost (g.replaceUses i r) rank
      ⟨n.label, n.operands.map (TermGraph.redirect i r)⟩ ≤ selectCost g rank n := by
    by_cases hclamp : IsClamp g n
    · -- the comparison and the literal of a clamp are settled
      have hclamp' : IsClamp (g.replaceUses i r)
          ⟨n.label, n.operands.map (TermGraph.redirect i r)⟩ := by
        obtain ⟨s, x, k, t, t', op, rfl, hs, hop, hk⟩ := hclamp
        refine ⟨s, TermGraph.redirect i r x, k, t, t', op, ?_, ?_, hop, ?_⟩
        · rw [List.map_cons, List.map_cons, List.map_singleton, hliteral hk,
            hkept hs (Or.inr ⟨op, t', x, k, rfl, hop, hk⟩)]
        · rw [TermGraph.vertex_replaceUses, hs, Option.map_some, List.map_cons, List.map_singleton,
            hliteral hk]
        · rw [isLiteral_replaceUses, hk]
      rw [selectCost_clamp hclamp']
      exact Nat.zero_le _
    · by_cases hsel : ∃ hasDefault t s arms, n = ⟨⟨.logic (.core (.sel hasDefault)), t⟩, s :: arms⟩
      · obtain ⟨hasDefault, t, s, arms, rfl⟩ := hsel
        rw [selectCost_sel hclamp]
        have hle : rank (TermGraph.redirect i r s) ≤ rank s := by
          rw [TermGraph.redirect]
          split_ifs with hs
          · rw [hs]
            exact hrank
          · exact le_rfl
        refine selectCost_le.trans ?_
        omega
      · have hsel' : ∀ hasDefault t s arms,
            (⟨n.label, n.operands.map (TermGraph.redirect i r)⟩ : Vertex NodeLabel) ≠
              ⟨⟨.logic (.core (.sel hasDefault)), t⟩, s :: arms⟩ := by
          rintro hasDefault t s arms hform
          obtain ⟨hlabel, hoperands⟩ := Vertex.mk.inj hform
          rcases n with ⟨d, - | ⟨s', arms'⟩⟩
          · cases hoperands
          · obtain rfl : d = _ := hlabel
            exact hsel ⟨hasDefault, t, s', arms', rfl⟩
        rw [selectCost_eq_zero hsel']
        exact Nat.zero_le _
  rw [cost, cost]
  show opCost n.label.op + _ + _ ≤ _
  omega

/-! ## The sum of the costs -/

/-- What the nodes may still cause which were not rewritten. -/
noncomputable def total (g : NodeGraph) (rank : ℕ → ℕ) (simplified : List ℕ) : ℕ :=
  ∑ k ∈ Finset.range g.length, if k ∈ simplified then 0 else costAt g rank k

theorem costAt_make (hg : g.Bounded) (hrank : ∀ k < g.length, rank' k = rank k)
    (hk : k < g.length) : costAt (g.make m) rank' k = costAt g rank k := by
  rw [costAt, costAt, TermGraph.vertex_make_of_ne hk.ne]
  rcases hn : g.vertex k with - | n
  · rfl
  · rw [Option.map_some, Option.map_some, cost_make (hg k n hn) hrank]

theorem total_make_le (hg : g.Bounded) (hm : ∀ o ∈ m.operands, o < g.length)
    (hrank : ∀ k < g.length, rank' k = rank k) (simplified : List ℕ) :
    total (g.make m) rank' simplified ≤ total g rank simplified + cost g rank m := by
  rw [total, TermGraph.length_make, Finset.sum_range_succ]
  refine Nat.add_le_add (le_of_eq ?_) ?_
  · refine Finset.sum_congr rfl fun k hk => ?_
    rw [costAt_make hg hrank (Finset.mem_range.mp hk)]
  · rw [costAt_of_vertex TermGraph.vertex_make_length, cost_make hm hrank]
    split_ifs
    · exact Nat.zero_le _
    · exact le_rfl

/-- A rewritten node is not counted any more. -/
theorem total_replaceUses_le (hi : ∀ n, g.vertex i = some n → ¬ Settled g n)
    (hrank : rank r ≤ rank i) (hlt : i < g.length) {simplified : List ℕ} (hnew : i ∉ simplified) :
    total (g.replaceUses i r) rank (i :: simplified) + costAt g rank i ≤
      total g rank simplified := by
  have hle : ∀ k, costAt (g.replaceUses i r) rank k ≤ costAt g rank k := by
    intro k
    rw [costAt, costAt, TermGraph.vertex_replaceUses]
    rcases g.vertex k with - | n
    · exact le_rfl
    · exact cost_replaceUses_le hi hrank n
  have hmem : i ∈ Finset.range g.length := Finset.mem_range.mpr hlt
  rw [total, total, TermGraph.length_replaceUses, ← Finset.sum_erase_add _ _ hmem,
    ← Finset.sum_erase_add _ _ hmem, if_pos (List.mem_cons_self ..), if_neg hnew, Nat.add_zero]
  refine Nat.add_le_add_right (Finset.sum_le_sum fun k hk => ?_) _
  have hne : k ≠ i := Finset.ne_of_mem_erase hk
  by_cases hk' : k ∈ simplified
  · rw [if_pos (List.mem_cons_of_mem _ hk')]
    exact Nat.zero_le _
  · rw [if_neg hk', if_neg (by simp [hne, hk'])]
    exact hle k

end Canonicalization

end Xls
