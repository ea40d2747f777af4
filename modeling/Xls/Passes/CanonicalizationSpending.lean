/-
# What the rules of canonicalization spend

The new nodes of a rule cost less than the node they replace, and come before it in the order of the
operands.  The one exception is a clamp of a literal between itself and itself, which is of the form
of `x > K ? x : K` and of `x < K ? x : K`: each of the two becomes the other.

* `Spends` and `Spends.spent` : new nodes one by one, and the graph with all of them;
* `spends_rewrite` : each rule spends something, but for a clamp of a literal at itself.
-/
import Xls.Passes.CanonicalizationCost

namespace Xls

namespace Canonicalization

open NodeGraph

variable {overlong : ℕ → BitVec 64} {g g' : NodeGraph} {n m : Vertex NodeLabel} {i k r : ℕ}
  {rank rank' : ℕ → ℕ} {rewrite : Rewrite} {b : Bits} {x y : ℕ} {arms : List ℕ} {d : NodeLabel}
  {op : Op} {new : List (Vertex NodeLabel)}

/-! ## New nodes -/

/-- New nodes cause less than there is, and have ranks below that of the old node. -/
def Spends (used : ℕ → Prop) (r bound : ℕ) : ℕ → NodeGraph → (ℕ → ℕ) → List (Vertex NodeLabel) →
    Prop
  | left, _, rank, [] => 0 < left ∧ rank r ≤ bound ∧ used r
  | left, g, rank, n :: rest => ∃ v left', (∀ o ∈ n.operands, used o ∧ rank o < v) ∧
      ((∃ b, n.label.op = .logic (.core (.literal b))) → v = 0) ∧ cost g rank n + left' ≤ left ∧
      Spends used r bound left' (g.make n) (Function.update rank g.length v) rest

/-- The graph with the new nodes. -/
structure Spent (used : ℕ → Prop) (r bound left : ℕ) (g : NodeGraph) (rank : ℕ → ℕ)
    (g' : NodeGraph) (rank' : ℕ → ℕ) : Prop where
  ranked : Ranked g' rank'
  le : g.length ≤ g'.length
  vertices : ∀ k < g.length, g'.vertex k = g.vertex k
  old : ∀ k < g.length, rank' k = rank k
  bound : rank' r ≤ bound
  replacement : used r
  total : ∀ simplified, total g' rank' simplified < total g rank simplified + left
  uses : ∀ o, g'.Uses o → g.Uses o ∨ used o
  costs : ∀ k < g.length, costAt g' rank' k = costAt g rank k

theorem Ranked.make {v : ℕ} (hg : g.Bounded) (h : Ranked g rank)
    (hm : ∀ o ∈ m.operands, o < g.length ∧ rank o < v)
    (hliteral : (∃ b, m.label.op = .logic (.core (.literal b))) → v = 0) :
    Ranked (g.make m) (Function.update rank g.length v) := by
  have hold : ∀ k < g.length, Function.update rank g.length v k = rank k := fun k hk =>
    Function.update_of_ne hk.ne ..
  constructor
  · intro k n hn o ho
    by_cases hk : k = g.length
    · subst hk
      rw [TermGraph.vertex_make_length, Option.some.injEq] at hn
      subst hn
      rw [Function.update_self, hold o (hm o ho).1]
      exact (hm o ho).2
    · rw [TermGraph.vertex_make_of_ne hk] at hn
      rw [hold k (TermGraph.lt_length_of_vertex hn), hold o (hg k n hn o ho)]
      exact h.operands k n hn o ho
  · intro k hk
    by_cases hlength : k = g.length
    · subst hlength
      obtain ⟨b, t, operands, hvertex⟩ := isLiteral_iff.mp hk
      rw [TermGraph.vertex_make_length, Option.some.injEq] at hvertex
      subst hvertex
      rw [Function.update_self]
      exact hliteral ⟨b, rfl⟩
    · obtain ⟨b, t, operands, hvertex⟩ := isLiteral_iff.mp hk
      rw [TermGraph.vertex_make_of_ne hlength] at hvertex
      rw [hold k (TermGraph.lt_length_of_vertex hvertex)]
      exact h.literal k (isLiteral_iff.mpr ⟨b, t, operands, hvertex⟩)

theorem uses_make {o : ℕ} (h : TermGraph.Uses (g.make m) o) : g.Uses o ∨ o ∈ m.operands := by
  obtain ⟨k, n, hn, ho⟩ := h
  by_cases hk : k = g.length
  · subst hk
    rw [TermGraph.vertex_make_length, Option.some.injEq] at hn
    subst hn
    exact Or.inr ho
  · rw [TermGraph.vertex_make_of_ne hk] at hn
    exact Or.inl ⟨k, n, hn, ho⟩

variable (hg : Verified g) (hrank : Ranked g rank)

include hg hrank in
theorem Spends.spent {used : ℕ → Prop} {bound left : ℕ} (h : Spends used r bound left g rank new)
    (hmake : g.makeNodes new = some g') :
    ∃ rank', Spent used r bound left g rank g' rank' := by
  induction new generalizing g rank left with
  | nil =>
    obtain ⟨hpos, hbound, hused⟩ := h
    obtain rfl := Option.some.inj hmake
    refine ⟨rank, hrank, le_rfl, fun _ _ => rfl, fun _ _ => rfl, hbound, hused,
      fun simplified => ?_, fun _ => Or.inl,
      fun _ _ => rfl⟩
    omega
  | cons n rest ih =>
    obtain ⟨v, left', hoperands, hliteral, hcost, hrest⟩ := h
    rw [makeNodes] at hmake
    split at hmake
    · rename_i hverify
      have hlt := lt_length_of_verifyVertex hverify
      have hold : ∀ k < g.length, Function.update rank g.length v k = rank k := fun k hk =>
        Function.update_of_ne hk.ne ..
      have hranked : Ranked (g.make n) (Function.update rank g.length v) :=
        hrank.make hg.bounded (fun o ho => ⟨hlt o ho, (hoperands o ho).2⟩) hliteral
      obtain ⟨rank', hspent⟩ := ih (hg.make hverify) hranked hrest hmake
      have hlength : (g.make n).length = g.length + 1 := TermGraph.length_make
      have hle := hspent.le
      refine ⟨rank', hspent.ranked, by omega, fun k hk => ?_, fun k hk => ?_, hspent.bound,
        hspent.replacement, fun simplified => ?_, fun o ho => ?_, fun k hk => ?_⟩
      · rw [hspent.vertices k (by omega), TermGraph.vertex_make_of_ne hk.ne]
      · rw [hspent.old k (by omega), hold k hk]
      · have hnew := total_make_le hg.bounded hlt hold simplified
        have hlast := hspent.total simplified
        omega
      · rcases hspent.uses o ho with huses | hused
        · exact (uses_make huses).imp_right fun hmem => (hoperands o hmem).1
        · exact Or.inr hused
      · rw [hspent.costs k (by omega), costAt_make hg.bounded hold hk]
    · cases hmake

/-! ## What the rules spend -/

/-- Operands of the graph, and new nodes. -/
def Used (g : NodeGraph) (o : ℕ) : Prop := g.Uses o ∨ g.length ≤ o

theorem used_of_vertex {o : ℕ} (hn : g.vertex i = some n) (ho : o ∈ n.operands) : Used g o :=
  Or.inl ⟨i, n, hn, ho⟩

/-- A node with two operands which is no select. -/
theorem cost_two (hop : opMoves d.op = true) :
    cost g rank ⟨d, [x, y]⟩ = opCost d.op + moveCost g ⟨d, [x, y]⟩ := by
  have hselect : selectCost g rank ⟨d, [x, y]⟩ = 0 := by
    apply selectCost_eq_zero
    rintro hasDefault t s arms hform
    obtain ⟨rfl, -⟩ := Vertex.mk.inj hform
    cases hop
  rw [cost, hselect, Nat.add_zero]

/-- One new node in the place of `i`. -/
theorem spends_new {left : ℕ} (hoperands : ∀ o ∈ m.operands, Used g o ∧ rank o < rank i)
    (hliteral : ∀ b, m.label.op ≠ .logic (.core (.literal b))) (hcost : cost g rank m < left) :
    Spends (Used g) g.length (rank i) left g rank [m] := by
  refine ⟨rank i, left - cost g rank m, hoperands, ?_, by omega, by omega, ?_, Or.inr le_rfl⟩
  · rintro ⟨b, hb⟩
    exact absurd hb (hliteral b)
  · rw [Function.update_self]

/-- A new literal, and a new node with it on the right or on the left. -/
theorem spends_literal {operands : List ℕ} (hoperands : ∀ o ∈ operands, o = x ∨ o = g.length)
    (hn : g.vertex i = some n) (hx : x ∈ n.operands) (hlt : x < g.length) (hrank : Ranked g rank)
    (hliteral : ∀ b, d.op ≠ .logic (.core (.literal b)))
    (hcost : cost (g.make (literalNode b)) (Function.update rank g.length 0) ⟨d, operands⟩ <
      costAt g rank i) :
    Spends (Used g) (g.length + 1) (rank i) (costAt g rank i) g rank
      [literalNode b, ⟨d, operands⟩] := by
  have hlength : (g.make (literalNode b)).length = g.length + 1 := TermGraph.length_make
  refine ⟨0, costAt g rank i, ?_, fun _ => rfl, ?_, rank i, _, ?_, ?_,
    Nat.add_sub_of_le hcost.le |>.le, by omega, ?_, Or.inr (Nat.le_succ _)⟩
  · intro o ho
    cases ho
  · show 0 + costAt g rank i ≤ costAt g rank i
    omega
  · intro o ho
    have hi := hrank.operands i n hn x hx
    rcases hoperands o ho with rfl | rfl
    · rw [Function.update_of_ne hlt.ne]
      exact ⟨used_of_vertex hn hx, hi⟩
    · rw [Function.update_self]
      exact ⟨Or.inr le_rfl, by omega⟩
  · rintro ⟨b', hb⟩
    exact absurd hb (hliteral b')
  · rw [hlength, Function.update_self]

theorem isLiteral_literalNode (b : Bits) : isLiteral (g.make (literalNode b)) g.length = true := by
  rw [isLiteral_iff]
  exact ⟨.bits b, _, [], TermGraph.vertex_make_length⟩

/-- The new nodes of a rewrite of `i` take no more than what the node has to spend. -/
abbrev RewriteSpends (g : NodeGraph) (rank : ℕ → ℕ) (i : ℕ) (rewrite : Rewrite) : Prop :=
  Spends (Used g) rewrite.replacement (rank i) (costAt g rank i) g rank rewrite.newNodes

include hrank in
theorem spends_commuteOperands (h : commuteOperands g i = some rewrite) :
    RewriteSpends g rank i rewrite := by
  obtain ⟨d, x, y, t, hvertex, hcomm, hx, hy, -, rfl⟩ := commuteOperands_eq_some h
  have hmoves := opMoves_of_commutative hcomm
  refine spends_new ?_ ?_ ?_
  · intro o ho
    have hmem : o ∈ [x, y] := List.mem_pair.mpr (List.mem_pair.mp ho).symm
    exact ⟨used_of_vertex hvertex hmem, hrank.operands i _ hvertex o hmem⟩
  · rintro b hb
    rw [show d.op = _ from hb] at hcomm
    cases hcomm
  · have hnew : cost g rank ⟨⟨d.op, t⟩, [y, x]⟩ = opCost d.op := by
      have hmoves' : opMoves (NodeLabel.mk d.op t).op = true := hmoves
      rw [cost_two hmoves', moveCost_of_literal hx, Nat.add_zero]
    rw [costAt_of_vertex hvertex, cost_two hmoves, hnew, moveCost_of_not_literal hmoves hy]
    exact Nat.lt_succ_self _

/-- A comparison costs as much from the other side. -/
theorem opCost_commuted {op' : Op} (h : compareOpCommuted op = some op') :
    opCost (.logic (.core op')) = opCost (.logic (.core op)) := by
  unfold compareOpCommuted at h
  split at h
  all_goals first | (obtain rfl := Option.some.inj h; rfl) | cases h

theorem opMoves_of_compare (h : opIsCompare op = true) : opMoves (.logic (.core op)) = true := by
  rw [opMoves, h, Bool.or_true]

include hrank in
theorem spends_commuteComparison (h : commuteComparison g i = some rewrite) :
    RewriteSpends g rank i rewrite := by
  obtain ⟨op, op', t, x, y, hvertex, hop, hx, hy, rfl⟩ := commuteComparison_eq_some h
  obtain ⟨hcompare, hcompare'⟩ := opIsCompare_commuted hop
  have hmoves := opMoves_of_compare hcompare
  refine spends_new ?_ ?_ ?_
  · intro o ho
    have hmem : o ∈ [x, y] := List.mem_pair.mpr (List.mem_pair.mp ho).symm
    exact ⟨used_of_vertex hvertex hmem, hrank.operands i _ hvertex o hmem⟩
  · rintro b hb
    cases hb
    cases hcompare'
  · rw [costAt_of_vertex hvertex, cost_two hmoves, compareNode,
      cost_two (opMoves_of_compare hcompare'), moveCost_of_literal hx,
      moveCost_of_not_literal hmoves hy, opCost_commuted hop]
    exact Nat.lt_succ_self _

section

include hg hrank

theorem spends_strictComparison (h : strictComparison g i = some rewrite) :
    RewriteSpends g rank i rewrite := by
  obtain ⟨op, t, x, y, literal, b, op', hvertex, -, hrule, rfl⟩ := strictComparison_eq_some h
  have hstrict : op' = .ugt ∨ op' = .ult := by
    rcases hrule with ⟨-, -, -, hop⟩ | ⟨-, -, -, hop⟩
    · exact Or.inl hop
    · exact Or.inr hop
  have hcost : opCost (.logic (.core op)) = 1 := by
    rcases hrule with ⟨rfl, -⟩ | ⟨rfl, -⟩ <;> rfl
  have hx : x ∈ [x, y] := List.mem_cons_self ..
  refine spends_literal (fun o => List.mem_pair.mp) hvertex hx (hg.bounded i _ hvertex x hx)
    hrank ?_ ?_
  · rintro b hb
    rcases hstrict with rfl | rfl <;> cases hb
  · rw [cost_two (opMoves_of_compare (opIsCompare_strict hstrict)),
      moveCost_of_literal (isLiteral_literalNode b), costAt_of_vertex hvertex]
    have hzero : opCost (.logic (.core op')) = 0 := by
      rcases hstrict with rfl | rfl <;> rfl
    show opCost (.logic (.core op')) + 0 < opCost (.logic (.core op)) + _ + _
    omega

theorem spends_subtractLiteral (h : subtractLiteral g i = some rewrite) :
    RewriteSpends g rank i rewrite := by
  obtain ⟨type, x, y, literal, t, hvertex, -, -, rfl⟩ := subtractLiteral_eq_some h
  have hx : x ∈ [x, y] := List.mem_cons_self ..
  refine spends_literal (fun o => List.mem_pair.mp) hvertex hx (hg.bounded i _ hvertex x hx)
    hrank ?_ ?_
  · rintro b hb
    cases hb
  · rw [cost_two rfl, moveCost_of_literal (isLiteral_literalNode _), costAt_of_vertex hvertex]
    show 0 < 1 + _ + _
    omega

theorem spends_zeroExtension (h : zeroExtension g i = some (some rewrite)) :
    RewriteSpends g rank i rewrite := by
  obtain ⟨v, type, x, w, b, hvertex, -, -, -, rfl⟩ := zeroExtension_eq_some h
  have hx : x ∈ [x] := List.mem_cons_self ..
  refine spends_literal (fun o ho => (List.mem_pair.mp ho).symm) hvertex hx
    (hg.bounded i _ hvertex x hx) hrank ?_ ?_
  · rintro b hb
    cases hb
  · rw [costAt_of_vertex hvertex]
    exact Nat.one_pos

end

section

include hrank

theorem spends_removeExtension (h : removeExtension g i = some rewrite) :
    RewriteSpends g rank i rewrite := by
  obtain ⟨x, w, hx, -, -, rfl⟩ := removeExtension_eq_some h
  obtain ⟨op, t, hvertex, hop⟩ := extendOperand_eq_some hx
  have hmem : x ∈ [x] := List.mem_cons_self ..
  refine ⟨?_, (hrank.operands i _ hvertex x hmem).le, used_of_vertex hvertex hmem⟩
  rw [costAt_of_vertex hvertex]
  rcases hop with ⟨w, rfl⟩ | ⟨w, rfl⟩
  · exact Nat.one_pos
  · exact Nat.one_pos

/-- A node which is no clamp, since its selector is not a comparison. -/
theorem spends_invertedSelect (h : invertedSelect g i = some rewrite) :
    RewriteSpends g rank i rewrite := by
  obtain ⟨selector, case0, case1, p, t, hselect, hp, -, rfl⟩ := invertedSelect_eq_some h
  obtain ⟨hasDefault, type, arms, hvertex, harms, -⟩ := vertex_of_asSelect hselect
  obtain ⟨u, hnot⟩ := notOperand_eq_some hp
  have hselector := hrank.operands i _ hvertex selector (List.mem_cons_self ..)
  have hinner := hrank.operands selector _ hnot p (List.mem_singleton.mpr rfl)
  have harm : ∀ o ∈ [case0, case1], o ∈ arms := by
    intro o ho
    rw [harms] at ho
    cases hasDefault with
    | false => exact ho
    | true => exact List.dropLast_subset _ ho
  have hclamp : ¬ IsClamp g ⟨⟨.logic (.core (.sel hasDefault)), type⟩, selector :: arms⟩ := by
    rintro ⟨s, x, k, t, t', op, hform, hs, -⟩
    cases hform
    cases hnot.symm.trans hs
  refine spends_new ?_ ?_ ?_
  · intro o ho
    rcases List.mem_cons.mp ho with rfl | ho
    · exact ⟨used_of_vertex hnot (List.mem_singleton.mpr rfl), hinner.trans hselector⟩
    · have hmem : o ∈ selector :: arms := by
        refine List.mem_cons_of_mem _ (harm o ?_)
        rcases List.mem_cons.mp ho with rfl | ho
        · exact List.mem_cons_of_mem _ (List.mem_singleton.mpr rfl)
        · exact List.mem_singleton.mp ho ▸ List.mem_cons_self ..
      exact ⟨used_of_vertex hvertex hmem, hrank.operands i _ hvertex o hmem⟩
  · rintro b hb
    cases hb
  · rw [costAt_of_vertex hvertex, cost, cost, selectCost_sel hclamp]
    have hle : selectCost g rank (selectNode t p [case1, case0]) ≤ 1 + rank p + 0 := selectCost_le
    show 0 + 0 + selectCost g rank (selectNode t p [case1, case0]) < _
    omega

theorem spends_defaultToCase (h : defaultToCase overlong g i = some rewrite) :
    RewriteSpends g rank i rewrite := by
  obtain ⟨selector, cases, default, t, hsingle, rfl⟩ := defaultToCase_eq_some h
  obtain ⟨hasDefault, type, arms, hvertex, hcases, hdefault⟩ :=
    vertex_of_asSelect (singleDefault_eq_some.mp hsingle).1
  obtain rfl : hasDefault = true := by
    cases hasDefault with
    | false => cases hdefault
    | true => rfl
  have harms : arms = cases ++ [default] := by
    rw [hcases]
    exact (List.dropLast_append_getLast? default hdefault.symm).symm
  have hclamp : ¬ IsClamp g ⟨⟨.logic (.core (.sel true)), type⟩, selector :: arms⟩ := by
    rintro ⟨s, x, k, t, t', op, hform, -⟩
    cases hform
  refine spends_new ?_ ?_ ?_
  · intro o ho
    have hmem : o ∈ selector :: arms := by
      rw [harms]
      exact ho
    exact ⟨used_of_vertex hvertex hmem, hrank.operands i _ hvertex o hmem⟩
  · rintro b hb
    cases hb
  · have hmove : moveCost g (selectNode t selector (cases ++ [default])) = 0 := by
      rcases cases with - | ⟨c, - | ⟨d, cases⟩⟩ <;> rfl
    rw [costAt_of_vertex hvertex, cost, cost, selectCost_sel hclamp, hmove]
    have hle : selectCost g rank (selectNode t selector (cases ++ [default])) ≤
      1 + rank selector + 0 := selectCost_le
    show 0 + 0 + selectCost g rank (selectNode t selector (cases ++ [default])) < 0 + _ + (_ + 1)
    omega

end

/-- A clamp which is canonical is matched when its node is its literal, and then only. -/
theorem matchClamp_of_isClamp {a : ℕ} (hn : g.vertex i = some n) (h : IsClamp g n)
    (hmatch : matchClamp g i = some (a, k, op)) : a = k := by
  obtain ⟨s, x, l, t, t', op', rfl, hs, -, -⟩ := h
  obtain ⟨selector, d, c, default, cmp, type, b, hselect, hcmp, hform⟩ := matchClamp_eq_some hmatch
  obtain ⟨hasDefault, type, arms, hvertex, harms, -⟩ := vertex_of_asSelect hselect
  obtain ⟨hlabel, hoperands⟩ := Vertex.mk.inj (Option.some.inj (hn.symm.trans hvertex))
  obtain ⟨rfl, rfl⟩ := List.cons.inj hoperands
  cases hlabel
  have hcases : [d, c] = [x, l] := harms
  obtain ⟨rfl, htail⟩ := List.cons.inj hcases
  obtain ⟨rfl, -⟩ := List.cons.inj htail
  obtain ⟨-, hoperands⟩ := Vertex.mk.inj (Option.some.inj (hs.symm.trans hcmp))
  obtain ⟨rfl, hb⟩ := List.cons.inj hoperands
  obtain ⟨rfl, -⟩ := List.cons.inj hb
  -- the node is the literal, or the literal of the comparison is its own successor
  rcases clampForm_cases hform with ⟨-, rfl, ⟨-, -, hnext⟩ | ⟨-, -, hnext⟩⟩ | ⟨rfl, rfl, -⟩
  · rw [areSequentialLiterals_self] at hnext
    cases hnext
  · rw [areSequentialLiterals_self] at hnext
    cases hnext
  · rfl

section

include hg hrank

theorem spends_canonicalizeClamp (h : canonicalizeClamp g i = some rewrite)
    (hclamp : ∀ k op, matchClamp g i ≠ some (k, k, op)) :
    RewriteSpends g rank i rewrite := by
  obtain ⟨a, k, op, t, hmatch, -, rfl⟩ := canonicalizeClamp_eq_some h
  obtain ⟨selector, d, c, default, cmp, type, b, hselect, hcmp, hform⟩ := matchClamp_eq_some hmatch
  obtain ⟨hasDefault, type', arms, hvertex, harms, -⟩ := vertex_of_asSelect hselect
  obtain ⟨-, hstrict, m, y, -, hy, hforms⟩ := clampForm_spec hform
  have hkLiteral := isLiteral_of_literalBits hy
  have hne : ¬ IsClamp g ⟨⟨.logic (.core (.sel hasDefault)), type'⟩, selector :: arms⟩ := by
    rintro hclamp'
    obtain rfl := matchClamp_of_isClamp hvertex hclamp' hmatch
    exact hclamp a op hmatch
  -- the ranks of the operands
  have hselector := hrank.operands i _ hvertex selector (List.mem_cons_self ..)
  have ha := hrank.operands selector _ hcmp a (List.mem_cons_self ..)
  have hk := hrank.literal k hkLiteral
  have hkMem : k ∈ selector :: arms := by
    have hmem : k ∈ [d, c] := by
      rcases hforms with ⟨-, rfl, -⟩ | ⟨-, rfl, -⟩
      · exact List.mem_cons_of_mem _ (List.mem_singleton.mpr rfl)
      · exact List.mem_cons_self ..
    rw [harms] at hmem
    apply List.mem_cons_of_mem
    cases hasDefault with
    | false => exact hmem
    | true => exact List.dropLast_subset _ hmem
  have haUsed : Used g a := used_of_vertex hcmp (List.mem_cons_self ..)
  have hkUsed : Used g k := used_of_vertex hvertex hkMem
  have haLt : a < g.length := hg.bounded selector _ hcmp a (List.mem_cons_self ..)
  have hkLt : k < g.length := hg.bounded i _ hvertex k hkMem
  have hlength : (g.make (compareNode op a k)).length = g.length + 1 := TermGraph.length_make
  refine ⟨rank selector, costAt g rank i, ?_, ?_, ?_, rank i, costAt g rank i, ?_, ?_, ?_, ?_, ?_,
    Or.inr (Nat.le_succ _)⟩
  · intro o ho
    rcases List.mem_cons.mp ho with rfl | ho
    · exact ⟨haUsed, ha⟩
    · rw [List.mem_singleton.mp ho]
      exact ⟨hkUsed, by omega⟩
  · rintro ⟨b, hb⟩
    rcases hstrict with rfl | rfl <;> cases hb
  · have hzero : opCost (.logic (.core op)) = 0 := by
      rcases hstrict with rfl | rfl <;> rfl
    rw [compareNode, cost_two (opMoves_of_compare (opIsCompare_strict hstrict)),
      moveCost_of_literal hkLiteral, hzero]
    omega
  · intro o ho
    rcases List.mem_cons.mp ho with rfl | ho
    · rw [Function.update_self]
      exact ⟨Or.inr le_rfl, hselector⟩
    · rcases List.mem_cons.mp ho with rfl | ho
      · rw [Function.update_of_ne haLt.ne]
        exact ⟨haUsed, ha.trans hselector⟩
      · rw [List.mem_singleton.mp ho, Function.update_of_ne hkLt.ne]
        exact ⟨hkUsed, by omega⟩
  · rintro ⟨b, hb⟩
    cases hb
  · -- the new select is canonical
    rw [cost_clamp, Nat.zero_add]
    refine ⟨g.length, a, k, t, .bits 1, op, rfl, TermGraph.vertex_make_length, hstrict, ?_⟩
    rw [isLiteral_make hkLt, hkLiteral]
  · rw [costAt_of_vertex hvertex, cost, selectCost_sel hne]
    omega
  · rw [hlength, Function.update_self]

/-- Each rule spends something, but for a clamp of a literal at itself. -/
theorem spends_rewrite (h : rewriteNode overlong g i = some (some rewrite))
    (hclamp : ∀ k op, matchClamp g i ≠ some (k, k, op)) :
    RewriteSpends g rank i rewrite := by
  rcases rewriteNode_cases h with h | h | h | h | h | h | h | h | h
  · exact spends_commuteOperands hrank h
  · exact spends_commuteComparison hrank h
  · exact spends_strictComparison hg hrank h
  · exact spends_canonicalizeClamp hg hrank h hclamp
  · exact spends_subtractLiteral hg hrank h
  · exact spends_removeExtension hrank h
  · exact spends_zeroExtension hg hrank h
  · exact spends_invertedSelect hrank h
  · exact spends_defaultToCase hrank h

end

include hrank in
/-- No node replaces itself. -/
theorem replacement_ne (h : rewriteNode overlong g i = some (some rewrite)) :
    rewrite.replacement ≠ i := by
  have hi := lt_length_of_rewrite h
  rcases (rewrites_of_rewriteNode h).replacement with hge | ⟨d, hvertex⟩
  · omega
  · have hlt := hrank.operands i _ hvertex rewrite.replacement (List.mem_singleton.mpr rfl)
    rintro heq
    rw [heq] at hlt
    exact absurd hlt (Nat.lt_irrefl _)

end Canonicalization

end Xls
