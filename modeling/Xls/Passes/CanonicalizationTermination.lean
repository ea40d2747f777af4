/-
# Canonicalization to a fixed point

The rules of `CanonicalizeNode` undo one another in one place: a clamp of a literal between itself
and itself is of the form of `x > K ? x : K` and of `x < K ? x : K`, and each of the two becomes the
other.  Everywhere else a rewrite makes the sum of what is left smaller.

* `Progress.of_rewrite` : a rewrite makes the sum of what is left smaller;
* `ends_of_no_selfClamp` : without such clamps the sweeps come to an end;
* `not_ends_of_pending` : such a clamp is rewritten for ever;
* `transformNodesToFixedPoint_ends_iff` : the exact condition.
-/
import Mathlib.Data.Prod.Lex
import Xls.Passes.CanonicalizationSpending
import Xls.Passes.OptimizationPass

namespace Xls

namespace Canonicalization

open NodeGraph OptimizationPass

variable {overlong : ℕ → BitVec 64} {g g' : NodeGraph} {n m : Vertex NodeLabel} {i j k r : ℕ}
  {rank rank' : ℕ → ℕ} {b : Bits} {op : Op} {new : List (Vertex NodeLabel)}

/-! ## Sweeps -/

/-- `CanonicalizeNode`. -/
def simplify (overlong : ℕ → BitVec 64) (f : NodeFunction) (i : ℕ) : Option (Option NodeFunction) :=
  match canonicalizeNode overlong f.nodes i with
  | none => none
  | some none => some none
  | some (some (g, r)) => (NodeFunction.replaceUsesWith ⟨g, f.implicitUses⟩ i r).map some

variable {f f' : NodeFunction} {s s' : Sweep}

theorem canonicalizeNode_eq_some
    (h : canonicalizeNode overlong g i = some (some (g', r))) : ∃ rewrite,
      rewriteNode overlong g i = some (some rewrite) ∧ g.makeNodes rewrite.newNodes = some g' ∧
        r = rewrite.replacement := by
  unfold canonicalizeNode at h
  split at h
  · cases h
  · cases h
  · rename_i rewrite hrewrite
    obtain ⟨g'', hmake, hresult⟩ := Option.map_eq_some_iff.mp h
    obtain ⟨rfl, rfl⟩ := Prod.mk.inj (Option.some.inj hresult)
    exact ⟨rewrite, hrewrite, hmake, rfl⟩

/-- A rewrite: the new nodes, and other uses. -/
theorem simplify_eq_some (h : simplify overlong f i = some (some f')) : ∃ rewrite g,
    rewriteNode overlong f.nodes i = some (some rewrite) ∧
      f.nodes.makeNodes rewrite.newNodes = some g ∧
      canonicalizeNode overlong f.nodes i = some (some (g, rewrite.replacement)) ∧
      f' = ⟨g.replaceUses i rewrite.replacement,
        f.implicitUses.map (TermGraph.redirect i rewrite.replacement)⟩ := by
  unfold simplify at h
  split at h
  · cases h
  · cases h
  · rename_i g r hcanonical
    obtain ⟨rewrite, hrewrite, hmake, rfl⟩ := canonicalizeNode_eq_some hcanonical
    obtain ⟨f'', hreplace, hresult⟩ := Option.map_eq_some_iff.mp h
    obtain rfl := Option.some.inj hresult
    unfold NodeFunction.replaceUsesWith at hreplace
    split at hreplace
    · exact ⟨rewrite, g, hrewrite, hmake, hcanonical, (Option.some.inj hreplace).symm⟩
    · cases hreplace

theorem typeOf_replaceUses : typeOf (g.replaceUses i j) k = g.typeOf k := by
  rw [typeOf, typeOf, TermGraph.vertex_replaceUses]
  rcases g.vertex k with - | n
  · rfl
  · rfl

/-- Other uses of the same type pass the checks. -/
theorem verified_replaceUses (hg : Verified g) (htype : g.typeOf r = g.typeOf i) :
    Verified (g.replaceUses i r) := by
  intro k n hn
  rw [TermGraph.vertex_replaceUses, Option.map_eq_some_iff] at hn
  obtain ⟨m, hm, rfl⟩ := hn
  obtain ⟨types, htypes, hlabel, hlength⟩ := verify_of_vertex hg hm
  refine verifyVertex_iff.mpr ⟨types, ?_, hlabel, ?_⟩
  · rw [List.forall₂_map_left_iff]
    refine htypes.imp fun o t ho => ?_
    rw [typeOf_replaceUses, TermGraph.redirect]
    split_ifs with hi
    · rw [htype, ← hi, ho]
    · exact ho
  · rw [List.length_map]
    exact hlength

theorem verified_of_rewrite (hg : Verified f.nodes)
    (h : simplify overlong f i = some (some f')) : Verified f'.nodes := by
  obtain ⟨rewrite, g, -, -, hcanonical, rfl⟩ := simplify_eq_some h
  have hgood : ¬ BadDefault overlong f.nodes i := by
    rintro hbad
    rw [canonicalizeNode_of_badDefault hg hbad] at hcanonical
    cases hcanonical
  obtain ⟨result, hresult, hreplaces, -⟩ := correct_of_not_badDefault hg hgood
  have hg' := hreplaces g rewrite.replacement (Option.some.inj (hresult.symm.trans hcanonical))
  exact verified_replaceUses hg'.verified hg'.type

/-- A rewrite without a failed check. -/
theorem simplify_of_replaces {g : NodeGraph}
    (h : canonicalizeNode overlong f.nodes i = some (some (g, r)))
    (hg : Replaces f.nodes i g r) : simplify overlong f i =
      some (some ⟨g.replaceUses i r, f.implicitUses.map (TermGraph.redirect i r)⟩) := by
  unfold simplify
  rw [h]
  show (NodeFunction.replaceUsesWith ⟨g, f.implicitUses⟩ i r).map some = _
  rw [NodeFunction.replaceUsesWith, if_pos hg.type.symm]
  rfl

theorem simplify_ne_none (hg : Verified f.nodes) (hgood : ¬ BadDefault overlong f.nodes i) :
    simplify overlong f i ≠ none := by
  obtain ⟨result, hresult, hreplaces, -⟩ := correct_of_not_badDefault hg hgood
  rcases result with - | ⟨g, r⟩
  · rw [simplify, hresult]
    exact Option.some_ne_none _
  · rw [simplify_of_replaces hresult (hreplaces g r rfl)]
    exact Option.some_ne_none _

/-- The node which is visited is a clamp of a literal at itself. -/
def AtSelfClamp (s : Sweep) : Prop :=
  ∃ i k op, visited s = some i ∧ matchClamp s.f.nodes i = some (k, k, op)

/-- The node which is visited has a default which the verifier does not take for a case. -/
def AtBadDefault (overlong : ℕ → BitVec 64) (s : Sweep) : Prop :=
  ∃ i, visited s = some i ∧ BadDefault overlong s.f.nodes i

/-! ## Sweeps which end -/

/-- What the sweeps keep: the rewritten nodes are dead. -/
structure Progress (s : Sweep) (rank : ℕ → ℕ) : Prop where
  verified : Verified s.f.nodes
  ranked : Ranked s.f.nodes rank
  simplified : ∀ k ∈ s.simplifiedNodeIds,
    k < s.f.nodes.length ∧ ¬ s.f.nodes.Uses k ∧ k ∉ s.f.implicitUses
  inRange : ∀ i, s.nodeIt = some i → i < s.f.nodes.length

/-- The nodes which are left of a sweep. -/
def remaining (s : Sweep) : ℕ := (s.nodeIt.map fun i => s.f.nodes.length - i).getD 0

/-- What is left: rewrites, then sweeps, then nodes of a sweep. -/
noncomputable def toGo (s : Sweep) (rank : ℕ → ℕ) : ℕ ×ₗ ℕ ×ₗ ℕ :=
  toLex (total s.f.nodes rank s.simplifiedNodeIds, toLex (s.changedThisTime.toNat, remaining s))

/-- A visited node was not rewritten before. -/
theorem Progress.not_mem (h : Progress s rank) (hi : visited s = some i) :
    i ∉ s.simplifiedNodeIds := by
  intro hmem
  obtain ⟨-, huses, himplicit⟩ := h.simplified i hmem
  obtain ⟨-, hlive⟩ := visited_eq_some.mp hi
  rw [NodeFunction.isDead_iff.mpr ⟨huses, himplicit⟩, decide_eq_true hmem] at hlive
  cases hlive

theorem Ranked.replaceUses (h : Ranked g rank) (hrank : rank r ≤ rank i) :
    Ranked (g.replaceUses i r) rank := by
  constructor
  · intro k n hn o ho
    rw [TermGraph.vertex_replaceUses, Option.map_eq_some_iff] at hn
    obtain ⟨m, hm, rfl⟩ := hn
    obtain ⟨o', ho', rfl⟩ := List.mem_map.mp ho
    have hlt := h.operands k m hm o' ho'
    rw [TermGraph.redirect]
    split_ifs with hi
    · rw [hi] at hlt
      exact hrank.trans_lt hlt
    · exact hlt
  · intro k hk
    rw [isLiteral_replaceUses] at hk
    exact h.literal k hk

/-- The uses after a rewrite. -/
theorem uses_replaceUses {o : ℕ} (h : TermGraph.Uses (g.replaceUses i r) o) :
    o ≠ i ∧ g.Uses o ∨ o = r := by
  obtain ⟨k, n, hn, ho⟩ := h
  rw [TermGraph.vertex_replaceUses, Option.map_eq_some_iff] at hn
  obtain ⟨m, hm, rfl⟩ := hn
  obtain ⟨o', ho', rfl⟩ := List.mem_map.mp ho
  rw [TermGraph.redirect]
  split_ifs with hi
  · exact Or.inr rfl
  · exact Or.inl ⟨hi, k, m, hm, ho'⟩

/-- The rewritten node stays as it was before its uses are replaced. -/
theorem Spent.not_settled {used : ℕ → Prop} {bound left : ℕ}
    (h : Spent used r bound left g rank g' rank') (hg : g.Bounded) (hi : i < g.length)
    (hsettled : ∀ n, g.vertex i = some n → ¬ Settled g n) :
    ∀ n, g'.vertex i = some n → ¬ Settled g' n := by
  intro n hn hform
  rw [h.vertices i hi] at hn
  refine hsettled n hn (hform.imp_right ?_)
  rintro ⟨op, t, x, k, rfl, hop, hk⟩
  refine ⟨op, t, x, k, rfl, hop, ?_⟩
  have hlt : k < g.length := hg i _ hn k (List.mem_cons_of_mem _ (List.mem_singleton.mpr rfl))
  obtain ⟨v, t', operands, hvertex⟩ := isLiteral_iff.mp hk
  rw [h.vertices k hlt] at hvertex
  exact isLiteral_iff.mpr ⟨v, t', operands, hvertex⟩

/-- A rewrite spends something. -/
theorem Progress.of_rewrite (h : Progress s rank) (hi : visited s = some i)
    (hclamp : ¬ AtSelfClamp s) (hsimplify : simplify overlong s.f i = some (some f')) :
    ∃ rank', Progress ⟨f', i :: s.simplifiedNodeIds, s.f.nodeFrom (i + 1), true, true⟩ rank' ∧
      total f'.nodes rank' (i :: s.simplifiedNodeIds) <
        total s.f.nodes rank s.simplifiedNodeIds := by
  have hverified := verified_of_rewrite h.verified hsimplify
  obtain ⟨rewrite, g, hrewrite, hmake, -, rfl⟩ := simplify_eq_some hsimplify
  have hspends := spends_rewrite h.verified h.ranked hrewrite
    fun k op hmatch => hclamp ⟨i, k, op, hi, hmatch⟩
  obtain ⟨rank', hspent⟩ := hspends.spent h.verified h.ranked hmake
  have hlt : i < s.f.nodes.length := h.inRange i (visited_eq_some.mp hi).1
  have hle := hspent.le
  have hrank : rank' rewrite.replacement ≤ rank' i := by
    rw [hspent.old i hlt]
    exact hspent.bound
  have hne : ∀ k ∈ s.simplifiedNodeIds, rewrite.replacement ≠ k := by
    rintro k hk rfl
    obtain ⟨hk', huses, -⟩ := h.simplified _ hk
    rcases hspent.replacement with hused | hge
    · exact huses hused
    · omega
  have hnei := replacement_ne h.ranked hrewrite
  refine ⟨rank', ⟨hverified, hspent.ranked.replaceUses hrank, ?_, ?_⟩, ?_⟩
  · -- the old node has lost its uses, and the others had none
    intro k hk
    rw [TermGraph.length_replaceUses]
    rcases List.mem_cons.mp hk with rfl | hk
    · refine ⟨by omega, TermGraph.not_uses_replaceUses hnei.symm, ?_⟩
      intro hmem
      obtain ⟨o, -, ho⟩ := List.mem_map.mp hmem
      rw [TermGraph.redirect] at ho
      split_ifs at ho with hoi
      · exact hnei ho
      · exact hoi ho
    · obtain ⟨hk', huses, himplicit⟩ := h.simplified k hk
      refine ⟨by omega, ?_, ?_⟩
      · intro huses'
        rcases uses_replaceUses huses' with ⟨-, huses'⟩ | hr
        · rcases hspent.uses k huses' with hold | hold | hge
          · exact huses hold
          · exact huses hold
          · omega
        · exact hne k hk hr.symm
      · intro hmem
        obtain ⟨o, ho, hok⟩ := List.mem_map.mp hmem
        rw [TermGraph.redirect] at hok
        split_ifs at hok with hoi
        · exact hne k hk hok
        · exact himplicit (hok ▸ ho)
  · intro j hj
    obtain ⟨-, hj', -⟩ := NodeFunction.nodeFrom_eq_some hj
    rw [TermGraph.length_replaceUses]
    omega
  · have hsettled : ∀ n, g.vertex i = some n → ¬ Settled g n :=
      hspent.not_settled h.verified.bounded hlt fun n hn => not_settled_of_rewrite hn hrewrite
    have hlast := total_replaceUses_le hsettled hrank (by omega) (h.not_mem hi)
    have hmade := hspent.total s.simplifiedNodeIds
    rw [hspent.costs i hlt] at hlast
    show total (g.replaceUses i rewrite.replacement) rank' (i :: s.simplifiedNodeIds) < _
    omega

theorem remaining_of_some {i : ℕ} (hit : s.nodeIt = some i) :
    remaining s = s.f.nodes.length - i := by
  rw [remaining, hit]
  rfl

/-- What is left after the first position of the rest of a sweep. -/
theorem remaining_next_lt (hit : s.nodeIt = some i) (hi : i < s.f.nodes.length) :
    remaining { s with nodeIt := s.f.nodeFrom (i + 1) } < remaining s := by
  rw [remaining_of_some hit]
  rcases hnext : s.f.nodeFrom (i + 1) with - | j
  · show 0 < _
    omega
  · obtain ⟨hij, hj, -⟩ := NodeFunction.nodeFrom_eq_some hnext
    show s.f.nodes.length - j < _
    omega

/-- A round leaves less. -/
theorem Progress.step (h : Progress s rank) (hclamp : ¬ AtSelfClamp s)
    (hstep : OptimizationPass.step (simplify overlong) s = .inl s') :
    ∃ rank', Progress s' rank' ∧ toGo s' rank' < toGo s rank := by
  rcases step_cases hstep with ⟨hit, hchanged, rfl⟩ | ⟨i, hit, rfl⟩ | ⟨i, f', hi, hsimplify, rfl⟩
  · -- the next sweep
    refine ⟨rank, ⟨h.verified, h.ranked, h.simplified, ?_⟩, ?_⟩
    · intro i hi
      exact (NodeFunction.nodeFrom_eq_some hi).2.1
    · rw [toGo, toGo, hchanged, Prod.Lex.toLex_lt_toLex]
      refine Or.inr ⟨rfl, ?_⟩
      rw [Prod.Lex.toLex_lt_toLex]
      exact Or.inl Nat.one_pos
  · -- the next node
    refine ⟨rank, ⟨h.verified, h.ranked, h.simplified, ?_⟩, ?_⟩
    · intro j hj
      exact (NodeFunction.nodeFrom_eq_some hj).2.1
    · rw [toGo, toGo, Prod.Lex.toLex_lt_toLex]
      refine Or.inr ⟨rfl, ?_⟩
      rw [Prod.Lex.toLex_lt_toLex]
      exact Or.inr ⟨rfl, remaining_next_lt hit (h.inRange i hit)⟩
  · obtain ⟨rank', hprogress, hless⟩ := h.of_rewrite hi hclamp hsimplify
    refine ⟨rank', hprogress, ?_⟩
    rw [toGo, toGo, Prod.Lex.toLex_lt_toLex]
    exact Or.inl hless

/-- Without clamps of a literal at itself the sweeps end. -/
theorem ends_of_no_selfClamp (hs : Progress s rank)
    (h : ∀ t, StepLoop.Reaches (step (simplify overlong)) s t → ¬ AtSelfClamp t) :
    StepLoop.Ends (step (simplify overlong)) s := by
  refine StepLoop.ends_of_lt (P := fun t a => ∃ rank, Progress t rank ∧ a = toGo t rank ∧
    StepLoop.Reaches (step (simplify overlong)) s t) ?_ (a := toGo s rank) ⟨rank, hs, rfl, .refl⟩
  rintro t a t' ⟨rank, ht, rfl, hreach⟩ hstep
  obtain ⟨rank', ht', hless⟩ := ht.step (h t hreach) hstep
  exact ⟨_, hless, rank', ht', rfl, hreach.tail hstep⟩

/-- Literals have no operands and may come first. -/
theorem exists_ranked (hg : Verified g) (h : g.IsAcyclic) : ∃ rank, Ranked g rank := by
  obtain ⟨rank, hrank⟩ := h
  refine ⟨fun k => if isLiteral g k then 0 else rank k + 1, ?_, ?_⟩
  · intro k n hn o ho
    have hlt := hrank k n hn o ho
    have hk : isLiteral g k ≠ true := by
      intro hliteral
      obtain ⟨v, t, operands, hvertex⟩ := isLiteral_iff.mp hliteral
      obtain rfl := Option.some.inj (hn.symm.trans hvertex)
      obtain ⟨types, htypes, hlabel, -⟩ := verify_of_vertex hg hn
      have hverify : (types.isEmpty && v.conformsToType t) = true := hlabel
      obtain rfl := List.isEmpty_iff.mp (Bool.and_eq_true_iff.mp hverify).1
      cases htypes
      cases ho
    beta_reduce
    split_ifs <;> omega
  · intro k hk
    simp only [hk, if_true]

theorem progress_start (hg : Verified f.nodes) (h : f.nodes.IsAcyclic) :
    ∃ rank, Progress (start f) rank := by
  obtain ⟨rank, hrank⟩ := exists_ranked hg h
  refine ⟨rank, hg, hrank, fun k hk => ?_, fun i hi => (NodeFunction.nodeFrom_eq_some hi).2.1⟩
  cases hk

/-! ## Sweeps which do not end -/

/-- A clamp of a literal at itself is about to be visited, in this sweep or in the next one. -/
structure Pending (s : Sweep) (j c k w : ℕ) (op : Op) (b : Bits) : Prop where
  select : s.f.nodes.vertex j = some ⟨⟨.logic (.core (.sel false)), .bits w⟩, [c, k, k]⟩
  compare : s.f.nodes.vertex c = some ⟨⟨.logic (.core op), .bits 1⟩, [k, k]⟩
  strict : op = .ugt ∨ op = .ult
  literal : literalBits s.f.nodes k = some b
  fresh : j ∉ s.simplifiedNodeIds
  simplified : ∀ x ∈ s.simplifiedNodeIds, x < s.f.nodes.length
  ahead : s.changedThisTime = true ∨ ∃ i, s.nodeIt = some i ∧ i ≤ j

theorem areEqualLiterals_self (h : literalBits g k = some b) : areEqualLiterals g k k = true := by
  rw [areEqualLiterals, h]
  exact decide_eq_true rfl

/-- The clamp of a literal at itself is of the other form. -/
theorem clampForm_self (hop : op = .ugt ∨ op = .ult) (h : literalBits g k = some b) :
    ∃ op', clampForm g op k k k k = some (k, op') ∧ (op' = .ugt ∨ op' = .ult) := by
  have hequal := areEqualLiterals_self h
  have hsequential : areSequentialLiterals g k k = false := areSequentialLiterals_self
  rcases hop with rfl | rfl
  · simp [clampForm, hequal, hsequential]
  · refine ⟨.ugt, ?_, Or.inl rfl⟩
    simp [clampForm, hequal]

theorem matchClamp_self {j c w : ℕ}
    (hselect : g.vertex j = some ⟨⟨.logic (.core (.sel false)), .bits w⟩, [c, k, k]⟩)
    (hcompare : g.vertex c = some ⟨⟨.logic (.core op), .bits 1⟩, [k, k]⟩)
    (hop : op = .ugt ∨ op = .ult) (h : literalBits g k = some b) :
    ∃ op', matchClamp g j = some (k, k, op') := by
  obtain ⟨op', hform, -⟩ := clampForm_self hop h
  refine ⟨op', ?_⟩
  have hwidth : bitCountOrDie g j = some w :=
    bitCountOrDie_eq_some.mpr (typeOf_of_vertex hselect)
  have hparts : asSelect g j = some (c, [k, k], none) := by
    rw [asSelect, hselect]
    rfl
  rw [matchClamp, hwidth, hparts]
  simp only [hcompare, hform]
  rfl

/-- A visited clamp is rewritten by its rule. -/
theorem rewriteNode_clamp (hg : Verified g) {a : ℕ} (hmatch : matchClamp g i = some (a, k, op)) :
    ∃ t, g.typeOf a = some t ∧ rewriteNode overlong g i =
      some (some ⟨[compareNode op a k, selectNode t g.length [a, k]], g.length + 1⟩) := by
  obtain ⟨selector, d, c, default, cmp, type, b, hselect, hcmp, hform⟩ := matchClamp_eq_some hmatch
  obtain ⟨s, t, ha, -, hverify⟩ := verify_two hg hcmp
  obtain ⟨-, rfl⟩ := (verifyLabel_compare
    (opIsCompare_strict (clampForm_spec hform).strict)).mp hverify
  obtain ⟨-, type, hway⟩ := two_way hg hselect (Or.inr (typeOf_of_vertex hcmp))
  refine ⟨s, ha, ?_⟩
  have hvertex := hway.vertex
  have hcommute : commuteOperands g i = none := by
    unfold commuteOperands
    rw [hvertex]
  have hcompare : commuteComparison g i = none := by
    unfold commuteComparison
    rw [hvertex]
  have hstrict : strictComparison g i = none := by
    unfold strictComparison
    rw [hvertex]
  have hclamp : canonicalizeClamp g i =
      some ⟨[compareNode op a k, selectNode s g.length [a, k]], g.length + 1⟩ := by
    rw [canonicalizeClamp, hmatch, Option.bind_eq_bind]
    show (g.typeOf a).bind _ = _
    rw [ha]
    rfl
  unfold rewriteNode
  rw [hcommute, hcompare, hstrict, hclamp]
  rfl

theorem literalBits_make (h : literalBits g k = some b) : literalBits (g.make m) k = some b := by
  obtain ⟨v, hv, hb⟩ := Option.bind_eq_some_iff.mp h
  obtain ⟨t, operands, hvertex⟩ := literalValue_eq_some hv
  rw [literalBits, literalValue, vertex_make hvertex]
  exact hb

theorem literalBits_replaceUses : literalBits (g.replaceUses i j) k = literalBits g k := by
  rw [literalBits, literalBits, literalValue, literalValue, TermGraph.vertex_replaceUses]
  rcases hn : g.vertex k with - | n
  · rfl
  · rcases n with ⟨⟨op, t⟩, operands⟩
    by_cases hop : ∃ v, op = .logic (.core (.literal v))
    · obtain ⟨v, rfl⟩ := hop
      rfl
    · push Not at hop
      split
      · rename_i v t' operands' hform
        cases hform
        exact absurd rfl (hop v)
      · split
        · rename_i v t' operands' hform
          cases hform
          exact absurd rfl (hop v)
        · rfl

/-- A node whose operands are not replaced. -/
theorem vertex_replaceUses_of_ne (hn : g.vertex k = some n) (h : i ∉ n.operands) :
    (g.replaceUses i j).vertex k = some n := by
  rw [TermGraph.vertex_replaceUses, hn, Option.map_some]
  have hoperands : n.operands.map (TermGraph.redirect i j) = n.operands.map id := by
    apply List.map_congr_left
    intro o ho
    rw [TermGraph.redirect, if_neg, id]
    rintro rfl
    exact h ho
  rw [hoperands, List.map_id]

/-- A clamp of a literal at itself is followed by another one. -/
theorem pending_of_selfClamp (hg : Verified s.f.nodes) (hclamp : AtSelfClamp s)
    (hsimplified : ∀ x ∈ s.simplifiedNodeIds, x < s.f.nodes.length) :
    ∃ s', step (simplify overlong) s = .inl s' ∧ ∃ j c k w op b, Pending s' j c k w op b := by
  obtain ⟨i, k, op, hi, hmatch⟩ := hclamp
  obtain ⟨t, ht, hrewrite⟩ := rewriteNode_clamp hg hmatch
  obtain ⟨selector, d, c, default, cmp, type, b, hselect, hcmp, hform⟩ := matchClamp_eq_some hmatch
  obtain ⟨-, hstrict, m, x, -, hx, -⟩ := clampForm_spec hform
  obtain ⟨hasDefault, type', arms, hvertex, -⟩ := vertex_of_asSelect hselect
  have hlt := TermGraph.lt_length_of_vertex hvertex
  have hklt : k < s.f.nodes.length := hg.bounded selector _ hcmp k (List.mem_cons_self ..)
  -- the literal is not the select
  have hki : i ≠ k := by
    rintro rfl
    obtain ⟨v, hv, -⟩ := Option.bind_eq_some_iff.mp hx
    obtain ⟨t', operands, hliteral⟩ := literalValue_eq_some hv
    cases hvertex.symm.trans hliteral
  obtain rfl : t = .bits x.bitCount :=
    Option.some.inj (ht.symm.trans (literalBits_spec hg hx).1)
  have hrule : canonicalizeClamp s.f.nodes i = some ⟨[compareNode op k k,
      selectNode (.bits x.bitCount) s.f.nodes.length [k, k]], s.f.nodes.length + 1⟩ := by
    rw [canonicalizeClamp, hmatch, Option.bind_eq_bind]
    show (s.f.nodes.typeOf k).bind _ = _
    rw [ht]
    rfl
  obtain ⟨g, hmake, hreplaces⟩ := (sound_canonicalizeClamp hg hrule).replaces hg
  have hcanonical : canonicalizeNode overlong s.f.nodes i =
      some (some (g, s.f.nodes.length + 1)) := by
    rw [canonicalizeNode, hrewrite]
    simp only [hmake]
    rfl
  have hstep := step_of_rewrite hi (simplify_of_replaces hcanonical hreplaces)
  refine ⟨_, hstep, s.f.nodes.length + 1, s.f.nodes.length, k, x.bitCount, op, x, ?_⟩
  -- the two new nodes
  have hg' : g = (s.f.nodes.make (compareNode op k k)).make
      (selectNode (.bits x.bitCount) s.f.nodes.length [k, k]) := by
    simp only [makeNodes] at hmake
    split at hmake
    · split at hmake
      · exact (Option.some.inj hmake).symm
      · cases hmake
    · cases hmake
  have hlength : (s.f.nodes.make (compareNode op k k)).length = s.f.nodes.length + 1 :=
    TermGraph.length_make
  have hcompareNew : g.vertex s.f.nodes.length = some (compareNode op k k) := by
    rw [hg', TermGraph.vertex_make_of_ne (by omega), TermGraph.vertex_make_length]
  have hselectNew : g.vertex (s.f.nodes.length + 1) =
      some (selectNode (.bits x.bitCount) s.f.nodes.length [k, k]) := by
    rw [hg', ← hlength, TermGraph.vertex_make_length]
  refine ⟨?_, ?_, hstrict, ?_, ?_, ?_, Or.inl rfl⟩
  · apply vertex_replaceUses_of_ne hselectNew
    intro hmem
    rcases List.mem_cons.mp hmem with rfl | hmem
    · omega
    · rcases List.mem_cons.mp hmem with rfl | hmem
      · exact hki rfl
      · exact hki (List.mem_singleton.mp hmem)
  · apply vertex_replaceUses_of_ne hcompareNew
    intro hmem
    rcases List.mem_cons.mp hmem with rfl | hmem
    · exact hki rfl
    · exact hki (List.mem_singleton.mp hmem)
  · rw [literalBits_replaceUses, hg']
    exact literalBits_make (literalBits_make hx)
  · intro hmem
    rcases List.mem_cons.mp hmem with heq | hmem
    · omega
    · have := hsimplified _ hmem
      omega
  · intro y hy
    rw [TermGraph.length_replaceUses, hg', TermGraph.length_make]
    rcases List.mem_cons.mp hy with rfl | hy
    · omega
    · have := hsimplified y hy
      omega

theorem vertex_makeNodes (hmake : g.makeNodes new = some g') (hn : g.vertex k = some n) :
    g'.vertex k = some n := by
  induction new generalizing g with
  | nil => exact Option.some.inj hmake ▸ hn
  | cons m rest ih =>
    rw [makeNodes] at hmake
    split at hmake
    · exact ih hmake (vertex_make hn)
    · cases hmake

theorem length_le_makeNodes (hmake : g.makeNodes new = some g') : g.length ≤ g'.length := by
  induction new generalizing g with
  | nil => exact Option.some.inj hmake ▸ le_rfl
  | cons m rest ih =>
    rw [makeNodes] at hmake
    split at hmake
    · have hle := ih hmake
      rw [TermGraph.length_make] at hle
      omega
    · cases hmake

theorem literalBits_of_vertex (h : literalBits g k = some b)
    (hvertices : ∀ n, g.vertex k = some n → g'.vertex k = some n) : literalBits g' k = some b := by
  obtain ⟨v, hv, hb⟩ := Option.bind_eq_some_iff.mp h
  obtain ⟨t, operands, hvertex⟩ := literalValue_eq_some hv
  rw [literalBits, literalValue, hvertices _ hvertex]
  exact hb

/-- The clamp stays, or is followed by another one. -/
theorem Pending.step {j c k w : ℕ} (h : Pending s j c k w op b) (hg : Verified s.f.nodes)
    (hgood : ¬ AtBadDefault overlong s) :
    ∃ s', OptimizationPass.step (simplify overlong) s = .inl s' ∧
      ∃ j c k w op b, Pending s' j c k w op b := by
  have hj : (s.f.nodes.vertex j).isSome := by
    rw [h.select]
    rfl
  have hlt := TermGraph.lt_length_of_vertex h.select
  -- the clamp which is passed in this sweep is in the next one
  have hahead : ∀ i, s.nodeIt = some i → i ≠ j → s.changedThisTime = true ∨
      ∃ i', s.f.nodeFrom (i + 1) = some i' ∧ i' ≤ j := by
    intro i hit hij
    refine h.ahead.imp_right ?_
    rintro ⟨i', hit', hle⟩
    obtain rfl := Option.some.inj (hit.symm.trans hit')
    exact NodeFunction.nodeFrom_le hj (by omega)
  rcases hit : s.nodeIt with - | i
  · have hchanged : s.changedThisTime = true := by
      rcases h.ahead with hchanged | ⟨i, hit', -⟩
      · exact hchanged
      · cases hit.symm.trans hit'
    refine ⟨_, step_of_none hit hchanged, j, c, k, w, op, b, h.select, h.compare, h.strict,
      h.literal, h.fresh, h.simplified, Or.inr ?_⟩
    exact NodeFunction.nodeFrom_le hj (Nat.zero_le j)
  · by_cases hij : i = j
    · subst hij
      obtain ⟨op', hmatch⟩ := matchClamp_self h.select h.compare h.strict h.literal
      have hvisited : visited s = some i := by
        rw [visited_eq_some, decide_eq_false h.fresh, Bool.and_false]
        exact ⟨hit, rfl⟩
      exact pending_of_selfClamp hg ⟨i, k, op', hvisited, hmatch⟩ h.simplified
    by_cases hpass : visited s = some i → simplify overlong s.f i = some none
    · exact ⟨_, step_of_pass hit hpass, j, c, k, w, op, b, h.select, h.compare, h.strict,
        h.literal, h.fresh, h.simplified, hahead i hit hij⟩
    · obtain ⟨hi, hsimplify⟩ := Classical.not_imp.mp hpass
      have hsome : simplify overlong s.f i ≠ none :=
        simplify_ne_none hg fun hbad => hgood ⟨i, hi, hbad⟩
      rcases hresult : simplify overlong s.f i with - | - | f'
      · exact absurd hresult hsome
      · exact absurd hresult hsimplify
      · refine ⟨_, step_of_rewrite hi hresult, j, c, k, w, op, b, ?_⟩
        obtain ⟨rewrite, g, hrewrite, hmake, -, rfl⟩ := simplify_eq_some hresult
        -- the comparison and the literal are not rewritten
        have hic : i ≠ c := by
          rintro rfl
          refine not_settled_of_rewrite h.compare hrewrite ?_
          exact Or.inr ⟨op, .bits 1, k, k, rfl, h.strict, isLiteral_of_literalBits h.literal⟩
        have hik : i ≠ k := by
          rintro rfl
          obtain ⟨v, t, operands, hvertex⟩ :=
            isLiteral_iff.mp (isLiteral_of_literalBits h.literal)
          exact not_settled_of_rewrite hvertex hrewrite (Or.inl ⟨v, rfl⟩)
        refine ⟨?_, ?_, h.strict, ?_, ?_, ?_, Or.inl rfl⟩
        · apply vertex_replaceUses_of_ne (vertex_makeNodes hmake h.select)
          simp only [List.mem_cons, List.not_mem_nil, or_false, not_or]
          exact ⟨hic, hik, hik⟩
        · apply vertex_replaceUses_of_ne (vertex_makeNodes hmake h.compare)
          simp only [List.mem_cons, List.not_mem_nil, or_false, not_or]
          exact ⟨hik, hik⟩
        · rw [literalBits_replaceUses]
          exact literalBits_of_vertex h.literal fun n hn => vertex_makeNodes hmake hn
        · intro hmem
          rcases List.mem_cons.mp hmem with rfl | hmem
          · exact hij rfl
          · exact h.fresh hmem
        · have hle := length_le_makeNodes hmake
          have hilt := lt_length_of_rewrite hrewrite
          intro y hy
          rw [TermGraph.length_replaceUses]
          rcases List.mem_cons.mp hy with rfl | hy
          · omega
          · have := h.simplified y hy
            omega

theorem verified_of_step (hg : Verified s.f.nodes)
    (hstep : OptimizationPass.step (simplify overlong) s = .inl s') : Verified s'.f.nodes := by
  rcases step_cases hstep with ⟨-, -, rfl⟩ | ⟨i, -, rfl⟩ | ⟨i, f', -, hsimplify, rfl⟩
  · exact hg
  · exact hg
  · exact verified_of_rewrite hg hsimplify

/-- The states on the way are verified, and rewritten nodes are nodes. -/
theorem keeps_of_reaches (hg : Verified f.nodes)
    (hreach : StepLoop.Reaches (step (simplify overlong)) (start f) s) :
    Verified s.f.nodes ∧ ∀ x ∈ s.simplifiedNodeIds, x < s.f.nodes.length := by
  refine StepLoop.Reaches.invariant (P := fun s => Verified s.f.nodes ∧
    ∀ x ∈ s.simplifiedNodeIds, x < s.f.nodes.length) hreach ⟨hg, fun x hx => ?_⟩ ?_
  · cases hx
  · rintro t t' ⟨hverified, hsimplified⟩ hstep
    refine ⟨verified_of_step hverified hstep, ?_⟩
    rcases step_cases hstep with ⟨-, -, rfl⟩ | ⟨i, -, rfl⟩ | ⟨i, f', -, hsimplify, rfl⟩
    · exact hsimplified
    · exact hsimplified
    · obtain ⟨rewrite, g, hrewrite, hmake, -, rfl⟩ := simplify_eq_some hsimplify
      have hlt := lt_length_of_rewrite hrewrite
      have hle := length_le_makeNodes hmake
      intro x hx
      rw [TermGraph.length_replaceUses]
      rcases List.mem_cons.mp hx with rfl | hx
      · omega
      · have := hsimplified x hx
        omega

theorem ends_of_badDefault (hg : Verified s.f.nodes) (h : AtBadDefault overlong s) :
    StepLoop.Ends (step (simplify overlong)) s := by
  obtain ⟨i, hi, hbad⟩ := h
  refine StepLoop.ends_of_inr (step_of_failure hi ?_)
  rw [simplify, canonicalizeNode_of_badDefault hg hbad]

/-- A pending clamp is rewritten for ever, unless a check fails on the way. -/
theorem not_ends_of_pending {j c k w : ℕ} (hg : Verified s.f.nodes) (h : Pending s j c k w op b)
    (hgood : ∀ t, StepLoop.Reaches (step (simplify overlong)) s t → ¬ AtBadDefault overlong t) :
    ¬ StepLoop.Ends (step (simplify overlong)) s := by
  refine StepLoop.not_ends_of_invariant (P := fun t => Verified t.f.nodes ∧
    (∃ j c k w op b, Pending t j c k w op b) ∧
    StepLoop.Reaches (step (simplify overlong)) s t) ?_ ⟨hg, ⟨j, c, k, w, op, b, h⟩, .refl⟩
  rintro t ⟨ht, ⟨j, c, k, w, op, b, hpending⟩, hreach⟩
  obtain ⟨t', hstep, hpending'⟩ := hpending.step ht (hgood t hreach)
  exact ⟨t', hstep, verified_of_step ht hstep, hpending', hreach.tail hstep⟩

/-! ## Functions without defaults -/

/-- No select has a default. -/
def NoDefault (g : NodeGraph) : Prop :=
  ∀ k n, g.vertex k = some n → n.label.op ≠ .logic (.core (.sel true))

theorem NoDefault.not_badDefault (h : NoDefault g) : ¬ BadDefault overlong g i := by
  rintro ⟨selector, cases, default, w, hsingle, -⟩
  obtain ⟨hasDefault, type, arms, hvertex, -, hdefault⟩ :=
    vertex_of_asSelect (singleDefault_eq_some.mp hsingle).1
  cases hasDefault with
  | false => cases hdefault
  | true => exact h i _ hvertex rfl

theorem NoDefault.makeNodes (h : NoDefault g)
    (hnew : ∀ n ∈ new, n.label.op ≠ .logic (.core (.sel true))) (hmake : g.makeNodes new = some g') :
    NoDefault g' := by
  induction new generalizing g with
  | nil => exact Option.some.inj hmake ▸ h
  | cons m rest ih =>
    rw [NodeGraph.makeNodes] at hmake
    split at hmake
    · refine ih ?_ (fun n hn => hnew n (List.mem_cons_of_mem _ hn)) hmake
      intro k n hn
      by_cases hk : k = g.length
      · subst hk
        rw [TermGraph.vertex_make_length, Option.some.injEq] at hn
        exact hn ▸ hnew m (List.mem_cons_self ..)
      · rw [TermGraph.vertex_make_of_ne hk] at hn
        exact h k n hn
    · cases hmake

/-- Without defaults no check fails. -/
theorem NoDefault.not_atBadDefault (h : NoDefault f.nodes)
    (hreach : StepLoop.Reaches (step (simplify overlong)) (start f) s) :
    ¬ AtBadDefault overlong s := by
  have hkept : NoDefault s.f.nodes := by
    refine StepLoop.Reaches.invariant (P := fun s => NoDefault s.f.nodes) hreach h ?_
    intro t t' ht hstep
    rcases step_cases hstep with ⟨-, -, rfl⟩ | ⟨i, -, rfl⟩ | ⟨i, f', -, hsimplify, rfl⟩
    · exact ht
    · exact ht
    · obtain ⟨rewrite, g, hrewrite, hmake, -, rfl⟩ := simplify_eq_some hsimplify
      intro k n hn
      rw [TermGraph.vertex_replaceUses, Option.map_eq_some_iff] at hn
      obtain ⟨m, hm, rfl⟩ := hn
      exact ht.makeNodes (rewrites_of_rewriteNode hrewrite).noDefault hmake k m hm
  rintro ⟨i, -, hbad⟩
  exact hkept.not_badDefault hbad

/-! ## The loop -/

/-- The rounds of the loop end exactly when no clamp of a literal at itself is visited, or when the
verifier does not take a default for a case. -/
theorem transformNodesToFixedPoint_ends_iff (overlong : ℕ → BitVec 64) {f : NodeFunction}
    (hg : Verified f.nodes) (hacyclic : f.nodes.IsAcyclic) :
    (∃ rounds result, transformNodesToFixedPoint (simplify overlong) rounds f = some result) ↔
      (∀ s, StepLoop.Reaches (step (simplify overlong)) (start f) s → ¬ AtSelfClamp s) ∨
        ∃ s, StepLoop.Reaches (step (simplify overlong)) (start f) s ∧ AtBadDefault overlong s := by
  show StepLoop.Ends (step (simplify overlong)) (start f) ↔ _
  constructor
  · intro hends
    by_contra hcontra
    obtain ⟨hclamp, hgood⟩ := not_or.mp hcontra
    push Not at hclamp hgood
    obtain ⟨s, hreach, hs⟩ := hclamp
    obtain ⟨hverified, hsimplified⟩ := keeps_of_reaches hg hreach
    obtain ⟨s', hstep, j, c, k, w, op, b, hpending⟩ :=
      pending_of_selfClamp hverified hs hsimplified
    have hends' := (StepLoop.Reaches.ends_iff (hreach.tail hstep)).mp hends
    exact not_ends_of_pending (verified_of_step hverified hstep) hpending
      (fun t ht => hgood t ((hreach.tail hstep).trans ht)) hends'
  · rintro (hclamp | ⟨s, hreach, hs⟩)
    · obtain ⟨rank, hprogress⟩ := progress_start hg hacyclic
      exact ends_of_no_selfClamp hprogress hclamp
    · -- a check fails
      obtain ⟨hverified, -⟩ := keeps_of_reaches hg hreach
      exact (StepLoop.Reaches.ends_iff hreach).mpr (ends_of_badDefault hverified hs)

/-- A literal which is clamped at itself. -/
def selfClamp : NodeFunction :=
  ⟨[some (literalNode (Bits.ofNat 8 5)), some (compareNode .ugt 0 0),
    some (selectNode (.bits 8) 1 [0, 0])], [2]⟩

theorem selfClamp_verified : Verified selfClamp.nodes := by
  intro k n hn
  have hk : k < 3 := TermGraph.lt_length_of_vertex hn
  interval_cases k <;> (obtain rfl := Option.some.inj hn; rfl)

theorem selfClamp_acyclic : selfClamp.nodes.IsAcyclic := by
  refine ⟨id, ?_⟩
  intro k n hn
  have hk : k < 3 := TermGraph.lt_length_of_vertex hn
  interval_cases k <;> (obtain rfl := Option.some.inj hn; decide)

theorem selfClamp_noDefault : NoDefault selfClamp.nodes := by
  intro k n hn
  have hk : k < 3 := TermGraph.lt_length_of_vertex hn
  interval_cases k <;> (obtain rfl := Option.some.inj hn; decide)

theorem selfClamp_ends_iff :
    (∃ rounds result, transformNodesToFixedPoint (simplify shiftModulo) rounds selfClamp =
      some result) ↔
      (∀ s, StepLoop.Reaches (step (simplify shiftModulo)) (start selfClamp) s → ¬ AtSelfClamp s) ∨
        ∃ s, StepLoop.Reaches (step (simplify shiftModulo)) (start selfClamp) s ∧
          AtBadDefault shiftModulo s :=
  transformNodesToFixedPoint_ends_iff shiftModulo selfClamp_verified selfClamp_acyclic

/-- `x > K ? x : K` and `x < K ? x : K` alternate when `x` is `K`. -/
theorem selfClamp_not_ends : Verified selfClamp.nodes ∧ selfClamp.nodes.IsAcyclic ∧
    ¬ ∃ rounds result,
      transformNodesToFixedPoint (simplify shiftModulo) rounds selfClamp = some result := by
  refine ⟨selfClamp_verified, selfClamp_acyclic, ?_⟩
  have hpending : Pending (start selfClamp) 2 1 0 8 .ugt (Bits.ofNat 8 5) := by
    refine ⟨rfl, rfl, Or.inl rfl, rfl, ?_, ?_, Or.inr ⟨0, rfl, Nat.zero_le 2⟩⟩
    · exact List.not_mem_nil
    · intro x hx
      cases hx
  exact not_ends_of_pending selfClamp_verified hpending
    fun t ht => selfClamp_noDefault.not_atBadDefault ht

end Canonicalization

end Xls
