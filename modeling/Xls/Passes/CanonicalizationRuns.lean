/-
# Canonicalization keeps what a function computes

The sweeps of `TransformNodesToFixedPoint` rewrite nodes of a graph which they have rewritten before,
add nodes and visit these too, and need not end.  In every state on the way the old nodes are
there with their values, the outputs are those of the function, and operands come before their
users, so that there is no other way to evaluate what has been reached.

* `Keeps` : what one function keeps of another one;
* `ranked_of_rewrite` : no rewrite closes a cycle;
* `reaches_preserves` : what holds on the way.
-/
import Xls.Passes.CanonicalizationTermination

namespace Xls

namespace Canonicalization

open NodeGraph OptimizationPass

variable {overlong : ℕ → BitVec 64} {g g' : NodeGraph} {i : ℕ} {rank : ℕ → ℕ} {rewrite : Rewrite}
  {f f' f'' : NodeFunction} {s s' : Sweep}

/-! ## Values -/

/-- The nodes of `f` are in `f'`, with the same operations and the same operand values, and values
of the nodes of `f` go on to those of `f'`, with the same outputs. -/
structure Keeps (f f' : NodeFunction) : Prop where
  le : f.nodes.length ≤ f'.nodes.length
  values : ∀ env val, Valuation env f.nodes val → ∃ val', Valuation env f'.nodes val' ∧
    (∀ k < f.nodes.length, val' k = val k) ∧
    f'.implicitUses.map val' = f.implicitUses.map val ∧
    ∀ k n, f.nodes.vertex k = some n → ∃ n', f'.nodes.vertex k = some n' ∧ n'.label = n.label ∧
      n'.operands.map val' = n.operands.map val

theorem Keeps.refl (f : NodeFunction) : Keeps f f :=
  ⟨le_rfl, fun _ val hval => ⟨val, hval, fun _ _ => rfl, rfl, fun _ n hn => ⟨n, hn, rfl, rfl⟩⟩⟩

theorem Keeps.trans (h : Keeps f f') (h' : Keeps f' f'') : Keeps f f'' := by
  refine ⟨h.le.trans h'.le, ?_⟩
  intro env val hval
  obtain ⟨val', hval', hagree, houtputs, hnodes⟩ := h.values env val hval
  obtain ⟨val'', hval'', hagree', houtputs', hnodes'⟩ := h'.values env val' hval'
  refine ⟨val'', hval'', ?_, houtputs'.trans houtputs, ?_⟩
  · intro k hk
    rw [hagree' k (hk.trans_le h.le), hagree k hk]
  · intro k n hn
    obtain ⟨n', hn', hlabel, hoperands⟩ := hnodes k n hn
    obtain ⟨n'', hn'', hlabel', hoperands'⟩ := hnodes' k n' hn'
    exact ⟨n'', hn'', hlabel'.trans hlabel, hoperands'.trans hoperands⟩

/-- The outputs are nodes. -/
def OutputsLive (f : NodeFunction) : Prop := ∀ o ∈ f.implicitUses, (f.nodes.vertex o).isSome

/-- A rewrite which passes its checks replaces a node. -/
theorem replaces_of_simplify (hg : Verified f.nodes)
    (h : simplify overlong f i = some (some f')) : ∃ g r, Replaces f.nodes i g r ∧
      (g.vertex r).isSome ∧
      f' = ⟨g.replaceUses i r, f.implicitUses.map (TermGraph.redirect i r)⟩ := by
  obtain ⟨rewrite, g, hrewrite, -, hcanonical, rfl⟩ := simplify_eq_some h
  have hgood : ¬ BadDefault overlong f.nodes i := by
    intro hbad
    rw [canonicalizeNode_of_badDefault hg hbad] at hcanonical
    cases hcanonical
  obtain ⟨result, hresult, hreplaces, -⟩ := correct_of_not_badDefault hg hgood
  have hnode := hreplaces g _ (Option.some.inj (hresult.symm.trans hcanonical))
  -- the node which comes in has the type of the old one, so that it is there
  obtain ⟨n, hn, -⟩ := (rewrites_of_rewriteNode hrewrite).vertex
  have hold : g.vertex i = some n := by
    obtain ⟨new, rfl⟩ := hnode.grows
    rw [TermGraph.vertex_append (TermGraph.lt_length_of_vertex hn), hn]
  have htype : (g.typeOf rewrite.replacement).isSome := by
    rw [hnode.type, typeOf, hold]
    rfl
  rw [typeOf, Option.isSome_map] at htype
  exact ⟨g, _, hnode, htype, rfl⟩

/-- One rewrite. -/
theorem keeps_of_rewrite (hg : Verified f.nodes) (hlive : OutputsLive f)
    (h : simplify overlong f i = some (some f')) : Keeps f f' ∧ OutputsLive f' := by
  obtain ⟨g, r, hreplaces, hr, rfl⟩ := replaces_of_simplify hg h
  obtain ⟨new, rfl⟩ := hreplaces.grows
  have hvertex : ∀ k n, f.nodes.vertex k = some n →
      TermGraph.vertex (f.nodes ++ new) k = some n := by
    intro k n hn
    rw [TermGraph.vertex_append (TermGraph.lt_length_of_vertex hn), hn]
  refine ⟨⟨?_, ?_⟩, ?_⟩
  · show _ ≤ (TermGraph.replaceUses (f.nodes ++ new) i r).length
    rw [TermGraph.length_replaceUses, List.length_append]
    exact Nat.le_add_right ..
  · intro env val hval
    obtain ⟨val', hval', hagree⟩ := hreplaces.total env val hval
    have heq : val' i = val' r := (hreplaces.value env val' hval').symm
    -- a list of old nodes keeps its values, also after the redirection
    have hlist : ∀ l : List ℕ, (∀ o ∈ l, o < f.nodes.length) →
        (l.map (TermGraph.redirect i r)).map val' = l.map val := by
      intro l hl
      rw [TermGraph.map_redirect heq]
      exact List.map_congr_left fun o ho => hagree o (hl o ho)
    refine ⟨val', (TermGraph.isValuation_replaceUses heq).mpr hval', hagree, ?_, ?_⟩
    · apply hlist
      intro o ho
      obtain ⟨n, hn⟩ := Option.isSome_iff_exists.mp (hlive o ho)
      exact TermGraph.lt_length_of_vertex hn
    · intro k n hn
      refine ⟨⟨n.label, n.operands.map (TermGraph.redirect i r)⟩, ?_, rfl,
        hlist n.operands (hg.bounded k n hn)⟩
      rw [TermGraph.vertex_replaceUses, hvertex k n hn, Option.map_some]
  · intro o ho
    obtain ⟨o', ho', rfl⟩ := List.mem_map.mp ho
    obtain ⟨n, hn⟩ := Option.isSome_iff_exists.mp (hlive o' ho')
    rw [TermGraph.vertex_replaceUses, Option.isSome_map, TermGraph.redirect]
    split_ifs
    · exact hr
    · rw [hvertex o' n hn]
      rfl

/-! ## Ranks -/

/-- A clamp leads to a comparison and a select whose ranks fit below that of the old select, also
where the clamp is of a literal at itself. -/
theorem exists_spends_clamp (hg : Verified g) (hrank : Ranked g rank)
    (h : canonicalizeClamp g i = some rewrite) :
    ∃ left, Spends (Used g) rewrite.replacement (rank i) left g rank rewrite.newNodes := by
  by_cases hclamp : ∀ k op, matchClamp g i ≠ some (k, k, op)
  · exact ⟨_, spends_canonicalizeClamp hg hrank h hclamp⟩
  · push Not at hclamp
    obtain ⟨k, op, hself⟩ := hclamp
    obtain ⟨a, k', op', t, hmatch, -, rfl⟩ := canonicalizeClamp_eq_some h
    obtain ⟨rfl, hparts⟩ := Prod.mk.inj (Option.some.inj (hself.symm.trans hmatch))
    obtain ⟨rfl, rfl⟩ := Prod.mk.inj hparts
    obtain ⟨selector, d, c, default, cmp, type, b, hselect, hcmp, hform⟩ :=
      matchClamp_eq_some hmatch
    obtain ⟨hasDefault, type', arms, hvertex, -⟩ := vertex_of_asSelect hselect
    obtain ⟨-, hstrict, m, y, -, hy, -⟩ := clampForm_spec hform
    have hk := hrank.literal k (isLiteral_of_literalBits hy)
    have hselector := hrank.operands i _ hvertex selector (List.mem_cons_self ..)
    have hcompared := hrank.operands selector _ hcmp k (List.mem_cons_self ..)
    have hkUsed : Used g k := used_of_vertex hcmp (List.mem_cons_self ..)
    have hkLt : k < g.length := hg.bounded selector _ hcmp k (List.mem_cons_self ..)
    have hlength : (g.make (compareNode op k k)).length = g.length + 1 := TermGraph.length_make
    refine ⟨_, 1, _, ?_, ?_, le_rfl, 2, 1, ?_, ?_, le_rfl, Nat.one_pos, ?_, Or.inr (Nat.le_succ _)⟩
    · intro o ho
      have hok : o = k := by simpa [compareNode] using ho
      rw [hok, hk]
      exact ⟨hkUsed, Nat.one_pos⟩
    · rintro ⟨b, hb⟩
      rcases hstrict with rfl | rfl <;> cases hb
    · intro o ho
      have hok : o = g.length ∨ o = k := by simpa [selectNode] using ho
      rcases hok with rfl | rfl
      · rw [Function.update_self]
        exact ⟨Or.inr le_rfl, Nat.one_lt_two⟩
      · rw [Function.update_of_ne hkLt.ne, hk]
        exact ⟨hkUsed, Nat.two_pos⟩
    · rintro ⟨b, hb⟩
      cases hb
    · rw [hlength, Function.update_self]
      omega

/-- Each rule names new nodes whose ranks fit below that of the old node. -/
theorem exists_spends (hg : Verified g) (hrank : Ranked g rank)
    (h : rewriteNode overlong g i = some (some rewrite)) :
    ∃ left, Spends (Used g) rewrite.replacement (rank i) left g rank rewrite.newNodes := by
  rcases rewriteNode_cases h with h | h | h | h | h | h | h | h | h
  · exact ⟨_, spends_commuteOperands hrank h⟩
  · exact ⟨_, spends_commuteComparison hrank h⟩
  · exact ⟨_, spends_strictComparison hg hrank h⟩
  · exact exists_spends_clamp hg hrank h
  · exact ⟨_, spends_subtractLiteral hg hrank h⟩
  · exact ⟨_, spends_removeExtension hrank h⟩
  · exact ⟨_, spends_zeroExtension hg hrank h⟩
  · exact ⟨_, spends_invertedSelect hrank h⟩
  · exact ⟨_, spends_defaultToCase hrank h⟩

theorem ranked_of_rewrite (hg : Verified f.nodes) (hrank : Ranked f.nodes rank)
    (h : simplify overlong f i = some (some f')) : ∃ rank', Ranked f'.nodes rank' := by
  obtain ⟨rewrite, g, hrewrite, hmake, -, rfl⟩ := simplify_eq_some h
  obtain ⟨left, hspends⟩ := exists_spends hg hrank hrewrite
  obtain ⟨rank', hspent⟩ := hspends.spent hg hrank hmake
  refine ⟨rank', hspent.ranked.replaceUses ?_⟩
  rw [hspent.old i (lt_length_of_rewrite hrewrite)]
  exact hspent.bound

/-! ## Runs -/

/-- What holds on the way. -/
structure OnTheWay (f : NodeFunction) (s : Sweep) : Prop where
  verified : Verified s.f.nodes
  live : OutputsLive s.f
  ranked : ∃ rank, Ranked s.f.nodes rank
  keeps : Keeps f s.f

theorem OnTheWay.step (h : OnTheWay f s)
    (hstep : OptimizationPass.step (simplify overlong) s = .inl s') : OnTheWay f s' := by
  rcases step_cases hstep with ⟨-, -, rfl⟩ | ⟨i, -, rfl⟩ | ⟨i, f', -, hsimplify, rfl⟩
  · exact ⟨h.verified, h.live, h.ranked, h.keeps⟩
  · exact ⟨h.verified, h.live, h.ranked, h.keeps⟩
  · obtain ⟨rank, hrank⟩ := h.ranked
    obtain ⟨hkeeps, hlive⟩ := keeps_of_rewrite h.verified h.live hsimplify
    exact ⟨verified_of_rewrite h.verified hsimplify, hlive,
      ranked_of_rewrite h.verified hrank hsimplify, h.keeps.trans hkeeps⟩

/-- Operands are nodes which come before their users, so that nodes have one value. -/
theorem Ranked.unique {env : Env} {val val' : ℕ → Value} (hg : Verified g) (hrank : Ranked g rank)
    (h : Valuation env g val) (h' : Valuation env g val') :
    ∀ k n, g.vertex k = some n → val k = val' k := by
  apply h.unique h'
  intro k n hn o ho
  refine ⟨hrank.operands k n hn o ho, ?_⟩
  obtain ⟨types, htypes, -⟩ := verify_of_vertex hg hn
  obtain ⟨t, ht⟩ := Relational.exists_of_mapM (typesOf_eq_some.mpr htypes) ho
  obtain ⟨m, hm, -⟩ := Option.map_eq_some_iff.mp ht
  rw [hm]
  exact Option.some_ne_none m

/-- In every state which the sweeps reach, also where they do not end, the function passes the
checks of the verifier and has the old nodes, with their operations, operand values and values; its
outputs are those of the old function, however it is evaluated. -/
theorem reaches_preserves (overlong : ℕ → BitVec 64) (hg : Verified f.nodes)
    (hacyclic : f.nodes.IsAcyclic) (hlive : OutputsLive f)
    (hreach : StepLoop.Reaches (step (simplify overlong)) (start f) s) :
    Verified s.f.nodes ∧ s.f.nodes.IsAcyclic ∧ Keeps f s.f ∧
      ∀ env val val', Valuation env f.nodes val → Valuation env s.f.nodes val' →
        s.f.implicitUses.map val' = f.implicitUses.map val := by
  have hstart : OnTheWay f (start f) := ⟨hg, hlive, exists_ranked hg hacyclic, .refl f⟩
  have h : OnTheWay f s := hreach.invariant hstart fun _ _ ht hstep => ht.step hstep
  obtain ⟨rank, hrank⟩ := h.ranked
  refine ⟨h.verified, ⟨rank, hrank.operands⟩, h.keeps, ?_⟩
  intro env val val' hval hval'
  obtain ⟨val₁, hval₁, -, houtputs, -⟩ := h.keeps.values env val hval
  rw [← houtputs]
  apply List.map_congr_left
  intro o ho
  obtain ⟨n, hn⟩ := Option.isSome_iff_exists.mp (h.live o ho)
  exact hrank.unique h.verified hval' hval₁ o n hn

/-- The third round writes the clamp of a literal at itself with the other comparison. -/
theorem reaches_preserves_selfClamp : ∃ s : Sweep, s.f.implicitUses = [4] ∧ Verified s.f.nodes ∧
    s.f.nodes.IsAcyclic ∧ Keeps selfClamp s.f ∧
      ∀ env val val', Valuation env selfClamp.nodes val → Valuation env s.f.nodes val' →
        [4].map val' = selfClamp.implicitUses.map val := by
  have hlive : OutputsLive selfClamp := by
    intro o ho
    obtain rfl := List.mem_singleton.mp ho
    rfl
  have hreach : StepLoop.Reaches (step (simplify shiftModulo)) (start selfClamp)
      ⟨⟨selfClamp.nodes ++ [some (compareNode .ult 0 0), some (selectNode (.bits 8) 3 [0, 0])], [4]⟩,
        [2], none, true, true⟩ :=
    .head (b := ⟨selfClamp, [], some 1, false, false⟩) rfl
      (.head (b := ⟨selfClamp, [], some 2, false, false⟩) rfl (.single rfl))
  exact ⟨_, rfl, reaches_preserves shiftModulo selfClamp_verified selfClamp_acyclic hlive hreach⟩

end Canonicalization

end Xls
