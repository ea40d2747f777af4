/-
# Boolean simplification

The traversal ends although it makes nodes: it makes a bounded number of them, and the operations
which it makes are left alone when they are visited.  A literal of ones is not made for a width of
zero: a node of that width with two or three frontier nodes which is always true stops the pass.

* `acceptNode_spec` : the traversal from one node;
* `accept_spec` : all nodes are visited;
* `runOnFunctionBase_correct_iff` : the pass is correct but for such nodes.
-/
import Mathlib.Data.List.Induction
import Xls.Passes.BooleanTraversal
import Xls.Passes.CanonicalizationTermination

namespace Xls

namespace BooleanSimplification

open NodeGraph

variable {f₀ g : NodeGraph} {n : Vertex NodeLabel} {i k o fuel : ℕ} {rank₀ : ℕ → ℕ}
  {s s' : Tracker} {traversing : List ℕ}

/-! ## The traversal from one node -/

/-- The state after a traversal: the nodes which are being traversed are not visited on the way. -/
structure Traversed (f₀ : NodeGraph) (rank₀ : ℕ → ℕ) (traversing : List ℕ) (s s' : Tracker) :
    Prop where
  inv : Inv f₀ rank₀ s'
  later : Later s s'
  traversing : ∀ k ∈ traversing, k ∉ s.visited → k ∉ s'.visited

theorem Traversed.refl (hs : Inv f₀ rank₀ s) : Traversed f₀ rank₀ traversing s s :=
  ⟨hs, .refl s, fun _ _ h => h⟩

theorem Traversed.trans {s'' : Tracker} (h : Traversed f₀ rank₀ traversing s s')
    (h' : Traversed f₀ rank₀ traversing s' s'') : Traversed f₀ rank₀ traversing s s'' :=
  ⟨h'.inv, h.later.trans h'.later, fun k hk hnot => h'.traversing k hk (h.traversing k hk hnot)⟩

/-- What a traversal from a node gives, and when it fails. -/
def Accepts (f₀ : NodeGraph) (rank₀ : ℕ → ℕ) (fuel k : ℕ) : Prop :=
  ∀ traversing s, Inv f₀ rank₀ s →
    (∀ s', acceptNode fuel traversing s k = some s' →
      Traversed f₀ rank₀ traversing s s' ∧ k ∈ s'.visited) ∧
    (grownRank f₀.length rank₀ k + 1 < fuel → (∀ i, ¬ ZeroTautology f₀ i) →
      (∃ n, s.nodes.vertex k = some n) →
      (∀ i ∈ traversing, grownRank f₀.length rank₀ k < grownRank f₀.length rank₀ i) →
      acceptNode fuel traversing s k ≠ none)

/-- The loop over the operands. -/
theorem acceptOperands_spec {os : List ℕ} (h : ∀ o ∈ os, Accepts f₀ rank₀ fuel o)
    (hs : Inv f₀ rank₀ s) :
    (∀ s', os.foldlM (acceptNode fuel traversing) s = some s' →
      Traversed f₀ rank₀ traversing s s' ∧ ∀ o ∈ os, o ∈ s'.visited) ∧
    ((∀ o ∈ os, grownRank f₀.length rank₀ o + 1 < fuel ∧ (∃ n, s.nodes.vertex o = some n) ∧
        ∀ i ∈ traversing, grownRank f₀.length rank₀ o < grownRank f₀.length rank₀ i) →
      (∀ i, ¬ ZeroTautology f₀ i) → os.foldlM (acceptNode fuel traversing) s ≠ none) := by
  induction os generalizing s with
  | nil =>
    refine ⟨fun s' hs' => ?_, fun _ _ => Option.some_ne_none _⟩
    obtain rfl := Option.some.inj hs'
    exact ⟨.refl hs, fun o ho => by cases ho⟩
  | cons o os ih =>
    have hrest : ∀ o ∈ os, Accepts f₀ rank₀ fuel o := fun o ho =>
      h o (List.mem_cons_of_mem _ ho)
    obtain ⟨hsome, htotal⟩ := h o (List.mem_cons_self ..) traversing s hs
    rw [List.foldlM_cons]
    rcases hstep : acceptNode fuel traversing s o with - | s₁
    · refine ⟨(fun s' hs' => by cases hs'), fun hoperands hregular => ?_⟩
      obtain ⟨hfuel, hlive, hrank⟩ := hoperands o (List.mem_cons_self ..)
      exact absurd hstep (htotal hfuel hregular hlive hrank)
    · obtain ⟨htraversed, ho⟩ := hsome s₁ hstep
      obtain ⟨ihsome, ihtotal⟩ := ih hrest htraversed.inv
      refine ⟨fun s' hs' => ?_, fun hoperands hregular => ?_⟩
      · obtain ⟨hlast, hall⟩ := ihsome s' hs'
        refine ⟨htraversed.trans hlast, fun o' ho' => ?_⟩
        rcases List.mem_cons.mp ho' with rfl | ho'
        · exact hlast.later.visited o' ho
        · exact hall o' ho'
      · refine ihtotal (fun o' ho' => ?_) hregular
        obtain ⟨hfuel, ⟨m, hm⟩, hrank⟩ := hoperands o' (List.mem_cons_of_mem _ ho')
        exact ⟨hfuel, ⟨m, htraversed.later.vertex hm⟩, hrank⟩

/-- The operands are visited first. -/
theorem acceptNode_of_vertex (hvisited : k ∉ s.visited) (h : k ∉ traversing)
    (hn : s.nodes.vertex k = some n) : acceptNode (fuel + 1) traversing s k =
      (n.operands.foldlM (acceptNode fuel (k :: traversing)) s).bind fun s =>
        visitSingleNode fuel (mark s k) k n := by
  rw [acceptNode, if_neg hvisited, if_neg h, hn]
  rfl

variable (hf : Verified f₀) (hrank : f₀.Ranks rank₀)

include hf hrank in
/-- The traversal from one node. -/
theorem acceptNode_spec (fuel k : ℕ) :
    Accepts f₀ rank₀ fuel k := by
  induction fuel generalizing k with
  | zero =>
    intro traversing s hs
    exact ⟨(fun s' hs' => by cases hs'), fun hlt => absurd hlt (Nat.not_lt_zero _)⟩
  | succ fuel ih =>
    intro traversing s hs
    by_cases hvisited : k ∈ s.visited
    · rw [acceptNode, if_pos hvisited]
      refine ⟨fun s' hs' => ?_, fun _ _ _ _ => Option.some_ne_none _⟩
      obtain rfl := Option.some.inj hs'
      exact ⟨.refl hs, hvisited⟩
    by_cases htraversing : k ∈ traversing
    · rw [acceptNode, if_neg hvisited, if_pos htraversing]
      refine ⟨(fun s' hs' => by cases hs'), fun _ _ _ hall => ?_⟩
      exact absurd (hall k htraversing) (lt_irrefl _)
    rcases hn : s.nodes.vertex k with - | n
    · rw [acceptNode, if_neg hvisited, if_neg htraversing, hn]
      refine ⟨(fun s' hs' => by cases hs'), fun _ _ hlive => ?_⟩
      obtain ⟨m, hm⟩ := hlive
      cases hm
    · have hgrown := ranks_grownRank hf hrank hs.made
      rw [acceptNode_of_vertex hvisited htraversing hn]
      obtain ⟨hsome, htotal⟩ : (∀ s', n.operands.foldlM (acceptNode fuel (k :: traversing)) s =
          some s' → Traversed f₀ rank₀ (k :: traversing) s s' ∧ ∀ o ∈ n.operands,
            o ∈ s'.visited) ∧ _ := acceptOperands_spec (fun o _ => ih o) hs
      rcases hloop : n.operands.foldlM (acceptNode fuel (k :: traversing)) s with - | s₁
      · refine ⟨(fun s' hs' => by cases hs'), fun hfuel hregular _ hall => ?_⟩
        refine absurd hloop (htotal (fun o ho => ?_) hregular)
        have hlt := hgrown k n hn o ho
        refine ⟨by omega, ?_, fun i hi => ?_⟩
        · obtain ⟨types, htypes, -⟩ := Canonicalization.verify_of_vertex hs.made.verified hn
          obtain ⟨t, ht⟩ := Relational.exists_of_mapM (typesOf_eq_some.mpr htypes) ho
          obtain ⟨m, hm, -⟩ := Option.map_eq_some_iff.mp ht
          exact ⟨m, hm⟩
        · rcases List.mem_cons.mp hi with rfl | hi
          · exact hlt
          · exact hlt.trans (hall i hi)
      · obtain ⟨htraversed, hoperands⟩ := hsome s₁ hloop
        have hnew : k ∉ s₁.visited :=
          htraversed.traversing k (List.mem_cons_self ..) hvisited
        obtain ⟨hvisit, hno⟩ := visitSingleNode_spec hf hrank htraversed.inv fuel
          (htraversed.later.vertex hn) hnew hoperands
        refine ⟨fun s' hs' => ?_, fun hfuel hregular _ _ => hno (by omega) (hregular k)⟩
        obtain ⟨hinv, hlater, heq⟩ := hvisit s' hs'
        refine ⟨⟨hinv, htraversed.later.trans hlater, fun i hi hnot => ?_⟩, ?_⟩
        · rw [heq, List.mem_cons, not_or]
          refine ⟨fun hik => htraversing (hik ▸ hi), ?_⟩
          exact htraversed.traversing i (List.mem_cons_of_mem _ hi) hnot
        · rw [heq]
          exact List.mem_cons_self ..

/-! ## The traversal of all nodes -/

/-- One round of the loop. -/
def acceptRound (fuel : ℕ) (s : Tracker) (k : ℕ) : Option Tracker :=
  if (s.nodes.vertex k).isSome ∧ (NodeFunction.mk s.nodes []).hasUsers k = false then
    acceptNode fuel [] s k
  else some s

theorem acceptFrom_of_lt {rounds : ℕ} (h : k < s.nodes.length) : acceptFrom fuel (rounds + 1) s k =
      (acceptRound fuel s k).bind fun s => acceptFrom fuel rounds s (k + 1) := by
  rw [acceptFrom, acceptRound]
  split_ifs
  · rfl
  · rfl

/-- The nodes before a position are visited, or they have users. -/
def Handled (s : Tracker) (k : ℕ) : Prop :=
  ∀ j < k, ∀ n, s.nodes.vertex j = some n → j ∈ s.visited ∨ s.nodes.Uses j

theorem Later.uses (h : Later s s') (huses : s.nodes.Uses k) : s'.nodes.Uses k := by
  obtain ⟨u, m, hm, hk⟩ := huses
  exact ⟨u, m, h.vertex hm, hk⟩

/-- What was handled stays so. -/
theorem Handled.mono (h : Handled s k) (hlater : Later s s') (hk : k ≤ s.nodes.length) :
    Handled s' k := by
  intro j hj n hn
  rw [hlater.old j (hj.trans_le hk)] at hn
  rcases h j hj n hn with hmem | huses
  · exact Or.inl (hlater.visited j hmem)
  · exact Or.inr (hlater.uses huses)

/-- Fuel for all nodes. -/
def EnoughFuel (f₀ : NodeGraph) (rank₀ : ℕ → ℕ) (fuel : ℕ) : Prop :=
  (Finset.range f₀.length).sup rank₀ + 2 + 5 * f₀.length < fuel

theorem EnoughFuel.lt (h : EnoughFuel f₀ rank₀ fuel) (hk : k < f₀.length + 4 * f₀.length) :
    grownRank f₀.length rank₀ k + 1 < fuel := by
  have hle : grownRank f₀.length rank₀ k ≤ _ := grownRank_le hk
  rw [EnoughFuel] at h
  omega

section

include hf hrank

/-- One round handles one more node. -/
theorem acceptRound_spec (fuel : ℕ) (hs : Inv f₀ rank₀ s) (hk : k < s.nodes.length)
    (hhandled : Handled s k) :
    (∀ s', acceptRound fuel s k = some s' → Inv f₀ rank₀ s' ∧ Later s s' ∧ Handled s' (k + 1)) ∧
    (EnoughFuel f₀ rank₀ fuel → (∀ i, ¬ ZeroTautology f₀ i) → acceptRound fuel s k ≠ none) := by
  unfold acceptRound
  split_ifs with h
  · obtain ⟨hsome, hunused⟩ := h
    obtain ⟨n, hn⟩ := Option.isSome_iff_exists.mp hsome
    obtain ⟨haccept, htotal⟩ := acceptNode_spec hf hrank fuel k [] s hs
    refine ⟨fun s' hs' => ?_, fun hfuel hregular => ?_⟩
    · obtain ⟨⟨hinv, hlater, -⟩, hmem⟩ := haccept s' hs'
      refine ⟨hinv, hlater, fun j hj m hm => ?_⟩
      rcases Nat.lt_succ_iff_lt_or_eq.mp hj with hlt | rfl
      · exact hhandled.mono hlater hk.le j hlt m hm
      · exact Or.inl hmem
    · exact htotal (hfuel.lt (hk.trans_le hs.length_le)) hregular ⟨n, hn⟩ fun i hi => by cases hi
  · refine ⟨fun s' hs' => ?_, fun _ _ => Option.some_ne_none _⟩
    obtain rfl := Option.some.inj hs'
    refine ⟨hs, .refl s, fun j hj m hm => ?_⟩
    rcases Nat.lt_succ_iff_lt_or_eq.mp hj with hlt | rfl
    · exact hhandled j hlt m hm
    · refine Or.inr (TermGraph.hasUsers_iff.mp ?_)
      by_contra hunused
      exact h ⟨Option.isSome_iff_exists.mpr ⟨m, hm⟩, Bool.eq_false_iff.mpr hunused⟩

/-- The loop ends, since a bounded number of nodes is made. -/
theorem acceptFrom_spec (fuel : ℕ) (hs : Inv f₀ rank₀ s) (rounds : ℕ) (hk : k ≤ s.nodes.length)
    (hhandled : Handled s k) :
    (∀ s', acceptFrom fuel rounds s k = some s' → Inv f₀ rank₀ s' ∧ Handled s' s'.nodes.length) ∧
    (EnoughFuel f₀ rank₀ fuel → (∀ i, ¬ ZeroTautology f₀ i) →
      5 * f₀.length < rounds + k → acceptFrom fuel rounds s k ≠ none) := by
  induction rounds generalizing s k with
  | zero =>
    have hle := hs.length_le
    exact ⟨(fun s' hs' => by cases hs'), fun _ _ hrounds => by omega⟩
  | succ rounds ih =>
    rcases lt_or_ge k s.nodes.length with hlt | hge
    · rw [acceptFrom_of_lt hlt]
      obtain ⟨hsome, htotal⟩ := acceptRound_spec hf hrank fuel hs hlt hhandled
      rcases hround : acceptRound fuel s k with - | s₁
      · exact ⟨(fun s' hs' => by cases hs'), fun hfuel hregular _ =>
          absurd hround (htotal hfuel hregular)⟩
      · obtain ⟨hinv, hlater, hhandled'⟩ := hsome s₁ hround
        obtain ⟨ihsome, ihtotal⟩ := ih hinv (Nat.succ_le_of_lt (hlt.trans_le hlater.le)) hhandled'
        exact ⟨ihsome, fun hfuel hregular hrounds => ihtotal hfuel hregular (by omega)⟩
    · rw [acceptFrom, if_neg (not_lt.mpr hge)]
      refine ⟨fun s' hs' => ?_, fun _ _ _ => Option.some_ne_none _⟩
      obtain rfl := Option.some.inj hs'
      exact ⟨hs, fun j hj => hhandled j (hj.trans_le hge)⟩

/-- The users of a node come later: in the end there is a node without any, which is visited. -/
theorem all_visited (hs : Inv f₀ rank₀ s) (hhandled : Handled s s.nodes.length)
    (hn : s.nodes.vertex k = some n) : k ∈ s.visited := by
  have hgrown := ranks_grownRank hf hrank hs.made
  obtain ⟨bound, hbound⟩ : ∃ bound, ∀ j < s.nodes.length, grownRank f₀.length rank₀ j ≤ bound :=
    ⟨_, fun j hj => grownRank_le (hj.trans_le hs.length_le)⟩
  induction hd : bound - grownRank f₀.length rank₀ k using Nat.strong_induction_on
    generalizing k n with
  | _ d ih =>
    rcases hhandled k (TermGraph.lt_length_of_vertex hn) n hn with hmem | ⟨u, m, hm, hk⟩
    · exact hmem
    · have hlt := hgrown u m hm k hk
      have hle := hbound u (TermGraph.lt_length_of_vertex hm)
      have hu := ih (bound - grownRank f₀.length rank₀ u) (by omega) hm rfl
      obtain ⟨m', hm', hall⟩ := hs.visited u hu
      obtain rfl := Option.some.inj (hm.symm.trans hm')
      exact hall k hk

end

theorem nodeCount_eq (g : NodeGraph) :
    nodeCount g = ((List.range g.length).filter fun k => (g.vertex k).isSome).length := by
  induction g using List.reverseRecOn with
  | nil => rfl
  | append_singleton g v ih =>
    have hold : (List.range g.length).filter (fun k => (TermGraph.vertex (g ++ [v]) k).isSome) =
        (List.range g.length).filter fun k => (TermGraph.vertex g k).isSome := by
      apply List.filter_congr
      intro k hk
      rw [TermGraph.vertex_append (List.mem_range.mp hk)]
    have hlast : TermGraph.vertex (g ++ [v]) g.length = v := by
      rw [TermGraph.vertex, List.getElem?_append_right le_rfl, Nat.sub_self]
      rfl
    have hcount : nodeCount (g ++ [v]) = nodeCount g + [v].countP Option.isSome :=
      List.countP_append ..
    rw [hcount, ih, List.length_append, List.length_singleton, List.range_succ,
      List.filter_append, List.length_append, hold, List.countP_eq_length_filter,
      List.filter_singleton, List.filter_singleton, hlast]
    rcases v with - | v <;> rfl

include hf hrank in
/-- All nodes are visited, and no check fails but for tautologies of width zero. -/
theorem accept_spec (fuel : ℕ) :
    (∀ s, accept fuel f₀ = some s → Inv f₀ rank₀ s ∧
      ∀ k n, s.nodes.vertex k = some n → k ∈ s.visited) ∧
    (EnoughFuel f₀ rank₀ fuel → (∀ i, ¬ ZeroTautology f₀ i) → accept fuel f₀ ≠ none) := by
  have hstart : Inv f₀ rank₀ ⟨f₀, [], fun _ => none, []⟩ := by
    refine ⟨.refl hf, (fun k hk => by cases hk), List.nodup_nil, (fun k F hF => by cases hF),
      (fun k hk => by cases hk), (fun k hk => by cases hk), (fun p hp => by cases hp),
      ⟨fun k => 5 * rank₀ k, fun k _ => rfl, fun k n hn o ho => ?_, fun p hp => by cases hp⟩,
      (fun k hk => by cases hk), Nat.le_add_right ..⟩
    have hlt := hrank k n hn o ho
    omega
  obtain ⟨hsome, htotal⟩ := acceptFrom_spec hf hrank fuel hstart fuel (Nat.zero_le _)
    fun j hj => absurd hj (Nat.not_lt_zero j)
  have hcheck : ∀ s, Inv f₀ rank₀ s → Handled s s.nodes.length →
      ¬ s.visited.length < nodeCount s.nodes := by
    intro s hs hhandled
    rw [not_lt, nodeCount_eq]
    refine (List.subperm_of_subset (List.nodup_range.filter _) fun k hk => ?_).length_le
    obtain ⟨n, hn⟩ := Option.isSome_iff_exists.mp (List.mem_filter.mp hk).2
    exact all_visited hf hrank hs hhandled hn
  unfold accept
  rcases hloop : acceptFrom fuel fuel ⟨f₀, [], fun _ => none, []⟩ 0 with - | s
  · refine ⟨(fun s' hs' => by cases hs'), fun hfuel hregular => ?_⟩
    refine absurd hloop (htotal hfuel hregular ?_)
    rw [EnoughFuel] at hfuel
    omega
  · obtain ⟨hs, hhandled⟩ := hsome s hloop
    rw [Option.bind_eq_bind, Option.bind_some, if_neg (hcheck s hs hhandled)]
    refine ⟨fun s' hs' => ?_, fun _ _ => Option.some_ne_none _⟩
    obtain rfl := Option.some.inj hs'
    exact ⟨hs, fun k n hn => all_visited hf hrank hs hhandled hn⟩

/-! ## New nodes have values -/

variable {val : ℕ → Value} {f : NodeFunction}

/-- The value of a new node on the values of the nodes before it. -/
theorem NewNode.exists_value {env : Env} {L : ℕ} (h : NewNode g L n) (hg : Verified g)
    (hn : g.vertex k = some n) (hoperands : ∀ o ∈ n.operands, ∀ m, g.vertex o = some m →
      sem env o m.label (m.operands.map val) = some (val o)) :
    ∃ v, sem env k n.label (n.operands.map val) = some v := by
  have hbool : ∀ op, n.label.op = .logic op → IsBoolOp op →
      ∃ v, sem env k n.label (n.operands.map val) = some v := by
    intro op hlabel hop
    obtain ⟨w, hw, hne, hone, htypes⟩ := boolOp_operands hg hn hlabel hop
    have hwords : ∀ o ∈ n.operands, ∃ b, val o = .bits b ∧ b.bitCount = w := by
      intro o ho
      obtain ⟨m, hm, htype⟩ := Option.map_eq_some_iff.mp (htypes o ho)
      have hconforms := (sem_eq_some.mp (hoperands o ho m hm)).2
      rw [htype] at hconforms
      exact Value.asBits_of_conforms hconforms
    obtain ⟨bs, hbs, hcounts, hlength, -⟩ := exists_words hwords 0
    have hnil : bs ≠ [] := by
      rintro rfl
      exact hne (List.length_eq_zero_iff.mp hlength.symm)
    obtain ⟨r, hr, hcount⟩ := evalLabel_total env k hop hnil hcounts
      fun hnot => hlength.trans (hone hnot)
    have hform : n.label = ⟨.logic op, .bits w⟩ := by
      rw [← hlabel, ← hw]
    refine ⟨.bits r, sem_eq_some.mpr ⟨by rw [hform, hbs, hr], ?_⟩⟩
    rw [hform, ← hcount]
    exact NodeBuilder.conforms_bits r
  cases h with
  | literal b hliteral =>
    rw [hliteral]
    exact ⟨.bits b, sem_eq_some.mpr ⟨rfl, NodeBuilder.conforms_bits b⟩⟩
  | negation w v hform hlt hlogic =>
    exact hbool .not (by rw [hform]) (Or.inl rfl)
  | operation t op w V hlabel ht hcanonical hop hV hnodes =>
    refine hbool op (congrArg NodeLabel.op hlabel) (Or.inr ?_)
    rcases truthTables_shape t ht with ⟨hnone, -⟩ | ⟨⟨op', hmem, hop'⟩, -⟩
    · exact absurd (hop.symm.trans hnone) (Option.some_ne_none op)
    · exact Option.some.inj (hop.symm.trans hop') ▸ hmem

/-- The values of a function extend to the nodes which are made. -/
theorem Made.extend {env : Env} {g' : NodeGraph} {L : ℕ} (h : Made L g g') (hg : Verified g)
    (hval : Valuation env g val) :
    ∃ val', Valuation env g' val' ∧ ∀ k < g.length, val' k = val k := by
  have hsteps : ∀ d, ∃ val' : ℕ → Value, (∀ k < g.length + d, ∀ n, g'.vertex k = some n →
      sem env k n.label (n.operands.map val') = some (val' k)) ∧
        ∀ k < g.length, val' k = val k := by
    intro d
    induction d with
    | zero =>
      refine ⟨val, fun k hk n hn => ?_, fun _ _ => rfl⟩
      rw [h.old k hk] at hn
      exact hval k n hn
    | succ d ih =>
      obtain ⟨val', hvalues, hagree⟩ := ih
      rcases hlast : g'.vertex (g.length + d) with - | m
      · refine ⟨val', fun k hk n hn => ?_, hagree⟩
        obtain hlt | rfl : k < g.length + d ∨ k = g.length + d := by omega
        · exact hvalues k hlt n hn
        · rw [hlast] at hn
          cases hn
      · obtain ⟨hnew, hbefore⟩ := h.new _ m (Nat.le_add_right ..) hlast
        obtain ⟨v, hv⟩ := hnew.exists_value h.verified hlast fun o ho n hn =>
          hvalues o (hbefore o ho) n hn
        have hframe : ∀ o < g.length + d, Function.update val' (g.length + d) v o = val' o :=
          fun o ho => Function.update_of_ne ho.ne ..
        have hoperands : ∀ k < g.length + d, ∀ n, g'.vertex k = some n →
            ∀ o ∈ n.operands, o < g.length + d := by
          intro k hk n hn o ho
          rcases lt_or_ge k g.length with hold | hge
          · rw [h.old k hold] at hn
            have := hg.bounded k n hn o ho
            omega
          · exact ((h.new k n hge hn).2 o ho).trans hk
        refine ⟨Function.update val' (g.length + d) v, fun k hk n hn => ?_, fun k hk => ?_⟩
        · obtain hlt | rfl : k < g.length + d ∨ k = g.length + d := by omega
          · rw [hframe k hlt, List.map_congr_left fun o ho =>
              hframe o (hoperands k hlt n hn o ho)]
            exact hvalues k hlt n hn
          · obtain rfl := Option.some.inj (hlast.symm.trans hn)
            rw [Function.update_self, List.map_congr_left fun o ho => hframe o (hbefore o ho)]
            exact hv
        · rw [hframe k (Nat.lt_add_right d hk), hagree k hk]
  obtain ⟨val', hvalues, hagree⟩ := hsteps (g'.length - g.length)
  refine ⟨val', fun k n hn => hvalues k ?_ n hn, hagree⟩
  have hlt := TermGraph.lt_length_of_vertex hn
  omega

/-! ## The uses are replaced -/

/-- A replaced node and its replacement may be exchanged. -/
structure Exchangeable (g : NodeGraph) (rank : ℕ → ℕ) (replacements : List (ℕ × ℕ)) : Prop where
  verified : Verified g
  ranked : g.Ranks rank
  lt : ∀ p ∈ replacements, rank p.2 < rank p.1
  type : ∀ p ∈ replacements, g.typeOf p.1 = g.typeOf p.2

/-- The function after all replacements. -/
theorem replaceAll_spec {rank : ℕ → ℕ} {replacements : List (ℕ × ℕ)}
    (h : Exchangeable f.nodes rank replacements) : ∃ f', replaceAll f replacements = some f' ∧
      Verified f'.nodes ∧ f'.nodes.Ranks rank ∧ f'.nodes.length = f.nodes.length ∧
      ∀ env val, (∀ p ∈ replacements, val p.1 = val p.2) → Valuation env f.nodes val →
        Valuation env f'.nodes val ∧ f'.implicitUses.map val = f.implicitUses.map val := by
  induction replacements generalizing f with
  | nil => exact ⟨f, rfl, h.verified, h.ranked, rfl, fun env val _ hval => ⟨hval, rfl⟩⟩
  | cons p replacements ih =>
    obtain ⟨i, r⟩ := p
    have htype := h.type (i, r) (List.mem_cons_self ..)
    have hlt : rank r < rank i := h.lt (i, r) (List.mem_cons_self ..)
    have hstep : f.replaceUsesWith i r = some ⟨f.nodes.replaceUses i r,
        f.implicitUses.map (TermGraph.redirect i r)⟩ := if_pos htype
    have hranked : TermGraph.Ranks (f.nodes.replaceUses i r) rank := by
      intro k n hn o ho
      rw [TermGraph.vertex_replaceUses, Option.map_eq_some_iff] at hn
      obtain ⟨m, hm, rfl⟩ := hn
      obtain ⟨o', ho', rfl⟩ := List.mem_map.mp ho
      have hless := h.ranked k m hm o' ho'
      rw [TermGraph.redirect]
      split_ifs with heq
      · exact hlt.trans (heq ▸ hless)
      · exact hless
    obtain ⟨f', hloop, hverified, hranked', hlength, hvalues⟩ := ih
      (f := ⟨f.nodes.replaceUses i r, f.implicitUses.map (TermGraph.redirect i r)⟩)
      ⟨Canonicalization.verified_replaceUses h.verified htype.symm, hranked,
        fun p hp => h.lt p (List.mem_cons_of_mem _ hp), fun p hp => by
          rw [Canonicalization.typeOf_replaceUses, Canonicalization.typeOf_replaceUses]
          exact h.type p (List.mem_cons_of_mem _ hp)⟩
    refine ⟨f', ?_, hverified, hranked', ?_, fun env val hall hval => ?_⟩
    · show (f.replaceUsesWith i r).bind (fun f => replaceAll f replacements) = some f'
      rw [hstep, Option.bind_some, hloop]
    · rw [hlength, TermGraph.length_replaceUses]
    · have hsame : val i = val r := hall (i, r) (List.mem_cons_self ..)
      obtain ⟨hval', himplicit⟩ := hvalues env val (fun p hp => hall p (List.mem_cons_of_mem _ hp))
        ((TermGraph.isValuation_replaceUses hsame).mpr hval)
      exact ⟨hval', himplicit.trans (TermGraph.map_redirect hsame f.implicitUses)⟩

/-! ## The pass -/

/-- What the pass leaves behind: a bounded number of new nodes, replacements which have the values
of the nodes they replace for all values of the frontier nodes, and a function with the same
values. -/
structure Correct (f : NodeFunction) (s : Tracker) (f' : NodeFunction) : Prop where
  length : s.nodes.length ≤ 5 * f.nodes.length
  replaced : ∀ p ∈ s.nodeReplacements, p.1 < f.nodes.length ∧
    s.nodes.typeOf p.1 = s.nodes.typeOf p.2 ∧
      ∀ env val, FreeValuation env s.nodes f.nodes.length val → val p.1 = val p.2
  verified : Verified f'.nodes
  acyclic : f'.nodes.IsAcyclic
  values : ∀ env val, Valuation env f.nodes val → ∃ val', Valuation env f'.nodes val' ∧
    (∀ k < f.nodes.length, val' k = val k) ∧
      f'.implicitUses.map val' = f.implicitUses.map val'

/-- A valuation of a function leaves no frontier node free. -/
theorem freeValuation_of_valuation {env : Env} {L : ℕ} (h : Valuation env g val) :
    FreeValuation env g L val :=
  ⟨fun k n hn => (sem_eq_some.mp (h k n hn)).2, fun k n hn _ => (sem_eq_some.mp (h k n hn)).1⟩

theorem runOnFunctionBase_eq_some {f' : NodeFunction} :
    runOnFunctionBase fuel f = some (s, f') ↔ accept fuel f.nodes = some s ∧
      replaceAll ⟨s.nodes, f.implicitUses⟩ s.nodeReplacements = some f' := by
  unfold runOnFunctionBase
  rcases haccept : accept fuel f.nodes with - | s₁
  · exact ⟨(fun h => by cases h), fun h => by cases h.1⟩
  · rw [Option.bind_eq_bind, Option.bind_some]
    rcases hreplace : replaceAll ⟨s₁.nodes, f.implicitUses⟩ s₁.nodeReplacements with - | f₁
    · refine ⟨(fun h => by cases h), ?_⟩
      rintro ⟨hs, hf'⟩
      obtain rfl := Option.some.inj hs
      rw [hreplace] at hf'
      cases hf'
    · constructor
      · intro h
        obtain ⟨rfl, rfl⟩ := Prod.mk.inj (Option.some.inj h)
        exact ⟨rfl, hreplace⟩
      · rintro ⟨hs, hf'⟩
        obtain rfl := Option.some.inj hs
        rw [hreplace, Option.some.injEq] at hf'
        rw [← hf']
        rfl

/-- After a traversal the replacements are made. -/
theorem correct_of_inv (hf : Verified f.nodes) (hs : Inv f.nodes rank₀ s) :
    ∃ f', replaceAll ⟨s.nodes, f.implicitUses⟩ s.nodeReplacements = some f' ∧ Correct f s f' := by
  obtain ⟨rank, hranks⟩ := hs.ranks
  have hexchangeable : Exchangeable s.nodes rank s.nodeReplacements :=
    ⟨hs.made.verified, hranks.operands, hranks.replacements, fun p hp => (hs.replaced p hp).type⟩
  obtain ⟨f', hreplace, hverified, hranked, -, hvalues⟩ :=
    replaceAll_spec (f := ⟨s.nodes, f.implicitUses⟩) hexchangeable
  have hlength := hs.length_le
  refine ⟨f', hreplace, by omega, fun p hp => ?_, hverified, ⟨rank, hranked⟩,
    fun env val hval => ?_⟩
  · exact ⟨(hs.replaced p hp).lt, (hs.replaced p hp).type, (hs.replaced p hp).value⟩
  · obtain ⟨val', hval', hagree⟩ := hs.made.extend hf hval
    obtain ⟨hfinal, himplicit⟩ := hvalues env val'
      (fun p hp => (hs.replaced p hp).value env val' (freeValuation_of_valuation hval')) hval'
    exact ⟨val', hfinal, hagree, himplicit⟩

/-- A tautology of width zero stops the pass. -/
theorem run_of_zeroTautology (hf : Verified f.nodes) (hrank : f.nodes.Ranks rank₀)
    (h : ZeroTautology f.nodes k) (fuel : ℕ) : runOnFunctionBase fuel f = none := by
  by_contra hsome
  obtain ⟨⟨s, f'⟩, hrun⟩ := Option.ne_none_iff_exists'.mp hsome
  obtain ⟨haccept, -⟩ := runOnFunctionBase_eq_some.mp hrun
  obtain ⟨hs, hall⟩ := (accept_spec hf hrank fuel).1 s haccept
  obtain ⟨n, hn, -⟩ := h.1
  have hlt := TermGraph.lt_length_of_vertex hn
  exact hs.regular k (hall k n ((hs.made.old k hlt).trans hn)) hlt h

/-- The pass ends and is correct, whatever its bound on the recursion from some number on, unless
a node of width zero with two or three frontier nodes is always true. -/
theorem runOnFunctionBase_correct_iff {f : NodeFunction} (hf : Verified f.nodes)
    (hacyclic : f.nodes.IsAcyclic) :
    (∃ bound, ∀ fuel, bound ≤ fuel → ∃ s f', runOnFunctionBase fuel f = some (s, f') ∧
      Correct f s f') ↔ ¬ ∃ k, ZeroTautology f.nodes k := by
  obtain ⟨rank₀, hrank⟩ := hacyclic
  constructor
  · rintro ⟨bound, hruns⟩ ⟨k, hk⟩
    obtain ⟨s, f', hrun, -⟩ := hruns bound le_rfl
    rw [run_of_zeroTautology hf hrank hk bound] at hrun
    cases hrun
  · intro hregular
    refine ⟨(Finset.range f.nodes.length).sup rank₀ + 2 + 5 * f.nodes.length + 1,
      fun fuel hfuel => ?_⟩
    obtain ⟨hsome, htotal⟩ := accept_spec hf hrank fuel
    obtain ⟨s, haccept⟩ := Option.ne_none_iff_exists'.mp (htotal hfuel fun i hi => hregular ⟨i, hi⟩)
    obtain ⟨f', hreplace, hcorrect⟩ := correct_of_inv hf (hsome s haccept).1
    exact ⟨s, f', runOnFunctionBase_eq_some.mpr ⟨haccept, hreplace⟩, hcorrect⟩

/-- `or(x, not(x), y)` of some width. -/
def excludedMiddle (w : ℕ) : NodeFunction :=
  ⟨[some ⟨⟨.logic (.core .param), .bits w⟩, []⟩, some ⟨⟨.logic (.core .param), .bits w⟩, []⟩,
    some ⟨⟨.logic .not, .bits w⟩, [0]⟩, some ⟨⟨.logic .or, .bits w⟩, [0, 2, 1]⟩], [3]⟩

theorem excludedMiddle_verified {w : ℕ} (hw : w = 0 ∨ w = 8) :
    Verified (excludedMiddle w).nodes := by
  intro k n hn
  have hk : k < 4 := TermGraph.lt_length_of_vertex hn
  rcases hw with rfl | rfl
  · interval_cases k <;> (obtain rfl := Option.some.inj hn; rfl)
  · interval_cases k <;> (obtain rfl := Option.some.inj hn; rfl)

theorem excludedMiddle_acyclic {w : ℕ} (hw : w = 0 ∨ w = 8) :
    (excludedMiddle w).nodes.IsAcyclic := by
  refine ⟨id, fun k n hn => ?_⟩
  have hk : k < 4 := TermGraph.lt_length_of_vertex hn
  rcases hw with rfl | rfl
  · interval_cases k <;> (obtain rfl := Option.some.inj hn; decide)
  · interval_cases k <;> (obtain rfl := Option.some.inj hn; decide)

theorem excludedMiddle_zeroTautology : ZeroTautology (excludedMiddle 0).nodes 3 := by
  have hparam : ∀ v ∈ ([0, 1] : List ℕ), ¬ Logic (excludedMiddle 0).nodes v := by
    rintro v hv ⟨n, hn, hop⟩
    simp only [List.mem_cons, List.not_mem_nil, or_false] at hv
    rcases hv with rfl | rfl
    · obtain rfl := Option.some.inj hn
      cases hop
    · obtain rfl := Option.some.inj hn
      cases hop
  have hor : TermGraph.vertex (excludedMiddle 0).nodes 3 =
      some ⟨⟨.logic .or, .bits 0⟩, [0, 2, 1]⟩ := rfl
  have hnot : TermGraph.vertex (excludedMiddle 0).nodes 2 =
      some ⟨⟨.logic .not, .bits 0⟩, [0]⟩ := rfl
  refine ⟨⟨_, hor, rfl⟩, rfl, fun ρ hρ => ?_, [0, 1], by decide, by decide, by decide,
    fun v => ⟨fun hv => ?_, fun hv => ?_⟩⟩
  · rw [hρ 0 3 _ hor rfl rfl]
    show (ρ 0 || (ρ 2 || (ρ 1 || false))) = true
    rw [hρ 0 2 _ hnot rfl rfl]
    show (ρ 0 || (!ρ 0 || (ρ 1 || false))) = true
    cases ρ 0 <;> rfl
  · refine .operand hor rfl ?_ (hparam v hv)
    simp only [List.mem_cons, List.not_mem_nil, or_false] at hv ⊢
    rcases hv with rfl | rfl
    · exact Or.inl rfl
    · exact Or.inr (Or.inr rfl)
  · obtain ⟨o, ho, hleaf⟩ := (leaf_iff hor rfl).mp hv
    simp only [List.mem_cons, List.not_mem_nil, or_false] at ho
    rcases ho with rfl | rfl | rfl
    · rcases hleaf with ⟨-, rfl⟩ | hleaf
      · decide
      · exact absurd hleaf.logic (hparam 0 (by decide))
    · rcases hleaf with ⟨hlogic, -⟩ | hleaf
      · exact absurd ⟨_, hnot, rfl⟩ hlogic
      · obtain ⟨o', ho', hleaf'⟩ := (leaf_iff hnot rfl).mp hleaf
        obtain rfl := List.mem_singleton.mp ho'
        rcases hleaf' with ⟨-, rfl⟩ | hleaf'
        · decide
        · exact absurd hleaf'.logic (hparam 0 (by decide))
    · rcases hleaf with ⟨-, rfl⟩ | hleaf
      · decide
      · exact absurd hleaf.logic (hparam 1 (by decide))

/-- At a width of eight the disjunction becomes a literal of ones. -/
theorem excludedMiddle_correct : ∃ bound, ∀ fuel, bound ≤ fuel → ∃ s f',
    runOnFunctionBase fuel (excludedMiddle 8) = some (s, f') ∧ Correct (excludedMiddle 8) s f' := by
  refine (runOnFunctionBase_correct_iff (excludedMiddle_verified (Or.inr rfl))
    (excludedMiddle_acyclic (Or.inr rfl))).mpr ?_
  rintro ⟨k, -, htype, -⟩
  have hk : k < 4 := lt_length_of_typeOf htype
  interval_cases k <;> cases htype

/-- At a width of zero `SBits` fails for the literal of ones. -/
theorem excludedMiddle_not_correct : Verified (excludedMiddle 0).nodes ∧
    (excludedMiddle 0).nodes.IsAcyclic ∧
      ¬ ∃ fuel s f', runOnFunctionBase fuel (excludedMiddle 0) = some (s, f') := by
  have hverified := excludedMiddle_verified (w := 0) (Or.inl rfl)
  have hacyclic := excludedMiddle_acyclic (w := 0) (Or.inl rfl)
  refine ⟨hverified, hacyclic, ?_⟩
  obtain ⟨rank₀, hrank⟩ := hacyclic
  rintro ⟨fuel, s, f', hrun⟩
  rw [run_of_zeroTautology hverified hrank excludedMiddle_zeroTautology fuel] at hrun
  cases hrun

end BooleanSimplification

end Xls
