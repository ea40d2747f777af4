/-
# The rewrites of token simplification

Each rewrite preserves the longest delays: an `after_all` has the longest one of its operands, and a
`min_delay` adds to the one of its operand.

* `visits_simplifyTrivialMinDelay`, `mayVisit_collapseMinDelay`, `visits_pushDownMinDelay` : the
  rewrites of `min_delay`;
* `visits_replaceOverlappingAfterAll`, `visits_removeDuplicateAfterAll`,
  `visits_simplifyTrivialAfterAll` : those of `after_all`.
-/
import Xls.Lib.FoldM
import Xls.Lib.Relational
import Xls.Passes.TokenSimplification

namespace Xls.TokenSimplification

open LongestPath (greatest longest)

variable {f f' : FunctionBase} {i j k a : ℕ} {d : NodeData} {operands : List ℕ}
  {throughInvoke : Bool} {val : ℕ → WithBot ℕ} {n : Vertex NodeData} {vs : List (WithBot ℕ)}

/-! ## Delays of the nodes -/

/-- A token node which is no invoke adds its weight to the delays of its operands. -/
theorem longest_of_token (hop : d.op ≠ .invoke) (ht : d.type = .token) (hk : k ≠ a) :
    longest (metric throughInvoke) a k d vs =
      greatest vs + WithBot.some (if d.op = .minDelay then d.delay else 0) := by
  have hon : (metric throughInvoke).on d = true := congrArg Verifier.typeHasToken ht
  have hthrough : (metric throughInvoke).through d = true := by
    change (throughInvoke || decide (d.op ≠ .invoke)) = true
    rw [decide_eq_true hop, Bool.or_true]
  rw [longest, if_pos hon, if_neg hk, if_pos hthrough, bot_sup_eq]
  rfl

/-- An `after_all` waits for the last of its operands. -/
theorem longest_of_afterAll (hop : d.op = .afterAll) (ht : d.type = .token) (hk : k ≠ a) :
    longest (metric throughInvoke) a k d vs = greatest vs := by
  rw [longest_of_token (by simp [hop]) ht hk, hop, if_neg (by simp), WithBot.coe_zero, add_zero]

/-- A `min_delay` adds its delay. -/
theorem longest_of_minDelay (hop : d.op = .minDelay) (ht : d.type = .token) (hk : k ≠ a) :
    longest (metric throughInvoke) a k d vs = greatest vs + WithBot.some d.delay := by
  rw [longest_of_token (by simp [hop]) ht hk, if_pos hop]

/-- A node the pass may remove is not fixed. -/
theorem FunctionBase.IsFixed.ne (h : f.IsFixed a d) (hn : f.nodes.vertex k = some n)
    (hop : IsRewritable n.label.op) : k ≠ a := by
  rintro rfl
  obtain ⟨m, hm, rfl, hfixed⟩ := h
  rw [hn, Option.some.injEq] at hm
  rw [← hm] at hfixed
  exact hfixed hop

theorem val_of_afterAll (hchecked : f.Checked) (ha : f.IsFixed a d)
    (hval : IsDelays throughInvoke f a val) (hn : f.nodes.vertex k = some n)
    (hop : n.label.op = .afterAll) : val k = greatest (n.operands.map val) := by
  have hk : longest (metric throughInvoke) a k n.label (n.operands.map val) = val k :=
    Option.some.inj (hval k n hn)
  rw [← hk, longest_of_afterAll hop (hchecked.afterAll k n hn hop).1 (ha.ne hn (Or.inl hop))]

theorem val_of_minDelay (hchecked : f.Checked) (ha : f.IsFixed a d)
    (hval : IsDelays throughInvoke f a val) (hn : f.nodes.vertex k = some n)
    (hop : n.label.op = .minDelay) {o : ℕ} (ho : n.operands = [o]) :
    val k = val o + WithBot.some n.label.delay := by
  have hk : longest (metric throughInvoke) a k n.label (n.operands.map val) = val k :=
    Option.some.inj (hval k n hn)
  rw [← hk, longest_of_minDelay hop (hchecked.minDelay k n hn hop).1 (ha.ne hn (Or.inr hop)), ho,
    List.map_singleton, LongestPath.greatest_singleton]

/-! ## Visits -/

/-- A function after a rewrite of a node: only the node may have gone, of those which were there. -/
structure Rewrites (f f' : FunctionBase) (i : ℕ) : Prop where
  verified : f'.Verified
  preserved : Preserved f f'
  survives : ∀ k, k ≠ i → (f.nodes.vertex k).isSome = true → (f'.nodes.vertex k).isSome = true

/-- A visit which does not fail. -/
def Visits (f : FunctionBase) (i : ℕ) (result : Option (FunctionBase × Bool)) : Prop :=
  ∃ f' c, result = some (f', c) ∧ Rewrites f f' i

variable (hv : f.Verified) (hi : (f.nodes.vertex i).isSome = true) (hn : f.nodes.vertex i = some n)
  (hop : IsRewritable n.label.op)
  (hd : d = afterAll ∨ ∃ delay o, d = minDelay delay ∧ operands = [o])

include hv in
theorem visits_unchanged {c : Bool} : Visits f i (some (f, c)) :=
  ⟨f, c, rfl, hv, Preserved.refl f, fun _ _ h => h⟩

theorem FunctionBase.Checked.type_of_isRewritable (h : f.Checked) (hn : f.nodes.vertex k = some n)
    (hop : IsRewritable n.label.op) : f.type k = some .token := by
  rw [FunctionBase.type_eq_some_iff]
  refine ⟨n, hn, ?_⟩
  rcases hop with hop | hop
  · exact (h.afterAll k n hn hop).1
  · exact (h.minDelay k n hn hop).1

section

include hd

/-- The new nodes of the rewrites. -/
theorem isRewritable_of_made :
    IsRewritable d.op := by
  rcases hd with rfl | ⟨delay, o, rfl, -⟩
  · exact Or.inl rfl
  · exact Or.inr rfl

theorem type_makeNode_length :
    (f.makeNode d operands).type f.nodes.length = some .token := by
  refine FunctionBase.type_eq_some_iff.mpr ⟨_, FunctionBase.vertex_makeNode_length, ?_⟩
  rcases hd with rfl | ⟨delay, o, rfl, -⟩ <;> rfl

end

variable {f₁ : FunctionBase}

section

include hv hn hop

/-- A node is replaced after nodes were made. -/
theorem visits_grown {rank : ℕ → ℕ} (hgrown : Grown f f₁) (hchecked : f₁.Checked)
    (hrank : f₁.nodes.Ranks rank) (hij : i ≠ j) (hle : rank j ≤ rank i)
    (htype : f₁.type j = some .token)
    (hval : ∀ throughInvoke a d val, f.IsFixed a d → IsDelays throughInvoke f₁ a val →
      val i = val j)
    (harrives : f.HasArrivals → ∃ arrival, f₁.Arrives arrival ∧ arrival j ≤ arrival i) :
    Visits f i (FunctionBase.changed (f₁.replaceNode i j)) := by
  have hi := TermGraph.lt_length_of_vertex hn
  have heq : f₁.type i = f₁.type j := by
    rw [htype, FunctionBase.type, hgrown.vertex i hi]
    exact hv.checked.type_of_isRewritable hn hop
  refine ⟨f₁.replaced i j, true, ?_, ⟨?_, ?_⟩, ?_, ?_⟩
  · rw [FunctionBase.replaceNode_eq_some hij heq]
    rfl
  · exact hchecked.replaced hij heq (FunctionBase.isSome_of_type htype)
  · exact ⟨rank, hrank.replaceVertex hle⟩
  · exact hgrown.preserved_replaced hv.checked hn hop hval harrives
  · intro k hk h
    apply FunctionBase.isSome_replaced hk
    rw [hgrown.vertex k (FunctionBase.lt_length_of_isSome h), h]

/-- A node is replaced by one of its operands. -/
theorem visits_replaced (hj : j ∈ n.operands) (htype : f.type j = some .token)
    (hval : ∀ throughInvoke a d val, f.IsFixed a d → IsDelays throughInvoke f a val →
      val i = val j) : Visits f i (FunctionBase.changed (f.replaceNode i j)) := by
  obtain ⟨rank, hrank⟩ := hv.acyclic
  have hlt : rank j < rank i := hrank.lt ⟨n, hn, hj⟩
  have hij : i ≠ j := by
    rintro rfl
    exact Nat.lt_irrefl _ hlt
  apply visits_grown hv hn hop (Grown.refl f) hv.checked hrank hij hlt.le htype hval
  rintro ⟨arrival, ha⟩
  exact ⟨arrival, ha, (Nat.le_add_right _ _).trans (ha.le hn hop hj)⟩

include hd in
/-- A node is replaced by a new one, whose operands are before it. -/
theorem visits_made (hoperands : ∀ o ∈ operands, f.type o = some .token)
    (hbefore : ∀ rank, f.nodes.Ranks rank → ∀ o ∈ operands, rank o < rank i)
    (hval : ∀ throughInvoke a d' val, f.IsFixed a d' → IsDelays throughInvoke f a val →
      val i = longest (metric throughInvoke) a f.nodes.length d (operands.map val))
    (harrives : ∀ arrival, f.Arrives arrival →
      ∀ o ∈ operands, arrival o + chain.weight d ≤ arrival i) :
    Visits f i (FunctionBase.changed ((f.makeNode d operands).replaceNode i f.nodes.length)) := by
  obtain ⟨rank, hrank⟩ := hv.acyclic
  have hi := TermGraph.lt_length_of_vertex hn
  have hlt : ∀ o ∈ operands, o < f.nodes.length := fun o ho =>
    FunctionBase.lt_length_of_type (hoperands o ho)
  have hgrown := grown_makeNode hv.checked (isRewritable_of_made hd) hlt
  have hranks := hrank.make (n := ⟨d, operands⟩) (r := rank i) hv.checked.bounded
    fun o ho => ⟨hlt o ho, hbefore rank hrank o ho⟩
  apply visits_grown hv hn hop hgrown (hv.checked.makeNode hoperands hd) hranks hi.ne
  · rw [Function.update_self, Function.update_of_ne hi.ne]
  · exact type_makeNode_length hd
  · intro throughInvoke a d' val ha hdelays
    rw [hval throughInvoke a d' val ha ((hgrown.grows throughInvoke a).restrict val hdelays)]
    exact Option.some.inj (hdelays f.nodes.length _ FunctionBase.vertex_makeNode_length)
  · rintro ⟨arrival, ha⟩
    refine ⟨_, ha.makeNode hv.checked.bounded (ha.2 i) fun o ho => ⟨hlt o ho,
      harrives arrival ha o ho⟩, ?_⟩
    rw [Function.update_self, Function.update_of_ne hi.ne]

end

theorem FunctionBase.IsFixed.length_ne (h : f.IsFixed a d) : f.nodes.length ≠ a := by
  rintro rfl
  obtain ⟨m, hm, -⟩ := h
  exact Nat.lt_irrefl _ (TermGraph.lt_length_of_vertex hm)

/-! ## Trivial delays -/

section

include hv hi

theorem visits_simplifyTrivialMinDelay : Visits f i (f.simplifyTrivialMinDelay i) := by
  rw [FunctionBase.simplifyTrivialMinDelay]
  split
  next hnone =>
    rw [hnone] at hi
    cases hi
  next t delay operand hn =>
    obtain ⟨-, o, ho, htype⟩ := hv.checked.minDelay i _ hn rfl
    cases ho
    split_ifs with hzero
    · -- no delay at all
      apply visits_replaced hv hn (Or.inr rfl) (List.mem_singleton_self operand) htype
      intro throughInvoke a d val ha hval
      rw [val_of_minDelay hv.checked ha hval hn rfl rfl, hzero, WithBot.coe_zero, add_zero]
    · split
      next d' t' hoperand =>
        -- nothing is waited for
        apply visits_replaced hv hn (Or.inr rfl) (List.mem_singleton_self operand) htype
        intro throughInvoke a d val ha hval
        have hbot : val operand = ⊥ := val_of_afterAll hv.checked ha hval hoperand rfl
        rw [val_of_minDelay hv.checked ha hval hn rfl rfl, hbot, WithBot.bot_add]
      next => exact visits_unchanged hv
  next => exact visits_unchanged hv

theorem visits_simplifyTrivialAfterAll : Visits f i (f.simplifyTrivialAfterAll i) := by
  rw [FunctionBase.simplifyTrivialAfterAll]
  split
  next hnone =>
    rw [hnone] at hi
    cases hi
  next t delay operand hn =>
    have htype := (hv.checked.afterAll i _ hn rfl).2 operand (List.mem_singleton_self operand)
    apply visits_replaced hv hn (Or.inl rfl) (List.mem_singleton_self operand) htype
    intro throughInvoke a d val ha hval
    rw [val_of_afterAll hv.checked ha hval hn rfl, List.map_singleton,
      LongestPath.greatest_singleton]
  next => exact visits_unchanged hv

end

/-! ## Nested delays -/

/-- A visit which fails only where there are no arrival times. -/
def MayVisit (f : FunctionBase) (i : ℕ) (result : Option (FunctionBase × Bool)) : Prop :=
  result = none ∧ ¬ f.HasArrivals ∨ Visits f i result

include hv hi in
theorem mayVisit_collapseMinDelay :
    MayVisit f i (f.collapseMinDelay i) := by
  rw [FunctionBase.collapseMinDelay]
  split
  next hnone =>
    rw [hnone] at hi
    cases hi
  next t delay operand hn =>
    split
    next t' delay' operand' hoperand =>
      have harrives : ∀ arrival, f.Arrives arrival →
          arrival operand' + (delay + delay') ≤ arrival i := by
        intro arrival ha
        have h : arrival operand + delay ≤ arrival i :=
          ha.le hn (Or.inr rfl) (List.mem_singleton_self _)
        have h' : arrival operand' + delay' ≤ arrival operand :=
          ha.le hoperand (Or.inr rfl) (List.mem_singleton_self _)
        omega
      split_ifs with hfits
      swap
      · -- the sum of the delays overflows
        refine Or.inl ⟨rfl, ?_⟩
        rintro ⟨arrival, ha⟩
        have h := harrives arrival ha
        have h' := ha.2 i
        omega
      right
      obtain ⟨-, o, ho, htype⟩ := hv.checked.minDelay operand _ hoperand rfl
      cases ho
      apply visits_made hv hn (Or.inr rfl) (Or.inr ⟨delay + delay', operand', rfl, rfl⟩)
      · intro o ho
        rw [List.mem_singleton.mp ho, htype]
      · intro rank hrank o ho
        rw [List.mem_singleton.mp ho]
        exact (hrank.lt ⟨_, hoperand, List.mem_singleton_self _⟩).trans
          (hrank.lt ⟨_, hn, List.mem_singleton_self _⟩)
      · intro throughInvoke a d val ha hval
        rw [longest_of_minDelay rfl rfl ha.length_ne, List.map_singleton,
          LongestPath.greatest_singleton, val_of_minDelay hv.checked ha hval hn rfl rfl,
          val_of_minDelay hv.checked ha hval hoperand rfl rfl, add_assoc]
        change _ = val operand' + WithBot.some (delay + delay')
        rw [WithBot.coe_add, add_comm (WithBot.some delay')]
      · intro arrival ha o ho
        rw [List.mem_singleton.mp ho]
        exact harrives arrival ha
    next => exact Or.inr (visits_unchanged hv)
  next => exact Or.inr (visits_unchanged hv)

/-! ## Duplicate operands -/

include hv hi in
theorem visits_removeDuplicateAfterAll : Visits f i (f.removeDuplicateAfterAll i) := by
  rw [FunctionBase.removeDuplicateAfterAll]
  split
  next hnone =>
    rw [hnone] at hi
    cases hi
  next t delay operands hn =>
    split_ifs with hduplicate
    · have hmem : ∀ o, o ∈ operands.dedup.insertionSort (· ≤ ·) ↔ o ∈ operands := by
        intro o
        rw [List.mem_insertionSort, List.mem_dedup]
      apply visits_made hv hn (Or.inl rfl) (Or.inl rfl)
      · intro o ho
        exact (hv.checked.afterAll i _ hn rfl).2 o ((hmem o).mp ho)
      · intro rank hrank o ho
        exact hrank.lt ⟨_, hn, (hmem o).mp ho⟩
      · intro throughInvoke a d val ha hval
        rw [longest_of_afterAll rfl rfl ha.length_ne, val_of_afterAll hv.checked ha hval hn rfl]
        apply LongestPath.greatest_congr_mem
        intro v
        rw [List.mem_map, List.mem_map]
        constructor
        · rintro ⟨o, ho, rfl⟩
          exact ⟨o, (hmem o).mpr ho, rfl⟩
        · rintro ⟨o, ho, rfl⟩
          exact ⟨o, (hmem o).mp ho, rfl⟩
      · exact fun arrival ha o ho => ha.le hn (Or.inl rfl) ((hmem o).mp ho)
    · exact visits_unchanged hv
  next => exact visits_unchanged hv

/-! ## Delays before an `after_all` -/

theorem Grown.isFixed (h : Grown f f₁) (ha : f.IsFixed a d) : f₁.IsFixed a d := by
  obtain ⟨m, hm, hlabel, hfixed⟩ := ha
  exact ⟨m, by rw [h.vertex a (TermGraph.lt_length_of_vertex hm), hm], hlabel, hfixed⟩

/-- The new operands: each has the delay of an operand without the least one. -/
structure Pushed (f : FunctionBase) (rank : ℕ → ℕ) (leastDelay bound : ℕ)
    (inputs : List (ℕ × ℕ)) (r : FunctionBase × List ℕ) : Prop where
  checked : r.1.Checked
  grown : Grown f r.1
  exists_rank : ∃ rank', r.1.nodes.Ranks rank' ∧ (∀ k < f.nodes.length, rank' k = rank k) ∧
    ∀ o ∈ r.2, rank' o < bound
  tokens : ∀ o ∈ r.2, r.1.type o = some .token
  delays : ∀ throughInvoke a d val, f.IsFixed a d → IsDelays throughInvoke r.1 a val →
    r.2.map val = inputs.map fun input => val input.1 + WithBot.some (input.2 - leastDelay)
  arrives : ∀ arrival end', f.Arrives arrival → end' < 2 ^ 63 →
    (∀ input ∈ inputs, leastDelay ≤ input.2 ∧ arrival input.1 + input.2 ≤ end') →
    ∃ arrival', r.1.Arrives arrival' ∧ (∀ k < f.nodes.length, arrival' k = arrival k) ∧
      ∀ o ∈ r.2, arrival' o + leastDelay ≤ end'

theorem pushInputs_spec (leastDelay : ℕ) {bound : ℕ} (inputs : List (ℕ × ℕ)) :
    ∀ {f : FunctionBase} {rank : ℕ → ℕ}, f.Checked → f.nodes.Ranks rank →
      (∀ input ∈ inputs, f.type input.1 = some .token ∧ rank input.1 + 1 < bound) →
      Pushed f rank leastDelay bound inputs (FunctionBase.pushInputs leastDelay f inputs) := by
  induction inputs with
  | nil =>
    intro f rank hchecked hrank _
    exact ⟨hchecked, Grown.refl f, ⟨rank, hrank, fun _ _ => rfl, List.forall_mem_nil _⟩,
      List.forall_mem_nil _, fun _ _ _ _ _ _ => rfl,
      fun arrival _ ha _ _ => ⟨arrival, ha, fun _ _ => rfl, List.forall_mem_nil _⟩⟩
  | cons input inputs ih =>
    obtain ⟨operand, delay⟩ := input
    intro f rank hchecked hrank hinputs
    obtain ⟨⟨htype, hbound⟩, hinputs⟩ := List.forall_mem_cons.mp hinputs
    have hlt := FunctionBase.lt_length_of_type htype
    rw [FunctionBase.pushInputs]
    split_ifs with hpositive
    · -- the rest of the delay is kept in a new node
      have hoperands : ∀ o ∈ [operand], f.type o = some .token := by
        intro o ho
        rw [List.mem_singleton.mp ho, htype]
      have hd : minDelay (delay - leastDelay) = afterAll ∨ ∃ delay' o,
          minDelay (delay - leastDelay) = minDelay delay' ∧ [operand] = [o] :=
        Or.inr ⟨_, operand, rfl, rfl⟩
      have hchecked₁ := hchecked.makeNode hoperands hd
      have hgrown₁ : Grown f (f.makeNode (minDelay (delay - leastDelay)) [operand]) :=
        grown_makeNode hchecked (Or.inr rfl) fun o ho => by
          rw [List.mem_singleton.mp ho]
          exact hlt
      have hrank₁ := hrank.make (n := ⟨minDelay (delay - leastDelay), [operand]⟩)
        (r := rank operand + 1) hchecked.bounded fun o ho => by
          rw [List.mem_singleton.mp ho]
          exact ⟨hlt, Nat.lt_succ_self _⟩
      have hold : ∀ k < f.nodes.length,
          Function.update rank f.nodes.length (rank operand + 1) k = rank k := by
        intro k hk
        exact Function.update_of_ne hk.ne _ _
      have h := ih hchecked₁ hrank₁ fun input hinput => by
        obtain ⟨ht, hb⟩ := hinputs input hinput
        have hlt' := FunctionBase.lt_length_of_type ht
        rw [FunctionBase.type_makeNode hlt', hold _ hlt']
        exact ⟨ht, hb⟩
      generalize FunctionBase.pushInputs leastDelay
        (f.makeNode (minDelay (delay - leastDelay)) [operand]) inputs = r at h ⊢
      have hnew : f.nodes.length < (f.makeNode (minDelay (delay - leastDelay))
          [operand]).nodes.length := by
        rw [FunctionBase.length_makeNode]
        exact Nat.lt_succ_self _
      have hvertex := (h.grown.vertex _ hnew).trans FunctionBase.vertex_makeNode_length
      obtain ⟨rank', hrank', hagree, hless⟩ := h.exists_rank
      refine ⟨h.checked, hgrown₁.trans h.grown, ⟨rank', hrank', ?_, ?_⟩, ?_, ?_, ?_⟩
      · intro k hk
        rw [hagree k (hk.trans hnew), hold k hk]
      · refine List.forall_mem_cons.mpr ⟨?_, hless⟩
        rw [hagree _ hnew, Function.update_self]
        exact hbound
      · exact List.forall_mem_cons.mpr
          ⟨FunctionBase.type_eq_some_iff.mpr ⟨_, hvertex, rfl⟩, h.tokens⟩
      · intro throughInvoke a d val ha hval
        rw [List.map_cons, h.delays throughInvoke a d val (hgrown₁.isFixed ha) hval,
          val_of_minDelay h.checked ((hgrown₁.trans h.grown).isFixed ha) hval hvertex rfl rfl]
        rfl
      · intro arrival end' ha hend harrive
        obtain ⟨⟨hleast, hoperand⟩, hinputs'⟩ := List.forall_mem_cons.mp harrive
        dsimp only at hleast hoperand
        have ha₁ : (f.makeNode (minDelay (delay - leastDelay)) [operand]).Arrives
            (Function.update arrival f.nodes.length (end' - leastDelay)) :=
          ha.makeNode hchecked.bounded (by omega) fun o ho => by
            rw [List.mem_singleton.mp ho]
            refine ⟨hlt, ?_⟩
            change arrival operand + (delay - leastDelay) ≤ _
            omega
        obtain ⟨arrival', ha', hagree', hless'⟩ := h.arrives _ end' ha₁ hend fun input hinput => by
          rw [Function.update_of_ne (FunctionBase.lt_length_of_type (hinputs input hinput).1).ne]
          exact hinputs' input hinput
        refine ⟨arrival', ha', fun k hk => ?_, List.forall_mem_cons.mpr ⟨?_, hless'⟩⟩
        · rw [hagree' k (hk.trans hnew), Function.update_of_ne hk.ne]
        · rw [hagree' _ hnew, Function.update_self]
          omega
    · -- nothing is left of the delay
      have h := ih hchecked hrank hinputs
      generalize FunctionBase.pushInputs leastDelay f inputs = r at h ⊢
      obtain ⟨rank', hrank', hagree, hless⟩ := h.exists_rank
      refine ⟨h.checked, h.grown, ⟨rank', hrank', hagree, ?_⟩, ?_, ?_, ?_⟩
      · refine List.forall_mem_cons.mpr ⟨?_, hless⟩
        rw [hagree operand hlt]
        exact Nat.lt_of_succ_lt hbound
      · refine List.forall_mem_cons.mpr ⟨?_, h.tokens⟩
        rw [FunctionBase.type, h.grown.vertex operand hlt]
        exact htype
      · intro throughInvoke a d val ha hval
        have hzero : delay - leastDelay = 0 := Nat.eq_zero_of_not_pos hpositive
        rw [List.map_cons, List.map_cons, h.delays throughInvoke a d val ha hval, hzero,
          WithBot.coe_zero, add_zero]
      · intro arrival end' ha hend harrive
        obtain ⟨⟨hleast, hoperand⟩, hinputs'⟩ := List.forall_mem_cons.mp harrive
        dsimp only at hleast hoperand
        obtain ⟨arrival', ha', hagree', hless'⟩ := h.arrives arrival end' ha hend hinputs'
        refine ⟨arrival', ha', hagree', List.forall_mem_cons.mpr ⟨?_, hless'⟩⟩
        rw [hagree' operand hlt]
        omega

theorem asMinDelay_eq_some {o : ℕ} {input : ℕ × ℕ} (h : f.asMinDelay o = some input) :
    ∃ t, f.nodes.vertex o = some ⟨⟨.minDelay, t, input.2⟩, [input.1]⟩ := by
  rw [FunctionBase.asMinDelay] at h
  split at h
  next t delay operand hn =>
    cases h
    exact ⟨t, hn⟩
  next => cases h

theorem foldl_min_le (inputs : List (ℕ × ℕ)) : ∀ delay : ℕ,
    inputs.foldl (fun least input => min least input.2) delay ≤ delay ∧
      ∀ input ∈ inputs, inputs.foldl (fun least input => min least input.2) delay ≤ input.2 := by
  induction inputs with
  | nil => exact fun delay => ⟨Nat.le_refl _, List.forall_mem_nil _⟩
  | cons input inputs ih =>
    intro delay
    obtain ⟨hle, hall⟩ := ih (min delay input.2)
    refine ⟨hle.trans (Nat.min_le_left _ _), List.forall_mem_cons.mpr ⟨?_, hall⟩⟩
    exact hle.trans (Nat.min_le_right _ _)

theorem ranks_double {g : TermGraph NodeData} {rank : ℕ → ℕ} (h : g.Ranks rank) :
    g.Ranks fun k => 2 * rank k + 1 := by
  intro k n hn o ho
  have hlt := h k n hn o ho
  change 2 * rank o + 1 < 2 * rank k + 1
  omega

/-- The delays of the operands, with the least one after all. -/
theorem greatest_inputs {inputs : List (ℕ × ℕ)} {leastDelay : ℕ} {delays : List (WithBot ℕ)}
    (hdelays : List.Forall₂ (fun v (input : ℕ × ℕ) => v = val input.1 + WithBot.some input.2)
      delays inputs) (hle : ∀ input ∈ inputs, leastDelay ≤ input.2) :
    greatest delays = greatest (inputs.map fun input =>
      val input.1 + WithBot.some (input.2 - leastDelay)) + WithBot.some leastDelay := by
  rw [← LongestPath.greatest_map_add, List.map_map]
  congr 1
  induction hdelays with
  | nil => rfl
  | @cons v input delays inputs hv _ ih =>
    obtain ⟨hle, hles⟩ := List.forall_mem_cons.mp hle
    rw [List.map_cons, ih hles, hv, Function.comp_apply, add_assoc, ← WithBot.coe_add,
      Nat.sub_add_cancel hle]

include hv hn in
/-- The new `after_all` and the least delay take the place of the old `after_all`. -/
theorem visits_pushed {rank : ℕ → ℕ} {leastDelay : ℕ} {inputs : List (ℕ × ℕ)} {newOperands : List ℕ}
    (hop : n.label.op = .afterAll)
    (hinputs : List.Forall₂ (fun o input => f.asMinDelay o = some input) n.operands inputs)
    (hne : inputs ≠ []) (hle : ∀ input ∈ inputs, leastDelay ≤ input.2)
    (h : Pushed f (fun k => 2 * rank k + 1) leastDelay (2 * rank i) inputs (f₁, newOperands)) :
    Visits f i (FunctionBase.changed ((((f₁.makeNode afterAll newOperands).makeNode
      (minDelay leastDelay) [f₁.nodes.length]).replaceNode i
        (f₁.makeNode afterAll newOperands).nodes.length))) := by
  obtain ⟨rank', hrank', hagree, hless⟩ := h.exists_rank
  have hd : afterAll = afterAll ∨ ∃ delay o, afterAll = minDelay delay ∧ newOperands = [o] :=
    Or.inl rfl
  have hd' : minDelay leastDelay = afterAll ∨ ∃ delay o,
      minDelay leastDelay = minDelay delay ∧ [f₁.nodes.length] = [o] := Or.inr ⟨_, _, rfl, rfl⟩
  have hlt : ∀ o ∈ newOperands, o < f₁.nodes.length := fun o ho =>
    FunctionBase.lt_length_of_type (h.tokens o ho)
  have hlength : (f₁.makeNode afterAll newOperands).nodes.length = f₁.nodes.length + 1 :=
    FunctionBase.length_makeNode
  have hi := TermGraph.lt_length_of_vertex hn
  have hi' : i < f₁.nodes.length := Nat.lt_of_lt_of_le hi h.grown.length_le
  have hchecked := h.checked.makeNode h.tokens hd
  have htoken : ∀ o ∈ [f₁.nodes.length], (f₁.makeNode afterAll newOperands).type o = some .token := by
    intro o ho
    rw [List.mem_singleton.mp ho]
    exact type_makeNode_length hd
  have hnew : ∀ o ∈ [f₁.nodes.length], o < (f₁.makeNode afterAll newOperands).nodes.length := by
    intro o ho
    rw [List.mem_singleton.mp ho, hlength]
    exact Nat.lt_succ_self _
  have hgrown := h.grown.trans (grown_makeNode h.checked (isRewritable_of_made hd) hlt)
  have hgrown' := grown_makeNode hchecked (isRewritable_of_made hd') hnew
  have hranks : (f₁.makeNode afterAll newOperands).nodes.Ranks
      (Function.update rank' f₁.nodes.length (2 * rank i)) :=
    hrank'.make h.checked.bounded fun o ho => ⟨hlt o ho, hless o ho⟩
  have hranks' : ((f₁.makeNode afterAll newOperands).makeNode (minDelay leastDelay)
      [f₁.nodes.length]).nodes.Ranks (Function.update
        (Function.update rank' f₁.nodes.length (2 * rank i))
        (f₁.makeNode afterAll newOperands).nodes.length (2 * rank i + 1)) := by
    apply hranks.make hchecked.bounded
    intro o ho
    refine ⟨hnew o ho, ?_⟩
    rw [List.mem_singleton.mp ho, Function.update_self]
    exact Nat.lt_succ_self _
  have hij : i ≠ (f₁.makeNode afterAll newOperands).nodes.length := by omega
  apply visits_grown hv hn (Or.inl hop) (hgrown.trans hgrown')
    (hchecked.makeNode htoken hd') hranks' hij
  · have hrewrite : rank' i = 2 * rank i + 1 := hagree i hi
    rw [Function.update_self, Function.update_of_ne hij, Function.update_of_ne hi'.ne, hrewrite]
  · exact type_makeNode_length hd'
  · intro throughInvoke a d val ha hval
    have hval₁ := (hgrown'.grows throughInvoke a).restrict val hval
    have hval₀ := (hgrown.grows throughInvoke a).restrict val hval₁
    have hval' := ((grown_makeNode h.checked (isRewritable_of_made hd) hlt).grows throughInvoke
      a).restrict val hval₁
    have hdelays : List.Forall₂ (fun v (input : ℕ × ℕ) => v = val input.1 + WithBot.some input.2)
        (n.operands.map val) inputs := by
      rw [List.forall₂_map_left_iff]
      apply hinputs.imp
      intro o input ho
      obtain ⟨t, ho⟩ := asMinDelay_eq_some ho
      exact val_of_minDelay hv.checked ha hval₀ ho rfl rfl
    have ha₁ := hgrown.isFixed ha
    rw [val_of_afterAll hv.checked ha hval₀ hn hop, greatest_inputs hdelays hle,
      ← h.delays throughInvoke a d val ha hval',
      ← val_of_afterAll hchecked ha₁ hval₁ FunctionBase.vertex_makeNode_length rfl,
      val_of_minDelay (hchecked.makeNode htoken hd') (hgrown'.isFixed ha₁) hval
        FunctionBase.vertex_makeNode_length rfl rfl]
    rfl
  · -- the delay is split between the two nodes
    rintro ⟨arrival, ha⟩
    have harrive : ∀ input ∈ inputs,
        leastDelay ≤ input.2 ∧ arrival input.1 + input.2 ≤ arrival i := by
      intro input hinput
      obtain ⟨o, ho, hasMinDelay⟩ := Relational.exists_of_forall₂ hinputs.flip hinput
      obtain ⟨t, ho'⟩ := asMinDelay_eq_some hasMinDelay
      have h₁ : arrival input.1 + input.2 ≤ arrival o :=
        ha.le ho' (Or.inr rfl) (List.mem_singleton_self _)
      have h₂ := ha.le hn (Or.inl hop) ho
      exact ⟨hle input hinput, by omega⟩
    obtain ⟨input, hinput⟩ := List.exists_mem_of_ne_nil inputs hne
    obtain ⟨hleast, hend⟩ := harrive input hinput
    have hlimit := ha.2 i
    obtain ⟨arrival', ha', hagree', hless'⟩ := h.arrives arrival (arrival i) ha hlimit harrive
    have ha₁ := ha'.makeNode (d := afterAll) (r := arrival i - leastDelay) h.checked.bounded
      (by omega) fun o ho => ⟨hlt o ho, by
        have hless := hless' o ho
        change arrival' o + 0 ≤ _
        omega⟩
    refine ⟨_, ha₁.makeNode (d := minDelay leastDelay) hchecked.bounded hlimit fun o ho =>
      ⟨hnew o ho, ?_⟩, ?_⟩
    · rw [List.mem_singleton.mp ho, Function.update_self]
      change arrival i - leastDelay + leastDelay ≤ _
      omega
    · rw [Function.update_self, Function.update_of_ne hij, Function.update_of_ne hi'.ne, hagree' i hi]

include hv hi in
theorem visits_pushDownMinDelay :
    Visits f i (f.pushDownMinDelay i) := by
  rw [FunctionBase.pushDownMinDelay]
  split
  next hnone =>
    rw [hnone] at hi
    cases hi
  next t delay operands hn =>
    split
    next operand delay inputs hinputs =>
      dsimp only
      generalize hleast : inputs.foldl (fun least input => min least input.2) delay = leastDelay
      split_ifs with hzero
      · exact visits_unchanged hv
      · have hle : ∀ input ∈ (operand, delay) :: inputs, leastDelay ≤ input.2 := by
          obtain ⟨hle, hles⟩ := foldl_min_le inputs delay
          rw [hleast] at hle hles
          exact List.forall_mem_cons.mpr ⟨hle, hles⟩
        have hforall := mapM_eq_some_iff.mp hinputs
        have hne := List.cons_ne_nil (operand, delay) inputs
        generalize (operand, delay) :: inputs = inputs at hforall hle hne
        obtain ⟨rank, hrank⟩ := hv.acyclic
        have hbound : ∀ input ∈ inputs, f.type input.1 = some .token ∧
            2 * rank input.1 + 1 + 1 < 2 * rank i := by
          intro input hinput
          obtain ⟨o, ho, hasMinDelay⟩ := Relational.exists_of_forall₂ hforall.flip hinput
          obtain ⟨t', ho'⟩ := asMinDelay_eq_some hasMinDelay
          obtain ⟨-, o', hoperand, htoken⟩ := hv.checked.minDelay o _ ho' rfl
          cases hoperand
          have h₁ := hrank.lt ⟨_, ho', List.mem_singleton_self _⟩
          have h₂ := hrank.lt ⟨_, hn, ho⟩
          exact ⟨htoken, by omega⟩
        have h := pushInputs_spec leastDelay inputs hv.checked (ranks_double hrank) hbound
        generalize FunctionBase.pushInputs leastDelay f inputs = r at h ⊢
        obtain ⟨f', newOperands⟩ := r
        exact visits_pushed hv hn rfl hforall hne hle h
    next => exact visits_unchanged hv
  next => exact visits_unchanged hv

/-! ## Overlapping operands -/

include hv in
theorem Rewrites.refl : Rewrites f f i :=
  ⟨hv, Preserved.refl f, fun _ _ h => h⟩

theorem Rewrites.trans {f'' : FunctionBase} (h : Rewrites f f' i) (h' : Rewrites f' f'' i) :
    Rewrites f f'' i :=
  ⟨h'.verified, h.preserved.trans h'.preserved,
    fun k hk hlive => h'.survives k hk (h.survives k hk hlive)⟩

theorem vertex_set {g : TermGraph NodeData} {m : Vertex NodeData} (hi : i < g.length) :
    TermGraph.vertex (g.set i (some m)) i = some m := by
  rw [TermGraph.vertex, List.getElem?_set_self hi]
  rfl

include hv hn in
/-- Operands of an `after_all` are left out, in favour of others with no smaller delays. -/
theorem rewrites_set {operands' : List ℕ} (hop : n.label.op = .afterAll)
    (hsubset : ∀ o ∈ operands', o ∈ n.operands)
    (hval : ∀ throughInvoke a d val, f.IsFixed a d → IsDelays throughInvoke f a val →
      ∀ o ∈ n.operands, ∃ o' ∈ operands', val o ≤ val o') :
    Rewrites f { f with nodes := f.nodes.set i (some ⟨n.label, operands'⟩) } i := by
  have hi := TermGraph.lt_length_of_vertex hn
  have hself : TermGraph.vertex (f.nodes.set i (some ⟨n.label, operands'⟩)) i =
      some ⟨n.label, operands'⟩ := vertex_set hi
  have hother : ∀ k, k ≠ i →
      TermGraph.vertex (f.nodes.set i (some ⟨n.label, operands'⟩)) k = f.nodes.vertex k := by
    intro k hk
    rw [TermGraph.vertex, TermGraph.vertex, List.getElem?_set_ne hk.symm]
  -- what a node is afterwards
  have hcases : ∀ k m, TermGraph.vertex (f.nodes.set i (some ⟨n.label, operands'⟩)) k = some m →
      ∃ m', f.nodes.vertex k = some m' ∧ m.label = m'.label ∧
        (∀ o ∈ m.operands, o ∈ m'.operands) ∧ (m.label.op ≠ .afterAll → m = m') := by
    intro k m hm
    by_cases hk : k = i
    · rw [hk, hself, Option.some.injEq] at hm
      rw [hk, ← hm]
      exact ⟨n, hn, rfl, hsubset, fun hne => absurd hop hne⟩
    · rw [hother k hk] at hm
      exact ⟨m, hm, rfl, fun _ h => h, fun _ => rfl⟩
  have hlive : ∀ k, (f.nodes.vertex k).isSome = true →
      (TermGraph.vertex (f.nodes.set i (some ⟨n.label, operands'⟩)) k).isSome = true := by
    intro k hk
    by_cases hki : k = i
    · rw [hki, hself]
      rfl
    · rw [hother k hki, hk]
  have htype : ∀ k, FunctionBase.type
      { f with nodes := f.nodes.set i (some ⟨n.label, operands'⟩) } k = f.type k := by
    intro k
    rw [FunctionBase.type, FunctionBase.type]
    by_cases hki : k = i
    · rw [hki, hself, hn]
      rfl
    · rw [hother k hki]
  obtain ⟨rank, hrank⟩ := hv.acyclic
  refine ⟨⟨⟨?_, fun k hk => hlive k (hv.checked.implicitUses k hk), ?_, ?_⟩, rank, ?_⟩,
    ⟨?_, ?_, ?_, rfl, ?_⟩, fun k _ hk => hlive k hk⟩
  · intro k m hm o ho
    obtain ⟨m', hm', -, hsub, -⟩ := hcases k m hm
    exact hlive o (hv.checked.live k m' hm' o (hsub o ho))
  · intro k m hm hmop
    obtain ⟨m', hm', hlabel, hsub, -⟩ := hcases k m hm
    rw [hlabel] at hmop ⊢
    obtain ⟨ht, hos⟩ := hv.checked.afterAll k m' hm' hmop
    exact ⟨ht, fun o ho => (htype o).trans (hos o (hsub o ho))⟩
  · intro k m hm hmop
    obtain ⟨m', hm', hlabel, -, heq⟩ := hcases k m hm
    have hmm : m = m' := heq (by rw [hmop]; decide)
    rw [hmm] at hmop ⊢
    obtain ⟨ht, o, ho, hto⟩ := hv.checked.minDelay k m' hm' hmop
    exact ⟨ht, o, ho, (htype o).trans hto⟩
  · intro k m hm o ho
    obtain ⟨m', hm', -, hsub, -⟩ := hcases k m hm
    exact hrank k m' hm' o (hsub o ho)
  · exact List.length_set.ge
  · intro k d
    constructor
    · rintro ⟨m, hm, hlabel, hfixed⟩
      have hki : k ≠ i := by
        rintro rfl
        rw [hn, Option.some.injEq] at hm
        rw [← hlabel, ← hm] at hfixed
        exact hfixed (Or.inl hop)
      exact ⟨m, (hother k hki).trans hm, hlabel, hfixed⟩
    · rintro ⟨m, hm, hlabel, hfixed⟩
      obtain ⟨m', hm', hlabel', -⟩ := hcases k m hm
      exact ⟨m', hm', hlabel'.symm.trans hlabel, hfixed⟩
  · intro throughInvoke a d val ha hdelays
    refine ⟨val, ?_, fun _ _ => rfl, rfl⟩
    intro k m hm
    by_cases hki : k = i
    · rw [hki] at hm ⊢
      have hm' : some (⟨n.label, operands'⟩ : Vertex NodeData) = some m := hself.symm.trans hm
      rw [← Option.some.inj hm']
      have hai := ha.ne hn (Or.inl hop)
      have ht := (hv.checked.afterAll i n hn hop).1
      apply congrArg some
      rw [longest_of_afterAll hop ht hai, val_of_afterAll hv.checked ha hdelays hn hop]
      apply LongestPath.greatest_congr
      · intro v hv'
        obtain ⟨o, ho, rfl⟩ := List.mem_map.mp hv'
        exact ⟨val o, List.mem_map_of_mem (hsubset o ho), le_rfl⟩
      · intro v hv'
        obtain ⟨o, ho, rfl⟩ := List.mem_map.mp hv'
        obtain ⟨o', ho', hle⟩ := hval throughInvoke a d val ha hdelays o ho
        exact ⟨val o', List.mem_map_of_mem ho', hle⟩
    · exact hdelays k m ((hother k hki).symm.trans hm)
  · rintro ⟨arrival, hrises, hlt⟩
    refine ⟨arrival, fun k m w hm hw o ho => ?_, hlt⟩
    obtain ⟨m', hm', hlabel, hsub, -⟩ := hcases k m hm
    exact hrises k m' w hm' (hlabel ▸ hw) o (hsub o ho)

/-- The delays of a node are no smaller than those of its dependencies. -/
theorem le_of_mem_dependenciesOf {root other : ℕ} (hval : IsDelays throughInvoke f a val)
    (h : other ∈ f.dependenciesOf root) : val other ≤ val root := by
  rw [FunctionBase.dependenciesOf] at h
  split_ifs at h with hroot
  · have hnone : ∀ x, f.nodes.length ≤ x → f.dependencies x = [] := by
      intro x hx
      have hvertex : f.nodes.vertex x = none := by
        rw [TermGraph.vertex, List.getElem?_eq_none hx]
        rfl
      rw [FunctionBase.dependencies, hvertex]
    have hpath := (Digraph.mem_search hnone).mp h
    have hstep : ∀ x, Relation.ReflTransGen (fun x y => y ∈ f.dependencies x) root x →
        f.hasToken x = true ∧ val x ≤ val root := by
      intro x hx
      induction hx with
      | refl => exact ⟨hroot, le_rfl⟩
      | @tail x y _ hxy ih =>
        obtain ⟨htoken, hle⟩ := ih
        rw [FunctionBase.dependencies] at hxy
        rcases hn : f.nodes.vertex x with - | n
        · rw [hn] at hxy
          cases hxy
        · rw [hn] at hxy
          dsimp only at hxy
          split_ifs at hxy with hinvoke
          · cases hxy
          · obtain ⟨hy, hytoken⟩ := List.mem_filter.mp hxy
            refine ⟨hytoken, le_trans ?_ hle⟩
            have hx' : longest (metric throughInvoke) a x n.label (n.operands.map val) = val x :=
              Option.some.inj (hval x n hn)
            have hon : (metric throughInvoke).on n.label = true := by
              rw [FunctionBase.hasToken, FunctionBase.type, hn] at htoken
              exact htoken
            have hthrough : (metric throughInvoke).through n.label = true := by
              change (throughInvoke || decide (n.label.op ≠ .invoke)) = true
              rw [Bool.or_eq_true, decide_eq_true_eq]
              exact Or.inr hinvoke
            rw [← hx', longest, if_pos hon, if_pos hthrough]
            have hgreatest : val y ≤ greatest (n.operands.map val) :=
              LongestPath.le_greatest (List.mem_map_of_mem hy)
            refine le_trans ?_ le_sup_right
            calc val y ≤ greatest (n.operands.map val) := hgreatest
              _ = greatest (n.operands.map val) + WithBot.some 0 := by
                rw [WithBot.coe_zero, add_zero]
              _ ≤ _ := add_le_add_right (WithBot.coe_le_coe.mpr (Nat.zero_le _)) _
    exact (hstep other hpath).2
  · cases h

include hv hn in
/-- One operand of an `after_all` is put in the place of those it depends on. -/
theorem rewrites_overlap (hop : n.label.op = .afterAll) (p : ℕ) :
    Rewrites f (f.overlap i p).1 i ∧ ∃ operands,
      (f.overlap i p).1.nodes.vertex i = some ⟨n.label, operands⟩ := by
  rw [FunctionBase.overlap, hn]
  dsimp only
  rcases hp : n.operands[p]? with - | operand
  · exact ⟨Rewrites.refl hv, n.operands, hn⟩
  · have hmem := List.mem_of_getElem? hp
    constructor
    · apply rewrites_set hv hn hop
      · intro o ho
        obtain ⟨other, hother, rfl⟩ := List.mem_map.mp ho
        split_ifs
        · exact hmem
        · exact hother
      · intro throughInvoke a d val ha hval o ho
        by_cases hreplaces : o ∈ f.dependenciesOf operand ∧ operand ≠ o
        · refine ⟨operand, ?_, le_of_mem_dependenciesOf hval hreplaces.1⟩
          refine List.mem_map.mpr ⟨operand, hmem, ?_⟩
          rw [if_neg]
          rw [decide_eq_true_eq]
          exact fun h => h.2 rfl
        · refine ⟨o, List.mem_map.mpr ⟨o, ho, ?_⟩, le_rfl⟩
          rw [if_neg]
          rw [decide_eq_true_eq]
          exact hreplaces
    · exact ⟨_, vertex_set (TermGraph.lt_length_of_vertex hn)⟩

include hv hi in
theorem visits_replaceOverlappingAfterAll : Visits f i (f.replaceOverlappingAfterAll i) := by
  rw [FunctionBase.replaceOverlappingAfterAll]
  split
  next hnone =>
    rw [hnone] at hi
    cases hi
  next t delay operands hn =>
    -- the loop over the operands, whose number stays the same
    have hloop : ∀ (ps : List ℕ) (s : FunctionBase × Bool), Rewrites f s.1 i →
        (∃ operands, s.1.nodes.vertex i = some ⟨⟨.afterAll, t, delay⟩, operands⟩) →
        Rewrites f (ps.foldl (fun s p =>
          ((s.1.overlap i p).1, s.2 || (s.1.overlap i p).2)) s).1 i := by
      intro ps
      induction ps with
      | nil => exact fun s h _ => h
      | cons p ps ih =>
        rintro s h ⟨operands, hs⟩
        obtain ⟨hrewrites, hvertex⟩ := rewrites_overlap h.verified hs rfl p
        exact ih _ (h.trans hrewrites) hvertex
    exact ⟨_, _, rfl, hloop _ (f, false) (Rewrites.refl hv) ⟨operands, hn⟩⟩
  next => exact visits_unchanged hv

end Xls.TokenSimplification
