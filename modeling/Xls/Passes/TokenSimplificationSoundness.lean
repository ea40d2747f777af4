/-
# What token simplification preserves

An `after_all` is taken apart into the `after_all` nodes which use it.  The loops of the pass visit
the nodes of a list which was taken before: a node is still there when its turn comes.  So a run of
the pass fails only where the sum of some delays overflows, and the longest delays stay the same.

* `collapseInto_spec` : the loop over the users of an `after_all`;
* `rewriteAll_spec`, `rewriteAll_collapseAfterAll` : the loops over all nodes;
* `run_preserves` : a run of the pass;
* `reverseTopoSort_isReverseTopological` : the orders of the iterator.
-/
import Xls.Ir.NodeIterator
import Xls.Passes.TokenSimplificationRewrites

namespace Xls.TokenSimplification

open LongestPath (greatest longest)

variable {f f' f₀ : FunctionBase} {i j k a node user : ℕ} {d : NodeData} {operands us : List ℕ}
  {throughInvoke : Bool} {val : ℕ → WithBot ℕ} {n : Vertex NodeData}

/-! ## Operands of the users -/

theorem FunctionBase.eq_replaced (h : f.replaceNode i j = some f') : f' = f.replaced i j := by
  rw [replaceNode, replaceUsesWith] at h
  split_ifs at h
  · rw [Option.bind_some, removeNode] at h
    split_ifs at h
    exact (Option.some.inj h).symm
  · cases h

theorem isAfterAll_iff : f.isAfterAll i = true ↔
    ∃ n, f.nodes.vertex i = some n ∧ n.label.op = .afterAll := by
  rw [FunctionBase.isAfterAll]
  rcases hn : f.nodes.vertex i with - | n
  · exact ⟨nofun, fun ⟨n, hn, _⟩ => by cases hn⟩
  · constructor
    · intro h
      exact ⟨n, rfl, of_decide_eq_true h⟩
    · rintro ⟨m, hm, hop⟩
      cases hm
      exact decide_eq_true hop

/-- A use after a new node took the place of another one, by a node which was there. -/
theorem usedBy_of_replaced {m : NodeData} {os : List ℕ} {o : ℕ} (ho : o < f.nodes.length)
    (hk : k < f.nodes.length)
    (h : ((f.makeNode m os).replaced user f.nodes.length).nodes.UsedBy o k) :
    k ≠ user ∧ f.nodes.UsedBy o k := by
  obtain ⟨n, hn, hmem⟩ := h
  have hku := TermGraph.ne_of_vertex_replaceVertex hn
  rw [FunctionBase.vertex_replaced hku, Option.map_eq_some_iff] at hn
  obtain ⟨n', hn', rfl⟩ := hn
  rw [FunctionBase.vertex_makeNode hk] at hn'
  obtain ⟨o', ho', heq⟩ := List.mem_map.mp hmem
  rw [TermGraph.redirect] at heq
  split_ifs at heq
  · omega
  · exact ⟨hku, n', hn', heq ▸ ho'⟩

/-- The loop over the users of an `after_all`, some of which are left. -/
structure Collapsing (f₀ f : FunctionBase) (node : ℕ) (d : NodeData) (operands us : List ℕ) :
    Prop where
  verified : f.Verified
  preserved : Preserved f₀ f
  nodup : us.Nodup
  lt : node < f₀.nodes.length
  vertex : f.nodes.vertex node = some ⟨d, operands⟩
  implicitUses : node ∉ f.implicitUses
  isAfterAll : ∀ u ∈ us, f.isAfterAll u = true
  usedBy : ∀ k, f.nodes.UsedBy node k ↔ k ∈ us
  survives : ∀ k, ¬ f₀.nodes.UsedBy node k → (f₀.nodes.vertex k).isSome = true →
    (f.nodes.vertex k).isSome = true
  uses : ∀ o k, o < f₀.nodes.length → k < f₀.nodes.length → f.nodes.UsedBy o k →
    f₀.nodes.UsedBy o k

/-- The `after_all` and the user which is next. -/
structure IsUser (f : FunctionBase) (node user : ℕ) (operands : List ℕ) (n : Vertex NodeData) :
    Prop where
  vertex : f.nodes.vertex user = some n
  op : n.label.op = .afterAll
  mem : node ∈ n.operands
  ne : node ≠ user
  not_mem : user ∉ operands
  self : node ∉ operands

theorem Collapsing.exists_isUser (h : Collapsing f₀ f node d operands (user :: us)) :
    ∃ n, IsUser f node user operands n := by
  obtain ⟨n, hn, hnop⟩ := isAfterAll_iff.mp (h.isAfterAll user List.mem_cons_self)
  obtain ⟨rank, hrank⟩ := h.verified.acyclic
  have hused : f.nodes.UsedBy node user := (h.usedBy user).mpr List.mem_cons_self
  refine ⟨n, hn, hnop, ?_, ?_, ?_, hrank.not_mem_operands h.vertex⟩
  · obtain ⟨m, hm, hmem⟩ := hused
    rw [hn, Option.some.injEq] at hm
    rwa [hm]
  · rintro rfl
    exact Nat.lt_irrefl _ (hrank.lt hused)
  · intro hmem
    exact Nat.lt_asymm (hrank.lt hused) (hrank.lt ⟨_, h.vertex, hmem⟩)

/-- The operands of the node which takes the place of the user: the `after_all` is taken apart. -/
def collapsedOperands (node : ℕ) (operands : List ℕ) (n : Vertex NodeData) : List ℕ :=
  n.operands.filter (fun o => o != node) ++ operands

theorem mem_collapsedOperands {o : ℕ} :
    o ∈ collapsedOperands node operands n ↔ o ∈ n.operands ∧ o ≠ node ∨ o ∈ operands := by
  rw [collapsedOperands, List.mem_append, List.mem_filter, bne_iff_ne]

section

variable (h : Collapsing f₀ f node d operands (user :: us))

include h

/-- The delays of the new operands are those of the operands of the user. -/
theorem Collapsing.greatest_operands
    (hop : d.op = .afterAll) (hu : IsUser f node user operands n) {d' : NodeData}
    (ha : f.IsFixed a d') (hval : IsDelays throughInvoke f a val) :
    greatest (n.operands.map val) = greatest ((collapsedOperands node operands n).map val) := by
  have hvalnode : val node = greatest (operands.map val) :=
    val_of_afterAll h.verified.checked ha hval h.vertex hop
  rw [collapsedOperands, List.map_append, LongestPath.greatest_append]
  apply le_antisymm
  · rw [LongestPath.greatest_le_iff]
    intro v hv
    obtain ⟨o, ho, rfl⟩ := List.mem_map.mp hv
    by_cases hon : o = node
    · rw [hon, hvalnode]
      exact le_sup_right
    · refine le_trans (LongestPath.le_greatest (List.mem_map_of_mem ?_)) le_sup_left
      exact List.mem_filter.mpr ⟨ho, bne_iff_ne.mpr hon⟩
  · apply sup_le
    · rw [LongestPath.greatest_le_iff]
      intro v hv
      obtain ⟨o, ho, rfl⟩ := List.mem_map.mp hv
      exact LongestPath.le_greatest (List.mem_map_of_mem (List.mem_of_mem_filter ho))
    · rw [← hvalnode]
      exact LongestPath.le_greatest (List.mem_map_of_mem hu.mem)

theorem Collapsing.visits (hop : d.op = .afterAll) (hu : IsUser f node user operands n) :
    Visits f user (FunctionBase.changed ((f.makeNode TokenSimplification.afterAll
      (collapsedOperands node operands n)).replaceNode user f.nodes.length)) := by
  have hused : f.nodes.UsedBy node user := ⟨n, hu.vertex, hu.mem⟩
  apply visits_made h.verified hu.vertex (Or.inl hu.op) (Or.inl rfl)
  · intro o ho
    rcases mem_collapsedOperands.mp ho with ⟨ho, -⟩ | ho
    · exact (h.verified.checked.afterAll user n hu.vertex hu.op).2 o ho
    · exact (h.verified.checked.afterAll node _ h.vertex hop).2 o ho
  · intro rank hrank o ho
    rcases mem_collapsedOperands.mp ho with ⟨ho, -⟩ | ho
    · exact hrank.lt ⟨n, hu.vertex, ho⟩
    · exact (hrank.lt ⟨_, h.vertex, ho⟩).trans (hrank.lt hused)
  · intro throughInvoke a d' val ha hval
    rw [longest_of_afterAll rfl rfl ha.length_ne,
      val_of_afterAll h.verified.checked ha hval hu.vertex hu.op,
      h.greatest_operands hop hu ha hval]
  · intro arrival ha o ho
    rcases mem_collapsedOperands.mp ho with ⟨ho, -⟩ | ho
    · exact (Nat.le_add_right _ _).trans (ha.le hu.vertex (Or.inl hu.op) ho)
    · have h₁ := ha.le h.vertex (Or.inl hop) ho
      have h₂ := ha.le hu.vertex (Or.inl hu.op) hu.mem
      change arrival o + 0 ≤ _
      omega

/-- The `after_all` is left with the users which have not been replaced. -/
theorem Collapsing.usedBy_replaced (hu : IsUser f node user operands n) :
    ((f.makeNode TokenSimplification.afterAll (collapsedOperands node operands n)).replaced user
      f.nodes.length).nodes.UsedBy node k ↔ k ∈ us := by
  have hnodelt := TermGraph.lt_length_of_vertex h.vertex
  constructor
  · intro hk
    rcases Nat.lt_or_ge k f.nodes.length with hlt | hge
    · obtain ⟨hku, huse⟩ := usedBy_of_replaced hnodelt hlt hk
      exact (List.mem_cons.mp ((h.usedBy k).mp huse)).resolve_left hku
    · -- the new node does not use the old one
      obtain ⟨m, hm, hmem⟩ := hk
      have hku := TermGraph.ne_of_vertex_replaceVertex hm
      rw [FunctionBase.vertex_replaced hku, Option.map_eq_some_iff] at hm
      obtain ⟨m', hm', rfl⟩ := hm
      rcases FunctionBase.vertex_makeNode_cases hm' with hm' | ⟨-, rfl⟩
      · exact absurd (TermGraph.lt_length_of_vertex hm') (Nat.not_lt.mpr hge)
      · obtain ⟨o, ho, heq⟩ := List.mem_map.mp hmem
        rw [TermGraph.redirect] at heq
        split_ifs at heq
        · omega
        · rw [heq] at ho
          rcases mem_collapsedOperands.mp ho with ⟨-, hne⟩ | ho
          · exact absurd rfl hne
          · exact absurd ho hu.self
  · intro hk
    have hku : k ≠ user := by
      rintro rfl
      exact (List.nodup_cons.mp h.nodup).1 hk
    obtain ⟨m, hm, hmem⟩ := (h.usedBy k).mpr (List.mem_cons_of_mem user hk)
    refine ⟨⟨m.label, m.operands.map (TermGraph.redirect user f.nodes.length)⟩, ?_, ?_⟩
    · rw [FunctionBase.vertex_replaced hku,
        FunctionBase.vertex_makeNode (TermGraph.lt_length_of_vertex hm), hm]
      rfl
    · exact List.mem_map.mpr ⟨node, hmem, if_neg hu.ne⟩

/-- One user is replaced. -/
theorem Collapsing.step (hop : d.op = .afterAll) : ∃ n f', f.nodes.vertex user = some n ∧
      (f.makeNode TokenSimplification.afterAll (collapsedOperands node operands n)).replaceNode user
        f.nodes.length = some f' ∧ Collapsing f₀ f' node d operands us := by
  obtain ⟨n, hu⟩ := h.exists_isUser
  have hnodelt := TermGraph.lt_length_of_vertex h.vertex
  obtain ⟨f', c, hresult, hrewrites⟩ := h.visits hop hu
  obtain ⟨f'', hreplace, hf''⟩ := Option.map_eq_some_iff.mp hresult
  cases hf''
  refine ⟨n, f', hu.vertex, hreplace, ?_⟩
  have hf' := FunctionBase.eq_replaced hreplace
  refine ⟨hrewrites.verified, h.preserved.trans hrewrites.preserved, h.nodup.of_cons, h.lt, ?_, ?_,
    ?_, fun k => by rw [hf', h.usedBy_replaced hu], ?_, ?_⟩
  · rw [hf', FunctionBase.vertex_replaced hu.ne, FunctionBase.vertex_makeNode hnodelt, h.vertex,
      Option.map_some]
    have hredirect : operands.map (TermGraph.redirect user f.nodes.length) = operands.map id := by
      apply List.map_congr_left
      intro o ho
      rw [TermGraph.redirect, if_neg, id]
      rintro rfl
      exact hu.not_mem ho
    rw [hredirect, List.map_id]
  · rw [hf']
    intro hmem
    obtain ⟨k, hk, heq⟩ := List.mem_map.mp hmem
    rw [TermGraph.redirect] at heq
    split_ifs at heq
    · omega
    · exact h.implicitUses (heq ▸ hk)
  · intro u hmem
    have huu : u ≠ user := by
      rintro rfl
      exact (List.nodup_cons.mp h.nodup).1 hmem
    obtain ⟨m, hm, hmop⟩ := isAfterAll_iff.mp (h.isAfterAll u (List.mem_cons_of_mem user hmem))
    refine isAfterAll_iff.mpr
      ⟨⟨m.label, m.operands.map (TermGraph.redirect user f.nodes.length)⟩, ?_, hmop⟩
    rw [hf', FunctionBase.vertex_replaced huu,
      FunctionBase.vertex_makeNode (TermGraph.lt_length_of_vertex hm), hm]
    rfl
  · intro k hk hlive
    apply hrewrites.survives k _ (h.survives k hk hlive)
    rintro rfl
    exact hk (h.uses node k h.lt (FunctionBase.lt_length_of_isSome hlive) ⟨n, hu.vertex, hu.mem⟩)
  · intro o k ho hk huse
    rw [hf'] at huse
    have ho' := Nat.lt_of_lt_of_le ho h.preserved.length_le
    have hk' := Nat.lt_of_lt_of_le hk h.preserved.length_le
    exact h.uses o k ho hk (usedBy_of_replaced ho' hk' huse).2

end

/-- All users are replaced. -/
theorem collapseInto_spec (hop : d.op = .afterAll) (us : List ℕ) : ∀ {f : FunctionBase},
    Collapsing f₀ f node d operands us → ∃ f',
      FunctionBase.collapseInto node operands us f = some f' ∧
        Collapsing f₀ f' node d operands [] := by
  induction us with
  | nil => exact fun h => ⟨_, rfl, h⟩
  | cons user us ih =>
    intro f h
    obtain ⟨n, f₁, hn, hreplace, h₁⟩ := h.step hop
    obtain ⟨f', hf', h'⟩ := ih h₁
    refine ⟨f', ?_, h'⟩
    rw [collapsedOperands] at hreplace
    rw [FunctionBase.collapseInto, hn]
    dsimp only
    rw [hreplace]
    exact hf'

theorem vertex_of_remove {g : TermGraph NodeData} (h : (g.remove i).vertex k = some n) :
    k ≠ i ∧ g.vertex k = some n := by
  have hki : k ≠ i := by
    rintro rfl
    rw [TermGraph.vertex_remove_self] at h
    cases h
  rw [TermGraph.vertex_remove_of_ne hki] at h
  exact ⟨hki, h⟩

/-- A node without uses is removed. -/
theorem rewrites_remove (hv : f.Verified) (hn : f.nodes.vertex i = some n)
    (hop : IsRewritable n.label.op) (huses : ¬ f.nodes.Uses i) (himplicit : i ∉ f.implicitUses) :
    Rewrites f { f with nodes := f.nodes.remove i } i := by
  have hvertex : ∀ k m, (f.nodes.remove i).vertex k = some m →
      k ≠ i ∧ f.nodes.vertex k = some m := fun k m hm => vertex_of_remove hm
  have hlive : ∀ k, k ≠ i → (f.nodes.vertex k).isSome = true →
      ((f.nodes.remove i).vertex k).isSome = true := by
    intro k hki hk
    rw [TermGraph.vertex_remove_of_ne hki, hk]
  have htype : ∀ k, k ≠ i → FunctionBase.type { f with nodes := f.nodes.remove i } k =
      f.type k := by
    intro k hki
    rw [FunctionBase.type, FunctionBase.type, TermGraph.vertex_remove_of_ne hki]
  have hoperand : ∀ k m, f.nodes.vertex k = some m → ∀ o ∈ m.operands, o ≠ i := by
    rintro k m hm o ho rfl
    exact huses ⟨k, m, hm, ho⟩
  obtain ⟨rank, hrank⟩ := hv.acyclic
  refine ⟨⟨⟨?_, ?_, ?_, ?_⟩, rank, ?_⟩, ⟨?_, ?_, ?_, rfl, ?_⟩, hlive⟩
  · intro k m hm o ho
    obtain ⟨-, hm⟩ := hvertex k m hm
    exact hlive o (hoperand k m hm o ho) (hv.checked.live k m hm o ho)
  · intro k hk
    apply hlive k _ (hv.checked.implicitUses k hk)
    rintro rfl
    exact himplicit hk
  · intro k m hm hmop
    obtain ⟨-, hm⟩ := hvertex k m hm
    obtain ⟨ht, hos⟩ := hv.checked.afterAll k m hm hmop
    exact ⟨ht, fun o ho => (htype o (hoperand k m hm o ho)).trans (hos o ho)⟩
  · intro k m hm hmop
    obtain ⟨-, hm⟩ := hvertex k m hm
    obtain ⟨ht, o, ho, hto⟩ := hv.checked.minDelay k m hm hmop
    have hmem : o ∈ m.operands := by
      rw [ho]
      exact List.mem_singleton_self o
    exact ⟨ht, o, ho, (htype o (hoperand k m hm o hmem)).trans hto⟩
  · exact fun k m hm => hrank k m (hvertex k m hm).2
  · exact TermGraph.length_remove.ge
  · intro k d
    constructor
    · rintro ⟨m, hm, hlabel, hfixed⟩
      have hki : k ≠ i := by
        rintro rfl
        rw [hn, Option.some.injEq] at hm
        rw [← hlabel, ← hm] at hfixed
        exact hfixed hop
      exact ⟨m, (TermGraph.vertex_remove_of_ne hki).trans hm, hlabel, hfixed⟩
    · rintro ⟨m, hm, hlabel, hfixed⟩
      exact ⟨m, (hvertex k m hm).2, hlabel, hfixed⟩
  · intro throughInvoke a d val _ hdelays
    refine ⟨val, ?_, fun _ _ => rfl, rfl⟩
    intro k m hm
    exact hdelays k m (hvertex k m hm).2
  · rintro ⟨arrival, hrises, hlt⟩
    exact ⟨arrival, fun k m w hm => hrises k m w (hvertex k m hm).2, hlt⟩

/-- What a visit of `CollapseAfterAll` does: nodes other than the visited one and its users are left,
and no node which was there gets a new use by one which was there. -/
theorem visits_collapseAfterAll (hv : f.Verified) (hi : (f.nodes.vertex i).isSome = true) :
    ∃ f' c, f.collapseAfterAll i = some (f', c) ∧ f'.Verified ∧ Preserved f f' ∧
      (∀ k, k ≠ i → ¬ f.nodes.UsedBy i k → (f.nodes.vertex k).isSome = true →
        (f'.nodes.vertex k).isSome = true) ∧
      ∀ o k, o < f.nodes.length → k < f.nodes.length → f'.nodes.UsedBy o k →
        f.nodes.UsedBy o k := by
  have hunchanged : ∃ f' c, some (f, false) = some (f', c) ∧ f'.Verified ∧ Preserved f f' ∧
      (∀ k, k ≠ i → ¬ f.nodes.UsedBy i k → (f.nodes.vertex k).isSome = true →
        (f'.nodes.vertex k).isSome = true) ∧
      ∀ o k, o < f.nodes.length → k < f.nodes.length → f'.nodes.UsedBy o k → f.nodes.UsedBy o k :=
    ⟨f, false, rfl, hv, Preserved.refl f, fun _ _ _ h => h, fun _ _ _ _ h => h⟩
  rw [FunctionBase.collapseAfterAll]
  split
  next hnone =>
    rw [hnone] at hi
    cases hi
  next t delay operands hn =>
    split_ifs with himplicit husers
    · exact hunchanged
    · have hstart : Collapsing f f i ⟨.afterAll, t, delay⟩ operands (f.users i) := by
        refine ⟨hv, Preserved.refl f, List.nodup_range.filter _, TermGraph.lt_length_of_vertex hn, hn,
          himplicit, ?_, ?_, fun _ _ h => h, fun _ _ _ _ h => h⟩
        · exact List.all_eq_true.mp husers
        · intro k
          rw [FunctionBase.users, TermGraph.mem_users]
      obtain ⟨f₁, hf₁, h₁⟩ := collapseInto_spec rfl _ hstart
      have huses : ¬ f₁.nodes.Uses i := by
        rintro ⟨k, m, hm, hmem⟩
        exact absurd ((h₁.usedBy k).mp ⟨m, hm, hmem⟩) List.not_mem_nil
      have hremove := rewrites_remove h₁.verified h₁.vertex (Or.inl rfl) huses h₁.implicitUses
      refine ⟨{ f₁ with nodes := f₁.nodes.remove i }, !(f.users i).isEmpty, ?_, hremove.verified,
        h₁.preserved.trans hremove.preserved, ?_, ?_⟩
      · rw [hf₁]
        dsimp only
        rw [FunctionBase.removeNode_eq_some huses h₁.implicitUses]
        rfl
      · intro k hki hk hlive
        exact hremove.survives k hki (h₁.survives k hk hlive)
      · rintro o k ho hk ⟨m, hm, hmem⟩
        exact h₁.uses o k ho hk ⟨m, (vertex_of_remove hm).2, hmem⟩
    · exact hunchanged
  next => exact hunchanged

/-! ## The loops of the pass -/

/-- The nodes in some order. -/
def IsListing (f : FunctionBase) (order : List ℕ) : Prop :=
  order.Nodup ∧ ∀ i, i ∈ order ↔ (f.nodes.vertex i).isSome = true

/-- The nodes in an order in which users come before their operands. -/
def IsReverseTopological (f : FunctionBase) (order : List ℕ) : Prop :=
  IsListing f order ∧ order.Pairwise fun x y => ¬ f.nodes.UsedBy x y

variable {rewrite : FunctionBase → ℕ → Option (FunctionBase × Bool)} {order : FunctionBase → List ℕ}

/-- What was run succeeds, or fails where there are no arrival times. -/
def Runs (f : FunctionBase) (result : Option (FunctionBase × Bool)) : Prop :=
  result = none ∧ ¬ f.HasArrivals ∨
    ∃ f' c, result = some (f', c) ∧ f'.Verified ∧ Preserved f f'

variable {result : Option (FunctionBase × Bool)}

theorem Runs.of_preserved (hp : Preserved f f') (h : Runs f' result) : Runs f result := by
  rcases h with ⟨hnone, hnot⟩ | ⟨f'', c, hsome, hv, hp'⟩
  · exact Or.inl ⟨hnone, fun ha => hnot (hp.arrives ha)⟩
  · exact Or.inr ⟨f'', c, hsome, hv, hp.trans hp'⟩

theorem Runs.bind {next : FunctionBase × Bool → Option (FunctionBase × Bool)} (h : Runs f result)
    (hnext : ∀ f' c, f'.Verified → Runs f' (next (f', c))) : Runs f (result.bind next) := by
  rcases h with ⟨rfl, hnot⟩ | ⟨f', c, rfl, hv, hp⟩
  · exact Or.inl ⟨rfl, hnot⟩
  · exact (hnext f' c hv).of_preserved hp

/-- A loop whose rewrites remove no other node than the visited one. -/
theorem rewriteAll_spec
    (hrewrite : ∀ f i, f.Verified → (f.nodes.vertex i).isSome = true → MayVisit f i (rewrite f i))
    (hv : f.Verified) (horder : IsListing f (order f)) (c : Bool) :
    Runs f (rewriteAll rewrite order (f, c)) := by
  have hloop : ∀ (todo : List ℕ) (f : FunctionBase) (c : Bool), f.Verified → todo.Nodup →
      (∀ i ∈ todo, (f.nodes.vertex i).isSome = true) → Runs f (todo.foldlM (fun s node =>
        (rewrite s.1 node).map fun r => (r.1, s.2 || r.2)) (f, c)) := by
    intro todo
    induction todo with
    | nil => exact fun f c hv _ _ => Or.inr ⟨f, c, rfl, hv, Preserved.refl f⟩
    | cons i todo ih =>
      intro f c hv hnodup hlive
      obtain ⟨hi, hnodup⟩ := List.nodup_cons.mp hnodup
      rw [List.foldlM_cons]
      rcases hrewrite f i hv (hlive i List.mem_cons_self) with ⟨hnone, hnot⟩ | ⟨f₁, c₁, hf₁, h₁⟩
      · rw [hnone]
        exact Or.inl ⟨rfl, hnot⟩
      · rw [hf₁]
        refine (ih f₁ (c || c₁) h₁.verified hnodup fun k hk => ?_).of_preserved h₁.preserved
        apply h₁.survives k _ (hlive k (List.mem_cons_of_mem i hk))
        rintro rfl
        exact hi hk
  exact hloop (order f) f c hv horder.1 fun i hi => (horder.2 i).mp hi

/-- The loop of `CollapseAfterAll`: the users of a node, which go with it, have been visited. -/
theorem rewriteAll_collapseAfterAll (hv : f.Verified)
    (horder : IsReverseTopological f (order f)) (c : Bool) :
    Runs f (rewriteAll FunctionBase.collapseAfterAll order (f, c)) := by
  have hloop : ∀ (todo : List ℕ) (f : FunctionBase) (c : Bool), f.Verified → todo.Nodup →
      (∀ i ∈ todo, (f.nodes.vertex i).isSome = true) →
      todo.Pairwise (fun x y => ¬ f.nodes.UsedBy x y) → Runs f (todo.foldlM (fun s node =>
        (FunctionBase.collapseAfterAll s.1 node).map fun r => (r.1, s.2 || r.2)) (f, c)) := by
    intro todo
    induction todo with
    | nil => exact fun f c hv _ _ _ => Or.inr ⟨f, c, rfl, hv, Preserved.refl f⟩
    | cons i todo ih =>
      intro f c hv hnodup hlive hpairwise
      obtain ⟨hi, hnodup⟩ := List.nodup_cons.mp hnodup
      obtain ⟨hfirst, hpairwise⟩ := List.pairwise_cons.mp hpairwise
      obtain ⟨f₁, c₁, hf₁, hv₁, h₁, hsurvives, huses⟩ :=
        visits_collapseAfterAll hv (hlive i List.mem_cons_self)
      have hlive₁ : ∀ k ∈ todo, (f₁.nodes.vertex k).isSome = true := by
        intro k hk
        refine hsurvives k ?_ (hfirst k hk) (hlive k (List.mem_cons_of_mem i hk))
        rintro rfl
        exact hi hk
      have hlt : ∀ k ∈ todo, k < f.nodes.length := fun k hk =>
        FunctionBase.lt_length_of_isSome (hlive k (List.mem_cons_of_mem i hk))
      have hpairwise₁ : todo.Pairwise (fun x y => ¬ f₁.nodes.UsedBy x y) := by
        apply hpairwise.imp_of_mem
        intro x y hx hy hxy huse
        exact hxy (huses x y (hlt x hx) (hlt y hy) huse)
      rw [List.foldlM_cons, hf₁]
      exact (ih f₁ (c || c₁) hv₁ hnodup hlive₁ hpairwise₁).of_preserved h₁
  exact hloop (order f) f c hv horder.1.1 (fun i hi => (horder.1.2 i).mp hi) horder.2

/-! ## Runs -/

section

variable {topoSort reverseTopoSort : FunctionBase → List ℕ}

/-- A run of the pass. -/
theorem runs_runOnFunctionBaseInternal (htopo : ∀ f, f.Verified → IsListing f (topoSort f))
    (hreverse : ∀ f, f.Verified → IsReverseTopological f (reverseTopoSort f)) (hv : f.Verified) :
    Runs f (runOnFunctionBaseInternal topoSort reverseTopoSort f) := by
  rw [runOnFunctionBaseInternal]
  split_ifs
  · exact Or.inr ⟨f, false, rfl, hv, Preserved.refl f⟩
  · refine (rewriteAll_spec (fun f i hv hi => Or.inr (visits_simplifyTrivialMinDelay hv hi)) hv
      (htopo f hv) false).bind fun f₁ c₁ hv₁ => ?_
    refine (rewriteAll_spec (fun f i hv hi => mayVisit_collapseMinDelay hv hi) hv₁
      (htopo f₁ hv₁) c₁).bind fun f₂ c₂ hv₂ => ?_
    refine (rewriteAll_spec (fun f i hv hi => Or.inr (visits_pushDownMinDelay hv hi)) hv₂
      (htopo f₂ hv₂) c₂).bind fun f₃ c₃ hv₃ => ?_
    refine (rewriteAll_collapseAfterAll hv₃ (hreverse f₃ hv₃) c₃).bind fun f₄ c₄ hv₄ => ?_
    refine (rewriteAll_spec (fun f i hv hi => Or.inr (visits_replaceOverlappingAfterAll hv hi)) hv₄
      (htopo f₄ hv₄) c₄).bind fun f₅ c₅ hv₅ => ?_
    refine (rewriteAll_spec (fun f i hv hi => Or.inr (visits_removeDuplicateAfterAll hv hi)) hv₅
      (htopo f₅ hv₅) c₅).bind fun f₆ c₆ hv₆ => ?_
    refine (rewriteAll_spec (fun f i hv hi => Or.inr (visits_simplifyTrivialAfterAll hv hi)) hv₆
      (htopo f₆ hv₆) c₆).bind fun f₇ c₇ hv₇ => ?_
    split_ifs
    · rw [Option.map_eq_bind]
      exact (rewriteAll_spec (fun f i hv hi => mayVisit_collapseMinDelay hv hi) hv₇
        (htopo f₇ hv₇) c₇).bind fun f₈ _ hv₈ => Or.inr ⟨f₈, true, rfl, hv₈, Preserved.refl f₈⟩
    · exact Or.inr ⟨f₇, c₇, rfl, hv₇, Preserved.refl f₇⟩

/-- Two nodes, one of each function, with the same delays from a node: both can be reached or neither,
and the longest delay is the same. -/
def SameDelays (f f' : FunctionBase) (a b b' : ℕ) : Prop :=
  ∀ throughInvoke, ((∃ delay, TokenPath throughInvoke f a b delay) ↔
      ∃ delay, TokenPath throughInvoke f' a b' delay) ∧
    ∀ delay, IsGreatest {delay | TokenPath throughInvoke f a b delay} delay ↔
      IsGreatest {delay | TokenPath throughInvoke f' a b' delay} delay

/-- The delays of a node are the values of the valuations. -/
theorem sameDelays_of_eq {b b' : ℕ} (hv : f.Verified) (hv' : f'.Verified)
    (hb : (f.nodes.vertex b).isSome = true) (hb' : (f'.nodes.vertex b').isSome = true)
    (h : ∀ throughInvoke, ∃ val val', IsDelays throughInvoke f a val ∧
      IsDelays throughInvoke f' a val' ∧ val' b' = val b) : SameDelays f f' a b b' := by
  intro throughInvoke
  obtain ⟨val, val', hval, hval', heq⟩ := h throughInvoke
  constructor
  · rw [← LongestPath.ne_bot_iff hv.acyclic hv.checked.live hval hb,
      ← LongestPath.ne_bot_iff hv'.acyclic hv'.checked.live hval' hb', heq]
  · intro delay
    rw [← LongestPath.eq_coe_iff hv.acyclic hv.checked.live hval hb,
      ← LongestPath.eq_coe_iff hv'.acyclic hv'.checked.live hval' hb', heq]

/-- A run of the pass removes no node which is used, keeps all nodes other than `after_all` and
`min_delay`, and preserves what is reachable from them along tokens, and the longest delays.  It only
fails where the sum of the delays on a chain overflows. -/
theorem run_preserves (htopo : ∀ f, f.Verified → IsListing f (topoSort f))
    (hreverse : ∀ f, f.Verified → IsReverseTopological f (reverseTopoSort f)) (hv : f.Verified) :
    (f.DelaysFit → (runOnFunctionBaseInternal topoSort reverseTopoSort f).isSome = true) ∧
    ∀ f' changed, runOnFunctionBaseInternal topoSort reverseTopoSort f = some (f', changed) →
      (∀ i d, f.IsFixed i d ↔ f'.IsFixed i d) ∧
      f'.implicitUses.length = f.implicitUses.length ∧
      ∀ a d, f.IsFixed a d → (∀ b d', f.IsFixed b d' → SameDelays f f' a b b) ∧
          ∀ p b b' : ℕ, f.implicitUses[p]? = some b → f'.implicitUses[p]? = some b' →
            SameDelays f f' a b b' := by
  rcases runs_runOnFunctionBaseInternal htopo hreverse hv with
    ⟨hnone, hnot⟩ | ⟨f', changed, hrun, hv', hp⟩
  · rw [hnone]
    refine ⟨fun hfits => absurd (hfits.hasArrivals hv.checked.live) hnot, ?_⟩
    rintro _ _ ⟨⟩
  rw [hrun]
  refine ⟨fun _ => rfl, ?_⟩
  rintro _ _ ⟨⟩
  have hvals : ∀ throughInvoke a d, f.IsFixed a d → ∃ val val', IsDelays throughInvoke f a val ∧
      IsDelays throughInvoke f' a val' ∧ (∀ k < f.nodes.length, val' k = val k) ∧
        f'.implicitUses.map val' = f.implicitUses.map val := by
    intro throughInvoke a d ha
    obtain ⟨val, hval⟩ : ∃ val, IsDelays throughInvoke f a val :=
      TermGraph.exists_isValuation hv.acyclic fun _ _ _ => rfl
    obtain ⟨val', hval', hagree, himplicit⟩ := hp.delays throughInvoke a d val ha hval
    exact ⟨val, val', hval, hval', hagree, himplicit⟩
  have hlive : ∀ {f : FunctionBase} {b d}, f.IsFixed b d → (f.nodes.vertex b).isSome = true := by
    rintro f b d ⟨n, hn, -⟩
    rw [hn]
    rfl
  refine ⟨hp.fixed, hp.length_implicitUses, fun a d ha => ⟨?_, ?_⟩⟩
  · intro b d' hb
    apply sameDelays_of_eq hv hv' (hlive hb) (hlive ((hp.fixed b d').mp hb))
    intro throughInvoke
    obtain ⟨val, val', hval, hval', hagree, -⟩ := hvals throughInvoke a d ha
    exact ⟨val, val', hval, hval', hagree b (FunctionBase.lt_length_of_isSome (hlive hb))⟩
  · intro p b b' hb hb'
    apply sameDelays_of_eq hv hv' (hv.checked.implicitUses b (List.mem_of_getElem? hb))
      (hv'.checked.implicitUses b' (List.mem_of_getElem? hb'))
    intro throughInvoke
    obtain ⟨val, val', hval, hval', -, himplicit⟩ := hvals throughInvoke a d ha
    refine ⟨val, val', hval, hval', ?_⟩
    have hp' := congrArg (fun l : List (WithBot ℕ) => l[p]?) himplicit
    rw [List.getElem?_map, List.getElem?_map, hb, hb', Option.map_some, Option.map_some] at hp'
    exact Option.some.inj hp'

end

/-! ### The orders of the iterator -/

/-- The nodes which are left. -/
def FunctionBase.listing (f : FunctionBase) : List ℕ :=
  (List.range f.nodes.length).filter fun i => (f.nodes.vertex i).isSome

/-- The nodes for the iterator, which only looks at their operands. -/
def FunctionBase.compact (f : FunctionBase) : Xls.FunctionBase :=
  ⟨f.listing.map fun i => ⟨.identity, ((f.nodes.vertex i).map fun n =>
    n.operands.map f.listing.idxOf).getD [], (f.type i).getD .token⟩, []⟩

/-- `ReverseTopoSort` of a proc. -/
def reverseTopoSort (f : FunctionBase) : List ℕ :=
  ((NodeIterator.reverseTopoSort (Users.ofFunction f.compact) none).getD []).map
    fun p => f.listing.getD p 0

/-- `TopoSort` of a proc. -/
def topoSort (f : FunctionBase) : List ℕ := (reverseTopoSort f).reverse

theorem mem_listing : i ∈ f.listing ↔ (f.nodes.vertex i).isSome = true := by
  rw [FunctionBase.listing, List.mem_filter, List.mem_range]
  exact ⟨fun h => h.2, fun h => ⟨FunctionBase.lt_length_of_isSome h, h⟩⟩

theorem nodup_listing : f.listing.Nodup := List.nodup_range.filter _

theorem length_compact : f.compact.nodes.length = f.listing.length := List.length_map _

/-- The users for the iterator are the users of the node. -/
theorem uses_compact (hv : f.Verified) {p q : ℕ} : Uses f.compact p q ↔ q < f.listing.length ∧
    p < f.listing.length ∧ f.nodes.UsedBy (f.listing.getD q 0) (f.listing.getD p 0) := by
  have hgetD : ∀ p (hp : p < f.listing.length), f.listing.getD p 0 = f.listing[p] :=
    fun p hp => List.getD_eq_getElem _ _ hp
  constructor
  · rintro ⟨node, hnode, hq⟩
    obtain ⟨i, hi, rfl⟩ := Option.map_eq_some_iff.mp (List.getElem?_map.symm.trans hnode)
    obtain ⟨hp, hpi⟩ := List.getElem?_eq_some_iff.mp hi
    obtain ⟨n, hn⟩ := Option.isSome_iff_exists.mp (mem_listing.mp (List.mem_of_getElem? hi))
    simp only [hn, Option.map_some, Option.getD_some] at hq
    obtain ⟨o, ho, rfl⟩ := List.mem_map.mp hq
    have holt := List.idxOf_lt_length_of_mem (mem_listing.mpr (hv.checked.live i n hn o ho))
    refine ⟨holt, hp, n, ?_, ?_⟩
    · rw [hgetD p hp, hpi, hn]
    · rw [hgetD _ holt, List.getElem_idxOf]
      exact ho
  · rintro ⟨hq, hp, n, hn, ho⟩
    rw [hgetD p hp] at hn
    rw [hgetD q hq] at ho
    refine ⟨_, List.getElem?_map.trans (congrArg _ (List.getElem?_eq_getElem hp)), ?_⟩
    simp only [hn, Option.map_some, Option.getD_some]
    exact List.mem_map.mpr ⟨_, ho, nodup_listing.idxOf_getElem q hq⟩

/-- The iterator lists the nodes with users before their operands. -/
theorem reverseTopoSort_isReverseTopological (hv : f.Verified) :
    IsReverseTopological f (reverseTopoSort f) := by
  have hclosed : ∀ u n, Uses f.compact u n → n < f.compact.nodes.length := fun u n h => by
    rw [length_compact]
    exact ((uses_compact hv).mp h).1
  obtain ⟨rank, hrank⟩ := hv.acyclic
  have hacyclic : ∀ n, ¬ Relation.TransGen (Uses f.compact) n n := by
    intro n h
    have hlt : ∀ {p q}, Relation.TransGen (Uses f.compact) p q →
        rank (f.listing.getD q 0) < rank (f.listing.getD p 0) := by
      intro p q hpq
      induction hpq with
      | single hpq => exact hrank.lt ((uses_compact hv).mp hpq).2.2
      | tail _ hpq ih => exact (hrank.lt ((uses_compact hv).mp hpq).2.2).trans ih
    exact Nat.lt_irrefl _ (hlt h)
  obtain ⟨order, horder, hperm, hbefore⟩ :=
    NodeIterator.reverseTopoSort_spec (Users.ofFunction f.compact) none hclosed hacyclic
  rw [reverseTopoSort, horder, Option.getD_some]
  rw [length_compact] at hperm
  have hlt : ∀ p ∈ order, p < f.listing.length := fun p hp => List.mem_range.mp (hperm.mem_iff.mp hp)
  have hnodup : order.Nodup := hperm.nodup_iff.mpr List.nodup_range
  have hlist : ((List.range f.listing.length).map fun p => f.listing.getD p 0) = f.listing := by
    apply List.ext_getElem
    · rw [List.length_map, List.length_range]
    · intro p _ hp
      rw [List.getElem_map, List.getElem_range, List.getD_eq_getElem _ _ hp]
  have hmap := hlist ▸ hperm.map fun p => f.listing.getD p 0
  refine ⟨⟨hmap.nodup_iff.mpr nodup_listing, fun i => hmap.mem_iff.trans mem_listing⟩, ?_⟩
  rw [List.pairwise_map, List.pairwise_iff_getElem]
  intro p q hp hq hpq huse
  have hmem : order[q] ∈ order.take p := by
    apply hbefore (order.take p) order[p] (order.drop (p + 1))
    · rw [List.getElem_cons_drop, List.take_append_drop]
    · exact (Users.ofFunction f.compact).mem_iff.mpr ((uses_compact hv).mpr
        ⟨hlt _ (List.getElem_mem hp), hlt _ (List.getElem_mem hq), huse⟩)
  obtain ⟨r, hr, heq⟩ := List.mem_iff_getElem.mp hmem
  rw [List.getElem_take] at heq
  rw [List.length_take] at hr
  have hrq := (hnodup.getElem_inj_iff).mp heq
  omega

theorem topoSort_isListing (hv : f.Verified) : IsListing f (topoSort f) := by
  obtain ⟨⟨hnodup, hmem⟩, -⟩ := reverseTopoSort_isReverseTopological hv
  refine ⟨List.nodup_reverse.mpr hnodup, fun i => ?_⟩
  rw [topoSort, List.mem_reverse, hmem]

/-! ### A chain of delays -/

/-- A send behind two delays. -/
def delayedSend (delay delay' : ℕ) : FunctionBase :=
  ⟨[some ⟨⟨.param, .token, 0⟩, []⟩, some ⟨⟨.literal, .bits 1, 0⟩, []⟩, some ⟨minDelay delay, [0]⟩,
    some ⟨minDelay delay', [2]⟩, some ⟨⟨.send, .token, 0⟩, [3, 1]⟩], [4]⟩

theorem delayedSend_verified {delay delay' : ℕ} : (delayedSend delay delay').Verified := by
  refine ⟨⟨?_, ?_, ?_, ?_⟩, fun i => i, ?_⟩
  · intro k n hn o ho
    rcases k with - | - | - | - | - | k <;> cases hn
    · cases ho
    · cases ho
    · rw [List.mem_singleton.mp ho]
      rfl
    · rw [List.mem_singleton.mp ho]
      rfl
    · simp only [List.mem_cons, List.not_mem_nil, or_false] at ho
      rcases ho with rfl | rfl <;> rfl
  · intro i hi
    rw [List.mem_singleton.mp hi]
    rfl
  · intro k n hn hop
    rcases k with - | - | - | - | - | k <;> cases hn <;> cases hop
  · intro k n hn hop
    rcases k with - | - | - | - | - | k <;> cases hn
    · cases hop
    · cases hop
    · exact ⟨rfl, 0, rfl, rfl⟩
    · exact ⟨rfl, 2, rfl, rfl⟩
    · cases hop
  · intro k n hn i hi
    rcases k with - | - | - | - | - | k <;> cases hn <;>
      simp at hi ⊢ <;> omega

theorem delayedSend_delaysFit : (delayedSend 1 2).DelaysFit := by
  refine FunctionBase.HasArrivals.delaysFit ⟨fun k => if k = 3 then 3 else if k = 2 then 1 else 0, ?_,
    fun k => by dsimp only; split_ifs <;> norm_num⟩
  intro k n w hn hw o ho
  rcases k with - | - | - | - | - | k <;> cases hn <;> cases hw <;>
    rw [List.mem_singleton.mp ho] <;> decide

/-- The delays of the send stay the same. -/
theorem run_preserves_delayedSend : ∃ f' changed,
    runOnFunctionBaseInternal topoSort reverseTopoSort (delayedSend 1 2) = some (f', changed) ∧
      SameDelays (delayedSend 1 2) f' 0 4 4 := by
  have hverified : (delayedSend 1 2).Verified := delayedSend_verified
  obtain ⟨hsome, hrun⟩ := run_preserves (fun _ => topoSort_isListing)
    (fun _ => reverseTopoSort_isReverseTopological) hverified
  obtain ⟨⟨f', changed⟩, hresult⟩ := Option.isSome_iff_exists.mp (hsome delayedSend_delaysFit)
  obtain ⟨-, -, hsame⟩ := hrun f' changed hresult
  refine ⟨f', changed, hresult, ?_⟩
  have hparam : (delayedSend 1 2).IsFixed 0 ⟨.param, .token, 0⟩ := ⟨_, rfl, rfl, by decide⟩
  have hsend : (delayedSend 1 2).IsFixed 4 ⟨.send, .token, 0⟩ := ⟨_, rfl, rfl, by decide⟩
  exact (hsame 0 _ hparam).1 4 _ hsend

/-- The sum of two delays overflows, and the pass fails. -/
theorem run_fails_delayedSend : (delayedSend (2 ^ 62) (2 ^ 62)).Verified ∧
    runOnFunctionBaseInternal topoSort reverseTopoSort (delayedSend (2 ^ 62) (2 ^ 62)) = none := by
  refine ⟨delayedSend_verified, ?_⟩
  rfl

end Xls.TokenSimplification
