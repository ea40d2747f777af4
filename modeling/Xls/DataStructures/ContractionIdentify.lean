/-
# Identifying two vertices

What `IdentifyVertices` makes of one adjacency map, when the arguments are representatives or their
classes have no edges.

* `Named` : where the vertices of the two classes stand;
* `Rows.identify` : the two classes have become one, and their edges are combined.
-/
import Xls.DataStructures.ContractionRows

namespace Xls

namespace GraphContraction

open WeightedGraph

variable {V EW : Type} [DecidableEq V]

/-! ## The two classes -/

/-- The arguments with which `IdentifyVertices` handles the edges: each is a representative
or its class has no edges, and one of them names the new class when an edge stays inside. -/
structure ArgsOk (x y rx ry kept : V) (f : V → V → Option EW) : Prop where
  left : x = rx ∨ ∀ t, f rx t = none ∧ f t rx = none
  right : y = ry ∨ ∀ t, f ry t = none ∧ f t ry = none
  inside : ∀ s t, s = rx ∨ s = ry → t = rx ∨ t = ry → f s t ≠ none → kept = x ∨ kept = y

omit [DecidableEq V] in
theorem ArgsOk.swap {x y rx ry kept : V} {f : V → V → Option EW} (h : ArgsOk x y rx ry kept f) :
    ArgsOk x y rx ry kept fun t s => f s t where
  left := h.left.imp_right fun hnone t => (hnone t).symm
  right := h.right.imp_right fun hnone t => (hnone t).symm
  inside s t hs ht hst := h.inside t s ht hs hst

/-- One of the two classes has an edge. -/
def Touched (rx ry : V) (f : V → V → Option EW) : Prop :=
  ∃ r t, (r = rx ∨ r = ry) ∧ (f r t ≠ none ∨ f t r ≠ none)

omit [DecidableEq V] in
theorem none_of_not_touched {rx ry r : V} {f : V → V → Option EW} (h : ¬ Touched rx ry f)
    (hr : r = rx ∨ r = ry) (t : V) : f r t = none ∧ f t r = none := by
  by_contra hedge
  exact h ⟨r, t, hr, not_and_or.mp hedge⟩

omit [DecidableEq V] in
theorem Touched.swap {rx ry : V} {f : V → V → Option EW} (h : Touched rx ry fun t s => f s t) :
    Touched rx ry f := by
  obtain ⟨r, t, hr, hedge⟩ := h
  exact ⟨r, t, hr, hedge.symm⟩

section Patch

variable {rep : V → Option V} {f : V → V → Option EW} {x y rx ry kept lost : V}
  {ewMerge : EW → EW → EW}

/-- Where the vertices of the two classes stand. -/
structure Named (rep : V → Option V) (x y rx ry kept lost : V) : Prop where
  repX : rep x = some rx
  repY : rep y = some ry
  repRx : rep rx = some rx
  repRy : rep ry = some ry
  ne : rx ≠ ry
  pair : IsPair rx ry kept lost

namespace Named

section

variable (h : Named rep x y rx ry kept lost)

include h

omit [DecidableEq V] in
theorem kept_ne_lost : kept ≠ lost := by
  rcases h.pair with ⟨rfl, rfl⟩ | ⟨rfl, rfl⟩
  · exact h.ne
  · exact h.ne.symm

omit [DecidableEq V] in
theorem rep_kept : rep kept = some kept := by
  rcases h.pair with ⟨rfl, rfl⟩ | ⟨rfl, rfl⟩
  · exact h.repRx
  · exact h.repRy

omit [DecidableEq V] in
theorem symm : Named rep y x ry rx kept lost :=
  ⟨h.repY, h.repX, h.repRy, h.repRx, h.ne.symm, h.pair.symm⟩

omit [DecidableEq V] in
theorem eq_or_eq {v : V} : v = kept ∨ v = lost ↔ v = rx ∨ v = ry := by
  rcases h.pair with ⟨rfl, rfl⟩ | ⟨rfl, rfl⟩
  · exact Iff.rfl
  · exact Or.comm

/-- The new place of a representative is a representative. -/
theorem united_moved {v : V} (hv : rep v = some v) :
    united rep kept lost (moved kept lost v) = some (moved kept lost v) := by
  unfold united moved
  by_cases hl : v = lost
  · rw [if_pos hl, h.rep_kept, if_neg fun heq => h.kept_ne_lost (Option.some.inj heq)]
  · rw [if_neg hl, hv, if_neg fun heq => hl (Option.some.inj heq)]

/-- A representative stays one, or has become part of the new class. -/
theorem united_cases {v r : V} (hv : rep v = some v) (hr : united rep kept lost v = some r) :
    r = kept ∧ (v = rx ∨ v = ry) ∨ r ≠ kept ∧ r = v := by
  unfold united at hr
  rw [hv] at hr
  by_cases hvl : v = lost
  · subst hvl
    rw [if_pos rfl] at hr
    exact .inl ⟨(Option.some.inj hr).symm, h.eq_or_eq.mp (.inr rfl)⟩
  · rw [if_neg (fun heq => hvl (Option.some.inj heq))] at hr
    obtain rfl := Option.some.inj hr
    by_cases hvk : v = kept
    · exact .inl ⟨hvk, h.eq_or_eq.mp (.inl hvk)⟩
    · exact .inr ⟨hvk, rfl⟩

/-- `merge_map` finds the keys which have to change. -/
theorem keyOf_eq (hargs : ArgsOk x y rx ry kept f)
    (hf : ∀ s t, f s t ≠ none → rep s = some s ∧ rep t = some t) {r v : V} (hv : f r v ≠ none) :
    keyOf x y kept v = if v = lost then kept else v := by
  have hrep := (hf r v hv).2
  unfold keyOf
  by_cases hxy : v = x ∨ v = y
  · rw [if_pos hxy]
    have hr : v = rx ∨ v = ry := by
      rcases hxy with rfl | rfl
      · rw [h.repX] at hrep
        exact .inl (Option.some.inj hrep).symm
      · rw [h.repY] at hrep
        exact .inr (Option.some.inj hrep).symm
    rcases h.eq_or_eq.mpr hr with rfl | rfl
    · rw [if_neg h.kept_ne_lost]
    · rw [if_pos rfl]
  · rw [if_neg hxy]
    have hlost : v ≠ lost := by
      rintro rfl
      rcases h.eq_or_eq.mp (.inr rfl) with rfl | rfl
      · rcases hargs.left with rfl | hnone
        · exact hxy (.inl rfl)
        · exact hv (hnone r).2
      · rcases hargs.right with rfl | hnone
        · exact hxy (.inr rfl)
        · exact hv (hnone r).2
    rw [if_neg hlost]

/-- An argument which is not a representative is in no row, and neither is the representative
of its class, in the combined row of the two classes. -/
theorem combined_arg (hf : ∀ s t, f s t ≠ none → rep s = some s ∧ rep t = some t)
    (hleft : x = rx ∨ ∀ t, f rx t = none ∧ f t rx = none) (hkept : kept = x ∨ kept = y) :
    x = rx ∨ contract ewMerge kept lost f kept x = none ∧
      contract ewMerge kept lost f kept rx = none := by
  refine or_iff_not_imp_left.mpr fun hxr => ?_
  have hnotRep : rep x ≠ some x := by
    rw [h.repX]
    intro hrx
    exact hxr (Option.some.inj hrx).symm
  have hkx : kept ≠ x := by
    rintro rfl
    exact hnotRep h.rep_kept
  have hlost : lost = rx := by
    rcases h.pair with ⟨rfl, -⟩ | ⟨-, rfl⟩
    · -- the kept representative would be `y`, which is in the other class
      have hky := hkept.resolve_left hkx
      have hrepY := h.repY
      rw [← hky, h.repRx] at hrepY
      exact absurd (Option.some.inj hrepY) h.ne
    · rfl
  refine ⟨?_, ?_⟩
  · by_contra hsome
    rw [contract_kept] at hsome
    have hentry : ∀ {v}, Option.merge ewMerge (f kept v) (f lost v) ≠ none → rep v = some v := by
      intro v hv
      rw [Ne, Option.merge_eq_none_iff, not_and_or] at hv
      rcases hv with hv | hv
      · exact (hf kept v hv).2
      · exact (hf lost v hv).2
    rcases ne_none_of_collapse hsome with hv | ⟨hxk, -⟩
    · exact hnotRep (hentry hv)
    · exact hkx hxk.symm
  · rw [contract_kept, ← hlost, collapse_lost h.kept_ne_lost]

/-- The combined row can be patched again. -/
theorem patchable_kept (hargs : ArgsOk x y rx ry kept f)
    (hf : ∀ s t, f s t ≠ none → rep s = some s ∧ rep t = some t) {s t : V}
    (hs : s = rx ∨ s = ry) (ht : t = rx ∨ t = ry) (hst : f s t ≠ none) :
    Patchable x y rx ry (contract ewMerge kept lost f kept) := by
  have hkept := hargs.inside s t hs ht hst
  refine ⟨?_, h.combined_arg hf hargs.left hkept,
    h.symm.combined_arg hf hargs.right (or_comm.mp hkept)⟩
  have hsome : contract ewMerge kept lost f kept kept ≠ none := by
    rw [contract_kept]
    have hentry : ∀ {t}, f s t ≠ none → Option.merge ewMerge (f kept t) (f lost t) ≠ none := by
      intro t hst
      rw [Ne, Option.merge_eq_none_iff, not_and_or]
      rcases h.eq_or_eq.mpr hs with rfl | rfl
      · exact .inl hst
      · exact .inr hst
    apply collapse_kept_ne_none
    rcases h.eq_or_eq.mpr ht with rfl | rfl
    · exact .inl (hentry hst)
    · exact .inr (hentry hst)
  rcases hkept with rfl | rfl
  · exact .inl hsome
  · exact .inr hsome

omit [DecidableEq V] in
/-- A row with an edge to one of the classes can be patched. -/
theorem patchable_row (hargs : ArgsOk x y rx ry kept f)
    (hf : ∀ s t, f s t ≠ none → rep s = some s ∧ rep t = some t) {s : V}
    (hs : f s rx ≠ none ∨ f s ry ≠ none) : Patchable x y rx ry (f s) := by
  have hside : ∀ {a ra}, rep a = some ra → (a = ra ∨ ∀ t, f ra t = none ∧ f t ra = none) →
      a = ra ∨ f s a = none ∧ f s ra = none := by
    intro a ra ha hnone
    refine or_iff_not_imp_left.mpr fun har => ⟨?_, (hnone.resolve_left har s).2⟩
    by_contra hsome
    have hrep := (hf s a hsome).2
    rw [ha] at hrep
    exact har (Option.some.inj hrep).symm
  refine ⟨?_, hside h.repX hargs.left, hside h.repY hargs.right⟩
  rcases hs with hs | hs
  · rw [hargs.left.resolve_right fun hnone => hs (hnone s).2]
    exact .inl hs
  · rw [hargs.right.resolve_right fun hnone => hs (hnone s).2]
    exact .inr hs

/-- A row with edges to both classes can be patched twice. -/
theorem patchable_twice (hargs : ArgsOk x y rx ry kept f)
    {s : V} (hx : f s rx ≠ none) (hy : f s ry ≠ none) :
    Patchable x y rx ry (collapse ewMerge kept lost (f s)) := by
  obtain rfl : x = rx := hargs.left.resolve_right fun hnone => hx (hnone s).2
  obtain rfl : y = ry := hargs.right.resolve_right fun hnone => hy (hnone s).2
  refine ⟨?_, .inl rfl, .inl rfl⟩
  rcases h.pair with ⟨rfl, rfl⟩ | ⟨rfl, rfl⟩
  · exact .inl (collapse_kept_ne_none (.inl hx))
  · exact .inr (collapse_kept_ne_none (.inl hy))

end

end Named

/-- `IdentifyVertices` on one of the two adjacency maps: the classes become one, and the edges of the
neighbours in the mirrored map are patched. -/
def Identifies (m : UnionFindMap V (EdgeMap V EW)) (x y kept : V) (ewMerge : EW → EW → EW)
    (intoX intoY : List V) (after : UnionFindMap V (EdgeMap V EW) → Prop) : Prop :=
  ∃ m₁ m₂ m₃, m.union x y (mergeMap x y kept ewMerge) = some (true, m₁) ∧
    intoX.foldlM (GraphContraction.patchUpEdges x y kept ewMerge) m₁ = some m₂ ∧
    intoY.foldlM (GraphContraction.patchUpEdges x y kept ewMerge) m₂ = some m₃ ∧ after m₃

namespace Rows

variable {m : UnionFindMap V (EdgeMap V EW)} {size : V → ℕ} (h : Rows m rep size f)
  (hnamed : Named rep x y rx ry kept lost) (hkept : kept = if size rx < size ry then ry else rx)
  (hlost : lost = if size rx < size ry then rx else ry)

include h hnamed hkept hlost

variable (ewMerge) in
/-- The adjacency maps after `IdentifyVertices` where the two classes have no edges. -/
theorem identify_untouched (hnone : ∀ r, r = kept ∨ r = lost → ∀ t, f r t = none ∧ f t r = none) :
    ∃ m₁, m.union x y (mergeMap x y kept ewMerge) = some (true, m₁) ∧
      Rows m₁ (united rep kept lost) (Function.update size kept (size kept + size lost))
        (contract ewMerge kept lost f) := by
  have hrow : collapse ewMerge kept lost (fun t => Option.merge ewMerge (f kept t) (f lost t)) =
      fun _ => none := by
    funext t
    simp only [(hnone kept (.inl rfl) _).1, (hnone lost (.inr rfl) _).1, Option.merge_none_left]
    exact congrFun (collapse_eq_self rfl) t
  obtain ⟨m₁, hunion, hrows⟩ := h.union ewMerge hnamed.repX hnamed.repY hnamed.ne hkept hlost
    fun a b ha hb t => by
      have hempty : ∀ (c : EdgeMap V EW) r, r = kept ∨ r = lost → (∀ t, c.lookup t = f r t) →
          c = ∅ := by
        intro c r hr hc
        apply AList.ext
        refine List.eq_nil_iff_forall_not_mem.mpr fun entry hentry => ?_
        have hlookup := AList.mem_lookup_iff.mpr hentry
        rw [hc, (hnone r hr _).1] at hlookup
        cases hlookup
      rw [hempty a kept (.inl rfl) ha, hempty b lost (.inr rfl) hb, hrow]
      rfl
  refine ⟨m₁, hunion, hrows.congr fun r hr => ?_⟩
  rw [← contract_kept, contract_eq_self (hnone lost (.inr rfl)), Function.update_eq_self]

-- `intoX` and `intoY` are the neighbours of the two classes in the mirrored map
variable (hf : ∀ s t, f s t ≠ none → rep s = some s ∧ rep t = some t)
  (hargs : ArgsOk x y rx ry kept f) {intoX intoY : List V} (hnodupX : intoX.Nodup)
  (hnodupY : intoY.Nodup) (hX : ∀ s, s ∈ intoX ↔ f s rx ≠ none) (hY : ∀ s, s ∈ intoY ↔ f s ry ≠ none)

include hf hargs hnodupX hnodupY hX hY

variable (ewMerge) in
/-- The adjacency maps after `IdentifyVertices`, when the order of the merges does not matter. -/
theorem identify_of_merge [Std.Commutative ewMerge] [Std.Associative ewMerge] :
    Identifies m x y kept ewMerge intoX intoY fun m₃ => Rows m₃ (united rep kept lost)
      (Function.update size kept (size kept + size lost)) (contract ewMerge kept lost f) := by
  obtain ⟨m₁, hunion, hrows⟩ := h.union ewMerge hnamed.repX hnamed.repY hnamed.ne hkept hlost
    fun a b ha hb t => by
      rw [lookup_mergeMap hnamed.kept_ne_lost]
      · simp only [ha, hb]
      · rintro v (hv | hv)
        · exact hnamed.keyOf_eq hargs hf (by rwa [ha] at hv)
        · exact hnamed.keyOf_eq hargs hf (by rwa [hb] at hv)
  rw [← contract_kept] at hrows
  set f₁ := Function.update f kept (contract ewMerge kept lost f kept) with hf₁
  have hkl := hnamed.kept_ne_lost
  have hidem : collapse ewMerge kept lost (f₁ kept) = contract ewMerge kept lost f kept := by
    rw [hf₁, Function.update_self, contract_kept, collapse_collapse hkl]
  have hkeptRow : ∀ done, patchedRow (united rep kept lost) f₁ ewMerge kept lost done kept =
      contract ewMerge kept lost f kept := by
    intro done
    unfold patchedRow
    split
    · exact hidem
    · rw [hf₁, Function.update_self]
  have hother : ∀ {r}, r ≠ kept → f₁ r = f r := fun hr => Function.update_of_ne hr ..
  have hmem : ∀ {v}, v ∈ intoX ++ intoY ↔ f v rx ≠ none ∨ f v ry ≠ none := by
    intro v
    rw [List.mem_append, hX, hY]
  have hrepMem : ∀ {v}, v ∈ intoX ++ intoY → rep v = some v := by
    intro v hv
    rcases hmem.mp hv with hv | hv
    · exact (hf v rx hv).1
    · exact (hf v ry hv).1
  have hunited : ∀ {v r}, v ∈ intoX ++ intoY → united rep kept lost v = some r →
      r = kept ∧ (v = rx ∨ v = ry) ∨ r ≠ kept ∧ r = v :=
    fun hv hr => hnamed.united_cases (hrepMem hv) hr
  have hrepUnited : ∀ v ∈ intoX ++ intoY, united rep kept lost v ≠ none := by
    intro v hv
    unfold united
    rw [hrepMem hv]
    split <;> simp
  have hpatch : ∀ done v rest r, intoX ++ intoY = done ++ v :: rest →
      united rep kept lost v = some r →
      Patchable x y rx ry (patchedRow (united rep kept lost) f₁ ewMerge kept lost done r) := by
    intro done v rest r heq hr
    have hv : v ∈ intoX ++ intoY := by simp [heq]
    rcases hunited hv hr with ⟨rfl, hvr⟩ | ⟨hrk, rfl⟩
    · rw [hkeptRow done]
      rcases hmem.mp hv with hedge | hedge
      · exact hnamed.patchable_kept hargs hf hvr (.inl rfl) hedge
      · exact hnamed.patchable_kept hargs hf hvr (.inr rfl) hedge
    · unfold patchedRow
      rw [hother hrk]
      split
      · rename_i hdone
        -- the vertex was patched before, so it has edges to both classes
        have hagain : r ∈ done := by
          obtain ⟨u, hu, hur⟩ := List.mem_map.mp hdone
          rcases hunited (by simp [heq, hu]) hur with ⟨hk, -⟩ | ⟨-, rfl⟩
          · exact absurd hk hrk
          · exact hu
        have hcount : 2 ≤ (intoX ++ intoY).count r := by
          have hpos := List.count_pos_iff.mpr hagain
          rw [heq, List.count_append, List.count_cons_self]
          omega
        rw [List.count_append] at hcount
        have hleX := List.nodup_iff_count_le_one.mp hnodupX r
        have hleY := List.nodup_iff_count_le_one.mp hnodupY r
        refine hnamed.patchable_twice hargs ((hX r).mp ?_) ((hY r).mp ?_)
        · exact List.count_pos_iff.mp (by omega)
        · exact List.count_pos_iff.mp (by omega)
      · exact hnamed.patchable_row hargs hf (hmem.mp hv)
  obtain ⟨m₃, hfold, hrows'⟩ := hrows.foldlM_patchUpEdges hnamed.pair hnamed.ne hrepUnited hpatch
  rw [List.foldlM_append] at hfold
  rcases hfirst : intoX.foldlM (GraphContraction.patchUpEdges x y kept ewMerge) m₁ with _ | m₂
  · rw [hfirst] at hfold
    cases hfold
  · rw [hfirst] at hfold
    refine ⟨m₁, m₂, m₃, hunion, hfirst, hfold, hrows'.congr ?_⟩
    intro r hr
    by_cases hrk : r = kept
    · subst hrk
      exact (hkeptRow _).symm
    · obtain ⟨hrep, hrl⟩ := united_eq_self hnamed.rep_kept hkl hr
      rw [contract_of_ne hrk hrl]
      unfold patchedRow
      rw [hother hrk]
      split
      · rfl
      · -- a row which was not patched has no edge to the classes
        rename_i hnot
        apply collapse_eq_self
        by_contra hsome
        apply hnot
        refine List.mem_map.mpr ⟨r, hmem.mpr ?_, hr⟩
        rcases hnamed.eq_or_eq.mp (.inr rfl) with rfl | rfl
        · exact .inl hsome
        · exact .inr hsome

/-- The adjacency maps after `IdentifyVertices`. -/
theorem identify (hmerge : Touched rx ry f → Std.Commutative ewMerge ∧ Std.Associative ewMerge) :
    Identifies m x y kept ewMerge intoX intoY fun m₃ => Rows m₃ (united rep kept lost)
      (Function.update size kept (size kept + size lost)) (contract ewMerge kept lost f) := by
  by_cases htouched : Touched rx ry f
  · obtain ⟨hcomm, hassoc⟩ := hmerge htouched
    exact h.identify_of_merge ewMerge hnamed hkept hlost hf hargs hnodupX hnodupY hX hY
  · have hintoX : intoX = [] := List.eq_nil_iff_forall_not_mem.mpr fun s hs =>
      (hX s).mp hs (none_of_not_touched htouched (.inl rfl) s).2
    have hintoY : intoY = [] := List.eq_nil_iff_forall_not_mem.mpr fun s hs =>
      (hY s).mp hs (none_of_not_touched htouched (.inr rfl) s).2
    obtain ⟨m₁, hunion, hrows⟩ := h.identify_untouched ewMerge hnamed hkept hlost
      fun r hr => none_of_not_touched htouched (hnamed.eq_or_eq.mp hr)
    rw [hintoX, hintoY]
    exact ⟨m₁, m₁, m₁, hunion, rfl, rfl, hrows⟩

end Rows

end Patch

end GraphContraction

end Xls
