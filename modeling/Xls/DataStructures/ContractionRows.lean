/-
# The rows of the adjacency maps

An adjacency map has the edges of each representative, under the names which its neighbours had.
`merge_map` and `patch_up_edges` rename them, and combine the weights of edges which meet.

* `lookup_mergeMap`, `patchedEdges_spec` : the edges of one vertex;
* `Rows` : the map has a function of two representatives;
* `Rows.union`, `Rows.foldlM_patchUpEdges` : the steps of `IdentifyVertices`.
-/
import Xls.DataStructures.GraphContraction

namespace Xls

namespace GraphContraction

open WeightedGraph

variable {V VW EW : Type} [DecidableEq V]

/-! ## The edges of a vertex -/

section Edges

variable {key : V → V} {ewMerge : EW → EW → EW} {kept lost : V}

theorem lookup_mergeEntry {result : EdgeMap V EW} {entry : Σ _ : V, EW} {k : V} :
    (mergeEntry key ewMerge result entry).lookup k =
      if k = key entry.1 then Option.merge ewMerge (result.lookup k) (some entry.2)
      else result.lookup k := by
  unfold mergeEntry
  by_cases hk : k = key entry.1
  · subst hk
    rw [AList.lookup_insert, if_pos rfl]
    rcases result.lookup (key entry.1) with _ | weight
    · rfl
    · rfl
  · rw [AList.lookup_insert_ne hk, if_neg hk]

/-- A loop of `merge_map` combines the entries under their new keys. -/
theorem lookup_foldl_mergeEntry [Std.Commutative ewMerge] [Std.Associative ewMerge]
    (hne : kept ≠ lost) {entries : List (Σ _ : V, EW)} (hnodup : entries.NodupKeys)
    (hkey : ∀ v ∈ entries.keys, key v = if v = lost then kept else v) {result : EdgeMap V EW}
    {k : V} :
    (entries.foldl (mergeEntry key ewMerge) result).lookup k =
      Option.merge ewMerge (result.lookup k)
        (collapse ewMerge kept lost (fun v => entries.dlookup v) k) := by
  induction entries generalizing result with
  | nil =>
    rw [collapse_eq_self (by rfl)]
    simp
  | cons entry entries ih =>
    obtain ⟨v, weight⟩ := entry
    obtain ⟨hv, hnodup⟩ := List.nodupKeys_cons.mp hnodup
    have hnone : entries.dlookup v = none := List.dlookup_eq_none.mpr hv
    have hother : ∀ {u}, u ≠ v → (⟨v, weight⟩ :: entries : List (Σ _ : V, EW)).dlookup u =
        entries.dlookup u := fun hu => List.dlookup_cons_ne _ _ hu
    have hself : (⟨v, weight⟩ :: entries : List (Σ _ : V, EW)).dlookup v = some weight :=
      List.dlookup_cons_eq ..
    rw [List.foldl_cons, ih hnodup (fun u hu => hkey u (by simp [hu])), lookup_mergeEntry]
    have hkv := hkey v (by simp)
    simp only at *
    -- the entry counts for the key it is moved to
    have hsplit : collapse ewMerge kept lost
        (fun u => (⟨v, weight⟩ :: entries : List (Σ _ : V, EW)).dlookup u) k =
        if k = key v then Option.merge ewMerge (some weight)
          (collapse ewMerge kept lost (fun u => entries.dlookup u) k)
        else collapse ewMerge kept lost (fun u => entries.dlookup u) k := by
      rw [hkv]
      by_cases hvl : v = lost
      · subst hvl
        rw [if_pos rfl]
        by_cases hk : k = kept
        · subst hk
          rw [if_pos rfl, collapse_kept, collapse_kept, hself, hother hne, hnone,
            Option.merge_none_right]
          exact Std.Commutative.comm ..
        · rw [if_neg hk]
          by_cases hkl : k = v
          · subst hkl
            rw [collapse_lost hne, collapse_lost hne]
          · rw [collapse_of_ne hk hkl, collapse_of_ne hk hkl, hother hkl]
      · rw [if_neg hvl]
        by_cases hk : k = kept
        · subst hk
          rw [collapse_kept, collapse_kept, hother (Ne.symm hvl)]
          by_cases hkv : k = v
          · subst hkv
            rw [if_pos rfl, hself, hnone, Option.merge_none_left]
          · rw [if_neg hkv, hother hkv]
        · by_cases hkl : k = lost
          · subst hkl
            rw [if_neg (Ne.symm hvl), collapse_lost hne, collapse_lost hne]
          · rw [collapse_of_ne hk hkl, collapse_of_ne hk hkl]
            by_cases hkv : k = v
            · subst hkv
              rw [if_pos rfl, hself, hnone, Option.merge_none_right]
            · rw [if_neg hkv, hother hkv]
    rw [hsplit]
    by_cases hk : k = key v
    · rw [if_pos hk, if_pos hk]
      exact Std.Associative.assoc ..
    · rw [if_neg hk, if_neg hk]

/-- `merge_map` collapses the combined edges of the two vertices. -/
theorem lookup_mergeMap [Std.Commutative ewMerge] [Std.Associative ewMerge] {x y : V}
    (hne : kept ≠ lost) {a b : EdgeMap V EW}
    (hkey : ∀ v, a.lookup v ≠ none ∨ b.lookup v ≠ none →
      keyOf x y kept v = if v = lost then kept else v) {k : V} :
    (mergeMap x y kept ewMerge a b).lookup k =
      collapse ewMerge kept lost (fun v => Option.merge ewMerge (a.lookup v) (b.lookup v)) k := by
  have hmem : ∀ (m : EdgeMap V EW) {v}, v ∈ m.entries.keys → m.lookup v ≠ none := by
    intro m v hv hnone
    exact AList.lookup_eq_none.mp hnone hv
  unfold mergeMap
  rw [lookup_foldl_mergeEntry hne b.nodupKeys fun v hv => hkey v (.inr (hmem b hv)),
    lookup_foldl_mergeEntry hne a.nodupKeys fun v hv => hkey v (.inl (hmem a hv)),
    AList.lookup_empty, Option.merge_none_left, merge_collapse]
  rfl

/-- The edges of a vertex which `patch_up_edges` can handle: an argument which is not a
representative, and its representative, are not among them. -/
structure Patchable (x y rx ry : V) (row : V → Option EW) : Prop where
  some_edge : row x ≠ none ∨ row y ≠ none
  left : x = rx ∨ row x = none ∧ row rx = none
  right : y = ry ∨ row y = none ∧ row ry = none

/-- The two representatives in the order of `Union`. -/
def IsPair (rx ry kept lost : V) : Prop := kept = rx ∧ lost = ry ∨ kept = ry ∧ lost = rx

theorem collapse_kept_of_isPair [Std.Commutative ewMerge] {rx ry : V} (h : IsPair rx ry kept lost)
    {f : V → Option EW} :
    collapse ewMerge kept lost f kept = Option.merge ewMerge (f rx) (f ry) := by
  rw [collapse_kept]
  rcases h with ⟨rfl, rfl⟩ | ⟨rfl, rfl⟩
  · rfl
  · exact Std.Commutative.comm ..

variable (ewMerge) in
/-- `patch_up_edges` collapses the edges of a vertex. -/
theorem patchedEdges_spec [Std.Commutative ewMerge] {x y rx ry : V}
    (hpair : IsPair rx ry kept lost) (hne : rx ≠ ry) {edges : EdgeMap V EW}
    (h : Patchable x y rx ry fun v => edges.lookup v) :
    ∃ edges', patchedEdges x y kept ewMerge edges = some edges' ∧
      ∀ k, edges'.lookup k = collapse ewMerge kept lost (fun v => edges.lookup v) k := by
  -- it is enough to look at the two representatives
  have hall : ∀ {edges' : EdgeMap V EW},
      edges'.lookup kept = Option.merge ewMerge (edges.lookup rx) (edges.lookup ry) →
      (∀ k, k ≠ kept → k = rx ∨ k = ry → edges'.lookup k = none) →
      (∀ k, k ≠ rx → k ≠ ry → edges'.lookup k = edges.lookup k) →
      ∀ k, edges'.lookup k = collapse ewMerge kept lost (fun v => edges.lookup v) k := by
    intro edges' hkept hnone hrest k
    by_cases hk : k = kept
    · subst hk
      rw [collapse_kept_of_isPair hpair, hkept]
    · by_cases hl : k = lost
      · subst hl
        rw [collapse_lost (Ne.symm hk)]
        apply hnone k hk
        rcases hpair with ⟨-, rfl⟩ | ⟨-, rfl⟩
        · exact .inr rfl
        · exact .inl rfl
      · rw [collapse_of_ne hk hl]
        rcases hpair with ⟨rfl, rfl⟩ | ⟨rfl, rfl⟩
        · exact hrest k hk hl
        · exact hrest k hl hk
  have hkept : kept = rx ∨ kept = ry := by
    rcases hpair with ⟨rfl, -⟩ | ⟨rfl, -⟩
    · exact .inl rfl
    · exact .inr rfl
  have hnotKept : ∀ {k}, k ≠ rx → k ≠ ry → k ≠ kept := by
    rintro k hkx hky rfl
    rcases hkept with hk | hk
    · exact hkx hk
    · exact hky hk
  unfold patchedEdges
  rcases hx : edges.lookup x with _ | wx
  · rcases hy : edges.lookup y with _ | wy
    · exact absurd h.some_edge (by simp [hx, hy])
    · -- the edge to `y` is moved; there is none to the representative of `x`
      obtain rfl : y = ry := h.right.resolve_right fun hr => by simp [hy] at hr
      have hrx : edges.lookup rx = none := by
        rcases h.left with rfl | hl
        · exact hx
        · exact hl.2
      refine ⟨_, rfl, hall ?_ ?_ ?_⟩
      · rw [AList.lookup_insert, hrx, hy, Option.merge_none_left]
      · intro k hk hcases
        rw [AList.lookup_insert_ne hk]
        rcases hcases with rfl | rfl
        · rw [AList.lookup_erase_ne hne, hrx]
        · exact AList.lookup_erase ..
      · intro k hkx hky
        rw [AList.lookup_insert_ne (hnotKept hkx hky), AList.lookup_erase_ne hky]
  · obtain rfl : x = rx := h.left.resolve_right fun hl => by simp [hx] at hl
    rcases hy : edges.lookup y with _ | wy
    · have hry : edges.lookup ry = none := by
        rcases h.right with rfl | hr
        · exact hy
        · exact hr.2
      refine ⟨_, rfl, hall ?_ ?_ ?_⟩
      · rw [AList.lookup_insert, hry, hx, Option.merge_none_right]
      · intro k hk hcases
        rw [AList.lookup_insert_ne hk]
        rcases hcases with rfl | rfl
        · exact AList.lookup_erase ..
        · rw [AList.lookup_erase_ne (Ne.symm hne), hry]
      · intro k hkx hky
        rw [AList.lookup_insert_ne (hnotKept hkx hky), AList.lookup_erase_ne hkx]
    · obtain rfl : y = ry := h.right.resolve_right fun hr => by simp [hy] at hr
      refine ⟨_, rfl, hall ?_ ?_ ?_⟩
      · rw [AList.lookup_insert, hx, hy, Option.merge_some_some]
      · intro k hk hcases
        rw [AList.lookup_insert_ne hk]
        rcases hcases with rfl | rfl
        · rw [AList.lookup_erase_ne hne]
          exact AList.lookup_erase ..
        · exact AList.lookup_erase ..
      · intro k hkx hky
        rw [AList.lookup_insert_ne (hnotKept hkx hky), AList.lookup_erase_ne hky,
          AList.lookup_erase_ne hkx]

end Edges

/-! ## The adjacency maps -/

/-- The adjacency map has the classes of `rep` and `size`, and the edges of each
representative are a row of `f`. -/
def Rows (m : UnionFindMap V (EdgeMap V EW)) (rep : V → Option V) (size : V → ℕ)
    (f : V → V → Option EW) : Prop :=
  ∃ rows, m.Represents ⟨rep, size, rows⟩ ∧
    ∀ r, rep r = some r → ∃ edges, rows r = some edges ∧ ∀ t, edges.lookup t = f r t

/-- The representatives after the classes of `kept` and `lost` have become one. -/
def united (rep : V → Option V) (kept lost v : V) : Option V :=
  if rep v = some lost then some kept else rep v

namespace Rows

variable {m : UnionFindMap V (EdgeMap V EW)} {rep : V → Option V} {size : V → ℕ}
  {f : V → V → Option EW}

theorem empty : Rows (UnionFindMap.empty : UnionFindMap V (EdgeMap V EW)) (fun _ => none)
    (fun _ => 0) fun _ _ => none :=
  ⟨fun _ => none, .empty, fun _ hr => by cases hr⟩

section

variable (h : Rows m rep size f)

include h

theorem congr {f' : V → V → Option EW}
    (heq : ∀ r, rep r = some r → f' r = f r) : Rows m rep size f' := by
  obtain ⟨rows, hm, hrows⟩ := h
  refine ⟨rows, hm, ?_⟩
  intro r hr
  rw [heq r hr]
  exact hrows r hr

/-- `Find` returns the row of the representative. -/
theorem find {v r : V} (hr : rep v = some r) :
    ∃ edges i m', m.find v = some (some ⟨r, edges, i⟩, m') ∧ (∀ t, edges.lookup t = f r t) ∧
      Rows m' rep size f ∧
      ∀ edges' : EdgeMap V EW,
        Rows (m'.assign i edges') rep size (Function.update f r fun t => edges'.lookup t) := by
  obtain ⟨rows, hm, hrows⟩ := h
  obtain ⟨edges, hedges, hlookup⟩ := hrows r (hm.rep_rep hr)
  obtain ⟨v', i, m', hfind, hv', hm', hroot⟩ := hm.find hr
  obtain rfl : v' = edges := Option.some.inj (hv'.symm.trans hedges)
  refine ⟨v', i, m', hfind, hlookup, ⟨rows, hm', hrows⟩, ?_⟩
  intro edges'
  refine ⟨Function.update rows r (some edges'), hm'.assign hroot edges', ?_⟩
  intro r' hr'
  by_cases hrr : r' = r
  · subst hrr
    exact ⟨edges', Function.update_self .., fun t => by rw [Function.update_self]⟩
  · rw [Function.update_of_ne hrr, Function.update_of_ne hrr]
    exact hrows r' hr'

/-- The neighbours of a class are the keys of its row. -/
theorem neighbours {v r : V} (hr : rep v = some r) :
    ∃ vs m', GraphContraction.neighbours m v = some (vs, m') ∧ vs.Nodup ∧
      (∀ t, t ∈ vs ↔ f r t ≠ none) ∧ Rows m' rep size f := by
  obtain ⟨edges, i, m', hfind, hlookup, hrows, -⟩ := h.find hr
  refine ⟨edges.keys, m', by simp [GraphContraction.neighbours, hfind], edges.keys_nodup, ?_, hrows⟩
  intro t
  rw [← hlookup, Ne, AList.lookup_eq_none, not_not, AList.mem_keys]

theorem contains_iff {v : V} :
    m.contains v = true ↔ ∃ r, rep v = some r := by
  obtain ⟨rows, hm, -⟩ := h
  exact hm.contains_iff

/-- A new vertex has no edges. -/
theorem insert_of_none {v : V} (hv : rep v = none)
    (hf : ∀ t, f v t = none) :
    ∃ m', m.insert v ∅ = some m' ∧
      Rows m' (Function.update rep v (some v)) (Function.update size v 1) f := by
  obtain ⟨rows, hm, hrows⟩ := h
  obtain ⟨m', hinsert, hm'⟩ := hm.insertWith_of_none hv ∅ fun _ new => new
  refine ⟨m', hinsert, _, hm', ?_⟩
  intro r hr
  by_cases hrv : r = v
  · subst hrv
    exact ⟨∅, Function.update_self .., fun t => by rw [hf t, AList.lookup_empty]⟩
  · rw [Function.update_of_ne hrv] at hr ⊢
    exact hrows r hr

/-- An edge out of a representative, which is new or has its weight already. -/
theorem insertWith_singleton {s t : V} {w : EW} (hs : rep s = some s)
    (hold : f s t = none ∨ f s t = some w) :
    ∃ m', m.insertWith s (AList.singleton t w) (· ∪ ·) = some m' ∧
      Rows m' rep size (Function.update f s (Function.update (f s) t (some w))) := by
  obtain ⟨rows, hm, hrows⟩ := h
  obtain ⟨edges, hedges, hlookup⟩ := hrows s hs
  obtain ⟨m', hinsert, hm'⟩ := hm.insertWith_of_rep hs hedges (v := AList.singleton t w) (· ∪ ·)
  refine ⟨m', hinsert, _, hm', ?_⟩
  intro r hr
  by_cases hrs : r = s
  · subst hrs
    rw [Function.update_self, Function.update_self]
    refine ⟨_, rfl, ?_⟩
    intro k
    by_cases hk : k = t
    · subst hk
      rw [Function.update_self]
      rcases hold with hold | hold
      · rw [AList.lookup_union_right (by rw [← AList.lookup_eq_none, hlookup, hold])]
        exact dif_pos rfl
      · rw [AList.lookup_union_left (by rw [← AList.lookup_isSome, hlookup, hold]; rfl), hlookup,
          hold]
    · rw [Function.update_of_ne hk]
      by_cases hmem : k ∈ edges
      · rw [AList.lookup_union_left hmem, hlookup]
      · rw [AList.lookup_union_right hmem, ← hlookup, AList.lookup_eq_none.mpr hmem,
          AList.lookup_eq_none]
        show k ∉ (AList.singleton t w).keys
        simpa using hk
  · rw [Function.update_of_ne hrs, Function.update_of_ne hrs]
    exact hrows r hr

end

section Identify

variable {x y rx ry kept lost : V} {ewMerge : EW → EW → EW} [Std.Commutative ewMerge]

variable (ewMerge) in
/-- One call of `patch_up_edges`. -/
theorem patchUpEdges (h : Rows m rep size f) (hpair : IsPair rx ry kept lost) (hne : rx ≠ ry)
    {v r : V} (hr : rep v = some r) (hpatch : Patchable x y rx ry (f r)) :
    ∃ m', GraphContraction.patchUpEdges x y kept ewMerge m v = some m' ∧
      Rows m' rep size (Function.update f r (collapse ewMerge kept lost (f r))) := by
  obtain ⟨edges₁, i₁, m₁, hfind₁, -, h₁, -⟩ := h.find hr
  obtain ⟨edges, i, m', hfind, hlookup, -, hassign⟩ := h₁.find hr
  have hrow : (fun v => edges.lookup v) = f r := funext hlookup
  rw [← hrow] at hpatch
  obtain ⟨edges', hpatched, hlookup'⟩ := patchedEdges_spec ewMerge hpair hne hpatch
  refine ⟨m'.assign i edges', ?_, ?_⟩
  · simp [GraphContraction.patchUpEdges, hfind₁, hfind, hpatched]
  · rw [← hrow, ← funext hlookup']
    exact hassign edges'

/-- The row of a vertex after the calls for the vertices `done`. -/
def patchedRow (rep : V → Option V) (f : V → V → Option EW) (ewMerge : EW → EW → EW)
    (kept lost : V) (done : List V) (r : V) : V → Option EW :=
  if some r ∈ done.map rep then collapse ewMerge kept lost (f r) else f r

/-- A loop of calls of `patch_up_edges`. -/
theorem foldlM_patchUpEdges (h : Rows m rep size f) (hpair : IsPair rx ry kept lost)
    (hne : rx ≠ ry) {vs : List V} (hrep : ∀ v ∈ vs, rep v ≠ none)
    (hpatch : ∀ done v rest r, vs = done ++ v :: rest → rep v = some r →
      Patchable x y rx ry (patchedRow rep f ewMerge kept lost done r)) :
    ∃ m', vs.foldlM (GraphContraction.patchUpEdges x y kept ewMerge) m = some m' ∧
      Rows m' rep size (patchedRow rep f ewMerge kept lost vs) := by
  have hkl : kept ≠ lost := by
    rcases hpair with ⟨rfl, rfl⟩ | ⟨rfl, rfl⟩
    · exact hne
    · exact Ne.symm hne
  induction vs using List.reverseRecOn with
  | nil =>
    refine ⟨m, rfl, h.congr ?_⟩
    intro r _
    simp [patchedRow]
  | append_singleton vs v ih =>
    obtain ⟨m₁, hfold, hrows⟩ := ih (fun u hu => hrep u (by simp [hu]))
      (fun done u rest r heq => hpatch done u (rest ++ [v]) r (by simp [heq]))
    obtain ⟨r, hr⟩ := Option.ne_none_iff_exists'.mp (hrep v (by simp))
    obtain ⟨m₂, hstep, hrows'⟩ := hrows.patchUpEdges ewMerge hpair hne hr (hpatch vs v [] r rfl hr)
    refine ⟨m₂, by simp [hfold, hstep], hrows'.congr ?_⟩
    intro r' _
    by_cases hrr : r' = r
    · -- a second call leaves the row as it is
      subst hrr
      rw [Function.update_self]
      simp only [patchedRow, List.map_append, List.map_cons, List.map_nil, List.mem_append, hr,
        List.mem_singleton, or_true, ↓reduceIte]
      split
      · rw [collapse_collapse hkl]
      · rfl
    · simp [patchedRow, hr, hrr]

theorem united_eq_self (hkept : rep kept = some kept) (hkl : kept ≠ lost) {r : V}
    (hr : united rep kept lost r = some r) : rep r = some r ∧ r ≠ lost := by
  unfold united at hr
  by_cases hlost : rep r = some lost
  · rw [if_pos hlost] at hr
    cases hr
    rw [hkept] at hlost
    cases hlost
    exact absurd rfl hkl
  · rw [if_neg hlost] at hr
    refine ⟨hr, ?_⟩
    rintro rfl
    exact hlost hr

variable (ewMerge) in
omit [Std.Commutative ewMerge] in
/-- `Union` of the adjacency maps of two classes, for which `merge_map` combines the rows. -/
theorem union (h : Rows m rep size f) (hx : rep x = some rx) (hy : rep y = some ry) (hne : rx ≠ ry)
    (hkept : kept = if size rx < size ry then ry else rx)
    (hlost : lost = if size rx < size ry then rx else ry)
    (hmerge : ∀ a b : EdgeMap V EW, (∀ t, a.lookup t = f kept t) → (∀ t, b.lookup t = f lost t) →
      ∀ t, (mergeMap x y kept ewMerge a b).lookup t =
        collapse ewMerge kept lost (fun t => Option.merge ewMerge (f kept t) (f lost t)) t) :
    ∃ m', m.union x y (mergeMap x y kept ewMerge) = some (true, m') ∧
      Rows m' (united rep kept lost) (Function.update size kept (size kept + size lost))
        (Function.update f kept
          (collapse ewMerge kept lost fun t => Option.merge ewMerge (f kept t) (f lost t))) := by
  obtain ⟨rows, hm, hrows⟩ := h
  obtain ⟨a, b, m', ha, hb, hunion, hm'⟩ := hm.union hx hy hne (mergeMap x y kept ewMerge)
  have hclassKept : Classes.kept ⟨rep, size, rows⟩ rx ry = kept := hkept.symm
  have hclassLost : Classes.lost ⟨rep, size, rows⟩ rx ry = lost := hlost.symm
  rw [hclassKept] at ha hm'
  rw [hclassLost] at hb hm'
  have hreps : rep kept = some kept ∧ rep lost = some lost ∧ kept ≠ lost := by
    rw [hkept, hlost]
    split
    · exact ⟨hm.rep_rep hy, hm.rep_rep hx, Ne.symm hne⟩
    · exact ⟨hm.rep_rep hx, hm.rep_rep hy, hne⟩
  obtain ⟨hrepKept, hrepLost, hkl⟩ := hreps
  have hrow : ∀ {r edges}, rep r = some r → rows r = some edges → ∀ t, edges.lookup t = f r t := by
    intro r edges hr hedges
    obtain ⟨edges', hedges', hlookup⟩ := hrows r hr
    obtain rfl : edges' = edges := Option.some.inj (hedges'.symm.trans hedges)
    exact hlookup
  refine ⟨m', hunion, _, hm', ?_⟩
  intro r hr
  have hold := (united_eq_self hrepKept hkl hr).1
  by_cases hrk : r = kept
  · subst hrk
    rw [Function.update_self, Function.update_self]
    exact ⟨_, rfl, hmerge a b (hrow hrepKept ha) (hrow hrepLost hb)⟩
  · rw [Function.update_of_ne hrk, Function.update_of_ne hrk]
    exact hrows r hold

end Identify

end Rows

end GraphContraction

end Xls
