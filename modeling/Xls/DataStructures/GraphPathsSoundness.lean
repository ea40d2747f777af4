/-
# Longest paths are exact

`TopologicalSort` and `LongestNodePaths` on the graphs which `AddVertex` and `AddEdge` build.
In such a graph the queries change nothing, so that both functions are computations on the
neighbours of the vertices.

* `Plain` : what the graph holds after these calls;
* `topologicalSort_spec` : the vertices in order, or nothing when there is a cycle;
* `relaxVertex_spec` : one vertex is added to the paths from every source;
* `longestNodePaths_exact` : the entries are the greatest weights of paths.
-/
import Xls.DataStructures.GraphPaths

namespace Xls

namespace QuotientGraph

variable {V VW EW : Type}

/-- There is an edge. -/
def Edge (q : QuotientGraph V VW EW) (s t : V) : Prop := q.edge s t ≠ none

/-- The weight of a vertex. -/
def weightAt (q : QuotientGraph V ℤ EW) (v : V) : ℤ := (q.weight v).getD 0

end QuotientGraph

namespace GraphContraction

open Relation WeightedPath

variable {V VW EW : Type} [DecidableEq V]

/-- The calls which build a graph. -/
def Op.IsAdd : Op V VW EW → Prop
  | .addVertex _ _ => True
  | .addEdge _ _ _ => True
  | .identifyVertices _ _ _ _ => False

/-- A list of all vertices in topological order. -/
structure IsTopological (q : QuotientGraph V VW EW) (l : List V) : Prop where
  nodup : l.Nodup
  mem_iff : ∀ v, v ∈ l ↔ q.weight v ≠ none
  before : ∀ s t, q.Edge s t → l.idxOf s < l.idxOf t

/-- A vertex is reached from another one, possibly itself. -/
def Reachable (q : QuotientGraph V VW EW) (s t : V) : Prop :=
  q.weight s ≠ none ∧ ReflTransGen q.Edge s t

/-- The weights of the paths between two vertices. -/
def pathWeights (q : QuotientGraph V ℤ EW) (s t : V) : Set ℤ :=
  weights (fun n p => q.Edge p n) q.weightAt s t

/-! ## Graphs without contractions -/

/-- The edges out of a vertex. -/
def outs (g : GraphContraction V VW EW) (v : V) : EdgeMap V EW := (g.outEdges.get v).getD ∅

/-- The edges into a vertex. -/
def ins (g : GraphContraction V VW EW) (v : V) : EdgeMap V EW := (g.inEdges.get v).getD ∅

/-- The graph holds vertices and edges of which none were identified. -/
structure Plain (g : GraphContraction V VW EW) (q : QuotientGraph V VW EW) : Prop where
  flat : g.vertexWeights.Flat ∧ g.outEdges.Flat ∧ g.inEdges.Flat
  weight_eq : ∀ v, g.vertexWeights.get v = q.weight v
  rep_eq : ∀ v, q.rep v = if q.weight v = none then none else some v
  outs_eq_none : ∀ v, g.outEdges.get v = none ↔ q.weight v = none
  ins_eq_none : ∀ v, g.inEdges.get v = none ↔ q.weight v = none
  mem_outs : ∀ s t, t ∈ g.outs s ↔ q.Edge s t
  mem_ins : ∀ s t, s ∈ g.ins t ↔ q.Edge s t
  edge_weight : ∀ s t, q.Edge s t → q.weight s ≠ none ∧ q.weight t ≠ none

namespace Plain

variable {g : GraphContraction V VW EW} {q : QuotientGraph V VW EW}

omit [DecidableEq V] in
theorem empty : Plain (GraphContraction.empty : GraphContraction V VW EW) .empty where
  flat := ⟨.empty, .empty, .empty⟩
  weight_eq _ := rfl
  rep_eq _ := rfl
  outs_eq_none _ := ⟨fun _ => rfl, fun _ => rfl⟩
  ins_eq_none _ := ⟨fun _ => rfl, fun _ => rfl⟩
  mem_outs s t := by
    refine iff_of_false ?_ fun h => h rfl
    exact AList.notMem_empty t
  mem_ins s t := by
    refine iff_of_false ?_ fun h => h rfl
    exact AList.notMem_empty s
  edge_weight s t h := absurd rfl h

/-- A map of edges after `AddVertex`: the vertex has edges, those it had. -/
theorem addRow {m : UnionFindMap V (EdgeMap V EW)} (h : m.Flat) (v : V) :
    ∃ m', (if m.contains v then some m else m.insert v ∅) = some m' ∧ m'.Flat ∧
      (∀ u, m'.get u = none ↔ u ≠ v ∧ m.get u = none) ∧
      ∀ u, (m'.get u).getD ∅ = (m.get u).getD ∅ := by
  by_cases hv : m.contains v = true
  · refine ⟨m, if_pos hv, h, fun u => ?_, fun u => rfl⟩
    refine ⟨fun hu => ⟨?_, hu⟩, And.right⟩
    rintro rfl
    exact h.contains_iff.mp hv hu
  · have hnone : m.get v = none := by
      by_contra hne
      exact hv (h.contains_iff.mpr hne)
    obtain ⟨m', hm', hflat, hget⟩ := h.insertWith v ∅ fun _ new => new
    refine ⟨m', (if_neg hv).trans hm', hflat, fun u => ?_, fun u => ?_⟩
    · rw [hget u]
      split_ifs with hu
      · simp [hu]
      · simp [hu]
    · rw [hget u]
      split_ifs with hu
      · rw [hu, hnone]
        rfl
      · rfl

section

variable (h : Plain g q)

include h

/-- The weight of a vertex is replaced. -/
theorem weight_addVertex (v : V) (w : VW) (u : V) :
    (q.addVertex v w).weight u = if u = v then some w else q.weight u := by
  unfold QuotientGraph.addVertex
  rw [h.rep_eq v]
  split
  · rename_i r hr
    split_ifs at hr with hv
    obtain rfl := Option.some.inj hr
    exact Function.update_apply ..
  · exact Function.update_apply ..

/-- `AddVertex`. -/
theorem addVertex (v : V) (w : VW) :
    ∃ g', g.addVertex v w = some g' ∧ Plain g' (q.addVertex v w) := by
  obtain ⟨hweights, houts, hins⟩ := h.flat
  obtain ⟨weights', hw', hwflat, hwget⟩ := hweights.insertWith v w fun _ new => new
  obtain ⟨outs', ho', hoflat, honone, hoget⟩ := addRow houts v
  obtain ⟨ins', hi', hiflat, hinone, higet⟩ := addRow hins v
  have hinsert : g.vertexWeights.insert v w = some weights' := hw'
  have hweight := h.weight_addVertex v w
  have hedge : (q.addVertex v w).edge = q.edge := by
    unfold QuotientGraph.addVertex
    split <;> rfl
  refine ⟨⟨weights', outs', ins'⟩, ?_, ⟨hwflat, hoflat, hiflat⟩, ?_, ?_, ?_, ?_, ?_, ?_, ?_⟩
  · unfold GraphContraction.addVertex
    rw [hinsert]
    split_ifs at ho' hi' ⊢ <;> simp [ho', hi']
  · intro u
    rw [hweight, hwget u, h.weight_eq u]
    split_ifs
    · rcases g.vertexWeights.get v with _ | old
      · rfl
      · rfl
    · rfl
  · intro u
    have hrep : (q.addVertex v w).rep u = if u = v then some v else q.rep u := by
      unfold QuotientGraph.addVertex
      have hv := h.rep_eq v
      split
      · rename_i r hr
        split_ifs with hu
        · rw [hu, hv]
          rw [hv] at hr
          split_ifs at hr ⊢
          rfl
        · rfl
      · exact Function.update_apply ..
    rw [hrep, h.rep_eq u]
    split_ifs <;> simp_all
  · intro u
    rw [hweight, honone u, h.outs_eq_none u]
    split_ifs with hu <;> simp [hu]
  · intro u
    rw [hweight, hinone u, h.ins_eq_none u]
    split_ifs with hu <;> simp [hu]
  · intro s t
    unfold outs QuotientGraph.Edge
    rw [hoget s, hedge]
    exact h.mem_outs s t
  · intro s t
    unfold ins QuotientGraph.Edge
    rw [higet t, hedge]
    exact h.mem_ins s t
  · intro s t hst
    unfold QuotientGraph.Edge at hst
    rw [hedge] at hst
    obtain ⟨hs, ht⟩ := h.edge_weight s t hst
    rw [hweight, hweight]
    constructor <;> split_ifs <;> simp_all

omit h in
/-- A map of edges after `AddEdge`: one more edge at one vertex. -/
theorem addEntry {m : UnionFindMap V (EdgeMap V EW)} (h : m.Flat) {s : V} (hs : m.get s ≠ none)
    (t : V) (w : EW) :
    ∃ m', m.insertWith s (AList.singleton t w : EdgeMap V EW) (· ∪ ·) = some m' ∧ m'.Flat ∧
      (∀ u, m'.get u = none ↔ m.get u = none) ∧
      ∀ u v, v ∈ (m'.get u).getD ∅ ↔ v ∈ (m.get u).getD ∅ ∨ (u = s ∧ v = t) := by
  obtain ⟨m', hm', hflat, hget⟩ := h.insertWith s (AList.singleton t w : EdgeMap V EW) (· ∪ ·)
  obtain ⟨old, hold⟩ := Option.ne_none_iff_exists'.mp hs
  refine ⟨m', hm', hflat, fun u => ?_, fun u v => ?_⟩
  · rw [hget u]
    split_ifs with hu
    · rw [hu, hold]
      simp
    · exact Iff.rfl
  · rw [hget u]
    split_ifs with hu
    · rw [hu, hold, Option.map_some, Option.getD_some, Option.getD_some, AList.mem_union]
      have hsingle : v ∈ (AList.singleton t w : EdgeMap V EW) ↔ v = t := List.mem_singleton
      rw [hsingle]
      simp
    · simp [hu]

/-- `AddEdge`. -/
theorem addEdge (s t : V) (w : EW) :
    ∃ b g', g.addEdge s t w = some (b, g') ∧ Plain g' (q.addEdge s t w) := by
  obtain ⟨hweights, houts, hins⟩ := h.flat
  have hcontains : ∀ v, g.vertexWeights.contains v = true ↔ q.weight v ≠ none := by
    intro v
    rw [hweights.contains_iff, h.weight_eq v]
  by_cases hst : q.weight s ≠ none ∧ q.weight t ≠ none
  · obtain ⟨hs, ht⟩ := hst
    obtain ⟨outs', ho', hoflat, honone, homem⟩ := addEntry houts
      (fun hn => hs ((h.outs_eq_none s).mp hn)) t w
    obtain ⟨ins', hi', hiflat, hinone, himem⟩ := addEntry hins
      (fun hn => ht ((h.ins_eq_none t).mp hn)) s w
    have hq : q.addEdge s t w =
        { q with edge := Function.update q.edge s (Function.update (q.edge s) t (some w)) } := by
      unfold QuotientGraph.addEdge
      rw [h.rep_eq s, h.rep_eq t, if_neg hs, if_neg ht]
    have hedge : ∀ a b, (q.addEdge s t w).Edge a b ↔ q.Edge a b ∨ (a = s ∧ b = t) := by
      intro a b
      rw [hq]
      unfold QuotientGraph.Edge
      by_cases ha : a = s
      · by_cases hb : b = t
        · simp [ha, hb]
        · simp [ha, hb]
      · simp [ha]
    refine ⟨true, ⟨g.vertexWeights, outs', ins'⟩, ?_, ⟨hweights, hoflat, hiflat⟩, ?_, ?_, ?_, ?_,
      ?_, ?_, ?_⟩
    · unfold GraphContraction.addEdge
      rw [(hcontains s).mpr hs, (hcontains t).mpr ht, ho', hi']
      rfl
    · intro v
      rw [hq]
      exact h.weight_eq v
    · intro v
      rw [hq]
      exact h.rep_eq v
    · intro v
      rw [hq, honone v]
      exact h.outs_eq_none v
    · intro v
      rw [hq, hinone v]
      exact h.ins_eq_none v
    · intro a b
      rw [hedge, ← h.mem_outs]
      exact homem a b
    · intro a b
      rw [hedge, ← h.mem_ins, and_comm]
      exact himem b a
    · intro a b hab
      rw [hq]
      rcases (hedge a b).mp hab with hab | ⟨rfl, rfl⟩
      · exact h.edge_weight a b hab
      · exact ⟨hs, ht⟩
  · have hq : q.addEdge s t w = q := by
      unfold QuotientGraph.addEdge
      rw [h.rep_eq s, h.rep_eq t]
      by_cases hs : q.weight s = none
      · simp [hs]
      · by_cases ht : q.weight t = none
        · simp [ht]
        · exact absurd ⟨hs, ht⟩ hst
    refine ⟨false, g, ?_, by rw [hq]; exact h⟩
    unfold GraphContraction.addEdge
    rw [if_pos]
    rw [Bool.not_eq_true', ← Bool.not_eq_true, Bool.and_eq_true, hcontains, hcontains]
    exact hst

omit h in
/-- A sequence of calls which build a graph. -/
theorem foldlM_step (ops : List (Op V VW EW)) (hadd : ∀ op ∈ ops, op.IsAdd) :
    ∀ {g : GraphContraction V VW EW} {q : QuotientGraph V VW EW}, Plain g q →
      ∃ g', ops.foldlM GraphContraction.step g = some g' ∧
        Plain g' (ops.foldl QuotientGraph.step q) := by
  induction ops with
  | nil => intro g q h; exact ⟨g, rfl, h⟩
  | cons op ops ih =>
    intro g q h
    have hrest : ∀ op ∈ ops, op.IsAdd := fun op hop => hadd op (List.mem_cons_of_mem _ hop)
    have hstep : ∃ g', g.step op = some g' ∧ Plain g' (q.step op) := by
      have hop := hadd op List.mem_cons_self
      cases op with
      | addVertex v w => exact h.addVertex v w
      | addEdge s t w =>
        obtain ⟨b, g', hg', hplain⟩ := h.addEdge s t w
        exact ⟨g', by simp [GraphContraction.step, hg'], hplain⟩
      | identifyVertices x y vwMerge ewMerge => exact hop.elim
    obtain ⟨g₁, hg₁, h₁⟩ := hstep
    obtain ⟨g', hg', h'⟩ := ih hrest h₁
    refine ⟨g', ?_, h'⟩
    rw [List.foldlM_cons, hg₁]
    exact hg'

/-! ## Queries -/

omit [DecidableEq V] in
theorem weightOf_eq (v : V) : g.weightOf v = some (q.weight v, g) := by
  rw [← h.weight_eq v]
  rcases hv : g.vertexWeights.get v with _ | w
  · simp [weightOf, h.flat.1.find_of_none hv]
  · obtain ⟨i, hfind⟩ := h.flat.1.find_of_get hv
    simp [weightOf, hfind]

omit [DecidableEq V] in
theorem edgesOutOf_eq (v : V) : g.edgesOutOf v = some (g.outs v, g) := by
  unfold outs
  rcases hv : g.outEdges.get v with _ | edges
  · simp [edgesOutOf, h.flat.2.1.find_of_none hv]
  · obtain ⟨i, hfind⟩ := h.flat.2.1.find_of_get hv
    simp [edgesOutOf, hfind]

omit [DecidableEq V] in
theorem edgesInto_eq (v : V) : g.edgesInto v = some (g.ins v, g) := by
  unfold ins
  rcases hv : g.inEdges.get v with _ | edges
  · simp [edgesInto, h.flat.2.2.find_of_none hv]
  · obtain ⟨i, hfind⟩ := h.flat.2.2.find_of_get hv
    simp [edgesInto, hfind]

theorem vertices_eq : g.vertices = some (g.vertexWeights.keys, g) := by
  simp [vertices, h.flat.1.getRepresentatives]

omit [DecidableEq V] in
theorem mem_vertices {v : V} : v ∈ g.vertexWeights.keys ↔ q.weight v ≠ none := by
  rw [h.flat.1.mem_keys_iff, h.weight_eq v]

omit [DecidableEq V] in
/-- The lists of neighbours describe the graph. -/
theorem isGraph : Kahn.IsGraph q.Edge g.vertexWeights.keys
    (fun v => (g.ins v).keys) fun v => (g.outs v).keys where
  nodup := h.flat.1.nodup_keys
  mem_of_edge hab := by
    rw [h.mem_vertices, h.mem_vertices]
    exact h.edge_weight _ _ hab
  mem_preds := h.mem_ins _ _
  mem_succs := h.mem_outs _ _
  nodup_preds v := (g.ins v).keys_nodup
  nodup_succs v := (g.outs v).keys_nodup

/-! ## Topological sorting -/

/-- The first loop counts the edges into each vertex. -/
theorem foldlM_countEdges (vs : List V) :
    ∀ (edgeCount : EdgeMap V ℤ) (active : List V), ∃ edgeCount',
      vs.foldlM countEdges (edgeCount, active, g) =
          some (edgeCount', (vs.filter fun v => (g.ins v).keys = []).reverse ++ active, g) ∧
        ∀ v, edgeCount'.lookup v =
          if v ∈ vs then some ((g.ins v).keys.length : ℤ) else edgeCount.lookup v := by
  induction vs with
  | nil => intro edgeCount active; exact ⟨edgeCount, rfl, fun v => rfl⟩
  | cons u vs ih =>
    intro edgeCount active
    have hbody : countEdges (edgeCount, active, g) u =
        some (edgeCount.insert u ((g.ins u).keys.length : ℤ),
          if (g.ins u).keys = [] then u :: active else active, g) := by
      simp [countEdges, h.edgesInto_eq]
    obtain ⟨edgeCount', hfold, hlookup⟩ :=
      ih (edgeCount.insert u ((g.ins u).keys.length : ℤ))
        (if (g.ins u).keys = [] then u :: active else active)
    refine ⟨edgeCount', ?_, fun v => ?_⟩
    · rw [List.foldlM_cons, hbody]
      show vs.foldlM countEdges _ = _
      rw [hfold]
      by_cases hu : (g.ins u).keys = []
      · simp [hu]
      · simp [hu]
    · rw [hlookup v]
      by_cases hv : v ∈ vs
      · rw [if_pos hv, if_pos (List.mem_cons_of_mem u hv)]
      · rw [if_neg hv]
        by_cases hvu : v = u
        · subst hvu
          rw [AList.lookup_insert, if_pos List.mem_cons_self]
        · rw [AList.lookup_insert_ne hvu, if_neg (by simp [hvu, hv])]

omit h in
/-- The loop over the targets of an active vertex takes one from their counts. -/
theorem foldlM_countDown {targets : List V} (hnodup : targets.Nodup) :
    ∀ (edgeCount : EdgeMap V ℤ) (active : List V), (∀ t ∈ targets, edgeCount.lookup t ≠ none) →
      ∃ edgeCount', targets.foldlM countDown (edgeCount, active) =
          some (edgeCount', (targets.filter fun t => edgeCount.lookup t = some 1).reverse ++ active) ∧
        ∀ v, edgeCount'.lookup v =
          if v ∈ targets then (edgeCount.lookup v).map (· - 1) else edgeCount.lookup v := by
  induction targets with
  | nil => intro edgeCount active _; exact ⟨edgeCount, rfl, fun v => rfl⟩
  | cons t targets ih =>
    intro edgeCount active hsome
    obtain ⟨ht, hrest⟩ := List.nodup_cons.mp hnodup
    obtain ⟨n, hn⟩ := Option.ne_none_iff_exists'.mp (hsome t List.mem_cons_self)
    have hbody : countDown (edgeCount, active) t =
        some (edgeCount.insert t (n - 1), if n - 1 = 0 then t :: active else active) := by
      simp [countDown, hn]
    have hother : ∀ u ∈ targets, (edgeCount.insert t (n - 1)).lookup u = edgeCount.lookup u := by
      intro u hu
      apply AList.lookup_insert_ne
      rintro rfl
      exact ht hu
    obtain ⟨edgeCount', hfold, hlookup⟩ := ih hrest
      (edgeCount.insert t (n - 1)) (if n - 1 = 0 then t :: active else active)
      fun u hu => by rw [hother u hu]; exact hsome u (List.mem_cons_of_mem t hu)
    refine ⟨edgeCount', ?_, fun v => ?_⟩
    · rw [List.foldlM_cons, hbody]
      show targets.foldlM countDown _ = _
      have hfilter : (targets.filter fun u => (edgeCount.insert t (n - 1)).lookup u = some 1) =
          targets.filter fun u => edgeCount.lookup u = some 1 :=
        List.filter_congr fun u hu => by rw [hother u hu]
      rw [hfold, hfilter]
      by_cases h1 : n = 1
      · simp [hn, h1]
      · simp [hn, h1, sub_eq_zero]
    · rw [hlookup v]
      by_cases hv : v ∈ targets
      · rw [if_pos hv, if_pos (List.mem_cons_of_mem t hv), hother v hv]
      · rw [if_neg hv]
        by_cases hvt : v = t
        · subst hvt
          rw [AList.lookup_insert, if_pos List.mem_cons_self, hn, Option.map_some]
        · rw [AList.lookup_insert_ne hvt, if_neg (by simp [hvt, hv])]

/-- The loop of `TopologicalSort` ends with all vertices which can be sorted. -/
theorem sortLoop_spec (o : IterationOrder V) (fuel : ℕ) :
    ∀ {active result : List V} {edgeCount : EdgeMap V ℤ},
      Kahn.Progress g.vertexWeights.keys (fun v => (g.ins v).keys) result active
        (fun v => edgeCount.lookup v) →
      g.vertexWeights.keys.length ≤ result.length + fuel →
      ∃ result' edgeCount', sortLoop o fuel active edgeCount result g = some (result', g) ∧
        Kahn.Progress g.vertexWeights.keys (fun v => (g.ins v).keys) result' []
          fun v => AList.lookup v edgeCount' := by
  induction fuel with
  | zero =>
    intro active result edgeCount hprogress hfuel
    rcases active with _ | ⟨source, active⟩
    · exact ⟨result, edgeCount, rfl, hprogress⟩
    · have := hprogress.length_le
      simp only [List.length_append, List.length_cons] at this
      omega
  | succ fuel ih =>
    intro active result edgeCount hprogress hfuel
    rcases active with _ | ⟨source, active⟩
    · exact ⟨result, edgeCount, rfl, hprogress⟩
    · have hperm := o.perm (.countDown source) (g.outs source).keys
      have hnodup : (o.order (.countDown source) (g.outs source).keys).Nodup :=
        hperm.nodup_iff.mpr (g.outs source).keys_nodup
      have hvertex : ∀ t ∈ o.order (.countDown source) (g.outs source).keys,
          t ∈ g.vertexWeights.keys := by
        intro t ht
        exact (h.isGraph.mem_of_edge (h.isGraph.mem_succs.mp (hperm.mem_iff.mp ht))).2
      obtain ⟨edgeCount', hfold, hlookup⟩ := foldlM_countDown hnodup edgeCount active
        fun t ht => by simp [hprogress.count_eq t (hvertex t ht)]
      have hfresh : (((o.order (.countDown source) (g.outs source).keys).filter
          fun t => edgeCount.lookup t = some 1).reverse).Nodup :=
        List.nodup_reverse.mpr (hnodup.filter _)
      have hcount : ∀ v ∈ g.vertexWeights.keys, edgeCount'.lookup v =
          if v ∈ (g.outs source).keys then (edgeCount.lookup v).map (· - 1)
          else edgeCount.lookup v := by
        intro v _
        rw [hlookup v, if_congr hperm.mem_iff rfl rfl]
      have hstep := hprogress.step h.isGraph hfresh (fun v => by simp [hperm.mem_iff]) hcount
      obtain ⟨result', final, hloop, hdone⟩ := ih hstep (by simp; omega)
      refine ⟨result', final, ?_, hdone⟩
      rw [sortLoop, h.edgesOutOf_eq]
      show ((o.order (.countDown source) (g.outs source).keys).foldlM countDown
        (edgeCount, active)).bind _ = _
      rw [hfold]
      exact hloop

/-- `TopologicalSort` yields nothing when there is a cycle, and otherwise a topological
order. -/
theorem topologicalSort_spec (o : IterationOrder V) : ∃ topo, g.topologicalSort o = some (topo, g) ∧
      (topo = none ↔ ∃ v, TransGen q.Edge v v) ∧ ∀ l, topo = some l → IsTopological q l := by
  have hperm := o.perm .countEdges g.vertexWeights.keys
  obtain ⟨edgeCount, hcount, hlookup⟩ :=
    h.foldlM_countEdges (o.order .countEdges g.vertexWeights.keys) ∅ []
  have hstart : Kahn.Progress g.vertexWeights.keys (fun v => (g.ins v).keys) []
      (((o.order .countEdges g.vertexWeights.keys).filter fun v => (g.ins v).keys = []).reverse ++ [])
      fun v => edgeCount.lookup v := by
    apply Kahn.Progress.start
    · rw [List.append_nil, List.nodup_reverse]
      exact (hperm.nodup_iff.mpr h.flat.1.nodup_keys).filter _
    · intro v
      simp [hperm.mem_iff]
    · intro v hv
      rw [hlookup v, if_pos (hperm.mem_iff.mpr hv)]
  obtain ⟨result, final, hloop, hdone⟩ := h.sortLoop_spec o g.vertexWeights.keys.length hstart
    (by simp)
  have hfinish := hdone.finish h.isGraph
  have hsort : g.topologicalSort o = some
      (if result.length ≠ g.vertexWeights.keys.length then none else some result, g) := by
    unfold topologicalSort
    rw [h.vertices_eq]
    show ((o.order .countEdges g.vertexWeights.keys).foldlM countEdges (∅, [], g)).bind _ = _
    rw [hcount]
    show (sortLoop o g.vertexWeights.keys.length _ edgeCount [] g).bind _ = _
    rw [hloop]
    show (g.vertices).bind _ = _
    rw [h.vertices_eq]
    rfl
  refine ⟨_, hsort, ?_, ?_⟩
  · split_ifs with hlength
    · simp only [true_iff]
      by_contra hcycle
      exact hlength (hfinish.mpr fun v hv => hcycle ⟨v, hv⟩)
    · simp only [false_iff, not_exists]
      exact hfinish.mp (not_not.mp hlength)
  · intro l hl
    split_ifs at hl with hlength
    obtain rfl := Option.some.inj hl
    have hnodup : result.Nodup := by simpa using hdone.nodup
    have hall : result.Perm g.vertexWeights.keys :=
      (hnodup.subperm fun v hv => hdone.mem v (by simpa using hv)).perm_of_length_le
        (not_not.mp hlength).ge
    refine ⟨hnodup, fun v => ?_, fun s t hst => ?_⟩
    · rw [hall.mem_iff, h.mem_vertices]
    · have ht := hall.mem_iff.mpr (h.isGraph.mem_of_edge hst).2
      exact (hdone.idxOf_lt ((h.isGraph.mem_preds).mpr hst) ht).2

end

end Plain

/-! ## Longest paths -/

namespace Plain

variable {g : GraphContraction V ℤ EW} {q : QuotientGraph V ℤ EW}

/-- From one source, the paths to the vertices which are done are known, and of the others
only the one without edges. -/
def Reaches (q : QuotientGraph V ℤ EW) (done : List V) (source : V) (targets : EdgeMap V ℤ) :
    Prop :=
  ∀ t, (t ∈ done → IsMax (pathWeights q source t) (targets.lookup t)) ∧
    (t ∉ done → targets.lookup t = if source = t then some (q.weightAt t) else none)

omit [DecidableEq V] in
theorem weightAt_eq {v : V} (hv : q.weight v ≠ none) : q.weight v = some (q.weightAt v) := by
  obtain ⟨w, hw⟩ := Option.ne_none_iff_exists'.mp hv
  rw [QuotientGraph.weightAt, hw, Option.getD_some]

/-- One edge into a vertex. -/
theorem relax_eq (h : Plain g q) {v : V} (hv : q.weight v ≠ none) (targets : EdgeMap V ℤ)
    (pred : V) : ∃ targets', relax v (targets, g) pred = some (targets', g) ∧
      ∀ t, targets'.lookup t =
        if t = v then raise (q.weightAt v) (targets.lookup v) (targets.lookup pred)
        else targets.lookup t := by
  rcases hpred : targets.lookup pred with _ | d
  · refine ⟨targets, by simp [relax, hpred], fun t => ?_⟩
    split_ifs with ht
    · rw [ht]
      rfl
    · rfl
  · refine ⟨_, by simp [relax, hpred, h.weightOf_eq, weightAt_eq hv]; rfl, fun t => ?_⟩
    split_ifs with ht
    · subst ht
      rw [AList.lookup_insert]
      rcases targets.lookup t with _ | e
      · rfl
      · simp only [raise]
        split_ifs with hle
        · rw [max_eq_left hle]
        · rw [max_eq_right (by omega)]
    · exact AList.lookup_insert_ne ht

/-- All edges into a vertex which is not its own predecessor. -/
theorem foldlM_relax (h : Plain g q) {v : V} (hv : q.weight v ≠ none) (preds : List V)
    (hne : v ∉ preds) : ∀ targets : EdgeMap V ℤ, ∃ targets',
      preds.foldlM (relax v) (targets, g) = some (targets', g) ∧ ∀ t, targets'.lookup t =
          if t = v then preds.foldl (fun x p => raise (q.weightAt v) x (targets.lookup p))
            (targets.lookup v)
          else targets.lookup t := by
  induction preds with
  | nil =>
    intro targets
    refine ⟨targets, rfl, fun t => ?_⟩
    split_ifs with ht
    · rw [ht]
      rfl
    · rfl
  | cons p preds ih =>
    intro targets
    obtain ⟨hvp, hrest⟩ := not_or.mp (mt List.mem_cons.mpr hne)
    obtain ⟨next, hstep, hnext⟩ := h.relax_eq hv targets p
    obtain ⟨targets', hfold, hlookup⟩ := ih hrest next
    refine ⟨targets', ?_, fun t => ?_⟩
    · rw [List.foldlM_cons, hstep]
      exact hfold
    · rw [hlookup t]
      by_cases ht : t = v
      · have hcongr : ∀ (l : List V) (x : Option ℤ), v ∉ l →
            l.foldl (fun x p => raise (q.weightAt v) x (next.lookup p)) x =
              l.foldl (fun x p => raise (q.weightAt v) x (targets.lookup p)) x := by
          intro l x hl
          apply List.foldl_ext
          intro y u hu
          rw [hnext u, if_neg]
          rintro rfl
          exact hl hu
        rw [if_pos ht, if_pos ht, hcongr preds _ hrest, hnext v, if_pos rfl, List.foldl_cons]
      · rw [if_neg ht, if_neg ht, hnext t, if_neg ht]

/-- A vertex whose predecessors are done becomes done, from one source. -/
theorem relaxSource_spec (h : Plain g q) (o : IterationOrder V) {v : V} {done : List V}
    (hv : q.weight v ≠ none) (hnew : v ∉ done) (hpreds : ∀ p, q.Edge p v → p ∈ done)
    {entry : V × EdgeMap V ℤ} (hentry : Reaches q done entry.1 entry.2) (result : PathMap V ℤ) :
    ∃ targets, relaxSource o v (result, g) entry = some (result ++ [(entry.1, targets)], g) ∧
      Reaches q (done ++ [v]) entry.1 targets := by
  have hmem : ∀ p, p ∈ o.order (.relax entry.1 v) (g.ins v).keys ↔ q.Edge p v := by
    intro p
    rw [(o.perm _ _).mem_iff]
    exact h.mem_ins p v
  have hself : v ∉ o.order (.relax entry.1 v) (g.ins v).keys := fun hvv =>
    hnew (hpreds v ((hmem v).mp hvv))
  obtain ⟨targets, hfold, hlookup⟩ :=
    h.foldlM_relax hv (o.order (.relax entry.1 v) (g.ins v).keys) hself entry.2
  refine ⟨targets, ?_, fun t => ?_⟩
  · unfold relaxSource
    simp only [h.edgesInto_eq, Option.bind_eq_bind, Option.bind_some, hfold]
  · rw [hlookup t]
    by_cases ht : t = v
    · subst ht
      refine ⟨fun _ => ?_, fun hnot => absurd (by simp) hnot⟩
      rw [if_pos rfl, (hentry t).2 hnew]
      exact isMax_foldl hmem fun p hp => (hentry p).1 (hpreds p ((hmem p).mp hp))
    · have hdone : t ∈ done ++ [v] ↔ t ∈ done := by simp [ht]
      rw [if_neg ht, hdone]
      exact hentry t

/-- A vertex whose predecessors are done becomes done. -/
theorem relaxVertex_spec (h : Plain g q) (o : IterationOrder V) {v : V} {done : List V}
    (hv : q.weight v ≠ none) (hnew : v ∉ done) (hpreds : ∀ p, q.Edge p v → p ∈ done)
    {paths : PathMap V ℤ} (hpaths : ∀ entry ∈ paths, Reaches q done entry.1 entry.2) :
    ∃ paths', relaxVertex o (paths, g) v = some (paths', g) ∧
      (paths'.map Prod.fst).Perm (paths.map Prod.fst) ∧
      ∀ entry ∈ paths', Reaches q (done ++ [v]) entry.1 entry.2 := by
  have hloop : ∀ (l result : PathMap V ℤ), (∀ entry ∈ l, Reaches q done entry.1 entry.2) →
      ∃ l', l.foldlM (relaxSource o v) (result, g) = some (result ++ l', g) ∧
        l'.map Prod.fst = l.map Prod.fst ∧
        ∀ entry ∈ l', Reaches q (done ++ [v]) entry.1 entry.2 := by
    intro l
    induction l with
    | nil =>
      intro result _
      refine ⟨[], ?_, rfl, fun _ h => absurd h List.not_mem_nil⟩
      rw [List.append_nil]
      rfl
    | cons entry l ih =>
      intro result hl
      obtain ⟨targets, hbody, hreaches⟩ :=
        h.relaxSource_spec o hv hnew hpreds (hl entry List.mem_cons_self) result
      obtain ⟨l', hfold, hfst, hall⟩ := ih (result ++ [(entry.1, targets)])
        fun e he => hl e (List.mem_cons_of_mem _ he)
      refine ⟨(entry.1, targets) :: l', ?_, ?_, ?_⟩
      · rw [List.foldlM_cons, hbody]
        show l.foldlM (relaxSource o v) _ = _
        rw [hfold, List.append_assoc, List.singleton_append]
      · rw [List.map_cons, List.map_cons, hfst]
      · intro e he
        rcases List.mem_cons.mp he with rfl | he
        · exact hreaches
        · exact hall e he
  have hperm := o.perm (.relaxSource v) paths
  obtain ⟨paths', hfold, hfst, hall⟩ := hloop (o.order (.relaxSource v) paths) []
    fun entry hentry => hpaths entry (hperm.mem_iff.mp hentry)
  exact ⟨paths', hfold, hfst ▸ hperm.map Prod.fst, hall⟩

/-- The vertices become done in topological order. -/
theorem foldlM_relaxVertex (h : Plain g q) (o : IterationOrder V) {topo : List V}
    (htopo : IsTopological q topo) (rest : List V) :
    ∀ {done : List V} {paths : PathMap V ℤ}, topo = done ++ rest →
      (∀ entry ∈ paths, Reaches q done entry.1 entry.2) →
      ∃ paths', rest.foldlM (relaxVertex o) (paths, g) = some (paths', g) ∧
        (paths'.map Prod.fst).Perm (paths.map Prod.fst) ∧
        ∀ entry ∈ paths', Reaches q topo entry.1 entry.2 := by
  induction rest with
  | nil =>
    intro done paths hsplit hpaths
    rw [List.append_nil] at hsplit
    exact ⟨paths, rfl, .refl _, hsplit ▸ hpaths⟩
  | cons v rest ih =>
    intro done paths hsplit hpaths
    have hv : q.weight v ≠ none := (htopo.mem_iff v).mp (by rw [hsplit]; simp)
    have hnodup := htopo.nodup
    rw [hsplit] at hnodup
    have hnew : v ∉ done := fun hdone =>
      (List.nodup_append.mp hnodup).2.2 v hdone v List.mem_cons_self rfl
    have hpreds : ∀ p, q.Edge p v → p ∈ done := by
      intro p hp
      have hlt := htopo.before p v hp
      rw [hsplit, List.idxOf_append_of_notMem hnew, List.idxOf_cons_self] at hlt
      by_contra hnot
      rw [List.idxOf_append_of_notMem hnot] at hlt
      omega
    obtain ⟨next, hstep, hfst, hnext⟩ := h.relaxVertex_spec o hv hnew hpreds hpaths
    obtain ⟨paths', hfold, hfst', hall⟩ := @ih (done ++ [v]) _ (by simp [hsplit]) hnext
    refine ⟨paths', ?_, hfst'.trans hfst, hall⟩
    rw [List.foldlM_cons, hstep]
    exact hfold

omit [DecidableEq V] in
/-- The first loop of `LongestNodePaths`. -/
theorem foldlM_startPath (h : Plain g q) (vs : List V) (hvs : ∀ v ∈ vs, q.weight v ≠ none) :
    ∀ result : PathMap V ℤ, vs.foldlM startPath (result, g) =
      some (result ++ vs.map fun v => (v, AList.singleton v (q.weightAt v)), g) := by
  induction vs with
  | nil =>
    intro result
    rw [List.map_nil, List.append_nil]
    rfl
  | cons v vs ih =>
    intro result
    have hbody : startPath (result, g) v =
        some (result ++ [(v, AList.singleton v (q.weightAt v))], g) := by
      simp [startPath, h.weightOf_eq, weightAt_eq (hvs v List.mem_cons_self)]
    rw [List.foldlM_cons, hbody]
    show vs.foldlM startPath _ = _
    rw [ih (fun u hu => hvs u (List.mem_cons_of_mem v hu)), List.append_assoc,
      List.singleton_append, List.map_cons]

/-- `LongestNodePaths` yields nothing when there is a cycle, and otherwise knows all paths
from every vertex. -/
theorem longestNodePaths_spec (h : Plain g q) (o : IterationOrder V) :
    ∃ paths, g.longestNodePaths o = some (paths, g) ∧ (paths = none ↔ ∃ v, TransGen q.Edge v v) ∧
      ∀ l, paths = some l → ∃ topo, IsTopological q topo ∧
        (∀ v, v ∈ l.map Prod.fst ↔ q.weight v ≠ none) ∧
        ∀ entry ∈ l, Reaches q topo entry.1 entry.2 := by
  have hmem : ∀ v, v ∈ o.order .startPath g.vertexWeights.keys ↔ q.weight v ≠ none := by
    intro v
    rw [(o.perm _ _).mem_iff, h.mem_vertices]
  have hstart := h.foldlM_startPath (o.order .startPath g.vertexWeights.keys)
    (fun v hv => (hmem v).mp hv) []
  obtain ⟨topo, hsort, hnone, htopo⟩ := h.topologicalSort_spec o
  rcases topo with _ | topo
  · refine ⟨none, ?_, ⟨fun _ => hnone.mp rfl, fun _ => rfl⟩, fun l hl => by cases hl⟩
    unfold longestNodePaths
    simp only [h.vertices_eq, Option.bind_eq_bind, Option.bind_some, hstart, hsort]
  · have hinit : ∀ entry ∈ (o.order .startPath g.vertexWeights.keys).map
        (fun v => (v, (AList.singleton v (q.weightAt v) : EdgeMap V ℤ))),
        Reaches q [] entry.1 entry.2 := by
      intro entry hentry t
      obtain ⟨v, -, rfl⟩ := List.mem_map.mp hentry
      refine ⟨fun ht => absurd ht List.not_mem_nil, fun _ => ?_⟩
      show List.dlookup t ([⟨v, q.weightAt v⟩] : List (Σ _ : V, ℤ)) =
        if v = t then some (q.weightAt t) else none
      split_ifs with hvt
      · subst hvt
        exact List.dlookup_cons_eq ..
      · rw [List.dlookup_cons_ne _ _ (Ne.symm hvt)]
        rfl
    obtain ⟨paths, hfold, hfst, hall⟩ :=
      h.foldlM_relaxVertex o (htopo topo rfl) topo (List.nil_append topo).symm hinit
    refine ⟨some paths, ?_, ?_, ?_⟩
    · unfold longestNodePaths
      simp only [h.vertices_eq, Option.bind_eq_bind, Option.bind_some, hstart, hsort,
        List.nil_append, hfold]
    · simpa using hnone
    · rintro l ⟨⟩
      refine ⟨topo, htopo topo rfl, fun v => ?_, hall⟩
      rw [hfst.mem_iff, List.map_map]
      have hid : (Prod.fst ∘ fun v => (v, (AList.singleton v (q.weightAt v) : EdgeMap V ℤ))) =
          id := rfl
      rw [hid, List.map_id, hmem v]

end Plain

/-! ## The graphs of a sequence of calls -/

omit [DecidableEq V] in
/-- What a list of topological order and a table of longest paths must be. -/
theorem isMax_entry {q : QuotientGraph V ℤ EW} {s t : V} {x : Option ℤ}
    (hs : q.weight s ≠ none) (hx : IsMax (pathWeights q s t) x) :
    (x = none ↔ ¬ Reachable q s t) ∧ ∀ d, x = some d → IsGreatest (pathWeights q s t) d := by
  constructor
  · have hreach : Reachable q s t ↔ ∃ d, d ∈ pathWeights q s t := by
      rw [Reachable, and_iff_right hs]
      exact exists_path_iff.symm
    rw [hreach]
    rcases x with _ | d
    · have hempty : pathWeights q s t = ∅ := hx
      simp [hempty]
    · have hgreatest : IsGreatest (pathWeights q s t) d := hx
      simp only [reduceCtorEq, false_iff, not_not]
      exact ⟨d, hgreatest.1⟩
  · rintro d rfl
    exact hx

theorem entry_spec {q : QuotientGraph V ℤ EW} {paths : PathMap V ℤ} {topo : List V}
    (htopo : IsTopological q topo) (hkeys : ∀ v, v ∈ paths.map Prod.fst ↔ q.weight v ≠ none)
    (hall : ∀ entry ∈ paths, Plain.Reaches q topo entry.1 entry.2) (s t : V)
    (hend : ∀ s t, q.Edge s t → q.weight s ≠ none ∧ q.weight t ≠ none) :
    (paths.entry s t = none ↔ ¬ Reachable q s t) ∧
      ∀ d, paths.entry s t = some d → IsGreatest (pathWeights q s t) d := by
  unfold PathMap.entry
  rcases hlookup : paths.lookup s with _ | targets
  · -- `s` is not a vertex
    have hs : q.weight s = none := by
      by_contra hne
      obtain ⟨⟨s', targets⟩, hentry, rfl⟩ := List.mem_map.mp ((hkeys s).mpr hne)
      rw [List.lookup_eq_none_iff] at hlookup
      simpa using hlookup _ hentry
    refine ⟨iff_of_true rfl fun h => h.1 hs, fun d hd => by cases hd⟩
  · have hentry : (s, targets) ∈ paths := by
      obtain ⟨l₁, l₂, heq, -⟩ := List.lookup_eq_some_iff.mp hlookup
      rw [heq]
      simp
    have hs : q.weight s ≠ none := (hkeys s).mp (List.mem_map.mpr ⟨_, hentry, rfl⟩)
    rw [Option.bind_some]
    by_cases ht : t ∈ topo
    · exact isMax_entry hs ((hall _ hentry t).1 ht)
    · -- `t` is not a vertex
      have hlookup' := (hall _ hentry t).2 ht
      have hne : s ≠ t := by
        rintro rfl
        exact ht ((htopo.mem_iff s).mpr hs)
      rw [hlookup', if_neg hne]
      refine ⟨iff_of_true rfl ?_, fun d hd => by cases hd⟩
      rintro ⟨-, hreach⟩
      rcases ReflTransGen.cases_tail hreach with heq | ⟨p, -, hp⟩
      · exact hne heq.symm
      · exact ht ((htopo.mem_iff t).mpr (hend p t hp).2)

/-- After any calls of `AddVertex` and `AddEdge`, and whatever the order in which the hash
containers are iterated, `TopologicalSort` and `LongestNodePaths` yield nothing exactly when
there is a cycle, otherwise a topological order and the greatest weights of all paths. -/
theorem longestNodePaths_exact (o : IterationOrder V) {ops : List (Op V ℤ EW)}
    (hadd : ∀ op ∈ ops, op.IsAdd) :
    ∃ g topo paths, run ops = some g ∧ g.topologicalSort o = some (topo, g) ∧
      g.longestNodePaths o = some (paths, g) ∧
      (topo = none ↔ ∃ v, TransGen (QuotientGraph.ofOps ops).Edge v v) ∧
      (paths = none ↔ ∃ v, TransGen (QuotientGraph.ofOps ops).Edge v v) ∧
      (∀ l, topo = some l → IsTopological (.ofOps ops) l) ∧
      ∀ l, paths = some l → ∀ s t, (l.entry s t = none ↔ ¬ Reachable (.ofOps ops) s t) ∧
        ∀ d, l.entry s t = some d → IsGreatest (pathWeights (.ofOps ops) s t) d := by
  obtain ⟨g, hrun, h⟩ := Plain.foldlM_step ops hadd
    (Plain.empty : Plain (GraphContraction.empty : GraphContraction V ℤ EW) .empty)
  obtain ⟨topo, hsort, htopoNone, htopo⟩ := h.topologicalSort_spec o
  obtain ⟨paths, hpaths, hpathsNone, hentries⟩ := h.longestNodePaths_spec o
  refine ⟨g, topo, paths, hrun, hsort, hpaths, htopoNone, hpathsNone, htopo, ?_⟩
  intro l hl s t
  obtain ⟨order, horder, hkeys, hall⟩ := hentries l hl
  exact entry_spec horder hkeys hall s t h.edge_weight

/-- A diamond with a heavy and a light side. -/
def diamond : List (Op ℕ ℤ ℕ) :=
  [.addVertex 0 1, .addVertex 1 5, .addVertex 2 7, .addVertex 3 1, .addEdge 0 1 0, .addEdge 0 2 0,
    .addEdge 1 3 0, .addEdge 2 3 0]

/-- The hash containers iterated from the end. -/
def backwards : IterationOrder ℕ := ⟨fun _ => List.reverse, fun _ => List.reverse_perm⟩

theorem longestNodePaths_exact_diamond :
    ∃ g topo paths, run diamond = some g ∧ g.topologicalSort backwards = some (topo, g) ∧
      g.longestNodePaths backwards = some (paths, g) ∧
      (topo = none ↔ ∃ v, TransGen (QuotientGraph.ofOps diamond).Edge v v) ∧
      (paths = none ↔ ∃ v, TransGen (QuotientGraph.ofOps diamond).Edge v v) ∧
      (∀ l, topo = some l → IsTopological (.ofOps diamond) l) ∧
      ∀ l, paths = some l → ∀ s t, (l.entry s t = none ↔ ¬ Reachable (.ofOps diamond) s t) ∧
        ∀ d, l.entry s t = some d → IsGreatest (pathWeights (.ofOps diamond) s t) d := by
  refine longestNodePaths_exact backwards ?_
  simp [diamond, Op.IsAdd]

end GraphContraction

end Xls
