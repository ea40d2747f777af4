/-
# The weights which a graph reports

`WeightOf`, `EdgesOutOf` and `EdgesInto` of `GraphContraction`
(`xls/data_structures/graph_contraction.h`) after calls of `AddVertex` and `AddEdge`.  A new weight
of a vertex replaces the old one.  The comment of `AddEdge` says the same of edges, but
`flat_hash_map::merge` keeps the entry which is there: the weight of an edge is the first one.

* `lookup_addEntry` : an entry which is there keeps its weight;
* `reportsFirst_of_isAdd` : both copies of an edge have its first weight;
* `reportsLast_iff` : the calls after which every edge has its last weight.
-/
import Xls.DataStructures.GraphPathsSoundness

namespace Xls

namespace GraphContraction

variable {V VW EW : Type} [DecidableEq V]

/-- The weights which `AddVertex` gives to a vertex, in order. -/
def vertexWeightsOf (v : V) : List (Op V VW EW) → List VW
  | [] => []
  | .addVertex u w :: ops => if u = v then w :: vertexWeightsOf v ops else vertexWeightsOf v ops
  | _ :: ops => vertexWeightsOf v ops

/-- The weights which the successful calls of `AddEdge` give to an edge, in order, when it is known
whether the two vertices were there before. -/
def edgeWeightsFrom (s t : V) : Bool → Bool → List (Op V VW EW) → List EW
  | _, _, [] => []
  | hasS, hasT, .addVertex v _ :: ops =>
    edgeWeightsFrom s t (hasS || decide (v = s)) (hasT || decide (v = t)) ops
  | hasS, hasT, .addEdge a b w :: ops =>
    if hasS && hasT && decide (a = s ∧ b = t) then w :: edgeWeightsFrom s t hasS hasT ops
    else edgeWeightsFrom s t hasS hasT ops
  | hasS, hasT, .identifyVertices _ _ _ _ :: ops => edgeWeightsFrom s t hasS hasT ops

/-- The weights which the successful calls of `AddEdge` give to an edge, in order. -/
def edgeWeightsOf (s t : V) (ops : List (Op V VW EW)) : List EW :=
  edgeWeightsFrom s t false false ops

/-- After some calls the graph reports these weights: those of the vertices, and those of the edges
from both ends. -/
def ReportsWeights (ops : List (Op V VW EW)) (vertexWeight : V → Option VW)
    (edgeWeight : V → V → Option EW) : Prop :=
  ∃ g, run ops = some g ∧
    (∀ v, (g.weightOf v).map Prod.fst = some (vertexWeight v)) ∧
    (∀ s t, (g.weightOfEdge s t).map Prod.fst = some (edgeWeight s t)) ∧
    (∀ s, ∃ edges, (g.edgesOutOf s).map Prod.fst = some edges ∧
      ∀ t, edges.lookup t = edgeWeight s t) ∧
    ∀ t, ∃ edges, (g.edgesInto t).map Prod.fst = some edges ∧
      ∀ s, edges.lookup s = edgeWeight s t

/-- The weights are those of the last calls. -/
def ReportsLast (ops : List (Op V VW EW)) : Prop :=
  ReportsWeights ops (fun v => (vertexWeightsOf v ops).getLast?)
    fun s t => (edgeWeightsOf s t ops).getLast?

/-! ## What a call does to the entries -/

/-- A map of edges after `AddVertex`: the edges are those it had. -/
theorem get_addRow {m m' : UnionFindMap V (EdgeMap V EW)} (h : m.Flat) {v : V}
    (hm' : (if m.contains v then some m else m.insert v ∅) = some m') (u : V) :
    (m'.get u).getD ∅ = (m.get u).getD ∅ := by
  obtain ⟨m'', hm'', -, -, hget⟩ := Plain.addRow h v
  rw [hm'] at hm''
  cases hm''
  exact hget u

/-- A map of edges after `AddEdge`: an entry which is there keeps its weight. -/
theorem lookup_addEntry {m m' : UnionFindMap V (EdgeMap V EW)} (h : m.Flat) {s : V}
    (hs : m.get s ≠ none) {t : V} {w : EW}
    (hm' : m.insertWith s (AList.singleton t w : EdgeMap V EW) (· ∪ ·) = some m') (u v : V) :
    ((m'.get u).getD ∅).lookup v =
      (((m.get u).getD ∅).lookup v).or (if u = s ∧ v = t then some w else none) := by
  obtain ⟨m'', hm'', -, hget⟩ := h.insertWith s (AList.singleton t w : EdgeMap V EW) (· ∪ ·)
  rw [hm'] at hm''
  cases hm''
  obtain ⟨old, hold⟩ := Option.ne_none_iff_exists'.mp hs
  rw [hget u]
  by_cases hu : u = s
  · rw [if_pos hu, hu, hold, Option.map_some, Option.getD_some, Option.getD_some, Option.getD_some]
    have hsingle : (AList.singleton t w : EdgeMap V EW).lookup v = if v = t then some w else none := by
      by_cases hv : v = t
      · rw [if_pos hv, hv]
        exact AList.lookup_insert ∅
      · rw [if_neg hv]
        exact (AList.lookup_insert_ne hv).trans (AList.lookup_empty v)
    rcases hv : old.lookup v with - | w'
    · rw [AList.lookup_union_right (fun hmem => by
        rw [← AList.lookup_isSome, hv] at hmem
        cases hmem), hsingle]
      simp
    · rw [AList.lookup_union_left (AList.lookup_isSome.mp (by rw [hv]; rfl)), hv, Option.some_or]
  · rw [if_neg hu, if_neg fun hand => hu hand.1, Option.or_none]

/-- The lookup of an edge in both maps. -/
structure Entries (g : GraphContraction V VW EW) (weight : V → V → Option EW) : Prop where
  outs : ∀ s t, (g.outs s).lookup t = weight s t
  ins : ∀ s t, (g.ins t).lookup s = weight s t

theorem Entries.congr {g : GraphContraction V VW EW} {weight weight' : V → V → Option EW}
    (h : Entries g weight) (heq : ∀ s t, weight s t = weight' s t) : Entries g weight' :=
  ⟨fun s t => (h.outs s t).trans (heq s t), fun s t => (h.ins s t).trans (heq s t)⟩

variable {g g' : GraphContraction V VW EW} {q : QuotientGraph V VW EW} {weight : V → V → Option EW}

theorem addVertex_eq (v : V) (w : VW) : g.addVertex v w =
    (g.vertexWeights.insert v w).bind fun weights' =>
      (if g.outEdges.contains v then some g.outEdges else g.outEdges.insert v ∅).bind fun outs' =>
        (if g.inEdges.contains v then some g.inEdges else g.inEdges.insert v ∅).bind fun ins' =>
          some ⟨weights', outs', ins'⟩ := by
  unfold GraphContraction.addVertex
  rcases g.vertexWeights.insert v w with - | weights'
  · rfl
  · split_ifs <;> rfl

/-- `AddVertex` leaves the edges alone. -/
theorem Entries.addVertex (hentries : Entries g weight) (h : Plain g q) {v : V} {w : VW}
    (hg : g.addVertex v w = some g') : Entries g' weight := by
  obtain ⟨-, houts, hins⟩ := h.flat
  rw [addVertex_eq] at hg
  obtain ⟨weights', -, hg⟩ := Option.bind_eq_some_iff.mp hg
  obtain ⟨outs', houts', hg⟩ := Option.bind_eq_some_iff.mp hg
  obtain ⟨ins', hins', hg⟩ := Option.bind_eq_some_iff.mp hg
  cases hg
  refine ⟨fun s t => ?_, fun s t => ?_⟩
  · rw [GraphContraction.outs, get_addRow houts houts']
    exact hentries.outs s t
  · rw [GraphContraction.ins, get_addRow hins hins']
    exact hentries.ins s t

/-- `AddEdge` enters the weight at both ends, where no weight is. -/
theorem Entries.addEdge (hentries : Entries g weight) (h : Plain g q) {s t : V} {w : EW}
    {added : Bool} (hg : g.addEdge s t w = some (added, g')) :
    Entries g' fun a b => (weight a b).or
      (if (q.weight s).isSome ∧ (q.weight t).isSome ∧ a = s ∧ b = t then some w else none) := by
  obtain ⟨hweights, houts, hins⟩ := h.flat
  have hcontains : ∀ v, g.vertexWeights.contains v = (q.weight v).isSome := by
    intro v
    rw [Bool.eq_iff_iff, hweights.contains_iff, h.weight_eq v, Option.isSome_iff_ne_none]
  unfold GraphContraction.addEdge at hg
  rw [hcontains, hcontains] at hg
  by_cases hst : (q.weight s).isSome = true ∧ (q.weight t).isSome = true
  · obtain ⟨hs, ht⟩ := hst
    rw [hs, ht] at hg
    obtain ⟨outs', houts', hg⟩ := Option.bind_eq_some_iff.mp hg
    obtain ⟨ins', hins', hg⟩ := Option.bind_eq_some_iff.mp hg
    cases hg
    have hsrow : g.outEdges.get s ≠ none := fun hnone =>
      Option.isSome_iff_ne_none.mp hs ((h.outs_eq_none s).mp hnone)
    have htrow : g.inEdges.get t ≠ none := fun hnone =>
      Option.isSome_iff_ne_none.mp ht ((h.ins_eq_none t).mp hnone)
    refine ⟨fun a b => ?_, fun a b => ?_⟩
    · rw [GraphContraction.outs, lookup_addEntry houts hsrow houts']
      have hold : ((g.outEdges.get a).getD ∅).lookup b = weight a b := hentries.outs a b
      rw [hold]
      simp [hs, ht]
    · rw [GraphContraction.ins, lookup_addEntry hins htrow hins']
      have hold : ((g.inEdges.get b).getD ∅).lookup a = weight a b := hentries.ins a b
      rw [hold]
      simp [hs, ht, and_comm]
  · have hcond : (!((q.weight s).isSome && (q.weight t).isSome)) = true := by
      rw [Bool.not_eq_true', ← Bool.not_eq_true, Bool.and_eq_true]
      exact hst
    rw [if_pos hcond] at hg
    cases hg
    refine hentries.congr fun a b => ?_
    rw [if_neg fun hand => hst ⟨hand.1, hand.2.1⟩, Option.or_none]

theorem edgeWeightsFrom_addEdge (s t a b : V) (hasS hasT : Bool) (w : EW)
    (ops : List (Op V VW EW)) :
    (edgeWeightsFrom s t hasS hasT (.addEdge a b w :: ops)).head? =
      (if hasS = true ∧ hasT = true ∧ s = a ∧ t = b then some w else none).or
        (edgeWeightsFrom s t hasS hasT ops).head? := by
  rw [edgeWeightsFrom]
  by_cases hst : hasS = true ∧ hasT = true ∧ s = a ∧ t = b
  · obtain ⟨rfl, rfl, rfl, rfl⟩ := hst
    simp
  · rw [if_neg hst, Option.none_or, if_neg]
    intro hand
    rw [Bool.and_eq_true, Bool.and_eq_true, decide_eq_true_iff] at hand
    exact hst ⟨hand.1.1, hand.1.2, hand.2.1.symm, hand.2.2.symm⟩

/-- A sequence of calls: the vertices have their last weight, the edges their first one. -/
theorem Entries.foldlM_step (ops : List (Op V VW EW)) (hadd : ∀ op ∈ ops, op.IsAdd) :
    ∀ {g : GraphContraction V VW EW} {q : QuotientGraph V VW EW} {weight : V → V → Option EW},
      Plain g q → Entries g weight →
      ∃ g' q', ops.foldlM GraphContraction.step g = some g' ∧ Plain g' q' ∧
        (∀ v, q'.weight v = (vertexWeightsOf v ops).getLast?.or (q.weight v)) ∧
        Entries g' fun s t => (weight s t).or
          (edgeWeightsFrom s t (q.weight s).isSome (q.weight t).isSome ops).head? := by
  induction ops with
  | nil =>
    intro g q weight h hentries
    exact ⟨g, q, rfl, h, fun v => rfl, hentries.congr fun s t => (Option.or_none).symm⟩
  | cons op ops ih =>
    intro g q weight h hentries
    have hrest : ∀ op ∈ ops, op.IsAdd := fun op hop => hadd op (List.mem_cons_of_mem _ hop)
    have hop := hadd op List.mem_cons_self
    cases op with
    | addVertex v w =>
      obtain ⟨g₁, hg₁, h₁⟩ := h.addVertex v w
      obtain ⟨g', q', hg', h', hweight, hentries'⟩ := ih hrest h₁ (hentries.addVertex h hg₁)
      have hsome : ∀ u, ((q.addVertex v w).weight u).isSome =
          ((q.weight u).isSome || decide (v = u)) := by
        intro u
        rw [h.weight_addVertex]
        by_cases hu : u = v
        · simp [hu]
        · rw [if_neg hu, decide_eq_false (Ne.symm hu), Bool.or_false]
      refine ⟨g', q', ?_, h', fun u => ?_, hentries'.congr fun s t => ?_⟩
      · show (g.addVertex v w).bind _ = _
        rw [hg₁]
        exact hg'
      · rw [hweight, h.weight_addVertex, vertexWeightsOf]
        by_cases hu : u = v
        · rw [if_pos hu, if_pos hu.symm, List.getLast?_cons]
          rcases (vertexWeightsOf u ops).getLast? with - | w' <;> rfl
        · rw [if_neg hu, if_neg (Ne.symm hu)]
      · rw [hsome, hsome, edgeWeightsFrom]
    | addEdge a b w =>
      obtain ⟨added, g₁, hg₁, h₁⟩ := h.addEdge a b w
      obtain ⟨g', q', hg', h', hweight, hentries'⟩ := ih hrest h₁ (hentries.addEdge h hg₁)
      have hsame : (q.addEdge a b w).weight = q.weight := by
        unfold QuotientGraph.addEdge
        split <;> rfl
      refine ⟨g', q', ?_, h', fun u => ?_, hentries'.congr fun s t => ?_⟩
      · show ((g.addEdge a b w).map _).bind _ = _
        rw [hg₁]
        exact hg'
      · rw [hweight, hsame, vertexWeightsOf]
        rintro _ _ ⟨⟩
      · rw [hsame, edgeWeightsFrom_addEdge, Option.or_assoc]
        by_cases hst : s = a ∧ t = b
        · rw [hst.1, hst.2]
        · rw [if_neg fun hand => hst hand.2.2, if_neg fun hand => hst hand.2.2]
    | identifyVertices x y vwMerge ewMerge => exact hop.elim

/-! ## What the graph reports -/

/-- The weights determine what is reported. -/
theorem ReportsWeights.weight_eq {ops : List (Op V VW EW)} {vertexWeight vertexWeight' : V → Option VW}
    {edgeWeight edgeWeight' : V → V → Option EW} (h : ReportsWeights ops vertexWeight edgeWeight)
    (h' : ReportsWeights ops vertexWeight' edgeWeight') (s t : V) :
    edgeWeight s t = edgeWeight' s t := by
  obtain ⟨g, hg, -, hedge, -⟩ := h
  obtain ⟨g', hg', -, hedge', -⟩ := h'
  rw [hg] at hg'
  cases hg'
  have heq := hedge s t
  rw [hedge' s t] at heq
  exact (Option.some.inj heq).symm

/-- Vertices have the weight of the last call, and both copies of an edge that of the first
successful call. -/
theorem reportsFirst_of_isAdd (ops : List (Op V VW EW)) (hadd : ∀ op ∈ ops, op.IsAdd) :
    ReportsWeights ops (fun v => (vertexWeightsOf v ops).getLast?)
      fun s t => (edgeWeightsOf s t ops).head? := by
  have hempty : Entries (GraphContraction.empty : GraphContraction V VW EW) fun _ _ => none :=
    ⟨fun _ t => AList.lookup_empty t, fun s _ => AList.lookup_empty s⟩
  obtain ⟨g, q, hg, h, hweight, hentries⟩ := Entries.foldlM_step ops hadd Plain.empty hempty
  refine ⟨g, hg, fun v => ?_, fun s t => ?_, fun s => ⟨g.outs s, ?_, fun t => hentries.outs s t⟩,
    fun t => ⟨g.ins t, ?_, fun s => hentries.ins s t⟩⟩
  · rw [h.weightOf_eq, hweight]
    show some (Option.or _ none) = _
    rw [Option.or_none]
  · unfold weightOfEdge
    rw [h.edgesOutOf_eq]
    exact congrArg some (hentries.outs s t)
  · rw [h.edgesOutOf_eq, Option.map_some]
  · rw [h.edgesInto_eq, Option.map_some]

/-- Every weight is that of the last call exactly when no edge gets another weight in the end than
in the beginning. -/
theorem reportsLast_iff (ops : List (Op V VW EW)) (hadd : ∀ op ∈ ops, op.IsAdd) : ReportsLast ops ↔
      ∀ s t, (edgeWeightsOf s t ops).head? = (edgeWeightsOf s t ops).getLast? := by
  have hfirst := reportsFirst_of_isAdd ops hadd
  constructor
  · intro hlast s t
    exact hfirst.weight_eq hlast s t
  · intro heq
    have hsame : (fun s t => (edgeWeightsOf s t ops).head?) =
        fun s t => (edgeWeightsOf s t ops).getLast? := by
      funext s t
      exact heq s t
    unfold ReportsLast
    rw [← hsame]
    exact hfirst

/-- Two vertices and an edge, all of them entered twice: the vertex with a new weight. -/
def reenteredVertex : List (Op ℕ ℕ ℕ) :=
  [.addVertex 0 1, .addVertex 1 2, .addEdge 0 1 5, .addVertex 0 3, .addEdge 0 1 5]

theorem reportsLast_reenteredVertex : ReportsLast reenteredVertex := by
  refine (reportsLast_iff reenteredVertex (fun op hop => ?_)).mpr fun s t => ?_
  · rw [reenteredVertex] at hop
    simp only [List.mem_cons, List.not_mem_nil, or_false] at hop
    rcases hop with rfl | rfl | rfl | rfl | rfl <;> exact True.intro
  · rw [edgeWeightsOf, reenteredVertex]
    simp only [edgeWeightsFrom]
    split_ifs <;> rfl

/-- The edge is entered again with another weight. -/
def reenteredEdge : List (Op ℕ ℕ ℕ) :=
  [.addVertex 0 1, .addVertex 1 2, .addEdge 0 1 5, .addEdge 0 1 7]

theorem not_reportsLast_reenteredEdge :
    (∀ op ∈ reenteredEdge, op.IsAdd) ∧ ¬ ReportsLast reenteredEdge ∧
      ((run reenteredEdge).bind fun g => (g.weightOfEdge 0 1).map Prod.fst) = some (some 5) := by
  have hadd : ∀ op ∈ reenteredEdge, op.IsAdd := by
    intro op hop
    rw [reenteredEdge] at hop
    simp only [List.mem_cons, List.not_mem_nil, or_false] at hop
    rcases hop with rfl | rfl | rfl | rfl <;> exact True.intro
  have hfirst := reportsFirst_of_isAdd reenteredEdge hadd
  refine ⟨hadd, fun hlast => ?_, ?_⟩
  · have heq := hfirst.weight_eq hlast 0 1
    have hne : (edgeWeightsOf 0 1 reenteredEdge).head? ≠
        (edgeWeightsOf 0 1 reenteredEdge).getLast? := by decide
    exact hne heq
  · obtain ⟨g, hg, -, hedge, -⟩ := hfirst
    rw [hg, Option.bind_some, hedge 0 1]
    rfl

end GraphContraction

end Xls
