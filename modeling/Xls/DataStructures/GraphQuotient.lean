/-
# Graph contraction and quotient graphs

The calls on a `GraphContraction` refine those on the quotient graph, as long as their
arguments are representatives.

* `Represents.step`, `foldlM_step_represents` : one call and all of them;
* `Represents.reports` : the results of the queries;
* `QuotientGraph.ofOps_edge_ne_none_iff` : the edges of the quotient graph;
* `holdsQuotient_of_allOk` : the graph holds the quotient graph.
-/
import Xls.DataStructures.ContractionIdentify

namespace Xls

namespace GraphContraction

open WeightedGraph

variable {V VW EW : Type} [DecidableEq V]

/-! ## The calls -/

/-- The graph holds the quotient graph. -/
structure Represents (g : GraphContraction V VW EW) (q : QuotientGraph V VW EW) : Prop where
  weights : g.vertexWeights.Represents q.classes
  outEdges : Rows g.outEdges q.rep q.size q.edge
  inEdges : Rows g.inEdges q.rep q.size fun t s => q.edge s t
  edge_rep : ∀ s t, q.edge s t ≠ none → q.rep s = some s ∧ q.rep t = some t

/-- The calls after which the graph holds the quotient graph. -/
def OpOk (q : QuotientGraph V VW EW) : Op V VW EW → Prop
  | .addVertex _ _ => True
  | .addEdge s t w => q.rep s ≠ none → q.rep t ≠ none →
      q.rep s = some s ∧ q.rep t = some t ∧ (q.edge s t = none ∨ q.edge s t = some w)
  | .identifyVertices x y _ ewMerge => ∀ rx ry, q.rep x = some rx → q.rep y = some ry → rx ≠ ry →
      (Touched rx ry q.edge → Std.Commutative ewMerge ∧ Std.Associative ewMerge) ∧
      ArgsOk x y rx ry (q.classes.kept rx ry) q.edge

namespace Represents

variable {g : GraphContraction V VW EW} {q : QuotientGraph V VW EW}

theorem empty : Represents (GraphContraction.empty : GraphContraction V VW EW) .empty :=
  ⟨.empty, .empty, .empty, fun _ _ h => absurd rfl h⟩

theorem addVertex (h : Represents g q) (v : V) (w : VW) :
    ∃ g', g.addVertex v w = some g' ∧ Represents g' (q.addVertex v w) := by
  rcases hv : q.rep v with _ | r
  · have hfresh : ∀ t, q.edge v t = none ∧ q.edge t v = none := by
      intro t
      constructor
      · by_contra hsome
        rw [(h.edge_rep v t hsome).1] at hv
        cases hv
      · by_contra hsome
        rw [(h.edge_rep t v hsome).2] at hv
        cases hv
    obtain ⟨vertexWeights, hweights, hweights'⟩ :=
      h.weights.insertWith_of_none hv w fun _ new => new
    obtain ⟨outEdges, hout, hout'⟩ := h.outEdges.insert_of_none hv fun t => (hfresh t).1
    obtain ⟨inEdges, hin, hin'⟩ := h.inEdges.insert_of_none hv fun t => (hfresh t).2
    have hnotOut : ¬ g.outEdges.contains v = true := by
      rw [h.outEdges.contains_iff, hv]
      simp
    have hnotIn : ¬ g.inEdges.contains v = true := by
      rw [h.inEdges.contains_iff, hv]
      simp
    refine ⟨⟨vertexWeights, outEdges, inEdges⟩, ?_, ?_⟩
    · simp [GraphContraction.addVertex, UnionFindMap.insert, hweights, hnotOut, hnotIn] at hout hin ⊢
      simp [hout, hin]
    · simp only [QuotientGraph.addVertex, hv]
      refine ⟨hweights', hout', hin', ?_⟩
      intro s t hst
      obtain ⟨hs, ht⟩ := h.edge_rep s t hst
      have hne : ∀ {u}, q.rep u = some u → u ≠ v := by
        rintro u hu rfl
        rw [hv] at hu
        cases hu
      show Function.update q.rep v (some v) s = some s ∧ Function.update q.rep v (some v) t = some t
      exact ⟨by rw [Function.update_of_ne (hne hs), hs], by rw [Function.update_of_ne (hne ht), ht]⟩
  · obtain ⟨old, -, -, -, hold, -⟩ := h.weights.find hv
    obtain ⟨vertexWeights, hweights, hweights'⟩ :=
      h.weights.insertWith_of_rep hv hold (v := w) fun _ new => new
    have hout := h.outEdges.contains_iff.mpr ⟨r, hv⟩
    have hin := h.inEdges.contains_iff.mpr ⟨r, hv⟩
    refine ⟨⟨vertexWeights, g.outEdges, g.inEdges⟩, ?_, ?_⟩
    · simp [GraphContraction.addVertex, UnionFindMap.insert, hweights, hout, hin]
    · simp only [QuotientGraph.addVertex, hv]
      exact ⟨hweights', h.outEdges, h.inEdges, h.edge_rep⟩

theorem contains_eq_false (h : Represents g q) {s t : V}
    (hknown : ¬ (q.rep s ≠ none ∧ q.rep t ≠ none)) :
    (g.vertexWeights.contains s && g.vertexWeights.contains t) = false := by
  rw [Bool.eq_false_iff, Ne, Bool.and_eq_true]
  rintro ⟨hs, ht⟩
  obtain ⟨rs, hs⟩ := h.weights.contains_iff.mp hs
  obtain ⟨rt, ht⟩ := h.weights.contains_iff.mp ht
  have hs : q.rep s = some rs := hs
  have ht : q.rep t = some rt := ht
  exact hknown ⟨by simp [hs], by simp [ht]⟩

theorem update_edge_apply {e : V → V → Option EW} {s t s' t' : V} {w : Option EW} :
    Function.update e s (Function.update (e s) t w) s' t' =
      if s' = s ∧ t' = t then w else e s' t' := by
  by_cases hs : s' = s
  · subst hs
    by_cases ht : t' = t
    · subst ht
      simp
    · simp [ht]
  · simp [hs]

theorem addEdge (h : Represents g q) {s t : V} {w : EW} (hok : OpOk q (.addEdge s t w)) :
    ∃ result g', g.addEdge s t w = some (result, g') ∧ Represents g' (q.addEdge s t w) := by
  unfold GraphContraction.addEdge
  by_cases hknown : q.rep s ≠ none ∧ q.rep t ≠ none
  · obtain ⟨hs, ht, hold⟩ := hok hknown.1 hknown.2
    have hcontains : g.vertexWeights.contains s = true ∧ g.vertexWeights.contains t = true :=
      ⟨h.weights.contains_iff.mpr ⟨s, hs⟩, h.weights.contains_iff.mpr ⟨t, ht⟩⟩
    obtain ⟨outEdges, hout, hout'⟩ := h.outEdges.insertWith_singleton hs hold
    obtain ⟨inEdges, hin, hin'⟩ := h.inEdges.insertWith_singleton ht hold
    refine ⟨true, ⟨g.vertexWeights, outEdges, inEdges⟩, ?_, ?_⟩
    · simp [hcontains, hout, hin]
    · simp only [QuotientGraph.addEdge, hs, ht]
      refine ⟨h.weights, hout', hin'.congr ?_, ?_⟩
      · intro r _
        funext s'
        simp only [update_edge_apply, and_comm]
      · intro s' t' hst
        simp only [update_edge_apply] at hst
        split at hst
        · rename_i hedge
          obtain ⟨rfl, rfl⟩ := hedge
          exact ⟨hs, ht⟩
        · exact h.edge_rep s' t' hst
  · have hsame : q.addEdge s t w = q := by
      unfold QuotientGraph.addEdge
      split
      · rename_i hs ht
        exact absurd ⟨by simp [hs], by simp [ht]⟩ hknown
      · rfl
    refine ⟨false, g, by simp [h.contains_eq_false hknown], ?_⟩
    rw [hsame]
    exact h

/-- Two classes are identified. -/
theorem identifyClasses (h : Represents g q) {x y rx ry : V} (hx : q.rep x = some rx)
    (hy : q.rep y = some ry) (hne : rx ≠ ry) {vwMerge : VW → VW → VW} {ewMerge : EW → EW → EW}
    (hok : OpOk q (.identifyVertices x y vwMerge ewMerge)) :
    ∃ g', g.identifyClasses x y vwMerge ewMerge = some (true, g') ∧
      Represents g' (q.identify (q.classes.kept rx ry) (q.classes.lost rx ry) vwMerge ewMerge) := by
  obtain ⟨hmerge, hargs⟩ := hok rx ry hx hy hne
  -- the weights
  obtain ⟨a, b, weights₁, ha, hb, hunion, hweights₁⟩ := h.weights.union hx hy hne vwMerge
  have hkept : q.classes.kept rx ry = if q.size rx < q.size ry then ry else rx := rfl
  have hlost : q.classes.lost rx ry = if q.size rx < q.size ry then rx else ry := rfl
  set kept := q.classes.kept rx ry
  set lost := q.classes.lost rx ry
  have hnamed : Named q.rep x y rx ry kept lost := by
    refine ⟨hx, hy, h.weights.rep_rep hx, h.weights.rep_rep hy, hne, ?_⟩
    rw [hkept, hlost]
    split
    · exact .inr ⟨rfl, rfl⟩
    · exact .inl ⟨rfl, rfl⟩
  have hrepX : united q.rep kept lost x = some kept := by
    unfold united
    rw [hx]
    rcases hnamed.eq_or_eq.mpr (.inl rfl) with hrx | hrx
    · rw [hrx, if_neg fun heq => hnamed.kept_ne_lost (Option.some.inj heq)]
    · rw [hrx, if_pos rfl]
  obtain ⟨wrep, irep, weights₂, hfindRep, -, hweights₂, -⟩ := hweights₁.find hrepX
  -- the adjacency maps
  obtain ⟨outOfX, out₁, houtX, hnodupOutX, hmemOutX, hout₁⟩ := h.outEdges.neighbours hx
  obtain ⟨outOfY, out₂, houtY, hnodupOutY, hmemOutY, hout₂⟩ := hout₁.neighbours hy
  obtain ⟨intoX, in₁, hinX, hnodupInX, hmemInX, hin₁⟩ := h.inEdges.neighbours hx
  obtain ⟨intoY, in₂, hinY, hnodupInY, hmemInY, hin₂⟩ := hin₁.neighbours hy
  obtain ⟨out₃, out₄, out₅, hunionOut, hpatchOutX, hpatchOutY, hout⟩ :=
    hout₂.identify hnamed hkept hlost h.edge_rep hargs hnodupInX hnodupInY hmemInX hmemInY hmerge
  obtain ⟨in₃, in₄, in₅, hunionIn, hpatchInX, hpatchInY, hin⟩ :=
    hin₂.identify hnamed hkept hlost (fun t s hst => (h.edge_rep s t hst).symm) hargs.swap
      hnodupOutX hnodupOutY hmemOutX hmemOutY fun htouched => hmerge htouched.swap
  refine ⟨⟨weights₂, out₅, in₅⟩, ?_, ?_, hout, hin.congr ?_, ?_⟩
  · simp [GraphContraction.identifyClasses, hunion, hfindRep, houtX, houtY, hinX, hinY, hunionOut,
      hunionIn, hpatchOutX, hpatchOutY, hpatchInX, hpatchInY]
  · have hweight : Option.map₂ vwMerge (q.weight kept) (q.weight lost) = some (vwMerge a b) := by
      rw [show q.weight kept = some a from ha, show q.weight lost = some b from hb]
      rfl
    unfold QuotientGraph.identify
    rw [hweight]
    exact hweights₂
  · intro t _
    funext s
    show contract ewMerge kept lost q.edge s t =
      contract ewMerge kept lost (fun t s => q.edge s t) t s
    by_cases htouched : Touched rx ry q.edge
    · obtain ⟨_, _⟩ := hmerge htouched
      exact contract_swap
    · have hlostNone : ∀ t, q.edge lost t = none ∧ q.edge t lost = none := fun t =>
        none_of_not_touched htouched (hnamed.eq_or_eq.mp (.inr rfl)) t
      rw [contract_eq_self hlostNone, contract_eq_self fun t => (hlostNone t).symm]
  · intro s t hst
    obtain ⟨s', t', hedge, rfl, rfl⟩ := (contract_ne_none_iff hnamed.kept_ne_lost).mp hst
    obtain ⟨hs, ht⟩ := h.edge_rep s' t' hedge
    exact ⟨hnamed.united_moved hs, hnamed.united_moved ht⟩

theorem identifyVertices (h : Represents g q) {x y : V} {vwMerge : VW → VW → VW}
    {ewMerge : EW → EW → EW} (hok : OpOk q (.identifyVertices x y vwMerge ewMerge)) :
    ∃ result g', g.identifyVertices x y vwMerge ewMerge = some (result, g') ∧
      Represents g' (q.identifyVertices x y vwMerge ewMerge) := by
  by_cases hknown : q.rep x ≠ none ∧ q.rep y ≠ none
  · obtain ⟨rx, hx⟩ := Option.ne_none_iff_exists'.mp hknown.1
    obtain ⟨ry, hy⟩ := Option.ne_none_iff_exists'.mp hknown.2
    simp only [QuotientGraph.identifyVertices, hx, hy]
    have hcontains : g.vertexWeights.contains x = true ∧ g.vertexWeights.contains y = true :=
      ⟨h.weights.contains_iff.mpr ⟨rx, hx⟩, h.weights.contains_iff.mpr ⟨ry, hy⟩⟩
    obtain ⟨wx, ix, weights₁, hfindX, -, hweights₁, -⟩ := h.weights.find hx
    obtain ⟨wy, iy, weights₂, hfindY, -, hweights₂, -⟩ := hweights₁.find hy
    have hfound : Represents { g with vertexWeights := weights₂ } q :=
      ⟨hweights₂, h.outEdges, h.inEdges, h.edge_rep⟩
    have hcall : g.identifyVertices x y vwMerge ewMerge =
        if rx = ry then some (true, { g with vertexWeights := weights₂ })
        else GraphContraction.identifyClasses { g with vertexWeights := weights₂ } x y vwMerge
          ewMerge := by
      simp [GraphContraction.identifyVertices, hcontains, hfindX, hfindY]
    rw [hcall]
    by_cases hne : rx = ry
    · simp only [hne]
      exact ⟨true, _, rfl, hfound⟩
    · obtain ⟨g', hg', hrep⟩ := hfound.identifyClasses hx hy hne hok
      simp only [hne]
      exact ⟨true, g', hg', hrep⟩
  · have hsame : q.identifyVertices x y vwMerge ewMerge = q := by
      unfold QuotientGraph.identifyVertices
      split
      · rename_i hx hy
        exact absurd ⟨by simp [hx], by simp [hy]⟩ hknown
      · rfl
    refine ⟨false, g, by simp [GraphContraction.identifyVertices, h.contains_eq_false hknown], ?_⟩
    rw [hsame]
    exact h

/-- A call keeps the graph in step with the quotient graph. -/
theorem step (h : Represents g q) {op : Op V VW EW} (hok : OpOk q op) :
    ∃ g', g.step op = some g' ∧ Represents g' (q.step op) := by
  rcases op with ⟨v, w⟩ | ⟨s, t, w⟩ | ⟨x, y, vwMerge, ewMerge⟩
  · exact h.addVertex v w
  · obtain ⟨result, g', hg', hrep⟩ := h.addEdge hok
    exact ⟨g', by simp [GraphContraction.step, hg'], hrep⟩
  · obtain ⟨result, g', hg', hrep⟩ := h.identifyVertices hok
    exact ⟨g', by simp [GraphContraction.step, hg'], hrep⟩

end Represents

/-- Each call is as it has to be in the graph of the calls before. -/
def AllOk : QuotientGraph V VW EW → List (Op V VW EW) → Prop
  | _, [] => True
  | q, op :: ops => OpOk q op ∧ AllOk (q.step op) ops

theorem foldlM_step_represents {g : GraphContraction V VW EW} {q : QuotientGraph V VW EW}
    {ops : List (Op V VW EW)} (h : Represents g q) (hok : AllOk q ops) :
    ∃ g', ops.foldlM GraphContraction.step g = some g' ∧
      Represents g' (ops.foldl QuotientGraph.step q) := by
  induction ops generalizing g q with
  | nil => exact ⟨g, rfl, h⟩
  | cons op ops ih =>
    obtain ⟨g₁, hstep, h₁⟩ := h.step hok.1
    obtain ⟨g', hfold, h'⟩ := ih h₁ hok.2
    refine ⟨g', ?_, h'⟩
    rw [List.foldlM_cons, hstep]
    exact hfold

/-- What the queries report is the quotient graph: their results, that the neighbours they
name are representatives, and that the two directions agree. -/
structure Reports (g : GraphContraction V VW EW) (q : QuotientGraph V VW EW) : Prop where
  representativeOf : ∀ v, ∃ g', g.representativeOf v = some (q.rep v, g')
  weightOf : ∀ v, ∃ g', g.weightOf v = some ((q.rep v).bind q.weight, g')
  edgesOutOf : ∀ v, ∃ edges g', g.edgesOutOf v = some (edges, g') ∧
    ∀ t, edges.lookup t = (q.rep v).bind fun s => q.edge s t
  edgesInto : ∀ v, ∃ edges g', g.edgesInto v = some (edges, g') ∧
    ∀ s, edges.lookup s = (q.rep v).bind fun t => q.edge s t
  weightOfEdge : ∀ s t, ∃ g', g.weightOfEdge s t = some ((q.rep s).bind fun s => q.edge s t, g')
  keys : ∀ v edges g', g.edgesOutOf v = some (edges, g') ∨ g.edgesInto v = some (edges, g') →
    ∀ u ∈ edges.keys, q.rep u = some u
  mirrored : ∀ s t out g₁ into g₂, q.rep s = some s → q.rep t = some t →
    g.edgesOutOf s = some (out, g₁) → g.edgesInto t = some (into, g₂) →
    ∀ w, out.lookup t = some w ↔ into.lookup s = some w

theorem of_result {α β : Type} {result : Option (α × β)} {P : α → Prop}
    (h : ∃ a b, result = some (a, b) ∧ P a) {a : α} {b : β} (hresult : result = some (a, b)) :
    P a := by
  obtain ⟨a', b', hresult', ha⟩ := h
  cases hresult.symm.trans hresult'
  exact ha

theorem Represents.reports {g : GraphContraction V VW EW} {q : QuotientGraph V VW EW}
    (h : Represents g q) : Reports g q := by
  have hout : ∀ v, ∃ edges g', g.edgesOutOf v = some (edges, g') ∧
      ∀ t, edges.lookup t = (q.rep v).bind fun s => q.edge s t := by
    intro v
    rcases hv : q.rep v with _ | r
    · obtain ⟨rows, hm, -⟩ := h.outEdges
      exact ⟨∅, g, by simp [GraphContraction.edgesOutOf, hm.find_none hv], fun _ => rfl⟩
    · obtain ⟨edges, i, m', hfind, hlookup, -⟩ := h.outEdges.find hv
      exact ⟨edges, { g with outEdges := m' }, by simp [GraphContraction.edgesOutOf, hfind], hlookup⟩
  have hin : ∀ v, ∃ edges g', g.edgesInto v = some (edges, g') ∧
      ∀ s, edges.lookup s = (q.rep v).bind fun t => q.edge s t := by
    intro v
    rcases hv : q.rep v with _ | r
    · obtain ⟨rows, hm, -⟩ := h.inEdges
      exact ⟨∅, g, by simp [GraphContraction.edgesInto, hm.find_none hv], fun _ => rfl⟩
    · obtain ⟨edges, i, m', hfind, hlookup, -⟩ := h.inEdges.find hv
      exact ⟨edges, { g with inEdges := m' }, by simp [GraphContraction.edgesInto, hfind], hlookup⟩
  have hlookupOut : ∀ {v edges g'}, g.edgesOutOf v = some (edges, g') →
      ∀ t, edges.lookup t = (q.rep v).bind fun s => q.edge s t := fun h => of_result (hout _) h
  have hlookupIn : ∀ {v edges g'}, g.edgesInto v = some (edges, g') →
      ∀ s, edges.lookup s = (q.rep v).bind fun t => q.edge s t := fun h => of_result (hin _) h
  refine ⟨?_, ?_, hout, hin, ?_, ?_, ?_⟩
  · intro v
    rcases hv : q.rep v with _ | r
    · exact ⟨g, by simp [GraphContraction.representativeOf, h.weights.find_none hv]⟩
    · obtain ⟨w, i, m', hfind, -⟩ := h.weights.find hv
      exact ⟨{ g with vertexWeights := m' }, by simp [GraphContraction.representativeOf, hfind]⟩
  · intro v
    rcases hv : q.rep v with _ | r
    · exact ⟨g, by simp [GraphContraction.weightOf, h.weights.find_none hv]⟩
    · obtain ⟨w, i, m', hfind, hw, -⟩ := h.weights.find hv
      have hw : q.weight r = some w := hw
      exact ⟨{ g with vertexWeights := m' }, by simp [GraphContraction.weightOf, hfind, hw]⟩
  · intro s t
    obtain ⟨edges, g', hedges, hlookup⟩ := hout s
    exact ⟨g', by simp [GraphContraction.weightOfEdge, hedges, hlookup]⟩
  · intro v edges g' hedges u hu
    have hsome : edges.lookup u ≠ none := by
      rw [Ne, AList.lookup_eq_none, not_not]
      exact hu
    rcases hv : q.rep v with _ | r
    · rcases hedges with hedges | hedges
      · rw [hlookupOut hedges u, hv] at hsome
        exact absurd rfl hsome
      · rw [hlookupIn hedges u, hv] at hsome
        exact absurd rfl hsome
    · rcases hedges with hedges | hedges
      · rw [hlookupOut hedges u, hv] at hsome
        exact (h.edge_rep r u hsome).2
      · rw [hlookupIn hedges u, hv] at hsome
        exact (h.edge_rep u r hsome).1
  · intro s t out g₁ into g₂ hs ht hedgesOut hedgesIn w
    rw [hlookupOut hedgesOut, hlookupIn hedgesIn, hs, ht]
    rfl

end GraphContraction

/-! ## The edges of the quotient graph -/

namespace QuotientGraph

open WeightedGraph

variable {V VW EW : Type} [DecidableEq V]

/-- The call adds an edge between known vertices. -/
def Adds (q : QuotientGraph V VW EW) (op : GraphContraction.Op V VW EW) (s t : V) : Prop :=
  ∃ w, op = .addEdge s t w ∧ q.rep s ≠ none ∧ q.rep t ≠ none

/-- An edge between the vertices was added by one of the calls. -/
def Added (ops : List (GraphContraction.Op V VW EW)) (s t : V) : Prop :=
  ∃ before op after, ops = before ++ op :: after ∧ Adds (ofOps before) op s t

/-- A call moves the representatives and the edges with them. -/
theorem step_moves (q : QuotientGraph V VW EW) (op : GraphContraction.Op V VW EW) : ∃ move : V → V,
    (∀ v r, q.rep v = some r → (q.step op).rep v = some (move r)) ∧
    ∀ s t, (q.step op).edge s t ≠ none ↔
      (∃ s' t', q.edge s' t' ≠ none ∧ move s' = s ∧ move t' = t) ∨
      ∃ s' t', Adds q op s' t' ∧ (q.step op).rep s' = some s ∧ (q.step op).rep t' = some t := by
  have hstay : (∀ s t, ¬ Adds q op s t) → (q.step op).edge = q.edge →
      (∀ v r, q.rep v = some r → (q.step op).rep v = some r) → ∃ move : V → V,
      (∀ v r, q.rep v = some r → (q.step op).rep v = some (move r)) ∧
      ∀ s t, (q.step op).edge s t ≠ none ↔
        (∃ s' t', q.edge s' t' ≠ none ∧ move s' = s ∧ move t' = t) ∨
        ∃ s' t', Adds q op s' t' ∧ (q.step op).rep s' = some s ∧ (q.step op).rep t' = some t := by
    intro hadds hedge hrep
    refine ⟨id, hrep, fun s t => ?_⟩
    rw [hedge]
    constructor
    · intro hst
      exact .inl ⟨s, t, hst, rfl, rfl⟩
    · rintro (⟨s', t', hst, rfl, rfl⟩ | ⟨s', t', hst, -⟩)
      · exact hst
      · exact absurd hst (hadds s' t')
  rcases op with ⟨v, w⟩ | ⟨s₀, t₀, w⟩ | ⟨x, y, vwMerge, ewMerge⟩
  · refine hstay ?_ ?_ ?_
    · rintro s t ⟨w, hop, -⟩
      cases hop
    · simp only [step, addVertex]
      split <;> rfl
    · intro u r hu
      simp only [step, addVertex]
      split
      · exact hu
      · rename_i hv
        have hne : u ≠ v := by
          rintro rfl
          rw [hu] at hv
          cases hv
        simp only [Function.update_of_ne hne]
        exact hu
  · by_cases hknown : q.rep s₀ ≠ none ∧ q.rep t₀ ≠ none
    · obtain ⟨s₁, hs⟩ := Option.ne_none_iff_exists'.mp hknown.1
      obtain ⟨t₁, ht⟩ := Option.ne_none_iff_exists'.mp hknown.2
      have hrep : (q.step (.addEdge s₀ t₀ w)).rep = q.rep := by
        simp only [step, addEdge, hs, ht]
      refine ⟨id, fun v r hv => by rw [hrep]; exact hv, fun s t => ?_⟩
      simp only [step, addEdge, hs, ht, GraphContraction.Represents.update_edge_apply]
      constructor
      · intro hst
        split at hst
        · rename_i heq
          exact .inr ⟨s₀, t₀, ⟨w, rfl, hknown⟩, by rw [hs, heq.1], by rw [ht, heq.2]⟩
        · exact .inl ⟨s, t, hst, rfl, rfl⟩
      · rintro (⟨s', t', hst, rfl, rfl⟩ | ⟨s', t', ⟨w', hop, -⟩, hs', ht'⟩)
        · split
          · simp
          · exact hst
        · cases hop
          rw [hs] at hs'
          rw [ht] at ht'
          cases hs'
          cases ht'
          simp
    · have hsame : q.step (.addEdge s₀ t₀ w) = q := by
        simp only [step, addEdge]
        split
        · rename_i hs ht
          exact absurd ⟨by simp [hs], by simp [ht]⟩ hknown
        · rfl
      refine hstay ?_ (by rw [hsame]) (by rw [hsame]; exact fun _ _ h => h)
      rintro s t ⟨w', hop, hst⟩
      cases hop
      exact hknown hst
  · have hadds : ∀ s t, ¬ Adds q (.identifyVertices x y vwMerge ewMerge) s t := by
      rintro s t ⟨w, hop, -⟩
      cases hop
    by_cases hident : ∃ rx ry, q.rep x = some rx ∧ q.rep y = some ry ∧ rx ≠ ry
    · obtain ⟨rx, ry, hx, hy, hne⟩ := hident
      have hkl : q.classes.kept rx ry ≠ q.classes.lost rx ry := by
        unfold Classes.kept Classes.lost
        split
        · exact hne.symm
        · exact hne
      simp only [step, identifyVertices, hx, hy, hne, ↓reduceIte, identify]
      refine ⟨moved (q.classes.kept rx ry) (q.classes.lost rx ry), ?_, fun s t => ?_⟩
      · intro v r hv
        rw [hv]
        unfold moved
        by_cases hr : r = q.classes.lost rx ry
        · rw [if_pos hr, if_pos (by rw [hr])]
        · rw [if_neg hr, if_neg fun heq => hr (Option.some.inj heq)]
      · rw [contract_ne_none_iff hkl]
        constructor
        · exact .inl
        · rintro (h | ⟨s', t', hst, -⟩)
          · exact h
          · exact absurd hst (hadds s' t')
    · have hsame : q.step (.identifyVertices x y vwMerge ewMerge) = q := by
        simp only [step, identifyVertices]
        split
        · rename_i rx ry hx hy
          rw [if_pos]
          by_contra hne
          exact hident ⟨rx, ry, hx, hy, hne⟩
        · rfl
      exact hstay hadds (by rw [hsame]) (by rw [hsame]; exact fun _ _ h => h)

theorem ofOps_append (ops : List (GraphContraction.Op V VW EW)) (op : GraphContraction.Op V VW EW) :
    ofOps (ops ++ [op]) = (ofOps ops).step op := by
  simp [ofOps]

theorem added_append {ops : List (GraphContraction.Op V VW EW)} {op : GraphContraction.Op V VW EW}
    {s t : V} :
    Added (ops ++ [op]) s t ↔ Added ops s t ∨ Adds (ofOps ops) op s t := by
  constructor
  · rintro ⟨before, op', after, heq, hadds⟩
    rcases List.eq_nil_or_concat after with rfl | ⟨after, last, rfl⟩
    · obtain ⟨rfl, hop⟩ := List.append_inj' heq rfl
      cases hop
      exact .inr hadds
    · have heq' : ops ++ [op] = (before ++ op' :: after) ++ [last] := by simpa using heq
      obtain ⟨rfl, -⟩ := List.append_inj' heq' rfl
      exact .inl ⟨before, op', after, rfl, hadds⟩
  · rintro (⟨before, op', after, rfl, hadds⟩ | hadds)
    · exact ⟨before, op', after ++ [op], by simp, hadds⟩
    · exact ⟨ops, op, [], rfl, hadds⟩

/-- The edges of the quotient graph are the added edges between the representatives of their
ends. -/
theorem ofOps_edge_ne_none_iff (ops : List (GraphContraction.Op V VW EW)) :
    (∀ s t, Added ops s t → (ofOps ops).rep s ≠ none ∧ (ofOps ops).rep t ≠ none) ∧
    ∀ s t, (ofOps ops).edge s t ≠ none ↔
      ∃ s' t', Added ops s' t' ∧ (ofOps ops).rep s' = some s ∧ (ofOps ops).rep t' = some t := by
  induction ops using List.reverseRecOn with
  | nil =>
    have hnot : ∀ s t, ¬ Added ([] : List (GraphContraction.Op V VW EW)) s t := by
      rintro s t ⟨before, op, after, heq, -⟩
      simp at heq
    refine ⟨fun s t h => absurd h (hnot s t), fun s t => iff_of_false (fun h => h rfl) ?_⟩
    rintro ⟨s', t', h, -⟩
    exact hnot s' t' h
  | append_singleton ops op ih =>
    obtain ⟨hknown, hedge⟩ := ih
    obtain ⟨move, hrep, hmove⟩ := (ofOps ops).step_moves op
    have hstays : ∀ v, (ofOps ops).rep v ≠ none → ((ofOps ops).step op).rep v ≠ none := by
      intro v hv
      obtain ⟨r, hr⟩ := Option.ne_none_iff_exists'.mp hv
      rw [hrep v r hr]
      simp
    rw [ofOps_append]
    refine ⟨?_, ?_⟩
    · intro s t hadded
      rcases added_append.mp hadded with h | ⟨w, -, hs, ht⟩
      · exact ⟨hstays s (hknown s t h).1, hstays t (hknown s t h).2⟩
      · exact ⟨hstays s hs, hstays t ht⟩
    · intro s t
      rw [hmove]
      constructor
      · rintro (⟨s', t', hst, rfl, rfl⟩ | ⟨s', t', hadds, hs, ht⟩)
        · obtain ⟨s₀, t₀, hadded, hs, ht⟩ := (hedge s' t').mp hst
          exact ⟨s₀, t₀, added_append.mpr (.inl hadded), hrep s₀ s' hs, hrep t₀ t' ht⟩
        · exact ⟨s', t', added_append.mpr (.inr hadds), hs, ht⟩
      · rintro ⟨s', t', hadded, hs, ht⟩
        rcases added_append.mp hadded with h | h
        · obtain ⟨s₁, hs₁⟩ := Option.ne_none_iff_exists'.mp (hknown s' t' h).1
          obtain ⟨t₁, ht₁⟩ := Option.ne_none_iff_exists'.mp (hknown s' t' h).2
          refine .inl ⟨s₁, t₁, (hedge s₁ t₁).mpr ⟨s', t', h, hs₁, ht₁⟩, ?_, ?_⟩
          · exact Option.some.inj ((hrep s' s₁ hs₁).symm.trans hs)
          · exact Option.some.inj ((hrep t' t₁ ht₁).symm.trans ht)
        · exact .inr ⟨s', t', h, hs, ht⟩

end QuotientGraph

namespace GraphContraction

variable {V VW EW : Type} [DecidableEq V]

/-- The property of a sequence of calls: no check fails, the queries report the quotient graph,
and its edges are the added edges between the representatives of their ends. -/
def HoldsQuotient (ops : List (Op V VW EW)) : Prop :=
  ∃ g, run ops = some g ∧ Reports g (.ofOps ops) ∧
    ∀ s t, (QuotientGraph.ofOps ops).edge s t ≠ none ↔
      ∃ s' t', QuotientGraph.Added ops s' t' ∧ (QuotientGraph.ofOps ops).rep s' = some s ∧
        (QuotientGraph.ofOps ops).rep t' = some t

/-- Two vertices with edges to a third and to each other are identified. -/
def identifySources : List (Op ℕ ℕ ℕ) :=
  [.addVertex 0 5, .addVertex 1 7, .addVertex 2 1, .addEdge 0 2 30, .addEdge 1 2 40,
    .addEdge 0 1 10, .identifyVertices 0 1 (· + ·) (· + ·)]

/-- An edge is added to a vertex which was merged into another. -/
def edgeToMerged : List (Op ℕ ℕ ℕ) :=
  [.addVertex 0 5, .addVertex 1 7, .addVertex 2 1, .identifyVertices 0 1 (· + ·) (· + ·),
    .addEdge 2 1 30]

/-- A vertex which was merged into another is merged again. -/
def identifyMerged : List (Op ℕ ℕ ℕ) :=
  [.addVertex 0 5, .addVertex 1 7, .addVertex 2 1, .addVertex 3 1, .addEdge 2 0 30,
    .identifyVertices 0 1 (· + ·) (· + ·), .identifyVertices 1 3 (· + ·) (· + ·)]

end GraphContraction

end Xls
