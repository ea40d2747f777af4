/-
# Minimum cuts are minimum

`MinCutBetweenNodes` computes a maximum flow.  The capacity of the backward edge of an edge is
the flow along it; `Valid` says that this is a flow, and every augmentation keeps it.  The walk
from the source in the end finds a cut which the flow fills.

* `pushFlow_spec` : flow moves along one residual edge;
* `pushBack_spec` : flow moves along a path;
* `searchPath_spec` : the search finds a path, or nothing leads on from what it found;
* `maximizeFlow_spec` : the augmentations end;
* `minCut_minimum` : the cut is a minimum cut.
-/
import Xls.DataStructures.MinCut
import Mathlib.Tactic.Common

namespace Xls

namespace MinCut

open FlowNetwork

/-! ## Residual graphs -/

namespace Graph

/-- Where an edge starts. -/
def tail (g : Graph) (i : ℕ) : ℕ := (g.edges[i]?.map Edge.fromNode).getD 0

/-- Where an edge ends. -/
def head (g : Graph) (i : ℕ) : ℕ := (g.edges[i]?.map Edge.toNode).getD 0

/-- The weight of an edge. -/
def weight (g : Graph) (i : ℕ) : ℤ := (g.edges[i]?.map Edge.weight).getD 0

/-- The ids of the edges. -/
def arcs (g : Graph) : Finset ℕ := Finset.range g.edgeCount

/-- The ends and the dual of a residual edge. -/
def endpoints (g : Graph) (id : ℕ) : Option (ℕ × ℕ × ℕ) :=
  if id < g.edgeCount then some (g.tail id, g.head id, id + g.edgeCount)
  else if id < 2 * g.edgeCount then
    some (g.head (id - g.edgeCount), g.tail (id - g.edgeCount), id - g.edgeCount)
  else none

variable {g : Graph}

theorem getElem?_edges {i : ℕ} (hi : i < g.edgeCount) : ∃ e, g.edges[i]? = some e ∧
    e.fromNode = g.tail i ∧ e.toNode = g.head i ∧ e.weight = g.weight i := by
  have he : g.edges[i]? = some g.edges[i] := List.getElem?_eq_getElem hi
  refine ⟨_, he, ?_, ?_, ?_⟩
  · rw [tail, he]
    rfl
  · rw [head, he]
    rfl
  · rw [weight, he]
    rfl

theorem tail_lt {i : ℕ} (hi : i < g.edgeCount) : g.tail i < g.nodeCount := by
  obtain ⟨e, he, htail, -⟩ := g.getElem?_edges hi
  rw [← htail]
  exact (g.ends e (List.mem_of_getElem? he)).1

theorem head_lt {i : ℕ} (hi : i < g.edgeCount) : g.head i < g.nodeCount := by
  obtain ⟨e, he, -, hhead, -⟩ := g.getElem?_edges hi
  rw [← hhead]
  exact (g.ends e (List.mem_of_getElem? he)).2

/-- A residual edge runs along an edge or against it. -/
theorem endpoints_cases {id a b d : ℕ} (h : g.endpoints id = some (a, b, d)) :
    (id < g.edgeCount ∧ a = g.tail id ∧ b = g.head id ∧ d = id + g.edgeCount) ∨
      ∃ i < g.edgeCount, id = i + g.edgeCount ∧ a = g.head i ∧ b = g.tail i ∧ d = i := by
  unfold endpoints at h
  split_ifs at h with h1 h2
  · cases h
    exact .inl ⟨h1, rfl, rfl, rfl⟩
  · cases h
    exact .inr ⟨id - g.edgeCount, by omega, by omega, rfl, rfl, rfl⟩

theorem endpoints_forward {i : ℕ} (hi : i < g.edgeCount) :
    g.endpoints i = some (g.tail i, g.head i, i + g.edgeCount) := if_pos hi

theorem endpoints_backward {i : ℕ} (hi : i < g.edgeCount) :
    g.endpoints (i + g.edgeCount) = some (g.head i, g.tail i, i) := by
  unfold endpoints
  rw [if_neg (by omega), if_pos (by omega), Nat.add_sub_cancel]

theorem endpoints_lt {id a b d : ℕ} (h : g.endpoints id = some (a, b, d)) :
    a < g.nodeCount ∧ b < g.nodeCount := by
  rcases endpoints_cases h with ⟨hid, rfl, rfl, -⟩ | ⟨i, hi, -, rfl, rfl, -⟩
  · exact ⟨tail_lt hid, head_lt hid⟩
  · exact ⟨head_lt hi, tail_lt hi⟩

/-- The dual of a residual edge is another one. -/
theorem endpoints_dual {id a b d : ℕ} (h : g.endpoints id = some (a, b, d)) :
    d ≠ id ∧ g.endpoints d = some (b, a, id) := by
  rcases endpoints_cases h with ⟨hid, rfl, rfl, rfl⟩ | ⟨i, hi, rfl, rfl, rfl, rfl⟩
  · exact ⟨by omega, endpoints_backward hid⟩
  · exact ⟨by omega, endpoints_forward hi⟩

end Graph

/-- The capacity of a residual edge. -/
def ResidualGraph.cap (r : ResidualGraph) (id : ℕ) : ℤ :=
  ((r.edges[id]?).map ResidualEdge.capacity).getD 0

/-- The residual graph has the residual edges of the graph. -/
structure Shape (g : Graph) (r : ResidualGraph) : Prop where
  endpoints_eq : ∀ id, (r.edges[id]?).map (fun e => (e.fromNode, e.toNode, e.dualEdge)) =
    g.endpoints id
  successors : ∀ v < g.nodeCount, ∃ l, r.successors[v]? = some l ∧
    ∀ id, id ∈ l ↔ ∃ b d, g.endpoints id = some (v, b, d)

variable {g : Graph} {r : ResidualGraph} {id a b d : ℕ} (h : Shape g r)
  (hid : g.endpoints id = some (a, b, d))

include h hid in
theorem Shape.getElem? :
    r.edges[id]? = some ⟨a, b, r.cap id, d⟩ := by
  have heq := h.endpoints_eq id
  rw [hid] at heq
  obtain ⟨e, he, hends⟩ := Option.map_eq_some_iff.mp heq
  rw [ResidualGraph.cap, he]
  cases hends
  rfl

/-- The flow along the edges: the capacities of the backward edges. -/
def flow (g : Graph) (r : ResidualGraph) (i : ℕ) : ℤ := r.cap (i + g.edgeCount)

/-- The capacities are a flow and what it leaves of the weights. -/
structure Valid (g : Graph) (source sink : ℕ) (r : ResidualGraph) : Prop extends Shape g r where
  cap_nonneg : ∀ id, 0 ≤ r.cap id
  cap_add : ∀ i < g.edgeCount, r.cap i + flow g r i = g.weight i
  conserved : ∀ v, v ≠ source → v ≠ sink →
    netOutflow g.arcs g.tail g.head (flow g r) v = 0

theorem Valid.isFlow {source sink : ℕ} (h : Valid g source sink r) :
    IsFlow g.arcs g.tail g.head g.weight source sink (flow g r) where
  nonneg i _ := h.cap_nonneg _
  le_weight i hi := by
    have hadd := h.cap_add i (Finset.mem_range.mp hi)
    have hcap := h.cap_nonneg i
    omega
  conserved := h.conserved

/-! ## The initial residual graph -/

/-- The residual edges which extend from a node, as the constructor lists them. -/
theorem foldl_addSuccessors (m : ℕ) (edges : List (Edge × ℕ)) :
    ∀ {successors : List (List ℕ)} {v : ℕ} {l : List ℕ}, successors[v]? = some l →
      ∃ l', (edges.foldl (ResidualGraph.addSuccessors m) successors)[v]? = some l' ∧
        ∀ id, id ∈ l' ↔ id ∈ l ∨ ∃ e ∈ edges,
          (e.1.fromNode = v ∧ id = e.2) ∨ (e.1.toNode = v ∧ id = e.2 + m) := by
  induction edges with
  | nil => intro successors v l hl; exact ⟨l, hl, fun id => by simp⟩
  | cons e edges ih =>
    intro successors v l hl
    have hstep : ∃ l₁, (ResidualGraph.addSuccessors m successors e)[v]? = some l₁ ∧
        ∀ id, id ∈ l₁ ↔ id ∈ l ∨ (e.1.fromNode = v ∧ id = e.2) ∨
          (e.1.toNode = v ∧ id = e.2 + m) := by
      unfold ResidualGraph.addSuccessors
      rw [List.getElem?_modify, List.getElem?_modify, hl]
      by_cases hfrom : e.1.fromNode = v
      · by_cases hto : e.1.toNode = v
        · simp [hfrom, hto]
        · simp [hfrom, hto]
      · by_cases hto : e.1.toNode = v
        · simp [hfrom, hto]
        · simp [hfrom, hto]
    obtain ⟨l₁, hl₁, hmem₁⟩ := hstep
    obtain ⟨l', hl', hmem⟩ := ih hl₁
    refine ⟨l', hl', fun id => ?_⟩
    rw [hmem id, hmem₁ id, List.exists_mem_cons_iff, or_assoc]

theorem getElem?_ofGraph_forward {i : ℕ} (hi : i < g.edgeCount) :
    (ResidualGraph.ofGraph g).edges[i]? =
      some ⟨g.tail i, g.head i, g.weight i, i + g.edgeCount⟩ := by
  obtain ⟨e, he, htail, hhead, hweight⟩ := g.getElem?_edges hi
  show (List.mapIdx _ _ ++ _)[i]? = _
  rw [List.getElem?_append_left (by rw [List.length_mapIdx]; exact hi), List.getElem?_mapIdx, he,
    ← htail, ← hhead, ← hweight]
  rfl

theorem getElem?_ofGraph_backward {i : ℕ} (hi : i < g.edgeCount) :
    (ResidualGraph.ofGraph g).edges[i + g.edgeCount]? = some ⟨g.head i, g.tail i, 0, i⟩ := by
  obtain ⟨e, he, htail, hhead, -⟩ := g.getElem?_edges hi
  have hlength : (g.edges.mapIdx fun i e =>
      (⟨e.fromNode, e.toNode, e.weight, i + g.edgeCount⟩ : ResidualEdge)).length = g.edgeCount :=
    List.length_mapIdx
  show (List.mapIdx _ _ ++ _)[i + g.edgeCount]? = _
  rw [List.getElem?_append_right (by omega), hlength, Nat.add_sub_cancel,
    List.getElem?_mapIdx, he, ← htail, ← hhead]
  rfl

theorem ofGraph_shape (g : Graph) : Shape g (.ofGraph g) where
  endpoints_eq id := by
    by_cases h1 : id < g.edgeCount
    · rw [getElem?_ofGraph_forward h1, Graph.endpoints_forward h1]
      rfl
    · by_cases h2 : id < 2 * g.edgeCount
      · obtain ⟨i, rfl⟩ : ∃ i, id = i + g.edgeCount := ⟨id - g.edgeCount, by omega⟩
        rw [getElem?_ofGraph_backward (by omega), Graph.endpoints_backward (by omega)]
        rfl
      · have hlength : (ResidualGraph.ofGraph g).edges.length = 2 * g.edgeCount := by
          show (List.mapIdx _ _ ++ List.mapIdx _ _).length = _
          rw [List.length_append, List.length_mapIdx, List.length_mapIdx, two_mul]
          rfl
        rw [List.getElem?_eq_none (by omega), Graph.endpoints, if_neg h1, if_neg h2]
        rfl
  successors v hv := by
    have hempty : (List.replicate g.nodeCount ([] : List ℕ))[v]? = some [] := by
      rw [List.getElem?_replicate, if_pos hv]
    obtain ⟨l, hl, hmem⟩ := foldl_addSuccessors g.edgeCount g.edges.zipIdx hempty
    refine ⟨l, hl, fun id => ?_⟩
    rw [hmem id]
    constructor
    · rintro (h | ⟨⟨e, i⟩, he, h⟩)
      · exact absurd h List.not_mem_nil
      · have hi := List.mem_zipIdx_iff_getElem?.mp he
        obtain ⟨hlt, -⟩ := List.getElem?_eq_some_iff.mp hi
        obtain ⟨e', he', htail, hhead, -⟩ := g.getElem?_edges hlt
        rw [hi] at he'
        cases he'
        rcases h with ⟨hfrom, rfl⟩ | ⟨hto, rfl⟩
        · exact ⟨_, _, by rw [Graph.endpoints_forward hlt, ← htail, hfrom]⟩
        · exact ⟨_, _, by rw [Graph.endpoints_backward hlt, ← hhead, hto]⟩
    · rintro ⟨b, d, hid⟩
      right
      rcases Graph.endpoints_cases hid with ⟨hlt, rfl, -, -⟩ | ⟨i, hlt, rfl, rfl, -, -⟩
      · obtain ⟨e, he, htail, -⟩ := g.getElem?_edges hlt
        exact ⟨(e, id), List.mem_zipIdx_iff_getElem?.mpr he, .inl ⟨htail, rfl⟩⟩
      · obtain ⟨e, he, -, hhead, -⟩ := g.getElem?_edges hlt
        exact ⟨(e, i), List.mem_zipIdx_iff_getElem?.mpr he, .inr ⟨hhead, rfl⟩⟩

/-- At first there is no flow. -/
theorem ofGraph_valid {source sink : ℕ} (hweight : ∀ e ∈ g.edges, 0 ≤ e.weight) :
    Valid g source sink (.ofGraph g) := by
  have hforward : ∀ i < g.edgeCount, (ResidualGraph.ofGraph g).cap i = g.weight i := by
    intro i hi
    rw [ResidualGraph.cap, getElem?_ofGraph_forward hi]
    rfl
  have hbackward : ∀ i < g.edgeCount, flow g (.ofGraph g) i = 0 := by
    intro i hi
    rw [flow, ResidualGraph.cap, getElem?_ofGraph_backward hi]
    rfl
  refine ⟨ofGraph_shape g, fun id => ?_, fun i hi => ?_, fun v _ _ => ?_⟩
  · rcases hends : g.endpoints id with _ | ⟨a, b, d⟩
    · have hnone := (ofGraph_shape g).endpoints_eq id
      rw [hends, Option.map_eq_none_iff] at hnone
      rw [ResidualGraph.cap, hnone]
      rfl
    · rcases Graph.endpoints_cases hends with ⟨hi, -⟩ | ⟨i, hi, rfl, -⟩
      · obtain ⟨e, he, -, -, hw⟩ := g.getElem?_edges hi
        rw [hforward id hi, ← hw]
        exact hweight e (List.mem_of_getElem? he)
      · exact (hbackward i hi).ge
  · rw [hforward i hi, hbackward i hi, add_zero]
  · apply Finset.sum_eq_zero
    intro i hi
    rw [hbackward i (Finset.mem_range.mp hi), zero_mul]

/-! ## Pushing flow -/

section

include h hid

/-- `PushFlow` changes the capacities of a residual edge and its dual. -/
theorem pushFlow_cap {amount : ℤ} (hcap : amount ≤ r.cap id) :
    ∃ r', r.pushFlow amount id = some r' ∧ Shape g r' ∧
      ∀ x, r'.cap x = if x = id then r.cap id - amount
        else if x = d then r.cap d + amount else r.cap x := by
  obtain ⟨hne, hd⟩ := Graph.endpoints_dual hid
  have hedge := h.getElem? hid
  have hdual := h.getElem? hd
  obtain ⟨hlt, -⟩ := List.getElem?_eq_some_iff.mp hedge
  obtain ⟨hltd, -⟩ := List.getElem?_eq_some_iff.mp hdual
  have hset : (r.edges.set id ⟨a, b, r.cap id - amount, d⟩)[d]? = some ⟨b, a, r.cap d, id⟩ := by
    rw [List.getElem?_set_ne (Ne.symm hne), hdual]
  have hget : ∀ x, (((r.edges.set id ⟨a, b, r.cap id - amount, d⟩).set d
      ⟨b, a, r.cap d + amount, id⟩))[x]? =
        if x = id then some ⟨a, b, r.cap id - amount, d⟩
        else if x = d then some ⟨b, a, r.cap d + amount, id⟩ else r.edges[x]? := by
    intro x
    by_cases hx : x = id
    · subst hx
      rw [if_pos rfl, List.getElem?_set_ne hne, List.getElem?_set_self hlt]
    · rw [if_neg hx]
      by_cases hxd : x = d
      · subst hxd
        rw [if_pos rfl, List.getElem?_set_self (by rw [List.length_set]; exact hltd)]
      · rw [if_neg hxd, List.getElem?_set_ne (Ne.symm hxd), List.getElem?_set_ne (Ne.symm hx)]
  refine ⟨⟨(r.edges.set id ⟨a, b, r.cap id - amount, d⟩).set d ⟨b, a, r.cap d + amount, id⟩,
    r.successors⟩, ?_, ⟨fun x => ?_, h.successors⟩, fun x => ?_⟩
  · unfold ResidualGraph.pushFlow
    rw [hedge]
    simp only [Option.bind_eq_bind, Option.bind_some, if_pos hcap, hset]
  · rw [hget x]
    split_ifs with hx hxd
    · rw [hx, hid]
      rfl
    · rw [hxd, hd]
      rfl
    · exact h.endpoints_eq x
  · rw [ResidualGraph.cap, hget x]
    split_ifs
    · rfl
    · rfl
    · rfl

/-- Flow moves from one end of a residual edge to the other. -/
theorem pushFlow_spec {amount : ℤ} (hcap : amount ≤ r.cap id) :
    ∃ r', r.pushFlow amount id = some r' ∧ Shape g r' ∧
      (∀ x, r'.cap x = if x = id then r.cap id - amount
        else if x = d then r.cap d + amount else r.cap x) ∧
      (∀ i < g.edgeCount, r'.cap i + flow g r' i = r.cap i + flow g r i) ∧
      ∀ v, netOutflow g.arcs g.tail g.head (flow g r') v =
        netOutflow g.arcs g.tail g.head (flow g r) v +
          amount * ((if a = v then 1 else 0) - (if b = v then 1 else 0)) := by
  obtain ⟨r', hpush, hshape, hcap'⟩ := pushFlow_cap h hid hcap
  refine ⟨r', hpush, hshape, hcap', fun i hi => ?_, fun v => ?_⟩
  · unfold flow
    rw [hcap', hcap']
    rcases Graph.endpoints_cases hid with ⟨hlt, -, -, rfl⟩ | ⟨j, hlt, rfl, -, -, rfl⟩
    · by_cases heq : i = id
      · subst heq
        rw [if_pos rfl, if_neg (by omega), if_pos rfl]
        ring
      · rw [if_neg heq, if_neg (by omega), if_neg (by omega), if_neg (by omega)]
    · by_cases heq : i = d
      · subst heq
        rw [if_neg (by omega), if_pos rfl, if_pos rfl]
        ring
      · rw [if_neg (by omega), if_neg heq, if_neg (by omega), if_neg (by omega)]
  · rcases Graph.endpoints_cases hid with ⟨hlt, rfl, rfl, rfl⟩ | ⟨j, hlt, rfl, rfl, rfl, rfl⟩
    · have hflow : flow g r' = Function.update (flow g r) id (flow g r id + amount) := by
        funext i
        unfold flow
        rw [hcap', Function.update_apply]
        by_cases heq : i = id
        · subst heq
          rw [if_neg (by omega), if_pos rfl, if_pos rfl]
        · rw [if_neg heq, if_neg (by omega), if_neg (by omega)]
      have hmem : id ∈ g.arcs := Finset.mem_range.mpr hlt
      rw [hflow, netOutflow_update hmem]
      simp only [crosses, Finset.mem_singleton]
    · have hflow : flow g r' = Function.update (flow g r) d (flow g r d + -amount) := by
        funext i
        unfold flow
        rw [hcap', Function.update_apply]
        by_cases heq : i = d
        · subst heq
          rw [if_pos rfl, if_pos rfl]
          ring
        · rw [if_neg (by omega), if_neg (by omega), if_neg heq]
      have hmem : d ∈ g.arcs := Finset.mem_range.mpr hlt
      rw [hflow, netOutflow_update hmem]
      simp only [crosses, Finset.mem_singleton]
      ring

end

/-! ## Paths back to the source -/

/-- The path from a node back to the source which the last edges describe; every residual edge
on it has room for `amount`.  The list holds the nodes but the source. -/
inductive Trail (g : Graph) (cap : ℕ → ℤ) (source : ℕ) (pathBack : ℕ → Option (ℕ × ℤ))
    (amount : ℤ) : ℕ → List ℕ → Prop
  | source : Trail g cap source pathBack amount source []
  | step {n id a d : ℕ} {c : ℤ} {nodes : List ℕ} : n ≠ source → pathBack n = some (id, c) →
      g.endpoints id = some (a, n, d) → amount ≤ cap id →
      Trail g cap source pathBack amount a nodes →
      Trail g cap source pathBack amount n (n :: nodes)

namespace Trail

variable {cap cap' : ℕ → ℤ} {source n : ℕ} {pathBack pathBack' : ℕ → Option (ℕ × ℤ)}
  {amount amount' : ℤ} {nodes : List ℕ}

/-- A path has room for less, and stays when more nodes are found. -/
theorem mono (h : Trail g cap source pathBack amount n nodes) (hle : amount' ≤ amount)
    (hback : ∀ v b, pathBack v = some b → pathBack' v = some b) :
    Trail g cap source pathBack' amount' n nodes := by
  induction h with
  | source => exact .source
  | step hn hb he hc _ ih => exact .step hn (hback _ _ hb) he (hle.trans hc) ih

/-- A path stays when the residual edges into its nodes keep their room. -/
theorem congr_cap (h : Trail g cap source pathBack amount n nodes)
    (hcap : ∀ id a b d, g.endpoints id = some (a, b, d) → b ∈ nodes → cap id ≤ cap' id) :
    Trail g cap' source pathBack amount n nodes := by
  induction h with
  | source => exact .source
  | step hn hb he hc _ ih =>
    refine .step hn hb he (hc.trans (hcap _ _ _ _ he List.mem_cons_self)) ?_
    exact ih fun id a b d hid hmem => hcap id a b d hid (List.mem_cons_of_mem _ hmem)

theorem node_lt (h : Trail g cap source pathBack amount n nodes) :
    ∀ v ∈ nodes, v < g.nodeCount := by
  induction h with
  | source => intro v hv; cases hv
  | step _ _ he _ _ ih =>
    intro v hv
    rcases List.mem_cons.mp hv with rfl | hv
    · exact (Graph.endpoints_lt he).2
    · exact ih v hv

end Trail

/-- The walk back moves flow from the source to the end of the path. -/
theorem pushBack_spec {source : ℕ} {amount : ℤ} (hamount : 0 ≤ amount)
    {pathBack : ℕ → Option (ℕ × ℤ)} {nodes : List ℕ} :
    ∀ {n fuel : ℕ} {r : ResidualGraph}, Shape g r → (∀ id, 0 ≤ r.cap id) →
      Trail g r.cap source pathBack amount n nodes → nodes.Nodup → nodes.length ≤ fuel →
      ∃ r', pushBack source amount pathBack fuel n r = some r' ∧ Shape g r' ∧
        (∀ id, 0 ≤ r'.cap id) ∧
        (∀ i < g.edgeCount, r'.cap i + flow g r' i = r.cap i + flow g r i) ∧
        ∀ v, netOutflow g.arcs g.tail g.head (flow g r') v =
          netOutflow g.arcs g.tail g.head (flow g r) v +
            amount * ((if source = v then 1 else 0) - (if n = v then 1 else 0)) := by
  induction nodes with
  | nil =>
    intro n fuel r hshape hnonneg htrail _ _
    cases htrail
    refine ⟨r, ?_, hshape, hnonneg, fun _ _ => rfl, fun v => by ring⟩
    unfold pushBack
    rw [if_pos rfl]
  | cons v₀ nodes ih =>
    intro n fuel r hshape hnonneg htrail hnodup hfuel
    cases htrail with
    | step hn hb he hc hrest =>
      rename_i id a d c
      obtain ⟨hnot, hnodup'⟩ := List.nodup_cons.mp hnodup
      obtain ⟨r₁, hpush, hshape₁, hcap₁, hadd₁, hnet₁⟩ := pushFlow_spec hshape he hc
      have hnonneg₁ : ∀ x, 0 ≤ r₁.cap x := by
        intro x
        rw [hcap₁ x]
        have h0 := hnonneg d
        have hx := hnonneg x
        split_ifs
        · omega
        · omega
        · exact hx
      -- the residual edges further back do not lose capacity
      have htrail₁ : Trail g r₁.cap source pathBack amount a nodes := by
        refine hrest.congr_cap fun x a' b' d' hx hmem => ?_
        rw [hcap₁ x]
        split_ifs with h1 h2
        · subst h1
          rw [he] at hx
          cases hx
          exact absurd hmem hnot
        · rw [h2]
          omega
        · exact le_rfl
      obtain ⟨fuel, rfl⟩ : ∃ k, fuel = k + 1 := ⟨fuel - 1, by simp at hfuel; omega⟩
      obtain ⟨r', hback, hshape', hnonneg', hadd', hnet'⟩ :=
        ih hshape₁ hnonneg₁ htrail₁ hnodup' (by simp at hfuel; omega)
      refine ⟨r', ?_, hshape', hnonneg', fun i hi => (hadd' i hi).trans (hadd₁ i hi), fun v => ?_⟩
      · have hedge := hshape₁.getElem? he
        unfold pushBack
        rw [if_neg hn]
        simp only [hb, Option.bind_eq_bind, Option.bind_some, hpush, hedge, if_pos (hnonneg₁ id)]
        exact hback
      · rw [hnet' v, hnet₁ v]
        ring

/-! ## The search -/

/-- What the search knows: every node found has a path with room for its capacity. -/
structure Known (g : Graph) (r : ResidualGraph) (source : ℕ) (pathBack : ℕ → Option (ℕ × ℤ)) :
    Prop where
  pos : ∀ {n id c}, pathBack n = some (id, c) → 0 < c
  lt : ∀ {n}, pathBack n ≠ none → n < g.nodeCount
  trail : ∀ {n id c}, pathBack n = some (id, c) → n ≠ source →
    ∃ nodes, Trail g r.cap source pathBack c n nodes ∧ nodes.Nodup ∧
      ∀ v ∈ nodes, pathBack v ≠ none

/-- A node which is the source or was found. -/
def Visited (source : ℕ) (pathBack : ℕ → Option (ℕ × ℤ)) (n : ℕ) : Prop :=
  n = source ∨ pathBack n ≠ none

/-- The search has found more nodes, the new ones being those of the next frontier. -/
def Grows (s t : Search) : Prop :=
  (∀ n b, s.pathBack n = some b → t.pathBack n = some b) ∧
  ∃ new, t.nextFrontier = s.nextFrontier ++ new ∧
    (∀ n ∈ new, s.pathBack n = none) ∧
    ∀ n, t.pathBack n ≠ none ↔ s.pathBack n ≠ none ∨ n ∈ new

theorem Grows.refl (s : Search) : Grows s s :=
  ⟨fun _ _ h => h, [], by simp, by simp, by simp⟩

variable {s t : Search} {sink : ℕ}

theorem Grows.ne_none (h : Grows s t) {n : ℕ} (hn : s.pathBack n ≠ none) : t.pathBack n ≠ none := by
  obtain ⟨b, hb⟩ := Option.ne_none_iff_exists'.mp hn
  rw [h.1 n b hb]
  exact Option.some_ne_none b

theorem Grows.trans {u : Search} (h : Grows s t) (h' : Grows t u) : Grows s u := by
  obtain ⟨new, hnext, hfresh, hmem⟩ := h.2
  obtain ⟨new', hnext', hfresh', hmem'⟩ := h'.2
  refine ⟨fun n b hb => h'.1 n b (h.1 n b hb), new ++ new', ?_, fun n hn => ?_, fun n => ?_⟩
  · rw [hnext', hnext, List.append_assoc]
  · rcases List.mem_append.mp hn with hn | hn
    · exact hfresh n hn
    · by_contra hne
      exact h.ne_none hne (hfresh' n hn)
  · rw [hmem' n, hmem n, List.mem_append, or_assoc]

/-- Nothing but visited nodes is reached along a residual edge with room, and not the sink. -/
def EdgeDone (g : Graph) (r : ResidualGraph) (sink : ℕ) (pathBack : ℕ → Option (ℕ × ℤ))
    (id : ℕ) : Prop :=
  ∀ a b d, g.endpoints id = some (a, b, d) → 0 < r.cap id → pathBack b ≠ none ∧ b ≠ sink

/-- `maybe_extend_frontier` finds the end of a residual edge with room. -/
theorem maybeExtendFrontier_spec {source : ℕ} (h : Known g r source s.pathBack) {id a b d : ℕ}
    (hid : g.endpoints id = some (a, b, d)) (hcap : 0 < r.cap id) (ha : Visited source s.pathBack a) :
    Known g r source (maybeExtendFrontier s id ⟨a, b, r.cap id, d⟩).pathBack ∧
      Grows s (maybeExtendFrontier s id ⟨a, b, r.cap id, d⟩) ∧
      (maybeExtendFrontier s id ⟨a, b, r.cap id, d⟩).pathBack b ≠ none := by
  unfold maybeExtendFrontier
  simp only
  rcases hb : s.pathBack b with _ | back
  · rw [if_neg (by simp)]
    -- the capacity of the path to the node
    generalize hroom : min ((s.pathBack a).elim (2 ^ 63 - 1) Prod.snd) (r.cap id) = room
    have hpos : 0 < room := by
      rw [← hroom]
      rcases hback : s.pathBack a with _ | ⟨id', c⟩
      · exact lt_min (by norm_num) hcap
      · exact lt_min (h.pos hback) hcap
    have hle : room ≤ r.cap id := hroom ▸ min_le_right _ _
    have hgrow : ∀ n back, s.pathBack n = some back →
        Function.update s.pathBack b (some (id, room)) n = some back := by
      intro n back hback
      rw [Function.update_of_ne]
      · exact hback
      · rintro rfl
        rw [hb] at hback
        cases hback
    have hfound : ∀ n, Function.update s.pathBack b (some (id, room)) n ≠ none ↔
        s.pathBack n ≠ none ∨ n ∈ [b] := by
      intro n
      by_cases hn : n = b
      · subst hn
        simp
      · simp [hn]
    refine ⟨⟨?_, ?_, ?_⟩, ⟨hgrow, [b], rfl, by simpa using hb, hfound⟩, by simp⟩
    · intro n id' c hn
      change Function.update s.pathBack b (some (id, room)) n = some (id', c) at hn
      rw [Function.update_apply] at hn
      split_ifs at hn
      · cases hn
        exact hpos
      · exact h.pos hn
    · intro n hn
      rcases (hfound n).mp hn with hn | hn
      · exact h.lt hn
      · rw [List.mem_singleton.mp hn]
        exact (Graph.endpoints_lt hid).2
    · intro n id' c hn hsource
      change Function.update s.pathBack b (some (id, room)) n = some (id', c) at hn
      have hold : ∀ v, s.pathBack v ≠ none →
          Function.update s.pathBack b (some (id, room)) v ≠ none :=
        fun v hv => (hfound v).mpr (.inl hv)
      by_cases hnb : n = b
      · subst hnb
        rw [Function.update_self, Option.some.injEq] at hn
        obtain ⟨rfl, rfl⟩ := hn
        -- the path to the start of the edge, and the edge
        have hpath : ∃ nodes, Trail g r.cap source s.pathBack room a nodes ∧ nodes.Nodup ∧
            ∀ v ∈ nodes, s.pathBack v ≠ none := by
          by_cases has : a = source
          · subst has
            exact ⟨[], .source, List.nodup_nil, by simp⟩
          · obtain ⟨⟨id', c⟩, hback⟩ := Option.ne_none_iff_exists'.mp (ha.resolve_left has)
            obtain ⟨nodes, htrail, hnodup, hmem⟩ := h.trail hback has
            have hroomle : room ≤ c := by
              rw [← hroom, hback]
              exact min_le_left _ _
            exact ⟨nodes, htrail.mono hroomle fun _ _ hv => hv, hnodup, hmem⟩
        obtain ⟨nodes, htrail, hnodup, hmem⟩ := hpath
        refine ⟨n :: nodes, .step hsource (Function.update_self ..) hid hle
          (htrail.mono le_rfl hgrow), List.nodup_cons.mpr ⟨fun hv => hmem n hv hb, hnodup⟩,
          fun v hv => ?_⟩
        rcases List.mem_cons.mp hv with rfl | hv
        · simp
        · exact hold v (hmem v hv)
      · rw [Function.update_of_ne hnb] at hn
        obtain ⟨nodes, htrail, hnodup, hmem⟩ := h.trail hn hsource
        exact ⟨nodes, htrail.mono le_rfl hgrow, hnodup, fun v hv => hold v (hmem v hv)⟩
  · rw [if_pos (by simp)]
    exact ⟨h, Grows.refl s, by rw [hb]; simp⟩

theorem EdgeDone.mono {id : ℕ} (h : EdgeDone g r sink s.pathBack id) (hgrow : Grows s t) :
    EdgeDone g r sink t.pathBack id := by
  intro a b d hid hcap
  obtain ⟨hb, hne⟩ := h a b d hid hcap
  exact ⟨hgrow.ne_none hb, hne⟩

theorem Visited.mono {source n : ℕ} (h : Visited source s.pathBack n) (hgrow : Grows s t) :
    Visited source t.pathBack n := h.imp_right hgrow.ne_none

variable {source : ℕ} (hvalid : Valid g source sink r)

include hvalid in
/-- The loop body over the edges which extend from a visited node. -/
theorem visitEdge_spec (h : Known g r source s.pathBack) (hid : g.endpoints id = some (a, b, d))
    (ha : Visited source s.pathBack a) :
    ∃ t stop, visitEdge r sink s id = some (t, stop) ∧ Known g r source t.pathBack ∧ Grows s t ∧
      (stop = false → EdgeDone g r sink t.pathBack id) ∧
      (stop = true → t.pathBack sink ≠ none) := by
  have hedge := hvalid.getElem? hid
  have hnonneg := hvalid.cap_nonneg id
  unfold visitEdge
  simp only [hedge, Option.bind_eq_bind, Option.bind_some, if_pos hnonneg]
  by_cases hcap : 0 < r.cap id
  · obtain ⟨hknown, hgrow, hb⟩ := maybeExtendFrontier_spec h hid hcap ha
    rw [if_pos hcap]
    refine ⟨_, _, rfl, hknown, hgrow, fun hstop => ?_, fun hstop => ?_⟩
    · intro a' b' d' hid' _
      rw [hid] at hid'
      cases hid'
      exact ⟨hb, of_decide_eq_false hstop⟩
    · rw [← of_decide_eq_true hstop]
      exact hb
  · rw [if_neg hcap]
    refine ⟨_, _, rfl, h, Grows.refl s, fun _ a' b' d' _ hpos => absurd hpos hcap, ?_⟩
    intro hstop
    cases hstop

/-- Every residual edge which extends from a node is done. -/
def NodeDone (g : Graph) (r : ResidualGraph) (sink : ℕ) (pathBack : ℕ → Option (ℕ × ℤ))
    (n : ℕ) : Prop :=
  ∀ id b d, g.endpoints id = some (n, b, d) → EdgeDone g r sink pathBack id

theorem NodeDone.mono {n : ℕ} (h : NodeDone g r sink s.pathBack n) (hgrow : Grows s t) :
    NodeDone g r sink t.pathBack n :=
  fun id b d hid => (h id b d hid).mono hgrow

include hvalid in
/-- The loop body over the frontier. -/
theorem visitNode_spec (h : Known g r source s.pathBack) {n : ℕ} (hn : Visited source s.pathBack n)
    (hlt : n < g.nodeCount) :
    ∃ t stop, visitNode r sink s n = some (t, stop) ∧ Known g r source t.pathBack ∧ Grows s t ∧
      (stop = false → NodeDone g r sink t.pathBack n) ∧
      (stop = true → t.pathBack sink ≠ none) := by
  obtain ⟨l, hl, hmem⟩ := hvalid.successors n hlt
  have hstep : ∀ id ∈ l, ∀ u : Search, Known g r source u.pathBack ∧ Visited source u.pathBack n →
      ∃ t stop, visitEdge r sink u id = some (t, stop) ∧
        (Known g r source t.pathBack ∧ Visited source t.pathBack n) ∧ Grows u t ∧
        (stop = false → EdgeDone g r sink t.pathBack id) ∧
        (stop = true → t.pathBack sink ≠ none) := by
    rintro id hid u ⟨hknown, hu⟩
    obtain ⟨b, d, hends⟩ := (hmem id).mp hid
    obtain ⟨t, stop, hcall, hknown', hgrow, hdone, hstop⟩ := visitEdge_spec hvalid hknown hends hu
    exact ⟨t, stop, hcall, ⟨hknown', hu.mono hgrow⟩, hgrow, hdone, hstop⟩
  obtain ⟨t, stop, hvisit, ⟨hknown, -⟩, hgrow, hdone, hstop⟩ :=
    @Visit.exists_visit_of_step _ _ (visitEdge r sink)
      (fun u => Known g r source u.pathBack ∧ Visited source u.pathBack n) Grows
      (fun id u => EdgeDone g r sink u.pathBack id) (fun u => u.pathBack sink ≠ none)
      Grows.refl Grows.trans EdgeDone.mono l hstep s ⟨h, hn⟩
  refine ⟨t, stop, ?_, hknown, hgrow, fun hfalse id b d hid => ?_, hstop⟩
  · unfold visitNode
    rw [hl]
    exact hvisit
  · exact hdone hfalse id ((hmem id).mpr ⟨b, d, hid⟩)

/-- The nodes which the search has not found. -/
def unfound (g : Graph) (pathBack : ℕ → Option (ℕ × ℤ)) : Finset ℕ :=
  (Finset.range g.nodeCount).filter (pathBack · = none)

/-- A search which finds a node leaves fewer. -/
theorem card_unfound_lt {source : ℕ} (hgrow : Grows s t) (hknown : Known g r source t.pathBack)
    (hs : s.nextFrontier = []) (ht : t.nextFrontier ≠ []) :
    (unfound g t.pathBack).card < (unfound g s.pathBack).card := by
  obtain ⟨new, hnext, hfresh, hmem⟩ := hgrow.2
  rw [hs] at hnext
  obtain ⟨n, hn⟩ := List.exists_mem_of_ne_nil _ ht
  rw [hnext] at hn
  have hfound : t.pathBack n ≠ none := (hmem n).mpr (.inr hn)
  apply Finset.card_lt_card
  constructor
  · intro v hv
    obtain ⟨hlt, hnone⟩ := Finset.mem_filter.mp hv
    refine Finset.mem_filter.mpr ⟨hlt, ?_⟩
    by_contra hne
    exact hgrow.ne_none hne hnone
  · intro hsub
    have hin : n ∈ unfound g s.pathBack :=
      Finset.mem_filter.mpr ⟨Finset.mem_range.mpr (hknown.lt hfound), hfresh n hn⟩
    exact hfound (Finset.mem_filter.mp (hsub hin)).2

include hvalid in
/-- The search ends; it finds the sink, or nothing leads on from what it found. -/
theorem searchPath_spec {fuel : ℕ} :
    ∀ {frontier : List ℕ} {pathBack : ℕ → Option (ℕ × ℤ)}, Known g r source pathBack →
      (∀ n ∈ frontier, Visited source pathBack n ∧ n < g.nodeCount) →
      (∀ n, Visited source pathBack n → n ∈ frontier ∨ NodeDone g r sink pathBack n) →
      (unfound g pathBack).card < fuel →
      ∃ pathBack' found, searchPath r sink fuel frontier pathBack = some (pathBack', found) ∧
        Known g r source pathBack' ∧ (found = true → pathBack' sink ≠ none) ∧
        (found = false → ∀ n, Visited source pathBack' n → NodeDone g r sink pathBack' n) := by
  induction fuel with
  | zero => intro _ _ _ _ _ hfuel; exact absurd hfuel (Nat.not_lt_zero _)
  | succ fuel ih =>
    intro frontier pathBack hknown hfrontier hdone hfuel
    rcases frontier with _ | ⟨n, frontier⟩
    · refine ⟨pathBack, false, rfl, hknown, (fun h => by cases h), fun _ n hn => ?_⟩
      exact (hdone n hn).resolve_left List.not_mem_nil
    · have hstep : ∀ v ∈ n :: frontier, ∀ u : Search,
          Known g r source u.pathBack ∧ (∀ w ∈ n :: frontier, Visited source u.pathBack w) →
          ∃ t stop, visitNode r sink u v = some (t, stop) ∧ (Known g r source t.pathBack ∧
              ∀ w ∈ n :: frontier, Visited source t.pathBack w) ∧ Grows u t ∧
            (stop = false → NodeDone g r sink t.pathBack v) ∧
            (stop = true → t.pathBack sink ≠ none) := by
        rintro v hv u ⟨hu, hvisited⟩
        obtain ⟨t, stop, hcall, ht, hgrow, hnode, hstop⟩ :=
          visitNode_spec hvalid hu (hvisited v hv) (hfrontier v hv).2
        exact ⟨t, stop, hcall, ⟨ht, fun w hw => (hvisited w hw).mono hgrow⟩, hgrow, hnode, hstop⟩
      obtain ⟨t, stop, hvisit, ⟨ht, -⟩, hgrow, hnodes, hstop⟩ :=
        @Visit.exists_visit_of_step _ _ (visitNode r sink)
          (fun u => Known g r source u.pathBack ∧ ∀ w ∈ n :: frontier, Visited source u.pathBack w)
          Grows (fun v u => NodeDone g r sink u.pathBack v) (fun u => u.pathBack sink ≠ none)
          Grows.refl Grows.trans NodeDone.mono (n :: frontier) hstep ⟨pathBack, []⟩
          ⟨hknown, fun w hw => (hfrontier w hw).1⟩
      rw [searchPath]
      simp only [hvisit, Option.bind_eq_bind, Option.bind_some]
      cases stop with
      | true =>
        exact ⟨_, _, rfl, ht, fun _ => hstop rfl, fun h => by cases h⟩
      | false =>
        obtain ⟨new, hnext, hfresh, hmem⟩ := hgrow.2
        rw [List.nil_append] at hnext
        -- the nodes found before are done, and the others are the next frontier
        have hdone' : ∀ v, Visited source t.pathBack v →
            v ∈ t.nextFrontier ∨ NodeDone g r sink t.pathBack v := by
          have hold : ∀ v, Visited source pathBack v → NodeDone g r sink t.pathBack v := by
            intro v hv
            rcases hdone v hv with hv | hv
            · exact hnodes rfl v hv
            · exact NodeDone.mono (s := ⟨pathBack, []⟩) hv hgrow
          rintro v (rfl | hv)
          · exact .inr (hold v (.inl rfl))
          · rcases (hmem v).mp hv with hv | hv
            · exact .inr (hold v (.inr hv))
            · exact .inl (hnext ▸ hv)
        by_cases hnil : t.nextFrontier = []
        · rw [hnil, searchPath]
          refine ⟨_, _, rfl, ht, (fun h => by cases h), fun _ v hv => ?_⟩
          have hv' := hdone' v hv
          rw [hnil] at hv'
          exact hv'.resolve_left List.not_mem_nil
        · apply ih ht ?_ hdone' ?_
          · intro v hv
            have hfound : t.pathBack v ≠ none := (hmem v).mpr (.inr (hnext ▸ hv))
            exact ⟨.inr hfound, ht.lt hfound⟩
          · have := card_unfound_lt hgrow ht rfl hnil
            exact Nat.lt_of_lt_of_le this (Nat.lt_succ_iff.mp hfuel)

/-! ## Augmentations -/

/-- No residual edge with room leads out of a set of nodes. -/
def Closed (g : Graph) (r : ResidualGraph) (C : Set ℕ) : Prop :=
  ∀ id a b d, g.endpoints id = some (a, b, d) → 0 < r.cap id → a ∈ C → b ∈ C

/-- The flow out of the source. -/
def value (g : Graph) (source : ℕ) (r : ResidualGraph) : ℤ :=
  netOutflow g.arcs g.tail g.head (flow g r) source

include hvalid in
/-- `AugmentFlow` adds to the flow, or there is a closed set between the source and the sink. -/
theorem augmentFlow_spec (hne : source ≠ sink) (hsource : source < g.nodeCount) :
    ∃ amount r', augmentFlow g source sink r = some (amount, r') ∧ Valid g source sink r' ∧
      ((0 < amount ∧ value g source r' = value g source r + amount) ∨
        (amount = 0 ∧ ∃ C : Set ℕ, Closed g r' C ∧ source ∈ C ∧ sink ∉ C)) := by
  have hknown : Known g r source (fun _ => none) :=
    ⟨(fun h => by cases h), fun h => absurd rfl h, fun h => by cases h⟩
  have hfuel : (unfound g fun _ => none).card < g.nodeCount + 1 := by
    have := Finset.card_filter_le (Finset.range g.nodeCount)
      (fun n => ((fun _ => none : ℕ → Option (ℕ × ℤ)) n) = none)
    rw [Finset.card_range] at this
    exact Nat.lt_succ_of_le this
  have hfrontier : ∀ n ∈ [source],
      Visited source (fun _ => none : ℕ → Option (ℕ × ℤ)) n ∧ n < g.nodeCount := by
    intro n hn
    rw [List.mem_singleton.mp hn]
    exact ⟨.inl rfl, hsource⟩
  have hstart : ∀ n, Visited source (fun _ => none) n →
      n ∈ [source] ∨ NodeDone g r sink (fun _ => none) n := by
    rintro n (rfl | hn)
    · exact .inl (List.mem_singleton_self n)
    · exact absurd rfl hn
  obtain ⟨pathBack, found, hsearch, hknown', hfound, hdone⟩ :=
    searchPath_spec hvalid hknown hfrontier hstart hfuel
  unfold augmentFlow
  simp only [hsearch, Option.bind_eq_bind, Option.bind_some]
  cases found with
  | true =>
    obtain ⟨⟨id, amount⟩, hback⟩ := Option.ne_none_iff_exists'.mp (hfound rfl)
    have hpos := hknown'.pos hback
    obtain ⟨nodes, htrail, hnodup, -⟩ := hknown'.trail hback hne.symm
    have hlength : nodes.length ≤ g.nodeCount := by
      have hsub : nodes ⊆ List.range g.nodeCount :=
        fun v hv => List.mem_range.mpr (htrail.node_lt v hv)
      have := (hnodup.subperm hsub).length_le
      rwa [List.length_range] at this
    obtain ⟨r', hpush, hshape, hnonneg, hadd, hnet⟩ :=
      pushBack_spec hpos.le hvalid.toShape hvalid.cap_nonneg htrail hnodup hlength
    refine ⟨amount, r', ?_, ⟨hshape, hnonneg, ?_, ?_⟩, .inl ⟨hpos, ?_⟩⟩
    · rw [if_pos rfl]
      simp only [hback, Option.bind_some, if_pos hpos, hpush]
    · intro i hi
      rw [hadd i hi, hvalid.cap_add i hi]
    · intro v hvs hvt
      rw [hnet v, hvalid.conserved v hvs hvt, if_neg (Ne.symm hvs), if_neg (Ne.symm hvt)]
      ring
    · show netOutflow _ _ _ _ _ = netOutflow _ _ _ _ _ + _
      rw [hnet source, if_pos rfl, if_neg hne.symm]
      ring
  | false =>
    refine ⟨0, r, rfl, hvalid, .inr ⟨rfl, {n | Visited source pathBack n ∧ n ≠ sink}, ?_,
      ⟨.inl rfl, hne⟩, fun h => h.2 rfl⟩⟩
    rintro id a b d hid hcap ⟨ha, -⟩
    obtain ⟨hb, hbs⟩ := hdone rfl a ha id b d hid a b d hid hcap
    exact ⟨.inr hb, hbs⟩

/-- A sum over the edges is one over their ids. -/
theorem sum_edges (g : Graph) (F : ℕ → ℕ → ℤ → ℤ) :
    (g.edges.map fun e => F e.fromNode e.toNode e.weight).sum =
      ∑ i ∈ g.arcs, F (g.tail i) (g.head i) (g.weight i) := by
  have hmap : (g.edges.map fun e => F e.fromNode e.toNode e.weight) =
      (List.range g.edgeCount).map fun i => F (g.tail i) (g.head i) (g.weight i) := by
    apply List.ext_getElem?
    intro i
    rw [List.getElem?_map, List.getElem?_map]
    by_cases hi : i < g.edgeCount
    · obtain ⟨e, he, htail, hhead, hw⟩ := g.getElem?_edges hi
      rw [he, List.getElem?_range hi, Option.map_some, Option.map_some, htail, hhead, hw]
    · rw [List.getElem?_eq_none (Nat.le_of_not_lt hi),
        List.getElem?_eq_none (by rw [List.length_range]; exact Nat.le_of_not_lt hi)]
      rfl
  rw [hmap, ← List.sum_toFinset _ List.nodup_range]
  apply Finset.sum_congr _ fun _ _ => rfl
  ext i
  rw [Graph.arcs, Finset.mem_range, List.mem_toFinset, List.mem_range]

include hvalid in
/-- The flow is not greater than all weights together. -/
theorem Valid.value_le (hne : source ≠ sink) (hweight : ∀ e ∈ g.edges, 0 ≤ e.weight) :
    value g source r ≤ (g.edges.map Edge.weight).sum := by
  calc value g source r
      ≤ cutWeight g.arcs g.tail g.head g.weight {source} :=
        hvalid.isFlow.value_le (Finset.mem_singleton_self source) fun h =>
          hne (Finset.mem_singleton.mp h).symm
    _ ≤ ∑ i ∈ g.arcs, g.weight i := by
        apply Finset.sum_le_sum_of_subset_of_nonneg (Finset.filter_subset _ _)
        intro i hi _
        obtain ⟨e, he, -, -, hw⟩ := g.getElem?_edges (Finset.mem_range.mp hi)
        rw [← hw]
        exact hweight e (List.mem_of_getElem? he)
    _ = (g.edges.map Edge.weight).sum := (sum_edges g fun _ _ w => w).symm

/-- The augmentations end with a closed set between the source and the sink. -/
theorem maximizeFlow_spec {source : ℕ} (hweight : ∀ e ∈ g.edges, 0 ≤ e.weight) (hne : source ≠ sink)
    (hsource : source < g.nodeCount) {fuel : ℕ} :
    ∀ {r : ResidualGraph}, Valid g source sink r →
      (g.edges.map Edge.weight).sum - value g source r < fuel →
      ∃ r', maximizeFlow g source sink fuel r = some r' ∧ Valid g source sink r' ∧
        ∃ C : Set ℕ, Closed g r' C ∧ source ∈ C ∧ sink ∉ C := by
  induction fuel with
  | zero =>
    intro r hvalid hfuel
    have := hvalid.value_le hne hweight
    omega
  | succ fuel ih =>
    intro r hvalid hfuel
    obtain ⟨amount, r₁, hcall, hvalid₁, ⟨hpos, hval⟩ | ⟨rfl, C, hC⟩⟩ :=
      augmentFlow_spec hvalid hne hsource
    · obtain ⟨r', hloop, hrest⟩ := ih hvalid₁ (by omega)
      refine ⟨r', ?_, hrest⟩
      simp only [maximizeFlow, hcall, Option.bind_eq_bind, Option.bind_some, if_pos hpos, hloop]
    · refine ⟨r₁, ?_, hvalid₁, C, hC⟩
      simp only [maximizeFlow, hcall, Option.bind_eq_bind, Option.bind_some, lt_irrefl, if_false]

/-! ## The walk from the source -/

/-- The loop over the edges which extend from a node adds what they lead to. -/
theorem foldlM_reachEdge (hshape : Shape g r) {n : ℕ} {ids : List ℕ} :
    (∀ id ∈ ids, ∃ b d, g.endpoints id = some (n, b, d)) → ∀ (seen frontier : List ℕ), seen.Nodup →
      ∃ new, ids.foldlM (reachEdge r) (seen, frontier) = some (seen ++ new, frontier ++ new) ∧
        (seen ++ new).Nodup ∧
        (∀ v ∈ new, ∃ id d, g.endpoints id = some (n, v, d) ∧ 0 < r.cap id) ∧
        ∀ id ∈ ids, ∀ b d, g.endpoints id = some (n, b, d) → 0 < r.cap id → b ∈ seen ++ new := by
  induction ids with
  | nil =>
    intro _ seen frontier hnodup
    refine ⟨[], ?_, ?_, by simp, by simp⟩
    · rw [List.append_nil, List.append_nil]
      rfl
    · rwa [List.append_nil]
  | cons id ids ih =>
    intro hids seen frontier hnodup
    obtain ⟨b, d, hid⟩ := hids id List.mem_cons_self
    have hrest := fun id' h => hids id' (List.mem_cons_of_mem id h)
    have hedge := hshape.getElem? hid
    by_cases hnew : 0 < r.cap id ∧ b ∉ seen
    · have hcall : reachEdge r (seen, frontier) id = some (seen ++ [b], frontier ++ [b]) := by
        simp only [reachEdge, hedge, Option.bind_eq_bind, Option.bind_some, if_pos hnew]
      have hnodup' : (seen ++ [b]).Nodup := by
        rw [List.nodup_append]
        refine ⟨hnodup, List.nodup_singleton b, ?_⟩
        rintro v hv w hw rfl
        rw [List.mem_singleton.mp hw] at hv
        exact hnew.2 hv
      obtain ⟨new, hfold, hnodupNew, hsound, hall⟩ :=
        ih hrest (seen ++ [b]) (frontier ++ [b]) hnodup'
      refine ⟨b :: new, ?_, ?_, fun v hv => ?_, fun id' hid' b' d' hends hcap => ?_⟩
      · rw [List.foldlM_cons, hcall]
        simpa using hfold
      · simpa using hnodupNew
      · rcases List.mem_cons.mp hv with rfl | hv
        · exact ⟨id, d, hid, hnew.1⟩
        · exact hsound v hv
      · rcases List.mem_cons.mp hid' with rfl | hid'
        · rw [hid] at hends
          cases hends
          simp
        · simpa using hall id' hid' b' d' hends hcap
    · have hcall : reachEdge r (seen, frontier) id = some (seen, frontier) := by
        simp only [reachEdge, hedge, Option.bind_eq_bind, Option.bind_some, if_neg hnew]
      obtain ⟨new, hfold, hnodupNew, hsound, hall⟩ := ih hrest seen frontier hnodup
      refine ⟨new, ?_, hnodupNew, hsound, fun id' hid' b' d' hends hcap => ?_⟩
      · rw [List.foldlM_cons, hcall]
        exact hfold
      · rcases List.mem_cons.mp hid' with rfl | hid'
        · rw [hid] at hends
          cases hends
          have hb : b ∈ seen := by
            by_contra hb
            exact hnew ⟨hcap, hb⟩
          exact List.mem_append_left _ hb
        · exact hall id' hid' b' d' hends hcap

/-- The walk ends with a closed set of nodes, within every closed set that it started in. -/
theorem reachFrom_spec (hshape : Shape g r) {C : Set ℕ} (hC : Closed g r C) {fuel : ℕ} :
    ∀ {seen frontier : List ℕ}, seen.Nodup → (∀ v ∈ seen, v < g.nodeCount ∧ v ∈ C) →
      (∀ v ∈ frontier, v ∈ seen) →
      (∀ v ∈ seen, v ∉ frontier → ∀ id b d, g.endpoints id = some (v, b, d) → 0 < r.cap id →
        b ∈ seen) →
      g.nodeCount + frontier.length ≤ fuel + seen.length →
      ∃ reachable, reachFrom r fuel seen frontier = some reachable ∧
        (∀ v ∈ seen, v ∈ reachable) ∧ (∀ v ∈ reachable, v < g.nodeCount ∧ v ∈ C) ∧
        Closed g r {v | v ∈ reachable} := by
  induction fuel with
  | zero =>
    intro seen frontier hnodup hseen _ hdone hfuel
    have hlength : seen.length ≤ g.nodeCount := by
      have hsub : seen ⊆ List.range g.nodeCount := fun v hv => List.mem_range.mpr (hseen v hv).1
      have := (hnodup.subperm hsub).length_le
      rwa [List.length_range] at this
    obtain rfl : frontier = [] := List.eq_nil_of_length_eq_zero (by omega)
    exact ⟨seen, rfl, fun v hv => hv, hseen, fun id a b d hid hcap ha =>
      hdone a ha List.not_mem_nil id b d hid hcap⟩
  | succ fuel ih =>
    intro seen frontier hnodup hseen hfrontier hdone hfuel
    rcases frontier with _ | ⟨n, frontier⟩
    · exact ⟨seen, rfl, fun v hv => hv, hseen, fun id a b d hid hcap ha =>
        hdone a ha List.not_mem_nil id b d hid hcap⟩
    · obtain ⟨hlt, hnC⟩ := hseen n (hfrontier n List.mem_cons_self)
      obtain ⟨ids, hids, hmem⟩ := hshape.successors n hlt
      obtain ⟨new, hfold, hnodup', hsound, hall⟩ :=
        foldlM_reachEdge hshape (fun id => (hmem id).mp) seen frontier hnodup
      have hseen' : ∀ v ∈ seen ++ new, v < g.nodeCount ∧ v ∈ C := by
        intro v hv
        rcases List.mem_append.mp hv with hv | hv
        · exact hseen v hv
        · obtain ⟨id, d, hid, hcap⟩ := hsound v hv
          exact ⟨(Graph.endpoints_lt hid).2, hC id n v d hid hcap hnC⟩
      have hfrontier' : ∀ v ∈ frontier ++ new, v ∈ seen ++ new := by
        intro v hv
        rcases List.mem_append.mp hv with hv | hv
        · exact List.mem_append_left _ (hfrontier v (List.mem_cons_of_mem _ hv))
        · exact List.mem_append_right _ hv
      have hdone' : ∀ v ∈ seen ++ new, v ∉ frontier ++ new → ∀ id b d,
          g.endpoints id = some (v, b, d) → 0 < r.cap id → b ∈ seen ++ new := by
        intro v hv hnot id b d hid hcap
        rw [List.mem_append, not_or] at hnot
        have hvseen : v ∈ seen := (List.mem_append.mp hv).resolve_right hnot.2
        by_cases hvn : v = n
        · subst hvn
          exact hall id ((hmem id).mpr ⟨b, d, hid⟩) b d hid hcap
        · apply List.mem_append_left
          apply hdone v hvseen ?_ id b d hid hcap
          intro h
          rcases List.mem_cons.mp h with h | h
          · exact hvn h
          · exact hnot.1 h
      obtain ⟨reachable, hcall, hsub, hbound, hclosed⟩ := ih hnodup' hseen' hfrontier' hdone'
        (by simp only [List.length_append, List.length_cons] at hfuel ⊢; omega)
      refine ⟨reachable, ?_, fun v hv => hsub v (List.mem_append_left _ hv), hbound, hclosed⟩
      simp only [reachFrom, hids, Option.bind_eq_bind, Option.bind_some, hfold, hcall]

/-! ## The extraction of the cut -/

/-- What an edge adds to the weight of the cut. -/
def outWeight (g : Graph) (side : List ℕ) (i : ℕ) : ℤ :=
  if g.tail i ∈ side ∧ g.head i ∉ side then g.weight i else 0

/-- What the edges which extend from a node add to the weight of the cut. -/
def nodeWeight (g : Graph) (side : List ℕ) (n : ℕ) : ℤ :=
  ∑ i ∈ g.arcs with g.tail i = n, outWeight g side i

theorem foldlM_addWeight {side ids : List ℕ} : (∀ i ∈ ids, i < g.edgeCount) → ∀ w : ℤ,
      ids.foldlM (addWeight g side) w = some (w + (ids.map (outWeight g side)).sum) := by
  induction ids with
  | nil => intro _ w; rw [List.map_nil, List.sum_nil, add_zero]; rfl
  | cons i ids ih =>
    intro hids w
    obtain ⟨e, he, htail, hhead, hw⟩ := g.getElem?_edges (hids i List.mem_cons_self)
    have hcall : addWeight g side w i = some (w + outWeight g side i) := by
      simp only [addWeight, he, Option.bind_eq_bind, Option.bind_some, outWeight, htail, hhead, hw]
      split_ifs
      · rfl
      · rw [add_zero]
    rw [List.foldlM_cons, hcall, List.map_cons, List.sum_cons, ← add_assoc]
    exact ih (fun j hj => hids j (List.mem_cons_of_mem i hj)) _

/-- The edges which extend from a node, as the graph lists them. -/
theorem exists_successors (g : Graph) {n : ℕ} (hn : n < g.nodeCount) :
    ∃ ids, g.successors[n]? = some ids ∧ (∀ i ∈ ids, i < g.edgeCount) ∧
      ∀ side, (ids.map (outWeight g side)).sum = nodeWeight g side n := by
  have hids : g.successors[n]? = some g.successors[n] := List.getElem?_eq_getElem hn
  have hlt : ∀ i ∈ g.successors[n], i < g.edgeCount := by
    intro i hi
    obtain ⟨e, he, -⟩ := (g.mem_successors hids).mp hi
    exact (List.getElem?_eq_some_iff.mp he).1
  refine ⟨_, hids, hlt, fun side => ?_⟩
  rw [← List.sum_toFinset _ (g.nodup hids)]
  apply Finset.sum_congr _ fun _ _ => rfl
  ext i
  rw [List.mem_toFinset, Finset.mem_filter, Graph.arcs, Finset.mem_range, g.mem_successors hids]
  constructor
  · rintro ⟨e, he, hn⟩
    obtain ⟨hi, -⟩ := List.getElem?_eq_some_iff.mp he
    obtain ⟨e', he', htail, -⟩ := g.getElem?_edges hi
    rw [he] at he'
    cases he'
    exact ⟨hi, htail.symm.trans hn⟩
  · rintro ⟨hi, htail⟩
    obtain ⟨e, he, hfrom, -⟩ := g.getElem?_edges hi
    exact ⟨e, he, hfrom.trans htail⟩

/-- The loop over the nodes. -/
theorem foldlM_extractNode {side nodes : List ℕ} :
    (∀ n ∈ nodes, n < g.nodeCount) → ∀ cut : GraphCut, nodes.foldlM (extractNode g side) cut =
        some ⟨cut.weight + (nodes.map (nodeWeight g side)).sum,
          cut.sourcePartition ++ nodes.filter (· ∈ side),
          cut.sinkPartition ++ nodes.filter (· ∉ side)⟩ := by
  induction nodes with
  | nil =>
    intro _ cut
    simp only [List.map_nil, List.sum_nil, add_zero, List.filter_nil, List.append_nil]
    rfl
  | cons n nodes ih =>
    intro hnodes cut
    obtain ⟨ids, hids, hlt, hsum⟩ := exists_successors g (hnodes n List.mem_cons_self)
    have hrest := fun m hm => hnodes m (List.mem_cons_of_mem n hm)
    rw [List.foldlM_cons]
    by_cases hn : n ∈ side
    · have hcall : extractNode g side cut n = some ⟨cut.weight + nodeWeight g side n,
          cut.sourcePartition ++ [n], cut.sinkPartition⟩ := by
        simp only [extractNode, if_pos hn, hids, Option.bind_eq_bind, Option.bind_some,
          foldlM_addWeight hlt, hsum]
      rw [hcall, Option.bind_eq_bind, Option.bind_some, ih hrest]
      simp [hn, add_assoc]
    · have hcall : extractNode g side cut n = some ⟨cut.weight + nodeWeight g side n,
          cut.sourcePartition, cut.sinkPartition ++ [n]⟩ := by
        simp only [extractNode, if_neg hn, hids, Option.bind_eq_bind, Option.bind_some,
          foldlM_addWeight hlt, hsum]
      rw [hcall, Option.bind_eq_bind, Option.bind_some, ih hrest]
      simp [hn, add_assoc]

/-- Every edge extends from one node. -/
theorem sum_nodeWeight (g : Graph) (side : List ℕ) :
    ((List.range g.nodeCount).map (nodeWeight g side)).sum = ∑ i ∈ g.arcs, outWeight g side i := by
  rw [← List.sum_toFinset _ List.nodup_range]
  apply Finset.sum_fiberwise_of_maps_to
  intro i hi
  rw [List.mem_toFinset, List.mem_range]
  exact Graph.tail_lt (Finset.mem_range.mp hi)

/-! ## Minimum cuts -/

/-- The weights of the edges which lead out of a set of nodes. -/
def weightOut (g : Graph) (side : List ℕ) : ℤ :=
  (g.edges.map fun e => if e.fromNode ∈ side ∧ e.toNode ∉ side then e.weight else 0).sum

/-- Two sides of the graph, one with the source and one with the sink. -/
structure IsCut (g : Graph) (source sink : ℕ) (left right : List ℕ) : Prop where
  perm : (left ++ right).Perm (List.range g.nodeCount)
  source_mem : source ∈ left
  sink_mem : sink ∈ right

theorem IsCut.sink_not_mem {source : ℕ} {left right : List ℕ} (h : IsCut g source sink left right) :
    sink ∉ left := by
  have hnodup := h.perm.nodup_iff.mpr List.nodup_range
  intro hleft
  exact List.disjoint_of_nodup_append hnodup hleft h.sink_mem

theorem weightOut_eq (g : Graph) (side : List ℕ) :
    weightOut g side = cutWeight g.arcs g.tail g.head g.weight side.toFinset := by
  rw [cutWeight_eq, weightOut, sum_edges g fun a b w => if a ∈ side ∧ b ∉ side then w else 0]
  simp only [List.mem_toFinset]

include hvalid in
/-- The flow fills the edges out of a closed set, and there is none on those into it. -/
theorem Valid.cutWeight_le {S T : Finset ℕ} (hclosed : Closed g r {v | v ∈ S}) (hs : source ∈ S)
    (ht : sink ∉ S) (hsT : source ∈ T) (htT : sink ∉ T) :
    cutWeight g.arcs g.tail g.head g.weight S ≤ cutWeight g.arcs g.tail g.head g.weight T := by
  -- no residual edge out of the set has room
  have hfull : ∀ id a b d, g.endpoints id = some (a, b, d) → a ∈ S → b ∉ S → r.cap id = 0 := by
    intro id a b d hid ha hb
    apply le_antisymm ?_ (hvalid.cap_nonneg id)
    by_contra hpos
    exact hb (hclosed id a b d hid (not_le.mp hpos) ha)
  apply hvalid.isFlow.cut_minimal hs ht ?_ ?_ hsT htT
  · intro i hi htail hhead
    have hi := Finset.mem_range.mp hi
    have hadd := hvalid.cap_add i hi
    rw [hfull i _ _ _ (Graph.endpoints_forward hi) htail hhead, zero_add] at hadd
    exact hadd
  · intro i hi htail hhead
    have hi := Finset.mem_range.mp hi
    exact hfull _ _ _ _ (Graph.endpoints_backward hi) hhead htail

/-- `MinCutBetweenNodes` finds a minimum cut: its sides part the nodes, its weight is that of
the edges which lead out of the side of the source, and no cut has a smaller weight. -/
theorem minCut_minimum (g : Graph) (hweight : ∀ e ∈ g.edges, 0 ≤ e.weight) (source sink : ℕ)
    (hsource : source < g.nodeCount) (hsink : sink < g.nodeCount) (hne : source ≠ sink) :
    ∃ cut, minCutBetweenNodes g source sink = some cut ∧
      IsCut g source sink cut.sourcePartition cut.sinkPartition ∧
      cut.weight = weightOut g cut.sourcePartition ∧
      ∀ left right, IsCut g source sink left right → cut.weight ≤ weightOut g left := by
  have hfuel : (g.edges.map Edge.weight).sum - value g source (.ofGraph g) < augmentations g := by
    have hvalue : 0 = value g source (.ofGraph g) := by
      unfold value netOutflow
      symm
      apply Finset.sum_eq_zero
      intro i hi
      rw [flow, ResidualGraph.cap, getElem?_ofGraph_backward (Finset.mem_range.mp hi)]
      exact zero_mul _
    rw [← hvalue, augmentations]
    push_cast
    have := Int.self_le_toNat (g.edges.map Edge.weight).sum
    omega
  obtain ⟨r, hloop, hvalid, C, hC, hsC, htC⟩ :=
    maximizeFlow_spec hweight hne hsource (ofGraph_valid hweight) hfuel
  obtain ⟨side, hreach, hstart, hside, hclosed⟩ :=
    reachFrom_spec hvalid.toShape hC (List.nodup_singleton source)
      (by intro v hv; rw [List.mem_singleton.mp hv]; exact ⟨hsource, hsC⟩)
      (fun v hv => hv) (fun v hv hnot => absurd hv hnot) (le_refl (g.nodeCount + 1))
  have hs : source ∈ side := hstart source (List.mem_singleton_self source)
  have ht : sink ∉ side := fun h => htC (hside sink h).2
  have hmem : ∀ v, v ∈ (List.range g.nodeCount).filter (· ∈ side) ↔ v ∈ side := by
    intro v
    rw [List.mem_filter, List.mem_range, decide_eq_true_iff]
    exact ⟨fun h => h.2, fun h => ⟨(hside v h).1, h⟩⟩
  refine ⟨⟨((List.range g.nodeCount).map (nodeWeight g side)).sum,
    (List.range g.nodeCount).filter (· ∈ side), (List.range g.nodeCount).filter (· ∉ side)⟩,
    ?_, ⟨?_, (hmem source).mpr hs, ?_⟩, ?_, fun left right hcut => ?_⟩
  · unfold minCutBetweenNodes
    simp only [hloop, Option.bind_eq_bind, Option.bind_some, hreach, if_neg ht]
    rw [foldlM_extractNode fun n hn => List.mem_range.mp hn]
    simp only [zero_add, List.nil_append]
  · have hperm := List.filter_append_perm (fun v => decide (v ∈ side)) (List.range g.nodeCount)
    simpa using hperm
  · exact List.mem_filter.mpr ⟨List.mem_range.mpr hsink, by simpa using ht⟩
  · show List.sum _ = weightOut g _
    rw [sum_nodeWeight, weightOut]
    simp only [hmem]
    exact (sum_edges g fun a b w => if a ∈ side ∧ b ∉ side then w else 0).symm
  · show List.sum _ ≤ _
    rw [sum_nodeWeight, weightOut_eq]
    have hweightOut : ∑ i ∈ g.arcs, outWeight g side i =
        cutWeight g.arcs g.tail g.head g.weight side.toFinset := by
      rw [cutWeight_eq]
      simp only [outWeight, List.mem_toFinset]
    rw [hweightOut]
    apply hvalid.cutWeight_le
    · simpa using hclosed
    · exact List.mem_toFinset.mpr hs
    · rw [List.mem_toFinset]
      exact ht
    · exact List.mem_toFinset.mpr hcut.source_mem
    · rw [List.mem_toFinset]
      exact hcut.sink_not_mem

/-- Two nodes with edges both ways, of which one is doubled, and a loop. -/
theorem minCut_minimum_two : ∃ g, ((((Graph.empty.addNode.addNode.addEdge 0 1 3).bind
      (·.addEdge 1 0 2)).bind (·.addEdge 0 1 1)).bind (·.addEdge 0 0 5)) = some g ∧
    ∃ cut, minCutBetweenNodes g 0 1 = some cut ∧ IsCut g 0 1 cut.sourcePartition cut.sinkPartition ∧
      cut.weight = weightOut g cut.sourcePartition ∧
      ∀ left right, IsCut g 0 1 left right → cut.weight ≤ weightOut g left :=
  ⟨_, rfl, minCut_minimum _ (by decide) 0 1 (by decide) (by decide) (by decide)⟩

end MinCut

end Xls
