/-
# Which cycles the feedback channels break

The channels which are returned are those of the operations to which an edge of the arrangement
goes back.  Such a receive may be reached from another operation of its proc, and such a send may
lead to one; then the cycle need not use the channel at all.

* `exists_lastLoop` : the channels in terms of the arrangement;
* `Package.EnclosesCycles` : the operations on the channels of a cycle contain a cycle;
* `breaks_of_enclosesCycles`, `exists_not_breaks` : this is exactly when the channels break every
  cycle, however the operations are arranged;
* `enclosesCycles_of_receives_first` : it is so where procs receive before they send.
-/
import Xls.Passes.ConnectivityGraph
import Xls.Passes.GreedyFas
import Xls.Lib.FeedbackArcs

namespace Xls
namespace FeedbackChannels

open Multimap FeedbackArcs Relation

namespace Package

variable (p : Package)

/-- The internal channel operations. -/
def channelOperations : Finset ℕ :=
  ((p.nodes.map Node.id).filter fun id => (p.internalChannel id).isSome).toFinset

/-- Every cycle of the connectivity graph uses the edge from a send to a receive of one of the
channels. -/
def Breaks (feedback : ℕ → Prop) : Prop :=
  ∀ x, ¬ TransGen (fun a b => p.Connected a b ∧ ¬ ∃ c, feedback c ∧ p.SendReceive c a b) x x

/-- An operation on one of the channels. -/
def On (K : Set ℕ) (v : ℕ) : Prop := ∃ c ∈ K, p.internalChannel v = some c

/-- Where a cycle uses no channels but those in `K`, the operations on channels in `K` contain a
cycle. -/
def EnclosesCycles : Prop :=
  ∀ K : Set ℕ, ¬ p.Breaks (· ∉ K) →
    ∃ x, TransGen (fun a b => p.Connected a b ∧ p.On K a ∧ p.On K b) x x

end Package

variable {p : Package}

theorem mem_channelOperations {v : ℕ} :
    v ∈ p.channelOperations ↔ (p.internalChannel v).isSome = true := by
  rw [Package.channelOperations, List.mem_toFinset, List.mem_filter, List.mem_map]
  refine ⟨And.right, fun hv => ⟨?_, hv⟩⟩
  obtain ⟨c, hc⟩ := Option.isSome_iff_exists.mp hv
  obtain ⟨node, hnode, -⟩ := Option.bind_eq_some_iff.mp hc
  obtain ⟨hmem, hid⟩ := mem_of_node? hnode
  exact ⟨node, hmem, hid⟩

/-- Both ends of an edge are internal channel operations. -/
theorem Package.Connected.isSome {m k : ℕ} (h : p.Connected m k) :
    (p.internalChannel m).isSome = true ∧ (p.internalChannel k).isSome = true := by
  refine ⟨?_, h.1⟩
  rcases h.2 with hflows | ⟨c, hc, hsend, -⟩
  · exact hflows.isSome
  · rw [internalChannel_eq_some.mpr ⟨hc, .inl hsend⟩]
    rfl

theorem Represents.settled {graph : InterProcConnectivityGraph} (h : Represents p graph) :
    Settled p.channelOperations [] graph.predecessorEdges ∧
      Settled p.channelOperations [] graph.successorEdges := by
  refine ⟨⟨h.predecessors.keys_nodup, fun k => ?_⟩, ⟨h.successors.keys_nodup, fun k => ?_⟩⟩
  · rw [h.mem_predecessorKeys, mem_remaining, mem_channelOperations]
    simp
  · rw [h.mem_successorKeys, mem_remaining, mem_channelOperations]
    simp

/-! ## The last loop -/

/-- The channel of an internal channel operation. -/
theorem channelId_of_internalChannel {v c : ℕ} (h : p.internalChannel v = some c) :
    (p.node? v).bind (fun node => node.op.channelId) = some c := by
  obtain ⟨node, hnode, hc⟩ := Option.bind_eq_some_iff.mp h
  rw [hnode]
  exact (getInternalChannelId_eq_some.mp hc).1

theorem exists_foldlM_successors (seen : List ℕ) (vs : List ℕ) :
    ∀ result : List ℕ, (∀ v ∈ vs, (p.internalChannel v).isSome = true) →
      ∃ result', vs.foldlM (fun result successor =>
          ((p.node? successor).bind fun node => node.op.channelId).map fun channelId =>
            if successor ∈ seen then result ++ [channelId] else result) result = some result' ∧
        ∀ c, c ∈ result' ↔ c ∈ result ∨ ∃ v ∈ vs, v ∈ seen ∧ p.internalChannel v = some c := by
  induction vs with
  | nil =>
    intro result _
    exact ⟨result, rfl, by simp⟩
  | cons v vs ih =>
    intro result hinternal
    obtain ⟨c, hc⟩ := Option.isSome_iff_exists.mp (hinternal v List.mem_cons_self)
    obtain ⟨result', hrun, hmem⟩ := ih (if v ∈ seen then result ++ [c] else result)
      fun w hw => hinternal w (List.mem_cons_of_mem _ hw)
    refine ⟨result', ?_, fun c' => ?_⟩
    · rw [List.foldlM_cons, channelId_of_internalChannel hc]
      exact hrun
    · rw [hmem, List.exists_mem_cons_iff, hc]
      split
      · rename_i hseen
        rw [List.mem_append, or_assoc]
        simp [hseen, eq_comm]
      · rename_i hseen
        simp [hseen]

/-- The channels of the successors which stand before a node. -/
theorem exists_foldlM_visitSuccessors {successors : StableEdgeMap}
    (hsucc : ∀ u, ∀ v ∈ find successors u, (p.internalChannel v).isSome = true) (l : List ℕ) :
    ∀ seen result : List ℕ, (∀ u ∈ l, (p.internalChannel u).isSome = true) →
      ∃ state, l.foldlM (p.visitSuccessors successors) (seen, result) = some state ∧
        ∀ c, c ∈ state.2 ↔ c ∈ result ∨ ∃ u v, v ∈ find successors u ∧
          ((v ∈ seen ∧ u ∈ l) ∨ Precedes l v u) ∧ p.internalChannel v = some c := by
  induction l with
  | nil =>
    intro seen result _
    refine ⟨(seen, result), rfl, fun c => ⟨.inl, ?_⟩⟩
    rintro (hc | ⟨u, v, -, ⟨-, hu⟩ | ⟨l₁, l₂, hl, -⟩, -⟩)
    · exact hc
    · cases hu
    · simp at hl
  | cons u l ih =>
    intro seen result hinternal
    obtain ⟨result₁, hrun₁, hmem₁⟩ := exists_foldlM_successors (u :: seen)
      (find successors u) result (hsucc u)
    obtain ⟨state, hrun, hmem⟩ := ih (u :: seen) result₁ fun w hw =>
      hinternal w (List.mem_cons_of_mem _ hw)
    refine ⟨state, ?_, fun c => ?_⟩
    · rw [List.foldlM_cons, Package.visitSuccessors, if_pos (hinternal u List.mem_cons_self)]
      simp only [hrun₁]
      exact hrun
    · rw [hmem, hmem₁, or_assoc]
      refine or_congr Iff.rfl ?_
      constructor
      · rintro (⟨v, hv, hseen, hc⟩ | ⟨w, v, hv, ⟨hseen, hw⟩ | hp, hc⟩)
        · rcases List.mem_cons.mp hseen with rfl | hseen
          · exact ⟨v, v, hv, .inr (precedes_cons.mpr (.inl ⟨rfl, List.mem_cons_self⟩)), hc⟩
          · exact ⟨u, v, hv, .inl ⟨hseen, List.mem_cons_self⟩, hc⟩
        · rcases List.mem_cons.mp hseen with rfl | hseen
          · exact ⟨w, v, hv, .inr (precedes_cons.mpr (.inl ⟨rfl, List.mem_cons_of_mem _ hw⟩)), hc⟩
          · exact ⟨w, v, hv, .inl ⟨hseen, List.mem_cons_of_mem _ hw⟩, hc⟩
        · exact ⟨w, v, hv, .inr (precedes_cons.mpr (.inr hp)), hc⟩
      · rintro ⟨w, v, hv, ⟨hseen, hw⟩ | hp, hc⟩
        · rcases List.mem_cons.mp hw with rfl | hw
          · exact .inl ⟨v, hv, List.mem_cons_of_mem _ hseen, hc⟩
          · exact .inr ⟨w, v, hv, .inl ⟨List.mem_cons_of_mem _ hseen, hw⟩, hc⟩
        · rcases precedes_cons.mp hp with ⟨rfl, hw⟩ | hp
          · rcases List.mem_cons.mp hw with rfl | hw
            · exact .inl ⟨w, hv, List.mem_cons_self, hc⟩
            · exact .inr ⟨w, v, hv, .inl ⟨List.mem_cons_self, hw⟩, hc⟩
          · exact .inr ⟨w, v, hv, .inr hp, hc⟩

/-- The channels which the last loop returns for an arrangement are those of the operations to
which an edge goes back. -/
theorem exists_lastLoop {graph : InterProcConnectivityGraph} (hrep : Represents p graph)
    {order : List ℕ} (horder : ∀ v, v ∈ order ↔ (p.internalChannel v).isSome = true) :
    ∃ state, order.foldlM (p.visitSuccessors graph.successorEdges) ([], []) = some state ∧
      ∀ c, c ∈ state.2 ↔
        ∃ u v, p.Connected u v ∧ Precedes order v u ∧ p.internalChannel v = some c := by
  obtain ⟨state, hrun, hmem⟩ := exists_foldlM_visitSuccessors
    (fun u v hv => ((hrep.mem_successors u v).mp hv).isSome.2) order [] []
    fun u hu => (horder u).mp hu
  refine ⟨state, hrun, fun c => ?_⟩
  rw [hmem]
  constructor
  · rintro (hc | ⟨u, v, hv, ⟨hseen, -⟩ | hp, hc⟩)
    · cases hc
    · cases hseen
    · exact ⟨u, v, (hrep.mem_successors u v).mp hv, hp, hc⟩
  · rintro ⟨u, v, hE, hp, hc⟩
    exact .inr ⟨u, v, (hrep.mem_successors u v).mpr hE, .inr hp, hc⟩

/-- The graph and the arrangement of a verified package, and the channels which are returned. -/
theorem minimalFeedbackArcs_spec (h : p.Verified) : ∃ graph arrangement result, Represents p graph ∧
      p.makeInterProcConnectivityGraph = some graph ∧ greedyFas graph = some arrangement ∧
      arrangement.Nodup ∧ (∀ v, v ∈ arrangement ↔ (p.internalChannel v).isSome = true) ∧
      p.minimalFeedbackArcs = some result ∧ ∀ c, c ∈ result ↔
        ∃ u v, p.Connected u v ∧ Precedes arrangement v u ∧ p.internalChannel v = some c := by
  obtain ⟨graph, hgraph, hrep⟩ := exists_makeInterProcConnectivityGraph h
  obtain ⟨arrangement, hrun, hnodup, hmem⟩ := exists_greedyFas hrep.settled.1 hrep.settled.2
  have hmem' : ∀ v, v ∈ arrangement ↔ (p.internalChannel v).isSome = true := fun v => by
    rw [hmem, mem_channelOperations]
  obtain ⟨state, hvisit, hresult⟩ := exists_lastLoop hrep hmem'
  refine ⟨graph, arrangement, state.2, hrep, hgraph, hrun, hnodup, hmem', ?_, hresult⟩
  rw [Package.minimalFeedbackArcs, hgraph]
  simp only [Option.bind_eq_bind, Option.bind_some, hrun, hvisit]
  rfl

/-! ## Which cycles are broken -/

theorem Package.Breaks.mono {feedback feedback' : ℕ → Prop} (h : p.Breaks feedback)
    (hsub : ∀ c, feedback c → feedback' c) : p.Breaks feedback' := by
  intro x hx
  refine h x (TransGen.mono (fun a b hab => ⟨hab.1, ?_⟩) _ _ hx)
  rintro ⟨c, hc, hsend⟩
  exact hab.2 ⟨c, hsub c hc, hsend⟩

section Arrangement

variable {order result : List ℕ} (hresult : ∀ c, c ∈ result ↔
    ∃ u v, p.Connected u v ∧ Precedes order v u ∧ p.internalChannel v = some c)
include hresult

/-- A cycle which is left would enclose one whose operations are all on other channels, but an
edge of that one goes back. -/
theorem breaks_of_enclosesCycles
    (horder : ∀ v, v ∈ order ↔ (p.internalChannel v).isSome = true) (h : p.EnclosesCycles) :
    p.Breaks (· ∈ result) := by
  by_contra hnot
  obtain ⟨x, hx⟩ := h {c | c ∉ result} fun hbreaks =>
    hnot (hbreaks.mono fun c hc => not_not.mp hc)
  obtain ⟨u, v, ⟨hE, -, c, hc, hv⟩, hp⟩ := exists_back_edge
    (fun u v huv => (horder u).mpr huv.1.isSome.1) hx
  exact hc ((hresult c).mpr ⟨u, v, hE, hp, hv⟩)

/-- Where the edges go back to operations outside `K` only, the channels in `K` stay. -/
theorem not_breaks_of_back_edges {K : Set ℕ} (hK : ¬ p.Breaks (· ∉ K))
    (hback : ∀ u v, p.Connected u v → Precedes order v u → ¬ p.On K v) :
    ¬ p.Breaks (· ∈ result) := by
  intro hbreaks
  refine hK (hbreaks.mono fun c hc hcK => ?_)
  obtain ⟨u, v, hE, hp, hv⟩ := (hresult c).mp hc
  exact hback u v hE hp ⟨c, hcK, hv⟩

end Arrangement

/-- For a cycle which encloses none, an arrangement with the operations on other channels first
leaves it. -/
theorem exists_not_breaks {graph : InterProcConnectivityGraph} (hrep : Represents p graph)
    (h : ¬ p.EnclosesCycles) :
    ∃ (order : List ℕ) (state : List ℕ × List ℕ), order.Nodup ∧
      (∀ v, v ∈ order ↔ (p.internalChannel v).isSome = true) ∧
      order.foldlM (p.visitSuccessors graph.successorEdges) ([], []) = some state ∧
      ¬ p.Breaks (· ∈ state.2) := by
  rw [Package.EnclosesCycles] at h
  push Not at h
  obtain ⟨K, hK, hnone⟩ := h
  obtain ⟨order, hnodup, hmem, hback⟩ := exists_arrangement (R := p.Connected)
    p.channelOperations (fun v => ¬ p.On K v) fun x hx =>
      hnone x (TransGen.mono (fun _ _ h => ⟨h.1, not_not.mp h.2.1, not_not.mp h.2.2⟩) _ _ hx)
  have horder : ∀ v, v ∈ order ↔ (p.internalChannel v).isSome = true := fun v => by
    rw [hmem, mem_channelOperations]
  obtain ⟨state, hrun, hresult⟩ := exists_lastLoop hrep horder
  exact ⟨order, state, hnodup, horder, hrun, not_breaks_of_back_edges hresult hK hback⟩

/-- The operands come first, position by position. -/
theorem operands_of_take {fbs : List (List Node)}
    (h : ∀ fb ∈ fbs, ∀ i ∈ List.range fb.length, ∀ node ∈ fb[i]?, ∀ c ∈ node.operands,
      ∃ child ∈ fb.take i, child.id = c) :
    ∀ fb ∈ fbs, ∀ l₁ node l₂, fb = l₁ ++ node :: l₂ → ∀ c ∈ node.operands,
      ∃ child ∈ l₁, child.id = c := by
  intro fb hfb l₁ node l₂ hsplit c hc
  have hi : l₁.length ∈ List.range fb.length := by simp [hsplit]
  have hnode : node ∈ fb[l₁.length]? := by simp [hsplit]
  have := h fb hfb _ hi node hnode c hc
  rwa [hsplit, List.take_left] at this

theorem mem_ids_of_opOf {id : ℕ} {op : Op} (h : p.opOf id = some op) :
    id ∈ p.nodes.map Node.id := by
  obtain ⟨node, hnode, -⟩ := Option.map_eq_some_iff.mp h
  exact List.mem_map.mpr ⟨node, mem_of_node? hnode⟩

theorem mem_ids_of_mem_operandsOf {m k : ℕ} (h : m ∈ p.operandsOf k) : k ∈ p.nodes.map Node.id := by
  rw [Package.operandsOf] at h
  rcases hnode : p.node? k with _ | node
  · rw [hnode] at h
    cases h
  · exact List.mem_map.mpr ⟨node, mem_of_node? hnode⟩

/-- The dependencies of a package whose channel operations have no other nodes between them. -/
theorem Package.Flows.mem_edges {edges : List (ℕ × ℕ)}
    (hedges : ∀ k ∈ p.nodes.map Node.id, ∀ m ∈ p.operandsOf k,
      (p.internalChannel m).isSome = true → (m, k) ∈ edges)
    (hchannel : ∀ e ∈ edges, p.internalChannel e.2 ≠ none) {m k : ℕ} (h : p.Flows m k) :
    (m, k) ∈ edges := by
  induction h with
  | direct hm hk => exact hedges _ (mem_ids_of_mem_operandsOf hk) _ hk hm
  | through _ hj _ ih => exact absurd hj (hchannel _ ih)

theorem mem_range_of_channels {n c : ℕ}
    (hchannels : ∀ c, p.channels c = if c < n then some .sendReceive else none)
    (h : p.channels c = some .sendReceive) : c ∈ List.range n := by
  rw [List.mem_range]
  by_contra hnot
  rw [hchannels, if_neg hnot] at h
  cases h

/-- A proc which sends what it has received on channel 0 and then on channel 1.  The longer cycle
enters the second receive by a dependency, but it uses channel 0 only. -/
def joinedEcho : Package where
  functionBases := [
    [ { id := 0, op := .other, operands := [] },
      { id := 1, op := .receive 0, operands := [0] },
      { id := 2, op := .receive 1, operands := [1] },
      { id := 3, op := .send 0, operands := [1, 2] }],
    [ { id := 4, op := .other, operands := [] },
      { id := 5, op := .send 1, operands := [4] }]]
  channels := fun c => if c < 2 then some .sendReceive else none

theorem joinedEcho_verified : joinedEcho.Verified := by
  have hsends : ∀ c ∈ List.range 2, ∃ node ∈ joinedEcho.nodes, node.op = .send c := by decide
  have hreceives : ∀ c ∈ List.range 2, ∃ node ∈ joinedEcho.nodes, node.op = .receive c := by
    decide
  exact ⟨by decide, operands_of_take (by decide), by decide,
    fun c hc => hsends c (mem_range_of_channels (fun _ => rfl) hc),
    fun c hc => hreceives c (mem_range_of_channels (fun _ => rfl) hc)⟩

/-- Without the edge of channel 0 there is no cycle, and with it channel 0 has one of its own. -/
theorem enclosesCycles_joinedEcho : joinedEcho.EnclosesCycles := by
  intro K hK
  by_cases hmem : 0 ∈ K
  · have h₁ : joinedEcho.Connected 1 3 := ⟨by decide, .inl (.direct (by decide) (by decide))⟩
    have h₂ : joinedEcho.Connected 3 1 := ⟨by decide, .inr ⟨0, by decide, by decide, by decide⟩⟩
    have hon₁ : joinedEcho.On K 1 := ⟨0, hmem, by decide⟩
    have hon₃ : joinedEcho.On K 3 := ⟨0, hmem, by decide⟩
    exact ⟨1, .head ⟨h₁, hon₁, hon₃⟩ (.single ⟨h₂, hon₃, hon₁⟩)⟩
  · refine absurd (fun x => Digraph.acyclic_of_rank (fun v => if v = 5 then 0 else v) ?_ x) hK
    rintro a b ⟨⟨-, hflows | ⟨c, hsend⟩⟩, hnot⟩
    · have hedge : (a, b) ∈ [(1, 2), (1, 3), (2, 3)] :=
        hflows.mem_edges (by decide) (by decide)
      have hrank : ∀ e ∈ [(1, 2), (1, 3), (2, 3)],
          (if e.1 = 5 then 0 else e.1) < if e.2 = 5 then 0 else e.2 := by decide
      exact hrank _ hedge
    · have hrank : ∀ c ∈ List.range 2, c ≠ 0 → ∀ a ∈ joinedEcho.nodes.map Node.id,
          ∀ b ∈ joinedEcho.nodes.map Node.id, joinedEcho.opOf a = some (.send c) →
          joinedEcho.opOf b = some (.receive c) →
          (if a = 5 then 0 else a) < if b = 5 then 0 else b := by decide
      refine hrank c (mem_range_of_channels (fun _ => rfl) hsend.1) ?_ a (mem_ids_of_opOf hsend.2.1) b
        (mem_ids_of_opOf hsend.2.2) hsend.2.1 hsend.2.2
      rintro rfl
      exact hnot ⟨0, hmem, hsend⟩

/-- A package with one proc which joins two loops: what it receives on channel 0 comes before
what it receives on channel 1, and both loops lead through the latter. -/
def splitLoop : Package where
  functionBases := [
    [ { id := 0, op := .other, operands := [] },
      { id := 1, op := .receive 0, operands := [0] },
      { id := 2, op := .receive 1, operands := [1] },
      { id := 3, op := .send 2, operands := [2] },
      { id := 4, op := .send 3, operands := [2] },
      { id := 5, op := .other, operands := [3, 4] }],
    [ { id := 6, op := .other, operands := [] },
      { id := 7, op := .receive 2, operands := [6] },
      { id := 8, op := .receive 3, operands := [6] },
      { id := 9, op := .other, operands := [7, 8] },
      { id := 10, op := .send 0, operands := [9] }],
    [ { id := 11, op := .other, operands := [] },
      { id := 12, op := .send 1, operands := [11] }]]
  channels := fun c => if c < 4 then some .sendReceive else none

theorem splitLoop_verified : splitLoop.Verified := by
  have hsends : ∀ c ∈ List.range 4, ∃ node ∈ splitLoop.nodes, node.op = .send c := by decide
  have hreceives : ∀ c ∈ List.range 4, ∃ node ∈ splitLoop.nodes, node.op = .receive c := by
    decide
  exact ⟨by decide, operands_of_take (by decide), by decide,
    fun c hc => hsends c (mem_range_of_channels (fun _ => rfl) hc),
    fun c hc => hreceives c (mem_range_of_channels (fun _ => rfl) hc)⟩

/-- The vertices of a cycle are on cycles. -/
theorem transGen_onCycle {S : ℕ → ℕ → Prop} {x y : ℕ} (hxy : TransGen S x y)
    (hyx : ReflTransGen S y x) :
    TransGen (fun a b => S a b ∧ TransGen S a a ∧ TransGen S b b) x y := by
  induction hxy with
  | single h => exact .single ⟨h, TransGen.head' h hyx, TransGen.tail' hyx h⟩
  | tail hxb h ih =>
    have hbx : ReflTransGen S _ x := ReflTransGen.head h hyx
    exact (ih hbx).tail ⟨h, TransGen.head' h (hyx.trans hxb.to_reflTransGen),
      TransGen.tail' (hyx.trans hxb.to_reflTransGen) h⟩

/-- Where all dependencies lead from receives to sends, a cycle enters receives and leaves sends
along channels, so its own operations are on the channels which it uses. -/
theorem enclosesCycles_of_receives_first
    (hfirst : ∀ m k, p.Flows m k → (p.internalChannel k).isSome = true →
      (∃ c, p.opOf m = some (.receive c)) ∧ ∃ c, p.opOf k = some (.send c)) :
    p.EnclosesCycles := by
  intro K hK
  rw [Package.Breaks] at hK
  push Not at hK
  obtain ⟨x, hx⟩ := hK
  set S : ℕ → ℕ → Prop := fun a b => p.Connected a b ∧
    ∀ c, c ∉ K → ¬ p.SendReceive c a b with hS
  have hon : ∀ v, TransGen S v v → p.On K v := by
    intro v hv
    obtain ⟨w, hvw, -⟩ := TransGen.head'_iff.mp hv
    obtain ⟨u, -, huv⟩ := TransGen.tail'_iff.mp hv
    rcases hvw.1.2 with hflows | ⟨c, hc, hsend, hreceive⟩
    · obtain ⟨⟨c, hop⟩, -⟩ := hfirst v w hflows hvw.1.1
      rcases huv.1.2 with hflows' | ⟨c', hc', hsend', hreceive'⟩
      · obtain ⟨-, c', hop'⟩ := hfirst u v hflows' huv.1.1
        rw [hop] at hop'
        cases hop'
      · refine ⟨c', ?_, internalChannel_eq_some.mpr ⟨hc', .inr hreceive'⟩⟩
        by_contra hnot
        exact huv.2 c' hnot ⟨hc', hsend', hreceive'⟩
    · refine ⟨c, ?_, internalChannel_eq_some.mpr ⟨hc, .inl hsend⟩⟩
      by_contra hnot
      exact hvw.2 c hnot ⟨hc, hsend, hreceive⟩
  exact ⟨x, TransGen.mono (fun a b h => ⟨h.1.1, hon a h.2.1, hon b h.2.2⟩) _ _
    (transGen_onCycle hx .refl)⟩

/-- Where all dependencies lead from receives to sends, the channels which are returned break every
cycle. -/
theorem minimalFeedbackArcs_breaks (h : p.Verified)
    (hfirst : ∀ m k, p.Flows m k → (p.internalChannel k).isSome = true →
      (∃ c, p.opOf m = some (.receive c)) ∧ ∃ c, p.opOf k = some (.send c)) :
    ∃ result, p.minimalFeedbackArcs = some result ∧ p.Breaks (· ∈ result) := by
  obtain ⟨_, _, result, -, -, -, -, hmem, hrun, hresult⟩ := minimalFeedbackArcs_spec h
  exact ⟨result, hrun, breaks_of_enclosesCycles hresult hmem
    (enclosesCycles_of_receives_first hfirst)⟩

/-- A proc which sends on what it receives. -/
def echo : Package where
  functionBases := [
    [ { id := 0, op := .other, operands := [] },
      { id := 1, op := .receive 0, operands := [0] },
      { id := 2, op := .send 0, operands := [1] }]]
  channels := fun c => if c = 0 then some .sendReceive else none

theorem minimalFeedbackArcs_breaks_echo :
    ∃ result, echo.minimalFeedbackArcs = some result ∧ echo.Breaks (· ∈ result) := by
  have hchannel : ∀ c, echo.channels c = some .sendReceive → c = 0 := by
    intro c hc
    by_contra hne
    simp [echo, hne] at hc
  refine minimalFeedbackArcs_breaks ⟨by decide, operands_of_take (by decide), by decide, ?_, ?_⟩ ?_
  · intro c hc
    rw [hchannel c hc]
    decide
  · intro c hc
    rw [hchannel c hc]
    decide
  · intro m k h _
    have hflows : (m, k) ∈ [(1, 2)] := h.mem_edges (by decide) (by decide)
    obtain ⟨rfl, rfl⟩ := Prod.mk.inj (List.mem_singleton.mp hflows)
    exact ⟨⟨0, rfl⟩, 0, rfl⟩

end FeedbackChannels
end Xls
