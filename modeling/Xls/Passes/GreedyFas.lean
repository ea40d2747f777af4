/-
# The greedy arrangement

`GreedyFAS` removes sinks, then sources, then a vertex of greatest degree, until both maps are
empty.  Each vertex is a key of both maps until it is removed, and what is removed is put to the
front or to the end.

* `Arranged`, `Covers`, `Settled` : what holds of the lists and of the keys of a map;
* `removeSinks_spec`, `removeSources_spec`, `removeMax_spec` : the three parts of a round;
* `exists_greedyFas` : the loops end, and the arrangement has every vertex once.
-/
import Xls.Passes.MinimalFeedbackArcs
import Mathlib.Data.Finset.Dedup
import Mathlib.Data.Finset.SDiff

namespace Xls
namespace FeedbackChannels

open Multimap

variable {V : Finset ℕ} {map : StableEdgeMap} {removed : List ℕ} {s : FasState}

/-! ## The lists and the keys -/

/-- The vertices which have not been removed. -/
def remaining (V : Finset ℕ) (removed : List ℕ) : Finset ℕ := V.filter fun v => v ∉ removed

/-- What has been removed has been put to the front or to the end. -/
structure Arranged (V : Finset ℕ) (s : FasState) : Prop where
  nodup : s.removedNodes.Nodup
  subset : ∀ v ∈ s.removedNodes, v ∈ V
  perm : (s.s1 ++ s.s2Rev).Perm s.removedNodes

/-- All vertices which remain are keys. -/
structure Covers (V : Finset ℕ) (removed : List ℕ) (map : StableEdgeMap) : Prop where
  nodup : (keys map).Nodup
  subset : ∀ k ∈ keys map, k ∈ V
  mem_keys : ∀ k ∈ remaining V removed, k ∈ keys map

/-- The keys are the vertices which remain. -/
structure Settled (V : Finset ℕ) (removed : List ℕ) (map : StableEdgeMap) : Prop where
  nodup : (keys map).Nodup
  mem_keys : ∀ k, k ∈ keys map ↔ k ∈ remaining V removed

theorem mem_remaining {v : ℕ} : v ∈ remaining V removed ↔ v ∈ V ∧ v ∉ removed :=
  Finset.mem_filter

theorem remaining_append (found : List ℕ) :
    remaining V (removed ++ found) ⊆ remaining V removed := by
  intro v hv
  rw [mem_remaining, List.mem_append, not_or] at hv
  exact mem_remaining.mpr ⟨hv.1, hv.2.1⟩

theorem Settled.covers (h : Settled V removed map) : Covers V removed map where
  nodup := h.nodup
  subset k hk := (mem_remaining.mp ((h.mem_keys k).mp hk)).1
  mem_keys k hk := (h.mem_keys k).mpr hk

theorem Settled.length_eq (h : Settled V removed map) :
    map.length = (remaining V removed).card := by
  have hV : (keys map).toFinset = remaining V removed := by
    ext k
    rw [List.mem_toFinset, h.mem_keys]
  rw [← hV, List.toFinset_card_of_nodup h.nodup, keys, List.length_map]

theorem Covers.card_le (h : Covers V removed map) : (remaining V removed).card ≤ map.length := by
  have hsub : remaining V removed ⊆ (keys map).toFinset :=
    fun k hk => List.mem_toFinset.mpr (h.mem_keys k hk)
  refine (Finset.card_le_card hsub).trans ((List.toFinset_card_le _).trans ?_)
  rw [keys, List.length_map]

theorem Covers.append (h : Covers V removed map) (found : List ℕ) :
    Covers V (removed ++ found) map :=
  ⟨h.nodup, h.subset, fun k hk => h.mem_keys k (remaining_append found hk)⟩

theorem keys_filter (f : ℕ → Bool) :
    keys (map.filter fun entry => f entry.1) = (keys map).filter f := by
  rw [keys, keys, List.filter_map]
  rfl

/-- Keys which have been removed may be filtered out. -/
theorem Covers.filter (h : Covers V removed map) {f : ℕ → Bool}
    (hf : ∀ k ∈ remaining V removed, f k = true) :
    Covers V removed (map.filter fun entry => f entry.1) := by
  constructor
  · rw [keys_filter]
    exact h.nodup.filter f
  · intro k hk
    rw [keys_filter, List.mem_filter] at hk
    exact h.subset k hk.1
  · intro k hk
    rw [keys_filter, List.mem_filter]
    exact ⟨h.mem_keys k hk, hf k hk⟩

theorem Covers.clearRemovedKeys (h : Covers V removed map) :
    Settled V removed (clearRemovedKeys removed map) := by
  have hkeys : keys (FeedbackChannels.clearRemovedKeys removed map) =
      (keys map).filter fun k => decide (k ∉ removed) := keys_filter fun k => decide (k ∉ removed)
  constructor
  · rw [hkeys]
    exact h.nodup.filter _
  · intro k
    rw [hkeys, List.mem_filter, decide_eq_true_iff, mem_remaining]
    constructor
    · exact fun hk => ⟨h.subset k hk.1, hk.2⟩
    · exact fun hk => ⟨h.mem_keys k (mem_remaining.mpr hk), hk.2⟩

/-! ## A pass -/

/-- A pass keeps the keys, and what it finds are some of them. -/
theorem clearPass_spec (skip : ℕ → Bool) (entries : StableEdgeMap) :
    ∀ removed, keys (clearPass skip removed entries).1 = keys entries ∧
      (clearPass skip removed entries).2.Sublist (keys entries) := by
  induction entries with
  | nil => exact fun _ => ⟨rfl, .slnil⟩
  | cons entry entries ih =>
    obtain ⟨node, values⟩ := entry
    intro removed
    rw [clearPass]
    split
    · obtain ⟨hkeys, hfound⟩ := ih (node :: removed)
      exact ⟨congrArg (node :: ·) hkeys, hfound.cons_cons node⟩
    · obtain ⟨hkeys, hfound⟩ := ih removed
      exact ⟨congrArg (node :: ·) hkeys, hfound.cons node⟩

section Pass

variable {skip : ℕ → Bool} {found : List ℕ} {map' : StableEdgeMap} (hcovers : Covers V removed map)
  (hpass : clearPass skip removed (clearRemovedKeys removed map) = (map', found))
include hcovers hpass

/-- A pass which finds nothing leaves the keys which remain. -/
theorem settled_clearPass : Settled V removed map' := by
  have hcleared := hcovers.clearRemovedKeys
  have hkeys := (clearPass_spec skip (clearRemovedKeys removed map) removed).1
  rw [hpass] at hkeys
  exact ⟨by rw [hkeys]; exact hcleared.nodup, fun k => by rw [hkeys]; exact hcleared.mem_keys k⟩

theorem found_clearPass : found.Nodup ∧ ∀ v ∈ found, v ∈ remaining V removed := by
  have hcleared := hcovers.clearRemovedKeys
  have hfound := (clearPass_spec skip (clearRemovedKeys removed map) removed).2
  rw [hpass] at hfound
  exact ⟨hcleared.nodup.sublist hfound, fun v hv => (hcleared.mem_keys v).mp (hfound.subset hv)⟩

end Pass

/-- The vertices found are put to the front or to the end. -/
theorem Arranged.append (h : Arranged V s) {found : List ℕ} (hnodup : found.Nodup)
    (hmem : ∀ v ∈ found, v ∈ remaining V s.removedNodes) {s' : FasState}
    (hremoved : s'.removedNodes = s.removedNodes ++ found)
    (hlists : (s'.s1 ++ s'.s2Rev).Perm (s.s1 ++ s.s2Rev ++ found)) : Arranged V s' := by
  constructor
  · rw [hremoved]
    refine List.nodup_append.mpr ⟨h.nodup, hnodup, ?_⟩
    rintro v hv _ hv' rfl
    exact (mem_remaining.mp (hmem v hv')).2 hv
  · intro v hv
    rw [hremoved, List.mem_append] at hv
    rcases hv with hv | hv
    · exact h.subset v hv
    · exact (mem_remaining.mp (hmem v hv)).1
  · rw [hremoved]
    exact hlists.trans (h.perm.append_right found)

/-- The number of vertices goes down with each find. -/
theorem card_remaining_append_lt {found : List ℕ} (hmem : ∀ v ∈ found, v ∈ remaining V removed)
    (hne : found ≠ []) : (remaining V (removed ++ found)).card < (remaining V removed).card := by
  obtain ⟨v, hv⟩ := List.exists_mem_of_ne_nil found hne
  refine Finset.card_lt_card ⟨remaining_append found, fun hsub => ?_⟩
  exact (mem_remaining.mp (hsub (hmem v hv))).2 (List.mem_append_right _ hv)

theorem card_remaining_le {removed' found : List ℕ} (h : removed' = removed ++ found) :
    (remaining V removed').card ≤ (remaining V removed).card := by
  rw [h]
  exact Finset.card_le_card (remaining_append found)

/-- What a step removed remained before it. -/
theorem Arranged.mem_remaining (h : Arranged V s) {found : List ℕ}
    (hremoved : s.removedNodes = removed ++ found) : ∀ v ∈ found, v ∈ remaining V removed := by
  intro v hv
  have hnodup := h.nodup
  rw [hremoved] at hnodup
  refine FeedbackChannels.mem_remaining.mpr ⟨h.subset v ?_, fun hv' => ?_⟩
  · rw [hremoved]
    exact List.mem_append_right _ hv
  · exact (List.nodup_append.mp hnodup).2.2 v hv' v hv rfl

/-! ## The parts of a round -/

/-- The sinks are removed until there are none. -/
theorem removeSinks_spec (fuel : ℕ) : ∀ s : FasState, Arranged V s →
    Covers V s.removedNodes s.successorEdges → (remaining V s.removedNodes).card < fuel →
    ∃ s' found, removeSinks fuel s = some s' ∧ Arranged V s' ∧
      s'.removedNodes = s.removedNodes ++ found ∧
      Settled V s'.removedNodes s'.successorEdges ∧ s'.predecessorEdges = s.predecessorEdges := by
  induction fuel with
  | zero => intro s _ _ h; omega
  | succ fuel ih =>
    intro s hs hsucc hfuel
    rcases hpass : clearPass (fun _ => false) s.removedNodes
      (clearRemovedKeys s.removedNodes s.successorEdges) with ⟨map', found⟩
    have hsettled := settled_clearPass hsucc hpass
    obtain ⟨hnodup, hmem⟩ := found_clearPass hsucc hpass
    set s₁ : FasState := { s with
      successorEdges := map'
      s2Rev := s.s2Rev ++ found
      removedNodes := s.removedNodes ++ found } with hs₁
    have harranged : Arranged V s₁ := by
      refine hs.append hnodup hmem rfl ?_
      rw [List.append_assoc]
    rw [removeSinks]
    simp only [hpass, ← hs₁]
    split
    · rename_i hempty
      rw [List.isEmpty_iff] at hempty
      refine ⟨s₁, [], rfl, harranged, by rw [hs₁, hempty], ?_, rfl⟩
      show Settled V (s.removedNodes ++ found) map'
      rw [hempty, List.append_nil]
      exact hsettled
    · rename_i hempty
      have hlt := card_remaining_append_lt hmem (by simpa using hempty)
      obtain ⟨s', found', hrun, hs', hremoved, hkeys, hpred⟩ :=
        ih s₁ harranged (hsettled.covers.append found) (hlt.trans_le (Nat.le_of_lt_succ hfuel))
      exact ⟨s', found ++ found', hrun, hs', by rw [hremoved, List.append_assoc], hkeys, hpred⟩

/-- The sources are removed until there are none. -/
theorem removeSources_spec (fuel : ℕ) : ∀ s : FasState, Arranged V s →
    Covers V s.removedNodes s.predecessorEdges → (remaining V s.removedNodes).card < fuel →
    ∃ s' found, removeSources fuel s = some s' ∧ Arranged V s' ∧
      s'.removedNodes = s.removedNodes ++ found ∧
      Settled V s'.removedNodes s'.predecessorEdges ∧ s'.successorEdges = s.successorEdges := by
  induction fuel with
  | zero => intro s _ _ h; omega
  | succ fuel ih =>
    intro s hs hpred hfuel
    rcases hpass : clearPass (nodeIsSink s.successorEdges) s.removedNodes
      (clearRemovedKeys s.removedNodes s.predecessorEdges) with ⟨map', found⟩
    have hsettled := settled_clearPass hpred hpass
    obtain ⟨hnodup, hmem⟩ := found_clearPass hpred hpass
    set s₁ : FasState := { s with
      predecessorEdges := map'
      s1 := s.s1 ++ found
      removedNodes := s.removedNodes ++ found } with hs₁
    have harranged : Arranged V s₁ := by
      refine hs.append hnodup hmem rfl ?_
      rw [List.append_assoc, List.append_assoc]
      exact List.perm_append_comm.append_left s.s1
    rw [removeSources]
    simp only [hpass, ← hs₁]
    split
    · rename_i hempty
      rw [List.isEmpty_iff] at hempty
      refine ⟨s₁, [], rfl, harranged, by rw [hs₁, hempty], ?_, rfl⟩
      show Settled V (s.removedNodes ++ found) map'
      rw [hempty, List.append_nil]
      exact hsettled
    · rename_i hempty
      have hlt := card_remaining_append_lt hmem (by simpa using hempty)
      obtain ⟨s', found', hrun, hs', hremoved, hkeys, hsucc⟩ :=
        ih s₁ harranged (hsettled.covers.append found) (hlt.trans_le (Nat.le_of_lt_succ hfuel))
      exact ⟨s', found ++ found', hrun, hs', by rw [hremoved, List.append_assoc], hkeys, hsucc⟩

/-- The greatest of some entries is one of them. -/
theorem exists_maxElement {succ : StableEdgeMap} (rest : StableEdgeMap) :
    ∀ largest : ℕ × List ℕ, (∀ e ∈ largest :: rest, e.1 ∈ keys succ) →
      ∃ max ∈ largest :: rest, maxElement succ largest rest = some max := by
  induction rest with
  | nil => exact fun largest _ => ⟨largest, List.mem_cons_self, rfl⟩
  | cons e rest ih =>
    intro largest hkeys
    have hdegree : ∀ entry ∈ largest :: e :: rest, degreeOf succ entry =
        some (((find succ entry.1).length : ℤ) - (entry.2.length : ℤ)) := fun entry he =>
      if_pos (hkeys entry he)
    obtain ⟨max, hmem, hrun⟩ : ∃ max ∈ largest :: e :: rest,
        maxElement succ (if ((find succ largest.1).length : ℤ) - (largest.2.length : ℤ) <
          ((find succ e.1).length : ℤ) - (e.2.length : ℤ) then e else largest) rest = some max := by
      split
      · obtain ⟨max, hmem, hrun⟩ := ih e fun x hx => hkeys x (List.mem_cons_of_mem _ hx)
        exact ⟨max, List.mem_cons_of_mem _ hmem, hrun⟩
      · obtain ⟨max, hmem, hrun⟩ := ih largest fun x hx => hkeys x (by
          rcases List.mem_cons.mp hx with rfl | hx
          · exact List.mem_cons_self
          · exact List.mem_cons_of_mem _ (List.mem_cons_of_mem _ hx))
        refine ⟨max, ?_, hrun⟩
        rcases List.mem_cons.mp hmem with rfl | hmem
        · exact List.mem_cons_self
        · exact List.mem_cons_of_mem _ (List.mem_cons_of_mem _ hmem)
    refine ⟨max, hmem, ?_⟩
    rw [maxElement, List.foldlM_cons]
    simp only [hdegree largest List.mem_cons_self,
      hdegree e (List.mem_cons_of_mem _ List.mem_cons_self)]
    exact hrun

/-- The vertex of greatest degree is removed, if any remains. -/
theorem removeMax_spec (hs : Arranged V s) (hpred : Settled V s.removedNodes s.predecessorEdges)
    (hsucc : Covers V s.removedNodes s.successorEdges) :
    ∃ s' found, removeMax s = some s' ∧ Arranged V s' ∧ s'.removedNodes = s.removedNodes ++ found ∧
      Settled V s'.removedNodes s'.predecessorEdges ∧
      Covers V s'.removedNodes s'.successorEdges ∧
      s'.successorEdges.length ≤ s.successorEdges.length ∧
      (remaining V s.removedNodes ≠ ∅ → found ≠ []) := by
  rcases hlist : s.predecessorEdges with _ | ⟨first, rest⟩
  · refine ⟨s, [], ?_, hs, (List.append_nil _).symm, hpred, hsucc, le_rfl, fun hne => ?_⟩
    · rw [removeMax, hlist]
    · have hcard := hpred.length_eq
      rw [hlist, List.length_nil] at hcard
      exact absurd (Finset.card_eq_zero.mp hcard.symm) hne
  · have hkeys : ∀ e ∈ first :: rest, e.1 ∈ remaining V s.removedNodes := by
      intro e he
      rw [← hpred.mem_keys, hlist]
      exact List.mem_map_of_mem he
    obtain ⟨max, hmem, hmax⟩ := exists_maxElement rest first
      fun e he => hsucc.mem_keys _ (hkeys e he)
    have hne : ∀ k ∈ remaining V (s.removedNodes ++ [max.1]), (k != max.1) = true := by
      intro k hk
      rw [mem_remaining, List.mem_append, not_or, List.mem_singleton] at hk
      exact bne_iff_ne.mpr hk.2.2
    set s' : FasState :=
      { predecessorEdges := s.predecessorEdges.filter fun entry => entry.1 != max.1
        successorEdges := s.successorEdges.filter fun entry => entry.1 != max.1
        s1 := s.s1 ++ [max.1]
        s2Rev := s.s2Rev
        removedNodes := s.removedNodes ++ [max.1] } with hs'
    have harranged : Arranged V s' := by
      refine hs.append (List.nodup_singleton max.1) (fun v hv => ?_) rfl ?_
      · rw [List.mem_singleton.mp hv]
        exact hkeys max hmem
      · rw [List.append_assoc, List.append_assoc]
        exact List.perm_append_comm.append_left s.s1
    refine ⟨s', [max.1], ?_, harranged, rfl, ⟨?_, fun k => ?_⟩, (hsucc.append _).filter hne,
      List.length_filter_le _ _, fun _ => List.cons_ne_nil _ _⟩
    · rw [removeMax, hlist]
      simp only [hmax, Option.map_some]
      rw [hs', hlist]
    · exact ((hpred.covers.append _).filter hne).nodup
    · rw [hs', keys_filter fun k => k != max.1, List.mem_filter, hpred.mem_keys, mem_remaining,
        mem_remaining, List.mem_append, not_or, List.mem_singleton, bne_iff_ne, and_assoc]

/-! ## The outer loop -/

/-- The loop ends with every vertex removed. -/
theorem greedyLoop_spec (fuel : ℕ) : ∀ s : FasState, Arranged V s →
    Settled V s.removedNodes s.predecessorEdges → Covers V s.removedNodes s.successorEdges →
    s.predecessorEdges.length + s.successorEdges.length < fuel →
    ∃ s', greedyLoop fuel s = some s' ∧ Arranged V s' ∧ remaining V s'.removedNodes = ∅ := by
  induction fuel with
  | zero => intro s _ _ _ h; omega
  | succ fuel ih =>
    intro s hs hpred hsucc hfuel
    rw [greedyLoop]
    split
    · rename_i hempty
      rw [Bool.and_eq_true, List.isEmpty_iff] at hempty
      refine ⟨s, rfl, hs, ?_⟩
      rw [← Finset.card_eq_zero, ← hpred.length_eq, hempty.1]
      rfl
    · rename_i hempty
      have hcard := hsucc.card_le
      obtain ⟨s₁, found₁, hrun₁, hs₁, hremoved₁, hsettled₁, hpred₁⟩ :=
        removeSinks_spec (s.successorEdges.length + 1) s hs hsucc (Nat.lt_succ_of_le hcard)
      have hcovers₁ : Covers V s₁.removedNodes s₁.predecessorEdges := by
        rw [hpred₁, hremoved₁]
        exact hpred.covers.append found₁
      obtain ⟨s₂, found₂, hrun₂, hs₂, hremoved₂, hsettled₂, hsucc₂⟩ :=
        removeSources_spec (s₁.predecessorEdges.length + 1) s₁ hs₁ hcovers₁
          (Nat.lt_succ_of_le hcovers₁.card_le)
      have hcovers₂ : Covers V s₂.removedNodes s₂.successorEdges := by
        rw [hsucc₂, hremoved₂]
        exact hsettled₁.covers.append found₂
      obtain ⟨s₃, found₃, hrun₃, hs₃, hremoved₃, hsettled₃, hcovers₃, hlength, hfound⟩ :=
        removeMax_spec hs₂ hsettled₂ hcovers₂
      -- a round shortens one of the maps: it removes a vertex if any remains
      have hdecrease : s₃.predecessorEdges.length + s₃.successorEdges.length < fuel := by
        have hlength₁ := hsettled₁.length_eq
        have hlength₃ := hsettled₃.length_eq
        have hle₁ := card_remaining_le (V := V) hremoved₁
        have hle₂ := card_remaining_le (V := V) hremoved₂
        rw [hsucc₂] at hlength
        rw [hpred.length_eq] at hfuel
        by_cases hne : remaining V s₂.removedNodes = ∅
        · have hle₃ := card_remaining_le (V := V) hremoved₃
          rw [hne, Finset.card_empty] at hle₃
          have : s.predecessorEdges.length + s.successorEdges.length ≠ 0 := by
            intro hsum
            apply hempty
            rw [Bool.and_eq_true, List.isEmpty_iff, List.isEmpty_iff,
              ← List.length_eq_zero_iff, ← List.length_eq_zero_iff]
            omega
          rw [hpred.length_eq] at this
          omega
        · have hlt := card_remaining_append_lt (hs₃.mem_remaining hremoved₃) (hfound hne)
          rw [← hremoved₃] at hlt
          omega
      obtain ⟨s', hrun, hs', hdone⟩ := ih s₃ hs₃ hsettled₃ hcovers₃ hdecrease
      refine ⟨s', ?_, hs', hdone⟩
      simp only [Option.bind_eq_bind, hrun₁, Option.bind_some, hrun₂, hrun₃]
      exact hrun

/-- `GreedyFAS` ends, and its arrangement has every key of the maps once. -/
theorem exists_greedyFas {graph : InterProcConnectivityGraph}
    (hpred : Settled V [] graph.predecessorEdges) (hsucc : Settled V [] graph.successorEdges) :
    ∃ arrangement, greedyFas graph = some arrangement ∧ arrangement.Nodup ∧
      ∀ v, v ∈ arrangement ↔ v ∈ V := by
  obtain ⟨s', hrun, hs', hdone⟩ := greedyLoop_spec
    (graph.predecessorEdges.length + graph.successorEdges.length + 1)
    { predecessorEdges := graph.predecessorEdges
      successorEdges := graph.successorEdges
      s1 := [], s2Rev := [], removedNodes := [] }
    ⟨List.nodup_nil, by simp, .nil⟩ hpred hsucc.covers (Nat.lt_succ_self _)
  have hperm : (s'.s1 ++ s'.s2Rev.reverse).Perm s'.removedNodes :=
    ((List.reverse_perm _).append_left _).trans hs'.perm
  refine ⟨s'.s1 ++ s'.s2Rev.reverse, ?_, hperm.nodup_iff.mpr hs'.nodup, fun v => ?_⟩
  · rw [greedyFas, hrun, Option.map_some]
  · rw [hperm.mem_iff]
    refine ⟨hs'.subset v, fun hv => ?_⟩
    by_contra hnot
    exact absurd (hdone ▸ mem_remaining.mpr ⟨hv, hnot⟩) (Finset.notMem_empty v)

end FeedbackChannels
end Xls
