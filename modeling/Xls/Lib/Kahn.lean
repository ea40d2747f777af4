/-
# Topological sorting by counting

Kahn's algorithm counts for every vertex the predecessors which are not sorted yet; a vertex
whose count is zero is active.  `Progress` says how the sorted vertices, the active ones and
the counts belong together: it holds at the start, sorting an active vertex keeps it, and
when no vertex is active all vertices are sorted exactly when the graph has no cycle.
-/
import Xls.Lib.Digraph
import Mathlib.Data.Set.Finite.List

namespace Kahn

variable {α : Type} [DecidableEq α] {R : α → α → Prop}

open Relation

/-- The finite graph `R` on `vertices`; `preds` and `succs` list the neighbours. -/
structure IsGraph (R : α → α → Prop) (vertices : List α) (preds succs : α → List α) : Prop where
  nodup : vertices.Nodup
  mem_of_edge : ∀ {a b}, R a b → a ∈ vertices ∧ b ∈ vertices
  mem_preds : ∀ {a b}, a ∈ preds b ↔ R a b
  mem_succs : ∀ {a b}, b ∈ succs a ↔ R a b
  nodup_preds : ∀ b, (preds b).Nodup
  nodup_succs : ∀ a, (succs a).Nodup

/-- The predecessors which are not sorted. -/
def unsorted (preds : α → List α) (sorted : List α) (v : α) : ℕ :=
  (preds v).countP fun p => decide (p ∉ sorted)

theorem unsorted_eq_zero {preds : α → List α} {sorted : List α} {v : α} :
    unsorted preds sorted v = 0 ↔ ∀ p ∈ preds v, p ∈ sorted := by
  unfold unsorted
  simp

/-- Sorting one more vertex takes it from the counts of its successors. -/
theorem unsorted_append {preds : α → List α} {sorted : List α} {source : α}
    (hsource : source ∉ sorted) {v : α} (hnodup : (preds v).Nodup) :
    unsorted preds (sorted ++ [source]) v + (if source ∈ preds v then 1 else 0) =
      unsorted preds sorted v := by
  unfold unsorted
  generalize preds v = l at hnodup
  induction l with
  | nil => simp
  | cons p l ih =>
    obtain ⟨hp, hl⟩ := List.nodup_cons.mp hnodup
    have hrest := ih hl
    rw [List.countP_cons, List.countP_cons]
    by_cases hps : p = source
    · subst hps
      rw [if_neg hp] at hrest
      have hin : p ∈ sorted ++ [p] := by simp
      simp only [hin, not_true, decide_false, Bool.false_eq_true, if_false, List.mem_cons,
        true_or, hsource, not_false_iff, decide_true]
      omega
    · have hmem : source ∈ p :: l ↔ source ∈ l := by
        rw [List.mem_cons]
        exact or_iff_right (Ne.symm hps)
      have hsorted : p ∈ sorted ++ [source] ↔ p ∈ sorted := by
        rw [List.mem_append, List.mem_singleton]
        exact or_iff_left hps
      rw [if_congr hmem rfl rfl]
      simp only [hsorted]
      omega

/-- The sorted and the active vertices and the counts. -/
structure Progress (vertices : List α) (preds : α → List α) (sorted active : List α)
    (count : α → Option ℤ) : Prop where
  nodup : (sorted ++ active).Nodup
  mem : ∀ v ∈ sorted ++ active, v ∈ vertices
  count_eq : ∀ v ∈ vertices, count v = some (unsorted preds sorted v : ℤ)
  ready_iff : ∀ v ∈ vertices, v ∈ sorted ++ active ↔ ∀ p ∈ preds v, p ∈ sorted
  ordered : ∀ before v after, sorted = before ++ v :: after → ∀ p ∈ preds v, p ∈ before

namespace Progress

variable {vertices : List α} {preds succs : α → List α} {sorted active : List α}
  {count : α → Option ℤ}

/-- At the start the vertices without predecessors are active. -/
theorem start (hactive : active.Nodup) (hmem : ∀ v, v ∈ active ↔ v ∈ vertices ∧ preds v = [])
    (hcount : ∀ v ∈ vertices, count v = some ((preds v).length : ℤ)) :
    Progress vertices preds [] active count where
  nodup := hactive
  mem v hv := ((hmem v).mp hv).1
  count_eq v hv := by
    rw [hcount v hv]
    unfold unsorted
    rw [List.countP_eq_length.mpr (by simp)]
  ready_iff v hv := by
    rw [List.nil_append, hmem v]
    constructor
    · rintro ⟨-, hnil⟩ p hp
      rw [hnil] at hp
      cases hp
    · intro h
      refine ⟨hv, List.eq_nil_iff_forall_not_mem.mpr fun p hp => ?_⟩
      exact List.not_mem_nil (h p hp)
  ordered before v after h := by simp at h

/-- An active vertex is sorted: its successors with a count of one become active. -/
theorem step (hg : IsGraph R vertices preds succs) {source : α}
    (h : Progress vertices preds sorted (source :: active) count) {fresh : List α}
    {count' : α → Option ℤ} (hfresh : fresh.Nodup)
    (hmem : ∀ v, v ∈ fresh ↔ v ∈ succs source ∧ count v = some 1)
    (hcount : ∀ v ∈ vertices, count' v =
      if v ∈ succs source then (count v).map (· - 1) else count v) :
    Progress vertices preds (sorted ++ [source]) (fresh ++ active) count' := by
  have hsplit : sorted ++ source :: active = (sorted ++ [source]) ++ active := by simp
  have hsource : source ∉ sorted := by
    intro hmem
    have := (List.nodup_append.mp h.nodup).2.2 source hmem source List.mem_cons_self
    exact this rfl
  have hedge : ∀ v, v ∈ succs source ↔ source ∈ preds v := by
    intro v
    rw [hg.mem_succs, hg.mem_preds]
  have hunsorted := fun v => unsorted_append hsource (hg.nodup_preds v)
  have hvertex : ∀ v ∈ fresh, v ∈ vertices := fun v hv =>
    (hg.mem_of_edge (hg.mem_succs.mp ((hmem v).mp hv).1)).2
  -- a vertex which becomes active was not ready before
  have hnew : ∀ v ∈ fresh, v ∉ sorted ++ source :: active := by
    intro v hv hold
    have hzero := unsorted_eq_zero.mpr ((h.ready_iff v (hvertex v hv)).mp hold)
    have hone := h.count_eq v (hvertex v hv)
    rw [((hmem v).mp hv).2, hzero] at hone
    simp at hone
  refine ⟨?_, ?_, ?_, ?_, ?_⟩
  · have hold := h.nodup
    rw [hsplit] at hold
    have hperm : ((sorted ++ [source]) ++ (fresh ++ active)).Perm
        (fresh ++ ((sorted ++ [source]) ++ active)) := by
      rw [← List.append_assoc, ← List.append_assoc]
      exact List.Perm.append_right _ List.perm_append_comm
    rw [hperm.nodup_iff, List.nodup_append]
    refine ⟨hfresh, hold, ?_⟩
    rintro v hv w hw rfl
    rw [← hsplit] at hw
    exact hnew v hv hw
  · intro v hv
    rw [List.mem_append, List.mem_append (s := fresh)] at hv
    rcases hv with hv | hv | hv
    · exact h.mem v (by rw [hsplit]; exact List.mem_append_left _ hv)
    · exact hvertex v hv
    · exact h.mem v (by rw [hsplit]; exact List.mem_append_right _ hv)
  · intro v hv
    have hun := hunsorted v
    rw [hcount v hv, h.count_eq v hv, if_congr (hedge v) rfl rfl]
    split_ifs at hun ⊢ with hp
    · simp only [Option.map_some, Option.some.injEq]
      omega
    · rw [← hun, Nat.add_zero]
  · intro v hv
    have hun := hunsorted v
    have hready := h.ready_iff v hv
    rw [← unsorted_eq_zero] at hready
    rw [← unsorted_eq_zero]
    have hfreshIff : v ∈ fresh ↔ source ∈ preds v ∧ unsorted preds sorted v = 1 := by
      rw [hmem v, hedge v, h.count_eq v hv, Option.some.injEq]
      exact and_congr_right fun _ => by omega
    rw [hsplit, List.mem_append] at hready
    rw [List.mem_append, List.mem_append (s := fresh), hfreshIff]
    split_ifs at hun with hp
    · have hnot : ¬ (v ∈ sorted ++ [source] ∨ v ∈ active) := by
        rw [hready]
        omega
      rw [not_or] at hnot
      simp only [hnot.1, hnot.2, hp, true_and, false_or, or_false]
      omega
    · simp only [hp, false_and, false_or]
      rw [hready]
      omega
  · intro before v after hlist p hp
    rcases List.append_eq_append_iff.mp hlist with ⟨l, rfl, hl⟩ | ⟨l, rfl, hl⟩
    · -- `v` is the new vertex
      rcases l with _ | ⟨x, l⟩
      · obtain ⟨rfl, -⟩ := List.cons.inj hl
        rw [List.append_nil]
        have hs : source ∈ sorted ++ source :: active := by simp
        exact (h.ready_iff source (h.mem source hs)).mp hs p hp
      · simp at hl
    · rcases l with _ | ⟨x, l⟩
      · obtain ⟨rfl, -⟩ := List.cons.inj hl
        have hs : v ∈ (before ++ []) ++ v :: active := by simp
        have := (h.ready_iff v (h.mem v hs)).mp hs p hp
        rwa [List.append_nil] at this
      · obtain ⟨rfl, -⟩ := List.cons.inj hl
        exact h.ordered before v l rfl p hp

/-- The order of the active vertices does not matter. -/
theorem perm {active' : List α} (h : Progress vertices preds sorted active count)
    (hperm : active.Perm active') : Progress vertices preds sorted active' count where
  nodup := (hperm.append_left sorted).nodup_iff.mp h.nodup
  mem v hv := h.mem v ((hperm.append_left sorted).mem_iff.mpr hv)
  count_eq := h.count_eq
  ready_iff v hv := (hperm.append_left sorted).mem_iff.symm.trans (h.ready_iff v hv)
  ordered := h.ordered

/-- The sorted vertices are in order. -/
theorem idxOf_lt (h : Progress vertices preds sorted active count) {a b : α} (ha : a ∈ preds b)
    (hb : b ∈ sorted) : a ∈ sorted ∧ sorted.idxOf a < sorted.idxOf b := by
  obtain ⟨before, after, heq⟩ := List.append_of_mem hb
  have hbefore := h.ordered before b after heq a ha
  have hnodup := (List.nodup_append.mp h.nodup).1
  have hnot : b ∉ before := by
    intro hmem
    rw [heq] at hnodup
    exact (List.nodup_append.mp hnodup).2.2 b hmem b List.mem_cons_self rfl
  rw [heq, List.idxOf_append_of_mem hbefore, List.idxOf_append_of_notMem hnot]
  have := List.idxOf_lt_length_of_mem hbefore
  exact ⟨List.mem_append_left _ hbefore, by omega⟩

theorem length_le (h : Progress vertices preds sorted active count) :
    (sorted ++ active).length ≤ vertices.length :=
  (h.nodup.subperm fun v hv => h.mem v hv).length_le

/-- At the end all vertices are sorted exactly when there is no cycle. -/
theorem finish (hg : IsGraph R vertices preds succs) (h : Progress vertices preds sorted [] count) :
    sorted.length = vertices.length ↔ ∀ v, ¬ TransGen R v v := by
  have hnodup : sorted.Nodup := by simpa using h.nodup
  have hsub : ∀ v ∈ sorted, v ∈ vertices := fun v hv => h.mem v (List.mem_append_left _ hv)
  constructor
  · intro hlength
    have hall : ∀ v ∈ vertices, v ∈ sorted := by
      have hperm := (hnodup.subperm hsub).perm_of_length_le hlength.ge
      exact fun v hv => hperm.mem_iff.mpr hv
    apply Digraph.acyclic_of_rank fun v => sorted.idxOf v
    intro a b hab
    exact (h.idxOf_lt (hg.mem_preds.mpr hab) (hall b (hg.mem_of_edge hab).2)).2
  · intro hacyclic
    -- by induction along the edges every vertex is sorted
    have hwf : WellFounded fun a b : {v // v ∈ vertices} => TransGen R a b := by
      have : Std.Irrefl fun a b : {v // v ∈ vertices} => TransGen R a b := ⟨fun a => hacyclic a⟩
      exact Finite.wellFounded_of_trans_of_irrefl _
    have hall : ∀ v : {v // v ∈ vertices}, v.1 ∈ sorted := by
      intro v
      induction v using hwf.induction with
      | _ v ih =>
        have hready := h.ready_iff v.1 v.2
        rw [List.append_nil] at hready
        rw [hready]
        intro p hp
        have hedge := hg.mem_preds.mp hp
        exact ih ⟨p, (hg.mem_of_edge hedge).1⟩ (TransGen.single hedge)
    have hperm : sorted.Perm vertices :=
      (List.perm_ext_iff_of_nodup hnodup hg.nodup).mpr fun v => ⟨hsub v, fun hv => hall ⟨v, hv⟩⟩
    exact hperm.length_eq

end Progress

end Kahn
