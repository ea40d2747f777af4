/-
# Longest paths in graphs of terms

The length of a path from a source is the sum of the weights of the vertices on it.  The longest
paths to all vertices are a valuation: a vertex takes the longest one to its operands and adds its
weight.  So what an edit does to the longest paths is what it does to valuations.

* `exists_isValuation` : a graph without cycles has a valuation;
* `eq_coe_iff` : the values are the lengths of the longest paths;
* `ne_bot_iff` : there is a path when there is a value;
* `exists_rises` : levels of the vertices, when no path is too long.
-/
import Xls.Lib.TermReplacement
import Mathlib

namespace TermGraph

variable {α V : Type} {g : TermGraph α} {sem : ℕ → α → List V → Option V}

/-- Where each vertex has a value whatever the values of its operands are, a graph without cycles has
a valuation. -/
theorem exists_isValuation [Inhabited V] (hacyclic : g.IsAcyclic)
    (hsem : ∀ i label vs, (sem i label vs).isSome = true) : ∃ val, IsValuation sem g val := by
  obtain ⟨rank, hrank⟩ := hacyclic
  -- the vertices of a rank below a bound
  have hbelow : ∀ bound : ℕ, ∃ val : ℕ → V, ∀ k n, g.vertex k = some n → rank k < bound →
      sem k n.label (n.operands.map val) = some (val k) := by
    intro bound
    induction bound with
    | zero => exact ⟨fun _ => default, fun k n _ hk => absurd hk (Nat.not_lt_zero _)⟩
    | succ bound ih =>
      obtain ⟨val, hval⟩ := ih
      let next : ℕ → V := fun k => if rank k < bound then val k else
        ((g.vertex k).bind fun n => sem k n.label (n.operands.map val)).getD default
      have hoperands : ∀ k n, g.vertex k = some n → rank k < bound + 1 →
          n.operands.map next = n.operands.map val := by
        intro k n hn hk
        apply List.map_congr_left
        intro o ho
        exact if_pos (Nat.lt_of_lt_of_le (hrank k n hn o ho) (Nat.le_of_lt_succ hk))
      refine ⟨next, fun k n hn hk => ?_⟩
      rw [hoperands k n hn hk]
      by_cases hlt : rank k < bound
      · rw [show next k = val k from if_pos hlt]
        exact hval k n hn hlt
      · obtain ⟨v, hv⟩ := Option.isSome_iff_exists.mp (hsem k n.label (n.operands.map val))
        have hnext : next k = v := by
          refine (if_neg hlt).trans ?_
          rw [hn, Option.bind_some, hv, Option.getD_some]
        rw [hnext, hv]
  obtain ⟨val, hval⟩ := hbelow ((Finset.range g.length).sup rank + 1)
  refine ⟨val, fun k n hn => hval k n hn ?_⟩
  have hle : rank k ≤ (Finset.range g.length).sup rank :=
    Finset.le_sup (Finset.mem_range.mpr (lt_length_of_vertex hn))
  exact Nat.lt_succ_of_le hle

end TermGraph

namespace LongestPath

/-- Which vertices are on paths, whether a path goes through a vertex or only starts there, and how
long the way through it is. -/
structure Metric (α : Type) where
  on : α → Bool
  through : α → Bool
  weight : α → ℕ

variable {α : Type}

/-- A path from a source, with its length. -/
inductive Path (m : Metric α) (g : TermGraph α) (source : ℕ) : ℕ → ℕ → Prop
  | nil {n : Vertex α} (hn : g.vertex source = some n) (hon : m.on n.label = true) :
      Path m g source source 0
  | step {o b w : ℕ} {n : Vertex α} (hpath : Path m g source o w) (hn : g.vertex b = some n)
      (ho : o ∈ n.operands) (hon : m.on n.label = true) (hthrough : m.through n.label = true) :
      Path m g source b (w + m.weight n.label)

/-- The greatest of some values. -/
def greatest (vs : List (WithBot ℕ)) : WithBot ℕ := vs.foldr (· ⊔ ·) ⊥

/-- The value of a vertex: the length of the longest path from the source to it, `⊥` when there is
none. -/
def longest (m : Metric α) (source i : ℕ) (label : α) (vs : List (WithBot ℕ)) : WithBot ℕ :=
  if m.on label then
    (if i = source then 0 else ⊥) ⊔
      (if m.through label then greatest vs + WithBot.some (m.weight label) else ⊥)
  else ⊥

/-- The meaning of the labels, for valuations. -/
def sem (m : Metric α) (source i : ℕ) (label : α) (vs : List (WithBot ℕ)) :
    Option (WithBot ℕ) := some (longest m source i label vs)

/-! ## The greatest value -/

variable {vs us : List (WithBot ℕ)} {v c : WithBot ℕ}

theorem greatest_le_iff : greatest vs ≤ c ↔ ∀ v ∈ vs, v ≤ c := by
  induction vs with
  | nil => exact ⟨nofun, fun _ => bot_le⟩
  | cons v vs ih => rw [greatest, List.foldr_cons, sup_le_iff, ← greatest, ih, List.forall_mem_cons]

theorem le_greatest (h : v ∈ vs) : v ≤ greatest vs := greatest_le_iff.mp le_rfl v h

/-- Only the values matter which some value is not above. -/
theorem greatest_congr (h : ∀ v ∈ vs, ∃ u ∈ us, v ≤ u) (h' : ∀ u ∈ us, ∃ v ∈ vs, u ≤ v) :
    greatest vs = greatest us := by
  apply le_antisymm
  · rw [greatest_le_iff]
    intro v hv
    obtain ⟨u, hu, hle⟩ := h v hv
    exact hle.trans (le_greatest hu)
  · rw [greatest_le_iff]
    intro u hu
    obtain ⟨v, hv, hle⟩ := h' u hu
    exact hle.trans (le_greatest hv)

theorem greatest_congr_mem (h : ∀ v, v ∈ vs ↔ v ∈ us) : greatest vs = greatest us :=
  greatest_congr (fun v hv => ⟨v, (h v).mp hv, le_rfl⟩) fun u hu => ⟨u, (h u).mpr hu, le_rfl⟩

theorem greatest_append : greatest (vs ++ us) = greatest vs ⊔ greatest us := by
  apply le_antisymm
  · rw [greatest_le_iff]
    intro v hv
    rcases List.mem_append.mp hv with hv | hv
    · exact (le_greatest hv).trans le_sup_left
    · exact (le_greatest hv).trans le_sup_right
  · apply sup_le
    · exact greatest_le_iff.mpr fun v hv => le_greatest (List.mem_append_left _ hv)
    · exact greatest_le_iff.mpr fun v hv => le_greatest (List.mem_append_right _ hv)

theorem greatest_singleton : greatest [v] = v := by
  rw [greatest, List.foldr_cons, List.foldr_nil, sup_bot_eq]

/-- A value is added to all. -/
theorem greatest_map_add (d : ℕ) :
    greatest (vs.map fun v => v + WithBot.some d) = greatest vs + WithBot.some d := by
  induction vs with
  | nil => rw [List.map_nil, greatest, List.foldr_nil, WithBot.bot_add]
  | cons v vs ih =>
    have hcons : ∀ (u : WithBot ℕ) us, greatest (u :: us) = u ⊔ greatest us := fun _ _ => rfl
    rw [List.map_cons, hcons, hcons, ih]
    rcases le_total v (greatest vs) with hle | hle
    · rw [sup_eq_right.mpr hle, sup_eq_right.mpr (add_le_add_left hle _)]
    · rw [sup_eq_left.mpr hle, sup_eq_left.mpr (add_le_add_left hle _)]

/-- A value above `⊥` is one of the values. -/
theorem mem_of_greatest_ne_bot (h : greatest vs ≠ ⊥) : greatest vs ∈ vs := by
  induction vs with
  | nil => exact absurd rfl h
  | cons v vs ih =>
    have hcons : greatest (v :: vs) = v ⊔ greatest vs := rfl
    rw [hcons] at h ⊢
    rcases le_total v (greatest vs) with hle | hle
    · rw [sup_eq_right.mpr hle] at h ⊢
      exact List.mem_cons_of_mem v (ih h)
    · rw [sup_eq_left.mpr hle]
      exact List.mem_cons_self

/-! ## Paths and values -/

variable {m : Metric α} {g : TermGraph α} {source b w : ℕ} {val : ℕ → WithBot ℕ}

/-- No path is longer than the value. -/
theorem Path.le (h : Path m g source b w) (hval : TermGraph.IsValuation (sem m source) g val) :
    WithBot.some w ≤ val b := by
  induction h with
  | nil hn hon =>
    have hvalue : longest m source source _ _ = val source := Option.some.inj (hval source _ hn)
    rw [← hvalue, longest, if_pos hon, if_pos rfl]
    exact le_sup_left
  | @step o b w n hpath hn ho hon hthrough ih =>
    have hvalue : longest m source b _ _ = val b := Option.some.inj (hval b n hn)
    rw [← hvalue, longest, if_pos hon, if_pos hthrough, WithBot.coe_add]
    have hle : val o ≤ greatest (n.operands.map val) := le_greatest (List.mem_map_of_mem ho)
    exact (add_le_add_left (ih.trans hle) _).trans le_sup_right

/-- Operands are vertices. -/
def Live (g : TermGraph α) : Prop :=
  ∀ k n, g.vertex k = some n → ∀ o ∈ n.operands, (g.vertex o).isSome = true

/-- A value is the length of a path. -/
theorem exists_path (hacyclic : g.IsAcyclic) (hlive : Live g)
    (hval : TermGraph.IsValuation (sem m source) g val) {n : Vertex α}
    (hn : g.vertex b = some n) (hb : val b = WithBot.some w) : Path m g source b w := by
  obtain ⟨rank, hrank⟩ := hacyclic
  induction hr : rank b using Nat.strong_induction_on generalizing b n w with
  | _ r ih =>
    have hvalue : longest m source b n.label (n.operands.map val) = WithBot.some w :=
      (Option.some.inj (hval b n hn)).trans hb
    have hon : m.on n.label = true := by
      by_contra hoff
      rw [longest, if_neg hoff] at hvalue
      exact WithBot.bot_ne_coe hvalue
    rw [longest] at hvalue
    rcases max_choice (if b = source then (0 : WithBot ℕ) else ⊥)
      (if m.through n.label then greatest (n.operands.map val) + WithBot.some (m.weight n.label)
        else ⊥) with hleft | hright
    · -- the path starts here
      rw [hleft] at hvalue
      split_ifs at hvalue with hb
      · rw [← WithBot.coe_zero, WithBot.coe_inj] at hvalue
        rw [← hvalue, hb]
        exact Path.nil (hb ▸ hn) hon
      · exact absurd hvalue WithBot.bot_ne_coe
    · -- the path comes from an operand
      rw [hright] at hvalue
      split_ifs at hvalue with hthrough
      · have hne : greatest (n.operands.map val) ≠ ⊥ := by
          intro hbot
          rw [hbot] at hvalue
          exact WithBot.bot_ne_coe hvalue
        obtain ⟨o, ho, hgreatest⟩ := List.mem_map.mp (mem_of_greatest_ne_bot hne)
        obtain ⟨u, hu⟩ := WithBot.ne_bot_iff_exists.mp hne
        obtain ⟨no, hno⟩ := Option.isSome_iff_exists.mp (hlive b n hn o ho)
        have hpath := ih (rank o) (by rw [← hr]; exact hrank b n hn o ho) hno
          (hgreatest.trans hu.symm) rfl
        rw [← hu, ← WithBot.coe_add, WithBot.coe_inj] at hvalue
        rw [← hvalue]
        exact hpath.step hn ho hon hthrough
      · exact absurd hvalue WithBot.bot_ne_coe

/-- A path is no longer than the level rises. -/
theorem Path.le_of_rises {level : ℕ → ℕ} (h : Path m g source b w) (hlevel : g.Rises
    (fun label => if m.through label then some (m.weight label) else none) level) :
    level source + w ≤ level b := by
  induction h with
  | nil => exact le_rfl
  | @step o b w n _ hn ho _ hthrough ih =>
    have hrise := hlevel b n _ hn (if_pos hthrough) o ho
    omega

/-- Where the lengths of all paths are bounded, the longest one to a vertex is a level. -/
theorem exists_rises (hlive : Live g) (hon : ∀ label, m.on label = true) {limit : ℕ}
    (hlimit : 0 < limit) (hbound : ∀ a b w, Path m g a b w → w < limit) :
    ∃ level, g.Rises (fun label => if m.through label then some (m.weight label) else none) level ∧
      ∀ k, level k < limit := by
  have hbdd : ∀ k, BddAbove {w | ∃ a, Path m g a k w} := by
    refine fun k => ⟨limit, ?_⟩
    rintro w ⟨a, hw⟩
    exact (hbound a k w hw).le
  refine ⟨fun k => sSup {w | ∃ a, Path m g a k w}, ?_, fun k => ?_⟩
  · intro k n w hn hw o ho
    obtain ⟨hthrough, hw⟩ := Option.ite_none_right_eq_some.mp hw
    cases hw
    obtain ⟨no, hno⟩ := Option.isSome_iff_exists.mp (hlive k n hn o ho)
    have hne : {w | ∃ a, Path m g a o w}.Nonempty := ⟨0, o, Path.nil hno (hon _)⟩
    obtain ⟨a, ha⟩ := Nat.sSup_mem hne (hbdd o)
    exact le_csSup (hbdd k) ⟨a, ha.step hn ho (hon _) hthrough⟩
  · rcases Set.eq_empty_or_nonempty {w | ∃ a, Path m g a k w} with hempty | hne
    · change sSup {w | ∃ a, Path m g a k w} < limit
      rwa [hempty, csSup_empty]
    · obtain ⟨a, ha⟩ := Nat.sSup_mem hne (hbdd k)
      exact hbound a k _ ha

section

variable (hacyclic : g.IsAcyclic) (hlive : Live g)
  (hval : TermGraph.IsValuation (sem m source) g val) (hb : (g.vertex b).isSome = true)

include hacyclic hlive hval hb

/-- The value is the length of the longest path. -/
theorem eq_coe_iff : val b = WithBot.some w ↔ IsGreatest {w | Path m g source b w} w := by
  obtain ⟨n, hn⟩ := Option.isSome_iff_exists.mp hb
  constructor
  · intro hw
    refine ⟨exists_path hacyclic hlive hval hn hw, fun u hu => ?_⟩
    rw [← WithBot.coe_le_coe, ← hw]
    exact hu.le hval
  · rintro ⟨hw, hmax⟩
    apply le_antisymm
    · rcases hv : val b with - | u
      · exact bot_le
      · exact WithBot.coe_le_coe.mpr (hmax (exists_path hacyclic hlive hval hn hv))
    · exact hw.le hval

/-- There is a value when there is a path. -/
theorem ne_bot_iff : val b ≠ ⊥ ↔ ∃ w, Path m g source b w := by
  obtain ⟨n, hn⟩ := Option.isSome_iff_exists.mp hb
  constructor
  · intro hne
    obtain ⟨w, hw⟩ := WithBot.ne_bot_iff_exists.mp hne
    exact ⟨w, exists_path hacyclic hlive hval hn hw.symm⟩
  · rintro ⟨w, hw⟩ hbot
    have hle := hw.le hval
    rw [hbot] at hle
    exact WithBot.bot_ne_coe (le_bot_iff.mp hle).symm

end

end LongestPath
