/-
# Graphs of terms

The vertices of a graph have a label and operands, which are vertices, by position.  A
valuation gives each vertex the value which its label computes from the values of its
operands; the order in which vertices were made does not matter.  The rules below say what
the edits of a graph do to its valuations.

* `isValuation_make` : a new vertex;
* `isValuation_replaceUses` : another operand with the same value;
* `isValuation_remove` : a vertex without uses;
* `IsValuation.unique` : there is one valuation when operands come before their users.
-/
import Mathlib.Data.List.Basic
import Mathlib.Order.WellFounded
import Mathlib.Logic.Function.Basic

/-- A vertex: a label, and operands by position. -/
structure Vertex (α : Type) where
  label : α
  operands : List ℕ
  deriving DecidableEq, Repr

/-- A graph: a removed vertex leaves a gap. -/
abbrev TermGraph (α : Type) := List (Option (Vertex α))

namespace TermGraph

variable {α V : Type}

/-- The vertex at a position. -/
def vertex (g : TermGraph α) (i : ℕ) : Option (Vertex α) := g[i]?.join

/-- A new vertex, whose position is the length of the graph. -/
def make (g : TermGraph α) (n : Vertex α) : TermGraph α := g ++ [some n]

/-- One operand becomes another. -/
def redirect (i j k : ℕ) : ℕ := if k = i then j else k

/-- All uses of `i` become uses of `j`. -/
def replaceUses (g : TermGraph α) (i j : ℕ) : TermGraph α :=
  g.map fun v => v.map fun n => ⟨n.label, n.operands.map (redirect i j)⟩

/-- A vertex is removed. -/
def remove (g : TermGraph α) (i : ℕ) : TermGraph α := g.set i none

/-- Some vertex has the operand `i`. -/
def Uses (g : TermGraph α) (i : ℕ) : Prop := ∃ k n, g.vertex k = some n ∧ i ∈ n.operands

/-- The vertex `k` has the operand `i`. -/
def UsedBy (g : TermGraph α) (i k : ℕ) : Prop := ∃ n, g.vertex k = some n ∧ i ∈ n.operands

/-- Some vertex has the operand `i`. -/
def hasUsers (g : TermGraph α) (i : ℕ) : Bool :=
  g.any fun v => v.any fun n => decide (i ∈ n.operands)

/-- The vertices which have the operand `i`. -/
def users (g : TermGraph α) (i : ℕ) : List ℕ :=
  (List.range g.length).filter fun k => (g.vertex k).any fun n => decide (i ∈ n.operands)

/-- Operands have a smaller rank than their users. -/
def Ranks (g : TermGraph α) (rank : ℕ → ℕ) : Prop :=
  ∀ k n, g.vertex k = some n → ∀ o ∈ n.operands, rank o < rank k

/-- Operands come before their users in some order. -/
def IsAcyclic (g : TermGraph α) : Prop := ∃ rank, g.Ranks rank

/-- Each vertex has the value its label computes from the values of its operands. -/
def IsValuation (sem : ℕ → α → List V → Option V) (g : TermGraph α) (val : ℕ → V) : Prop :=
  ∀ i n, g.vertex i = some n → sem i n.label (n.operands.map val) = some (val i)

/-! ## Vertices -/

variable {g : TermGraph α} {n : Vertex α} {i j k : ℕ}

theorem lt_length_of_vertex (h : g.vertex i = some n) : i < g.length := by
  rw [vertex, Option.join_eq_some_iff] at h
  exact (List.getElem?_eq_some_iff.mp h).choose

theorem hasUsers_iff : g.hasUsers i = true ↔ g.Uses i := by
  rw [hasUsers, List.any_eq_true]
  constructor
  · rintro ⟨v, hv, hi⟩
    cases v with
    | none => cases hi
    | some n =>
      obtain ⟨k, hk⟩ := List.mem_iff_getElem?.mp hv
      refine ⟨k, n, ?_, of_decide_eq_true hi⟩
      rw [vertex, hk]
      rfl
  · rintro ⟨k, n, hn, hi⟩
    rw [vertex, Option.join_eq_some_iff] at hn
    exact ⟨some n, List.mem_of_getElem? hn, decide_eq_true hi⟩

theorem mem_users : k ∈ g.users i ↔ g.UsedBy i k := by
  rw [users, List.mem_filter, List.mem_range]
  constructor
  · rintro ⟨-, hany⟩
    cases hn : g.vertex k with
    | none =>
      rw [hn] at hany
      cases hany
    | some n =>
      rw [hn] at hany
      exact ⟨n, hn, of_decide_eq_true hany⟩
  · rintro ⟨n, hn, hi⟩
    refine ⟨lt_length_of_vertex hn, ?_⟩
    rw [hn]
    exact decide_eq_true hi

theorem Ranks.lt {rank : ℕ → ℕ} (h : g.Ranks rank) (hk : g.UsedBy i k) : rank i < rank k := by
  obtain ⟨n, hn, hi⟩ := hk
  exact h k n hn i hi

theorem Ranks.not_mem_operands {rank : ℕ → ℕ} (h : g.Ranks rank) (hn : g.vertex i = some n) :
    i ∉ n.operands :=
  fun hi => Nat.lt_irrefl _ (h i n hn i hi)

theorem vertex_append {h : TermGraph α} (hi : i < g.length) : vertex (g ++ h) i = g.vertex i := by
  rw [vertex, vertex, List.getElem?_append_left hi]

theorem vertex_make_length : (g.make n).vertex g.length = some n := by
  simp [vertex, make]

theorem vertex_make_of_ne (hi : i ≠ g.length) : (g.make n).vertex i = g.vertex i := by
  rcases lt_or_gt_of_ne hi with hi | hi
  · exact vertex_append hi
  · rw [vertex, vertex, make, List.getElem?_eq_none (by simp; omega),
      List.getElem?_eq_none (by omega)]

theorem vertex_replaceUses : (g.replaceUses i j).vertex k =
    (g.vertex k).map fun n => ⟨n.label, n.operands.map (redirect i j)⟩ := by
  simp only [vertex, replaceUses, List.getElem?_map]
  rcases g[k]? with _ | _ | n <;> rfl

theorem vertex_remove_self : (g.remove i).vertex i = none := by
  rw [vertex, remove, List.getElem?_set_self']
  cases g[i]? <;> rfl

theorem vertex_remove_of_ne (hk : k ≠ i) : (g.remove i).vertex k = g.vertex k := by
  rw [vertex, vertex, remove, List.getElem?_set_ne hk.symm]

@[simp] theorem length_make : (g.make n).length = g.length + 1 := by simp [make]

@[simp] theorem length_replaceUses : (g.replaceUses i j).length = g.length := by
  simp [replaceUses]

@[simp] theorem length_remove : (g.remove i).length = g.length := by simp [remove]

/-! ## Valuations -/

variable {sem : ℕ → α → List V → Option V} {val val' : ℕ → V}

/-- A new vertex has to have its value. -/
theorem isValuation_make : IsValuation sem (g.make n) val ↔
    IsValuation sem g val ∧ sem g.length n.label (n.operands.map val) = some (val g.length) := by
  constructor
  · intro h
    refine ⟨?_, h _ _ vertex_make_length⟩
    intro i m hm
    exact h i m (by rw [vertex_make_of_ne (lt_length_of_vertex hm).ne, hm])
  · rintro ⟨h, hn⟩ i m hm
    by_cases hi : i = g.length
    · subst hi
      rw [vertex_make_length, Option.some.injEq] at hm
      subst hm
      exact hn
    · rw [vertex_make_of_ne hi] at hm
      exact h i m hm

theorem map_redirect (h : val i = val j) (operands : List ℕ) :
    (operands.map (redirect i j)).map val = operands.map val := by
  rw [List.map_map]
  apply List.map_congr_left
  intro k _
  rw [Function.comp_apply, redirect]
  split_ifs with hk
  · rw [hk, h]
  · rfl

/-- An operand may be exchanged for one of the same value. -/
theorem isValuation_replaceUses (h : val i = val j) :
    IsValuation sem (g.replaceUses i j) val ↔ IsValuation sem g val := by
  constructor
  · intro hval k n hn
    have := hval k _ (by rw [vertex_replaceUses, hn, Option.map_some])
    rwa [map_redirect h] at this
  · intro hval k n hn
    rw [vertex_replaceUses, Option.map_eq_some_iff] at hn
    obtain ⟨m, hm, rfl⟩ := hn
    rw [map_redirect h]
    exact hval k m hm

/-- A removed vertex need not have its value any more. -/
theorem isValuation_remove (hn : g.vertex i = some n) : IsValuation sem g val ↔
    IsValuation sem (g.remove i) val ∧ sem i n.label (n.operands.map val) = some (val i) := by
  constructor
  · intro h
    refine ⟨?_, h i n hn⟩
    intro k m hm
    have hk : k ≠ i := by
      rintro rfl
      rw [vertex_remove_self] at hm
      cases hm
    rw [vertex_remove_of_ne hk] at hm
    exact h k m hm
  · rintro ⟨h, hi⟩ k m hm
    by_cases hk : k = i
    · subst hk
      rw [hn, Option.some.injEq] at hm
      subst hm
      exact hi
    · exact h k m (by rw [vertex_remove_of_ne hk, hm])

/-- Only the values of vertices and operands matter. -/
theorem IsValuation.congr (h : IsValuation sem g val)
    (hvertex : ∀ k m, g.vertex k = some m → val' k = val k ∧ ∀ o ∈ m.operands, val' o = val o) :
    IsValuation sem g val' := by
  intro k m hm
  obtain ⟨hk, hoperands⟩ := hvertex k m hm
  rw [hk, List.map_congr_left hoperands]
  exact h k m hm

/-- When operands come before their users in some order, there is one valuation. -/
theorem IsValuation.unique {rank : ℕ → ℕ} (h : IsValuation sem g val) (h' : IsValuation sem g val')
    (hrank : ∀ k m, g.vertex k = some m → ∀ o ∈ m.operands, rank o < rank k ∧ g.vertex o ≠ none) :
    ∀ k m, g.vertex k = some m → val k = val' k := by
  intro k
  induction hr : rank k using Nat.strong_induction_on generalizing k with
  | _ r ih =>
    intro m hm
    have hoperands : m.operands.map val = m.operands.map val' := by
      apply List.map_congr_left
      intro o ho
      obtain ⟨hlt, hlive⟩ := hrank k m hm o ho
      obtain ⟨u, hu⟩ := Option.ne_none_iff_exists'.mp hlive
      exact ih (rank o) (by omega) o rfl u hu
    have hval := h k m hm
    rw [hoperands, h' k m hm] at hval
    exact (Option.some.inj hval).symm

/-! ## Growing a graph -/

/-- All operands are positions of the graph. -/
def Bounded (g : TermGraph α) : Prop :=
  ∀ k m, g.vertex k = some m → ∀ o ∈ m.operands, o < g.length

theorem Bounded.make (h : g.Bounded) (hn : ∀ o ∈ n.operands, o < g.length) :
    (g.make n).Bounded := by
  intro k m hm o ho
  rw [length_make]
  by_cases hk : k = g.length
  · subst hk
    rw [vertex_make_length, Option.some.injEq] at hm
    subst hm
    exact Nat.lt_succ_of_lt (hn o ho)
  · rw [vertex_make_of_ne hk] at hm
    exact Nat.lt_succ_of_lt (h k m hm o ho)

theorem redirect_lt {bound : ℕ} (hj : j < bound) (hk : k < bound) : redirect i j k < bound := by
  rw [redirect]
  split_ifs
  · exact hj
  · exact hk

theorem Bounded.replaceUses (h : g.Bounded) (hj : j < g.length) : (g.replaceUses i j).Bounded := by
  intro k m hm o ho
  rw [vertex_replaceUses, Option.map_eq_some_iff] at hm
  obtain ⟨m', hm', rfl⟩ := hm
  obtain ⟨o', ho', rfl⟩ := List.mem_map.mp ho
  rw [length_replaceUses]
  exact redirect_lt hj (h k m' hm' o' ho')

/-- Nothing uses a vertex whose uses were replaced. -/
theorem not_uses_replaceUses (hij : i ≠ j) : ¬ (g.replaceUses i j).Uses i := by
  rintro ⟨k, m, hm, hi⟩
  rw [vertex_replaceUses, Option.map_eq_some_iff] at hm
  obtain ⟨m', -, rfl⟩ := hm
  obtain ⟨o, -, ho⟩ := List.mem_map.mp hi
  rw [redirect] at ho
  split_ifs at ho with h
  · exact hij ho.symm
  · exact h ho

/-- Each valuation of the smaller graph extends to one of the larger graph, whose
valuations are valuations of the smaller one. -/
structure Grows (sem : ℕ → α → List V → Option V) (g g' : TermGraph α) : Prop where
  le : g.length ≤ g'.length
  extend : ∀ val, IsValuation sem g val →
    ∃ val', IsValuation sem g' val' ∧ ∀ k < g.length, val' k = val k
  restrict : ∀ val, IsValuation sem g' val → IsValuation sem g val

theorem Grows.refl (sem : ℕ → α → List V → Option V) (g : TermGraph α) : Grows sem g g :=
  ⟨le_rfl, fun val h => ⟨val, h, fun _ _ => rfl⟩, fun _ h => h⟩

theorem Grows.trans {g₁ g₂ g₃ : TermGraph α} (h : Grows sem g₁ g₂) (h' : Grows sem g₂ g₃) :
    Grows sem g₁ g₃ := by
  refine ⟨h.le.trans h'.le, ?_, fun val hval => h.restrict val (h'.restrict val hval)⟩
  intro val hval
  obtain ⟨val₂, hval₂, hagree₂⟩ := h.extend val hval
  obtain ⟨val₃, hval₃, hagree₃⟩ := h'.extend val₂ hval₂
  refine ⟨val₃, hval₃, ?_⟩
  intro k hk
  rw [hagree₃ k (lt_of_lt_of_le hk h.le), hagree₂ k hk]

/-- A new vertex, which has a value under each valuation. -/
theorem Grows.make (hbounded : g.Bounded) (hn : ∀ o ∈ n.operands, o < g.length)
    (hsem : ∀ val, IsValuation sem g val →
      ∃ v, sem g.length n.label (n.operands.map val) = some v) : Grows sem g (g.make n) := by
  refine ⟨by simp, ?_, fun val hval => (isValuation_make.mp hval).1⟩
  intro val hval
  obtain ⟨v, hv⟩ := hsem val hval
  have hagree : ∀ k < g.length, Function.update val g.length v k = val k := by
    intro k hk
    rw [Function.update_of_ne hk.ne]
  refine ⟨Function.update val g.length v, isValuation_make.mpr ⟨?_, ?_⟩, hagree⟩
  · apply hval.congr
    intro k m hm
    exact ⟨hagree k (lt_length_of_vertex hm), fun o ho => hagree o (hbounded k m hm o ho)⟩
  · rw [Function.update_self, ← hv]
    exact congrArg _ (List.map_congr_left fun o ho => hagree o (hn o ho))

/-! ## Added vertices -/

/-- Vertices are added whose labels are of some kind, and whose operands come before them:
of the vertices which were there, they use those which satisfy `S`. -/
structure Extends (kind : α → Prop) (S : ℕ → Prop) (g g' : TermGraph α) : Prop where
  le : g.length ≤ g'.length
  old : ∀ k < g.length, g'.vertex k = g.vertex k
  new : ∀ k n, g.length ≤ k → g'.vertex k = some n →
    kind n.label ∧ ∀ o ∈ n.operands, o < k ∧ (S o ∨ g.length ≤ o)

namespace Extends

variable {kind : α → Prop} {S S' : ℕ → Prop} {g g' g'' : TermGraph α} {n : Vertex α} {i j k : ℕ}

theorem refl (kind : α → Prop) (S : ℕ → Prop) (g : TermGraph α) : Extends kind S g g := by
  refine ⟨Nat.le_refl _, fun _ _ => rfl, ?_⟩
  intro k n hk hn
  exact absurd (lt_length_of_vertex hn) (Nat.not_lt.mpr hk)

theorem trans (h : Extends kind S g g') (h' : Extends kind S' g' g'')
    (hS : ∀ o, S' o → S o ∨ g.length ≤ o) : Extends kind S g g'' := by
  refine ⟨h.le.trans h'.le, ?_, ?_⟩
  · intro k hk
    rw [h'.old k (Nat.lt_of_lt_of_le hk h.le), h.old k hk]
  · intro k n hk hn
    rcases Nat.lt_or_ge k g'.length with hlt | hge
    · rw [h'.old k hlt] at hn
      exact h.new k n hk hn
    · obtain ⟨hkind, hoperands⟩ := h'.new k n hge hn
      refine ⟨hkind, ?_⟩
      intro o ho
      obtain ⟨hlt, ho⟩ := hoperands o ho
      refine ⟨hlt, ?_⟩
      rcases ho with ho | ho
      · exact hS o ho
      · exact Or.inr (h.le.trans ho)

theorem make (hkind : kind n.label) (hn : ∀ o ∈ n.operands, o < g.length ∧ S o) :
    Extends kind S g (g.make n) := by
  refine ⟨by simp, fun k hk => vertex_make_of_ne (Nat.ne_of_lt hk), ?_⟩
  intro k m hk hm
  have hkey : k = g.length := by
    have := lt_length_of_vertex hm
    rw [length_make] at this
    omega
  subst hkey
  rw [vertex_make_length, Option.some.injEq] at hm
  subst hm
  exact ⟨hkind, fun o ho => ⟨(hn o ho).1, Or.inl (hn o ho).2⟩⟩

end Extends

end TermGraph
