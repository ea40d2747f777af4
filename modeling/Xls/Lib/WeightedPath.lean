/-
# Weighted paths

Paths from a point along successors, with the sum of the weights of all points on the way,
both ends included.  Points are placed in cycles, no point before a predecessor.  That no path
within one cycle is heavier than a limit can be said by pairs of points: it is enough that the
two ends of a path are apart when the heaviest path between them is over the limit and is not
without its last point (`apart_iff`).
-/
import Mathlib.Algebra.BigOperators.Group.List.Basic
import Mathlib.Algebra.Order.Group.Int
import Mathlib.Data.List.Chain
import Mathlib.Logic.Relation
import Mathlib.Order.Bounds.Basic
import Mathlib.Order.WellFounded
import Mathlib.Tactic.Linarith

namespace WeightedPath

variable {α : Type} (R : α → α → Prop) (weight : α → ℤ)

/-- A path from `a`; `R n p` says that `p` is a predecessor of `n`. -/
inductive Path (a : α) : α → ℤ → Prop
  | single : Path a a (weight a)
  | extend {p n : α} {d : ℤ} : Path a p d → R n p → Path a n (d + weight n)

/-- The weights of the paths between two points. -/
def weights (a n : α) : Set ℤ := {d | Path R weight a n d}

variable {R weight} {a n : α} {d : ℤ}

/-- The last point of a path. -/
theorem path_iff : Path R weight a n d ↔
    (a = n ∧ d = weight n) ∨ ∃ p, R n p ∧ ∃ e, Path R weight a p e ∧ d = e + weight n := by
  constructor
  · rintro (_ | ⟨hpath, hr⟩)
    · exact Or.inl ⟨rfl, rfl⟩
    · exact Or.inr ⟨_, hr, _, hpath, rfl⟩
  · rintro (⟨rfl, rfl⟩ | ⟨p, hr, e, hpath, rfl⟩)
    · exact Path.single
    · exact hpath.extend hr

/-- A path is a chain of points, from its last one to its first. -/
theorem path_iff_chain : Path R weight a n d ↔ ∃ l : List α, (n :: l).IsChain R ∧
    (n :: l).getLast (List.cons_ne_nil n l) = a ∧ ((n :: l).map weight).sum = d := by
  constructor
  · intro h
    induction h with
    | single => exact ⟨[], List.IsChain.singleton _, rfl, by simp⟩
    | @extend p n d _ hr ih =>
      obtain ⟨l, hchain, hlast, hsum⟩ := ih
      refine ⟨p :: l, hchain.cons_cons hr, ?_, ?_⟩
      · rw [List.getLast_cons (List.cons_ne_nil p l), hlast]
      · rw [List.map_cons, List.sum_cons, hsum, add_comm]
  · rintro ⟨l, hchain, hlast, hsum⟩
    induction l generalizing n d with
    | nil =>
      obtain rfl : n = a := hlast
      rw [List.map_singleton, List.sum_singleton] at hsum
      exact hsum ▸ Path.single
    | cons p l ih =>
      obtain ⟨hr, hrest⟩ := List.isChain_cons_cons.mp hchain
      rw [List.map_cons, List.sum_cons, add_comm] at hsum
      rw [← hsum]
      exact (ih hrest hlast rfl).extend hr

theorem Path.nonneg (h : Path R weight a n d) (hweight : ∀ n, 0 ≤ weight n) : 0 ≤ d := by
  induction h with
  | single => exact hweight _
  | extend _ _ ih => exact add_nonneg ih (hweight _)

/-- A point is reached along successors exactly when there is a path to it. -/
theorem exists_path_iff : (∃ d, Path R weight a n d) ↔
    Relation.ReflTransGen (fun p n => R n p) a n := by
  constructor
  · rintro ⟨d, h⟩
    induction h with
    | single => exact .refl
    | extend _ hr ih => exact ih.tail hr
  · intro h
    induction h with
    | refl => exact ⟨_, .single⟩
    | tail _ hr ih =>
      obtain ⟨d, hd⟩ := ih
      exact ⟨_, hd.extend hr⟩

/-! ## Paths within one cycle -/

/-- Being a predecessor in the same cycle. -/
def Within (R : α → α → Prop) (cycle : α → ℤ) (n p : α) : Prop := R n p ∧ cycle p = cycle n

variable {cycle : α → ℤ}

theorem Path.of_within (h : Path (Within R cycle) weight a n d) :
    Path R weight a n d ∧ cycle a = cycle n := by
  induction h with
  | single => exact ⟨Path.single, rfl⟩
  | extend _ hr ih => exact ⟨ih.1.extend hr.1, ih.2.trans hr.2⟩

/-- Along a path the cycles grow. -/
theorem Path.cycle_le (hmono : ∀ n p, R n p → cycle p ≤ cycle n) (h : Path R weight a n d) :
    cycle a ≤ cycle n := by
  induction h with
  | single => exact le_rfl
  | extend _ hr ih => exact ih.trans (hmono _ _ hr)

/-- A path whose ends are in one cycle stays in it. -/
theorem Path.within (hmono : ∀ n p, R n p → cycle p ≤ cycle n) (h : Path R weight a n d)
    (hle : cycle n ≤ cycle a) : Path (Within R cycle) weight a n d := by
  induction h with
  | single => exact Path.single
  | extend hpath hr ih =>
    have hstart := hpath.cycle_le hmono
    have hstep := hmono _ _ hr
    exact (ih (hstep.trans hle)).extend ⟨hr, by linarith⟩

/-- **Pruned pairs.**  Among points which are closed under predecessors, where heaviest paths
exist and no point alone is over the limit, the pairs whose heaviest path goes over the limit
with its last point are enough to keep all paths within one cycle below the limit. -/
theorem apart_iff {limit : ℤ} {points : Set α} (hwf : WellFounded fun p n => R n p)
    (hclosed : ∀ n ∈ points, ∀ p, R n p → p ∈ points)
    (hmono : ∀ n p, R n p → cycle p ≤ cycle n) (hweight : ∀ n ∈ points, weight n ≤ limit)
    (hheaviest : ∀ n ∈ points, ∀ a d, Path R weight a n d →
      ∃ D, IsGreatest (weights R weight a n) D) :
    (∀ n ∈ points, ∀ a D, IsGreatest (weights R weight a n) D → limit < D → D - weight n ≤ limit →
        cycle a + 1 ≤ cycle n) ↔
      ∀ n ∈ points, ∀ a d, Path (Within R cycle) weight a n d → d ≤ limit := by
  constructor
  · intro hapart n
    -- the first point at which the heaviest path goes over the limit makes a pair
    induction n using hwf.induction with
    | _ n ih =>
      intro hn a d hd
      by_contra hover
      obtain ⟨hpath, hcycle⟩ := hd.of_within
      obtain ⟨D, hD⟩ := hheaviest n hn a d hpath
      have hle : d ≤ D := hD.2 hpath
      by_cases hpair : D - weight n ≤ limit
      · have := hapart n hn a D hD (by linarith) hpair
        linarith
      · rcases path_iff.mp hD.1 with ⟨-, rfl⟩ | ⟨p, hr, e, hpred, rfl⟩
        · exact hover (hle.trans (hweight n hn))
        · have hstep := hmono n p hr
          have := ih p hr (hclosed n hn p hr) a e (hpred.within hmono (by linarith))
          linarith
  · intro hwithin n hn a D hD hover _
    by_contra hlt
    have := hwithin n hn a D (hD.1.within hmono (by linarith))
    linarith

/-! ## Heaviest paths, computed -/

/-- The number, if any, is the greatest element of the set. -/
def IsMax (s : Set ℤ) : Option ℤ → Prop
  | none => s = ∅
  | some d => IsGreatest s d

theorem isMax_some_iff {s : Set ℤ} {x : Option ℤ} (h : IsMax s x) {d : ℤ} :
    x = some d ↔ IsGreatest s d := by
  rcases x with _ | e
  · obtain rfl : s = ∅ := h
    exact ⟨fun h => by simp at h, fun h => absurd h.1 (Set.notMem_empty d)⟩
  · have he : IsGreatest s e := h
    rw [Option.some.injEq]
    exact ⟨fun hed => hed ▸ he, fun hd => he.unique hd⟩

/-- A number which is raised by another one plus a weight. -/
def raise (w : ℤ) (x y : Option ℤ) : Option ℤ :=
  match y with
  | none => x
  | some e =>
    match x with
    | none => some (e + w)
    | some d => if d ≥ e + w then some d else some (e + w)

theorem IsMax.raise {s t : Set ℤ} {x y : Option ℤ} (hx : IsMax s x) (hy : IsMax t y) (w : ℤ) :
    IsMax (s ∪ (· + w) '' t) (raise w x y) := by
  rcases y with _ | e
  · obtain rfl : t = ∅ := hy
    rw [Set.image_empty, Set.union_empty]
    exact hx
  · have he : IsGreatest t e := hy
    have hshift : IsGreatest ((· + w) '' t) (e + w) := by
      refine ⟨⟨e, he.1, rfl⟩, ?_⟩
      rintro _ ⟨e', he', rfl⟩
      have := he.2 he'
      linarith
    rcases x with _ | d
    · obtain rfl : s = ∅ := hx
      rw [Set.empty_union]
      exact hshift
    · have hd : IsGreatest s d := hx
      show IsMax _ (if d ≥ e + w then some d else some (e + w))
      have hmax := hd.union hshift
      split
      · rename_i h
        rwa [max_eq_left h] at hmax
      · rename_i h
        rwa [max_eq_right (not_le.mp h).le] at hmax

/-- The weights of the paths to a point come from those to its predecessors. -/
theorem isMax_foldl [DecidableEq α] {preds : List α} (hpreds : ∀ p, p ∈ preds ↔ R n p)
    {heaviest : α → Option ℤ} (h : ∀ p ∈ preds, IsMax (weights R weight a p) (heaviest p)) :
    IsMax (weights R weight a n) (preds.foldl (fun x p => raise (weight n) x (heaviest p))
        (if a = n then some (weight n) else none)) := by
  have hfold : ∀ (l : List α) (s : Set ℤ) (x : Option ℤ), (∀ p ∈ l, p ∈ preds) → IsMax s x →
      IsMax (s ∪ {d | ∃ p ∈ l, ∃ e ∈ weights R weight a p, d = e + weight n})
        (l.foldl (fun x p => raise (weight n) x (heaviest p)) x) := by
    intro l
    induction l with
    | nil =>
      intro s x _ hx
      simpa using hx
    | cons p l ih =>
      intro s x hl hx
      have hstep := hx.raise (h p (hl p (by simp))) (weight n)
      have hrest := ih _ _ (fun q hq => hl q (List.mem_cons_of_mem _ hq)) hstep
      rw [List.foldl_cons]
      convert hrest using 1
      ext d
      simp only [Set.mem_union, List.mem_cons, exists_eq_or_imp, or_assoc]
      exact or_congr_right (or_congr_left (exists_congr fun e => and_congr_right fun _ => eq_comm))
  have hself : IsMax {d | a = n ∧ d = weight n} (if a = n then some (weight n) else none) := by
    split
    · rename_i heq
      exact ⟨⟨heq, rfl⟩, fun d hd => hd.2.le⟩
    · rename_i hne
      exact Set.eq_empty_of_forall_notMem fun d hd => hne hd.1
  have hall := hfold preds _ _ (fun _ hp => hp) hself
  convert hall using 1
  ext d
  show Path R weight a n d ↔ _
  rw [path_iff]
  simp only [hpreds]
  rfl

end WeightedPath
