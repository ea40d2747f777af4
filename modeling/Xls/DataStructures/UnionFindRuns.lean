/-
# Runs of a union-find

Any sequence of `Insert`, `Union` and `Find`.  A check fails exactly where an element is asked for
which no call before has inserted, and the representatives tell the classes which the calls of
`Union` generate.
-/
import Xls.DataStructures.UnionFind
import Xls.Lib.FoldM

namespace Xls

namespace UnionFind

open Relation

variable {T : Type} [DecidableEq T]

/-- A call of a method. -/
inductive Call (T : Type) where
  | insert (x : T)
  | union (x y : T)
  | find (x : T)

/-- The structure after a call. -/
def call (u : UnionFind T) : Call T → Option (UnionFind T)
  | .insert x => insert u x
  | .union x y => union u x y
  | .find x => (find u x).map Prod.snd

/-- The structure after some calls. -/
def runCalls (calls : List (Call T)) : Option (UnionFind T) := calls.foldlM call UnionFindMap.empty

omit [DecidableEq T] in
/-- The elements which a call asks for have been inserted. -/
def Call.Ready (before : List (Call T)) : Call T → Prop
  | .insert _ => True
  | .union x y => .insert x ∈ before ∧ .insert y ∈ before
  | .find x => .insert x ∈ before

omit [DecidableEq T] in
/-- The calls put two elements together. -/
def Joined (calls : List (Call T)) (x y : T) : Prop := .union x y ∈ calls

/-- What holds after some calls. -/
structure After (calls : List (Call T)) (u : UnionFind T) (rep : T → Option T) : Prop where
  partition : Partition u rep (Joined calls)
  inserted : ∀ x, rep x ≠ none ↔ .insert x ∈ calls

variable {calls : List (Call T)} {u : UnionFind T} {rep : T → Option T} {x y : T}

omit [DecidableEq T] in
theorem Partition.union_eq_none {R : T → T → Prop} (h : Partition u rep R)
    (hxy : rep x = none ∨ rep y = none) : UnionFind.union u x y = none := by
  obtain ⟨c, hc, rfl⟩ := h.represents
  have hmissing : ∀ k, c.rep k = none → UnionFindMap.keyToIndex u k = none := by
    intro k hk
    rcases hkey : UnionFindMap.keyToIndex u k with - | i
    · rfl
    · obtain ⟨r, -, -, -, hr, -⟩ := hc.findRoot (hc.index_iff.mp hkey)
      rw [hk] at hr
      cases hr
  rw [UnionFind.union, UnionFindMap.union]
  rcases hxy with hx | hy
  · rw [hmissing x hx]
  · rw [hmissing y hy]
    cases UnionFindMap.keyToIndex u x <;> rfl

omit [DecidableEq T] in
/-- A representative belongs to the class. -/
theorem After.mem_class (h : After calls u rep) {r : T} (hr : rep x = some r) :
    EqvGen (Joined calls) x r := by
  obtain ⟨c, hc, hrep⟩ := h.partition.represents
  have hroot : rep r = some r := by
    rw [← hrep] at hr ⊢
    exact hc.rep_rep hr
  apply (h.partition.same_iff x r _ _).mp
  · rw [hr, hroot]
  · rw [hr]
    exact Option.some_ne_none r
  · rw [hroot]
    exact Option.some_ne_none r

/-- One call. -/
theorem After.call (h : After calls u rep) (c : Call T) :
    ((UnionFind.call u c).isSome = true ↔ c.Ready calls) ∧
      ∀ u', UnionFind.call u c = some u' → ∃ rep', After (calls ++ [c]) u' rep' := by
  have hjoined : (∀ x y, c ≠ .union x y) → ∀ x y, Joined calls x y ↔ Joined (calls ++ [c]) x y := by
    intro hc x y
    simp [Joined, (hc x y).symm]
  have hinsert : (∀ x, c ≠ .insert x) → ∀ x, .insert x ∈ calls ↔ .insert x ∈ calls ++ [c] := by
    intro hc x
    simp [(hc x).symm]
  cases c with
  | insert x =>
    obtain ⟨u', rep', hu', hpartition, hrep⟩ := h.partition.insert x
    rw [UnionFind.call, hu']
    refine ⟨iff_of_true rfl trivial, fun u₂ h₂ => ?_⟩
    obtain rfl := Option.some.inj h₂
    refine ⟨rep', hpartition.of_iff (hjoined nofun), fun y => ?_⟩
    rw [hrep, h.inserted, List.mem_append, List.mem_singleton, Call.insert.injEq, or_comm]
  | union x y =>
    by_cases hready : (.insert x ∈ calls) ∧ .insert y ∈ calls
    · obtain ⟨u', rep', hu', hpartition, hrep⟩ :=
        h.partition.union ((h.inserted x).mpr hready.1) ((h.inserted y).mpr hready.2)
      rw [UnionFind.call, hu']
      refine ⟨iff_of_true rfl hready, fun u₂ h₂ => ?_⟩
      obtain rfl := Option.some.inj h₂
      refine ⟨rep', hpartition.of_iff fun k l => ?_, fun k => ?_⟩
      · simp [Joined]
      · rw [hrep, h.inserted, ← hinsert nofun]
    · have hnone : UnionFind.union u x y = none := by
        apply h.partition.union_eq_none
        rw [← h.inserted, ← h.inserted, ne_eq, ne_eq, ← not_or, not_not] at hready
        exact hready
      rw [UnionFind.call, hnone]
      exact ⟨iff_of_false Bool.false_ne_true hready, nofun⟩
  | find x =>
    rcases hr : rep x with - | r
    · have hnot : .insert x ∉ calls := by
        rw [← h.inserted, hr]
        simp
      rw [UnionFind.call, h.partition.find_eq_none hr]
      exact ⟨iff_of_false Bool.false_ne_true hnot, nofun⟩
    · obtain ⟨u', hfind, hpartition⟩ := h.partition.find hr
      rw [UnionFind.call, hfind]
      refine ⟨iff_of_true rfl ((h.inserted x).mp (by rw [hr]; exact Option.some_ne_none r)),
        fun u₂ h₂ => ?_⟩
      obtain rfl := Option.some.inj h₂
      refine ⟨rep, hpartition.of_iff (hjoined nofun), fun y => ?_⟩
      rw [h.inserted, ← hinsert nofun]

/-- A run of calls: when its checks fail, and what `Find` answers after it. -/
theorem runCalls_classes (calls : List (Call T)) : ((runCalls calls).isSome = true ↔
      ∀ before c after, calls = before ++ c :: after → c.Ready before) ∧
    ∀ u, runCalls calls = some u → ∀ x, ((.insert x ∉ calls) → find u x = none) ∧
      ((.insert x ∈ calls) → ∃ r u', find u x = some (r, u') ∧ EqvGen (Joined calls) x r ∧
        ∀ y, (.insert y ∈ calls) → ∃ r' u'', find u y = some (r', u'') ∧
          (r = r' ↔ EqvGen (Joined calls) x y)) := by
  have hstart : After [] (UnionFindMap.empty : UnionFind T) fun _ => none := by
    refine ⟨partition_empty.of_iff fun x y => ?_, fun x => ?_⟩
    · simp [Joined]
    · simp
  have hstep : ∀ (before : List (Call T)) c after u, calls = before ++ c :: after →
      (∃ rep, After before u rep) → ((UnionFind.call u c).isSome = true ↔ c.Ready before) ∧
        ∀ u', UnionFind.call u c = some u' → ∃ rep', After (before ++ [c]) u' rep' := by
    rintro before c after u - ⟨rep, h⟩
    exact h.call c
  obtain ⟨hiff, hend⟩ := foldlM_exact hstep ⟨_, hstart⟩
  refine ⟨hiff, fun u hu x => ?_⟩
  obtain ⟨rep, h⟩ := hend u hu
  constructor
  · intro hx
    apply h.partition.find_eq_none
    by_contra hrep
    exact hx ((h.inserted x).mp hrep)
  · intro hx
    have hxrep := (h.inserted x).mpr hx
    obtain ⟨r, hr⟩ := Option.ne_none_iff_exists'.mp hxrep
    obtain ⟨u', hfind, -⟩ := h.partition.find hr
    refine ⟨r, u', hfind, h.mem_class hr, fun y hy => ?_⟩
    have hyrep := (h.inserted y).mpr hy
    obtain ⟨r', hr'⟩ := Option.ne_none_iff_exists'.mp hyrep
    obtain ⟨u'', hfind', -⟩ := h.partition.find hr'
    refine ⟨r', u'', hfind', ?_⟩
    rw [← h.partition.same_iff x y hxrep hyrep, hr, hr', Option.some.injEq]

end UnionFind

end Xls
