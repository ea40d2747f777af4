/-
# Union-find

`UnionFind` (`xls/data_structures/union_find.h`) on top of `UnionFindMap`.  `none` is a failed check:
`Union` and `Find` want elements which were inserted.

* `Partition` : the classes are those which the unions generate;
* `Partition.insert`, `Partition.union`, `Partition.find` : what the operations do to them.
-/
import Xls.DataStructures.UnionFindMap
import Mathlib.Logic.Relation

namespace Xls

/-- `UnionFind`. -/
abbrev UnionFind (T : Type) := UnionFindMap T Unit

namespace UnionFind

open Relation

variable {T : Type} [DecidableEq T]

/-- `Insert`. -/
def insert (u : UnionFind T) (element : T) : Option (UnionFind T) :=
  UnionFindMap.insert u element ()

omit [DecidableEq T] in
/-- `Union`, with its check. -/
def union (u : UnionFind T) (x y : T) : Option (UnionFind T) :=
  match UnionFindMap.union u x y fun _ _ => () with
  | some (true, u) => some u
  | _ => none

omit [DecidableEq T] in
/-- `Find`, with its check. -/
def find (u : UnionFind T) (element : T) : Option (T × UnionFind T) :=
  match UnionFindMap.find u element with
  | some (some found, u) => some (found.key, u)
  | _ => none

/-- The representatives of the inserted elements; the classes are those which a relation between
inserted elements generates. -/
structure Partition (u : UnionFind T) (rep : T → Option T) (R : T → T → Prop) : Prop where
  represents : ∃ c : Classes T Unit, UnionFindMap.Represents u c ∧ c.rep = rep
  inserted : ∀ x y, R x y → rep x ≠ none ∧ rep y ≠ none
  same_iff : ∀ x y, rep x ≠ none → rep y ≠ none → (rep x = rep y ↔ EqvGen R x y)

variable {u : UnionFind T} {rep : T → Option T} {R : T → T → Prop} {x y : T}

omit [DecidableEq T] in
/-- Elements of which one was not inserted are related only when they are equal. -/
theorem inserted_of_eqvGen (h : ∀ x y, R x y → rep x ≠ none ∧ rep y ≠ none) (hxy : EqvGen R x y) :
    x = y ∨ rep x ≠ none ∧ rep y ≠ none := by
  induction hxy with
  | rel a b hab => exact Or.inr (h a b hab)
  | refl a => exact Or.inl rfl
  | symm a b _ ih => exact ih.imp Eq.symm And.symm
  | trans a b c _ _ ihab ihbc =>
    rcases ihab with rfl | hab
    · exact ihbc
    · rcases ihbc with rfl | hbc
      · exact Or.inr hab
      · exact Or.inr ⟨hab.1, hbc.2⟩

omit [DecidableEq T] in
/-- A relation within the classes of another one generates no more. -/
theorem eqvGen_of_forall {R' : T → T → Prop} (h : ∀ a b, R a b → EqvGen R' a b)
    (hxy : EqvGen R x y) : EqvGen R' x y := by
  induction hxy with
  | rel a b hab => exact h a b hab
  | refl a => exact .refl a
  | symm a b _ ih => exact .symm a b ih
  | trans a b c _ _ ihab ihbc => exact .trans a b c ihab ihbc

omit [DecidableEq T] in
theorem partition_empty :
    Partition (UnionFindMap.empty : UnionFind T) (fun _ => none) fun _ _ => False where
  represents := ⟨_, .empty, rfl⟩
  inserted _ _ h := h.elim
  same_iff _ _ h := absurd rfl h

namespace Partition

omit [DecidableEq T] in
/-- The same classes, generated by another relation. -/
theorem congr (h : Partition u rep R) {R' : T → T → Prop}
    (hinserted : ∀ x y, R' x y → rep x ≠ none ∧ rep y ≠ none)
    (hle : ∀ x y, R x y → EqvGen R' x y) (hge : ∀ x y, R' x y → EqvGen R x y) :
    Partition u rep R' where
  represents := h.represents
  inserted := hinserted
  same_iff x y hx hy :=
    (h.same_iff x y hx hy).trans ⟨eqvGen_of_forall hle, eqvGen_of_forall hge⟩

omit [DecidableEq T] in
theorem of_iff (h : Partition u rep R) {R' : T → T → Prop} (hiff : ∀ x y, R x y ↔ R' x y) :
    Partition u rep R' := by
  have heq : R = R' := by
    funext x y
    exact propext (hiff x y)
  rw [← heq]
  exact h

/-- `Insert`: a new element is alone. -/
theorem insert (h : Partition u rep R) (x : T) :
    ∃ u' rep', UnionFind.insert u x = some u' ∧ Partition u' rep' R ∧
      ∀ y, rep' y ≠ none ↔ y = x ∨ rep y ≠ none := by
  obtain ⟨c, hc, rfl⟩ := h.represents
  by_cases hx : c.rep x = none
  · obtain ⟨u', hu', hc'⟩ := hc.insertWith_of_none hx () fun _ new => new
    have hrep : ∀ y, (c.single x ()).rep y = if y = x then some x else c.rep y := fun y =>
      Function.update_apply ..
    refine ⟨u', (c.single x ()).rep, hu', ⟨⟨_, hc', rfl⟩, fun a b hab => ?_, fun a b ha hb => ?_⟩,
      fun y => ?_⟩
    · rw [hrep, hrep]
      obtain ⟨ha, hb⟩ := h.inserted a b hab
      constructor
      · split_ifs
        · exact Option.some_ne_none x
        · exact ha
      · split_ifs
        · exact Option.some_ne_none x
        · exact hb
    · -- nothing that was inserted before is represented by the new element
      have hother : ∀ y, c.rep y ≠ some x := by
        intro y hy
        rw [hc.rep_rep hy] at hx
        cases hx
      rw [hrep] at ha hb ⊢
      rw [hrep]
      split_ifs at ha hb ⊢ with hax hbx hbx
      · rw [hax, hbx]
        exact iff_of_true rfl (.refl x)
      · refine iff_of_false (fun heq => hother b heq.symm) fun hab => ?_
        rcases inserted_of_eqvGen h.inserted hab with rfl | hboth
        · exact hbx hax
        · rw [hax] at hboth
          exact hboth.1 hx
      · refine iff_of_false (hother a) fun hab => ?_
        rcases inserted_of_eqvGen h.inserted hab with rfl | hboth
        · exact hax hbx
        · rw [hbx] at hboth
          exact hboth.2 hx
      · exact h.same_iff a b ha hb
    · rw [hrep]
      split_ifs with hy
      · exact iff_of_true (Option.some_ne_none x) (Or.inl hy)
      · simp [hy]
  · obtain ⟨r, hr⟩ := Option.ne_none_iff_exists'.mp hx
    obtain ⟨v, i, m', -, hv, -⟩ := hc.find hr
    obtain ⟨u', hu', hc'⟩ := hc.insertWith_of_rep hr hv fun _ new : Unit => new
    refine ⟨u', c.rep, hu', ⟨⟨_, hc', rfl⟩, h.inserted, h.same_iff⟩, fun y => ?_⟩
    constructor
    · exact Or.inr
    · rintro (rfl | hy)
      · exact hx
      · exact hy

omit [DecidableEq T] in
/-- `Find`: the representative, when the element was inserted. -/
theorem find (h : Partition u rep R) {r : T} (hr : rep x = some r) :
    ∃ u', UnionFind.find u x = some (r, u') ∧ Partition u' rep R := by
  obtain ⟨c, hc, rfl⟩ := h.represents
  obtain ⟨v, i, u', hfind, -, hc', -⟩ := hc.find hr
  refine ⟨u', ?_, ⟨c, hc', rfl⟩, h.inserted, h.same_iff⟩
  rw [UnionFind.find, hfind]

omit [DecidableEq T] in
/-- `Find` of an element which was not inserted fails. -/
theorem find_eq_none (h : Partition u rep R) (hx : rep x = none) : UnionFind.find u x = none := by
  obtain ⟨c, hc, rfl⟩ := h.represents
  rw [UnionFind.find, hc.find_none hx]

end Partition

omit [DecidableEq T] in
/-- Two classes are put together. -/
theorem eqvGen_insert_iff {a b : T} : EqvGen (fun k l => R k l ∨ k = x ∧ l = y) a b ↔
      EqvGen R a b ∨ (EqvGen R a x ∨ EqvGen R a y) ∧ (EqvGen R b x ∨ EqvGen R b y) := by
  constructor
  · intro hab
    induction hab with
    | rel a b hab =>
      rcases hab with hab | ⟨rfl, rfl⟩
      · exact Or.inl (.rel a b hab)
      · exact Or.inr ⟨Or.inl (.refl a), Or.inr (.refl b)⟩
    | refl a => exact Or.inl (.refl a)
    | symm a b _ ih => exact ih.imp (.symm a b) And.symm
    | trans a b c _ _ ihab ihbc =>
      rcases ihab with hab | hab
      · rcases ihbc with hbc | hbc
        · exact Or.inl (.trans a b c hab hbc)
        · exact Or.inr ⟨hbc.1.imp (.trans a b x hab) (.trans a b y hab), hbc.2⟩
      · rcases ihbc with hbc | hbc
        · have hcb := EqvGen.symm b c hbc
          exact Or.inr ⟨hab.1, hab.2.imp (.trans c b x hcb) (.trans c b y hcb)⟩
        · exact Or.inr ⟨hab.1, hbc.2⟩
  · have hmono : ∀ {a b}, EqvGen R a b → EqvGen (fun k l => R k l ∨ k = x ∧ l = y) a b :=
      fun h => h.mono fun _ _ => Or.inl
    have hxy : EqvGen (fun k l => R k l ∨ k = x ∧ l = y) x y := .rel x y (Or.inr ⟨rfl, rfl⟩)
    have hclass : ∀ a, EqvGen R a x ∨ EqvGen R a y →
        EqvGen (fun k l => R k l ∨ k = x ∧ l = y) a x := by
      rintro a (hax | hay)
      · exact hmono hax
      · exact .trans a y x (hmono hay) (.symm x y hxy)
    rintro (hab | ⟨ha, hb⟩)
    · exact hmono hab
    · exact .trans a x b (hclass a ha) (.symm b x (hclass b hb))

/-- The class of `lost` is put to that of `kept`. -/
theorem merged_eq_iff {p q : Option T} {kept lost : T} :
    ((if p = some lost then some kept else p) = if q = some lost then some kept else q) ↔
      p = q ∨ (p = some kept ∨ p = some lost) ∧ (q = some kept ∨ q = some lost) := by
  split_ifs with hp hq hq
  · simp [hp, hq]
  · rw [hp]
    simp [hq, eq_comm]
  · rw [hq]
    simp [hp]
  · simp only [hp, hq, or_false]
    refine ⟨Or.inl, ?_⟩
    rintro (heq | ⟨h1, h2⟩)
    · exact heq
    · rw [h1, h2]

/-- `Union` of two inserted elements. -/
theorem Partition.union (h : Partition u rep R) (hx : rep x ≠ none) (hy : rep y ≠ none) :
    ∃ u' rep', UnionFind.union u x y = some u' ∧
      Partition u' rep' (fun k l => R k l ∨ k = x ∧ l = y) ∧
      ∀ k, rep' k ≠ none ↔ rep k ≠ none := by
  obtain ⟨c, hc, rfl⟩ := h.represents
  obtain ⟨rx, hrx⟩ := Option.ne_none_iff_exists'.mp hx
  obtain ⟨ry, hry⟩ := Option.ne_none_iff_exists'.mp hy
  by_cases hne : rx = ry
  · -- nothing to do
    have hsame : EqvGen R x y := (h.same_iff x y hx hy).mp (by rw [hrx, hry, hne])
    obtain ⟨u', hu', hc'⟩ := hc.union_same hrx (hne ▸ hry) fun _ _ => ()
    refine ⟨u', c.rep, ?_, Partition.congr ⟨⟨c, hc', rfl⟩, h.inserted, h.same_iff⟩ ?_ ?_ ?_,
      fun k => Iff.rfl⟩
    · rw [UnionFind.union, hu']
    · rintro k l (hkl | ⟨rfl, rfl⟩)
      · exact h.inserted k l hkl
      · exact ⟨hx, hy⟩
    · exact fun k l hkl => .rel k l (Or.inl hkl)
    · rintro k l (hkl | ⟨rfl, rfl⟩)
      · exact .rel k l hkl
      · exact hsame
  · obtain ⟨a, b, u', -, -, hu', hc'⟩ := hc.union hrx hry hne fun _ _ => ()
    have hpair : (c.kept rx ry = rx ∧ c.lost rx ry = ry) ∨
        (c.kept rx ry = ry ∧ c.lost rx ry = rx) := by
      unfold Classes.kept Classes.lost
      split_ifs
      · exact Or.inr ⟨rfl, rfl⟩
      · exact Or.inl ⟨rfl, rfl⟩
    generalize c.kept rx ry = kept at hc' hpair
    generalize c.lost rx ry = lost at hc' hpair
    have hrep : ∀ k, (c.unite kept lost ()).rep k =
        if c.rep k = some lost then some kept else c.rep k := fun _ => rfl
    have hinserted : ∀ k, (c.unite kept lost ()).rep k ≠ none ↔ c.rep k ≠ none := by
      intro k
      rw [hrep]
      split_ifs with hk
      · rw [hk]
        simp
      · exact Iff.rfl
    have hx' : ∀ k, c.rep k ≠ none → (c.rep k = some rx ↔ EqvGen R k x) := by
      intro k hk
      rw [← hrx]
      exact h.same_iff k x hk hx
    have hy' : ∀ k, c.rep k ≠ none → (c.rep k = some ry ↔ EqvGen R k y) := by
      intro k hk
      rw [← hry]
      exact h.same_iff k y hk hy
    refine ⟨u', (c.unite kept lost ()).rep, ?_, ⟨⟨_, hc', rfl⟩, ?_, ?_⟩, hinserted⟩
    · rw [UnionFind.union, hu']
    · rintro k l (hkl | ⟨rfl, rfl⟩)
      · exact ⟨(hinserted k).mpr (h.inserted k l hkl).1, (hinserted l).mpr (h.inserted k l hkl).2⟩
      · exact ⟨(hinserted k).mpr hx, (hinserted l).mpr hy⟩
    · intro k l hk hl
      have hk := (hinserted k).mp hk
      have hl := (hinserted l).mp hl
      rw [eqvGen_insert_iff, ← hx' k hk, ← hx' l hl, ← hy' k hk, ← hy' l hl, ← h.same_iff k l hk hl,
        hrep, hrep]
      rcases hpair with ⟨rfl, rfl⟩ | ⟨rfl, rfl⟩
      · exact merged_eq_iff
      · rw [merged_eq_iff, or_comm (a := c.rep k = some kept),
          or_comm (a := c.rep l = some kept)]

end UnionFind

end Xls
