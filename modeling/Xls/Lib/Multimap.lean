/-
# Sorted maps of sorted sets

Maps from keys to sets of values, kept as lists which are strictly sorted by the keys, with
strictly sorted lists as their values.

* `find`, `keys`, `insertAll` : the value of a key, the keys, and `map[key].insert(values)`;
* `Canonical` : the lists are sorted, which the operations keep.
-/
import Mathlib.Data.List.Basic
import Mathlib.Data.Finset.Card
import Mathlib.Order.Basic

/-- A map of sets. -/
abbrev Multimap (K V : Type) := List (K × List V)

namespace Multimap

variable {K V : Type} [LinearOrder K] [LinearOrder V]

/-- Insertion into a sorted set. -/
def insertSet (x : V) : List V → List V
  | [] => [x]
  | y :: l => if x < y then x :: y :: l else if x = y then y :: l else y :: insertSet x l

/-- The values of a key; none where the key is missing. -/
def find : Multimap K V → K → List V
  | [], _ => []
  | (k, vs) :: rest, q => if k = q then vs else find rest q

/-- The keys. -/
def keys (m : Multimap K V) : List K := m.map Prod.fst

/-- `map[key].insert(values)`. -/
def insertAll : Multimap K V → K → List V → Multimap K V
  | [], k, vs => [(k, vs.foldr insertSet [])]
  | (k', vs') :: rest, k, vs =>
    if k < k' then (k, vs.foldr insertSet []) :: (k', vs') :: rest
    else if k = k' then (k', vs.foldr insertSet vs') :: rest
    else (k', vs') :: insertAll rest k vs

/-- The keys are strictly sorted, and so are the values of each key. -/
def Canonical (m : Multimap K V) : Prop :=
  m.Pairwise (fun a b => a.1 < b.1) ∧ ∀ entry ∈ m, entry.2.Pairwise (· < ·)

/-! ## Sets -/

variable {l vs : List V} {q : K}

/-- The new value and the old ones. -/
theorem mem_insertSet {x y : V} : y ∈ insertSet x l ↔ y = x ∨ y ∈ l := by
  induction l with
  | nil => simp [insertSet]
  | cons z l ih =>
    rw [insertSet]
    split
    · simp
    · split
      · rename_i hxz
        subst hxz
        simp
      · rw [List.mem_cons, ih, List.mem_cons, or_left_comm]

/-- A sorted set stays sorted. -/
theorem sorted_insertSet {x : V} (h : l.Pairwise (· < ·)) : (insertSet x l).Pairwise (· < ·) := by
  induction l with
  | nil => simp [insertSet]
  | cons z l ih =>
    have hz := List.pairwise_cons.mp h
    rw [insertSet]
    split
    · rename_i hxz
      refine List.pairwise_cons.mpr ⟨fun y hy => ?_, h⟩
      rcases List.mem_cons.mp hy with rfl | hy
      · exact hxz
      · exact hxz.trans (hz.1 y hy)
    · split
      · exact h
      · rename_i hxz hne
        refine List.pairwise_cons.mpr ⟨fun y hy => ?_, ih hz.2⟩
        rcases mem_insertSet.mp hy with rfl | hy
        · exact lt_of_le_of_ne (not_lt.mp hxz) fun heq => hne heq.symm
        · exact hz.1 y hy

/-- The new values and the old ones. -/
theorem mem_foldr_insertSet {y : V} : y ∈ vs.foldr insertSet l ↔ y ∈ vs ∨ y ∈ l := by
  induction vs with
  | nil => simp
  | cons v vs ih => rw [List.foldr_cons, mem_insertSet, ih, List.mem_cons, or_assoc]

/-- Many insertions keep a set sorted. -/
theorem sorted_foldr_insertSet (h : l.Pairwise (· < ·)) :
    (vs.foldr insertSet l).Pairwise (· < ·) := by
  induction vs with
  | nil => exact h
  | cons v vs ih => exact sorted_insertSet ih

/-! ## Maps -/

/-- The new key and the old ones. -/
theorem mem_keys_insertAll {m : Multimap K V} {k : K} :
    q ∈ keys (insertAll m k vs) ↔ q = k ∨ q ∈ keys m := by
  induction m with
  | nil => simp [insertAll, keys]
  | cons e m ih =>
    obtain ⟨k', vs'⟩ := e
    rw [insertAll]
    split
    · simp [keys]
    · split
      · rename_i heq
        subst heq
        simp [keys]
      · show q ∈ k' :: keys (insertAll m k vs) ↔ q = k ∨ q ∈ k' :: keys m
        rw [List.mem_cons, ih, List.mem_cons, or_left_comm]

omit [LinearOrder V] in
/-- A missing key has no values. -/
theorem find_of_not_mem {m : Multimap K V} (h : q ∉ keys m) : find m q = [] := by
  induction m with
  | nil => rfl
  | cons e m ih =>
    obtain ⟨k, vs⟩ := e
    have hne : k ≠ q := fun heq => h (heq ▸ List.mem_cons_self)
    rw [find, if_neg hne]
    exact ih fun hq => h (List.mem_cons_of_mem _ hq)

omit [LinearOrder V] in
/-- A key with a value is there. -/
theorem mem_keys_of_mem_find {m : Multimap K V} {v : V} (h : v ∈ find m q) : q ∈ keys m := by
  by_contra hq
  rw [find_of_not_mem hq] at h
  cases h

omit [LinearOrder K] [LinearOrder V] in
/-- The keys are those of the entries. -/
theorem mem_keys {m : Multimap K V} : q ∈ keys m ↔ ∃ vs, (q, vs) ∈ m := by
  rw [keys, List.mem_map]
  constructor
  · rintro ⟨⟨k, vs⟩, hmem, rfl⟩
    exact ⟨vs, hmem⟩
  · rintro ⟨vs, hmem⟩
    exact ⟨(q, vs), hmem, rfl⟩

namespace Canonical

variable {m : Multimap K V}

/-- The empty map. -/
theorem nil : Canonical ([] : Multimap K V) := ⟨List.Pairwise.nil, by simp⟩

/-- The first entry and the rest. -/
theorem cons_iff {k : K} {vs : List V} :
    Canonical ((k, vs) :: m) ↔ (∀ e ∈ m, k < e.1) ∧ vs.Pairwise (· < ·) ∧ Canonical m := by
  unfold Canonical
  rw [List.pairwise_cons, List.forall_mem_cons]
  constructor
  · rintro ⟨⟨h₁, h₂⟩, h₃, h₄⟩
    exact ⟨h₁, h₃, h₂, h₄⟩
  · rintro ⟨h₁, h₃, h₂, h₄⟩
    exact ⟨⟨h₁, h₂⟩, h₃, h₄⟩

/-- Insertion keeps the order. -/
theorem insertAll (h : Canonical m) (k : K) (vs : List V) : Canonical (Multimap.insertAll m k vs) := by
  induction m with
  | nil => exact cons_iff.mpr ⟨by simp, sorted_foldr_insertSet List.Pairwise.nil, nil⟩
  | cons e m ih =>
    obtain ⟨hlt, hvs, hm⟩ := cons_iff.mp h
    rw [Multimap.insertAll]
    split
    · rename_i hkk
      refine cons_iff.mpr ⟨fun e he => ?_, sorted_foldr_insertSet List.Pairwise.nil, h⟩
      rcases List.mem_cons.mp he with rfl | he
      · exact hkk
      · exact hkk.trans (hlt e he)
    · split
      · exact cons_iff.mpr ⟨hlt, sorted_foldr_insertSet hvs, hm⟩
      · rename_i hkk hne
        refine cons_iff.mpr ⟨fun e he => ?_, hvs, ih hm⟩
        have hkey : e.1 ∈ keys (Multimap.insertAll m k vs) := List.mem_map.mpr ⟨e, he, rfl⟩
        rcases mem_keys_insertAll.mp hkey with heq | hkey
        · rw [heq]
          exact lt_of_le_of_ne (not_lt.mp hkk) fun heq' => hne heq'.symm
        · obtain ⟨vs'', hmem⟩ := Multimap.mem_keys.mp hkey
          exact hlt (e.1, vs'') hmem

/-- A part of a map. -/
theorem filter (h : Canonical m) (f : K × List V → Bool) : Canonical (m.filter f) :=
  ⟨h.1.filter f, fun e he => h.2 e (List.mem_filter.mp he).1⟩

/-- The keys are sorted. -/
theorem keys_sorted (h : Canonical m) : (keys m).Pairwise (· < ·) := by
  rw [keys, List.pairwise_map]
  exact h.1

/-- No key occurs twice. -/
theorem keys_nodup (h : Canonical m) : (keys m).Nodup :=
  h.keys_sorted.imp fun hlt => ne_of_lt hlt

/-- The value of an entry is found. -/
theorem find_eq (h : Canonical m) {k : K} {vs : List V} (hmem : (k, vs) ∈ m) : find m k = vs := by
  induction m with
  | nil => cases hmem
  | cons e m ih =>
    obtain ⟨k', vs'⟩ := e
    rcases List.mem_cons.mp hmem with heq | hmem
    · cases heq
      rw [find, if_pos rfl]
    · have hne : k' ≠ k := ne_of_lt ((cons_iff.mp h).1 _ hmem)
      rw [find, if_neg hne]
      exact ih (cons_iff.mp h).2.2 hmem

/-- A key and its value are an entry. -/
theorem mem_of_mem_keys (h : Canonical m) {k : K} (hk : k ∈ keys m) : (k, find m k) ∈ m := by
  obtain ⟨vs, hvs⟩ := Multimap.mem_keys.mp hk
  rwa [h.find_eq hvs]

end Canonical

/-- What is found after an insertion. -/
theorem mem_find_insertAll {m : Multimap K V} (h : Canonical m) {k q : K} {vs : List V} {v : V} :
    v ∈ find (insertAll m k vs) q ↔ v ∈ find m q ∨ (q = k ∧ v ∈ vs) := by
  induction m with
  | nil =>
    rw [insertAll, find, find]
    split
    · rename_i hkq
      rw [mem_foldr_insertSet]
      simp [hkq.symm]
    · rename_i hkq
      have : ¬ q = k := fun heq => hkq heq.symm
      simp [find, this]
  | cons e m ih =>
    obtain ⟨k', vs'⟩ := e
    have hm := (Canonical.cons_iff.mp h).2.2
    rw [insertAll]
    split
    · rename_i hkk
      rw [find]
      split
      · rename_i hkq
        subst hkq
        have hnot : k ∉ keys ((k', vs') :: m) := by
          intro hk
          obtain ⟨vs'', hmem⟩ := mem_keys.mp hk
          rcases List.mem_cons.mp hmem with heq | hmem
          · cases heq
            exact lt_irrefl _ hkk
          · exact lt_asymm hkk ((Canonical.cons_iff.mp h).1 _ hmem)
        rw [find_of_not_mem hnot, mem_foldr_insertSet]
        simp
      · rename_i hkq
        have : ¬ q = k := fun heq => hkq heq.symm
        simp [this]
    · split
      · rename_i heq
        subst heq
        rw [find, find]
        split
        · rename_i hkq
          rw [mem_foldr_insertSet]
          simp [hkq.symm, or_comm]
        · rename_i hkq
          have : ¬ q = k := fun heq => hkq heq.symm
          simp [this]
      · rename_i hne
        rw [find, find]
        split
        · rename_i hkq
          have : ¬ q = k := fun heq => hne (heq ▸ hkq.symm ▸ rfl)
          simp [this]
        · exact ih hm

end Multimap
