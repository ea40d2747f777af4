/-
# Indexing of leaf type trees

`ForEach` of `LeafTypeTree` (`xls/data_structures/leaf_type_tree.h`) walks over a type with an index
stack and a counter for the element, while `GetSubtypeAndOffset` adds up leaf counts along an index.
Both agree with the order in which `MakeLeafTypes` lists the leaves.

* `getSubtypeAndOffset_eq_some_iff` : the indices of leaves are the leaves in order;
* `forEach_eq` : `ForEach` visits the leaves in order;
* `copySubtree_spec` : a subtree holds the elements from the offset on;
* `leafIndexing_exact` : all of it for one tree.
-/
import Xls.Ir.LeafTypeTree

namespace Xls

namespace LeafTypeTree

variable {α σ ε : Type}

/-! ## The leaves in order -/

/-- A leaf: its index and its type. -/
abbrev Leaf := List ℕ × Ty

/-- The leaves of the members of a tuple or array, from the `i`-th member on. -/
def leavesOfMembers : ℕ → List (List Leaf) → List Leaf
  | _, [] => []
  | i, leaves :: members =>
    leaves.map (fun leaf => (i :: leaf.1, leaf.2)) ++ leavesOfMembers (i + 1) members

mutual

/-- The leaves of a type with their indices, in the lexicographic order of these. -/
def leavesOf : Ty → List Leaf
  | .bits n => [([], .bits n)]
  | .token => [([], .token)]
  | .tuple ts => leavesOfMembers 0 (leavesOfList ts)
  | .array n t => leavesOfMembers 0 (List.replicate n (leavesOf t))

/-- The leaves of each of some types. -/
def leavesOfList : List Ty → List (List Leaf)
  | [] => []
  | t :: ts => leavesOf t :: leavesOfList ts

end

/-! ## `ForEach` -/

/-- What the function given to `ForEach` does with the type, the element and the index of a leaf:
it may change the element and what it captures, and returns a status, `none` for OK. -/
abbrev Callback (α σ ε : Type) := Ty → α → List ℕ → σ → α × σ × Option ε

/-- `elements_`, `linear_index`, the stack `type_index` and what the function captures. -/
structure Visit (α σ : Type) where
  elements : List α
  linearIndex : ℕ
  typeIndex : List ℕ
  captured : σ

/-- `ForEachHelper` at a leaf.  There is no result when no element is at the linear index. -/
def forEachLeaf (f : Callback α σ ε) (subtype : Ty) (v : Visit α σ) :
    Option (Visit α σ × Option ε) :=
  match v.elements[v.linearIndex]? with
  | none => none
  | some element =>
    let result := f subtype element v.typeIndex v.captured
    some (⟨v.elements.set v.linearIndex result.1, v.linearIndex + 1, v.typeIndex, result.2.1⟩,
      result.2.2)

/-- The loop of `ForEachHelper` over the members, from the `i`-th one on. -/
def forEachMember : ℕ → List (Visit α σ → Option (Visit α σ × Option ε)) → Visit α σ →
    Option (Visit α σ × Option ε)
  | _, [], v => some (v, none)
  | i, helper :: helpers, v =>
    match helper ⟨v.elements, v.linearIndex, v.typeIndex ++ [i], v.captured⟩ with
    | none => none
    | some (v, some error) => some (v, some error)
    | some (v, none) =>
      forEachMember (i + 1) helpers
        ⟨v.elements, v.linearIndex, v.typeIndex.dropLast, v.captured⟩

mutual

/-- `ForEachHelper`. -/
def forEachHelper (f : Callback α σ ε) : Ty → Visit α σ → Option (Visit α σ × Option ε)
  | .bits n => forEachLeaf f (.bits n)
  | .token => forEachLeaf f .token
  | .tuple ts => forEachMember 0 (forEachHelpers f ts)
  | .array n t => forEachMember 0 (List.replicate n (forEachHelper f t))

/-- `ForEachHelper` at each of some types. -/
def forEachHelpers (f : Callback α σ ε) :
    List Ty → List (Visit α σ → Option (Visit α σ × Option ε))
  | [] => []
  | t :: ts => forEachHelper f t :: forEachHelpers f ts

end

/-- `ForEach`: the new elements, what the function captures in the end, and the status. -/
def forEach (f : Callback α σ ε) (tree : LeafTypeTree α) (captured : σ) :
    Option (List α × σ × Option ε) :=
  (forEachHelper f tree.type ⟨tree.elements, 0, [], captured⟩).map fun result =>
    (result.1.elements, result.1.captured, result.2)

/-- A function called for the leaves of a list one after the other, up to the first error. -/
def visitLeaves (f : Callback α σ ε) : List Leaf → List α → σ → List α × σ × Option ε
  | leaf :: leaves, a :: as, s =>
    match f leaf.2 a leaf.1 s with
    | (b, s, some error) => (b :: as, s, some error)
    | (b, s, none) =>
      let rest := visitLeaves f leaves as s
      (b :: rest.1, rest.2)
  | _, as, s => (as, s, none)

/-! ## The list of leaves is that of `MakeLeafTypes` -/

theorem map_snd_leavesOfMembers (i : ℕ) (members : List (List Leaf)) :
    (leavesOfMembers i members).map Prod.snd =
      (members.map fun leaves => leaves.map Prod.snd).flatten := by
  induction members generalizing i with
  | nil => rfl
  | cons leaves members ih =>
    rw [leavesOfMembers, List.map_append, ih, List.map_map, List.map_cons]
    rfl

mutual

theorem map_snd_leavesOf : ∀ t : Ty, (leavesOf t).map Prod.snd = t.leafTypes
  | .bits _ => rfl
  | .token => rfl
  | .tuple ts => by
    rw [leavesOf, map_snd_leavesOfMembers, map_snd_leavesOfList ts, Ty.leafTypes]
  | .array n t => by
    rw [leavesOf, map_snd_leavesOfMembers, List.map_replicate, map_snd_leavesOf t, Ty.leafTypes]

theorem map_snd_leavesOfList : ∀ ts : List Ty,
    ((leavesOfList ts).map fun leaves => leaves.map Prod.snd).flatten = Ty.leafTypesList ts
  | [] => rfl
  | t :: ts => by
    rw [leavesOfList, List.map_cons, List.flatten_cons, map_snd_leavesOf t,
      map_snd_leavesOfList ts, Ty.leafTypesList]

end

theorem length_leavesOf (t : Ty) : (leavesOf t).length = t.leafCount := by
  rw [← Ty.length_leafTypes, ← map_snd_leavesOf, List.length_map]

/-! ## Offsets -/

/-- The offset is added to what is found. -/
theorem getSubtypeAndOffset_add (path : List ℕ) : ∀ (t : Ty) (offset : ℕ),
    getSubtypeAndOffset t path offset =
      (getSubtypeAndOffset t path 0).map fun found => (found.1, offset + found.2) := by
  induction path with
  | nil =>
    intro t offset
    simp [getSubtypeAndOffset]
  | cons i path ih =>
    intro t offset
    cases t with
    | bits n => rfl
    | token => rfl
    | tuple ts =>
      rw [getSubtypeAndOffset, getSubtypeAndOffset]
      rcases ts[i]? with - | t
      · rfl
      · show getSubtypeAndOffset t path _ = (getSubtypeAndOffset t path _).map _
        rw [ih t (offset + _), ih t (0 + _), Option.map_map]
        congr 1
        funext found
        show (found.1, _) = (found.1, _)
        rw [Nat.zero_add, Nat.add_assoc]
    | array n t =>
      rw [getSubtypeAndOffset, getSubtypeAndOffset]
      split_ifs
      · rw [ih t (offset + _), ih t (0 + _), Option.map_map]
        congr 1
        funext found
        show (found.1, _) = (found.1, _)
        rw [Nat.zero_add, Nat.add_assoc]
      · rfl

/-- An index in two parts: the second one is used at the type which the first one finds. -/
theorem getSubtypeAndOffset_append (path : List ℕ) : ∀ (t : Ty) (offset : ℕ) (rest : List ℕ),
    getSubtypeAndOffset t (path ++ rest) offset =
      (getSubtypeAndOffset t path offset).bind fun found =>
        getSubtypeAndOffset found.1 rest found.2 := by
  induction path with
  | nil =>
    intro t offset rest
    cases t <;> rfl
  | cons i path ih =>
    intro t offset rest
    cases t with
    | bits n => rfl
    | token => rfl
    | tuple ts =>
      rw [List.cons_append, getSubtypeAndOffset, getSubtypeAndOffset]
      rcases ts[i]? with - | t
      · rfl
      · exact ih t _ rest
    | array n t =>
      rw [List.cons_append, getSubtypeAndOffset, getSubtypeAndOffset]
      split_ifs
      · exact ih t _ rest
      · rfl

theorem leafCountList_append (ts us : List Ty) :
    Ty.leafCountList (ts ++ us) = Ty.leafCountList ts + Ty.leafCountList us := by
  induction ts with
  | nil => simp [Ty.leafCountList]
  | cons t ts ih => rw [List.cons_append, Ty.leafCountList, Ty.leafCountList, ih, Nat.add_assoc]

theorem leafCountList_replicate (n : ℕ) (t : Ty) :
    Ty.leafCountList (List.replicate n t) = n * t.leafCount := by
  induction n with
  | zero => simp [Ty.leafCountList]
  | succ n ih => rw [List.replicate_succ, Ty.leafCountList, ih, Nat.succ_mul, Nat.add_comm]

theorem leafCountList_take_add {ts : List Ty} {i : ℕ} {t : Ty} (h : ts[i]? = some t) :
    Ty.leafCountList (ts.take i) + t.leafCount ≤ Ty.leafCountList ts := by
  obtain ⟨hi, rfl⟩ := List.getElem?_eq_some_iff.mp h
  have hsplit : ts = ts.take i ++ ts[i] :: ts.drop (i + 1) := by
    rw [← List.drop_eq_getElem_cons hi, List.take_append_drop]
  calc Ty.leafCountList (ts.take i) + ts[i].leafCount
      ≤ Ty.leafCountList (ts.take i) + Ty.leafCountList (ts[i] :: ts.drop (i + 1)) := by
        rw [Ty.leafCountList]
        omega
    _ = Ty.leafCountList ts := by rw [← leafCountList_append, ← hsplit]

/-- An array is indexed like the tuple of its elements. -/
theorem getSubtypeAndOffset_array (n : ℕ) (t : Ty) (i : ℕ) (path : List ℕ) (offset : ℕ) :
    getSubtypeAndOffset (.array n t) (i :: path) offset =
      getSubtypeAndOffset (.tuple (List.replicate n t)) (i :: path) offset := by
  rw [getSubtypeAndOffset, getSubtypeAndOffset, List.getElem?_replicate]
  split_ifs with hi
  · rw [List.take_replicate, leafCountList_replicate, Nat.min_eq_left hi.le]
  · rfl

/-- The leaves of a subtype are among those of the type. -/
theorem getSubtypeAndOffset_le {path : List ℕ} : ∀ {t t' : Ty} {offset offset' : ℕ},
    getSubtypeAndOffset t path offset = some (t', offset') →
    offset ≤ offset' ∧ offset' + t'.leafCount ≤ offset + t.leafCount := by
  induction path with
  | nil =>
    intro t t' offset offset' h
    cases h
    exact ⟨le_rfl, le_rfl⟩
  | cons i path ih =>
    -- both kinds of aggregates index a list of members
    have htuple : ∀ {ts : List Ty} {t' : Ty} {offset offset' : ℕ},
        getSubtypeAndOffset (.tuple ts) (i :: path) offset = some (t', offset') →
        offset ≤ offset' ∧ offset' + t'.leafCount ≤ offset + Ty.leafCountList ts := by
      intro ts t' offset offset' h
      rw [getSubtypeAndOffset] at h
      rcases ht : ts[i]? with - | t
      · rw [ht] at h
        cases h
      · rw [ht] at h
        obtain ⟨h1, h2⟩ := ih h
        have hmember := leafCountList_take_add ht
        omega
    intro t t' offset offset' h
    cases t with
    | bits n => cases h
    | token => cases h
    | tuple ts => exact htuple h
    | array n t =>
      rw [getSubtypeAndOffset_array] at h
      rw [Ty.leafCount, ← leafCountList_replicate]
      exact htuple h

/-! ## The indices of the leaves -/

/-- Each leaf list is that of the type at the same position. -/
def ListsLeaves (t : Ty) (leaves : List Leaf) : Prop :=
  leaves.length = t.leafCount ∧ ∀ (path : List ℕ) (l : Ty) (k : ℕ),
    leaves[k]? = some (path, l) ↔
      getSubtypeAndOffset t path 0 = some (l, k) ∧ l.isLeafType = true

/-- The leaves of the members, from the `i`-th one on. -/
theorem getElem?_leavesOfMembers {ts : List Ty} {members : List (List Leaf)}
    (h : List.Forall₂ ListsLeaves ts members) (i k : ℕ) (path : List ℕ) (l : Ty) :
    (leavesOfMembers i members)[k]? = some (path, l) ↔ ∃ j rest, path = (i + j) :: rest ∧
        getSubtypeAndOffset (.tuple ts) (j :: rest) 0 = some (l, k) ∧ l.isLeafType = true := by
  induction h generalizing i k path with
  | nil =>
    rw [leavesOfMembers]
    refine iff_of_false (by simp) ?_
    rintro ⟨j, rest, -, hfound, -⟩
    cases hfound
  | @cons t leaves ts members hhead _ ih =>
    rw [leavesOfMembers]
    obtain ⟨hlength, hleaves⟩ := hhead
    -- the first member is at `0`, the others are one to the left in the rest
    have hzero : ∀ rest, getSubtypeAndOffset (.tuple (t :: ts)) (0 :: rest) 0 =
        getSubtypeAndOffset t rest 0 := fun rest => rfl
    have hsucc : ∀ j rest, getSubtypeAndOffset (.tuple (t :: ts)) ((j + 1) :: rest) 0 =
        (getSubtypeAndOffset (.tuple ts) (j :: rest) 0).map
          fun found => (found.1, t.leafCount + found.2) := by
      intro j rest
      rw [getSubtypeAndOffset, getSubtypeAndOffset, List.getElem?_cons_succ,
        List.take_succ_cons, Ty.leafCountList]
      rcases ts[j]? with - | u
      · rfl
      · show getSubtypeAndOffset u rest _ = (getSubtypeAndOffset u rest _).map _
        rw [getSubtypeAndOffset_add rest u (0 + (t.leafCount + _)),
          getSubtypeAndOffset_add rest u (0 + _), Option.map_map]
        congr 1
        funext found
        show (found.1, _) = (found.1, _)
        rw [Nat.zero_add, Nat.zero_add, Nat.add_assoc]
    rw [List.getElem?_append, List.length_map, hlength]
    split_ifs with hk
    · -- a leaf of the first member
      rw [List.getElem?_map]
      constructor
      · intro hleaf
        obtain ⟨⟨rest, l'⟩, hrest, heq⟩ := Option.map_eq_some_iff.mp hleaf
        obtain ⟨rfl, rfl⟩ := Prod.mk.inj heq
        exact ⟨0, rest, rfl, (hzero rest).trans ((hleaves rest l' k).mp hrest).1,
          ((hleaves rest l' k).mp hrest).2⟩
      · rintro ⟨j, rest, rfl, hfound, hl⟩
        cases j with
        | zero =>
          rw [(hleaves rest l k).mpr ⟨hfound, hl⟩]
          rfl
        | succ j =>
          rw [hsucc] at hfound
          obtain ⟨found, -, heq⟩ := Option.map_eq_some_iff.mp hfound
          have hoffset : t.leafCount + found.2 = k := congrArg Prod.snd heq
          omega
    · -- a leaf of a later member
      rw [ih]
      constructor
      · rintro ⟨j, rest, rfl, hfound, hl⟩
        refine ⟨j + 1, rest, by rw [Nat.add_right_comm, Nat.add_assoc], ?_, hl⟩
        rw [hsucc, hfound]
        show some (l, _) = some (l, _)
        rw [Nat.add_sub_of_le (not_lt.mp hk)]
      · rintro ⟨j, rest, rfl, hfound, hl⟩
        cases j with
        | zero =>
          have hmem := (hleaves rest l k).mpr ⟨hfound, hl⟩
          rw [List.getElem?_eq_none (by omega)] at hmem
          cases hmem
        | succ j =>
          rw [hsucc] at hfound
          obtain ⟨⟨l', k'⟩, hfound', heq⟩ := Option.map_eq_some_iff.mp hfound
          cases heq
          refine ⟨j, rest, by rw [Nat.add_right_comm, Nat.add_assoc], ?_, hl⟩
          rw [Nat.add_sub_cancel_left]
          exact hfound'

/-- The leaves of an aggregate, whose indices start with that of a member. -/
theorem listsLeaves_members {t : Ty} {ts : List Ty} {members : List (List Leaf)}
    (hcount : (leavesOfMembers 0 members).length = t.leafCount) (hleaf : t.isLeafType = false)
    (hindex : ∀ j rest, getSubtypeAndOffset t (j :: rest) 0 =
      getSubtypeAndOffset (.tuple ts) (j :: rest) 0)
    (h : List.Forall₂ ListsLeaves ts members) :
    ListsLeaves t (leavesOfMembers 0 members) := by
  refine ⟨hcount, fun path l k => ?_⟩
  rw [getElem?_leavesOfMembers h 0 k path l]
  constructor
  · rintro ⟨j, rest, rfl, hfound, hl⟩
    rw [Nat.zero_add, hindex]
    exact ⟨hfound, hl⟩
  · rintro ⟨hfound, hl⟩
    cases path with
    | nil =>
      cases hfound
      rw [hleaf] at hl
      cases hl
    | cons j rest =>
      rw [hindex] at hfound
      exact ⟨j, rest, by rw [Nat.zero_add], hfound, hl⟩

/-- A leaf has one index, the empty one. -/
theorem listsLeaves_leaf {t : Ty} (hcount : t.leafCount = 1) (hleaf : t.isLeafType = true)
    (hindex : ∀ i rest, getSubtypeAndOffset t (i :: rest) 0 = none) :
    ListsLeaves t [([], t)] := by
  refine ⟨hcount.symm, fun path l k => ?_⟩
  cases path with
  | nil =>
    rw [getSubtypeAndOffset]
    cases k with
    | zero =>
      constructor
      · rintro ⟨⟩
        exact ⟨rfl, hleaf⟩
      · rintro ⟨heq, -⟩
        cases heq
        rfl
    | succ k => simp
  | cons i rest =>
    rw [hindex i rest]
    cases k <;> simp

mutual

/-- `GetSubtypeAndOffset` takes the index of a leaf to its place among the leaves. -/
theorem listsLeaves_leavesOf : ∀ t : Ty, ListsLeaves t (leavesOf t)
  | .bits n => listsLeaves_leaf rfl rfl fun _ _ => rfl
  | .token => listsLeaves_leaf rfl rfl fun _ _ => rfl
  | .tuple ts =>
    listsLeaves_members (length_leavesOf (.tuple ts)) rfl (fun _ _ => rfl)
      (listsLeaves_leavesOfList ts)
  | .array n t => by
    refine @listsLeaves_members _ (List.replicate n t) _ (length_leavesOf (.array n t)) rfl
      (fun j rest => getSubtypeAndOffset_array n t j rest 0) ?_
    have ht := listsLeaves_leavesOf t
    induction n with
    | zero => exact .nil
    | succ n ih =>
      rw [List.replicate_succ, List.replicate_succ]
      exact .cons ht ih

theorem listsLeaves_leavesOfList : ∀ ts : List Ty, List.Forall₂ ListsLeaves ts (leavesOfList ts)
  | [] => .nil
  | t :: ts => .cons (listsLeaves_leavesOf t) (listsLeaves_leavesOfList ts)

end

/-- The `k`-th leaf is the one at offset `k`. -/
theorem getSubtypeAndOffset_eq_some_iff {t : Ty} {path : List ℕ} {l : Ty} {k : ℕ} :
    (leavesOf t)[k]? = some (path, l) ↔
      getSubtypeAndOffset t path 0 = some (l, k) ∧ l.isLeafType = true :=
  (listsLeaves_leavesOf t).2 path l k

-- `(bits[42], bits[55], (), (bits[123], bits[64]))`
example : getSubtypeAndOffset (.tuple [.bits 42, .bits 55, .tuple [], .tuple [.bits 123, .bits 64]])
    [3, 1] 0 = some (.bits 64, 3) := rfl

/-! ## `ForEach` visits the leaves in order -/

section ForEach

variable {f : Callback α σ ε} {leaf : Leaf} {leaves rest : List Leaf} {a b : α} {as bs : List α}
  {s s' : σ} {error : ε}

theorem visitLeaves_cons_of_error (h : f leaf.2 a leaf.1 s = (b, s', some error)) :
    visitLeaves f (leaf :: leaves) (a :: as) s = (b :: as, s', some error) := by
  rw [visitLeaves, h]

theorem visitLeaves_cons_of_ok (h : f leaf.2 a leaf.1 s = (b, s', none)) :
    visitLeaves f (leaf :: leaves) (a :: as) s =
      (b :: (visitLeaves f leaves as s').1, (visitLeaves f leaves as s').2) := by
  rw [visitLeaves, h]

theorem visitLeaves_nil : visitLeaves f [] as s = (as, s, none) := by
  rw [visitLeaves]
  rintro _ _ _ _ ⟨⟩

theorem length_visitLeaves : ∀ (leaves : List Leaf) (as : List α) (s : σ),
    (visitLeaves f leaves as s).1.length = as.length := by
  intro leaves
  induction leaves with
  | nil =>
    intro as s
    rw [visitLeaves_nil]
  | cons leaf leaves ih =>
    intro as s
    cases as with
    | nil => rfl
    | cons a as =>
      rcases hf : f leaf.2 a leaf.1 s with ⟨b, s', - | error⟩
      · rw [visitLeaves_cons_of_ok hf, List.length_cons, ih, List.length_cons]
      · rw [visitLeaves_cons_of_error hf, List.length_cons, List.length_cons]

/-- Some leaves are visited, then more of them unless there was an error. -/
theorem visitLeaves_append (h : as.length = leaves.length) :
    visitLeaves f (leaves ++ rest) (as ++ bs) s =
      let first := visitLeaves f leaves as s
      if first.2.2.isSome then (first.1 ++ bs, first.2)
      else (first.1 ++ (visitLeaves f rest bs first.2.1).1,
        (visitLeaves f rest bs first.2.1).2) := by
  induction leaves generalizing as s with
  | nil =>
    rw [List.eq_nil_of_length_eq_zero h]
    rfl
  | cons leaf leaves ih =>
    cases as with
    | nil => cases h
    | cons a as =>
      have h : as.length = leaves.length := Nat.succ_inj.mp h
      rw [List.cons_append, List.cons_append]
      rcases hf : f leaf.2 a leaf.1 s with ⟨b, s', - | error⟩
      · rw [visitLeaves_cons_of_ok hf, visitLeaves_cons_of_ok hf, ih h]
        simp only
        split_ifs <;> rfl
      · rw [visitLeaves_cons_of_error hf, visitLeaves_cons_of_error hf]
        rfl

/-- A helper visits some leaves, which are below an index and follow other elements: it changes
their elements alone, and leaves the index stack as it was. -/
def VisitsLeaves (f : Callback α σ ε) (leaves : List Leaf)
    (helper : Visit α σ → Option (Visit α σ × Option ε)) : Prop :=
  ∀ (before as after : List α) (index : List ℕ) (s : σ) (result : List α × σ × Option ε),
    as.length = leaves.length →
    visitLeaves f (leaves.map fun leaf => (index ++ leaf.1, leaf.2)) as s = result →
    ∃ linearIndex typeIndex,
      helper ⟨before ++ (as ++ after), before.length, index, s⟩ =
        some (⟨before ++ (result.1 ++ after), linearIndex, typeIndex, result.2.1⟩, result.2.2) ∧
      (result.2.2 = none → linearIndex = before.length + leaves.length ∧ typeIndex = index)

/-- The function is called at a leaf. -/
theorem visitsLeaves_leaf (subtype : Ty) :
    VisitsLeaves f [([], subtype)] (forEachLeaf f subtype) := by
  intro before as after index s result has hresult
  obtain ⟨a, rfl⟩ := List.length_eq_one_iff.mp has
  have hget : (before ++ ([a] ++ after))[before.length]? = some a := by
    rw [List.getElem?_append_right le_rfl, Nat.sub_self]
    rfl
  have hset : ∀ b, (before ++ ([a] ++ after)).set before.length b = before ++ ([b] ++ after) := by
    intro b
    rw [List.set_append_right _ _ le_rfl, Nat.sub_self]
    rfl
  refine ⟨before.length + 1, index, ?_, fun _ => ⟨rfl, rfl⟩⟩
  rw [forEachLeaf, hget]
  simp only [hset]
  rw [List.map_singleton, List.append_nil] at hresult
  rcases hf : f subtype a index s with ⟨b, s', - | error⟩
  · rw [visitLeaves_cons_of_ok hf, visitLeaves_nil] at hresult
    rw [← hresult]
  · rw [visitLeaves_cons_of_error hf] at hresult
    rw [← hresult]

/-- The loop visits the leaves of one member after the other. -/
theorem visitsLeaves_members {members : List (List Leaf)}
    {helpers : List (Visit α σ → Option (Visit α σ × Option ε))}
    (h : List.Forall₂ (VisitsLeaves f) members helpers) (i : ℕ) :
    VisitsLeaves f (leavesOfMembers i members) (forEachMember i helpers) := by
  induction h generalizing i with
  | nil =>
    intro before as after index s result has hresult
    rw [← hresult]
    exact ⟨before.length, index, rfl, fun _ => ⟨rfl, rfl⟩⟩
  | @cons leaves helper members helpers hhead _ ih =>
    intro before as after index s result has hresult
    rw [leavesOfMembers, List.length_append, List.length_map] at has
    -- the elements of the first member, and those of the others
    obtain ⟨front, back, rfl, hfront, hback⟩ : ∃ front back, as = front ++ back ∧
        front.length = leaves.length ∧
        back.length = (leavesOfMembers (i + 1) members).length :=
      ⟨as.take leaves.length, as.drop leaves.length, (List.take_append_drop _ _).symm,
        by rw [List.length_take]; omega, by rw [List.length_drop]; omega⟩
    have hlength : front.length = ((leaves.map fun leaf => (i :: leaf.1, leaf.2)).map
          fun leaf : Leaf => (index ++ leaf.1, leaf.2)).length := by
      rw [List.length_map, List.length_map, hfront]
    have hindex : (leaves.map fun leaf => (i :: leaf.1, leaf.2)).map
        (fun leaf : Leaf => (index ++ leaf.1, leaf.2)) =
        leaves.map fun leaf => ((index ++ [i]) ++ leaf.1, leaf.2) := by
      rw [List.map_map]
      apply List.map_congr_left
      intro leaf _
      rw [List.append_assoc]
      rfl
    rw [leavesOfMembers, List.map_append, visitLeaves_append hlength, hindex] at hresult
    rcases hfirst : visitLeaves f (leaves.map fun leaf => ((index ++ [i]) ++ leaf.1, leaf.2))
      front s with ⟨front', s', status⟩
    have hsize : front'.length = front.length := by
      rw [← length_visitLeaves (f := f) (leaves.map fun leaf => ((index ++ [i]) ++ leaf.1, leaf.2))
        front s, hfirst]
    obtain ⟨linearIndex, typeIndex, hhelper, hstate⟩ :=
      hhead before front (back ++ after) (index ++ [i]) s _ hfront hfirst
    rw [hfirst] at hresult
    rw [forEachMember, List.append_assoc]
    rw [hhelper]
    cases status with
    | some error =>
      simp only [Option.isSome_some, if_true] at hresult
      rw [← hresult]
      refine ⟨linearIndex, typeIndex, ?_, fun hnone => by cases hnone⟩
      simp only [List.append_assoc]
    | none =>
      simp only [Option.isSome_none, Bool.false_eq_true, if_false] at hresult
      obtain ⟨rfl, rfl⟩ := hstate rfl
      obtain ⟨linearIndex, typeIndex, hrest, hend⟩ :=
        ih (i + 1) (before ++ front') back after index s' _ hback rfl
      rw [← hresult]
      refine ⟨linearIndex, typeIndex, ?_, fun hnone => ?_⟩
      · rw [List.length_append, hsize, hfront, List.append_assoc] at hrest
        show forEachMember (i + 1) helpers ⟨before ++ (front' ++ (back ++ after)),
          before.length + leaves.length, (index ++ [i]).dropLast, s'⟩ = _
        rw [List.dropLast_concat, hrest]
        simp only [List.append_assoc]
      · obtain ⟨rfl, rfl⟩ := hend hnone
        rw [leavesOfMembers, List.length_append, List.length_append, List.length_map, hsize,
          hfront, Nat.add_assoc]
        exact ⟨rfl, rfl⟩

mutual

/-- `ForEachHelper` visits the leaves of its type. -/
theorem visitsLeaves_forEachHelper : ∀ t : Ty, VisitsLeaves f (leavesOf t) (forEachHelper f t)
  | .bits n => visitsLeaves_leaf (.bits n)
  | .token => visitsLeaves_leaf .token
  | .tuple ts => visitsLeaves_members (visitsLeaves_forEachHelpers ts) 0
  | .array n t => by
    have ht := visitsLeaves_forEachHelper t
    refine visitsLeaves_members ?_ 0
    induction n with
    | zero => exact .nil
    | succ n ih =>
      rw [List.replicate_succ, List.replicate_succ]
      exact .cons ht ih

theorem visitsLeaves_forEachHelpers : ∀ ts : List Ty,
    List.Forall₂ (VisitsLeaves f) (leavesOfList ts) (forEachHelpers f ts)
  | [] => .nil
  | t :: ts => .cons (visitsLeaves_forEachHelper t) (visitsLeaves_forEachHelpers ts)

end

/-- `ForEach` calls the function for each leaf in order, with its type, element and index. -/
theorem forEach_eq (f : Callback α σ ε) (tree : LeafTypeTree α) (s : σ) :
    forEach f tree s = some (visitLeaves f (leavesOf tree.type) tree.elements s) := by
  have hmap : (leavesOf tree.type).map (fun leaf : Leaf => ([] ++ leaf.1, leaf.2)) =
      leavesOf tree.type := List.map_id _
  have hlength : tree.elements.length = (leavesOf tree.type).length := by
    rw [tree.length_eq, length_leavesOf]
  obtain ⟨linearIndex, typeIndex, hhelper, -⟩ :=
    visitsLeaves_forEachHelper (f := f) tree.type [] tree.elements [] [] s _ hlength rfl
  rw [List.append_nil, List.nil_append, List.length_nil, hmap] at hhelper
  rw [forEach, hhelper, Option.map_some, List.append_nil, List.nil_append]

end ForEach

/-! ## Subtrees -/

/-- The copied subtree holds the elements from the offset on, and an index into it finds the same
element as the longer index into the whole. -/
theorem copySubtree_spec (tree : LeafTypeTree α) {path : List ℕ} {t : Ty} {offset : ℕ}
    (h : getSubtypeAndOffset tree.type path 0 = some (t, offset)) :
    ∃ subtree, tree.copySubtree path = some subtree ∧ subtree.type = t ∧
      subtree.elements.length = t.leafCount ∧
      (∀ k < t.leafCount, ∃ a, subtree.elements[k]? = some a ∧
        tree.elements[offset + k]? = some a) ∧
      ∀ rest, tree.get (path ++ rest) = subtree.get rest := by
  obtain ⟨-, hle⟩ := getSubtypeAndOffset_le h
  rw [← tree.length_eq] at hle
  have hlength : ((tree.elements.drop offset).take t.leafCount).length = t.leafCount := by
    rw [List.length_take, List.length_drop]
    omega
  have helement : ∀ k < t.leafCount,
      ((tree.elements.drop offset).take t.leafCount)[k]? = tree.elements[offset + k]? := by
    intro k hk
    rw [List.getElem?_take, if_pos hk, List.getElem?_drop]
  refine ⟨⟨t, _, hlength⟩, ?_, rfl, hlength, fun k hk => ?_, fun rest => ?_⟩
  · rw [copySubtree, h]
    exact dif_pos hlength
  · have hk' : offset + k < tree.elements.length := by omega
    exact ⟨tree.elements[offset + k], (helement k hk).trans (List.getElem?_eq_getElem hk'),
      List.getElem?_eq_getElem hk'⟩
  · rw [get, get, getSubtypeAndOffset_append, h, Option.bind_some, getSubtypeAndOffset_add]
    rcases hrest : getSubtypeAndOffset t rest 0 with - | ⟨l, k⟩
    · rfl
    · show (if l.isLeafType = true then _ else none) = if l.isLeafType = true then _ else none
      split_ifs with hl
      · -- the offset of a leaf is below the leaf count
        obtain ⟨-, hk⟩ := getSubtypeAndOffset_le hrest
        have hone : l.leafCount = 1 := by
          cases l <;> first | rfl | cases hl
        exact (helement k (by omega)).symm
      · rfl

/-- The indices of the leaves are, one to one, the positions of the elements, in the order of
`MakeLeafTypes` and of `ForEach`; and a subtree is the part of the elements behind its offset. -/
theorem leafIndexing_exact (tree : LeafTypeTree α) : (∀ k < tree.type.leafCount, ∃! path, ∃ l,
      getSubtypeAndOffset tree.type path 0 = some (l, k) ∧ l.isLeafType = true) ∧
    (∀ path l k, getSubtypeAndOffset tree.type path 0 = some (l, k) → l.isLeafType = true →
      k < tree.type.leafCount ∧ tree.type.leafTypes[k]? = some l) ∧
    (∃ leaves : List Leaf, leaves.length = tree.type.leafCount ∧
      (∀ k path l, leaves[k]? = some (path, l) →
        getSubtypeAndOffset tree.type path 0 = some (l, k) ∧ l.isLeafType = true) ∧
      ∀ (σ ε : Type) (f : Callback α σ ε) (s : σ),
        forEach f tree s = some (visitLeaves f leaves tree.elements s)) ∧
    ∀ path t offset, getSubtypeAndOffset tree.type path 0 = some (t, offset) →
      ∃ subtree, tree.copySubtree path = some subtree ∧ subtree.type = t ∧
        subtree.elements.length = t.leafCount ∧
        (∀ k < t.leafCount, ∃ a, subtree.elements[k]? = some a ∧
          tree.elements[offset + k]? = some a) ∧
        ∀ rest, tree.get (path ++ rest) = subtree.get rest := by
  refine ⟨fun k hk => ?_, fun path l k hfound hl => ?_, ?_, ?_⟩
  · rw [← length_leavesOf] at hk
    have hleaf : (leavesOf tree.type)[k]? = some (leavesOf tree.type)[k] :=
      List.getElem?_eq_getElem hk
    refine ⟨(leavesOf tree.type)[k].1, ⟨_, getSubtypeAndOffset_eq_some_iff.mp hleaf⟩, ?_⟩
    rintro path' ⟨l', hfound⟩
    have hleaf' := getSubtypeAndOffset_eq_some_iff.mpr hfound
    rw [hleaf] at hleaf'
    exact (congrArg Prod.fst (Option.some.inj hleaf')).symm
  · have hleaf := getSubtypeAndOffset_eq_some_iff.mpr ⟨hfound, hl⟩
    refine ⟨?_, ?_⟩
    · rw [← length_leavesOf]
      exact (List.getElem?_eq_some_iff.mp hleaf).1
    · rw [← map_snd_leavesOf, List.getElem?_map, hleaf]
      rfl
  · exact ⟨leavesOf tree.type, length_leavesOf tree.type,
      fun k path l => getSubtypeAndOffset_eq_some_iff.mp, fun σ ε f s => forEach_eq f tree s⟩
  · exact fun path t offset => copySubtree_spec tree

end LeafTypeTree

end Xls
