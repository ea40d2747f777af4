/-
# Leaf type trees

`LeafTypeTree<T>` (`xls/data_structures/leaf_type_tree.h`): one datum for each leaf
of a type, in a flat vector.  The structure carries the size check of the
constructors.  A subtree is a contiguous part of the vector; `GetSubtypeAndOffset`
finds it.
-/
import Xls.Ir.Value

namespace Xls

/-- A datum for each leaf of a type. -/
structure LeafTypeTree (α : Type) where
  type : Ty
  elements : List α
  length_eq : elements.length = type.leafCount

namespace LeafTypeTree

variable {α β γ : Type}

/-- The constructor from elements, with its size check. -/
def ofElements (type : Ty) (elements : List α) : Option (LeafTypeTree α) :=
  if h : elements.length = type.leafCount then some ⟨type, elements, h⟩ else none

/-- The tree of a leaf type. -/
def ofLeaf (type : Ty) (a : α) : Option (LeafTypeTree α) :=
  if type.isLeafType then ofElements type [a] else none

/-- The types a tuple or array type expects of its members. -/
def memberTypes : Ty → Option (List Ty)
  | .tuple ts => some ts
  | .array n t => some (List.replicate n t)
  | _ => none

/-- The constructor from the trees of the members of a tuple or array. -/
def ofMembers (type : Ty) (members : List (LeafTypeTree α)) : Option (LeafTypeTree α) :=
  if memberTypes type = some (members.map LeafTypeTree.type) then
    ofElements type (members.flatMap elements)
  else none

/-- A tree computed from the leaf types. -/
def ofLeafTypes (type : Ty) (f : Ty → α) : LeafTypeTree α :=
  ⟨type, type.leafTypes.map f, by rw [List.length_map, Ty.length_leafTypes]⟩

/-- `GetSubtypeAndOffset`. -/
def getSubtypeAndOffset : Ty → List ℕ → ℕ → Option (Ty × ℕ)
  | t, [], offset => some (t, offset)
  | .array n t, i :: index, offset =>
    if i < n then getSubtypeAndOffset t index (offset + i * t.leafCount) else none
  | .tuple ts, i :: index, offset =>
    match ts[i]? with
    | some t => getSubtypeAndOffset t index (offset + Ty.leafCountList (ts.take i))
    | none => none
  | .bits _, _ :: _, _ => none
  | .token, _ :: _, _ => none

/-- `Get`: the index must lead to a leaf. -/
def get (tree : LeafTypeTree α) (index : List ℕ) : Option α :=
  match getSubtypeAndOffset tree.type index 0 with
  | some (t, offset) => if t.isLeafType then tree.elements[offset]? else none
  | none => none

/-- `CopySubtree`. -/
def copySubtree (tree : LeafTypeTree α) (index : List ℕ) : Option (LeafTypeTree α) :=
  match getSubtypeAndOffset tree.type index 0 with
  | some (t, offset) => ofElements t ((tree.elements.drop offset).take t.leafCount)
  | none => none

/-- `Map`. -/
def map (f : α → β) (tree : LeafTypeTree α) : LeafTypeTree β :=
  ⟨tree.type, tree.elements.map f, by rw [List.length_map, tree.length_eq]⟩

/-- The leaves of two trees combined one by one. -/
def zipElements (f : α → β → Option γ) : List α → List β → Option (List γ)
  | [], [] => some []
  | a :: as, b :: bs =>
    match f a b, zipElements f as bs with
    | some c, some cs => some (c :: cs)
    | _, _ => none
  | _, _ => none

/-- `Zip`: the trees must have the same type. -/
def zip (f : α → β → Option γ) (lhs : LeafTypeTree α) (rhs : LeafTypeTree β) :
    Option (LeafTypeTree γ) :=
  if lhs.type = rhs.type then
    match zipElements f lhs.elements rhs.elements with
    | some elements => ofElements lhs.type elements
    | none => none
  else none

/-! ## Elements of the constructed trees -/

theorem ofElements_eq_some {type : Ty} {elements : List α} {tree : LeafTypeTree α}
    (h : ofElements type elements = some tree) :
    tree.type = type ∧ tree.elements = elements := by
  unfold ofElements at h
  split at h
  · cases h
    exact ⟨rfl, rfl⟩
  · cases h

theorem ofLeaf_eq_some {type : Ty} {a : α} {tree : LeafTypeTree α} (h : ofLeaf type a = some tree) :
    type.isLeafType = true ∧ tree.type = type ∧ tree.elements = [a] := by
  unfold ofLeaf at h
  split at h
  · rename_i hleaf
    exact ⟨hleaf, ofElements_eq_some h⟩
  · cases h

theorem ofMembers_eq_some {type : Ty} {members : List (LeafTypeTree α)} {tree : LeafTypeTree α}
    (h : ofMembers type members = some tree) :
    tree.type = type ∧ tree.elements = members.flatMap elements := by
  unfold ofMembers at h
  split at h
  · exact ofElements_eq_some h
  · cases h

variable {f : α → β → Option γ} {as : List α} {bs : List β} {cs : List γ}

theorem zipElements_eq_some (h : zipElements f as bs = some cs) :
    List.Forall₂ (fun p c => f p.1 p.2 = some c) (as.zip bs) cs ∧ as.length = bs.length := by
  induction as generalizing bs cs with
  | nil =>
    cases bs with
    | nil =>
      cases h
      exact ⟨.nil, rfl⟩
    | cons b bs => cases h
  | cons a as ih =>
    cases bs with
    | nil => cases h
    | cons b bs =>
      rw [zipElements] at h
      split at h
      · rename_i c cs' hc hcs
        cases h
        obtain ⟨h1, h2⟩ := ih hcs
        exact ⟨.cons hc h1, by rw [List.length_cons, List.length_cons, h2]⟩
      · cases h

theorem zip_eq_some {lhs : LeafTypeTree α} {rhs : LeafTypeTree β} {tree : LeafTypeTree γ}
    (h : zip f lhs rhs = some tree) :
    lhs.type = rhs.type ∧ tree.type = lhs.type ∧
    zipElements f lhs.elements rhs.elements = some tree.elements := by
  unfold zip at h
  split at h
  · rename_i ht
    split at h
    · rename_i elements hz
      obtain ⟨h1, h2⟩ := ofElements_eq_some h
      exact ⟨ht, h1, by rw [hz, h2]⟩
    · cases h
  · cases h

/-- Facts about the two inputs of a `Zip`, leaf by leaf, give facts about its result. -/
theorem forall₂_zipElements {δ : Type} {P : α → δ → Prop} {Q : β → δ → Prop} {R : γ → δ → Prop}
    (hf : ∀ {a b c d}, f a b = some c → P a d → Q b d → R c d) {ds : List δ}
    (h : zipElements f as bs = some cs) (hp : List.Forall₂ P as ds) (hq : List.Forall₂ Q bs ds) :
    List.Forall₂ R cs ds := by
  induction hp generalizing bs cs with
  | nil =>
    cases hq
    cases h
    exact .nil
  | cons hp _ ih =>
    cases hq with
    | cons hq hqs =>
      rw [zipElements] at h
      split at h
      · rename_i c cs' hc hcs
        cases h
        exact .cons (hf hc hp hq) (ih hcs hqs)
      · cases h

/-- A property of all results of the combining function holds of all leaves. -/
theorem mem_zipElements {R : γ → Prop} (hf : ∀ {a b c}, f a b = some c → R c)
    (h : zipElements f as bs = some cs) : ∀ c ∈ cs, R c := by
  induction as generalizing bs cs with
  | nil =>
    cases bs with
    | nil =>
      cases h
      simp
    | cons b bs => cases h
  | cons a as ih =>
    cases bs with
    | nil => cases h
    | cons b bs =>
      rw [zipElements] at h
      split at h
      · rename_i c cs' hc hcs
        cases h
        intro d hd
        obtain rfl | hd := List.mem_cons.mp hd
        · exact hf hc
        · exact ih hcs d hd
      · cases h

theorem get_nil_eq_some {tree : LeafTypeTree α} {a : α} (h : tree.get [] = some a) :
    tree.type.isLeafType = true ∧ tree.elements = [a] := by
  unfold get at h
  rw [getSubtypeAndOffset] at h
  simp only at h
  split at h
  · rename_i hleaf
    have hlen := tree.length_eq
    have hone : tree.type.leafCount = 1 := by
      cases ht : tree.type <;> rw [ht] at hleaf <;> first | rfl | cases hleaf
    rw [hone, List.length_eq_one_iff] at hlen
    obtain ⟨b, hb⟩ := hlen
    rw [hb] at h ⊢
    cases h
    exact ⟨hleaf, rfl⟩
  · cases h

end LeafTypeTree

/-! ## Subtrees and the values at an index -/

namespace Value

/-- The element of a value at an index path. -/
def index : Value → List ℕ → Option Value
  | v, [] => some v
  | v, i :: path =>
    match v.elements with
    | some vs =>
      match vs[i]? with
      | some u => u.index path
      | none => none
    | none => none

theorem conformsToTypes_getElem? {vs : List Value} {ts : List Ty}
    (h : conformsToTypes vs ts = true) {i : ℕ} {v : Value} (hv : vs[i]? = some v) :
    ∃ t, ts[i]? = some t ∧ v.conformsToType t = true ∧
      (leavesList (vs.take i)).length = Ty.leafCountList (ts.take i) := by
  induction vs generalizing ts i with
  | nil => simp at hv
  | cons a vs ih =>
    cases ts with
    | nil => cases h
    | cons t ts =>
      rw [conformsToTypes, Bool.and_eq_true] at h
      cases i with
      | zero =>
        simp only [List.getElem?_cons_zero, Option.some.injEq] at hv
        subst hv
        exact ⟨t, rfl, h.1, rfl⟩
      | succ i =>
        obtain ⟨u, hu, hconf, hlen⟩ := ih h.2 hv
        refine ⟨u, hu, hconf, ?_⟩
        rw [List.take_succ_cons, List.take_succ_cons, leavesList, Ty.leafCountList,
          List.length_append, hlen, length_leaves h.1]

theorem conformToType_getElem? {vs : List Value} {t : Ty} (h : conformToType vs t = true)
    {i : ℕ} {v : Value} (hv : vs[i]? = some v) :
    v.conformsToType t = true ∧ (leavesList (vs.take i)).length = i * t.leafCount := by
  induction vs generalizing i with
  | nil => simp at hv
  | cons a vs ih =>
    rw [conformToType, Bool.and_eq_true] at h
    cases i with
    | zero =>
      simp only [List.getElem?_cons_zero, Option.some.injEq] at hv
      subst hv
      exact ⟨h.1, by simp [leavesList]⟩
    | succ i =>
      obtain ⟨hconf, hlen⟩ := ih h.2 hv
      refine ⟨hconf, ?_⟩
      rw [List.take_succ_cons, leavesList, List.length_append, hlen, length_leaves h.1]
      ring

/-- The leaves of a list of values around the element at a position. -/
theorem leavesList_split {vs : List Value} {i : ℕ} {v : Value} (hv : vs[i]? = some v) :
    leavesList vs = leavesList (vs.take i) ++ v.leaves ++ leavesList (vs.drop (i + 1)) := by
  obtain ⟨hi, hv⟩ := List.getElem?_eq_some_iff.mp hv
  conv_lhs => rw [← List.take_append_drop i vs, leavesList_append, List.drop_eq_getElem_cons hi]
  rw [leavesList, hv, List.append_assoc]

/-- `GetSubtypeAndOffset` finds the leaves of the element at an index path. -/
theorem leaves_index {path : List ℕ} : ∀ {v u : Value} {t t' : Ty} {offset offset' : ℕ},
    v.conformsToType t = true → v.index path = some u →
    LeafTypeTree.getSubtypeAndOffset t path offset = some (t', offset') →
    u.conformsToType t' = true ∧
    ∃ front back, v.leaves = front ++ u.leaves ++ back ∧ offset + front.length = offset' := by
  induction path with
  | nil =>
    intro v u t t' offset offset' hconf hv ht
    cases ht
    cases hv
    exact ⟨hconf, [], [], by simp, rfl⟩
  | cons i path ih =>
    -- the step: the leaves of the chosen element, then the rest of the path inside it
    have hcompose : ∀ {vs : List Value} {a u : Value} {s t' : Ty} {before offset' : ℕ}
        {offset : ℕ}, vs[i]? = some a → a.conformsToType s = true →
        (leavesList (vs.take i)).length = before → a.index path = some u →
        LeafTypeTree.getSubtypeAndOffset s path (offset + before) = some (t', offset') →
        u.conformsToType t' = true ∧
        ∃ front back, leavesList vs = front ++ u.leaves ++ back ∧
          offset + front.length = offset' := by
      intro vs a u s t' before offset' offset ha hs hbefore hu ht
      obtain ⟨hconf, front, back, heq, hlen⟩ := ih hs hu ht
      refine ⟨hconf, leavesList (vs.take i) ++ front, back ++ leavesList (vs.drop (i + 1)), ?_, ?_⟩
      · rw [leavesList_split ha, heq]
        simp only [List.append_assoc]
      · rw [List.length_append]
        omega
    intro v u t t' offset offset' hconf hv ht
    rw [index.eq_def] at hv
    cases t with
    | bits n => cases ht
    | token => cases ht
    | tuple ts =>
      cases v with
      | bits b => cases hconf
      | token => cases hconf
      | array vs => cases hconf
      | tuple vs =>
        simp only [elements] at hv
        split at hv
        · rename_i a ha
          obtain ⟨s, hs, hsconf, hlen⟩ := conformsToTypes_getElem? hconf ha
          rw [LeafTypeTree.getSubtypeAndOffset, hs] at ht
          exact hcompose ha hsconf hlen hv ht
        · cases hv
    | array n s =>
      cases v with
      | bits b => cases hconf
      | token => cases hconf
      | tuple vs => cases hconf
      | array vs =>
        rw [conformsToType, Bool.and_eq_true] at hconf
        simp only [elements] at hv
        split at hv
        · rename_i a ha
          obtain ⟨hsconf, hlen⟩ := conformToType_getElem? hconf.2 ha
          rw [LeafTypeTree.getSubtypeAndOffset] at ht
          split at ht
          · exact hcompose ha hsconf hlen hv ht
          · cases ht
        · cases hv

end Value

end Xls
