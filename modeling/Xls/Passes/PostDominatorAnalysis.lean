/-
# Post-dominators

`PostDominatorAnalysis::Run` (`xls/passes/post_dominator_analysis.cc`): one sweep over the nodes,
users first, intersects the sorted lists of the users.  A post-dominator stands in a list by its
place in the order of the sweep.  `none` is a failed check.

* `mem_intersectSortedLists` : the merge of sorted lists;
* `Swept.step` : the list of one more node;
* `run_exact` : a node is listed exactly when it is on every path to an exit.
-/
import Xls.Ir.NodeIterator
import Xls.Lib.FoldM
import Xls.Lib.InOrder
import Xls.Lib.PostDominance
import Mathlib.Data.Finset.Basic

namespace Xls

namespace PostDominatorAnalysis

variable {f : FunctionBase}

/-! ## The source -/

/-- The least value at the present places of the lists. -/
def minValue (lists : List (List ℕ)) : ℕ :=
  match lists.map fun l => l.headD 0 with
  | [] => 0
  | first :: rest => rest.foldl (fun m value => if value < m then value else m) first

/-- The loop of `IntersectSortedLists`, on what is left of each list behind its index. -/
def intersectLoop : ℕ → List (List ℕ) → List ℕ → List ℕ
  | 0, _, intersection => intersection
  | fuel + 1, lists, intersection =>
    if lists.any List.isEmpty then intersection
    else
      let m := minValue lists
      let matchCount := lists.countP fun l => l.head? = some m
      intersectLoop fuel (lists.map fun l => if l.head? = some m then l.tail else l)
        (if matchCount = lists.length then intersection ++ [m] else intersection)

/-- `IntersectSortedLists`; a round passes over at least one element. -/
def intersectSortedLists (lists : List (List ℕ)) : List ℕ :=
  if lists.isEmpty then [] else intersectLoop (lists.map List.length).sum lists []

/-- The body of the sweep, for a node and its place in the order. -/
def sweepStep (f : FunctionBase) (users : Users f) (postdominators : ℕ → Option (List ℕ))
    (p : ℕ × ℕ) : Option (ℕ → Option (List ℕ)) := do
  let userPostdominators ← (users.users p.1).mapM postdominators
  let common := intersectSortedLists userPostdominators
  -- an implicit use is another way to a root than the users
  let common := if p.1 ∈ f.implicitUses then [] else common
  some (Function.update postdominators p.1 (some (common ++ [p.2])))

/-- The two maps. -/
structure Maps where
  dominatedNodeToPostDominators : ℕ → Finset ℕ
  postDominatorToDominatedNodes : ℕ → Finset ℕ

/-- A pair is put into both maps. -/
def Maps.insert (a : Maps) (node postdominator : ℕ) : Maps where
  dominatedNodeToPostDominators := Function.update a.dominatedNodeToPostDominators node
    (Insert.insert postdominator (a.dominatedNodeToPostDominators node))
  postDominatorToDominatedNodes := Function.update a.postDominatorToDominatedNodes postdominator
    (Insert.insert node (a.postDominatorToDominatedNodes postdominator))

/-- The loop over the post-dominators of a node. -/
def collectNode (order : List ℕ) (postdominators : ℕ → Option (List ℕ)) (a : Maps) (node : ℕ) :
    Option Maps := do
  let indices ← postdominators node
  indices.foldlM (fun a index => order[index]?.map (a.insert node)) a

/-- `Run`. -/
def run (f : FunctionBase) (users : Users f) (returnValue : Option ℕ) : Option Maps := do
  let order ← NodeIterator.reverseTopoSort users returnValue
  let postdominators ← order.zipIdx.foldlM (sweepStep f users) fun _ => none
  (List.range f.nodes.length).foldlM (collectNode order postdominators) ⟨fun _ => ∅, fun _ => ∅⟩

/-- `SortByNodeId` of the nodes of a set, for the ids which the package gave to the nodes. -/
def sortByNodeId (nodeId : ℕ → ℤ) (nodes : Finset ℕ) : List ℕ :=
  nodes.inOrder.mergeSort fun a b => nodeId a ≤ nodeId b

/-- `GetPostDominatorsOfNode`. -/
def Maps.getPostDominatorsOfNode (a : Maps) (nodeId : ℕ → ℤ) (node : ℕ) : List ℕ :=
  sortByNodeId nodeId (a.dominatedNodeToPostDominators node)

/-- `GetNodesPostDominatedByNode`. -/
def Maps.getNodesPostDominatedByNode (a : Maps) (nodeId : ℕ → ℤ) (node : ℕ) : List ℕ :=
  sortByNodeId nodeId (a.postDominatorToDominatedNodes node)

@[simp]
theorem mem_sortByNodeId {nodeId : ℕ → ℤ} {nodes : Finset ℕ} {n : ℕ} :
    n ∈ sortByNodeId nodeId nodes ↔ n ∈ nodes := by
  rw [sortByNodeId, List.mem_mergeSort, Finset.mem_inOrder]

/-! ## The merge of sorted lists -/

theorem foldl_min_le (rest : List ℕ) (first : ℕ) :
    rest.foldl (fun m value => if value < m then value else m) first ≤ first ∧
      (∀ v ∈ rest, rest.foldl (fun m value => if value < m then value else m) first ≤ v) ∧
      (rest.foldl (fun m value => if value < m then value else m) first = first ∨
        rest.foldl (fun m value => if value < m then value else m) first ∈ rest) := by
  induction rest generalizing first with
  | nil => exact ⟨le_rfl, fun v hv => absurd hv List.not_mem_nil, Or.inl rfl⟩
  | cons v rest ih =>
    obtain ⟨hle, hall, hmem⟩ := ih (if v < first then v else first)
    rw [List.foldl_cons]
    refine ⟨hle.trans (by split <;> omega), fun u hu => ?_, ?_⟩
    · rcases List.mem_cons.mp hu with rfl | hu
      · exact hle.trans (by split <;> omega)
      · exact hall u hu
    · rcases hmem with hmem | hmem
      · rw [hmem]
        split
        · exact Or.inr (List.mem_cons_self ..)
        · exact Or.inl rfl
      · exact Or.inr (List.mem_cons_of_mem v hmem)

variable {lists : List (List ℕ)} {order : List ℕ} {postdominators : ℕ → Option (List ℕ)}
  {R : ℕ → ℕ → Prop}

/-- The least value is at the present place of a list, and no list has a smaller one there. -/
theorem minValue_spec (hne : lists ≠ []) (hlists : ∀ l ∈ lists, l ≠ []) :
    (∃ l ∈ lists, l.head? = some (minValue lists)) ∧
      ∀ l ∈ lists, ∀ v, l.head? = some v → minValue lists ≤ v := by
  have hhead : ∀ l ∈ lists, ∀ v, l.head? = some v ↔ l.headD 0 = v := by
    intro l hl v
    rcases l with - | ⟨x, l⟩
    · exact absurd rfl (hlists [] hl)
    · rw [List.head?_cons, Option.some.injEq, List.headD_cons]
  rcases lists with - | ⟨first, rest⟩
  · exact absurd rfl hne
  · obtain ⟨hle, hall, hmem⟩ := foldl_min_le (rest.map fun l => l.headD 0) (first.headD 0)
    have hmin : minValue (first :: rest) = (rest.map fun l => l.headD 0).foldl
        (fun m value => if value < m then value else m) (first.headD 0) := rfl
    constructor
    · rcases hmem with hmem | hmem
      · exact ⟨first, List.mem_cons_self .., (hhead first (List.mem_cons_self ..) _).mpr hmem.symm⟩
      · obtain ⟨l, hl, heq⟩ := List.mem_map.mp hmem
        have hl' := List.mem_cons_of_mem first hl
        exact ⟨l, hl', (hhead l hl' _).mpr heq⟩
    · intro l hl v hv
      rw [← (hhead l hl v).mp hv]
      rcases List.mem_cons.mp hl with rfl | hl
      · exact hle
      · exact hall _ (List.mem_map_of_mem hl)

/-- A list without the least value, when it is at its present place. -/
def advance (m : ℕ) (l : List ℕ) : List ℕ := if l.head? = some m then l.tail else l

theorem mem_advance {m v : ℕ} {l : List ℕ} (hl : l.Pairwise (· < ·))
    (hmin : ∀ u, l.head? = some u → m ≤ u) : v ∈ advance m l ↔ v ∈ l ∧ v ≠ m := by
  rcases l with - | ⟨x, l⟩
  · simp [advance]
  · obtain ⟨hx, -⟩ := List.pairwise_cons.mp hl
    have hle := hmin x rfl
    unfold advance
    split
    · rename_i h
      obtain rfl : x = m := Option.some.inj h
      rw [List.mem_cons]
      constructor
      · intro hv
        exact ⟨Or.inr hv, (hx v hv).ne'⟩
      · rintro ⟨rfl | hv, hne⟩
        · exact absurd rfl hne
        · exact hv
    · rename_i h
      refine (and_iff_left_of_imp fun hv => ?_).symm
      rintro rfl
      rcases List.mem_cons.mp hv with rfl | hv
      · exact h rfl
      · exact absurd (hx v hv) (by omega)

theorem pairwise_advance {m : ℕ} {l : List ℕ} (hl : l.Pairwise (· < ·)) :
    (advance m l).Pairwise (· < ·) := by
  unfold advance
  split
  · exact hl.tail
  · exact hl

theorem length_advance_le (m : ℕ) (l : List ℕ) : (advance m l).length ≤ l.length := by
  unfold advance
  split
  · rw [List.length_tail]
    exact Nat.sub_le _ _
  · exact le_rfl

theorem sum_length_advance {m : ℕ} (h : ∃ l ∈ lists, l.head? = some m) :
    ((lists.map (advance m)).map List.length).sum < (lists.map List.length).sum := by
  rw [List.map_map]
  refine List.sum_lt_sum _ _ (fun l _ => length_advance_le m l) ?_
  obtain ⟨l, hl, hhead⟩ := h
  refine ⟨l, hl, ?_⟩
  obtain ⟨t, rfl⟩ := List.head?_eq_some_iff.mp hhead
  have htail : advance m (m :: t) = t := if_pos hhead
  show (advance m (m :: t)).length < (m :: t).length
  rw [htail]
  exact Nat.lt_succ_self _

/-- What the loop adds to the intersection: the values which are left in all lists. -/
theorem intersectLoop_spec (fuel : ℕ) : ∀ {lists : List (List ℕ)} {intersection : List ℕ},
    lists ≠ [] → (∀ l ∈ lists, l.Pairwise (· < ·)) → intersection.Pairwise (· < ·) →
    (∀ v ∈ intersection, ∀ l ∈ lists, ∀ u ∈ l, v < u) → (lists.map List.length).sum ≤ fuel →
    (intersectLoop fuel lists intersection).Pairwise (· < ·) ∧
      ∀ v, v ∈ intersectLoop fuel lists intersection ↔ v ∈ intersection ∨ ∀ l ∈ lists, v ∈ l := by
  -- at the end of a list nothing is left in all of them
  have hend : ∀ {lists : List (List ℕ)} {intersection : List ℕ}, [] ∈ lists → ∀ v,
      v ∈ intersection ↔ v ∈ intersection ∨ ∀ l ∈ lists, v ∈ l := fun hnil v =>
    (or_iff_left fun hall => List.not_mem_nil (hall [] hnil)).symm
  induction fuel with
  | zero =>
    intro lists intersection hne _ hsorted _ hfuel
    refine ⟨hsorted, hend ?_⟩
    obtain ⟨l, rest, rfl⟩ := List.exists_cons_of_ne_nil hne
    rw [List.map_cons, List.sum_cons] at hfuel
    rw [List.length_eq_zero_iff.mp (show l.length = 0 by omega)]
    exact List.mem_cons_self ..
  | succ fuel ih =>
    intro lists intersection hne hlists hsorted hbelow hfuel
    rw [intersectLoop]
    by_cases hany : lists.any List.isEmpty = true
    · rw [if_pos hany]
      obtain ⟨l, hl, hempty⟩ := List.any_eq_true.mp hany
      rw [List.isEmpty_iff.mp hempty] at hl
      exact ⟨hsorted, hend hl⟩
    · rw [if_neg hany]
      have hfull : ∀ l ∈ lists, l ≠ [] := fun l hl hnil =>
        hany (List.any_eq_true.mpr ⟨l, hl, List.isEmpty_iff.mpr hnil⟩)
      obtain ⟨hmem, hmin⟩ := minValue_spec hne hfull
      obtain ⟨m, hm⟩ : ∃ m, m = minValue lists := ⟨_, rfl⟩
      rw [← hm] at hmem hmin
      simp only [← hm]
      have hadvance : ∀ l ∈ lists, ∀ v, v ∈ advance m l ↔ v ∈ l ∧ v ≠ m := fun l hl v =>
        mem_advance (hlists l hl) (hmin l hl)
      -- the least value is in all lists exactly when all of them match
      have hmatch : (lists.countP fun l => decide (l.head? = some m)) = lists.length ↔
          ∀ l ∈ lists, m ∈ l := by
        rw [List.countP_eq_length]
        refine forall₂_congr fun l hl => ?_
        rw [decide_eq_true_eq]
        refine ⟨fun h => List.mem_of_mem_head? h, fun h => ?_⟩
        obtain ⟨x, t, rfl⟩ := List.exists_cons_of_ne_nil (hfull l hl)
        have hle := hmin _ hl x rfl
        rcases List.mem_cons.mp h with rfl | h
        · rfl
        · exact absurd ((List.pairwise_cons.mp (hlists _ hl)).1 m h) (by omega)
      have hsum := sum_length_advance hmem
      obtain ⟨next, hnext⟩ : ∃ next, next = if (lists.countP fun l => decide (l.head? = some m)) =
        lists.length then intersection ++ [m] else intersection := ⟨_, rfl⟩
      have hnextMem : ∀ v, v ∈ next ↔ v ∈ intersection ∨ v = m ∧ ∀ l ∈ lists, m ∈ l := by
        intro v
        rw [hnext, ← hmatch]
        split
        · rename_i h
          simp [h]
        · rename_i h
          simp [h]
      have hnextSorted : next.Pairwise (· < ·) := by
        rw [hnext]
        split
        · obtain ⟨l, hl, hhead⟩ := hmem
          refine List.pairwise_append.mpr ⟨hsorted, List.pairwise_singleton _ _, ?_⟩
          intro v hv u hu
          rw [List.mem_singleton.mp hu]
          exact hbelow v hv l hl m (List.mem_of_mem_head? hhead)
        · exact hsorted
      have hnextBelow : ∀ v ∈ next, ∀ l ∈ lists.map (advance m), ∀ u ∈ l, v < u := by
        intro v hv k hk u hu
        obtain ⟨l, hl, rfl⟩ := List.mem_map.mp hk
        obtain ⟨hul, hne⟩ := (hadvance l hl u).mp hu
        have hle : m ≤ u := by
          obtain ⟨x, t, rfl⟩ := List.exists_cons_of_ne_nil (hfull l hl)
          have hx := hmin _ hl x rfl
          rcases List.mem_cons.mp hul with rfl | hu
          · exact hx
          · exact hx.trans ((List.pairwise_cons.mp (hlists _ hl)).1 u hu).le
        rcases (hnextMem v).mp hv with hv | ⟨rfl, -⟩
        · exact hbelow v hv l hl u hul
        · exact lt_of_le_of_ne hle (Ne.symm hne)
      have hnextLists : ∀ k ∈ lists.map (advance m), k.Pairwise (· < ·) := by
        intro k hk
        obtain ⟨l, hl, rfl⟩ := List.mem_map.mp hk
        exact pairwise_advance (hlists l hl)
      obtain ⟨hloop, hloopMem⟩ :=
        ih (by simpa using hne) hnextLists hnextSorted hnextBelow (by omega)
      rw [← hnext]
      refine ⟨hloop, fun v => (hloopMem v).trans ?_⟩
      have hrest : (∀ l ∈ lists, v ∈ advance m l) ↔ (∀ l ∈ lists, v ∈ l) ∧ v ≠ m := by
        constructor
        · intro h
          obtain ⟨l, hl, -⟩ := hmem
          exact ⟨fun l hl => ((hadvance l hl v).mp (h l hl)).1, ((hadvance l hl v).mp (h l hl)).2⟩
        · exact fun h l hl => (hadvance l hl v).mpr ⟨h.1 l hl, h.2⟩
      rw [List.forall_mem_map, hrest, hnextMem v]
      by_cases hv : v = m
      · subst hv
        simp
      · simp [hv]

/-- The intersection of some sorted lists, one at least. -/
theorem mem_intersectSortedLists (hne : lists ≠ []) (hlists : ∀ l ∈ lists, l.Pairwise (· < ·)) :
    (intersectSortedLists lists).Pairwise (· < ·) ∧
      ∀ v, v ∈ intersectSortedLists lists ↔ ∀ l ∈ lists, v ∈ l := by
  have hempty : lists.isEmpty = false := List.isEmpty_eq_false_iff.mpr hne
  unfold intersectSortedLists
  rw [hempty]
  obtain ⟨hsorted, hmem⟩ := intersectLoop_spec _ hne hlists List.Pairwise.nil
    (fun v hv => absurd hv List.not_mem_nil) le_rfl
  exact ⟨hsorted, fun v => (hmem v).trans (or_iff_right List.not_mem_nil)⟩

/-! ## The sweep -/

open PostDominance

/-- An exit: a node without users, or one which the function itself uses. -/
def IsExit (f : FunctionBase) (n : ℕ) : Prop := (∀ u, ¬ Uses f u n) ∨ n ∈ f.implicitUses

/-- `d` is on every path along the users from `n` to an exit. -/
def NodePostDominates (f : FunctionBase) (d n : ℕ) : Prop :=
  PostDominates (fun n u => Uses f u n) (IsExit f) d n

/-- The places of the post-dominators of a node in the order, ascending. -/
structure Listed (f : FunctionBase) (order : List ℕ) (n : ℕ) (indices : List ℕ) : Prop where
  pairwise : indices.Pairwise (· < ·)
  exact : ∀ (index d : ℕ), order[index]? = some d → (index ∈ indices ↔ NodePostDominates f d n)

/-- The nodes of the order so far have their lists, which go to places so far. -/
def Swept (f : FunctionBase) (order before : List ℕ) (postdominators : ℕ → Option (List ℕ)) :
    Prop :=
  ∀ n ∈ before, ∃ indices, postdominators n = some indices ∧ Listed f order n indices ∧
    ∀ index ∈ indices, index < before.length

theorem Swept.step {users : Users f} {before after : List ℕ} {n : ℕ}
    (h : Swept f order before postdominators) (horder : order = before ++ n :: after)
    (hnodup : order.Nodup) (husers : ∀ u ∈ users.users n, u ∈ before) : ∃ postdominators',
      sweepStep f users postdominators (n, before.length) = some postdominators' ∧
        Swept f order (before ++ [n]) postdominators' := by
  have hplace : order[before.length]? = some n := by
    rw [horder, List.getElem?_append_right le_rfl, Nat.sub_self]
    rfl
  -- the lists of the users
  obtain ⟨lists, hlists, hfrom, hto⟩ := exists_mapM (f := postdominators)
    (P := fun u indices => postdominators u = some indices ∧ Listed f order u indices ∧
      ∀ index ∈ indices, index < before.length) (users.users n) fun u hu => by
      obtain ⟨indices, hindices, hlisted⟩ := h u (husers u hu)
      exact ⟨indices, hindices, hindices, hlisted⟩
  obtain ⟨common, hcommon⟩ : ∃ common, common =
      if n ∈ f.implicitUses then [] else intersectSortedLists lists := ⟨_, rfl⟩
  have hspec : common.Pairwise (· < ·) ∧ (∀ index ∈ common, index < before.length) ∧
      ∀ (index d : ℕ), order[index]? = some d → (index ∈ common ↔
        ¬ IsExit f n ∧ ∀ u, Uses f u n → NodePostDominates f d u) := by
    by_cases himplicit : n ∈ f.implicitUses
    · rw [hcommon, if_pos himplicit]
      refine ⟨List.Pairwise.nil, fun _ h => absurd h List.not_mem_nil, fun index d _ => ?_⟩
      exact iff_of_false List.not_mem_nil fun h => h.1 (Or.inr himplicit)
    · rw [hcommon, if_neg himplicit]
      by_cases hnone : users.users n = []
      · have hnil : lists = [] := by
          rw [hnone] at hlists
          exact (Option.some.inj hlists).symm
        subst hnil
        refine ⟨List.Pairwise.nil, fun _ h => absurd h List.not_mem_nil, fun index d _ => ?_⟩
        refine iff_of_false List.not_mem_nil fun h => h.1 (Or.inl fun u hu => ?_)
        exact List.not_mem_nil (hnone ▸ users.mem_iff.mpr hu)
      · have huser : ∃ u, u ∈ users.users n := List.exists_mem_of_ne_nil _ hnone
        have hne : lists ≠ [] := by
          obtain ⟨u, hu⟩ := huser
          obtain ⟨indices, hindices, -⟩ := hto u hu
          exact List.ne_nil_of_mem hindices
        obtain ⟨hpairwise, hmem⟩ := mem_intersectSortedLists hne fun l hl => by
          obtain ⟨u, -, -, hlisted, -⟩ := hfrom l hl
          exact hlisted.pairwise
        have hexit : ¬ IsExit f n := by
          obtain ⟨u, hu⟩ := huser
          exact not_or.mpr ⟨fun hall => hall u (users.mem_iff.mp hu), himplicit⟩
        refine ⟨hpairwise, fun index hindex => ?_, fun index d hd => ?_⟩
        · obtain ⟨l, hl⟩ := List.exists_mem_of_ne_nil _ hne
          obtain ⟨u, -, -, -, hbound⟩ := hfrom l hl
          exact hbound index ((hmem index).mp hindex l hl)
        · rw [hmem index, and_iff_right hexit]
          constructor
          · intro hall u hu
            obtain ⟨l, hl, -, hlisted, -⟩ := hto u (users.mem_iff.mpr hu)
            exact (hlisted.exact index d hd).mp (hall l hl)
          · intro hall l hl
            obtain ⟨u, hu, -, hlisted, -⟩ := hfrom l hl
            exact (hlisted.exact index d hd).mpr (hall u (users.mem_iff.mp hu))
  obtain ⟨hpairwise, hbound, hexact⟩ := hspec
  refine ⟨Function.update postdominators n (some (common ++ [before.length])), ?_, ?_⟩
  · show Option.bind ((users.users n).mapM postdominators) _ = _
    rw [hlists, hcommon]
    rfl
  · intro m hm
    rw [List.length_append]
    by_cases hmn : m = n
    · subst hmn
      refine ⟨_, Function.update_self .., ⟨?_, fun index d hd => ?_⟩, fun index hindex => ?_⟩
      · exact List.pairwise_append.mpr ⟨hpairwise, List.pairwise_singleton _ _,
          fun a ha b hb => by rw [List.mem_singleton.mp hb]; exact hbound a ha⟩
      · rw [List.mem_append, List.mem_singleton, hexact index d hd, NodePostDominates,
          postDominates_iff, or_comm]
        refine or_congr_left ?_
        constructor
        · rintro rfl
          exact Option.some.inj (hd.symm.trans hplace)
        · rintro rfl
          exact (List.getElem?_inj (List.getElem?_eq_some_iff.mp hd).1 hnodup).mp
            (hd.trans hplace.symm)
      · rcases List.mem_append.mp hindex with hindex | hindex
        · exact (hbound index hindex).trans (Nat.lt_succ_self _)
        · rw [List.mem_singleton.mp hindex]
          exact Nat.lt_succ_self _
    · have hbefore : m ∈ before := (List.mem_append.mp hm).resolve_right fun h =>
        hmn (List.mem_singleton.mp h)
      obtain ⟨indices, hindices, hlisted, hlt⟩ := h m hbefore
      exact ⟨indices, (Function.update_of_ne hmn ..).trans hindices, hlisted,
        fun index hindex => (hlt index hindex).trans (Nat.lt_succ_self _)⟩

/-- The whole sweep. -/
theorem foldlM_sweepStep {users : Users f} (hnodup : order.Nodup)
    (hordered : ∀ before n after, order = before ++ n :: after →
      ∀ u ∈ users.users n, u ∈ before) (rest : List ℕ) :
    ∀ {before : List ℕ} {postdominators : ℕ → Option (List ℕ)}, order = before ++ rest →
      Swept f order before postdominators → ∃ postdominators',
        (rest.zipIdx before.length).foldlM (sweepStep f users) postdominators =
          some postdominators' ∧ Swept f order order postdominators' := by
  induction rest with
  | nil =>
    intro before postdominators horder h
    rw [List.append_nil] at horder
    subst horder
    exact ⟨postdominators, rfl, h⟩
  | cons n rest ih =>
    intro before postdominators horder h
    obtain ⟨next, hstep, hnext⟩ := h.step horder hnodup (hordered before n rest horder)
    have horder' : order = (before ++ [n]) ++ rest := by
      rw [horder, List.append_assoc, List.singleton_append]
    obtain ⟨final, hfold, hfinal⟩ := ih horder' hnext
    refine ⟨final, ?_, hfinal⟩
    rw [List.zipIdx_cons, List.foldlM_cons, hstep]
    rw [List.length_append] at hfold
    exact hfold

/-! ## The two maps -/

/-- The maps hold the pairs of a relation, each in its own direction. -/
structure Maps.Holds (a : Maps) (R : ℕ → ℕ → Prop) : Prop where
  dominated : ∀ d n, d ∈ a.dominatedNodeToPostDominators n ↔ R d n
  postDominator : ∀ d n, n ∈ a.postDominatorToDominatedNodes d ↔ R d n

theorem Maps.Holds.insert {a : Maps} (h : a.Holds R) (n d : ℕ) :
    (a.insert n d).Holds fun e m => R e m ∨ m = n ∧ e = d := by
  constructor
  · intro e m
    show e ∈ Function.update a.dominatedNodeToPostDominators n
      (Insert.insert d (a.dominatedNodeToPostDominators n)) m ↔ (R e m ∨ m = n ∧ e = d)
    by_cases hm : m = n
    · subst hm
      rw [Function.update_self, Finset.mem_insert, h.dominated, or_comm]
      simp
    · rw [Function.update_of_ne hm, h.dominated]
      simp [hm]
  · intro e m
    show m ∈ Function.update a.postDominatorToDominatedNodes d
      (Insert.insert n (a.postDominatorToDominatedNodes d)) e ↔ (R e m ∨ m = n ∧ e = d)
    by_cases he : e = d
    · subst he
      rw [Function.update_self, Finset.mem_insert, h.postDominator, or_comm]
      simp
    · rw [Function.update_of_ne he, h.postDominator]
      simp [he]

theorem Maps.Holds.congr {a : Maps} {R' : ℕ → ℕ → Prop} (h : a.Holds R) (hR : ∀ d n, R d n ↔ R' d n) :
    a.Holds R' :=
  ⟨fun d n => (h.dominated d n).trans (hR d n), fun d n => (h.postDominator d n).trans (hR d n)⟩

/-- The loop over the post-dominators of a node. -/
theorem foldlM_insert (n : ℕ) (indices : List ℕ) :
    ∀ {a : Maps} {R : ℕ → ℕ → Prop}, a.Holds R → (∀ index ∈ indices, index < order.length) →
      ∃ a', indices.foldlM (fun a index => order[index]?.map (Maps.insert a n)) a = some a' ∧
        a'.Holds fun d m => R d m ∨ m = n ∧ ∃ index ∈ indices, order[index]? = some d := by
  induction indices with
  | nil =>
    intro a R h _
    exact ⟨a, rfl, h.congr fun d m => by simp⟩
  | cons index indices ih =>
    intro a R h hbound
    have hindex := hbound index (List.mem_cons_self ..)
    obtain ⟨a', hfold, ha'⟩ := ih (h.insert n order[index]) fun i hi =>
      hbound i (List.mem_cons_of_mem index hi)
    refine ⟨a', ?_, ha'.congr fun d m => ?_⟩
    · rw [List.foldlM_cons, List.getElem?_eq_getElem hindex]
      exact hfold
    · rw [List.exists_mem_cons_iff, List.getElem?_eq_getElem hindex, Option.some.injEq, or_assoc,
        ← and_or_left, @eq_comm _ d]

theorem collectNode_spec {a : Maps} (h : a.Holds R) (hswept : Swept f order order postdominators)
    {n : ℕ} (hn : n ∈ order) : ∃ a', collectNode order postdominators a n = some a' ∧
      a'.Holds fun d m => R d m ∨ m = n ∧ d ∈ order ∧ NodePostDominates f d m := by
  obtain ⟨indices, hindices, hlisted, hbound⟩ := hswept n hn
  obtain ⟨a', hfold, ha'⟩ := foldlM_insert n indices h hbound
  refine ⟨a', ?_, ha'.congr fun d m => ?_⟩
  · show Option.bind (postdominators n) _ = _
    rw [hindices]
    exact hfold
  · refine or_congr_right (and_congr_right fun hm => ?_)
    subst hm
    constructor
    · rintro ⟨index, hindex, hd⟩
      exact ⟨List.mem_of_getElem? hd, (hlisted.exact index d hd).mp hindex⟩
    · rintro ⟨hd, hdominates⟩
      obtain ⟨index, hindex⟩ := List.mem_iff_getElem?.mp hd
      exact ⟨index, (hlisted.exact index d hindex).mpr hdominates, hindex⟩

theorem foldlM_collectNode (hswept : Swept f order order postdominators) (ns : List ℕ) :
    ∀ {a : Maps} {R : ℕ → ℕ → Prop}, a.Holds R → (∀ n ∈ ns, n ∈ order) →
      ∃ a', ns.foldlM (collectNode order postdominators) a = some a' ∧
        a'.Holds fun d m => R d m ∨ m ∈ ns ∧ d ∈ order ∧ NodePostDominates f d m := by
  induction ns with
  | nil =>
    intro a R h _
    exact ⟨a, rfl, h.congr fun d m => by simp⟩
  | cons n ns ih =>
    intro a R h hns
    obtain ⟨next, hstep, hnext⟩ := collectNode_spec h hswept (hns n (List.mem_cons_self ..))
    obtain ⟨a', hfold, ha'⟩ := ih hnext fun m hm => hns m (List.mem_cons_of_mem n hm)
    refine ⟨a', ?_, ha'.congr fun d m => ?_⟩
    · rw [List.foldlM_cons, hstep]
      exact hfold
    · rw [or_assoc, ← or_and_right, ← List.mem_cons]

/-- For a function without cycles the analysis lists `d` with `n` exactly when `d` is on every path
from `n` to an exit, and the two maps are converses of each other. -/
theorem run_exact (f : FunctionBase) (users : Users f) (returnValue : Option ℕ) (nodeId : ℕ → ℤ)
    (hclosed : ∀ u n, Uses f u n → n < f.nodes.length)
    (hacyclic : ∀ n, ¬ Relation.TransGen (Uses f) n n) :
    ∃ a, run f users returnValue = some a ∧ (∀ d < f.nodes.length, ∀ n < f.nodes.length,
        d ∈ a.getPostDominatorsOfNode nodeId n ↔ NodePostDominates f d n) ∧
      ∀ d n, n ∈ a.getNodesPostDominatedByNode nodeId d ↔
        d ∈ a.getPostDominatorsOfNode nodeId n := by
  obtain ⟨order, hsort, hperm, hordered⟩ :=
    NodeIterator.reverseTopoSort_spec users returnValue hclosed hacyclic
  have hmem : ∀ n, n ∈ order ↔ n < f.nodes.length := fun n =>
    hperm.mem_iff.trans List.mem_range
  have hstart : Swept f order [] fun _ => none := fun n hn => absurd hn List.not_mem_nil
  obtain ⟨postdominators, hsweep, hswept⟩ : ∃ postdominators,
      (order.zipIdx 0).foldlM (sweepStep f users) (fun _ => none) = some postdominators ∧
        Swept f order order postdominators := foldlM_sweepStep
    (hperm.nodup_iff.mpr List.nodup_range) hordered order (List.nil_append order).symm hstart
  have hempty : Maps.Holds ⟨fun _ => ∅, fun _ => ∅⟩ fun _ _ => False :=
    ⟨fun d n => iff_of_false (Finset.notMem_empty d) id,
      fun d n => iff_of_false (Finset.notMem_empty n) id⟩
  obtain ⟨a, hcollect, ha⟩ := foldlM_collectNode hswept (List.range f.nodes.length) hempty
    fun n hn => (hmem n).mpr (List.mem_range.mp hn)
  refine ⟨a, ?_, fun d hd n hn => ?_, fun d n => ?_⟩
  · show Option.bind (NodeIterator.reverseTopoSort users returnValue) _ = _
    rw [hsort]
    show Option.bind (order.zipIdx.foldlM (sweepStep f users) fun _ => none) _ = _
    rw [hsweep]
    exact hcollect
  · rw [Maps.getPostDominatorsOfNode, mem_sortByNodeId, ha.dominated, or_iff_right id,
      List.mem_range, hmem]
    exact ⟨fun h => h.2.2, fun h => ⟨hn, hd, h⟩⟩
  · rw [Maps.getPostDominatorsOfNode, Maps.getNodesPostDominatedByNode, mem_sortByNodeId,
      mem_sortByNodeId, ha.dominated, ha.postDominator]

/-- A node whose two users meet again in a third one. -/
def diamond : FunctionBase where
  nodes := [⟨.literal (.bits (Bits.ofNat 8 1)), [], .bits 8⟩, ⟨.neg, [0], .bits 8⟩,
    ⟨.identity, [0], .bits 8⟩,
    ⟨.add, [1, 2], .bits 8⟩]
  implicitUses := [3]

theorem run_exact_diamond : ∃ a, run diamond (Users.ofFunction diamond) (some 3) = some a ∧
    (∀ d < diamond.nodes.length, ∀ n < diamond.nodes.length,
      d ∈ a.getPostDominatorsOfNode (fun n => n + 1) n ↔ NodePostDominates diamond d n) ∧
    ∀ d n, n ∈ a.getNodesPostDominatedByNode (fun n => n + 1) d ↔
      d ∈ a.getPostDominatorsOfNode (fun n => n + 1) n := by
  have hf : Verifier.verify diamond = true := by decide
  have hlt : ∀ {u n}, Uses diamond u n → n < u := lt_of_uses hf
  refine run_exact diamond (Users.ofFunction diamond) (some 3) (fun n => n + 1) ?_ ?_
  · rintro u n h
    have hu : u < diamond.nodes.length := by
      obtain ⟨node, hnode, -⟩ := h
      exact (List.getElem?_eq_some_iff.mp hnode).1
    exact (hlt h).trans hu
  · intro n h
    have hacross : ∀ {u n}, Relation.TransGen (Uses diamond) u n → n < u := by
      intro u n h
      induction h with
      | single h => exact hlt h
      | tail _ h ih => exact (hlt h).trans ih
    exact Nat.lt_irrefl n (hacross h)

end PostDominatorAnalysis

end Xls
