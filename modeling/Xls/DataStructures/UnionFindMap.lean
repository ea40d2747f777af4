/-
# Union-find maps

`UnionFindMap` (`xls/data_structures/union_find_map.h`): a map from keys to values in
which keys can be made equivalent.  Keys have an index in the order of their insertion;
the classes are a forest on the indices, with path halving in `FindRoot` and union by
size in `Union`.

`Classes` is the abstract view: the representative of each key, and the size and the
value of each class.  The operations refine those of the view, and `FindRoot` does not
change it.  `none` is an `at` out of range.
-/
import Xls.Lib.Forest
import Mathlib.Data.Finset.Card
import Mathlib.Data.List.GetD
import Mathlib.Data.Nat.Basic
import Mathlib.Data.Finset.Range
import Mathlib.Tactic.Common

namespace Xls

/-- `UnionFindMap::Node`. -/
structure UnionFindNode where
  parent : ℕ
  size : ℕ
  deriving DecidableEq, Repr

/-- `UnionFindMap`. -/
structure UnionFindMap (K V : Type) where
  keyToIndex : K → Option ℕ
  keys : List K
  values : List V
  nodes : List UnionFindNode

namespace UnionFindMap

variable {K V : Type}

/-- The map of the default constructor. -/
def empty : UnionFindMap K V := ⟨fun _ => none, [], [], []⟩

/-- `Contains`. -/
def contains (m : UnionFindMap K V) (key : K) : Bool := (m.keyToIndex key).isSome

/-- The loop of `FindRoot`. -/
def findRootLoop : ℕ → List UnionFindNode → ℕ → Option (ℕ × List UnionFindNode)
  | 0, _, _ => none
  | fuel + 1, nodes, x =>
    match nodes[x]? with
    | none => none
    | some node =>
      match nodes[node.parent]? with
      | none => none
      | some parentNode =>
        if node.parent = x then some (x, nodes)
        else findRootLoop fuel (nodes.set x { node with parent := parentNode.parent })
          parentNode.parent

/-- `FindRoot`. -/
def findRoot (m : UnionFindMap K V) (index : ℕ) : Option (ℕ × UnionFindMap K V) :=
  match findRootLoop (m.nodes.length + 1) m.nodes index with
  | some (root, nodes) => some (root, { m with nodes := nodes })
  | none => none

/-- What `Find` returns: the representative and a reference to the value, which is given
with its index. -/
structure Found (K V : Type) where
  key : K
  value : V
  index : ℕ

/-- `Find`. -/
def find (m : UnionFindMap K V) (key : K) : Option (Option (Found K V) × UnionFindMap K V) :=
  match m.keyToIndex key with
  | none => some (none, m)
  | some index =>
    match m.findRoot index with
    | none => none
    | some (found, m) =>
      match m.keys[found]?, m.values[found]? with
      | some key, some value => some (some ⟨key, value, found⟩, m)
      | _, _ => none

/-- An assignment through the reference which `Find` returns. -/
def assign (m : UnionFindMap K V) (index : ℕ) (value : V) : UnionFindMap K V :=
  { m with values := m.values.set index value }

/-- `Union`. -/
def union (m : UnionFindMap K V) (x y : K) (merge : V → V → V) :
    Option (Bool × UnionFindMap K V) :=
  match m.keyToIndex x, m.keyToIndex y with
  | some xIndex, some yIndex =>
    match m.findRoot xIndex with
    | none => none
    | some (xRoot, m) =>
      match m.findRoot yIndex with
      | none => none
      | some (yRoot, m) =>
        if xRoot = yRoot then some (true, m)
        else
          match m.nodes[xRoot]?, m.nodes[yRoot]? with
          | some xNode, some yNode =>
            let larger := if xNode.size < yNode.size then yRoot else xRoot
            let smaller := if xNode.size < yNode.size then xRoot else yRoot
            match m.values[larger]?, m.values[smaller]?, m.nodes[smaller]? with
            | some a, some b, some node =>
              let value := merge a b
              let nodes := m.nodes.set smaller { node with parent := larger }
              match nodes[larger]? with
              | some node =>
                some (true,
                  { m with
                    values := (m.values.set larger value).set smaller value
                    nodes := nodes.set larger { node with size := xNode.size + yNode.size } })
              | none => none
            | _, _, _ => none
          | _, _ => none
  | _, _ => some (false, m)

section Insert

variable [DecidableEq K]

/-- `Insert` with a merge function. -/
def insertWith (m : UnionFindMap K V) (key : K) (value : V) (merge : V → V → V) :
    Option (UnionFindMap K V) :=
  match m.keyToIndex key with
  | some index =>
    match m.findRoot index with
    | none => none
    | some (index, m) =>
      match m.values[index]? with
      | some old => some (m.assign index (merge old value))
      | none => none
  | none =>
    let index := m.nodes.length
    some
      { keyToIndex := Function.update m.keyToIndex key (some index)
        keys := m.keys ++ [key]
        values := m.values ++ [value]
        nodes := m.nodes ++ [⟨index, 1⟩] }

/-- `Insert`: the new value replaces the old. -/
def insert (m : UnionFindMap K V) (key : K) (value : V) : Option (UnionFindMap K V) :=
  m.insertWith key value fun _ new => new

end Insert

/-! ## The forest of the nodes -/

/-- The parent of an index. -/
def link (nodes : List UnionFindNode) (i : ℕ) : ℕ := (nodes[i]?.map UnionFindNode.parent).getD i

/-- The size at an index. -/
def sizeAt (nodes : List UnionFindNode) (i : ℕ) : ℕ := (nodes[i]?.map UnionFindNode.size).getD 0

/-- The nodes are a forest in which the sizes grow towards the roots. -/
structure NodesWf (nodes : List UnionFindNode) : Prop where
  link_lt : ∀ i < nodes.length, link nodes i < nodes.length
  rising : Forest.Rising (link nodes) (sizeAt nodes)
  size_pos : ∀ i < nodes.length, 0 < sizeAt nodes i

/-- The nodes have the same sizes and roots. -/
structure SameRoots (nodes nodes' : List UnionFindNode) : Prop where
  wf : NodesWf nodes'
  length_eq : nodes'.length = nodes.length
  sizeAt_eq : sizeAt nodes' = sizeAt nodes
  root_iff : ∀ {i r}, Forest.Root (link nodes') i r ↔ Forest.Root (link nodes) i r

theorem SameRoots.refl {nodes : List UnionFindNode} (h : NodesWf nodes) : SameRoots nodes nodes :=
  ⟨h, rfl, rfl, Iff.rfl⟩

theorem SameRoots.trans {nodes nodes' nodes'' : List UnionFindNode} (h : SameRoots nodes nodes')
    (h' : SameRoots nodes' nodes'') : SameRoots nodes nodes'' :=
  ⟨h'.wf, h'.length_eq.trans h.length_eq, h'.sizeAt_eq.trans h.sizeAt_eq,
    h'.root_iff.trans h.root_iff⟩

section Nodes

variable {nodes : List UnionFindNode} {i : ℕ} {node : UnionFindNode}

theorem link_of_getElem? (h : nodes[i]? = some node) : link nodes i = node.parent := by
  simp [link, h]

theorem sizeAt_of_getElem? (h : nodes[i]? = some node) : sizeAt nodes i = node.size := by
  simp [sizeAt, h]

theorem link_set (hi : i < nodes.length) :
    link (nodes.set i node) = Function.update (link nodes) i node.parent := by
  funext j
  by_cases hj : j = i
  · subst hj
    simp [link, hi]
  · rw [Function.update_of_ne hj]
    simp [link, List.getElem?_set_ne (Ne.symm hj)]

theorem sizeAt_set (hi : i < nodes.length) :
    sizeAt (nodes.set i node) = Function.update (sizeAt nodes) i node.size := by
  funext j
  by_cases hj : j = i
  · subst hj
    simp [sizeAt, hi]
  · rw [Function.update_of_ne hj]
    simp [sizeAt, List.getElem?_set_ne (Ne.symm hj)]

/-- One round of `FindRoot` halves a path. -/
theorem NodesWf.sameRoots_halve (h : NodesWf nodes) {parentNode : UnionFindNode}
    (hnode : nodes[i]? = some node) (hparent : nodes[node.parent]? = some parentNode) :
    SameRoots nodes (nodes.set i { node with parent := parentNode.parent }) := by
  have hi : i < nodes.length := (List.getElem?_eq_some_iff.mp hnode).1
  have hlink : link (nodes.set i { node with parent := parentNode.parent }) =
      Forest.halve (link nodes) i := by
    rw [link_set hi, Forest.halve, link_of_getElem? hnode, link_of_getElem? hparent]
  have hsize : sizeAt (nodes.set i { node with parent := parentNode.parent }) = sizeAt nodes := by
    rw [sizeAt_set hi, ← sizeAt_of_getElem? hnode, Function.update_eq_self]
  refine ⟨⟨?_, ?_, ?_⟩, List.length_set, hsize, ?_⟩
  · intro j hj
    rw [List.length_set] at hj ⊢
    rw [hlink, Forest.halve]
    by_cases hji : j = i
    · subst hji
      rw [Function.update_self]
      exact h.link_lt _ (h.link_lt j hj)
    · rw [Function.update_of_ne hji]
      exact h.link_lt j hj
  · rw [hlink, hsize]
    exact h.rising.halve i
  · intro j hj
    rw [List.length_set] at hj
    rw [hsize]
    exact h.size_pos j hj
  · intro j r
    rw [hlink]
    exact Forest.root_halve_iff h.rising

/-- An index in range has its root in range. -/
theorem NodesWf.root_lt (h : NodesWf nodes) {r : ℕ} (hr : Forest.Root (link nodes) i r)
    (hi : i < nodes.length) : r < nodes.length := by
  induction hr with
  | self _ => exact hi
  | step _ ih => exact ih (h.link_lt _ hi)

/-- A new root does not change the links. -/
theorem link_append : link (nodes ++ [⟨nodes.length, 1⟩]) = link nodes := by
  funext j
  rcases lt_trichotomy j nodes.length with hj | rfl | hj
  · simp [link, List.getElem?_append_left hj]
  · simp [link]
  · have hlen : (nodes ++ [UnionFindNode.mk nodes.length 1]).length ≤ j := by
      rw [List.length_append]
      exact hj
    simp only [link, List.getElem?_eq_none hlen, List.getElem?_eq_none hj.le]

theorem sizeAt_append :
    sizeAt (nodes ++ [⟨nodes.length, 1⟩]) = Function.update (sizeAt nodes) nodes.length 1 := by
  funext j
  rcases lt_trichotomy j nodes.length with hj | rfl | hj
  · rw [Function.update_of_ne hj.ne]
    simp [sizeAt, List.getElem?_append_left hj]
  · simp [sizeAt]
  · have hlen : (nodes ++ [UnionFindNode.mk nodes.length 1]).length ≤ j := by
      rw [List.length_append]
      exact hj
    rw [Function.update_of_ne hj.ne']
    simp only [sizeAt, List.getElem?_eq_none hlen, List.getElem?_eq_none hj.le]

theorem link_length : link nodes nodes.length = nodes.length := by
  simp [link]

theorem NodesWf.append (h : NodesWf nodes) : NodesWf (nodes ++ [⟨nodes.length, 1⟩]) := by
  have hlength : (nodes ++ [UnionFindNode.mk nodes.length 1]).length = nodes.length + 1 := by simp
  refine ⟨?_, ?_, ?_⟩
  · intro j hj
    rw [hlength] at hj ⊢
    rw [link_append]
    rcases Nat.lt_succ_iff_lt_or_eq.mp hj with hj | rfl
    · exact (h.link_lt j hj).trans (Nat.lt_succ_self _)
    · rw [link_length]
      exact Nat.lt_succ_self _
  · intro j hj
    rw [link_append] at hj ⊢
    have hne : j ≠ nodes.length := by
      rintro rfl
      exact hj link_length
    have hrank := h.rising j hj
    rw [sizeAt_append, Function.update_of_ne hne]
    by_cases hp : link nodes j = nodes.length
    · -- a link leads into the range
      by_cases hrange : j < nodes.length
      · exact absurd (h.link_lt j hrange) (by omega)
      · exact absurd (by simp [link, List.getElem?_eq_none (not_lt.mp hrange)]) hj
    · rw [Function.update_of_ne hp]
      exact hrank
  · intro j hj
    rw [hlength] at hj
    rw [sizeAt_append]
    rcases Nat.lt_succ_iff_lt_or_eq.mp hj with hj | rfl
    · rw [Function.update_of_ne hj.ne]
      exact h.size_pos j hj
    · rw [Function.update_self]
      exact Nat.one_pos

/-- Linking the smaller root to the larger one. -/
theorem NodesWf.link (h : NodesWf nodes) {larger smaller : ℕ} {node' : UnionFindNode}
    (hlarger : nodes[larger]? = some node) (hsmaller : nodes[smaller]? = some node')
    (hl : UnionFindMap.link nodes larger = larger) (hne : larger ≠ smaller)
    {nodes' : List UnionFindNode}
    (hlink : UnionFindMap.link nodes' = Function.update (UnionFindMap.link nodes) smaller larger)
    (hsize : sizeAt nodes' =
      Function.update (sizeAt nodes) larger (sizeAt nodes larger + sizeAt nodes smaller))
    (hlength : nodes'.length = nodes.length) : NodesWf nodes' := by
  have hlargerLt := (List.getElem?_eq_some_iff.mp hlarger).1
  have hpos := h.size_pos larger hlargerLt
  have hgrow : ∀ j, sizeAt nodes j ≤ sizeAt nodes' j := by
    intro j
    rw [hsize]
    by_cases hj : j = larger
    · subst hj
      rw [Function.update_self]
      exact Nat.le_add_right ..
    · rw [Function.update_of_ne hj]
  refine ⟨?_, ?_, ?_⟩
  · intro j hj
    rw [hlength] at hj ⊢
    rw [hlink]
    by_cases hjs : j = smaller
    · subst hjs
      rw [Function.update_self]
      exact hlargerLt
    · rw [Function.update_of_ne hjs]
      exact h.link_lt j hj
  · intro j hj
    rw [hlink] at hj ⊢
    by_cases hjs : j = smaller
    · subst hjs
      rw [Function.update_self, hsize, Function.update_self, Function.update_of_ne (Ne.symm hne)]
      omega
    · rw [Function.update_of_ne hjs] at hj ⊢
      have hjl : j ≠ larger := by
        rintro rfl
        exact hj hl
      have hold : sizeAt nodes' j = sizeAt nodes j := by
        rw [hsize, Function.update_of_ne hjl]
      rw [hold]
      exact (h.rising j hj).trans_le (hgrow _)
  · intro j hj
    rw [hlength] at hj
    exact (h.size_pos j hj).trans_le (hgrow j)

/-- The indices above which the loop of `FindRoot` still has to climb. -/
def above (nodes : List UnionFindNode) (x : ℕ) : Finset ℕ :=
  (Finset.range nodes.length).filter fun i => sizeAt nodes x < sizeAt nodes i

/-- `FindRoot` ends at the root and keeps the roots. -/
theorem findRootLoop_spec {fuel x : ℕ} (h : NodesWf nodes) (hx : x < nodes.length)
    (hfuel : (above nodes x).card < fuel) :
    ∃ r nodes', findRootLoop fuel nodes x = some (r, nodes') ∧ Forest.Root (link nodes) x r ∧
      SameRoots nodes nodes' := by
  induction fuel generalizing nodes x with
  | zero => omega
  | succ fuel ih =>
    obtain ⟨node, hnode⟩ : ∃ node, nodes[x]? = some node := ⟨_, List.getElem?_eq_getElem hx⟩
    have hlink := link_of_getElem? hnode
    have hp : node.parent < nodes.length := by
      rw [← hlink]
      exact h.link_lt x hx
    obtain ⟨parentNode, hparent⟩ : ∃ parentNode, nodes[node.parent]? = some parentNode :=
      ⟨_, List.getElem?_eq_getElem hp⟩
    rw [findRootLoop]
    simp only [hnode, hparent]
    by_cases hroot : node.parent = x
    · simp only [hroot]
      exact ⟨x, nodes, rfl, .self (by rw [hlink, hroot]), .refl h⟩
    · simp only [hroot]
      have hsame := h.sameRoots_halve hnode hparent
      have hpp := link_of_getElem? hparent
      -- the grandparent is larger than the start
      have hlt : sizeAt nodes x < sizeAt nodes parentNode.parent := by
        have hfirst := h.rising x (by rw [hlink]; exact hroot)
        rw [hlink] at hfirst
        by_cases htop : parentNode.parent = node.parent
        · rw [htop]
          exact hfirst
        · have hsecond := h.rising node.parent (by rw [hpp]; exact htop)
          rw [hpp] at hsecond
          exact hfirst.trans hsecond
      have hrange : parentNode.parent < nodes.length := by
        rw [← hpp]
        exact h.link_lt _ hp
      have hfewer : above (nodes.set x { node with parent := parentNode.parent })
          parentNode.parent ⊂ above nodes x := by
        rw [Finset.ssubset_iff_of_subset]
        · refine ⟨parentNode.parent, ?_, ?_⟩
          · simp [above, hrange, hlt]
          · simp [above]
        · intro i hi
          simp only [above, Finset.mem_filter, List.length_set, hsame.sizeAt_eq] at hi ⊢
          exact ⟨hi.1, hlt.trans hi.2⟩
      have hcard := Finset.card_lt_card hfewer
      obtain ⟨r, nodes', hloop, hr, hsame'⟩ := ih hsame.wf (by simpa using hrange) (by omega)
      refine ⟨r, nodes', hloop, ?_, hsame.trans hsame'⟩
      rw [hsame.root_iff, ← hpp, ← hlink, Forest.root_parent_iff, Forest.root_parent_iff] at hr
      exact hr

end Nodes

end UnionFindMap

/-! ## The classes -/

/-- The classes of a union-find map: the representative of each key which was inserted, and
the size and the value of the class of each representative. -/
structure Classes (K V : Type) where
  rep : K → Option K
  size : K → ℕ
  value : K → Option V

namespace Classes

variable {K V : Type} [DecidableEq K]

/-- A new class of one key. -/
def single (c : Classes K V) (key : K) (value : V) : Classes K V where
  rep := Function.update c.rep key (some key)
  size := Function.update c.size key 1
  value := Function.update c.value key (some value)

/-- A new value for the class of a representative. -/
def setValue (c : Classes K V) (r : K) (value : V) : Classes K V :=
  { c with value := Function.update c.value r (some value) }

/-- The representative which stays when two classes are united: the first, unless its class
is smaller. -/
def kept (c : Classes K V) (rx ry : K) : K := if c.size rx < c.size ry then ry else rx

/-- The other representative. -/
def lost (c : Classes K V) (rx ry : K) : K := if c.size rx < c.size ry then rx else ry

/-- The classes of `kept` and `lost` become one. -/
def unite (c : Classes K V) (kept lost : K) (value : V) : Classes K V where
  rep k := if c.rep k = some lost then some kept else c.rep k
  size := Function.update c.size kept (c.size kept + c.size lost)
  value := Function.update c.value kept (some value)

end Classes

namespace UnionFindMap

variable {K V : Type}

/-- The map has the given classes. -/
structure Represents (m : UnionFindMap K V) (c : Classes K V) : Prop where
  values_length : m.values.length = m.keys.length
  nodes_length : m.nodes.length = m.keys.length
  index_iff : ∀ {k i}, m.keyToIndex k = some i ↔ m.keys[i]? = some k
  wf : NodesWf m.nodes
  rep_none : ∀ {k}, m.keyToIndex k = none → c.rep k = none
  rep_some : ∀ {i r k}, m.keys[i]? = some k → Forest.Root (link m.nodes) i r →
    c.rep k = m.keys[r]?
  size_eq : ∀ {r k}, m.keys[r]? = some k → link m.nodes r = r → c.size k = sizeAt m.nodes r
  value_eq : ∀ {r k}, m.keys[r]? = some k → link m.nodes r = r → c.value k = m.values[r]?

/-- The index at which the class of `r` keeps its value. -/
def IsRootOf (m : UnionFindMap K V) (r : K) (i : ℕ) : Prop :=
  m.keys[i]? = some r ∧ link m.nodes i = i

namespace Represents

variable {m : UnionFindMap K V} {c : Classes K V}

theorem empty : Represents (UnionFindMap.empty : UnionFindMap K V)
    ⟨fun _ => none, fun _ => 0, fun _ => none⟩ where
  values_length := rfl
  nodes_length := rfl
  index_iff := by simp [UnionFindMap.empty]
  wf := by
    refine ⟨fun i hi => absurd hi (Nat.not_lt_zero i), ?_, fun i hi => absurd hi (Nat.not_lt_zero i)⟩
    intro x hx
    exact absurd rfl hx
  rep_none _ := rfl
  rep_some h := by simp [UnionFindMap.empty] at h
  size_eq h := by simp [UnionFindMap.empty] at h
  value_eq h := by simp [UnionFindMap.empty] at h

variable {k r : K}

section

variable (h : Represents m c)

include h

theorem index_unique {i j : ℕ} (hi : m.keys[i]? = some k) (hj : m.keys[j]? = some k) : i = j := by
  have hi := h.index_iff.mpr hi
  rw [h.index_iff.mpr hj] at hi
  exact (Option.some.inj hi).symm

/-- The classes do not depend on the paths to the roots. -/
theorem sameRoots {nodes : List UnionFindNode}
    (hsame : SameRoots m.nodes nodes) : Represents { m with nodes := nodes } c := by
  have hroot : ∀ {r}, link nodes r = r → link m.nodes r = r := by
    intro r hr
    exact (hsame.root_iff.mp (.self hr)).parent_eq
  exact
    { values_length := h.values_length
      nodes_length := hsame.length_eq.trans h.nodes_length
      index_iff := h.index_iff
      wf := hsame.wf
      rep_none := h.rep_none
      rep_some := fun hk hr => h.rep_some hk (hsame.root_iff.mp hr)
      size_eq := fun hk hr => (h.size_eq hk (hroot hr)).trans (by rw [hsame.sizeAt_eq])
      value_eq := fun hk hr => h.value_eq hk (hroot hr) }

/-- `FindRoot` finds the index of the representative. -/
theorem findRoot {i : ℕ} (hi : m.keys[i]? = some k) :
    ∃ r root m', m.findRoot i = some (root, m') ∧ c.rep k = some r ∧ Represents m' c ∧
      m'.keys = m.keys ∧ m'.values = m.values ∧ m'.keyToIndex = m.keyToIndex ∧
      SameRoots m.nodes m'.nodes ∧ IsRootOf m' r root := by
  have hlt : i < m.nodes.length := by
    rw [h.nodes_length]
    exact (List.getElem?_eq_some_iff.mp hi).1
  have hcard : (above m.nodes i).card < m.nodes.length + 1 := by
    have hle := Finset.card_filter_le (Finset.range m.nodes.length)
      fun j => sizeAt m.nodes i < sizeAt m.nodes j
    rw [Finset.card_range] at hle
    exact Nat.lt_succ_of_le hle
  obtain ⟨root, nodes, hloop, hroot, hsame⟩ := findRootLoop_spec h.wf hlt hcard
  have hlink : link nodes root = root :=
    (hsame.root_iff.mpr (.self hroot.parent_eq)).parent_eq
  have hrange : root < m.keys.length := by
    rw [← h.nodes_length]
    exact h.wf.root_lt hroot hlt
  obtain ⟨r, hr⟩ : ∃ r, m.keys[root]? = some r := ⟨_, List.getElem?_eq_getElem hrange⟩
  refine ⟨r, root, { m with nodes := nodes }, ?_, ?_, h.sameRoots hsame, rfl, rfl, rfl, hsame, hr,
    hlink⟩
  · simp [UnionFindMap.findRoot, hloop]
  · rw [h.rep_some hi hroot, hr]

theorem contains_iff : m.contains k = true ↔ ∃ r, c.rep k = some r := by
  unfold contains
  rcases hk : m.keyToIndex k with _ | i
  · simp [h.rep_none hk]
  · obtain ⟨r, -, -, -, hr, -⟩ := h.findRoot (h.index_iff.mp hk)
    simp [hr]

theorem keyToIndex_of_rep (hr : c.rep k = some r) : ∃ i, m.keyToIndex k = some i := by
  have := h.contains_iff.mpr ⟨r, hr⟩
  exact Option.isSome_iff_exists.mp this

theorem value_of_isRootOf {i : ℕ} (hi : IsRootOf m r i) :
    ∃ v, m.values[i]? = some v ∧ c.value r = some v := by
  have hlt : i < m.values.length := by
    rw [h.values_length]
    exact (List.getElem?_eq_some_iff.mp hi.1).1
  refine ⟨m.values[i], List.getElem?_eq_getElem hlt, ?_⟩
  rw [h.value_eq hi.1 hi.2, List.getElem?_eq_getElem hlt]

theorem rep_rep (hr : c.rep k = some r) : c.rep r = some r := by
  obtain ⟨i, hi⟩ := h.keyToIndex_of_rep hr
  obtain ⟨r', root, m', -, hr', h', -, -, -, -, hroot⟩ := h.findRoot (h.index_iff.mp hi)
  obtain rfl : r' = r := Option.some.inj (hr'.symm.trans hr)
  rw [h'.rep_some hroot.1 (.self hroot.2), hroot.1]

/-- `Find` returns the representative and the value of its class, and a reference to it. -/
theorem find (hr : c.rep k = some r) :
    ∃ v i m', m.find k = some (some ⟨r, v, i⟩, m') ∧ c.value r = some v ∧ Represents m' c ∧
      IsRootOf m' r i := by
  obtain ⟨index, hindex⟩ := h.keyToIndex_of_rep hr
  obtain ⟨r', i, m', hfind, hr', h', -, -, -, -, hroot⟩ := h.findRoot (h.index_iff.mp hindex)
  obtain rfl : r' = r := Option.some.inj (hr'.symm.trans hr)
  obtain ⟨v, hv, hvalue⟩ := h'.value_of_isRootOf hroot
  refine ⟨v, i, m', ?_, hvalue, h', hroot⟩
  simp [UnionFindMap.find, hindex, hfind, hroot.1, hv]

theorem find_none (hr : c.rep k = none) : m.find k = some (none, m) := by
  rcases hk : m.keyToIndex k with _ | i
  · simp [UnionFindMap.find, hk]
  · obtain ⟨r, -, -, -, hr', -⟩ := h.findRoot (h.index_iff.mp hk)
    rw [hr] at hr'
    cases hr'

end

variable [DecidableEq K]

/-- An assignment through a reference sets the value of the class. -/
theorem assign (h : Represents m c) {i : ℕ} (hi : IsRootOf m r i) (v : V) :
    Represents (m.assign i v) (c.setValue r v) := by
  have hlt : i < m.values.length := by
    rw [h.values_length]
    exact (List.getElem?_eq_some_iff.mp hi.1).1
  exact
    { values_length := by
        rw [UnionFindMap.assign, List.length_set]
        exact h.values_length
      nodes_length := h.nodes_length
      index_iff := h.index_iff
      wf := h.wf
      rep_none := h.rep_none
      rep_some := h.rep_some
      size_eq := h.size_eq
      value_eq := by
        intro j k hk hj
        show Function.update c.value r (some v) k = (m.values.set i v)[j]?
        by_cases hjr : j = i
        · subst hjr
          obtain rfl : r = k := Option.some.inj (hi.1.symm.trans hk)
          rw [Function.update_self, List.getElem?_set_self hlt]
        · have hkr : k ≠ r := by
            rintro rfl
            exact hjr (h.index_unique hk hi.1)
          rw [Function.update_of_ne hkr, List.getElem?_set_ne (Ne.symm hjr)]
          exact h.value_eq hk hj }

/-- `Insert` of a key which is there. -/
theorem insertWith_of_rep (h : Represents m c) (hr : c.rep k = some r) {old v : V}
    (hold : c.value r = some old) (merge : V → V → V) :
    ∃ m', m.insertWith k v merge = some m' ∧ Represents m' (c.setValue r (merge old v)) := by
  obtain ⟨index, hindex⟩ := h.keyToIndex_of_rep hr
  obtain ⟨r', i, m', hfind, hr', h', -, -, -, -, hroot⟩ := h.findRoot (h.index_iff.mp hindex)
  obtain rfl : r' = r := Option.some.inj (hr'.symm.trans hr)
  obtain ⟨value, hvalue, hvalue'⟩ := h'.value_of_isRootOf hroot
  obtain rfl : value = old := Option.some.inj (hvalue'.symm.trans hold)
  refine ⟨m'.assign i (merge value v), ?_, h'.assign hroot _⟩
  simp [insertWith, hindex, hfind, hvalue]

/-- `Insert` of a new key. -/
theorem insertWith_of_none (h : Represents m c) (hr : c.rep k = none) (v : V) (merge : V → V → V) :
    ∃ m', m.insertWith k v merge = some m' ∧ Represents m' (c.single k v) := by
  have hindex : m.keyToIndex k = none := by
    rcases hk : m.keyToIndex k with _ | i
    · rfl
    · obtain ⟨r, -, -, -, hr', -⟩ := h.findRoot (h.index_iff.mp hk)
      rw [hr] at hr'
      cases hr'
  have hnew : ∀ {i : ℕ}, m.keys[i]? ≠ some k := by
    intro i hi
    rw [h.index_iff.mpr hi] at hindex
    cases hindex
  have hold : ∀ {i : ℕ} {k' : K}, m.keys[i]? = some k' → i < m.keys.length ∧ k' ≠ k := by
    intro i k' hi
    refine ⟨(List.getElem?_eq_some_iff.mp hi).1, ?_⟩
    rintro rfl
    exact hnew hi
  -- a key of the new map is an old one or the new one
  have hkeys : ∀ {i : ℕ} {k' : K}, (m.keys ++ [k])[i]? = some k' →
      m.keys[i]? = some k' ∨ i = m.nodes.length ∧ k' = k := by
    intro i k' hi
    rcases lt_trichotomy i m.keys.length with hlt | heq | hgt
    · rw [List.getElem?_append_left hlt] at hi
      exact .inl hi
    · subst heq
      rw [List.getElem?_append_right le_rfl] at hi
      simp only [Nat.sub_self] at hi
      cases hi
      exact .inr ⟨h.nodes_length.symm, rfl⟩
    · rw [List.getElem?_eq_none (by rw [List.length_append]; exact hgt)] at hi
      cases hi
  have hlast : (m.keys ++ [k])[m.nodes.length]? = some k := by
    rw [h.nodes_length]
    simp
  refine ⟨_, by rw [insertWith, hindex], ?_⟩
  exact
    { values_length := by simp [h.values_length]
      nodes_length := by simp [h.nodes_length]
      index_iff := by
        intro k' i
        show Function.update m.keyToIndex k (some m.nodes.length) k' = some i ↔
          (m.keys ++ [k])[i]? = some k'
        by_cases hk : k' = k
        · subst hk
          rw [Function.update_self]
          constructor
          · rintro ⟨⟩
            exact hlast
          · intro hi
            rcases hkeys hi with hi | ⟨rfl, -⟩
            · exact absurd hi hnew
            · rfl
        · rw [Function.update_of_ne hk, h.index_iff]
          constructor
          · intro hi
            rw [List.getElem?_append_left (hold hi).1, hi]
          · intro hi
            rcases hkeys hi with hi | ⟨-, rfl⟩
            · exact hi
            · exact absurd rfl hk
      wf := h.wf.append
      rep_none := by
        intro k' hk'
        have hk' : Function.update m.keyToIndex k (some m.nodes.length) k' = none := hk'
        show Function.update c.rep k (some k) k' = none
        have hne : k' ≠ k := by
          rintro rfl
          rw [Function.update_self] at hk'
          cases hk'
        rw [Function.update_of_ne hne] at hk' ⊢
        exact h.rep_none hk'
      rep_some := by
        intro i r k' hi hnodes
        have hroot : Forest.Root (link m.nodes) i r := by
          rw [← link_append]
          exact hnodes
        show Function.update c.rep k (some k) k' = (m.keys ++ [k])[r]?
        rcases hkeys hi with hi | ⟨rfl, rfl⟩
        · obtain ⟨hlt, hne⟩ := hold hi
          have hr : r < m.keys.length := by
            rw [← h.nodes_length] at hlt ⊢
            exact h.wf.root_lt hroot hlt
          rw [Function.update_of_ne hne, h.rep_some hi hroot, List.getElem?_append_left hr]
        · rw [Function.update_self, hroot.eq_of_parent_eq link_length, hlast]
      size_eq := by
        intro r k' hi hnodes
        have hroot : link m.nodes r = r := by
          rw [← link_append]
          exact hnodes
        show Function.update c.size k 1 k' = sizeAt (m.nodes ++ [⟨m.nodes.length, 1⟩]) r
        rw [sizeAt_append]
        rcases hkeys hi with hi | ⟨rfl, rfl⟩
        · obtain ⟨hlt, hne⟩ := hold hi
          rw [← h.nodes_length] at hlt
          rw [Function.update_of_ne hne, Function.update_of_ne hlt.ne, h.size_eq hi hroot]
        · rw [Function.update_self, Function.update_self]
      value_eq := by
        intro r k' hi hnodes
        have hroot : link m.nodes r = r := by
          rw [← link_append]
          exact hnodes
        show Function.update c.value k (some v) k' = (m.values ++ [v])[r]?
        rcases hkeys hi with hi | ⟨rfl, rfl⟩
        · obtain ⟨hlt, hne⟩ := hold hi
          rw [← h.values_length] at hlt
          rw [Function.update_of_ne hne, h.value_eq hi hroot, List.getElem?_append_left hlt]
        · rw [h.nodes_length, ← h.values_length]
          simp }

/-- Two roots are linked and their classes get one value. -/
theorem linkRoots (h : Represents m c) {w l : K} {larger smaller : ℕ} {node node' : UnionFindNode}
    (hw : IsRootOf m w larger) (hl : IsRootOf m l smaller) (hne : w ≠ l)
    (hlarger : m.nodes[larger]? = some node) (hsmaller : m.nodes[smaller]? = some node') (v : V) :
    Represents
      { m with
        values := (m.values.set larger v).set smaller v
        nodes := (m.nodes.set smaller { node' with parent := larger }).set larger
          { node with size := node.size + node'.size } }
      (c.unite w l v) := by
  have hindex : larger ≠ smaller := by
    rintro rfl
    exact hne (Option.some.inj (hw.1.symm.trans hl.1))
  have hlargerLt := (List.getElem?_eq_some_iff.mp hlarger).1
  have hsmallerLt := (List.getElem?_eq_some_iff.mp hsmaller).1
  have hvalueLt : larger < m.values.length := by
    rw [h.values_length, ← h.nodes_length]
    exact hlargerLt
  set nodes := (m.nodes.set smaller { node' with parent := larger }).set larger
    { node with size := node.size + node'.size } with hnodes
  have hlink : link nodes = Function.update (link m.nodes) smaller larger := by
    rw [link_set (by simpa using hlargerLt), link_set hsmallerLt]
    rw [show node.parent = Function.update (link m.nodes) smaller larger larger by
      rw [Function.update_of_ne hindex, link_of_getElem? hlarger]]
    rw [Function.update_eq_self]
  have hsize : sizeAt nodes = Function.update (sizeAt m.nodes) larger
      (sizeAt m.nodes larger + sizeAt m.nodes smaller) := by
    rw [sizeAt_set (by simpa using hlargerLt), sizeAt_set hsmallerLt, sizeAt_of_getElem? hlarger]
    rw [show node'.size = sizeAt m.nodes smaller from (sizeAt_of_getElem? hsmaller).symm,
      Function.update_eq_self]
  have hlength : nodes.length = m.nodes.length := by simp [hnodes]
  have hroot : ∀ {r}, link nodes r = r → r ≠ smaller ∧ link m.nodes r = r := by
    intro r hr
    rw [hlink] at hr
    have hrs : r ≠ smaller := by
      rintro rfl
      rw [Function.update_self] at hr
      exact hindex hr
    rw [Function.update_of_ne hrs] at hr
    exact ⟨hrs, hr⟩
  have hkey : ∀ {r k}, m.keys[r]? = some k → r ≠ larger → k ≠ w := by
    rintro r k hk hr rfl
    exact hr (h.index_unique hk hw.1)
  exact
    { values_length := by simpa using h.values_length
      nodes_length := hlength.trans h.nodes_length
      index_iff := h.index_iff
      wf := h.wf.link hlarger hsmaller hw.2 hindex hlink hsize hlength
      rep_none := by
        intro k hk
        have hnone := h.rep_none hk
        simp [Classes.unite, hnone]
      rep_some := by
        intro i r k hk hr
        have hcases : Forest.Root (link nodes) i r := hr
        rw [hlink, Forest.root_link_iff hw.2 hl.2 hindex] at hcases
        show (if c.rep k = some l then some w else c.rep k) = m.keys[r]?
        rcases hcases with ⟨hold, hrs⟩ | ⟨hold, rfl⟩
        · have hrep := h.rep_some hk hold
          have hnot : c.rep k ≠ some l := by
            rw [hrep]
            intro hrl
            exact hrs (h.index_unique hrl hl.1)
          rw [if_neg hnot, hrep]
        · have hrep := h.rep_some hk hold
          rw [hl.1] at hrep
          rw [if_pos hrep, hw.1]
      size_eq := by
        intro r k hk hr
        obtain ⟨-, hr⟩ := hroot hr
        show Function.update c.size w (c.size w + c.size l) k = sizeAt nodes r
        rw [hsize]
        by_cases hrl : r = larger
        · subst hrl
          obtain rfl : w = k := Option.some.inj (hw.1.symm.trans hk)
          rw [Function.update_self, Function.update_self, h.size_eq hw.1 hw.2, h.size_eq hl.1 hl.2]
        · rw [Function.update_of_ne (hkey hk hrl), Function.update_of_ne hrl, h.size_eq hk hr]
      value_eq := by
        intro r k hk hr
        obtain ⟨hrs, hr⟩ := hroot hr
        show Function.update c.value w (some v) k = ((m.values.set larger v).set smaller v)[r]?
        rw [List.getElem?_set_ne (Ne.symm hrs)]
        by_cases hrl : r = larger
        · subst hrl
          obtain rfl : w = k := Option.some.inj (hw.1.symm.trans hk)
          rw [Function.update_self, List.getElem?_set_self hvalueLt]
        · rw [Function.update_of_ne (hkey hk hrl), List.getElem?_set_ne (Ne.symm hrl)]
          exact h.value_eq hk hr }

/-- `Union` of two classes. -/
theorem union (h : Represents m c) {x y rx ry : K} (hx : c.rep x = some rx)
    (hy : c.rep y = some ry) (hne : rx ≠ ry) (merge : V → V → V) :
    ∃ a b m', c.value (c.kept rx ry) = some a ∧ c.value (c.lost rx ry) = some b ∧
      m.union x y merge = some (true, m') ∧
      Represents m' (c.unite (c.kept rx ry) (c.lost rx ry) (merge a b)) := by
  obtain ⟨xIndex, hxIndex⟩ := h.keyToIndex_of_rep hx
  obtain ⟨yIndex, hyIndex⟩ := h.keyToIndex_of_rep hy
  obtain ⟨r, xRoot, m₁, hfindX, hr, h₁, hkeys₁, -, hindex₁, -, hrootX⟩ :=
    h.findRoot (h.index_iff.mp hxIndex)
  obtain rfl : r = rx := Option.some.inj (hr.symm.trans hx)
  rw [← hindex₁] at hyIndex
  obtain ⟨r', yRoot, m₂, hfindY, hr', h₂, hkeys₂, -, -, hsame, hrootY⟩ :=
    h₁.findRoot (h₁.index_iff.mp hyIndex)
  obtain rfl : r' = ry := Option.some.inj (hr'.symm.trans hy)
  rw [hindex₁] at hyIndex
  -- the second search keeps the first root
  have hrootX : IsRootOf m₂ r xRoot := by
    refine ⟨by rw [hkeys₂, hrootX.1], ?_⟩
    exact (hsame.root_iff.mpr (.self hrootX.2)).parent_eq
  have hroots : xRoot ≠ yRoot := by
    rintro rfl
    exact hne (Option.some.inj (hrootX.1.symm.trans hrootY.1))
  have hnode : ∀ {k i}, IsRootOf m₂ k i → ∃ node v, m₂.nodes[i]? = some node ∧
      node.size = c.size k ∧ m₂.values[i]? = some v ∧ c.value k = some v := by
    intro k i hi
    have hlt : i < m₂.nodes.length := by
      rw [h₂.nodes_length]
      exact (List.getElem?_eq_some_iff.mp hi.1).1
    obtain ⟨v, hv, hvalue⟩ := h₂.value_of_isRootOf hi
    refine ⟨m₂.nodes[i], v, List.getElem?_eq_getElem hlt, ?_, hv, hvalue⟩
    rw [h₂.size_eq hi.1 hi.2, sizeAt_of_getElem? (List.getElem?_eq_getElem hlt)]
  obtain ⟨xNode, a, hxNode, hxSize, ha, hca⟩ := hnode hrootX
  obtain ⟨yNode, b, hyNode, hySize, hb, hcb⟩ := hnode hrootY
  unfold UnionFindMap.union Classes.kept Classes.lost
  simp only [hxIndex, hyIndex, hfindX, hfindY, hroots, hxNode, hyNode, hxSize, hySize]
  by_cases hsize : c.size r < c.size r'
  · simp only [hsize, ↓reduceIte, ha, hb, hxNode, List.getElem?_set_ne hroots, hyNode]
    refine ⟨b, a, _, hcb, hca, rfl, ?_⟩
    rw [← hxSize, ← hySize, Nat.add_comm]
    exact h₂.linkRoots hrootY hrootX (Ne.symm hne) hyNode hxNode (merge b a)
  · simp only [hsize, ↓reduceIte, ha, hb, hyNode, List.getElem?_set_ne (Ne.symm hroots), hxNode]
    refine ⟨a, b, _, hca, hcb, rfl, ?_⟩
    rw [← hxSize, ← hySize]
    exact h₂.linkRoots hrootX hrootY hne hxNode hyNode (merge a b)

omit [DecidableEq K] in
/-- `Union` in one class. -/
theorem union_same (h : Represents m c) {x y : K} (hx : c.rep x = some r) (hy : c.rep y = some r)
    (merge : V → V → V) : ∃ m', m.union x y merge = some (true, m') ∧ Represents m' c := by
  obtain ⟨xIndex, hxIndex⟩ := h.keyToIndex_of_rep hx
  obtain ⟨yIndex, hyIndex⟩ := h.keyToIndex_of_rep hy
  obtain ⟨rx, xRoot, m₁, hfindX, hrx, h₁, -, -, hindex₁, -, hrootX⟩ :=
    h.findRoot (h.index_iff.mp hxIndex)
  obtain rfl : rx = r := Option.some.inj (hrx.symm.trans hx)
  rw [← hindex₁] at hyIndex
  obtain ⟨ry, yRoot, m₂, hfindY, hry, h₂, hkeys₂, -, -, -, hrootY⟩ :=
    h₁.findRoot (h₁.index_iff.mp hyIndex)
  obtain rfl : ry = rx := Option.some.inj (hry.symm.trans hy)
  rw [hindex₁] at hyIndex
  have hroots : xRoot = yRoot := h₂.index_unique (by rw [hkeys₂, hrootX.1]) hrootY.1
  refine ⟨m₂, ?_, h₂⟩
  unfold UnionFindMap.union
  simp only [hxIndex, hyIndex, hfindX, hfindY, hroots, ↓reduceIte]

end Represents

end UnionFindMap

end Xls
