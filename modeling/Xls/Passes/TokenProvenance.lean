/-
# Token provenance

`TokenProvenanceAnalysis` (`xls/passes/token_provenance_analysis.cc`): for each leaf of
the type of each node, the node which produced the token there.  Tuples, tuple indices and
identities pass tokens on (`xls/passes/dataflow_visitor.h`); an operation which neither
produces nor passes on tokens must not have one in its type.

* `provenance_eq` : the provenance of a node in terms of that of its operands;
* `dataDep_of_tokenDep` : a token dependency is a data dependency;
* `isSome_tokenProvenanceAnalysis_iff` : when the analysis succeeds.
-/
import Xls.Ir.TokenGraph
import Xls.Lib.Relational

namespace Xls
namespace TokenGraph

open Verifier Relational

/-- `OpHasTokenProvenance`. -/
def Op.hasTokenProvenance : Op → Bool
  | .literal | .param | .assert | .cover | .trace | .receive _ _ | .send _ | .afterAll
  | .minDelay => true
  | _ => false

/-- A node for each leaf, `none` (`nullptr`) where there is no token. -/
abbrev ProvenanceTree := LeafTypeTree (Option ℕ)

/-- `TokenProvenanceVisitor::DefaultHandler`. -/
def defaultHandler (id : ℕ) (node : Node) : Option ProvenanceTree :=
  if node.op.hasTokenProvenance then
    some (LeafTypeTree.ofLeafTypes node.type fun leaf => if leaf = .token then some id else none)
  else if typeHasToken node.type then none
  else some (LeafTypeTree.ofLeafTypes node.type fun _ => none)

/-- `SetValue`, with its check of the type. -/
def setValue (node : Node) (tree : ProvenanceTree) : Option ProvenanceTree :=
  if node.type = tree.type then some tree else none

/-- The handlers of `DataFlowVisitor`, on the trees of the operands. -/
def handle (get : ℕ → Option ProvenanceTree) (id : ℕ) (node : Node) : Option ProvenanceTree :=
  match node.op with
  | .tuple => do
    let trees ← node.operands.mapM get
    LeafTypeTree.ofElements node.type (trees.flatMap LeafTypeTree.elements)
  | .tupleIndex index => do
    let operand ← node.operands[0]?
    let tree ← get operand
    let subtree ← tree.copySubtree [index]
    setValue node subtree
  | .identity => do
    let operand ← node.operands[0]?
    let tree ← get operand
    setValue node tree
  | _ => defaultHandler id node

namespace Proc

variable (p : Proc)

/-- The tree of a node, by recursion on the operands. -/
def provenanceFrom : ℕ → ℕ → Option ProvenanceTree
  | 0, _ => none
  | fuel + 1, id =>
    match p.nodes[id]? with
    | none => none
    | some node => handle (provenanceFrom fuel) id node

/-- The tree of a node.  No path in the graph is longer than the number of nodes. -/
def provenance (id : ℕ) : Option ProvenanceTree := p.provenanceFrom p.nodes.length id

/-- `TokenProvenanceAnalysis`: the trees of all nodes. -/
def tokenProvenanceAnalysis : Option (List ProvenanceTree) :=
  (List.range p.nodes.length).mapM p.provenance

/-- The nodes in the tree of a node. -/
def producers (id : ℕ) : List ℕ :=
  ((p.provenance id).map fun tree => tree.elements.filterMap (fun element => element)).getD []

/-- A token dependency: a token in an operand of `n` was produced by `e`. -/
def TokenDep (e n : ℕ) : Prop := ∃ c ∈ p.operands n, e ∈ p.producers c

end Proc

/-! ## The recursion -/

variable {p : Proc}

variable {id e : ℕ} {node : Node} {get : ℕ → Option ProvenanceTree}

theorem Proc.operands_eq (h : p.nodes[id]? = some node) : p.operands id = node.operands := by
  rw [Proc.operands, h]
  rfl

theorem Proc.lt_length_of_dataDep {a b : ℕ} (h : p.DataDep a b) : b < p.nodes.length := by
  by_contra hb
  rw [Proc.DataDep, Proc.operands, List.getElem?_eq_none (by omega)] at h
  cases h

/-- A handler reads the trees of the operands only. -/
theorem handle_congr {get' : ℕ → Option ProvenanceTree} (h : ∀ c ∈ node.operands, get c = get' c) :
    handle get id node = handle get' id node := by
  have hhead : ∀ c, node.operands[0]? = some c → get c = get' c := fun c hc =>
    h c (List.mem_of_getElem? hc)
  have hall : ∀ l : List ℕ, (∀ c ∈ l, get c = get' c) → l.mapM get = l.mapM get' := by
    intro l
    induction l with
    | nil => simp
    | cons c l ih =>
      intro hl
      rw [List.mapM_cons, List.mapM_cons, hl c List.mem_cons_self,
        ih fun c hc => hl c (List.mem_cons_of_mem _ hc)]
  unfold handle
  split
  · rw [hall _ h]
  · rcases hop : node.operands[0]? with _ | c
    · rfl
    · simp only [Option.bind_eq_bind, Option.bind_some, hhead c hop]
  · rcases hop : node.operands[0]? with _ | c
    · rfl
    · simp only [Option.bind_eq_bind, Option.bind_some, hhead c hop]
  · rfl

theorem provenanceFrom_stable {rank : ℕ → ℕ} (hrank : ∀ {a b}, p.DataDep a b → rank a < rank b)
    (fuel : ℕ) : ∀ (fuel' id : ℕ), rank id < fuel → rank id < fuel' →
      p.provenanceFrom fuel id = p.provenanceFrom fuel' id := by
  induction fuel with
  | zero => intro fuel' id h; omega
  | succ fuel ih =>
    intro fuel' id h h'
    rcases fuel' with _ | fuel'
    · omega
    · rw [Proc.provenanceFrom, Proc.provenanceFrom]
      rcases hnode : p.nodes[id]? with _ | node
      · rfl
      · refine handle_congr fun c hc => ?_
        have hlt : rank c < rank id := hrank (by rwa [Proc.DataDep, Proc.operands_eq hnode])
        exact ih fuel' c (by omega) (by omega)

/-- The operands of all nodes are nodes. -/
def Proc.OperandsExist (p : Proc) : Prop := ∀ a b, p.DataDep a b → a < p.nodes.length

variable (hp : p.Acyclic) (hops : p.OperandsExist)

section

include hp hops

/-- Graphs without cycles have a rank below the number of nodes. -/
theorem exists_rank :
    ∃ rank : ℕ → ℕ, (∀ {a b}, p.DataDep a b → rank a < rank b) ∧
      ∀ {a}, a < p.nodes.length → rank a < p.nodes.length := by
  obtain ⟨rank, hrank, hlt⟩ := Digraph.exists_rank (Finset.range p.nodes.length)
    (fun h => Finset.mem_range.mpr (hops _ _ h)) hp
  rw [Finset.card_range] at hlt
  exact ⟨rank, hrank, fun ha => hlt (Finset.mem_range.mpr ha)⟩

/-- The provenance of a node in terms of that of its operands. -/
theorem provenance_eq (hnode : p.nodes[id]? = some node) :
    p.provenance id = handle p.provenance id node := by
  obtain ⟨rank, hrank, hlt⟩ := exists_rank hp hops
  have hid : id < p.nodes.length := (List.getElem?_eq_some_iff.mp hnode).1
  have hsucc : p.provenance id = p.provenanceFrom (p.nodes.length + 1) id :=
    provenanceFrom_stable hrank _ _ id (hlt hid) (Nat.lt_succ_of_lt (hlt hid))
  rw [hsucc, Proc.provenanceFrom, hnode]
  rfl

end

theorem provenance_none_of_le (h : p.nodes.length ≤ id) : p.provenance id = none := by
  unfold Proc.provenance
  rcases hn : p.nodes.length with _ | n
  · rfl
  · rw [Proc.provenanceFrom, List.getElem?_eq_none h]

include hp hops in
/-- Induction over a graph without cycles, from the operands to the users. -/
theorem operands_induction {motive : ℕ → Prop}
    (step : ∀ n, (∀ c, p.DataDep c n → motive c) → motive n) (n : ℕ) : motive n := by
  obtain ⟨rank, hrank, -⟩ := exists_rank hp hops
  have hall : ∀ k n, rank n < k → motive n := by
    intro k
    induction k with
    | zero => intro n h; omega
    | succ k ih =>
      intro n hn
      refine step n fun c hc => ih c ?_
      have := hrank hc
      omega
  exact hall _ n (Nat.lt_succ_self _)

/-! ## Producers -/

theorem mem_producers {c : ℕ} :
    e ∈ p.producers c ↔ ∃ tree, p.provenance c = some tree ∧ some e ∈ tree.elements := by
  unfold Proc.producers
  rcases p.provenance c with _ | tree
  · simp
  · simp [List.mem_filterMap]

/-- What a handler puts into a tree comes from an operand or is the node itself. -/
theorem mem_handle {tree : ProvenanceTree} (h : handle get id node = some tree)
    (he : some e ∈ tree.elements) :
    (e = id ∧ node.op.hasTokenProvenance = true) ∨
      ∃ c ∈ node.operands, ∃ tree', get c = some tree' ∧ some e ∈ tree'.elements := by
  have hdefault : ∀ tree : ProvenanceTree, defaultHandler id node = some tree →
      some e ∈ tree.elements → e = id ∧ node.op.hasTokenProvenance = true := by
    intro tree h he
    unfold defaultHandler at h
    split at h
    · rename_i hop
      cases h
      obtain ⟨leaf, -, hleaf⟩ := List.mem_map.mp he
      split at hleaf
      · cases hleaf
        exact ⟨rfl, hop⟩
      · cases hleaf
    · split at h
      · cases h
      · cases h
        obtain ⟨leaf, -, hleaf⟩ := List.mem_map.mp he
        cases hleaf
  have hmapM : ∀ (l : List ℕ) (trees : List ProvenanceTree), l.mapM get = some trees →
      ∀ t ∈ trees, ∃ c ∈ l, get c = some t := by
    intro l
    induction l with
    | nil =>
      intro trees h t ht
      cases h
      cases ht
    | cons c l ih =>
      intro trees h t ht
      rw [List.mapM_cons] at h
      obtain ⟨u, hu, h⟩ := Option.bind_eq_some_iff.mp h
      obtain ⟨us, hus, h⟩ := Option.bind_eq_some_iff.mp h
      cases h
      rcases List.mem_cons.mp ht with rfl | ht
      · exact ⟨c, List.mem_cons_self, hu⟩
      · obtain ⟨d, hd, hget⟩ := ih us hus t ht
        exact ⟨d, List.mem_cons_of_mem _ hd, hget⟩
  unfold handle at h
  split at h
  · obtain ⟨trees, htrees, h⟩ := Option.bind_eq_some_iff.mp h
    rw [(LeafTypeTree.ofElements_eq_some h).2] at he
    obtain ⟨t, ht, het⟩ := List.mem_flatMap.mp he
    obtain ⟨c, hc, hget⟩ := hmapM _ _ htrees t ht
    exact .inr ⟨c, hc, t, hget, het⟩
  · obtain ⟨c, hc, h⟩ := Option.bind_eq_some_iff.mp h
    obtain ⟨t, ht, h⟩ := Option.bind_eq_some_iff.mp h
    obtain ⟨sub, hsub, h⟩ := Option.bind_eq_some_iff.mp h
    refine .inr ⟨c, List.mem_of_getElem? hc, t, ht, ?_⟩
    unfold setValue at h
    split at h
    · cases h
      unfold LeafTypeTree.copySubtree at hsub
      split at hsub
      · rw [(LeafTypeTree.ofElements_eq_some hsub).2] at he
        exact List.mem_of_mem_drop (List.mem_of_mem_take he)
      · cases hsub
    · cases h
  · obtain ⟨c, hc, h⟩ := Option.bind_eq_some_iff.mp h
    obtain ⟨t, ht, h⟩ := Option.bind_eq_some_iff.mp h
    refine .inr ⟨c, List.mem_of_getElem? hc, t, ht, ?_⟩
    unfold setValue at h
    split at h
    · cases h
      exact he
    · cases h
  · exact .inl (hdefault tree h he)

section

include hp hops

/-- A producer has the provenance of tokens and is the node itself or one of its
ancestors. -/
theorem of_mem_producers {n : ℕ} (h : e ∈ p.producers n) :
    Relation.ReflTransGen p.DataDep e n ∧
      ∃ op, p.opOf e = some op ∧ op.hasTokenProvenance = true := by
  induction n using operands_induction hp hops with
  | step n ih =>
    obtain ⟨tree, htree, he⟩ := mem_producers.mp h
    rcases hnode : p.nodes[n]? with _ | node
    · rw [provenance_none_of_le (List.getElem?_eq_none_iff.mp hnode)] at htree
      cases htree
    · rw [provenance_eq hp hops hnode] at htree
      rcases mem_handle htree he with ⟨rfl, hop⟩ | ⟨c, hc, tree', htree', he'⟩
      · exact ⟨.refl, node.op, by rw [Proc.opOf, hnode]; rfl, hop⟩
      · have hdep : p.DataDep c n := by rwa [Proc.DataDep, Proc.operands_eq hnode]
        obtain ⟨hpath, hop⟩ := ih c hdep (mem_producers.mpr ⟨tree', htree', he'⟩)
        exact ⟨hpath.tail hdep, hop⟩

/-- A token dependency is a data dependency. -/
theorem dataDep_of_tokenDep {n : ℕ} (h : p.TokenDep e n) :
    Relation.TransGen p.DataDep e n := by
  obtain ⟨c, hc, he⟩ := h
  exact Relation.TransGen.tail' (of_mem_producers hp hops he).1 hc

end

/-- An operation with the provenance of tokens. -/
theorem handle_of_hasTokenProvenance (h : node.op.hasTokenProvenance = true) :
    handle get id node = some (LeafTypeTree.ofLeafTypes node.type fun leaf =>
      if leaf = .token then some id else none) := by
  have hdefault : handle get id node = defaultHandler id node := by
    unfold handle
    split
    · rename_i hop
      rw [hop] at h
      cases h
    · rename_i hop
      rw [hop] at h
      cases h
    · rename_i hop
      rw [hop] at h
      cases h
    · rfl
  rw [hdefault, defaultHandler, if_pos h]

/-- The tree of such an operation does not depend on its operands, so that the graph may
have cycles elsewhere. -/
theorem provenance_of_hasTokenProvenance (hnode : p.nodes[id]? = some node)
    (h : node.op.hasTokenProvenance = true) :
    p.provenance id = some (LeafTypeTree.ofLeafTypes node.type fun leaf =>
      if leaf = .token then some id else none) := by
  have hlt : id < p.nodes.length := (List.getElem?_eq_some_iff.mp hnode).1
  unfold Proc.provenance
  rcases hn : p.nodes.length with _ | n
  · omega
  · rw [Proc.provenanceFrom, hnode]
    exact handle_of_hasTokenProvenance h

/-- Such an operation with a token among its leaves is its own producer, and no other node
is. -/
theorem mem_producers_self (hnode : p.nodes[id]? = some node)
    (h : node.op.hasTokenProvenance = true) (htoken : Ty.token ∈ node.type.leafTypes) :
    e ∈ p.producers id ↔ e = id := by
  rw [mem_producers]
  constructor
  · rintro ⟨tree, htree, he⟩
    rw [provenance_of_hasTokenProvenance hnode h] at htree
    cases htree
    obtain ⟨leaf, -, hleaf⟩ := List.mem_map.mp he
    split at hleaf
    · cases hleaf
      rfl
    · cases hleaf
  · rintro rfl
    exact ⟨_, provenance_of_hasTokenProvenance hnode h,
      List.mem_map.mpr ⟨.token, htoken, if_pos rfl⟩⟩

/-! ## When the analysis succeeds -/

section Verified

variable {channels : ℕ → Option Channel}

/-- Operands of a node which passes its checks have a type. -/
theorem operand_typed {n : Node} (h : p.checkNode channels n) {c : ℕ} (hc : c ∈ n.operands) :
    ∃ type, p.typeOf c = some type := by
  have hmem : p.typeOf c ∈ p.operandTypes n := List.mem_map.mpr ⟨c, hc, rfl⟩
  have hsome : ∀ types : List (Option Ty), p.operandTypes n = types →
      (∀ t ∈ types, ∃ type, t = some type) → ∃ type, p.typeOf c = some type := by
    intro types htypes hall
    exact hall _ (htypes ▸ hmem)
  unfold Proc.checkNode at h
  split at h
  · rw [h] at hc; cases hc
  · rw [h] at hc; cases hc
  · exact hsome _ h.2 (by simp)
  · exact hsome _ h.2 (by simp)
  · obtain ⟨-, args, hargs, hbits⟩ := h
    refine hsome _ hargs ?_
    rintro t (_ | ⟨_, _ | ⟨_, ht⟩⟩)
    · exact ⟨_, rfl⟩
    · exact ⟨_, rfl⟩
    · obtain ⟨width, hwidth⟩ := hbits t ht
      exact ⟨_, hwidth⟩
  · obtain ⟨channel, -, -, -, htypes | htypes⟩ := h <;> exact hsome _ htypes (by simp)
  · obtain ⟨channel, -, -, -, htypes | htypes⟩ := h <;> exact hsome _ htypes (by simp)
  · exact ⟨_, h.2 _ hmem⟩
  · exact hsome _ h.2 (by simp)
  · obtain ⟨types, htypes, -⟩ := h
    exact hsome _ htypes (by simp)
  · obtain ⟨types, htypes, -⟩ := h
    exact hsome _ htypes (by simp)
  · exact hsome _ h (by simp)
  · exact Option.ne_none_iff_exists'.mp (h _ hmem)

theorem lt_length_of_typeOf {c : ℕ} {type : Ty} (h : p.typeOf c = some type) :
    c < p.nodes.length := by
  by_contra hc
  rw [Proc.typeOf, List.getElem?_eq_none (by omega)] at h
  cases h

theorem Proc.Verified.operandsExist (h : p.Verified channels) : p.OperandsExist := by
  intro a b hab
  have hb := Proc.lt_length_of_dataDep hab
  have hnode : p.nodes[b]? = some p.nodes[b] := List.getElem?_eq_getElem hb
  rw [Proc.DataDep, Proc.operands_eq hnode] at hab
  obtain ⟨type, htype⟩ := operand_typed (h.nodes _ (List.getElem_mem hb)) hab
  exact lt_length_of_typeOf htype

/-- The operations which the analysis does not follow have no tokens in their types. -/
def Proc.TokensTracked (p : Proc) : Prop :=
  ∀ node ∈ p.nodes, ∀ sideEffecting, node.op = .other sideEffecting →
    typeHasToken node.type = false

/-- The elements of a list of trees, counted by their types. -/
theorem length_flatMap_elements (trees : List ProvenanceTree) :
    (trees.flatMap LeafTypeTree.elements).length =
      Ty.leafCountList (trees.map LeafTypeTree.type) := by
  induction trees with
  | nil => rfl
  | cons tree trees ih =>
    rw [List.flatMap_cons, List.length_append, List.map_cons, Ty.leafCountList, ih, tree.length_eq]

theorem leafCountList_take_add {ts : List Ty} {i : ℕ} {t : Ty} (h : ts[i]? = some t) :
    Ty.leafCountList (ts.take i) + t.leafCount ≤ Ty.leafCountList ts := by
  induction ts generalizing i with
  | nil => simp at h
  | cons u ts ih =>
    rcases i with _ | i
    · cases h
      simp [Ty.leafCountList]
    · have := ih h
      rw [List.take_succ_cons, Ty.leafCountList, Ty.leafCountList]
      omega

/-- A subtree at an element of a tuple. -/
theorem exists_copySubtree {tree : ProvenanceTree} {ts : List Ty} {i : ℕ} {t : Ty}
    (htree : tree.type = .tuple ts) (h : ts[i]? = some t) :
    ∃ sub, tree.copySubtree [i] = some sub ∧ sub.type = t := by
  have hlen := tree.length_eq
  have hcount := leafCountList_take_add h
  rw [htree, Ty.leafCount] at hlen
  unfold LeafTypeTree.copySubtree
  rw [htree]
  simp only [h, LeafTypeTree.getSubtypeAndOffset]
  rw [LeafTypeTree.ofElements, dif_pos]
  · exact ⟨_, rfl, rfl⟩
  · rw [List.length_take, List.length_drop]
    omega

theorem mapM_typed {get : ℕ → Option ProvenanceTree} (l : List ℕ) :
    ∀ types : List Ty, l.map p.typeOf = types.map some →
      (∀ c ∈ l, ∀ type, p.typeOf c = some type → ∃ tree, get c = some tree ∧ tree.type = type) →
      ∃ trees, l.mapM get = some trees ∧ trees.map LeafTypeTree.type = types := by
  induction l with
  | nil =>
    intro types h _
    rcases types with _ | ⟨t, types⟩
    · exact ⟨[], rfl, rfl⟩
    · cases h
  | cons c l ih =>
    intro types h hget
    rcases types with _ | ⟨t, types⟩
    · cases h
    · rw [List.map_cons, List.map_cons, List.cons.injEq] at h
      obtain ⟨tree, htree, htype⟩ := hget c List.mem_cons_self t h.1
      obtain ⟨trees, htrees, htypes⟩ := ih types h.2 fun d hd =>
        hget d (List.mem_cons_of_mem _ hd)
      refine ⟨tree :: trees, ?_, by rw [List.map_cons, htype, htypes]⟩
      rw [List.mapM_cons, htree, htrees]
      rfl

/-- Every node of a verified proc whose tokens are tracked has a tree of its type. -/
theorem exists_provenance (h : p.Verified channels) (ht : p.TokensTracked) (n : ℕ) :
    ∀ node, p.nodes[n]? = some node → ∃ tree, p.provenance n = some tree ∧
      tree.type = node.type := by
  induction n using operands_induction h.acyclic h.operandsExist with
  | step n ih =>
    intro node hnode
    have hmem : node ∈ p.nodes := List.mem_of_getElem? hnode
    have hcheck := h.nodes node hmem
    -- the trees of the operands
    have hget : ∀ c ∈ node.operands, ∀ type, p.typeOf c = some type →
        ∃ tree, p.provenance c = some tree ∧ tree.type = type := by
      intro c hc type htype
      obtain ⟨child, hchild, rfl⟩ := Option.map_eq_some_iff.mp htype
      exact ih c (by rwa [Proc.DataDep, Proc.operands_eq hnode]) child hchild
    rw [provenance_eq h.acyclic h.operandsExist hnode]
    have hdefault : node.op.hasTokenProvenance = true →
        ∃ tree, handle p.provenance n node = some tree ∧ tree.type = node.type := by
      intro hop
      exact ⟨_, handle_of_hasTokenProvenance hop, rfl⟩
    rcases hop : node.op with _ | _ | _ | _ | _ | ⟨channel, blocking⟩ | channel | _ | _ | _ |
      index | _ | sideEffecting
    all_goals try exact hdefault (by rw [hop]; rfl)
    · rw [Proc.checkNode, hop] at hcheck
      obtain ⟨types, htypes, htype⟩ := hcheck
      obtain ⟨trees, htrees, hmap⟩ := mapM_typed node.operands types htypes hget
      rw [handle, hop]
      simp only [Option.bind_eq_bind, htrees, Option.bind_some]
      rw [LeafTypeTree.ofElements, dif_pos]
      · exact ⟨_, rfl, rfl⟩
      · rw [length_flatMap_elements, hmap, htype, Ty.leafCount]
    · rw [Proc.checkNode, hop] at hcheck
      obtain ⟨types, htypes, hindex⟩ := hcheck
      obtain ⟨c, hc, hctype⟩ := List.map_eq_singleton_iff.mp htypes
      obtain ⟨tree, htree, htype⟩ := hget c (by rw [hc]; exact List.mem_cons_self) _ hctype
      obtain ⟨sub, hsub, hsubtype⟩ := exists_copySubtree htype hindex
      rw [handle, hop]
      simp only [Option.bind_eq_bind, hc, List.getElem?_cons_zero, Option.bind_some, htree, hsub,
        setValue, hsubtype]
      exact ⟨sub, rfl, hsubtype⟩
    · rw [Proc.checkNode, hop] at hcheck
      obtain ⟨c, hc, hctype⟩ := List.map_eq_singleton_iff.mp hcheck
      obtain ⟨tree, htree, htype⟩ := hget c (by rw [hc]; exact List.mem_cons_self) _ hctype
      rw [handle, hop]
      simp only [Option.bind_eq_bind, hc, List.getElem?_cons_zero, Option.bind_some, htree,
        setValue, htype]
      exact ⟨tree, rfl, htype⟩
    · have htoken := ht node hmem sideEffecting hop
      have : handle p.provenance n node = some (LeafTypeTree.ofLeafTypes node.type
          fun _ => none) := by
        rw [handle]
        simp [defaultHandler, hop, Op.hasTokenProvenance, htoken]
      exact ⟨_, this, rfl⟩

/-- The analysis of a verified proc succeeds exactly when its tokens are tracked. -/
theorem isSome_tokenProvenanceAnalysis_iff (h : p.Verified channels) :
    p.tokenProvenanceAnalysis.isSome = true ↔ p.TokensTracked := by
  constructor
  · intro hsome node hmem sideEffecting hop
    obtain ⟨trees, htrees⟩ := Option.isSome_iff_exists.mp hsome
    obtain ⟨n, hn, hnode⟩ := List.getElem_of_mem hmem
    have hget : p.nodes[n]? = some node := by rw [List.getElem?_eq_getElem hn, hnode]
    by_contra htoken
    have hnone : p.provenance n = none := by
      rw [provenance_eq h.acyclic h.operandsExist hget, handle]
      simp [defaultHandler, hop, Op.hasTokenProvenance, htoken]
    have hall : ∀ (l : List ℕ) (trees : List ProvenanceTree), l.mapM p.provenance = some trees →
        ∀ c ∈ l, p.provenance c ≠ none := by
      intro l
      induction l with
      | nil => simp
      | cons c l ih =>
        intro trees htrees d hd
        rw [List.mapM_cons] at htrees
        obtain ⟨t, ht, htrees⟩ := Option.bind_eq_some_iff.mp htrees
        obtain ⟨ts, hts, -⟩ := Option.bind_eq_some_iff.mp htrees
        rcases List.mem_cons.mp hd with rfl | hd
        · rw [ht]
          simp
        · exact ih ts hts d hd
    exact hall _ _ htrees n (List.mem_range.mpr hn) hnone
  · intro ht
    have hall : ∀ l : List ℕ, (∀ c ∈ l, c < p.nodes.length) →
        (l.mapM p.provenance).isSome = true := by
      intro l
      induction l with
      | nil => simp
      | cons c l ih =>
        intro hl
        obtain ⟨tree, htree, -⟩ := exists_provenance h ht c _
          (List.getElem?_eq_getElem (hl c List.mem_cons_self))
        obtain ⟨trees, htrees⟩ := Option.isSome_iff_exists.mp
          (ih fun d hd => hl d (List.mem_cons_of_mem _ hd))
        rw [List.mapM_cons, htree, htrees]
        rfl
    exact hall _ fun c hc => List.mem_range.mp hc

end Verified

end TokenGraph
end Xls
