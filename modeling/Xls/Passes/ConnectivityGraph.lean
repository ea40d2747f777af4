/-
# The connectivity graph of the channel operations

What `MakeInterProcConnectivityGraph` builds: an edge leads from an internal channel
operation to those which depend on it without another one in between, and from a send to the
receives on its channel.

* `Package.Verified` : what the verifier guarantees of a package;
* `Package.Connected` : the edges, in terms of the package;
* `exists_makeInterProcConnectivityGraph` : the maps hold these edges, both ways.
-/
import Xls.Passes.MinimalFeedbackArcs

namespace Xls
namespace FeedbackChannels

open Multimap

namespace Package

variable (p : Package)

/-- What the verifier guarantees: node ids are unique, operands come first and are in the same
function base, channel operations have a token operand, and internal channels have a send
and a receive. -/
structure Verified : Prop where
  ids : (p.nodes.map Node.id).Nodup
  operands : ∀ fb ∈ p.functionBases, ∀ l₁ node l₂, fb = l₁ ++ node :: l₂ →
    ∀ c ∈ node.operands, ∃ child ∈ l₁, child.id = c
  token : ∀ node ∈ p.nodes, node.op.channelId ≠ none → node.operands ≠ []
  sends : ∀ c, p.channels c = some .sendReceive → ∃ node ∈ p.nodes, node.op = .send c
  receives : ∀ c, p.channels c = some .sendReceive → ∃ node ∈ p.nodes, node.op = .receive c

/-- The operands of the node with an id. -/
def operandsOf (id : ℕ) : List ℕ := ((p.node? id).map Node.operands).getD []

/-- The operation of the node with an id. -/
def opOf (id : ℕ) : Option Op := (p.node? id).map Node.op

/-- The value of an internal channel operation reaches a node, with no other one in
between. -/
inductive Flows : ℕ → ℕ → Prop
  | direct {m k : ℕ} : (p.internalChannel m).isSome = true → m ∈ p.operandsOf k → Flows m k
  | through {m j k : ℕ} : Flows m j → p.internalChannel j = none → j ∈ p.operandsOf k → Flows m k

/-- A send and a receive on an internal channel. -/
def SendReceive (c m k : ℕ) : Prop :=
  p.channels c = some .sendReceive ∧ p.opOf m = some (.send c) ∧ p.opOf k = some (.receive c)

/-- An edge of the connectivity graph. -/
def Connected (m k : ℕ) : Prop :=
  (p.internalChannel k).isSome = true ∧ (p.Flows m k ∨ ∃ c, p.SendReceive c m k)

end Package

variable {p : Package}

/-! ## Nodes and their ids -/

variable {node : Node} {k : ℕ} {m : Multimap ℕ ℕ} {done : List Node} {map : StableEdgeMap}

theorem node?_of_mem (h : p.Verified) (hmem : node ∈ p.nodes) : p.node? node.id = some node := by
  rcases hfind : p.node? node.id with _ | found
  · have := List.find?_eq_none.mp hfind node hmem
    simp at this
  · have hfound := List.mem_of_find?_eq_some hfind
    have hid : found.id = node.id := by simpa using List.find?_some hfind
    rw [List.inj_on_of_nodup_map h.ids hfound hmem hid]

theorem mem_of_node? {id : ℕ} (h : p.node? id = some node) : node ∈ p.nodes ∧ node.id = id :=
  ⟨List.mem_of_find?_eq_some h, by simpa using List.find?_some h⟩

theorem operandsOf_eq (h : p.Verified) (hmem : node ∈ p.nodes) :
    p.operandsOf node.id = node.operands := by
  rw [Package.operandsOf, node?_of_mem h hmem]
  rfl

theorem internalChannel_eq (h : p.Verified) (hmem : node ∈ p.nodes) :
    p.internalChannel node.id = p.getInternalChannelId node := by
  rw [Package.internalChannel, node?_of_mem h hmem]
  rfl

theorem mem_users (h : p.Verified) {id : ℕ} : k ∈ p.users id ↔ id ∈ p.operandsOf k := by
  rw [Package.users, List.mem_map]
  constructor
  · rintro ⟨node, hnode, rfl⟩
    obtain ⟨hmem, hop⟩ := List.mem_filter.mp hnode
    rw [operandsOf_eq h hmem]
    exact of_decide_eq_true hop
  · intro hop
    rcases hnode : p.node? k with _ | node
    · rw [Package.operandsOf, hnode] at hop
      cases hop
    · obtain ⟨hmem, rfl⟩ := mem_of_node? hnode
      rw [operandsOf_eq h hmem] at hop
      exact ⟨node, List.mem_filter.mpr ⟨hmem, decide_eq_true hop⟩, rfl⟩

theorem getInternalChannelId_eq_some {c : ℕ} : p.getInternalChannelId node = some c ↔
      node.op.channelId = some c ∧ p.channels c = some .sendReceive := by
  unfold Package.getInternalChannelId
  rcases node.op.channelId with _ | c'
  · simp
  · simp only [Option.some.injEq]
    split
    · rename_i hc
      constructor
      · rintro ⟨⟩
        exact ⟨rfl, hc⟩
      · rintro ⟨rfl, -⟩
        rfl
    · rename_i hc
      constructor
      · rintro ⟨⟩
      · rintro ⟨rfl, hc'⟩
        exact absurd hc' hc

theorem Package.Flows.isSome {m : ℕ} (h : p.Flows m k) : (p.internalChannel m).isSome = true := by
  induction h with
  | direct h _ => exact h
  | through _ _ _ ih => exact ih

/-! ## Insertions under several keys -/

theorem canonical_foldl_insertAll (h : Canonical m) (ks vs : List ℕ) :
    Canonical (ks.foldl (fun m k => insertAll m k vs) m) := by
  induction ks generalizing m with
  | nil => exact h
  | cons k ks ih => exact ih (h.insertAll k vs)

theorem mem_find_foldl_insertAll (h : Canonical m) (ks vs : List ℕ) {q v : ℕ} :
    v ∈ find (ks.foldl (fun m k => insertAll m k vs) m) q ↔ v ∈ find m q ∨ (q ∈ ks ∧ v ∈ vs) := by
  induction ks generalizing m with
  | nil => simp
  | cons k ks ih =>
    rw [List.foldl_cons, ih (h.insertAll k vs), mem_find_insertAll h, List.mem_cons]
    constructor
    · rintro ((hm | ⟨rfl, hv⟩) | ⟨hq, hv⟩)
      · exact .inl hm
      · exact .inr ⟨.inl rfl, hv⟩
      · exact .inr ⟨.inr hq, hv⟩
    · rintro (hm | ⟨rfl | hq, hv⟩)
      · exact .inl (.inl hm)
      · exact .inl (.inr ⟨rfl, hv⟩)
      · exact .inr ⟨hq, hv⟩

theorem mem_keys_foldl_insertAll (ks vs : List ℕ) {q : ℕ} :
    q ∈ keys (ks.foldl (fun m k => insertAll m k vs) m) ↔ q ∈ ks ∨ q ∈ keys m := by
  induction ks generalizing m with
  | nil => simp
  | cons k ks ih =>
    rw [List.foldl_cons, ih, mem_keys_insertAll, List.mem_cons]
    constructor
    · rintro (hq | hq | hq)
      · exact .inl (.inr hq)
      · exact .inl (.inl hq)
      · exact .inr hq
    · rintro ((hq | hq) | hq)
      · exact .inr (.inl hq)
      · exact .inl hq
      · exact .inr (.inr hq)

/-! ## The loop over the nodes -/

/-- What a node passes on to its users. -/
def Package.Source (p : Package) (m : ℕ) (node : Node) : Prop :=
  ((p.getInternalChannelId node).isSome = true ∧ m = node.id) ∨
    (p.getInternalChannelId node = none ∧ p.Flows m node.id)

/-- A value which reaches a node comes by way of an operand. -/
theorem flows_iff (h : p.Verified) {m : ℕ} :
    p.Flows m k ↔ ∃ node ∈ p.nodes, node.id ∈ p.operandsOf k ∧ p.Source m node := by
  constructor
  · intro hflows
    rcases hflows with ⟨hm, hop⟩ | ⟨hflows, hj, hop⟩
    · obtain ⟨c, hc⟩ := Option.isSome_iff_exists.mp hm
      obtain ⟨node, hnode, hc'⟩ := Option.bind_eq_some_iff.mp hc
      obtain ⟨hmem, rfl⟩ := mem_of_node? hnode
      exact ⟨node, hmem, hop, .inl ⟨by rw [hc']; rfl, rfl⟩⟩
    · rename_i j
      rcases hnode : p.node? j with _ | node
      · rcases hflows with ⟨-, hop'⟩ | ⟨-, -, hop'⟩
        · rw [Package.operandsOf, hnode] at hop'
          cases hop'
        · rw [Package.operandsOf, hnode] at hop'
          cases hop'
      · obtain ⟨hmem, rfl⟩ := mem_of_node? hnode
        rw [internalChannel_eq h hmem] at hj
        exact ⟨node, hmem, hop, .inr ⟨hj, hflows⟩⟩
  · rintro ⟨node, hmem, hop, ⟨hc, rfl⟩ | ⟨hc, hflows⟩⟩
    · refine .direct ?_ hop
      rwa [internalChannel_eq h hmem]
    · refine .through hflows ?_ hop
      rwa [internalChannel_eq h hmem]

/-- A map from the internal channels to their sends, or to their receives, among some
nodes. -/
structure Registered (p : Package) (op : ℕ → Op) (done : List Node) (map : Multimap ℕ ℕ) :
    Prop where
  canonical : Canonical map
  mem_find : ∀ c v, v ∈ find map c ↔
    ∃ node ∈ done, v = node.id ∧ node.op = op c ∧ p.channels c = some .sendReceive
  mem_keys : ∀ c, c ∈ keys map ↔
    ∃ node ∈ done, node.op = op c ∧ p.channels c = some .sendReceive

theorem exists_mem_snoc (Q : Node → Prop) :
    (∃ x ∈ done ++ [node], Q x) ↔ (∃ x ∈ done, Q x) ∨ Q node := by
  simp only [List.mem_append, List.mem_singleton, or_and_right, exists_or, exists_eq_left]

theorem Registered.insert {op : ℕ → Op} (hop : Function.Injective op) {map : Multimap ℕ ℕ}
    (h : Registered p op done map) {c : ℕ} (hnode : node.op = op c)
    (hc : p.channels c = some .sendReceive) :
    Registered p op (done ++ [node]) (insertAll map c [node.id]) := by
  constructor
  · exact h.canonical.insertAll c _
  · intro c' v
    rw [mem_find_insertAll h.canonical, h.mem_find, exists_mem_snoc, List.mem_singleton, hnode]
    constructor
    · rintro (hold | ⟨rfl, hv⟩)
      · exact .inl hold
      · exact .inr ⟨hv, rfl, hc⟩
    · rintro (hold | ⟨hv, hcc, -⟩)
      · exact .inl hold
      · exact .inr ⟨(hop hcc).symm, hv⟩
  · intro c'
    rw [mem_keys_insertAll, h.mem_keys, exists_mem_snoc, hnode]
    constructor
    · rintro (rfl | hold)
      · exact .inr ⟨rfl, hc⟩
      · exact .inl hold
    · rintro (hold | ⟨hcc, -⟩)
      · exact .inr hold
      · exact .inl (hop hcc).symm

theorem Registered.skip {op : ℕ → Op} {map : Multimap ℕ ℕ} (h : Registered p op done map)
    (hnode : ∀ c, node.op = op c → p.channels c ≠ some .sendReceive) :
    Registered p op (done ++ [node]) map := by
  constructor
  · exact h.canonical
  · intro c v
    rw [h.mem_find, exists_mem_snoc]
    constructor
    · exact .inl
    · rintro (hold | ⟨-, hop, hc⟩)
      · exact hold
      · exact absurd hc (hnode c hop)
  · intro c
    rw [h.mem_keys, exists_mem_snoc]
    constructor
    · exact .inl
    · rintro (hold | ⟨hop, hc⟩)
      · exact hold
      · exact absurd hc (hnode c hop)

/-- The maps after the loop has visited some nodes. -/
structure Built (p : Package) (done : List Node) (b : Package.Builder) : Prop where
  subset : ∀ node ∈ done, node ∈ p.nodes
  canonical : Canonical b.predecessorEdges
  mem_find : ∀ k m, m ∈ find b.predecessorEdges k ↔
    ∃ node ∈ done, node.id ∈ p.operandsOf k ∧ p.Source m node
  mem_keys : ∀ k, (∃ node ∈ done, node.id ∈ p.operandsOf k) → k ∈ keys b.predecessorEdges
  sends : Registered p .send done b.channelIdToInternalSend
  receives : Registered p .receive done b.channelIdToInternalReceive

theorem built_nil (p : Package) : Built p [] ⟨[], [], []⟩ := by
  have hregistered : ∀ op, Registered p op [] [] := fun op =>
    ⟨Canonical.nil, by simp [find], by simp [keys]⟩
  exact ⟨by simp, Canonical.nil, by simp [find], by simp, hregistered _, hregistered _⟩

/-- What has been collected at a node is passed on to its users. -/
theorem mem_find_users (h : p.Verified) (hcanonical : Canonical map) {vs : List ℕ}
    (hmem : ∀ k m, m ∈ find map k ↔ ∃ x ∈ done, x.id ∈ p.operandsOf k ∧ p.Source m x)
    (hvs : ∀ m, m ∈ vs ↔ p.Source m node) (k m : ℕ) :
    m ∈ find ((p.users node.id).foldl (fun edges successor => insertAll edges successor vs) map) k ↔
      ∃ x ∈ done ++ [node], x.id ∈ p.operandsOf k ∧ p.Source m x := by
  rw [mem_find_foldl_insertAll hcanonical, hmem, exists_mem_snoc, mem_users h, hvs]

theorem mem_keys_users (h : p.Verified) (node : Node) (vs : List ℕ)
    (hmem : ∀ k, (∃ x ∈ done, x.id ∈ p.operandsOf k) → k ∈ keys map) (k : ℕ)
    (hk : ∃ x ∈ done ++ [node], x.id ∈ p.operandsOf k) :
    k ∈ keys ((p.users node.id).foldl (fun edges successor => insertAll edges successor vs) map) := by
  rw [mem_keys_foldl_insertAll, mem_users h]
  rcases (exists_mem_snoc _).mp hk with hold | hnew
  · exact .inr (hmem k hold)
  · exact .inl hnew

/-- A visit of a node whose operands have been visited. -/
theorem Built.visitNode (h : p.Verified) {b : Package.Builder} (hb : Built p done b)
    (hmem : node ∈ p.nodes) (hops : ∀ c ∈ node.operands, ∃ child ∈ done, child.id = c) :
    Built p (done ++ [node]) (p.visitNode b node) := by
  have hsubset : ∀ x ∈ done ++ [node], x ∈ p.nodes := by
    intro x hx
    rcases List.mem_append.mp hx with hx | hx
    · exact hb.subset x hx
    · rwa [List.mem_singleton.mp hx]
  unfold Package.visitNode
  rcases hc : p.getInternalChannelId node with _ | c
  · have hskip : ∀ op : ℕ → Op, (∀ c, (op c).channelId = some c) →
        ∀ c, node.op = op c → p.channels c ≠ some .sendReceive := by
      intro op hid c hop hch
      have := getInternalChannelId_eq_some.mpr ⟨by rw [hop, hid], hch⟩
      rw [hc] at this
      cases this
    have hcanonical := hb.canonical.insertAll node.id []
    have hfind : ∀ k m, m ∈ find (insertAll b.predecessorEdges node.id []) k ↔
        ∃ x ∈ done, x.id ∈ p.operandsOf k ∧ p.Source m x := by
      intro k m
      rw [mem_find_insertAll hb.canonical, hb.mem_find]
      simp
    -- what reaches the node has been collected, since its operands have been visited
    have hcollected : ∀ m, m ∈ find (insertAll b.predecessorEdges node.id []) node.id ↔
        p.Source m node := by
      intro m
      have hsource : p.Source m node ↔ p.Flows m node.id := by
        simp [Package.Source, hc]
      rw [hfind, hsource, flows_iff h]
      constructor
      · rintro ⟨x, hx, hop, hs⟩
        exact ⟨x, hb.subset x hx, hop, hs⟩
      · rintro ⟨x, hx, hop, hs⟩
        have hop' := hop
        rw [operandsOf_eq h hmem] at hop'
        obtain ⟨child, hchild, hid⟩ := hops x.id hop'
        obtain rfl := List.inj_on_of_nodup_map h.ids (hb.subset child hchild) hx hid
        exact ⟨child, hchild, hop, hs⟩
    refine ⟨hsubset, canonical_foldl_insertAll hcanonical _ _, ?_, ?_, ?_, ?_⟩
    · exact mem_find_users h hcanonical hfind hcollected
    · refine mem_keys_users h _ _ fun k hk => ?_
      exact mem_keys_insertAll.mpr (.inr (hb.mem_keys k hk))
    · exact hb.sends.skip (hskip .send fun _ => rfl)
    · exact hb.receives.skip (hskip .receive fun _ => rfl)
  · obtain ⟨hid, hch⟩ := getInternalChannelId_eq_some.mp hc
    have hsource : ∀ m, m ∈ [node.id] ↔ p.Source m node := by
      intro m
      simp [Package.Source, hc]
    have hcanonical := canonical_foldl_insertAll hb.canonical (p.users node.id) [node.id]
    have hfind := mem_find_users h hb.canonical hb.mem_find hsource
    have hkeys := mem_keys_users h node [node.id] hb.mem_keys
    rcases hop : node.op with c' | c' | _
    · obtain rfl : c' = c := by simpa [hop, Op.channelId] using hid
      refine ⟨hsubset, hcanonical, hfind, hkeys, ?_, ?_⟩
      · exact hb.sends.insert (fun _ _ heq => Op.send.inj heq) hop hch
      · exact hb.receives.skip fun _ hop' => by simp [hop] at hop'
    · obtain rfl : c' = c := by simpa [hop, Op.channelId] using hid
      refine ⟨hsubset, hcanonical, hfind, hkeys, ?_, ?_⟩
      · exact hb.sends.skip fun _ hop' => by simp [hop] at hop'
      · exact hb.receives.insert (fun _ _ heq => Op.receive.inj heq) hop hch
    · rw [hop] at hid
      cases hid

/-- The loop over the nodes of a function base. -/
theorem Built.foldl_visitNode (h : p.Verified) (fb : List Node) :
    ∀ {done : List Node} {b : Package.Builder}, Built p done b → (∀ node ∈ fb, node ∈ p.nodes) →
      (∀ l₁ node l₂, fb = l₁ ++ node :: l₂ → ∀ c ∈ node.operands,
        ∃ child ∈ done ++ l₁, child.id = c) →
      Built p (done ++ fb) (fb.foldl p.visitNode b) := by
  induction fb with
  | nil =>
    intro done b hb _ _
    rwa [List.append_nil]
  | cons node fb ih =>
    intro done b hb hmem hops
    have hnode := hb.visitNode h (hmem node List.mem_cons_self) fun c hc => by
      have := hops [] node fb rfl c hc
      rwa [List.append_nil] at this
    have hrest := ih hnode (fun x hx => hmem x (List.mem_cons_of_mem _ hx))
      fun l₁ x l₂ heq c hc => by
        have := hops (node :: l₁) x l₂ (by rw [heq, List.cons_append]) c hc
        rwa [List.append_assoc]
    rwa [List.append_assoc] at hrest

/-- The loop over the function bases. -/
theorem built_visitFunctionBases (h : p.Verified) : Built p p.nodes p.visitFunctionBases := by
  have hall : ∀ (fbs : List (List Node)) (done : List Node) (b : Package.Builder),
      Built p done b → (∀ fb ∈ fbs, fb ∈ p.functionBases) →
      Built p (done ++ fbs.flatten) (fbs.foldl (fun b fb => fb.foldl p.visitNode b) b) := by
    intro fbs
    induction fbs with
    | nil =>
      intro done b hb _
      rwa [List.flatten_nil, List.append_nil]
    | cons fb fbs ih =>
      intro done b hb hfbs
      have hfb := hfbs fb List.mem_cons_self
      have hb' := hb.foldl_visitNode h fb (fun node hnode => List.mem_flatten.mpr ⟨fb, hfb, hnode⟩)
        fun l₁ node l₂ heq c hc => by
          obtain ⟨child, hchild, hid⟩ := h.operands fb hfb l₁ node l₂ heq c hc
          exact ⟨child, List.mem_append_right _ hchild, hid⟩
      have := ih _ _ hb' fun x hx => hfbs x (List.mem_cons_of_mem _ hx)
      rwa [List.append_assoc] at this
  exact hall p.functionBases [] _ (built_nil p) fun _ hfb => hfb

/-! ## The edges between procs -/

/-- The edges of a send to the receives on its channel. -/
theorem mem_find_foldl_receives (hmap : Canonical map) (sends receives : List ℕ) :
    Canonical (sends.foldl (fun edges send =>
      receives.foldl (fun edges receive => insertAll edges receive [send]) edges) map) ∧
    (∀ k m, m ∈ find (sends.foldl (fun edges send =>
      receives.foldl (fun edges receive => insertAll edges receive [send]) edges) map) k ↔
      m ∈ find map k ∨ (m ∈ sends ∧ k ∈ receives)) ∧
    ∀ k, k ∈ keys map → k ∈ keys (sends.foldl (fun edges send =>
      receives.foldl (fun edges receive => insertAll edges receive [send]) edges) map) := by
  induction sends generalizing map with
  | nil => exact ⟨hmap, by simp, fun _ hk => hk⟩
  | cons send sends ih =>
    obtain ⟨hcanonical, hfind, hkeys⟩ := ih (canonical_foldl_insertAll hmap receives [send])
    refine ⟨hcanonical, fun k m => ?_, fun k hk => ?_⟩
    · rw [List.foldl_cons, hfind, mem_find_foldl_insertAll hmap, List.mem_singleton, List.mem_cons]
      constructor
      · rintro ((hm | ⟨hk, rfl⟩) | ⟨hm, hk⟩)
        · exact .inl hm
        · exact .inr ⟨.inl rfl, hk⟩
        · exact .inr ⟨.inr hm, hk⟩
      · rintro (hm | ⟨rfl | hm, hk⟩)
        · exact .inl (.inl hm)
        · exact .inl (.inr ⟨hk, rfl⟩)
        · exact .inr ⟨hm, hk⟩
    · exact hkeys k ((mem_keys_foldl_insertAll receives [send]).mpr (.inr hk))

/-- The loop over the channels with a send, where each has a receive. -/
theorem exists_foldlM_connectChannel {receives : Multimap ℕ ℕ} (sends : Multimap ℕ ℕ) :
    ∀ {map : StableEdgeMap}, Canonical map → (∀ entry ∈ sends, entry.1 ∈ keys receives) →
      ∃ edges, sends.foldlM (Package.connectChannel receives) map = some edges ∧ Canonical edges ∧
        (∀ k m, m ∈ find edges k ↔ m ∈ find map k ∨
          ∃ entry ∈ sends, m ∈ entry.2 ∧ k ∈ find receives entry.1) ∧
        ∀ k, k ∈ keys map → k ∈ keys edges := by
  induction sends with
  | nil =>
    intro map hmap _
    exact ⟨map, rfl, hmap, by simp, fun _ hk => hk⟩
  | cons entry sends ih =>
    intro map hmap hkeys
    obtain ⟨hcanonical, hfind, hkept⟩ := mem_find_foldl_receives hmap entry.2
      (find receives entry.1)
    obtain ⟨edges, hedges, hcanonical', hfind', hkept'⟩ := ih hcanonical fun x hx =>
      hkeys x (List.mem_cons_of_mem _ hx)
    refine ⟨edges, ?_, hcanonical', fun k m => ?_, fun k hk => hkept' k (hkept k hk)⟩
    · rw [List.foldlM_cons, Package.connectChannel, if_pos (hkeys entry List.mem_cons_self)]
      exact hedges
    · rw [hfind', hfind, List.exists_mem_cons_iff, or_assoc]

/-- The mirrored map. -/
theorem mirror_spec (hmap : Canonical map) : Canonical (Package.mirror map) ∧
    (∀ m k, k ∈ find (Package.mirror map) m ↔ m ∈ find map k) ∧
    ∀ q, q ∈ keys (Package.mirror map) ↔ q ∈ keys map ∨ ∃ k, q ∈ find map k := by
  have hinner : ∀ (entry : ℕ × List ℕ) (vs : List ℕ) {acc : StableEdgeMap}, Canonical acc →
      Canonical (vs.foldl (fun acc v => insertAll acc v [entry.1]) acc) ∧
      (∀ m k, k ∈ find (vs.foldl (fun acc v => insertAll acc v [entry.1]) acc) m ↔
        k ∈ find acc m ∨ (m ∈ vs ∧ k = entry.1)) ∧
      ∀ q, q ∈ keys (vs.foldl (fun acc v => insertAll acc v [entry.1]) acc) ↔
        q ∈ vs ∨ q ∈ keys acc := by
    intro entry vs acc hacc
    refine ⟨canonical_foldl_insertAll hacc vs _, fun m k => ?_, fun q => ?_⟩
    · rw [mem_find_foldl_insertAll hacc, List.mem_singleton]
    · exact mem_keys_foldl_insertAll vs _
  have hall : ∀ (entries : StableEdgeMap) {acc : StableEdgeMap}, Canonical acc →
      Canonical (entries.foldl (fun acc entry =>
        entry.2.foldl (fun acc v => insertAll acc v [entry.1]) (insertAll acc entry.1 [])) acc) ∧
      (∀ m k, k ∈ find (entries.foldl (fun acc entry =>
        entry.2.foldl (fun acc v => insertAll acc v [entry.1]) (insertAll acc entry.1 [])) acc) m ↔
        k ∈ find acc m ∨ ∃ entry ∈ entries, m ∈ entry.2 ∧ k = entry.1) ∧
      ∀ q, q ∈ keys (entries.foldl (fun acc entry =>
        entry.2.foldl (fun acc v => insertAll acc v [entry.1]) (insertAll acc entry.1 [])) acc) ↔
        q ∈ keys acc ∨ ∃ entry ∈ entries, q = entry.1 ∨ q ∈ entry.2 := by
    intro entries
    induction entries with
    | nil =>
      intro acc hacc
      exact ⟨hacc, by simp, by simp⟩
    | cons entry entries ih =>
      intro acc hacc
      have hacc' := hacc.insertAll entry.1 []
      obtain ⟨h₁, h₂, h₃⟩ := hinner entry entry.2 hacc'
      obtain ⟨h₁', h₂', h₃'⟩ := ih h₁
      refine ⟨h₁', fun m k => ?_, fun q => ?_⟩
      · rw [List.foldl_cons, h₂', h₂, mem_find_insertAll hacc, List.exists_mem_cons_iff]
        simp only [List.not_mem_nil, and_false, or_false, or_assoc]
      · rw [List.foldl_cons, h₃', h₃, mem_keys_insertAll, List.exists_mem_cons_iff]
        constructor
        · rintro ((hq | hq | hq) | hq)
          · exact .inr (.inl (.inr hq))
          · exact .inr (.inl (.inl hq))
          · exact .inl hq
          · exact .inr (.inr hq)
        · rintro (hq | (hq | hq) | hq)
          · exact .inl (.inr (.inr hq))
          · exact .inl (.inr (.inl hq))
          · exact .inl (.inl hq)
          · exact .inr hq
  obtain ⟨h₁, h₂, h₃⟩ := hall map Canonical.nil
  have hentry : ∀ m k, (∃ entry ∈ map, m ∈ entry.2 ∧ k = entry.1) ↔ m ∈ find map k := by
    intro m k
    constructor
    · rintro ⟨⟨k', vs⟩, hmem, hm, rfl⟩
      rwa [hmap.find_eq hmem]
    · intro hm
      exact ⟨(k, find map k), hmap.mem_of_mem_keys (mem_keys_of_mem_find hm), hm, rfl⟩
  refine ⟨h₁, fun m k => ?_, fun q => ?_⟩
  · show k ∈ find (map.foldl _ []) m ↔ _
    rw [h₂, hentry]
    simp [find]
  · show q ∈ keys (map.foldl _ []) ↔ _
    rw [h₃]
    constructor
    · rintro (hq | ⟨⟨k, vs⟩, hmem, rfl | hq⟩)
      · cases hq
      · exact .inl (mem_keys.mpr ⟨vs, hmem⟩)
      · exact .inr ⟨k, by rwa [hmap.find_eq hmem]⟩
    · rintro (hq | ⟨k, hq⟩)
      · obtain ⟨vs, hmem⟩ := mem_keys.mp hq
        exact .inr ⟨(q, vs), hmem, .inl rfl⟩
      · exact .inr ⟨(k, find map k), hmap.mem_of_mem_keys (mem_keys_of_mem_find hq), .inr hq⟩

/-! ## The whole graph -/

/-- The maps hold the edges of the connectivity graph, both ways. -/
structure Represents (p : Package) (graph : InterProcConnectivityGraph) : Prop where
  predecessors : Canonical graph.predecessorEdges
  successors : Canonical graph.successorEdges
  mem_predecessorKeys : ∀ k, k ∈ keys graph.predecessorEdges ↔
    (p.internalChannel k).isSome = true
  mem_successorKeys : ∀ k, k ∈ keys graph.successorEdges ↔ (p.internalChannel k).isSome = true
  mem_predecessors : ∀ k m, m ∈ find graph.predecessorEdges k ↔ p.Connected m k
  mem_successors : ∀ m k, k ∈ find graph.successorEdges m ↔ p.Connected m k

theorem find_filter (f : ℕ → Bool) (q : ℕ) :
    find (map.filter fun entry => f entry.1) q = if f q then find map q else [] := by
  induction map with
  | nil => simp [find]
  | cons entry map ih =>
    obtain ⟨k, vs⟩ := entry
    rw [List.filter_cons]
    by_cases hkq : k = q
    · subst hkq
      by_cases hf : f k = true
      · simp [hf, find]
      · simp only [hf] at ih ⊢
        exact ih
    · split
      · rw [find, find, if_neg hkq, if_neg hkq, ih]
      · rw [find, if_neg hkq, ih]

theorem mem_keys_filter (f : ℕ → Bool) (q : ℕ) :
    q ∈ keys (map.filter fun entry => f entry.1) ↔ q ∈ keys map ∧ f q = true := by
  rw [mem_keys, mem_keys]
  constructor
  · rintro ⟨vs, hmem⟩
    obtain ⟨hmem, hf⟩ := List.mem_filter.mp hmem
    exact ⟨⟨vs, hmem⟩, hf⟩
  · rintro ⟨⟨vs, hmem⟩, hf⟩
    exact ⟨vs, List.mem_filter.mpr ⟨hmem, hf⟩⟩

theorem opOf_eq_iff (h : p.Verified) {op : Op} :
    p.opOf k = some op ↔ ∃ node ∈ p.nodes, k = node.id ∧ node.op = op := by
  rw [Package.opOf]
  constructor
  · intro hop
    obtain ⟨node, hnode, rfl⟩ := Option.map_eq_some_iff.mp hop
    obtain ⟨hmem, rfl⟩ := mem_of_node? hnode
    exact ⟨node, hmem, rfl, rfl⟩
  · rintro ⟨node, hmem, rfl, rfl⟩
    rw [node?_of_mem h hmem]
    rfl

theorem internalChannel_eq_some {c : ℕ} :
    p.internalChannel k = some c ↔ p.channels c = some .sendReceive ∧
      (p.opOf k = some (.send c) ∨ p.opOf k = some (.receive c)) := by
  rcases hnode : p.node? k with _ | node
  · simp [Package.internalChannel, Package.opOf, hnode]
  · rw [Package.internalChannel, Package.opOf, hnode, Option.bind_some,
      getInternalChannelId_eq_some, Option.map_some]
    rcases node.op with c' | c' | _
    · simp [Op.channelId, and_comm]
    · simp [Op.channelId, and_comm]
    · simp [Op.channelId]

/-- The graph of a verified package. -/
theorem exists_makeInterProcConnectivityGraph (h : p.Verified) :
    ∃ graph, p.makeInterProcConnectivityGraph = some graph ∧ Represents p graph := by
  have hb := built_visitFunctionBases h
  set b := p.visitFunctionBases with hbdef
  have hsendKeys : ∀ c, c ∈ keys b.channelIdToInternalSend ↔ p.channels c = some .sendReceive := by
    intro c
    rw [hb.sends.mem_keys]
    constructor
    · rintro ⟨-, -, -, hc⟩
      exact hc
    · intro hc
      obtain ⟨node, hmem, hop⟩ := h.sends c hc
      exact ⟨node, hmem, hop, hc⟩
  have hreceiveKeys : ∀ c, c ∈ keys b.channelIdToInternalReceive ↔
      p.channels c = some .sendReceive := by
    intro c
    rw [hb.receives.mem_keys]
    constructor
    · rintro ⟨-, -, -, hc⟩
      exact hc
    · intro hc
      obtain ⟨node, hmem, hop⟩ := h.receives c hc
      exact ⟨node, hmem, hop, hc⟩
  have hlength : b.channelIdToInternalSend.length = b.channelIdToInternalReceive.length := by
    have hperm : (keys b.channelIdToInternalSend).Perm (keys b.channelIdToInternalReceive) :=
      (List.perm_ext_iff_of_nodup hb.sends.canonical.keys_nodup
        hb.receives.canonical.keys_nodup).mpr fun c => by rw [hsendKeys, hreceiveKeys]
    have := hperm.length_eq
    rwa [keys, keys, List.length_map, List.length_map] at this
  obtain ⟨edges, hedges, hcanonical, hfind, hkept⟩ :=
    exists_foldlM_connectChannel b.channelIdToInternalSend hb.canonical fun entry hentry => by
      rw [hreceiveKeys, ← hsendKeys]
      exact mem_keys.mpr ⟨entry.2, hentry⟩
  -- the edges into a node
  have hmem : ∀ k m, m ∈ find edges k ↔ p.Flows m k ∨ ∃ c, p.SendReceive c m k := by
    intro k m
    rw [hfind, hb.mem_find, ← flows_iff h]
    refine or_congr Iff.rfl ?_
    constructor
    · rintro ⟨⟨c, vs⟩, hentry, hm, hk⟩
      rw [← hb.sends.canonical.find_eq hentry, hb.sends.mem_find] at hm
      rw [hb.receives.mem_find] at hk
      obtain ⟨node, hnode, hid, hop, hc⟩ := hm
      obtain ⟨node', hnode', hid', hop', -⟩ := hk
      exact ⟨c, hc, (opOf_eq_iff h).mpr ⟨node, hnode, hid, hop⟩,
        (opOf_eq_iff h).mpr ⟨node', hnode', hid', hop'⟩⟩
    · rintro ⟨c, hc, hm, hk⟩
      obtain ⟨node, hnode, hid, hop⟩ := (opOf_eq_iff h).mp hm
      obtain ⟨node', hnode', hid', hop'⟩ := (opOf_eq_iff h).mp hk
      exact ⟨(c, find b.channelIdToInternalSend c),
        hb.sends.canonical.mem_of_mem_keys ((hsendKeys c).mpr hc),
        (hb.sends.mem_find c m).mpr ⟨node, hnode, hid, hop, hc⟩,
        (hb.receives.mem_find c k).mpr ⟨node', hnode', hid', hop', hc⟩⟩
  have hpred := hcanonical.filter fun entry => (p.internalChannel entry.1).isSome
  have hpredMem : ∀ k m, m ∈ find (edges.filter fun entry =>
      (p.internalChannel entry.1).isSome) k ↔ p.Connected m k := by
    intro k m
    rw [find_filter (fun id => (p.internalChannel id).isSome)]
    split
    · rename_i hk
      rw [hmem, Package.Connected, hk]
      simp
    · rename_i hk
      simp [Package.Connected, hk]
  have hpredKeys : ∀ k, k ∈ keys (edges.filter fun entry =>
      (p.internalChannel entry.1).isSome) ↔ (p.internalChannel k).isSome = true := by
    intro k
    rw [mem_keys_filter (fun id => (p.internalChannel id).isSome)]
    refine ⟨And.right, fun hk => ⟨hkept k (hb.mem_keys k ?_), hk⟩⟩
    -- a channel operation has an operand
    obtain ⟨c, hc⟩ := Option.isSome_iff_exists.mp hk
    obtain ⟨node, hnode, hinternal⟩ := Option.bind_eq_some_iff.mp hc
    obtain ⟨hmemk, rfl⟩ := mem_of_node? hnode
    have hne := h.token node hmemk (by rw [(getInternalChannelId_eq_some.mp hinternal).1]; simp)
    obtain ⟨operand, hoperand⟩ := List.exists_mem_of_ne_nil _ hne
    obtain ⟨fb, hfb, hmemfb⟩ := List.mem_flatten.mp hmemk
    obtain ⟨l₁, l₂, hsplit⟩ := List.append_of_mem hmemfb
    obtain ⟨child, hchild, hid⟩ := h.operands fb hfb l₁ node l₂ hsplit operand hoperand
    refine ⟨child, List.mem_flatten.mpr ⟨fb, hfb, ?_⟩, ?_⟩
    · rw [hsplit]
      exact List.mem_append_left _ hchild
    · rw [operandsOf_eq h hmemk, hid]
      exact hoperand
  obtain ⟨hsucc, hsuccMem, hsuccKeys⟩ := mirror_spec hpred
  refine ⟨⟨edges.filter fun entry => (p.internalChannel entry.1).isSome,
    Package.mirror (edges.filter fun entry => (p.internalChannel entry.1).isSome)⟩, ?_,
    ⟨hpred, hsucc, hpredKeys, fun k => ?_, hpredMem, fun m k => ?_⟩⟩
  · rw [Package.makeInterProcConnectivityGraph]
    simp only [← hbdef, ne_eq, hlength, hedges]
    rfl
  · rw [hsuccKeys, hpredKeys]
    refine ⟨?_, .inl⟩
    rintro (hk | ⟨k', hk⟩)
    · exact hk
    · rw [hpredMem] at hk
      rcases hk.2 with hflows | ⟨c, hc, hsend, -⟩
      · exact hflows.isSome
      · rw [internalChannel_eq_some.mpr ⟨hc, .inl hsend⟩]
        rfl
  · rw [hsuccMem, hpredMem]

end FeedbackChannels
end Xls
