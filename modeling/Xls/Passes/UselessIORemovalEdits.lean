/-
# The edits of the removal of sends and receives

A send whose predicate is a literal zero becomes its token, a receive a tuple of its token and a zero,
and the predicate goes from one whose predicate is a literal one.

* `Verified` : what the verifier checks of a proc;
* `edit_send`, `edit_receive`, `edit_unpredicated` : the three edits;
* `not_replaceNode_receive` : a receive that does not block has another type than the tuple.
-/
import Xls.Passes.UselessIORemoval

namespace Xls.UselessIORemoval

variable {α : Type} {channels : List Channel} {P P' P₁ : Proc α} {slot : ℕ → ℕ}
  {e : Environment α} {val : ℕ → Value} {i j k : ℕ} {d : NodeData α} {n : Vertex (NodeData α)}
  {op : Op α} {t : Ty} {operands : List ℕ}

/-! ## Verified procs -/

/-- The checks of `HandleSend` and `HandleReceive`, on the types of the operands. -/
def CheckedNode (channels : List Channel) (type : ℕ → Option Ty) (d : NodeData α)
    (operands : List ℕ) : Prop :=
  match d.op with
  | .send id =>
    (∃ channel, channels.find? (fun channel => channel.id == id) = some channel) ∧
      d.type = .token ∧ ∃ token data, type token = some .token ∧
        (operands = [token, data] ∨
          ∃ predicate, operands = [token, data, predicate] ∧ type predicate = some (.bits 1))
  | .receive id isBlocking =>
    ∃ channel, channels.find? (fun channel => channel.id == id) = some channel ∧
      d.type = receiveType channel.type isBlocking ∧ ∃ token, type token = some .token ∧
        (operands = [token] ∨
          ∃ predicate, operands = [token, predicate] ∧ type predicate = some (.bits 1))
  | _ => True

/-- What the verifier checks of a proc, as far as the pass relies on it. -/
structure Proc.Verified (channels : List Channel) (P : Proc α) : Prop where
  bounded : P.Bounded
  acyclic : P.nodes.IsAcyclic
  node : ∀ k n, P.nodes.vertex k = some n → CheckedNode channels P.type n.label n.operands

/-- Only the types of the operands matter. -/
theorem CheckedNode.map {type type' : ℕ → Option Ty} {f : ℕ → ℕ}
    (h : CheckedNode channels type d operands) (htype : ∀ o ∈ operands, type' (f o) = type o) :
    CheckedNode channels type' d (operands.map f) := by
  rw [CheckedNode] at h ⊢
  rcases hop : d.op with id | ⟨id, isBlocking⟩ | value | - | op <;> rw [hop] at h
  · obtain ⟨hchannel, hd, token, data, htoken, rfl | ⟨predicate, rfl, hpredicate⟩⟩ := h
    · refine ⟨hchannel, hd, f token, f data, ?_, Or.inl rfl⟩
      rw [htype token (by simp), htoken]
    · refine ⟨hchannel, hd, f token, f data, ?_, Or.inr ⟨f predicate, rfl, ?_⟩⟩
      · rw [htype token (by simp), htoken]
      · rw [htype predicate (by simp), hpredicate]
  · obtain ⟨channel, hchannel, hd, token, htoken, rfl | ⟨predicate, rfl, hpredicate⟩⟩ := h
    · refine ⟨channel, hchannel, hd, f token, ?_, Or.inl rfl⟩
      rw [htype token (by simp), htoken]
    · refine ⟨channel, hchannel, hd, f token, ?_, Or.inr ⟨f predicate, rfl, ?_⟩⟩
      · rw [htype token (by simp), htoken]
      · rw [htype predicate (by simp), hpredicate]
  all_goals trivial

namespace Proc

theorem type_eq_of_vertex (h : P.nodes.vertex i = some n) : P.type i = some n.label.type := by
  rw [type, h, Option.map_some]

theorem lt_length_of_type (h : P.type i = some t) : i < P.nodes.length := by
  rw [type, Option.map_eq_some_iff] at h
  obtain ⟨n, hn, -⟩ := h
  exact TermGraph.lt_length_of_vertex hn

theorem type_makeNode_of_lt (h : k < P.nodes.length) : (P.makeNode op t operands).type k =
    P.type k := by
  rw [type, type, makeNode, TermGraph.vertex_make_of_ne h.ne]

theorem type_makeNode_length : (P.makeNode op t operands).type P.nodes.length = some t := by
  rw [type, makeNode, TermGraph.vertex_make_length, Option.map_some]

theorem type_replaced (hk : k ≠ i) : (P.replaced i j).type k = P.type k := by
  rw [type, replaced, TermGraph.vertex_replaceVertex_of_ne hk, Option.map_map]
  rfl

/-- Operands keep their types. -/
theorem type_redirect (hij : i ≠ j) (htype : P.type i = P.type j) :
    (P.replaced i j).type (TermGraph.redirect i j k) = P.type k := by
  rw [TermGraph.redirect]
  split_ifs with hk
  · rw [type_replaced hij.symm, hk, htype]
  · exact type_replaced hk

/-! ## Replacement -/

theorem replaceNode_eq_some (hij : i ≠ j) (htype : P.type i = P.type j) :
    P.replaceNode i j = some (P.replaced i j) := by
  have hredirect : ∀ k, TermGraph.redirect i j k ≠ i := by
    intro k
    rw [TermGraph.redirect]
    split_ifs with hk
    · exact hij.symm
    · exact hk
  have huses : (P.nodes.replaceUses i j).hasUsers i = false := by
    rw [Bool.eq_false_iff]
    intro h
    exact TermGraph.not_uses_replaceUses hij (TermGraph.hasUsers_iff.mp h)
  rw [replaceNode, replaceUsesWith, if_pos htype, Option.bind_some, removeNode, if_pos]
  · rfl
  · refine ⟨huses, hredirect _, ?_⟩
    intro hmem
    obtain ⟨k, -, hk⟩ := List.mem_map.mp hmem
    exact hredirect k hk

theorem replaceNode_eq_none (htype : P.type i ≠ P.type j) : P.replaceNode i j = none := by
  rw [replaceNode, replaceUsesWith, if_neg htype]
  rfl

theorem Bounded.makeNode (h : P.Bounded) (hoperands : ∀ o ∈ operands, o < P.nodes.length) :
    (P.makeNode op t operands).Bounded := by
  have hlength : (P.makeNode op t operands).nodes.length = P.nodes.length + 1 :=
    TermGraph.length_make
  refine ⟨h.nodes.make hoperands, ?_, ?_⟩
  · rw [hlength]
    exact Nat.lt_succ_of_lt h.nextToken
  · intro next hnext
    rw [hlength]
    exact Nat.lt_succ_of_lt (h.nextState next hnext)

theorem Bounded.replaced (h : P.Bounded) (hj : j < P.nodes.length) : (P.replaced i j).Bounded := by
  have hlength : (P.replaced i j).nodes.length = P.nodes.length :=
    TermGraph.length_replaceVertex
  refine ⟨h.nodes.replaceVertex hj, ?_, ?_⟩
  · rw [hlength]
    exact TermGraph.redirect_lt hj h.nextToken
  · intro next hnext
    obtain ⟨k, hk, rfl⟩ := List.mem_map.mp hnext
    rw [hlength]
    exact TermGraph.redirect_lt hj (h.nextState k hk)

end Proc

/-- The checks of the nodes which were there, and of a new one. -/
theorem checkedNode_makeNode (hbounded : P.Bounded)
    (h : ∀ k n, P.nodes.vertex k = some n → CheckedNode channels P.type n.label n.operands)
    (hoperands : ∀ o ∈ operands, o < P.nodes.length)
    (hnew : CheckedNode channels P.type ⟨op, t⟩ operands) :
    ∀ k n, (P.makeNode op t operands).nodes.vertex k = some n →
      CheckedNode channels (P.makeNode op t operands).type n.label n.operands := by
  have hsame : ∀ (d : NodeData α) (os : List ℕ), CheckedNode channels P.type d os →
      (∀ o ∈ os, o < P.nodes.length) → CheckedNode channels (P.makeNode op t operands).type d os := by
    intro d os hd hos
    have htype : ∀ o ∈ os, (P.makeNode op t operands).type (id o) = P.type o := by
      intro o ho
      exact Proc.type_makeNode_of_lt (hos o ho)
    have hmap := hd.map htype
    rwa [List.map_id] at hmap
  intro k n hn
  by_cases hk : k = P.nodes.length
  · rw [hk, Proc.makeNode, TermGraph.vertex_make_length, Option.some.injEq] at hn
    rw [← hn]
    exact hsame _ _ hnew hoperands
  · rw [Proc.makeNode, TermGraph.vertex_make_of_ne hk] at hn
    exact hsame _ _ (h k n hn) (hbounded.nodes k n hn)

/-- A proc with a node in the place of another one of the same type, which has no greater rank. -/
theorem verified_replaced {rank : ℕ → ℕ} (hbounded : P.Bounded) (hrank : P.nodes.Ranks rank)
    (h : ∀ k n, P.nodes.vertex k = some n → CheckedNode channels P.type n.label n.operands)
    (hij : i ≠ j) (htype : P.type i = P.type j) (hj : j < P.nodes.length)
    (hle : rank j ≤ rank i) : (P.replaced i j).Verified channels := by
  refine ⟨hbounded.replaced hj, ⟨rank, hrank.replaceVertex hle⟩, ?_⟩
  intro k n hn
  have hk := TermGraph.ne_of_vertex_replaceVertex hn
  rw [Proc.replaced, TermGraph.vertex_replaceVertex_of_ne hk, Option.map_eq_some_iff] at hn
  obtain ⟨m, hm, rfl⟩ := hn
  exact (h k m hm).map fun o _ => Proc.type_redirect hij htype

/-! ## Literals -/

theorem literalBits_eq_some {b : Bits} (h : P.literalBits k = some b) :
    ∃ t os, P.nodes.vertex k = some ⟨⟨.literal (.bits b), t⟩, os⟩ := by
  obtain ⟨⟨⟨op, t⟩, os⟩, hn, hb⟩ := Option.bind_eq_some_iff.mp h
  split at hb
  next hop =>
    cases hb
    exact ⟨t, os, by rw [hn, show op = _ from hop]⟩
  next => cases hb

/-- A literal has its value. -/
theorem val_of_literalBits {b : Bits} (h : P.literalBits k = some b)
    (hval : P.Activation e val) : val k = .bits b := by
  obtain ⟨t, os, hn⟩ := literalBits_eq_some h
  have hk := (Option.filter_eq_some_iff.mp (hval k _ hn)).1
  exact (Option.some.inj hk).symm

/-- A token operand has one value. -/
theorem val_of_token (h : P.type k = some .token) (hval : P.Activation e val) : val k = .token := by
  rw [Proc.type, Option.map_eq_some_iff] at h
  obtain ⟨n, hn, ht⟩ := h
  have hk := (Option.filter_eq_some_iff.mp (hval k n hn)).2
  rw [ht] at hk
  exact Value.eq_token_of_conformsToType hk

theorem isActive_of_isLiteralZero (h : P.isLiteralZero k = true) (hval : P.Activation e val) :
    isActive (some (val k)) = some false := by
  rw [Proc.isLiteralZero] at h
  rcases hb : P.literalBits k with - | b <;> rw [hb] at h
  · cases h
  · rw [val_of_literalBits hb hval]
    have hone : b.isOne = false := by
      rw [Bits.isOne, beq_iff_eq.mp h]
      rfl
    exact congrArg some hone

theorem isActive_of_isLiteralUnsignedOne (h : P.isLiteralUnsignedOne k = true)
    (hval : P.Activation e val) : isActive (some (val k)) = some true := by
  rw [Proc.isLiteralUnsignedOne] at h
  rcases hb : P.literalBits k with - | b <;> rw [hb] at h
  · cases h
  · rw [val_of_literalBits hb hval]
    exact congrArg some h

theorem literalBits_replaced (hk : k ≠ i) : (P.replaced i j).literalBits k = P.literalBits k := by
  rw [Proc.literalBits, Proc.literalBits, Proc.replaced, TermGraph.vertex_replaceVertex_of_ne hk]
  rcases P.nodes.vertex k with - | n <;> rfl

theorem literalBits_makeNode (hk : k < P.nodes.length) :
    (P.makeNode op t operands).literalBits k = P.literalBits k := by
  rw [Proc.literalBits, Proc.literalBits, Proc.makeNode, TermGraph.vertex_make_of_ne hk.ne]

theorem predicate_replaced (hk : k ≠ i) :
    (P.replaced i j).predicate k = (P.predicate k).map (TermGraph.redirect i j) := by
  rw [Proc.predicate, Proc.predicate, Proc.replaced, TermGraph.vertex_replaceVertex_of_ne hk]
  rcases P.nodes.vertex k with - | ⟨⟨op, t⟩, os⟩
  · rfl
  · cases op with
    | send id => exact List.getElem?_map
    | receive id isBlocking => exact List.getElem?_map
    | literal value => rfl
    | tuple => rfl
    | other op => rfl

/-- A predicate has one bit. -/
theorem Proc.Verified.type_predicate (h : P.Verified channels) {predicate : ℕ}
    (hk : P.predicate k = some predicate) : P.type predicate = some (.bits 1) := by
  obtain ⟨⟨⟨op, t⟩, os⟩, hn, hp⟩ := Option.bind_eq_some_iff.mp hk
  have hnode := h.node k _ hn
  cases op with
  | send id =>
    obtain ⟨-, -, token, data, -, rfl | ⟨p, rfl, hbits⟩⟩ := hnode
    · cases hp
    · cases hp
      exact hbits
  | receive id isBlocking =>
    obtain ⟨channel, -, -, token, -, rfl | ⟨p, rfl, hbits⟩⟩ := hnode
    · cases hp
    · cases hp
      exact hbits
  | literal value => cases hp
  | tuple => cases hp
  | other op => cases hp

/-- A send or a receive has no type of bits. -/
theorem Proc.Verified.type_channelUse (h : P.Verified channels)
    (hi : (P.channelUse i).isSome = true) : P.type i ≠ some (.bits 1) := by
  obtain ⟨u, hu⟩ := Option.isSome_iff_exists.mp hi
  obtain ⟨⟨⟨op, t⟩, os⟩, hn, hu⟩ := Option.bind_eq_some_iff.mp hu
  have hnode := h.node i _ hn
  rw [Proc.type_eq_of_vertex hn]
  cases op with
  | send id =>
    obtain ⟨-, ht, -⟩ := hnode
    rw [ht]
    nofun
  | receive id isBlocking =>
    obtain ⟨channel, -, ht, -⟩ := hnode
    rw [ht]
    cases isBlocking <;> nofun
  | literal value => cases hu
  | tuple => cases hu
  | other op => cases hu

/-! ## Edits -/

/-- A proc after the visit of a node: it does what it did, and the other sends and receives are as
they were. -/
structure Edit (channels : List Channel) (P P' : Proc α) (slot : ℕ → ℕ) (i : ℕ) : Prop where
  sameIO : SameIO P P' slot
  verified : P'.Verified channels
  channelUse : ∀ k < P.nodes.length, k ≠ i → P'.channelUse k = P.channelUse k
  hasZeroPredicate : ∀ k < P.nodes.length, k ≠ i → P'.hasZeroPredicate k = P.hasZeroPredicate k

/-- The other predicates are still what they were. -/
theorem Prepares.edit (h : Prepares P P₁ slot i) (hP : P.Verified channels)
    (hi : (P.channelUse i).isSome = true) (hverified : (P₁.replaced i j).Verified channels)
    (hsame : SameIO P (P₁.replaced i j) slot) : Edit channels P (P₁.replaced i j) slot i := by
  refine ⟨hsame, hverified, ?_, ?_⟩
  · intro k hk hki
    rw [channelUse_replaced hki, Proc.channelUse, Proc.channelUse, h.vertex k hk]
  · intro k hk hki
    have hpredicate : P₁.predicate k = P.predicate k := by
      rw [Proc.predicate, Proc.predicate, h.vertex k hk]
    rw [Proc.hasZeroPredicate, Proc.hasZeroPredicate, predicate_replaced hki, hpredicate]
    rcases hp : P.predicate k with - | p
    · rfl
    · have htype := hP.type_predicate hp
      have hpi : p ≠ i := by
        rintro rfl
        exact hP.type_channelUse hi htype
      change (P₁.replaced i j).isLiteralZero (TermGraph.redirect i j p) = P.isLiteralZero p
      rw [TermGraph.redirect, if_neg hpi, Proc.isLiteralZero, Proc.isLiteralZero,
        literalBits_replaced hpi, Proc.literalBits, Proc.literalBits,
        h.vertex p (Proc.lt_length_of_type htype)]

/-- Without a fresh send or receive nothing is performed by a fresh node. -/
theorem Prepares.not_performed (hfresh : ∀ k, P.nodes.length ≤ k → P₁.channelUse k = none)
    (hnone : P.performed e val i = none) (a : Action) : P.performed e val i = some a ↔
      ∃ k, P.nodes.length ≤ k ∧ slot k = i ∧ P₁.performed (e.along slot) val k = some a := by
  rw [hnone]
  constructor
  · nofun
  · rintro ⟨k, hk, -, ha⟩
    have huse := channelUse_of_performed ha
    rw [hfresh k hk] at huse
    cases huse

/-- Before a node is replaced by one of the proc. -/
theorem Prepares.refl (P : Proc α) (i : ℕ) : Prepares P P id i := by
  have hnone : ∀ k, P.nodes.length ≤ k → P.channelUse k = none := by
    intro k hk
    by_contra h
    exact absurd (lt_length_of_channelUse (Option.isSome_iff_ne_none.mpr h)) (Nat.not_lt.mpr hk)
  refine ⟨Nat.le_refl _, fun _ _ => rfl, rfl, rfl, fun _ _ => rfl, ?_, ?_⟩
  · intro k u hk hu
    rw [hnone k hk] at hu
    cases hu
  · intro k l hk _ h
    rw [hnone k hk] at h
    cases h

/-! ### A send which does nothing -/

section Send

variable {channelId : ℤ} {token data predicate : ℕ}

theorem Proc.Verified.of_send (h : P.Verified channels)
    (hn : P.nodes.vertex i = some ⟨⟨.send channelId, t⟩, [token, data, predicate]⟩) :
    t = .token ∧ P.type token = some .token ∧ P.type predicate = some (.bits 1) := by
  obtain ⟨-, ht, token', data', htoken, hos | ⟨predicate', hos, hpredicate⟩⟩ := h.node i _ hn
  · cases hos
  · cases hos
    exact ⟨ht, htoken, hpredicate⟩

theorem sem_send (d : Value) {tok p : Value} (h : (isActive (some p)).isSome = true) :
    sem e i ⟨.send channelId, .token⟩ [tok, d, p] = some .token := by
  obtain ⟨b, hb⟩ := Option.isSome_iff_exists.mp h
  change Option.filter _ ((isActive (some p)).map _) = _
  rw [hb]
  rfl

/-- A send with a literal zero becomes its token. -/
theorem edit_send (hP : P.Verified channels)
    (hn : P.nodes.vertex i = some ⟨⟨.send channelId, t⟩, [token, data, predicate]⟩)
    (hzero : P.isLiteralZero predicate = true) :
    P.replaceNode i token = some (P.replaced i token) ∧
      Edit channels P (P.replaced i token) id i := by
  obtain ⟨rfl, htoken, hpredicate⟩ := hP.of_send hn
  have huse : (P.channelUse i).isSome = true := by
    rw [Proc.channelUse, hn]
    rfl
  have htype : P.type i = P.type token := by
    rw [Proc.type_eq_of_vertex hn, htoken]
  obtain ⟨rank, hrank⟩ := hP.acyclic
  have hlt : rank token < rank i := hrank.lt ⟨_, hn, by simp⟩
  have hij : i ≠ token := by
    rintro rfl
    exact Nat.lt_irrefl _ hlt
  have hpi : predicate ≠ i := by
    rintro rfl
    rw [Proc.type_eq_of_vertex hn] at hpredicate
    cases hpredicate
  have hprepares := Prepares.refl P i
  refine ⟨Proc.replaceNode_eq_some hij htype, hprepares.edit hP huse ?_ ?_⟩
  · exact verified_replaced hP.bounded hrank hP.node hij htype (Proc.lt_length_of_type htoken) hlt.le
  · apply hprepares.sameIO hP.bounded hn (hrank.not_mem_operands hn) hij
    · intro e val hval
      refine ⟨val, hval, fun _ _ => rfl, ?_⟩
      rw [val_of_token htoken hval, val_of_token (by rw [htype, htoken]) hval]
    · intro e val' hval'
      have hzero' : (P.replaced i token).isLiteralZero predicate = true := by
        rw [Proc.isLiteralZero, literalBits_replaced hpi]
        exact hzero
      have htoken' : (P.replaced i token).type token = some .token := by
        rw [Proc.type_replaced hij.symm, htoken]
      rw [val_of_token htoken' hval']
      apply sem_send
      rw [isActive_of_isLiteralZero hzero' hval']
      rfl
    · intro e val hval
      apply Prepares.not_performed
      · intro k hk
        by_contra h
        exact absurd (lt_length_of_channelUse (Option.isSome_iff_ne_none.mpr h)) (Nat.not_lt.mpr hk)
      · have hactive := isActive_of_isLiteralZero hzero hval
        rw [Proc.performed, hn, Option.bind_some]
        apply if_neg
        change ¬ isActive (some (val predicate)) = some true
        rw [hactive]
        decide

end Send

/-! ### A receive which does nothing -/

section Receive

variable {channelId : ℤ} {isBlocking : Bool} {token predicate : ℕ}

theorem Proc.Verified.of_receive (h : P.Verified channels)
    (hn : P.nodes.vertex i = some ⟨⟨.receive channelId isBlocking, t⟩, [token, predicate]⟩) :
    (∃ channel, channels.find? (fun channel => channel.id == channelId) = some channel ∧
      t = receiveType channel.type isBlocking) ∧
      P.type token = some .token ∧ P.type predicate = some (.bits 1) := by
  obtain ⟨channel, hchannel, ht, token', htoken, hos | ⟨predicate', hos, hpredicate⟩⟩ :=
    h.node i _ hn
  · cases hos
  · cases hos
    exact ⟨⟨channel, hchannel, ht⟩, htoken, hpredicate⟩

/-- A receive which does nothing has the zero of its type. -/
theorem sem_receive_inactive {type : Ty} {tok p : Value} (h : isActive (some p) = some false) :
    sem e i ⟨.receive channelId isBlocking, type⟩ [tok, p] = some (Value.zeroOfType type) := by
  have heval : evalNode e i ⟨.receive channelId isBlocking, type⟩ [tok, p] =
      some (Value.zeroOfType type) := by
    change Ir.evalReceive true isBlocking type _ [tok, p] = _
    have hpredicate : Ir.predicate true [tok, p][1]? = some false := h
    rw [Ir.evalReceive.eq_def, hpredicate]
  rw [sem, heval, Option.filter_some, if_pos (Value.conformsToType_zeroOfType type)]

variable {type : Ty}

theorem vertex_makeUnreceived_of_lt (hk : k < P.nodes.length) :
    (State.makeUnreceived P type token).nodes.vertex k = P.nodes.vertex k := by
  rw [State.makeUnreceived, Proc.makeNode, Proc.makeNode, TermGraph.vertex_make_of_ne,
    TermGraph.vertex_make_of_ne hk.ne]
  rw [TermGraph.length_make]
  omega

theorem vertex_makeUnreceived_zero : (State.makeUnreceived P type token).nodes.vertex
    P.nodes.length = some ⟨⟨.literal (Value.zeroOfType type), type⟩, []⟩ := by
  rw [State.makeUnreceived, Proc.makeNode, Proc.makeNode, TermGraph.vertex_make_of_ne,
    TermGraph.vertex_make_length]
  rw [TermGraph.length_make]
  omega

theorem vertex_makeUnreceived_tuple : (State.makeUnreceived P type token).nodes.vertex
    (P.nodes.length + 1) = some ⟨⟨.tuple, .tuple [.token, type]⟩, [token, P.nodes.length]⟩ := by
  have hlength : (P.makeNode (.literal (Value.zeroOfType type)) type []).nodes.length =
      P.nodes.length + 1 := TermGraph.length_make
  rw [← hlength, State.makeUnreceived, Proc.makeNode, TermGraph.vertex_make_length]

theorem length_makeUnreceived :
    (State.makeUnreceived P type token).nodes.length = P.nodes.length + 2 := by
  rw [State.makeUnreceived, Proc.makeNode, Proc.makeNode, TermGraph.length_make,
    TermGraph.length_make]

theorem channelUse_makeUnreceived (hk : P.nodes.length ≤ k) :
    (State.makeUnreceived P type token).channelUse k = none := by
  by_contra h
  have hlt := lt_length_of_channelUse (Option.isSome_iff_ne_none.mpr h)
  rw [length_makeUnreceived] at hlt
  obtain rfl | rfl : k = P.nodes.length ∨ k = P.nodes.length + 1 := by omega
  · rw [Proc.channelUse, vertex_makeUnreceived_zero] at h
    exact h rfl
  · rw [Proc.channelUse, vertex_makeUnreceived_tuple] at h
    exact h rfl

theorem prepares_makeUnreceived : Prepares P (State.makeUnreceived P type token) id i := by
  refine ⟨?_, fun k hk => vertex_makeUnreceived_of_lt hk, rfl, rfl, fun _ _ => rfl, ?_, ?_⟩
  · rw [length_makeUnreceived]
    omega
  · intro k u hk hu
    rw [channelUse_makeUnreceived hk] at hu
    cases hu
  · intro k l hk _ h
    rw [channelUse_makeUnreceived hk] at h
    cases h

/-- The value of the new tuple, in a proc which has the two new nodes. -/
theorem val_of_unreceived {P₂ : Proc α} {z : ℕ} (hval : P₂.Activation e val)
    (hz : P₂.nodes.vertex z = some ⟨⟨.literal (Value.zeroOfType type), type⟩, []⟩)
    (hj : P₂.nodes.vertex j = some ⟨⟨.tuple, .tuple [.token, type]⟩, [token, z]⟩)
    (htoken : P₂.type token = some .token) :
    val j = Value.zeroOfType (receiveType type true) := by
  have hzval := (Option.filter_eq_some_iff.mp (hval z _ hz)).1
  have hjval := (Option.filter_eq_some_iff.mp (hval j _ hj)).1
  have hzero : val z = Value.zeroOfType type := (Option.some.inj hzval).symm
  have htuple : val j = .tuple [val token, val z] := (Option.some.inj hjval).symm
  rw [htuple, hzero, val_of_token htoken hval]
  rfl

/-- The new nodes have a value. -/
theorem grows_makeUnreceived (type : Ty) (hP : P.Bounded) (htoken : P.type token = some .token)
    (hval : P.Activation e val) : ∃ val₁, (State.makeUnreceived P type token).Activation e val₁ ∧
      ∀ k < P.nodes.length, val₁ k = val k := by
  have hzero : TermGraph.Grows (sem e) P.nodes
      (P.makeNode (.literal (Value.zeroOfType type)) type []).nodes := by
    apply TermGraph.Grows.make hP.nodes
    · nofun
    · intro val _
      refine ⟨Value.zeroOfType type, ?_⟩
      rw [sem, evalNode, Option.filter_some, if_pos (Value.conformsToType_zeroOfType type)]
  have hlength : (P.makeNode (.literal (Value.zeroOfType type)) type []).nodes.length =
      P.nodes.length + 1 := TermGraph.length_make
  have hlt := Proc.lt_length_of_type htoken
  have htuple : TermGraph.Grows (sem e)
      (P.makeNode (.literal (Value.zeroOfType type)) type []).nodes
      (State.makeUnreceived P type token).nodes := by
    apply TermGraph.Grows.make (hP.makeNode (List.forall_mem_nil _)).nodes
    · intro o ho
      simp only [List.mem_cons, List.not_mem_nil, or_false] at ho
      omega
    · intro val hval
      -- the values of the token and the zero have their types
      have hz := Option.filter_eq_some_iff.mp (hval P.nodes.length _ TermGraph.vertex_make_length)
      have htokenval : val token = .token := by
        apply val_of_token (P := P.makeNode (.literal (Value.zeroOfType type)) type []) _ hval
        rw [Proc.type_makeNode_of_lt hlt, htoken]
      refine ⟨.tuple [val token, val P.nodes.length], ?_⟩
      have hconforms : (Value.tuple [val token, val P.nodes.length]).conformsToType
          (.tuple [.token, type]) = true := by
        rw [htokenval, Value.conformsToType, Value.conformsToTypes, Value.conformsToTypes, hz.2]
        rfl
      exact Option.filter_some.trans (if_pos hconforms)
  obtain ⟨val₁, hval₁, hagree⟩ := (hzero.trans htuple).extend val hval
  exact ⟨val₁, hval₁, hagree⟩

theorem type_makeUnreceived_tuple : (State.makeUnreceived P type token).type
    (P.nodes.length + 1) = some (.tuple [.token, type]) :=
  Proc.type_eq_of_vertex vertex_makeUnreceived_tuple

theorem type_makeUnreceived_of_lt (hk : k < P.nodes.length) :
    (State.makeUnreceived P type token).type k = P.type k := by
  rw [Proc.type, Proc.type, vertex_makeUnreceived_of_lt hk]

/-- The tuple has no valid bit. -/
theorem not_replaceNode_receive
    (hn : P.nodes.vertex i = some ⟨⟨.receive channelId false, receiveType type false⟩,
      [token, predicate]⟩) :
    (State.makeUnreceived P type token).replaceNode i (P.nodes.length + 1) = none := by
  apply Proc.replaceNode_eq_none
  rw [type_makeUnreceived_of_lt (TermGraph.lt_length_of_vertex hn), Proc.type_eq_of_vertex hn,
    type_makeUnreceived_tuple]
  nofun

/-- A rank of the nodes with the tuple in the place of the receive. -/
theorem exists_ranks_makeUnreceived (type : Ty) {rank : ℕ → ℕ} (hP : P.Bounded)
    (hrank : P.nodes.Ranks rank)
    (htoken : token < P.nodes.length) (hi : i < P.nodes.length) (hlt : rank token < rank i) :
    ∃ rank', (State.makeUnreceived P type token).nodes.Ranks rank' ∧
      rank' (P.nodes.length + 1) ≤ rank' i := by
  have hzero := hrank.make (n := ⟨⟨.literal (Value.zeroOfType type), type⟩, []⟩) (r := 0) hP.nodes
    (List.forall_mem_nil _)
  refine ⟨_, hzero.make (r := rank i) (hP.makeNode (List.forall_mem_nil _)).nodes ?_, ?_⟩
  · intro o ho
    simp only [List.mem_cons, List.not_mem_nil, or_false] at ho
    rcases ho with rfl | rfl
    · refine ⟨by rw [TermGraph.length_make]; omega, ?_⟩
      rw [Function.update_of_ne htoken.ne]
      exact hlt
    · refine ⟨by rw [TermGraph.length_make]; omega, ?_⟩
      rw [Function.update_self]
      omega
  · rw [TermGraph.length_make, Function.update_self, Function.update_of_ne (by omega),
      Function.update_of_ne hi.ne]

/-- A receive with a literal zero becomes a tuple of its token and a zero. -/
theorem edit_receive (hP : P.Verified channels)
    (hn : P.nodes.vertex i = some ⟨⟨.receive channelId true, receiveType type true⟩,
      [token, predicate]⟩)
    (hzero : P.isLiteralZero predicate = true) :
    (State.makeUnreceived P type token).replaceNode i (P.nodes.length + 1) =
        some ((State.makeUnreceived P type token).replaced i (P.nodes.length + 1)) ∧
      Edit channels P ((State.makeUnreceived P type token).replaced i (P.nodes.length + 1)) id
        i := by
  obtain ⟨-, htoken, hpredicate⟩ := hP.of_receive hn
  have hi := TermGraph.lt_length_of_vertex hn
  have hlt := Proc.lt_length_of_type htoken
  have huse : (P.channelUse i).isSome = true := by
    rw [Proc.channelUse, hn]
    rfl
  have hij : i ≠ P.nodes.length + 1 := by omega
  have htype : (State.makeUnreceived P type token).type i =
      (State.makeUnreceived P type token).type (P.nodes.length + 1) := by
    rw [type_makeUnreceived_of_lt hi, Proc.type_eq_of_vertex hn, type_makeUnreceived_tuple]
    rfl
  obtain ⟨rank, hrank⟩ := hP.acyclic
  have hranktoken : rank token < rank i := hrank.lt ⟨_, hn, by simp⟩
  have hti : token ≠ i := by
    rintro rfl
    exact Nat.lt_irrefl _ hranktoken
  have hpi : predicate ≠ i := by
    rintro rfl
    exact hP.type_channelUse huse hpredicate
  have hprepares : Prepares P (State.makeUnreceived P type token) id i := prepares_makeUnreceived
  refine ⟨Proc.replaceNode_eq_some hij htype, hprepares.edit hP huse ?_ ?_⟩
  · obtain ⟨rank', hrank', hle⟩ :=
      exists_ranks_makeUnreceived type hP.bounded hrank hlt hi hranktoken
    have hbounded : (P.makeNode (.literal (Value.zeroOfType type)) type []).Bounded :=
      hP.bounded.makeNode (List.forall_mem_nil _)
    have hliteral : CheckedNode channels P.type
        (⟨.literal (Value.zeroOfType type), type⟩ : NodeData α) [] := trivial
    have hchecked :=
      checkedNode_makeNode hP.bounded hP.node (List.forall_mem_nil _) hliteral
    have hoperands : ∀ o ∈ [token, P.nodes.length],
        o < (P.makeNode (.literal (Value.zeroOfType type)) type []).nodes.length := by
      intro o ho
      rw [Proc.makeNode, TermGraph.length_make]
      simp only [List.mem_cons, List.not_mem_nil, or_false] at ho
      omega
    exact verified_replaced (hbounded.makeNode hoperands) hrank'
      (checkedNode_makeNode hbounded hchecked hoperands trivial) hij htype
      (by rw [length_makeUnreceived]; omega) hle
  · apply hprepares.sameIO hP.bounded hn (hrank.not_mem_operands hn) hij
    · intro e val hval
      obtain ⟨val₁, hval₁, hagree⟩ := grows_makeUnreceived type hP.bounded htoken hval
      refine ⟨val₁, hval₁, hagree, ?_⟩
      have hvali : sem e i _ [val token, val predicate] = some (val i) := hval i _ hn
      rw [sem_receive_inactive (isActive_of_isLiteralZero hzero hval), Option.some.injEq] at hvali
      rw [hagree i hi, ← hvali]
      apply Eq.symm
      apply val_of_unreceived hval₁ vertex_makeUnreceived_zero vertex_makeUnreceived_tuple
      rw [type_makeUnreceived_of_lt hlt, htoken]
    · intro e val' hval'
      have hzero' : ((State.makeUnreceived P type token).replaced i
          (P.nodes.length + 1)).isLiteralZero predicate = true := by
        rw [Proc.isLiteralZero, literalBits_replaced hpi, Proc.literalBits,
          vertex_makeUnreceived_of_lt (Proc.lt_length_of_type hpredicate)]
        exact hzero
      refine (sem_receive_inactive (isActive_of_isLiteralZero hzero' hval')).trans ?_
      apply congrArg some
      apply Eq.symm
      refine val_of_unreceived hval' (z := P.nodes.length) ?_ ?_
        (?_ : Proc.type _ token = some .token)
      · rw [Proc.replaced, TermGraph.vertex_replaceVertex_of_ne (by omega),
          vertex_makeUnreceived_zero]
        rfl
      · rw [Proc.replaced, TermGraph.vertex_replaceVertex_of_ne hij.symm,
          vertex_makeUnreceived_tuple, Option.map_some, List.map_cons, List.map_cons, List.map_nil,
          TermGraph.redirect, TermGraph.redirect, if_neg hti, if_neg (by omega)]
      · rw [Proc.type_replaced hti, type_makeUnreceived_of_lt hlt, htoken]
    · intro e val hval
      apply Prepares.not_performed fun k hk => channelUse_makeUnreceived hk
      have hactive := isActive_of_isLiteralZero hzero (hprepares.activation hval)
      rw [Proc.performed, hn, Option.bind_some]
      apply if_neg
      change ¬ isActive (some (val predicate)) = some true
      rw [hactive]
      decide

end Receive

/-! ### An operation which is always done -/

section Unpredicated

variable {predicate : ℕ} (operands' : List ℕ)

theorem sem_of_channelUse (hop : (op.channelUse).isSome = true) (hslot : slot k = i)
    (vs : List Value) : sem (e.along slot) k ⟨op, t⟩ vs = sem e i ⟨op, t⟩ vs := by
  have hreceived : (e.along slot).received k = e.received i := congrArg e.received hslot
  rw [sem, sem]
  cases op with
  | send id => rfl
  | receive id isBlocking =>
    rw [evalNode, evalNode, hreceived]
  | literal value => cases hop
  | tuple => cases hop
  | other op => cases hop

theorem prepares_makeNode (hn : P.nodes.vertex i = some ⟨⟨op, t⟩, operands⟩) :
    Prepares P (P.makeNode op t operands') (Function.update id P.nodes.length i) i := by
  have hlength : (P.makeNode op t operands').nodes.length = P.nodes.length + 1 :=
    TermGraph.length_make
  have hfresh : ∀ k, P.nodes.length ≤ k →
      ((P.makeNode op t operands').channelUse k).isSome = true → k = P.nodes.length := by
    intro k hk huse
    have hlt := lt_length_of_channelUse huse
    omega
  refine ⟨?_, ?_, rfl, rfl, ?_, ?_, ?_⟩
  · omega
  · intro k hk
    exact TermGraph.vertex_make_of_ne hk.ne
  · intro k hk
    exact Function.update_of_ne hk.ne _ _
  · intro k u hk hu
    have hkey := hfresh k hk (by rw [hu]; rfl)
    rw [hkey, Proc.channelUse, Proc.makeNode, TermGraph.vertex_make_length] at hu
    rw [hkey, Function.update_self]
    refine ⟨rfl, ?_⟩
    rw [Proc.channelUse, hn]
    exact hu
  · intro k l hk hl huse huse'
    rw [hfresh k hk huse, hfresh l hl huse']

/-- A send or a receive with a literal one loses its predicate. -/
theorem edit_unpredicated (hP : P.Verified channels) (hop : (op.channelUse).isSome = true)
    (hn : P.nodes.vertex i = some ⟨⟨op, t⟩, operands⟩) (hsubset : operands' ⊆ operands)
    (hchecked : CheckedNode channels P.type ⟨op, t⟩ operands')
    (hpredicate : P.predicate i = some predicate)
    (hone : P.isLiteralUnsignedOne predicate = true)
    (hsem : ∀ (e : Environment α) val, isActive (some (val predicate)) = some true →
      sem e i ⟨op, t⟩ (operands.map val) = sem e i ⟨op, t⟩ (operands'.map val) ∧
        performedBy e i op (operands.map val) = performedBy e i op (operands'.map val)) :
    (P.makeNode op t operands').replaceNode i P.nodes.length =
        some ((P.makeNode op t operands').replaced i P.nodes.length) ∧
      Edit channels P ((P.makeNode op t operands').replaced i P.nodes.length)
        (Function.update id P.nodes.length i) i := by
  have hi := TermGraph.lt_length_of_vertex hn
  have hij : i ≠ P.nodes.length := hi.ne
  have huse : (P.channelUse i).isSome = true := by
    rw [Proc.channelUse, hn]
    exact hop
  have htype : (P.makeNode op t operands').type i =
      (P.makeNode op t operands').type P.nodes.length := by
    rw [Proc.type_makeNode_of_lt hi, Proc.type_eq_of_vertex hn, Proc.type_makeNode_length]
  have hoperands : ∀ o ∈ operands', o < P.nodes.length := fun o ho =>
    hP.bounded.nodes i _ hn o (hsubset ho)
  obtain ⟨rank, hrank⟩ := hP.acyclic
  have hni := hrank.not_mem_operands hn
  have hpi : predicate ≠ i := by
    rintro rfl
    exact hP.type_channelUse huse (hP.type_predicate hpredicate)
  have hplt := Proc.lt_length_of_type (hP.type_predicate hpredicate)
  have hprepares : Prepares P (P.makeNode op t operands') (Function.update id P.nodes.length i) i :=
    prepares_makeNode operands' hn
  have hslot : Function.update id P.nodes.length i P.nodes.length = i := Function.update_self _ _ _
  refine ⟨Proc.replaceNode_eq_some hij htype, hprepares.edit hP huse ?_ ?_⟩
  · have hranks := hrank.make (n := ⟨⟨op, t⟩, operands'⟩) (r := rank i) hP.bounded.nodes
      fun o ho => ⟨hoperands o ho, hrank.lt ⟨_, hn, hsubset ho⟩⟩
    apply verified_replaced (hP.bounded.makeNode hoperands) hranks
      (checkedNode_makeNode hP.bounded hP.node hoperands hchecked) hij htype
    · rw [Proc.makeNode, TermGraph.length_make]
      omega
    · rw [Function.update_self, Function.update_of_ne hij]
  · apply hprepares.sameIO hP.bounded hn hni hij
    · intro e val hval
      have hactive := isActive_of_isLiteralUnsignedOne hone hval
      -- the new node has the value of the old one
      refine ⟨Function.update val P.nodes.length (val i), ?_, ?_, ?_⟩
      · apply TermGraph.isValuation_make.mpr
        have hagree : ∀ o < P.nodes.length,
            Function.update val P.nodes.length (val i) o = val o := by
          intro o ho
          exact Function.update_of_ne ho.ne _ _
        constructor
        · refine TermGraph.IsValuation.congr (?_ : TermGraph.IsValuation _ _ val) ?_
          · intro k m hm
            have hk := TermGraph.lt_length_of_vertex hm
            rw [sem_along (hprepares.old k hk)]
            exact hval k m hm
          · intro k m hm
            exact ⟨hagree k (TermGraph.lt_length_of_vertex hm),
              fun o ho => hagree o (hP.bounded.nodes k m hm o ho)⟩
        · rw [sem_of_channelUse hop hslot, Function.update_self,
            List.map_congr_left fun o ho => hagree o (hoperands o ho), ← (hsem e val hactive).1]
          exact hval i _ hn
      · intro k hk
        exact Function.update_of_ne hk.ne _ _
      · rw [Function.update_self, Function.update_of_ne hij]
    · intro e val' hval'
      have hone' : ((P.makeNode op t operands').replaced i
          P.nodes.length).isLiteralUnsignedOne predicate = true := by
        rw [Proc.isLiteralUnsignedOne, literalBits_replaced hpi, literalBits_makeNode hplt]
        exact hone
      have hactive := isActive_of_isLiteralUnsignedOne hone' hval'
      rw [(hsem e val' hactive).1, ← sem_of_channelUse hop hslot]
      have hvertex : ((P.makeNode op t operands').replaced i P.nodes.length).nodes.vertex
          P.nodes.length = some ⟨⟨op, t⟩, operands'.map (TermGraph.redirect i P.nodes.length)⟩ := by
        rw [Proc.replaced, TermGraph.vertex_replaceVertex_of_ne hij.symm, Proc.makeNode,
          TermGraph.vertex_make_length]
        rfl
      have hval := hval' P.nodes.length _ hvertex
      have hredirect : operands'.map (TermGraph.redirect i P.nodes.length) = operands' := by
        rw [List.map_congr_left (g := id), List.map_id]
        intro o ho
        rw [TermGraph.redirect, if_neg, id]
        rintro rfl
        exact hni (hsubset ho)
      rw [hredirect] at hval
      exact hval
    · intro e val hval a
      have hactive := isActive_of_isLiteralUnsignedOne hone (hprepares.activation hval)
      have hperformed : (P.makeNode op t operands').performed
          (e.along (Function.update id P.nodes.length i)) val P.nodes.length =
          P.performed e val i := by
        rw [Proc.performed, Proc.performed, hn, Proc.makeNode, TermGraph.vertex_make_length,
          Option.bind_some, Option.bind_some, performedBy_along hslot, (hsem e val hactive).2]
      constructor
      · intro ha
        exact ⟨P.nodes.length, Nat.le_refl _, hslot, by rw [hperformed, ha]⟩
      · rintro ⟨k, hk, -, ha⟩
        have hlt := lt_length_of_channelUse (channelUse_of_performed ha)
        rw [Proc.makeNode, TermGraph.length_make] at hlt
        have hkey : k = P.nodes.length := by omega
        rw [hkey, hperformed] at ha
        exact ha

/-- The node without predicate is in the place of the other one. -/
theorem channelUse_unpredicated (hn : P.nodes.vertex i = some ⟨⟨op, t⟩, operands⟩) :
    ((P.makeNode op t operands').replaced i P.nodes.length).channelUse P.nodes.length =
      P.channelUse i := by
  rw [channelUse_replaced (TermGraph.lt_length_of_vertex hn).ne', Proc.channelUse, Proc.channelUse,
    hn, Proc.makeNode, TermGraph.vertex_make_length]
  rfl

end Unpredicated

end Xls.UselessIORemoval
