/-
# Adding nodes which pass the verifier

`FunctionBase::MakeNode` (`xls/ir/function_base.h`) with the verifier, which it runs on each new
node.  A program which adds nodes to a verified function is followed by the type and the value
of each node; `Returns` says that it returns, where `World.Ensures` says what holds if it does.

* `Valid.node` : what is known of a node of a verified function which runs;
* `Returns.bind`, `returns_makeVerified` : one step after the other, and one new node;
* `makeConcat_returns`, `returns_makeBitSlice` : nodes which move bits;
* `Stuck.bind_left`, `stuck_makeVerified` : programs after which the function does not run.
-/
import Xls.Ir.NodeBuilder

namespace Xls

namespace LogicVerifier

variable {before after : List LogicNode} {n : LogicNode} {ids : List ℕ} {types : List Ty}

theorem verifyStep_eq_some (h : verifyStep before n = some after) : after = before ++ [n] ∧
    ∃ types, operandTypes before n.operands = some types ∧ verifyNode n types = true := by
  unfold verifyStep at h
  split at h
  · rename_i types htypes
    obtain ⟨hverify, h⟩ := Option.ite_none_right_eq_some.mp h
    exact ⟨(Option.some.inj h).symm, types, htypes, hverify⟩
  · cases h

theorem foldlM_verifyStep {nodes : List LogicNode}
    (h : nodes.foldlM verifyStep before = some after) : after = before ++ nodes := by
  induction nodes generalizing before with
  | nil =>
    cases h
    exact (List.append_nil _).symm
  | cons n nodes ih =>
    obtain ⟨next, hstep, h⟩ := Option.bind_eq_some_iff.mp h
    obtain ⟨rfl, -⟩ := verifyStep_eq_some hstep
    rw [ih h, List.append_assoc, List.singleton_append]

theorem verify_append_iff {nodes more : List LogicNode} : verify ⟨nodes ++ more⟩ = true ↔
    verify ⟨nodes⟩ = true ∧ (more.foldlM verifyStep nodes).isSome = true := by
  unfold verify
  rw [List.foldlM_append]
  rcases hfold : nodes.foldlM verifyStep [] with - | out
  · simp
  · have hout := foldlM_verifyStep hfold
    subst hout
    simp

/-- The types of the operands are those of the nodes they stand for. -/
theorem forall₂_operandTypes (h : operandTypes before ids = some types) :
    List.Forall₂ (fun i t => before[i]?.map LogicNode.type = some t) ids types := by
  induction ids generalizing types with
  | nil =>
    cases h
    exact .nil
  | cons i ids ih =>
    rw [operandTypes] at h
    split at h
    · rename_i o types' ho htypes
      cases h
      exact .cons (by rw [ho]; rfl) (ih htypes)
    · cases h

theorem operandTypes_of_forall₂
    (h : List.Forall₂ (fun i t => before[i]?.map LogicNode.type = some t) ids types) :
    operandTypes before ids = some types := by
  induction h with
  | nil => rfl
  | @cons i t ids types hi _ ih =>
    obtain ⟨o, ho, rfl⟩ := Option.map_eq_some_iff.mp hi
    rw [operandTypes, ho, ih]

/-- What the verifier has checked of a node. -/
structure NodeTypes (nodes : List LogicNode) (i : ℕ) (n : LogicNode) (types : List Ty) : Prop where
  operands : List.Forall₂ (fun o t => nodes[o]?.map LogicNode.type = some t) n.operands types
  before : ∀ o ∈ n.operands, o < i
  verify : verifyNode n types = true

theorem node_of_verify {nodes : List LogicNode} (h : verify ⟨nodes⟩ = true) {i : ℕ}
    (hn : nodes[i]? = some n) : ∃ types, NodeTypes nodes i n types := by
  obtain ⟨hi, hni⟩ := List.getElem?_eq_some_iff.mp hn
  -- the function up to the node
  have hsplit : nodes = nodes.take i ++ n :: nodes.drop (i + 1) := by
    rw [← hni, ← List.drop_eq_getElem_cons hi, List.take_append_drop]
  rw [hsplit, verify_append_iff] at h
  obtain ⟨out, hout⟩ := Option.isSome_iff_exists.mp h.2
  obtain ⟨next, hstep, -⟩ := Option.bind_eq_some_iff.mp hout
  obtain ⟨-, types, htypes, hnode⟩ := verifyStep_eq_some hstep
  have hbefore : ∀ o t, (nodes.take i)[o]?.map LogicNode.type = some t →
      o < i ∧ nodes[o]?.map LogicNode.type = some t := by
    intro o t ho
    obtain ⟨m, hm, ht⟩ := Option.map_eq_some_iff.mp ho
    obtain ⟨hlt, -⟩ := List.getElem?_eq_some_iff.mp hm
    rw [List.length_take] at hlt
    have hlt' : o < i := hlt.trans_le (min_le_left ..)
    rw [List.getElem?_take_of_lt hlt'] at ho
    exact ⟨hlt', ho⟩
  have hall := forall₂_operandTypes htypes
  refine ⟨types, hall.imp fun o t ho => (hbefore o t ho).2, fun o ho => ?_, hnode⟩
  obtain ⟨k, hk, rfl⟩ := List.getElem_of_mem ho
  exact (hbefore _ _ (hall.get hk (hall.length_eq ▸ hk))).1

end LogicVerifier

namespace NodeBuilder

open LogicVerifier (verifyStep)

/-- `MakeNode`: the position of the new node, when it passes the verifier. -/
def makeVerified (op : LogicOp) (operands : List ℕ) (type : Ty) : NodeM ℕ := fun nodes =>
  if h : operands.length < 2 ^ 64 then
    (verifyStep nodes ⟨op, operands, type, h⟩).map fun nodes' => (nodes.length, nodes')
  else none

/-- A node. -/
def getNode (i : ℕ) : NodeM LogicNode := fun nodes => nodes[i]?.map fun n => (n, nodes)

/-- `MakeNode<Literal>`. -/
def makeLiteral (value : Value) (type : Ty) : NodeM ℕ :=
  makeVerified (.core (.literal value)) [] type

/-- A literal of bits type. -/
def makeBitsLiteral (value : Bits) : NodeM ℕ := makeLiteral (.bits value) (.bits value.bitCount)

/-- `MakeNode<Concat>`. -/
def makeConcat (operands : List ℕ) : NodeM ℕ := do
  let types ← operands.mapM getType
  let width ← StateT.lift (Verifier.totalBits types)
  makeVerified (.core .concat) operands (.bits width)

variable {env : Env} {nodes nodes' : List LogicNode} {values : List Value}

/-- A verified function which runs. -/
structure Valid (env : Env) (nodes : List LogicNode) : Prop where
  verify : LogicVerifier.verify ⟨nodes⟩ = true
  run : ∃ values, LogicInterpreter.run env ⟨nodes⟩ = some values

/-- The node has the type and the value. -/
structure HasValue (env : Env) (nodes : List LogicNode) (i : ℕ) (t : Ty) (v : Value) : Prop where
  type : nodes[i]?.map LogicNode.type = some t
  carries : Carries env nodes i v
  conforms : v.conformsToType t = true

/-- The types and the values of several nodes. -/
abbrev HaveValues (env : Env) (nodes : List LogicNode) (ids : List ℕ) (ps : List (Ty × Value)) :
    Prop :=
  List.Forall₂ (fun i (p : Ty × Value) => HasValue env nodes i p.1 p.2) ids ps

theorem getElem?_of_first (h : nodes <+: nodes') {i : ℕ} {n : LogicNode}
    (hn : nodes[i]? = some n) : nodes'[i]? = some n := by
  obtain ⟨rest, rfl⟩ := h
  rwa [List.getElem?_append_left (List.getElem?_eq_some_iff.mp hn).1]

variable {i : ℕ} {t t' : Ty} {v v' : Value} {ids : List ℕ} {ps : List (Ty × Value)}

theorem HasValue.grow (h : HasValue env nodes i t v) (hle : nodes <+: nodes') :
    HasValue env nodes' i t v := by
  obtain ⟨n, hn, ht⟩ := Option.map_eq_some_iff.mp h.type
  exact ⟨by rw [getElem?_of_first hle hn, Option.map_some, ht], h.carries.grow hle, h.conforms⟩

theorem HaveValues.grow (h : HaveValues env nodes ids ps) (hle : nodes <+: nodes') :
    HaveValues env nodes' ids ps := h.imp fun _ _ hi => hi.grow hle

theorem HasValue.type_eq (h : HasValue env nodes i t v) (h' : HasValue env nodes i t' v') :
    t = t' := Option.some.inj (h.type.symm.trans h'.type)

theorem HasValue.value_eq (hvalid : Valid env nodes) (h : HasValue env nodes i t v)
    (h' : HasValue env nodes i t' v') : v = v' := by
  obtain ⟨values, hrun⟩ := hvalid.run
  exact Option.some.inj ((h.carries.value hrun).symm.trans (h'.carries.value hrun))

/-- The values of the operands are what they denote. -/
theorem HaveValues.types (h : HaveValues env nodes ids ps) :
    LogicVerifier.operandTypes nodes ids = some (ps.map Prod.fst) := by
  apply LogicVerifier.operandTypes_of_forall₂
  exact List.forall₂_map_right_iff.mpr (h.imp fun _ _ hi => hi.type)

theorem HaveValues.carries (h : HaveValues env nodes ids ps) :
    List.Forall₂ (Carries env nodes) ids (ps.map Prod.snd) :=
  List.forall₂_map_right_iff.mpr (h.imp fun _ _ hi => hi.carries)

/-- What is known of a node of a verified function which runs. -/
structure NodeFacts (env : Env) (nodes : List LogicNode) (i : ℕ) (n : LogicNode)
    (ps : List (Ty × Value)) (v : Value) : Prop where
  operands : HaveValues env nodes n.operands ps
  before : ∀ o ∈ n.operands, o < i
  verify : LogicVerifier.verifyNode n (ps.map Prod.fst) = true
  eval : LogicInterpreter.evalNode env i n (ps.map Prod.snd) = some v
  result : HasValue env nodes i n.type v

theorem Valid.node (h : Valid env nodes) {n : LogicNode} (hn : nodes[i]? = some n) :
    ∃ ps v, NodeFacts env nodes i n ps v := by
  obtain ⟨values, hrun⟩ := h.run
  obtain ⟨vs, v, hvs, heval, hconf, hv⟩ := exists_value hrun hn
  obtain ⟨types, htypes⟩ := LogicVerifier.node_of_verify h.verify hn
  have hdenotes : ∀ (ids : List ℕ) (types : List Ty) (vs : List Value),
      List.Forall₂ (fun o t => nodes[o]?.map LogicNode.type = some t) ids types →
      List.Forall₂ (fun o v => values[o]? = some v) ids vs →
      HaveValues env nodes ids (types.zip vs) ∧ (types.zip vs).map Prod.fst = types ∧
        (types.zip vs).map Prod.snd = vs := by
    intro ids types vs htypes hvs
    induction htypes generalizing vs with
    | nil =>
      cases hvs
      exact ⟨.nil, rfl, rfl⟩
    | @cons o t ids types ho _ ih =>
      rcases hvs with - | ⟨hv, hvs⟩
      obtain ⟨hrest, hfst, hsnd⟩ := ih _ hvs
      obtain ⟨m, hm, rfl⟩ := Option.map_eq_some_iff.mp ho
      obtain ⟨-, u, -, -, hconf', hu⟩ := exists_value hrun hm
      obtain rfl := Option.some.inj (hu.symm.trans hv)
      refine ⟨.cons ⟨by rw [hm]; rfl, carries_of_run hrun hv, hconf'⟩ hrest, ?_, ?_⟩
      · rw [List.zip_cons_cons, List.map_cons, hfst]
      · rw [List.zip_cons_cons, List.map_cons, hsnd]
  obtain ⟨hops, hfst, hsnd⟩ := hdenotes n.operands types vs htypes.operands hvs
  exact ⟨types.zip vs, v, hops, htypes.before, hfst.symm ▸ htypes.verify, hsnd.symm ▸ heval,
    ⟨by rw [hn]; rfl, carries_of_run hrun hv, hconf⟩⟩

/-! ## Programs which return -/

/-- The program returns, the function has grown and is still valid, and the result is as
described. -/
def Returns {α : Type} (env : Env) (nodes : List LogicNode) (x : NodeM α)
    (Q : List LogicNode → α → Prop) : Prop :=
  ∃ a nodes', x nodes = some (a, nodes') ∧ nodes <+: nodes' ∧ Valid env nodes' ∧ Q nodes' a

variable {α β : Type} {Q : List LogicNode → α → Prop} {R : List LogicNode → β → Prop}

theorem Returns.pure (h : Valid env nodes) {a : α} (ha : Q nodes a) :
    Returns env nodes (Pure.pure a) Q := ⟨a, nodes, rfl, List.prefix_rfl, h, ha⟩

theorem Returns.bind {x : NodeM α} {f : α → NodeM β} (hx : Returns env nodes x Q)
    (hf : ∀ nodes' a, Valid env nodes' → nodes <+: nodes' → Q nodes' a →
      Returns env nodes' (f a) R) : Returns env nodes (x >>= f) R := by
  obtain ⟨a, nodes₁, hxa, hle₁, hvalid₁, ha⟩ := hx
  obtain ⟨b, nodes₂, hfb, hle₂, hvalid₂, hb⟩ := hf nodes₁ a hvalid₁ hle₁ ha
  refine ⟨b, nodes₂, ?_, hle₁.trans hle₂, hvalid₂, hb⟩
  show (x nodes).bind (fun p => f p.1 p.2) = _
  rw [hxa]
  exact hfb

theorem Returns.mono {x : NodeM α} {Q' : List LogicNode → α → Prop} (hx : Returns env nodes x Q)
    (h : ∀ nodes' a, Valid env nodes' → nodes <+: nodes' → Q nodes' a → Q' nodes' a) :
    Returns env nodes x Q' := by
  obtain ⟨a, nodes', hxa, hle, hvalid, ha⟩ := hx
  exact ⟨a, nodes', hxa, hle, hvalid, h nodes' a hvalid hle ha⟩

theorem Returns.map {x : NodeM α} {f : α → β}
    (hx : Returns env nodes x fun nodes' a => R nodes' (f a)) : Returns env nodes (f <$> x) R := by
  obtain ⟨a, nodes', hxa, hle, hvalid, ha⟩ := hx
  refine ⟨f a, nodes', ?_, hle, hvalid, ha⟩
  show (x nodes).bind (fun p => some (f p.1, p.2)) = _
  rw [hxa]
  rfl

/-- A step which does not touch the function. -/
theorem Returns.lift_bind {o : Option α} {f : α → NodeM β} {a : α} (ho : o = some a)
    (h : Returns env nodes (f a) R) : Returns env nodes (StateT.lift o >>= f) R := by
  subst ho
  exact h

theorem returns_getType (h : Valid env nodes) (hi : HasValue env nodes i t v) :
    Returns env nodes (getType i) fun _ t' => t' = t := by
  obtain ⟨n, hn, ht⟩ := Option.map_eq_some_iff.mp hi.type
  refine ⟨n.type, nodes, ?_, List.prefix_rfl, h, ht⟩
  rw [getType, hn]
  rfl

/-- A loop whose bodies return what survives the growth of the function. -/
theorem Returns.mapM {f : α → NodeM β} {T : List LogicNode → α → β → Prop}
    (hgrow : ∀ {nodes nodes' a b}, nodes <+: nodes' → T nodes a b → T nodes' a b) (l : List α)
    (hvalid : Valid env nodes)
    (h : ∀ a ∈ l, ∀ nodes', nodes <+: nodes' → Valid env nodes' →
      Returns env nodes' (f a) fun nodes'' b => T nodes'' a b) :
    Returns env nodes (l.mapM f) fun nodes' bs => List.Forall₂ (T nodes') l bs := by
  induction l generalizing nodes with
  | nil => exact Returns.pure hvalid .nil
  | cons a l ih =>
    rw [List.mapM_cons]
    refine Returns.bind (h a (List.mem_cons_self ..) nodes List.prefix_rfl hvalid)
      fun nodes₁ b hvalid₁ hle₁ hb => ?_
    refine Returns.bind (ih hvalid₁ fun a' ha' nodes' hle =>
      h a' (List.mem_cons_of_mem _ ha') nodes' (hle₁.trans hle))
      fun nodes₂ bs hvalid₂ hle₂ hbs => ?_
    exact Returns.pure hvalid₂ (.cons (hgrow hle₂ hb) hbs)

/-- A new node which passes the verifier has the value computed from its operands. -/
theorem returns_makeVerified (hvalid : Valid env nodes) {op : LogicOp} {operands : List ℕ}
    {type : Ty} (hoperands : HaveValues env nodes operands ps) (hlength : operands.length < 2 ^ 64)
    (hverify : ∀ h, LogicVerifier.verifyNode ⟨op, operands, type, h⟩ (ps.map Prod.fst) = true)
    (heval : ∀ id h, LogicInterpreter.evalNode env id ⟨op, operands, type, h⟩ (ps.map Prod.snd) =
      some v)
    (htype : v.conformsToType type = true) :
    Returns env nodes (makeVerified op operands type) fun nodes' i =>
      HasValue env nodes' i type v := by
  obtain ⟨values, hrun⟩ := hvalid.run
  have hstep : verifyStep nodes ⟨op, operands, type, hlength⟩ =
      some (nodes ++ [⟨op, operands, type, hlength⟩]) := by
    rw [LogicVerifier.verifyStep, hoperands.types]
    exact if_pos (hverify hlength)
  have hrun' : LogicInterpreter.run env ⟨nodes ++ [⟨op, operands, type, hlength⟩]⟩ =
      some (values ++ [v]) := by
    rw [run_append, hrun, Option.bind_some, List.foldlM_cons, LogicInterpreter.step]
    simp only [resolve_of_carries hrun hoperands.carries, heval, htype]
    rfl
  have hlen := length_of_run hrun
  refine ⟨nodes.length, nodes ++ [⟨op, operands, type, hlength⟩], ?_, List.prefix_append _ _,
    ⟨?_, _, hrun'⟩, ?_, carries_of_run hrun' ?_, htype⟩
  · rw [makeVerified, dif_pos hlength, hstep]
    rfl
  · rw [LogicVerifier.verify_append_iff]
    refine ⟨hvalid.verify, ?_⟩
    rw [List.foldlM_cons, hstep]
    rfl
  · rw [List.getElem?_concat_length]
    rfl
  · rw [← hlen, List.getElem?_concat_length]

/-! ## Literals, slices and concatenations -/

theorem returns_getNode (h : Valid env nodes) {n : LogicNode} (hn : nodes[i]? = some n) :
    Returns env nodes (getNode i) fun nodes' m => nodes' = nodes ∧ m = n :=
  ⟨n, nodes, by rw [getNode, hn, Option.map_some], List.prefix_rfl, h, rfl, rfl⟩

theorem returns_makeLiteral (hvalid : Valid env nodes) {value : Value} {type : Ty}
    (h : value.conformsToType type = true) :
    Returns env nodes (makeLiteral value type) fun nodes' i => HasValue env nodes' i type value := by
  have hoperands : HaveValues env nodes [] [] := .nil
  exact returns_makeVerified hvalid hoperands (by decide) (fun _ => h) (fun _ _ => rfl) h

theorem returns_makeBitsLiteral (hvalid : Valid env nodes) (value : Bits) :
    Returns env nodes (makeBitsLiteral value) fun nodes' i =>
      HasValue env nodes' i (.bits value.bitCount) (.bits value) :=
  returns_makeLiteral hvalid (conforms_bits value)

theorem conforms_array {vs : List Value} {t : Ty} (h : ∀ v ∈ vs, v.conformsToType t = true) :
    (Value.array vs).conformsToType (.array vs.length t) = true := by
  rw [Value.conformsToType, beq_self_eq_true]
  induction vs with
  | nil => rfl
  | cons v vs ih =>
    rw [Value.conformToType, h v (List.mem_cons_self ..),
      ih fun u hu => h u (List.mem_cons_of_mem _ hu), Bool.and_self]

/-- A node which carries some bits. -/
abbrev HasBits (env : Env) (nodes : List LogicNode) (i : ℕ) (b : Bits) : Prop :=
  HasValue env nodes i (.bits b.bitCount) (.bits b)

/-- A slice of a node. -/
theorem returns_makeBitSlice (hvalid : Valid env nodes) {i start width : ℕ} {b : Bits}
    (hi : HasBits env nodes i b) (h : start + width ≤ b.bitCount) :
    Returns env nodes (makeVerified (.bitSlice start width) [i] (.bits width)) fun nodes' j =>
      HasBits env nodes' j (BitsOps.slice b start width) := by
  have hoperands : HaveValues env nodes [i] [(.bits b.bitCount, .bits b)] := .cons hi .nil
  refine returns_makeVerified hvalid hoperands (Nat.one_lt_two_pow (by decide)) (fun _ => ?_)
    (fun _ _ => if_pos h) (conforms_bits _)
  show (decide _ && decide _) = true
  rw [decide_eq_true rfl, decide_eq_true h, Bool.and_self]

theorem getTypes_eq {ids : List ℕ} {bs : List Bits} (h : List.Forall₂ (HasBits env nodes) ids bs) :
    (ids.mapM getType) nodes = some (bs.map fun b => .bits b.bitCount, nodes) := by
  induction h with
  | nil => rfl
  | @cons i b ids bs hi _ ih =>
    obtain ⟨n, hn, ht⟩ := Option.map_eq_some_iff.mp hi.type
    rw [List.mapM_cons]
    show ((getType i) nodes).bind (fun p => ((ids.mapM getType) p.2).bind fun q =>
      some (p.1 :: q.1, q.2)) = _
    rw [getType, hn, Option.map_some, Option.bind_some, ih, Option.bind_some, ht, List.map_cons]

theorem totalBits_eq (bs : List Bits) :
    Verifier.totalBits (bs.map fun b => .bits b.bitCount) = some (bs.map Bits.bitCount).sum := by
  induction bs with
  | nil => rfl
  | cons b bs ih =>
    rw [List.map_cons, Verifier.totalBits, ih, List.map_cons, List.sum_cons, Option.map_some]

/-- `MakeNode<Concat>`. -/
theorem makeConcat_returns (hvalid : Valid env nodes) {ids : List ℕ} {bs : List Bits}
    (h : List.Forall₂ (HasBits env nodes) ids bs) (hlength : ids.length < 2 ^ 64) :
    Returns env nodes (makeConcat ids) fun nodes' i =>
      HasBits env nodes' i (BitsOps.concat bs) := by
  have htypes : Returns env nodes (ids.mapM getType) fun nodes' types =>
      types = bs.map (fun b => .bits b.bitCount) ∧ List.Forall₂ (HasBits env nodes') ids bs :=
    ⟨_, nodes, getTypes_eq h, List.prefix_rfl, hvalid, rfl, h⟩
  refine Returns.bind htypes fun nodes₁ types hvalid₁ _ htypes => ?_
  obtain ⟨rfl, h₁⟩ := htypes
  refine Returns.lift_bind (totalBits_eq bs) ?_
  have hoperands : HaveValues env nodes₁ ids (bs.map fun b => (.bits b.bitCount, .bits b)) :=
    List.forall₂_map_right_iff.mpr h₁
  have hfst : (bs.map fun b => ((.bits b.bitCount, .bits b) : Ty × Value)).map Prod.fst =
      bs.map fun b => .bits b.bitCount := List.map_map
  have hsnd : (bs.map fun b => ((.bits b.bitCount, .bits b) : Ty × Value)).map Prod.snd =
      bs.map .bits := List.map_map
  have hwidth := Evaluator.bitCount_concat bs
  rw [← hwidth]
  refine returns_makeVerified hvalid₁ hoperands hlength (fun _ => ?_) (fun _ _ => ?_)
    (conforms_bits _)
  · rw [hfst]
    show decide ((Verifier.totalBits _).map Ty.bits = some (.bits _)) = true
    rw [totalBits_eq, hwidth, Option.map_some, decide_eq_true rfl]
  · rw [hsnd]
    show (Interpreter.bitsVector _).map _ = _
    rw [bitsVector_map, Option.map_some]

/-! ## Programs after which the function does not run -/

theorem Valid.of_first (h : Valid env nodes') (hle : nodes <+: nodes') : Valid env nodes := by
  obtain ⟨more, rfl⟩ := hle
  obtain ⟨values, hrun⟩ := h.run
  rw [run_append] at hrun
  obtain ⟨before, hbefore, -⟩ := Option.bind_eq_some_iff.mp hrun
  exact ⟨(LogicVerifier.verify_append_iff.mp h.verify).1, before, hbefore⟩

/-- The program only adds nodes. -/
def Grows {α : Type} (x : NodeM α) : Prop :=
  ∀ nodes a nodes', x nodes = some (a, nodes') → nodes <+: nodes'

theorem grows_pure (a : α) : Grows (Pure.pure a : NodeM α) := by
  rintro nodes b nodes' ⟨⟩
  exact List.prefix_rfl

theorem grows_lift (o : Option α) : Grows (StateT.lift o : NodeM α) := by
  intro nodes a nodes' h
  obtain ⟨b, -, heq⟩ := Option.bind_eq_some_iff.mp h
  cases heq
  exact List.prefix_rfl

theorem Grows.bind {x : NodeM α} {f : α → NodeM β} (hx : Grows x) (hf : ∀ a, Grows (f a)) :
    Grows (x >>= f) := by
  intro nodes b nodes' h
  obtain ⟨⟨a, nodes₁⟩, hxa, hfa⟩ := Option.bind_eq_some_iff.mp h
  exact (hx nodes a nodes₁ hxa).trans (hf a nodes₁ b nodes' hfa)

theorem Grows.map {x : NodeM α} {f : α → β} (hx : Grows x) : Grows (f <$> x) := by
  intro nodes b nodes' h
  obtain ⟨⟨a, nodes₁⟩, hxa, hfa⟩ := Option.bind_eq_some_iff.mp h
  cases hfa
  exact hx nodes a _ hxa

theorem grows_getType (i : ℕ) : Grows (getType i) := by
  intro nodes a nodes' h
  obtain ⟨n, -, heq⟩ := Option.map_eq_some_iff.mp h
  cases heq
  exact List.prefix_rfl

theorem grows_makeVerified (op : LogicOp) (operands : List ℕ) (type : Ty) :
    Grows (makeVerified op operands type) := by
  intro nodes a nodes' h
  unfold makeVerified at h
  split at h
  · obtain ⟨after, hafter, heq⟩ := Option.map_eq_some_iff.mp h
    cases heq
    rw [(LogicVerifier.verifyStep_eq_some hafter).1]
    exact List.prefix_append _ _
  · cases h

theorem grows_makeBitsLiteral (value : Bits) : Grows (makeBitsLiteral value) :=
  grows_makeVerified (.core (.literal (.bits value))) [] (.bits value.bitCount)

theorem grows_foldlM {γ : Type} {f : γ → α → NodeM γ} (hf : ∀ c a, Grows (f c a)) (l : List α)
    (c : γ) : Grows (l.foldlM f c) := by
  induction l generalizing c with
  | nil => exact grows_pure c
  | cons a l ih =>
    exact (hf c a).bind ih

/-- The program does not return, or the function does not run any more. -/
def Stuck {α : Type} (env : Env) (nodes : List LogicNode) (x : NodeM α) : Prop :=
  ∀ a nodes', x nodes = some (a, nodes') → ¬ Valid env nodes'

theorem Returns.not_stuck {x : NodeM α} (h : Returns env nodes x Q) : ¬ Stuck env nodes x := by
  obtain ⟨a, nodes', hxa, -, hvalid, -⟩ := h
  exact fun hstuck => hstuck a nodes' hxa hvalid

theorem stuck_lift : Stuck env nodes (StateT.lift none : NodeM α) := nofun

theorem Stuck.bind {x : NodeM α} {f : α → NodeM β}
    (h : ∀ a nodes', x nodes = some (a, nodes') → Stuck env nodes' (f a)) :
    Stuck env nodes (x >>= f) := by
  intro b nodes' hb
  obtain ⟨⟨a, nodes₁⟩, hxa, hfa⟩ := Option.bind_eq_some_iff.mp hb
  exact h a nodes₁ hxa b nodes' hfa

theorem Stuck.bind_left {x : NodeM α} {f : α → NodeM β} (h : Stuck env nodes x)
    (hf : ∀ a, Grows (f a)) : Stuck env nodes (x >>= f) :=
  Stuck.bind fun a nodes₁ hxa b nodes' hfa hvalid =>
    h a nodes₁ hxa (hvalid.of_first (hf a nodes₁ b nodes' hfa))

theorem Returns.stuck_bind {x : NodeM α} {f : α → NodeM β} (hx : Returns env nodes x Q)
    (hf : ∀ nodes' a, Valid env nodes' → nodes <+: nodes' → Q nodes' a →
      Stuck env nodes' (f a)) : Stuck env nodes (x >>= f) := by
  obtain ⟨a, nodes₁, hxa, hle, hvalid, ha⟩ := hx
  refine Stuck.bind fun a' nodes' hxa' => ?_
  obtain ⟨rfl, rfl⟩ := Prod.mk.inj (Option.some.inj (hxa.symm.trans hxa'))
  exact hf nodes₁ a hvalid hle ha

/-- A loop with a body which is stuck whenever it is reached. -/
theorem stuck_foldlM {γ : Type} {f : γ → α → NodeM γ} (hf : ∀ c a, Grows (f c a)) {l : List α}
    {a : α} (ha : a ∈ l) (c : γ) (h : ∀ c nodes', nodes <+: nodes' → Valid env nodes' →
      Stuck env nodes' (f c a)) : Stuck env nodes (l.foldlM f c) := by
  induction l generalizing nodes c with
  | nil => cases ha
  | cons b l ih =>
    by_cases hvalid : Valid env nodes
    · rcases List.mem_cons.mp ha with rfl | ha
      · exact (h c nodes List.prefix_rfl hvalid).bind_left (grows_foldlM hf l)
      · refine Stuck.bind fun c' nodes' hb => ?_
        exact ih ha c' fun c'' nodes'' hle => h c'' nodes'' ((hf c b nodes c' nodes' hb).trans hle)
    · exact fun a nodes' hrun h =>
        hvalid (h.of_first ((hf c b).bind (grows_foldlM hf l) nodes a nodes' hrun))

/-- A new node whose value does not have its type. -/
theorem stuck_makeVerified (hvalid : Valid env nodes) {op : LogicOp} {operands : List ℕ}
    {type : Ty} (hoperands : HaveValues env nodes operands ps)
    (heval : ∀ id h v, LogicInterpreter.evalNode env id ⟨op, operands, type, h⟩
      (ps.map Prod.snd) = some v → v.conformsToType type = false) :
    Stuck env nodes (makeVerified op operands type) := by
  intro i nodes' hmake hvalid'
  obtain ⟨values, hrun⟩ := hvalid.run
  obtain ⟨values', hrun'⟩ := hvalid'.run
  unfold makeVerified at hmake
  split at hmake
  · rename_i hlength
    obtain ⟨after, hafter, heq⟩ := Option.map_eq_some_iff.mp hmake
    cases heq
    rw [(LogicVerifier.verifyStep_eq_some hafter).1, run_append, hrun, Option.bind_some] at hrun'
    obtain ⟨next, hstep, -⟩ := Option.bind_eq_some_iff.mp hrun'
    obtain ⟨v, vs, -, hvs, hv, hconf⟩ := LogicInterpreter.step_eq_some hstep
    rw [resolve_of_carries hrun hoperands.carries] at hvs
    cases hvs
    rw [heval _ hlength v hv] at hconf
    cases hconf
  · cases hmake

end NodeBuilder

end Xls
