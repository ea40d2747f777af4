/-
# Adding nodes to a function

`FunctionBase::MakeNode` (`xls/ir/function_base.h`) adds a node behind those which are there.  The
values of the old nodes stay, so that a program which only adds nodes can be followed by what its
nodes denote.

* `makeNode` : the source;
* `valuedWorld` : functions whose nodes all have values;
* `ensures_makeNode` : a new node denotes the value computed from its operands.
-/
import Xls.Ir.LogicFunction
import Xls.Lib.Growing

namespace Xls

/-- A program which adds nodes to a function and may fail. -/
abbrev NodeM := StateT (List LogicNode) Option

namespace NodeBuilder

/-- `MakeNode`: the position of the new node. -/
def makeNode (op : LogicOp) (operands : List ℕ) (type : Ty) : NodeM ℕ := fun nodes =>
  if h : operands.length < 2 ^ 64 then some (nodes.length, nodes ++ [⟨op, operands, type, h⟩])
  else none

/-- `GetType`. -/
def getType (i : ℕ) : NodeM Ty := fun nodes => nodes[i]?.map fun n => (n.type, nodes)

/-! ## What the nodes denote -/

variable {env : Env} {nodes nodes' : List LogicNode} {values values' : List Value}

/-- The node has the value, as soon as the first nodes have values. -/
def Carries (env : Env) (nodes : List LogicNode) (i : ℕ) (v : Value) : Prop :=
  ∃ first values, first <+: nodes ∧ LogicInterpreter.run env ⟨first⟩ = some values ∧
    values[i]? = some v

/-- The functions whose nodes all have values, in the order in which they grow. -/
def valuedWorld (env : Env) : World (List LogicNode) where
  Inv nodes := ∃ values, LogicInterpreter.run env ⟨nodes⟩ = some values
  Le nodes nodes' := nodes <+: nodes'
  refl nodes := List.prefix_refl nodes
  trans h h' := h.trans h'

theorem run_append (nodes more : List LogicNode) : LogicInterpreter.run env ⟨nodes ++ more⟩ =
    (LogicInterpreter.run env ⟨nodes⟩).bind fun values =>
      more.foldlM (LogicInterpreter.step env) values := by
  rw [LogicInterpreter.run, List.foldlM_append]
  rfl

theorem length_of_foldlM (h : nodes.foldlM (LogicInterpreter.step env) values = some values') :
    ∃ more, values' = values ++ more ∧ more.length = nodes.length := by
  induction nodes generalizing values with
  | nil =>
    cases h
    exact ⟨[], (List.append_nil _).symm, rfl⟩
  | cons n nodes ih =>
    obtain ⟨values₁, hstep, h⟩ := Option.bind_eq_some_iff.mp h
    obtain ⟨v, -, rfl, -⟩ := LogicInterpreter.step_eq_some hstep
    obtain ⟨more, rfl, hlength⟩ := ih h
    exact ⟨v :: more, by simp, by rw [List.length_cons, List.length_cons, hlength]⟩

theorem length_of_run (h : LogicInterpreter.run env ⟨nodes⟩ = some values) :
    values.length = nodes.length := by
  obtain ⟨more, rfl, hlength⟩ := length_of_foldlM h
  simpa using hlength

/-- The old nodes keep their values. -/
theorem run_of_first (h : nodes <+: nodes')
    (hrun : LogicInterpreter.run env ⟨nodes'⟩ = some values') :
    ∃ values more, LogicInterpreter.run env ⟨nodes⟩ = some values ∧ values' = values ++ more := by
  obtain ⟨rest, rfl⟩ := h
  rw [run_append] at hrun
  obtain ⟨values, hvalues, hrest⟩ := Option.bind_eq_some_iff.mp hrun
  obtain ⟨more, rfl, -⟩ := length_of_foldlM hrest
  exact ⟨values, more, hvalues, rfl⟩

variable {i : ℕ} {v : Value} {operands : List ℕ} {vs : List Value}

theorem Carries.grow (h : Carries env nodes i v) (hle : nodes <+: nodes') :
    Carries env nodes' i v := by
  obtain ⟨first, values, hfirst, hrun, hv⟩ := h
  exact ⟨first, values, hfirst.trans hle, hrun, hv⟩

/-- What a node denotes is its value. -/
theorem Carries.value (h : Carries env nodes i v)
    (hrun : LogicInterpreter.run env ⟨nodes⟩ = some values) : values[i]? = some v := by
  obtain ⟨first, values₀, hfirst, hrun₀, hv⟩ := h
  obtain ⟨values₁, more, hrun₁, rfl⟩ := run_of_first hfirst hrun
  rw [hrun₀] at hrun₁
  cases hrun₁
  rw [List.getElem?_append_left (List.getElem?_eq_some_iff.mp hv).1]
  exact hv

theorem carries_of_run (hrun : LogicInterpreter.run env ⟨nodes⟩ = some values)
    (hv : values[i]? = some v) : Carries env nodes i v :=
  ⟨nodes, values, List.prefix_refl nodes, hrun, hv⟩

theorem stable_carries (env : Env) : (valuedWorld env).Stable (Carries env) :=
  ⟨fun hle h => h.grow hle⟩

theorem resolve_of_carries (hrun : LogicInterpreter.run env ⟨nodes⟩ = some values)
    (h : List.Forall₂ (Carries env nodes) operands vs) :
    Interpreter.resolve values operands = some vs := by
  induction h with
  | nil => rfl
  | cons hv _ ih => rw [Interpreter.resolve, hv.value hrun, ih]

/-- A new node denotes the value which is computed from its operands. -/
theorem ensures_makeNode {op : LogicOp} {type : Ty} (hinv : (valuedWorld env).Inv nodes)
    (hoperands : List.Forall₂ (Carries env nodes) operands vs)
    (heval : ∀ id h, LogicInterpreter.evalNode env id ⟨op, operands, type, h⟩ vs = some v)
    (htype : v.conformsToType type = true) :
    (valuedWorld env).Ensures nodes (makeNode op operands type) fun nodes i =>
      Carries env nodes i v := by
  intro i nodes' hmake
  rw [makeNode] at hmake
  split at hmake
  · rename_i hlength
    cases hmake
    obtain ⟨values, hrun⟩ := hinv
    have hstep : LogicInterpreter.run env ⟨nodes ++ [⟨op, operands, type, hlength⟩]⟩ =
        some (values ++ [v]) := by
      rw [run_append, hrun, Option.bind_some, List.foldlM_cons, LogicInterpreter.step]
      simp only [resolve_of_carries hrun hoperands, heval, htype]
      rfl
    refine ⟨⟨_, hstep⟩, List.prefix_append _ _, carries_of_run hstep ?_⟩
    rw [← length_of_run hrun, List.getElem?_concat_length]
  · cases hmake

theorem forall₂_of_resolve (h : Interpreter.resolve values operands = some vs) :
    List.Forall₂ (fun o v => values[o]? = some v) operands vs := by
  induction operands generalizing vs with
  | nil =>
    cases h
    exact .nil
  | cons o operands ih =>
    obtain ⟨v, vs, hv, hvs, rfl⟩ := Interpreter.resolve_cons h
    exact .cons hv (ih hvs)

/-- Every node of a run takes the value computed from its operands. -/
theorem exists_value (hrun : LogicInterpreter.run env ⟨nodes⟩ = some values) {n : LogicNode}
    (hn : nodes[i]? = some n) :
    ∃ operands v, List.Forall₂ (fun o v => values[o]? = some v) n.operands operands ∧
      LogicInterpreter.evalNode env i n operands = some v ∧ v.conformsToType n.type = true ∧
      values[i]? = some v := by
  obtain ⟨hi, hni⟩ := List.getElem?_eq_some_iff.mp hn
  have hsplit : nodes = nodes.take i ++ n :: nodes.drop (i + 1) := by
    rw [← hni, ← List.drop_eq_getElem_cons hi, List.take_append_drop]
  rw [hsplit, run_append] at hrun
  obtain ⟨before, hbefore, hrest⟩ := Option.bind_eq_some_iff.mp hrun
  obtain ⟨next, hstep, hrest⟩ := Option.bind_eq_some_iff.mp hrest
  obtain ⟨v, operands, rfl, hoperands, heval, hconf⟩ := LogicInterpreter.step_eq_some hstep
  obtain ⟨more, rfl, -⟩ := length_of_foldlM hrest
  have hlength : before.length = i := by
    rw [length_of_run hbefore, List.length_take, min_eq_left hi.le]
  refine ⟨operands, v, (forall₂_of_resolve hoperands).imp fun o u hu => ?_, hlength ▸ heval, hconf,
    ?_⟩
  · rw [List.append_assoc, List.getElem?_append_left (List.getElem?_eq_some_iff.mp hu).1]
    exact hu
  · rw [List.append_assoc, ← hlength, List.getElem?_append_right le_rfl, Nat.sub_self]
    rfl

/-! ## The values of some nodes -/

/-- The outcome of a test is a single bit. -/
theorem boolResult_one (c : Bool) :
    Interpreter.boolResult (.bits 1) c = some (.bits (BitsOps.ofBool c)) := by
  cases c <;> rfl

/-- A comparison of two values. -/
theorem eval_eq (env : Env) (id : ℕ) (operands : List ℕ) (h : operands.length < 2 ^ 64)
    (v u : Value) : LogicInterpreter.evalNode env id ⟨.core .eq, operands, .bits 1, h⟩ [v, u] =
      some (.bits (BitsOps.ofBool (decide (v = u)))) := by
  show Interpreter.equalityOp true (.bits 1) [v, u] = _
  rw [Interpreter.equalityOp, beq_true, boolResult_one]

theorem eval_ne (env : Env) (id : ℕ) (operands : List ℕ) (h : operands.length < 2 ^ 64)
    (v u : Value) : LogicInterpreter.evalNode env id ⟨.core .ne, operands, .bits 1, h⟩ [v, u] =
      some (.bits (BitsOps.ofBool (decide (v ≠ u)))) := by
  show Interpreter.equalityOp false (.bits 1) [v, u] = _
  rw [Interpreter.equalityOp, beq_false, boolResult_one, decide_not]

/-- A comparison of numbers. -/
theorem eval_ult (env : Env) (id : ℕ) (operands : List ℕ) (h : operands.length < 2 ^ 64)
    (a b : Bits) : LogicInterpreter.evalNode env id ⟨.core .ult, operands, .bits 1, h⟩
      [.bits a, .bits b] = some (.bits (BitsOps.ofBool (BitsOps.uLessThan a b))) :=
  boolResult_one _

theorem eval_ugt (env : Env) (id : ℕ) (operands : List ℕ) (h : operands.length < 2 ^ 64)
    (a b : Bits) : LogicInterpreter.evalNode env id ⟨.core .ugt, operands, .bits 1, h⟩
      [.bits a, .bits b] = some (.bits (BitsOps.ofBool (BitsOps.uLessThan b a))) :=
  boolResult_one _

theorem bitsVector_map (bs : List Bits) : Interpreter.bitsVector (bs.map .bits) = some bs := by
  induction bs with
  | nil => rfl
  | cons b bs ih => rw [List.map_cons, Interpreter.bitsVector, Value.asBits, ih]

theorem foldl_and_ofBool (cs : List Bool) (c : Bool) :
    (cs.map BitsOps.ofBool).foldl BitsOps.and (BitsOps.ofBool c) =
      BitsOps.ofBool (c && cs.all fun c => c) := by
  induction cs generalizing c with
  | nil => rw [List.map_nil, List.foldl_nil, List.all_nil, Bool.and_true]
  | cons d cs ih =>
    have hand : BitsOps.and (BitsOps.ofBool c) (BitsOps.ofBool d) = BitsOps.ofBool (c && d) := by
      cases c <;> cases d <;> rfl
    rw [List.map_cons, List.foldl_cons, hand, ih, List.all_cons, Bool.and_assoc]

/-- The conjunction of single bits, at least one of them. -/
theorem eval_and (env : Env) (id : ℕ) (operands : List ℕ) (h : operands.length < 2 ^ 64)
    {cs : List Bool} (hcs : cs ≠ []) :
    LogicInterpreter.evalNode env id ⟨.and, operands, .bits 1, h⟩
      (cs.map fun c => .bits (BitsOps.ofBool c)) =
        some (.bits (BitsOps.ofBool (cs.all fun c => c))) := by
  rcases cs with _ | ⟨c, cs⟩
  · exact absurd rfl hcs
  · show LogicInterpreter.naryOp BitsOps.naryAnd _ = _
    have hmap : (c :: cs).map (fun c => Value.bits (BitsOps.ofBool c)) =
        ((c :: cs).map BitsOps.ofBool).map .bits := by rw [List.map_map]; rfl
    have hwidth : ∀ b ∈ cs.map BitsOps.ofBool, b.bitCount = (BitsOps.ofBool c).bitCount := by
      intro b hb
      obtain ⟨d, -, rfl⟩ := List.mem_map.mp hb
      rfl
    rw [LogicInterpreter.naryOp, hmap, bitsVector_map, Option.bind_some, List.map_cons,
      BitsOps.naryAnd, BitsOps.nary, if_pos hwidth, foldl_and_ofBool]
    rfl

/-- A select with two cases. -/
theorem eval_sel (env : Env) (id : ℕ) (operands : List ℕ) (type : Ty) (h : operands.length < 2 ^ 64)
    (c : Bool) (v u : Value) :
    LogicInterpreter.evalNode env id ⟨.core (.sel false), operands, type, h⟩
      [.bits (BitsOps.ofBool c), v, u] = some (if c then u else v) := by
  cases c <;> rfl

theorem conforms_bits (b : Bits) : (Value.bits b).conformsToType (.bits b.bitCount) = true := by
  rw [Value.conformsToType, beq_self_eq_true]

theorem conforms_ofBool (c : Bool) :
    (Value.bits (BitsOps.ofBool c)).conformsToType (.bits 1) = true := rfl

end NodeBuilder

end Xls
