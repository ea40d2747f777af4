/-
# Functions as graphs of nodes

A pass which replaces nodes in place leaves them where they are in the list of the nodes, with new
nodes behind them, so that operands no longer come before their users.  Nodes are known by their
position.  `MakeNode` runs the checks of the verifier on a new node (`xls/ir/function_base.h`).

* `Replaces` : a node which may stand in the place of another one, with new nodes behind it;
* `Sound.replaces` : it does when each new node passes its checks and has a value.
-/
import Xls.Ir.LogicFunction
import Xls.Ir.SignedBits
import Xls.Lib.FoldM
import Xls.Lib.TermGraph

namespace Xls

/-- The operations, with the multiplications and the token operation which `LogicOp` leaves out. -/
inductive GraphOp where
  | logic (op : LogicOp)
  | smul | smulp (width : ℕ) | umulp (width : ℕ) | afterAll
  deriving DecidableEq, Repr

/-- The operation and the type of a node. -/
structure NodeLabel where
  op : GraphOp
  type : Ty
  deriving DecidableEq, Repr

/-- The nodes of a function. -/
abbrev NodeGraph := TermGraph NodeLabel

namespace NodeGraph

/-! ## Values -/

/-- A product is cut or extended to the width of the node. -/
def fitProduct (extend : Bits → ℕ → Bits) (result : Bits) (w : ℕ) : Bits :=
  if result.bitCount > w then BitsOps.slice result 0 w
  else if result.bitCount < w then extend result w
  else result

/-- `HandleSMul`. -/
def smul (type : Ty) (operands : List Value) : Option Value :=
  match type, Interpreter.bits2 operands with
  | .bits w, some (a, b) => some (.bits (fitProduct BitsOps.signExtend (BitsOps.sMul a b) w))
  | _, _ => none

/-- `MulpOffsetForSimulation` with its shift of two. -/
def mulpOffsetForSimulation (resultSize : ℕ) : Bits :=
  let offsetLsbsSize := resultSize - 2
  let msbsSize := resultSize - offsetLsbsSize
  let offsetBits :=
    BitsOps.shiftRightLogical (Bits.allOnes offsetLsbsSize) (min (offsetLsbsSize - 1) 2)
  if msbsSize > 0 then BitsOps.concat [Bits.ofNat msbsSize (2 ^ (msbsSize - 1) - 1), offsetBits]
  else offsetBits

/-- `HandleSMulp` and `HandleUMulp`: two summands of the product. -/
def mulp (product : Bits → Bits → Bits) (extend : Bits → ℕ → Bits) (width : ℕ)
    (operands : List Value) : Option Value :=
  match Interpreter.bits2 operands with
  | some (a, b) =>
    let result := fitProduct extend (product a b) width
    let offset := mulpOffsetForSimulation width
    some (.tuple [.bits offset, .bits (BitsOps.sub result offset)])
  | none => none

/-- The value of a node on the values of its operands. -/
def evalLabel (env : Env) (i : ℕ) (d : NodeLabel) (operands : List Value) : Option Value :=
  match d.op with
  | .logic op => LogicInterpreter.evalNode env i ⟨op, [], d.type, Nat.two_pow_pos 64⟩ operands
  | .smul => smul d.type operands
  | .smulp w => mulp BitsOps.sMul BitsOps.signExtend w operands
  | .umulp w => mulp BitsOps.uMul BitsOps.zeroExtend w operands
  | .afterAll => some .token

/-- The value, which must be of the type of the node. -/
def sem (env : Env) (i : ℕ) (d : NodeLabel) (operands : List Value) : Option Value :=
  (evalLabel env i d operands).filter fun v => v.conformsToType d.type

/-- The nodes have values. -/
abbrev Valuation (env : Env) (g : NodeGraph) (val : ℕ → Value) : Prop :=
  TermGraph.IsValuation (sem env) g val

/-- A value of the right type. -/
theorem sem_eq_some {env : Env} {i : ℕ} {d : NodeLabel} {operands : List Value} {v : Value} :
    sem env i d operands = some v ↔
      evalLabel env i d operands = some v ∧ v.conformsToType d.type = true :=
  Option.filter_eq_some_iff

/-! ## The verifier -/

/-- `HandleSMulp` and `HandleUMulp`. -/
def mulpTypes (width : ℕ) (type : Ty) (operandTypes : List Ty) : Bool :=
  match operandTypes with
  | [.bits _, .bits _] => decide (type = .tuple [.bits width, .bits width])
  | _ => false

/-- The checks on one node. -/
def verifyLabel (d : NodeLabel) (operandTypes : List Ty) : Bool :=
  match d.op with
  | .logic op => LogicVerifier.verifyNode ⟨op, [], d.type, Nat.two_pow_pos 64⟩ operandTypes
  | .smul => Verifier.verifyNode ⟨.umul, [], d.type⟩ operandTypes
  | .smulp w | .umulp w => mulpTypes w d.type operandTypes
  | .afterAll => decide (d.type = .token) && operandTypes.all fun t => decide (t = .token)

/-- `GetType`. -/
def typeOf (g : NodeGraph) (i : ℕ) : Option Ty := (g.vertex i).map fun n => n.label.type

/-- The types of some nodes. -/
def typesOf (g : NodeGraph) (is : List ℕ) : Option (List Ty) := is.mapM g.typeOf

/-- The checks on a node in the graph.  The operands are counted by a `size_t`. -/
def verifyVertex (g : NodeGraph) (n : Vertex NodeLabel) : Bool :=
  match g.typesOf n.operands with
  | some types => verifyLabel n.label types && decide (n.operands.length < 2 ^ 64)
  | none => false

/-- All nodes pass their checks. -/
def Verified (g : NodeGraph) : Prop := ∀ k n, g.vertex k = some n → g.verifyVertex n = true

/-! ## New nodes -/

/-- Some calls of `MakeNode`. -/
def makeNodes (g : NodeGraph) : List (Vertex NodeLabel) → Option NodeGraph
  | [] => some g
  | n :: rest => if g.verifyVertex n then makeNodes (g.make n) rest else none

variable {env : Env} {g : NodeGraph} {n : Vertex NodeLabel} {i r k : ℕ} {val : ℕ → Value}

/-! ## Types in the grown graph -/

/-- Old nodes keep their types. -/
theorem typeOf_make_of_lt (h : k < g.length) : typeOf (g.make n) k = g.typeOf k := by
  rw [typeOf, TermGraph.vertex_make_of_ne h.ne, typeOf]

/-- The type of the new node. -/
theorem typeOf_make_length : typeOf (g.make n) g.length = some n.label.type := by
  rw [typeOf, TermGraph.vertex_make_length, Option.map_some]

/-- A node with a type is there. -/
theorem lt_length_of_typeOf {t : Ty} (h : g.typeOf k = some t) : k < g.length := by
  obtain ⟨n, hn, -⟩ := Option.map_eq_some_iff.mp h
  exact TermGraph.lt_length_of_vertex hn

/-- A type which was found stays. -/
theorem typeOf_make_of_eq_some {t : Ty} (h : g.typeOf k = some t) :
    typeOf (g.make n) k = some t := by
  rw [typeOf_make_of_lt (lt_length_of_typeOf h), h]

/-- The types one by one. -/
theorem typesOf_eq_some {is : List ℕ} {ts : List Ty} :
    g.typesOf is = some ts ↔ List.Forall₂ (fun i t => g.typeOf i = some t) is ts :=
  mapM_eq_some_iff

/-- A node passes with the types of its operands. -/
theorem verifyVertex_iff : g.verifyVertex n = true ↔ ∃ types,
    List.Forall₂ (fun i t => g.typeOf i = some t) n.operands types ∧
      verifyLabel n.label types = true ∧ n.operands.length < 2 ^ 64 := by
  rw [verifyVertex]
  constructor
  · intro h
    split at h
    · rename_i types htypes
      rw [Bool.and_eq_true, decide_eq_true_eq] at h
      exact ⟨types, typesOf_eq_some.mp htypes, h⟩
    · cases h
  · rintro ⟨types, htypes, hlabel, hlength⟩
    rw [typesOf_eq_some.mpr htypes]
    simp only
    rw [hlabel, Bool.true_and, decide_eq_true hlength]

/-- A new node does not disturb the checks. -/
theorem verifyVertex_make {m : Vertex NodeLabel} (h : g.verifyVertex m = true) :
    verifyVertex (g.make n) m = true := by
  obtain ⟨types, htypes, hlabel⟩ := verifyVertex_iff.mp h
  exact verifyVertex_iff.mpr ⟨types, htypes.imp fun _ _ => typeOf_make_of_eq_some, hlabel⟩

/-- A node which passes may be made. -/
theorem Verified.make (h : Verified g) (hn : g.verifyVertex n = true) : Verified (g.make n) := by
  intro k m hm
  by_cases hk : k = g.length
  · subst hk
    rw [TermGraph.vertex_make_length, Option.some.injEq] at hm
    subst hm
    exact verifyVertex_make hn
  · rw [TermGraph.vertex_make_of_ne hk] at hm
    exact verifyVertex_make (h k m hm)

/-- Operands are nodes of the graph. -/
theorem lt_length_of_verifyVertex (h : g.verifyVertex n = true) : ∀ o ∈ n.operands,
    o < g.length := by
  obtain ⟨types, htypes, -⟩ := verifyVertex_iff.mp h
  intro o ho
  obtain ⟨t, ht⟩ := Relational.exists_of_mapM (typesOf_eq_some.mpr htypes) ho
  exact lt_length_of_typeOf ht

/-- So are those of all nodes. -/
theorem Verified.bounded (h : Verified g) : g.Bounded :=
  fun k m hm => lt_length_of_verifyVertex (h k m hm)

/-! ## A node in the place of another -/

/-- The node `r` of the graph, which has grown, may stand in the place of `i`. -/
structure Replaces (g : NodeGraph) (i : ℕ) (g' : NodeGraph) (r : ℕ) : Prop where
  grows : g <+: g'
  verified : Verified g'
  type : g'.typeOf r = g'.typeOf i
  total : ∀ env val, Valuation env g val →
    ∃ val', Valuation env g' val' ∧ ∀ k < g.length, val' k = val k
  value : ∀ env val, Valuation env g' val → val r = val i

/-- Each new node passes its checks and has a value, and the values of two nodes agree. -/
def Sound (i r : ℕ) : NodeGraph → List (Vertex NodeLabel) → Prop
  | g, [] => g.typeOf r = g.typeOf i ∧ ∀ env val, Valuation env g val → val r = val i
  | g, n :: rest => g.verifyVertex n = true ∧
      (∀ env val, Valuation env g val →
        ∃ v, sem env g.length n.label (n.operands.map val) = some v) ∧
      Sound i r (g.make n) rest

/-- Sound new nodes are made and may stand in the place of the node. -/
theorem Sound.replaces {new : List (Vertex NodeLabel)} (hg : Verified g) (h : Sound i r g new) :
    ∃ g', g.makeNodes new = some g' ∧ Replaces g i g' r := by
  induction new generalizing g with
  | nil =>
    exact ⟨g, rfl, List.prefix_refl g, hg, h.1, fun env val hval => ⟨val, hval, fun _ _ => rfl⟩,
      h.2⟩
  | cons n rest ih =>
    obtain ⟨hn, hvalue, hrest⟩ := h
    obtain ⟨g', hmake, hreplaces⟩ := ih (hg.make hn) hrest
    have hgrows : g <+: g.make n := List.prefix_append g _
    refine ⟨g', ?_, hgrows.trans hreplaces.grows, hreplaces.verified, hreplaces.type, ?_,
      hreplaces.value⟩
    · rw [makeNodes, if_pos hn, hmake]
    · intro env val hval
      obtain ⟨v, hv⟩ := hvalue env val hval
      have hold : ∀ k < g.length, Function.update val g.length v k = val k := fun k hk =>
        Function.update_of_ne hk.ne ..
      have hmade : Valuation env (g.make n) (Function.update val g.length v) := by
        refine TermGraph.isValuation_make.mpr ⟨?_, ?_⟩
        · refine hval.congr fun k m hm => ⟨hold k (TermGraph.lt_length_of_vertex hm), ?_⟩
          exact fun o ho => hold o (hg.bounded k m hm o ho)
        · rw [Function.update_self, List.map_congr_left fun o ho =>
            hold o (lt_length_of_verifyVertex hn o ho)]
          exact hv
      obtain ⟨val', hval', hagree⟩ := hreplaces.total env _ hmade
      refine ⟨val', hval', fun k hk => ?_⟩
      rw [hagree k (by rw [TermGraph.length_make]; omega), hold k hk]

end NodeGraph

end Xls
