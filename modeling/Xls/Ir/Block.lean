/-
# Blocks

`xls/ir/block.h`: a netlist of nodes and registers.  A node is known by a number, a
register by its name.  The editing functions follow `Node::ReplaceUsesWith`,
`Node::ReplaceOperandNumber` (`xls/ir/node.cc`), `Block::AddRegister` and
`Block::GetRegisterWrite` (`xls/ir/block.cc`); `none` stands for an error status.

A cycle of a block is given by the values of all nodes.  They must agree with the
registers and with each other, as they do after `xls/interpreter/block_interpreter.cc`
has evaluated the nodes; the registers of the next cycle are read off the register
writes.
-/
import Xls.Ir.Function

namespace Xls

/-- The operations of a block; the operations of functions are among them. -/
inductive BlockOp where
  | inputPort
  | outputPort
  | registerRead (reg : String)
  | registerWrite (reg : String) (hasLoadEnable hasReset : Bool)
  | and | or | not
  | ir (op : Op)
  deriving DecidableEq, Repr

/-- A node of a block. -/
structure BlockNode where
  op : BlockOp
  operands : List ℕ
  type : Ty
  deriving DecidableEq, Repr

/-- `Reset`. -/
structure Reset where
  resetValue : Value
  activeLow : Bool

/-- `Register`. -/
structure Register where
  type : Ty
  reset : Option Reset

/-- `Block`: its nodes, the number of the next node, its registers, the write of each
register, and the reset port. -/
structure Block where
  nodes : ℕ → Option BlockNode
  nextId : ℕ
  registers : String → Option Register
  registerWrites : String → Option ℕ
  resetPort : Option ℕ

namespace Block

/-! ## Editing -/

/-- `MakeNode`. -/
def makeNode (b : Block) (n : BlockNode) : Block × ℕ :=
  ({ b with nodes := Function.update b.nodes b.nextId (some n), nextId := b.nextId + 1 }, b.nextId)

/-- `GetType`. -/
def typeOf (b : Block) (id : ℕ) : Option Ty := (b.nodes id).map BlockNode.type

/-- `MakeNode<NaryOp>` and `MakeNode<UnOp>`: the type is that of the first operand. -/
def makeOp (b : Block) (op : BlockOp) (operands : List ℕ) : Option (Block × ℕ) :=
  match operands with
  | [] => none
  | first :: _ => (b.typeOf first).map fun t => b.makeNode ⟨op, operands, t⟩

/-- `MakeNode<Select>` without a default: the type is that of the first case. -/
def makeSelect (b : Block) (selector : ℕ) (cases : List ℕ) : Option (Block × ℕ) :=
  match cases with
  | [] => none
  | first :: _ =>
    (b.typeOf first).map fun t => b.makeNode ⟨.ir (.sel false), selector :: cases, t⟩

/-- The operand of a use after `ReplaceUsesWith`. -/
def redirect (old new operand : ℕ) : ℕ := if operand = old then new else operand

/-- A node whose uses of `old` have become uses of `new`. -/
def rewire (old new : ℕ) (n : BlockNode) : BlockNode :=
  { n with operands := n.operands.map (redirect old new) }

/-- `ReplaceUsesWith`: the uses of a node become uses of another node of its type, except
those by the other node itself. -/
def replaceUsesWith (b : Block) (node replacement : ℕ) : Option Block :=
  if b.typeOf node = b.typeOf replacement then
    some { b with nodes := fun id => (b.nodes id).map fun n =>
      if id = replacement then n else rewire node replacement n }
  else none

/-- `operand(operandNo)`. -/
def operand (b : Block) (id operandNo : ℕ) : Option ℕ :=
  match b.nodes id with
  | some n => n.operands[operandNo]?
  | none => none

/-- The node `id` with one operand replaced. -/
def setOperand (b : Block) (id operandNo newOperand : ℕ) : Block :=
  { b with nodes := fun i => (b.nodes i).map fun n =>
      if i = id then { n with operands := n.operands.set operandNo newOperand } else n }

/-- `ReplaceOperandNumber`. -/
def replaceOperandNumber (b : Block) (id operandNo newOperand : ℕ) : Option Block :=
  match b.operand id operandNo with
  | some oldOperand =>
    if b.typeOf oldOperand = b.typeOf newOperand then some (b.setOperand id operandNo newOperand)
    else none
  | none => none

/-- `AddRegister`: the name must be new. -/
def addRegister (b : Block) (name : String) (reg : Register) : Option Block :=
  match b.registers name with
  | some _ => none
  | none => some { b with registers := Function.update b.registers name (some reg) }

/-- `MakeNode<RegisterWrite>`: the write is recorded with its register. -/
def makeRegisterWrite (b : Block) (reg : String) (data : ℕ) (loadEnable reset : Option ℕ) :
    Block × ℕ :=
  let (b', id) := b.makeNode ⟨.registerWrite reg loadEnable.isSome reset.isSome,
    data :: (loadEnable.toList ++ reset.toList), .tuple []⟩
  ({ b' with registerWrites := Function.update b'.registerWrites reg (some id) }, id)

/-- `GetRegisterWrite`. -/
def getRegisterWrite (b : Block) (reg : String) : Option ℕ := b.registerWrites reg

/-- `ReplaceExistingLoadEnable`: operand 1 of a write which has a load enable. -/
def replaceExistingLoadEnable (b : Block) (write newOperand : ℕ) : Option Block :=
  match b.nodes write with
  | some ⟨.registerWrite _ true _, _, _⟩ => b.replaceOperandNumber write 1 newOperand
  | _ => none

/-- `RemoveNode` of a register write. -/
def removeNode (b : Block) (id : ℕ) : Block := { b with nodes := Function.update b.nodes id none }

/-! ## What the editing functions do

Each lemma says what the nodes are after an edit, from the number of the next node
before it. -/

/-- The block has a node with the given operation and operands. -/
def Has (b : Block) (id : ℕ) (op : BlockOp) (operands : List ℕ) : Prop :=
  ∃ t, b.nodes id = some ⟨op, operands, t⟩

/-- Nodes which are not among the touched ones keep their type and, when they do not use a
rewired node, their operands. -/
structure Keeps (touched rewired : List ℕ) (b b' : Block) : Prop where
  nextId_le : b.nextId ≤ b'.nextId
  types : ∀ id, id < b.nextId → id ∉ touched → b'.typeOf id = b.typeOf id
  nodes : ∀ id op operands, id < b.nextId → id ∉ touched → (∀ x ∈ rewired, x ∉ operands) →
    b.Has id op operands → b'.Has id op operands

/-- Two edits in a row. -/
theorem Keeps.trans {t r t' r' : List ℕ} {b b' b'' : Block} (h : Keeps t r b b')
    (h' : Keeps t' r' b' b'') : Keeps (t ++ t') (r ++ r') b b'' := by
  refine ⟨h.nextId_le.trans h'.nextId_le, ?_, ?_⟩
  · intro id hid htouched
    simp only [List.mem_append, not_or] at htouched
    exact (h'.types id (lt_of_lt_of_le hid h.nextId_le) htouched.2).trans
      (h.types id hid htouched.1)
  · intro id op operands hid htouched hrewired hhas
    simp only [List.mem_append, not_or] at htouched
    simp only [List.mem_append] at hrewired
    have hmid := h.nodes id op operands hid htouched.1 (fun x hx => hrewired x (.inl hx)) hhas
    exact h'.nodes id op operands (lt_of_lt_of_le hid h.nextId_le) htouched.2
      (fun x hx => hrewired x (.inr hx)) hmid

/-- A node which is not touched and has no rewired operand is kept. -/
theorem Keeps.has {t r : List ℕ} {b b' : Block} {id : ℕ} {op : BlockOp} {operands : List ℕ}
    (h : Keeps t r b b') (hhas : b.Has id op operands) (hid : id < b.nextId := by omega)
    (ht : id ∉ t := by first | (simp; done) | (simp; omega))
    (hr : ∀ x ∈ r, x ∉ operands := by first | (simp; done) | (simp; omega)) :
    b'.Has id op operands :=
  h.nodes id op operands hid ht hr hhas

/-- A node which is not retyped. -/
theorem Keeps.typeOf_eq {t r : List ℕ} {b b' : Block} (h : Keeps t r b b') (id : ℕ)
    (hid : id < b.nextId := by omega)
    (ht : id ∉ t := by first | (simp; done) | (simp; omega)) : b'.typeOf id = b.typeOf id :=
  h.types id hid ht

/-- A weaker frame. -/
theorem Keeps.mono {t r t' r' : List ℕ} {b b' : Block} (h : Keeps t r b b') (ht : t ⊆ t')
    (hr : r ⊆ r') : Keeps t' r' b b' :=
  ⟨h.nextId_le, fun id hid htouched => h.types id hid fun hmem => htouched (ht hmem),
    fun id op operands hid htouched hrewired =>
      h.nodes id op operands hid (fun hmem => htouched (ht hmem)) fun x hx => hrewired x (hr hx)⟩

/-- The registers are left alone. -/
def SameRegisters (b b' : Block) : Prop :=
  b'.registers = b.registers ∧ b'.registerWrites = b.registerWrites ∧ b'.resetPort = b.resetPort

/-- Two edits which leave the registers. -/
theorem SameRegisters.trans {b b' b'' : Block} (h : SameRegisters b b') (h' : SameRegisters b' b'') :
    SameRegisters b b'' :=
  ⟨h'.1.trans h.1, h'.2.1.trans h.2.1, h'.2.2.trans h.2.2⟩

section Edits

variable {b b' : Block} {m : ℕ}

section

variable (hm : b.nextId = m)

include hm

/-! ## New nodes -/

/-- `MakeNode`: the new node, and nothing else changes. -/
theorem makeNode_spec (op : BlockOp) (operands : List ℕ) (t : Ty) :
    (b.makeNode ⟨op, operands, t⟩).1.nextId = m + 1 ∧
    (b.makeNode ⟨op, operands, t⟩).1.Has m op operands ∧
    (b.makeNode ⟨op, operands, t⟩).1.typeOf m = some t ∧
    Keeps [] [] b (b.makeNode ⟨op, operands, t⟩).1 := by
  subst hm
  have hnew : (b.makeNode ⟨op, operands, t⟩).1.nodes b.nextId = some ⟨op, operands, t⟩ :=
    Function.update_self _ _ _
  have hold : ∀ id < b.nextId, (b.makeNode ⟨op, operands, t⟩).1.nodes id = b.nodes id :=
    fun id hid => Function.update_of_ne hid.ne _ _
  refine ⟨rfl, ⟨t, hnew⟩, ?_, Nat.le_succ _, ?_, ?_⟩
  · unfold typeOf
    rw [hnew, Option.map_some]
  · intro id hid _
    unfold typeOf
    rw [hold id hid]
  · rintro id op' operands' hid - - ⟨t', hnode⟩
    exact ⟨t', (hold id hid).trans hnode⟩

/-- An operation with operands. -/
theorem makeOp_spec {op : BlockOp} {x id : ℕ} {xs : List ℕ}
    (h : b.makeOp op (x :: xs) = some (b', id)) :
    m = id ∧ b'.nextId = m + 1 ∧ b'.Has m op (x :: xs) ∧ Keeps [] [] b b' ∧
    SameRegisters b b' := by
  obtain ⟨t, -, heq⟩ := Option.map_eq_some_iff.mp h
  cases heq
  obtain ⟨hnext, hhas, -, hkeep⟩ := makeNode_spec hm op (x :: xs) t
  exact ⟨hm.symm, hnext, hhas, hkeep, rfl, rfl, rfl⟩

/-- A select with cases. -/
theorem makeSelect_spec {selector x id : ℕ} {xs : List ℕ}
    (h : b.makeSelect selector (x :: xs) = some (b', id)) :
    m = id ∧ b'.nextId = m + 1 ∧ b'.Has m (.ir (.sel false)) (selector :: x :: xs) ∧
    Keeps [] [] b b' ∧ SameRegisters b b' := by
  obtain ⟨t, -, heq⟩ := Option.map_eq_some_iff.mp h
  cases heq
  obtain ⟨hnext, hhas, -, hkeep⟩ := makeNode_spec hm (.ir (.sel false)) (selector :: x :: xs) t
  exact ⟨hm.symm, hnext, hhas, hkeep, rfl, rfl, rfl⟩

/-! ## Rewiring -/

omit hm in
/-- Operands without the old node stay. -/
theorem map_redirect_of_notMem {old new : ℕ} {operands : List ℕ} (h : old ∉ operands) :
    operands.map (redirect old new) = operands := by
  refine (List.map_congr_left ?_).trans (List.map_id operands)
  intro x hx
  have hne : x ≠ old := fun heq => h (heq ▸ hx)
  exact if_neg hne

/-- `ReplaceUsesWith`: only the users of the node change. -/
theorem replaceUsesWith_spec {node replacement : ℕ}
    (h : b.replaceUsesWith node replacement = some b') :
    b'.nextId = m ∧ Keeps [] [node] b b' ∧
    (∀ op operands, b.Has replacement op operands → b'.Has replacement op operands) ∧
    (∀ id op operands, id ≠ replacement → b.Has id op operands →
      b'.Has id op (operands.map (redirect node replacement))) ∧
    (∀ x, b'.typeOf (redirect node replacement x) = b.typeOf x) ∧
    SameRegisters b b' := by
  -- rewired nodes are found under the same number, with the same type
  obtain ⟨htype, hnext, hsame, hnodes⟩ : b.typeOf node = b.typeOf replacement ∧
      b'.nextId = b.nextId ∧ SameRegisters b b' ∧ ∀ id, b'.nodes id = (b.nodes id).map fun n =>
        if id = replacement then n else rewire node replacement n := by
    unfold replaceUsesWith at h
    split at h
    · rename_i htype
      cases h
      exact ⟨htype, rfl, ⟨rfl, rfl, rfl⟩, fun _ => rfl⟩
    · cases h
  have hself : ∀ op operands, b.Has replacement op operands → b'.Has replacement op operands := by
    rintro op operands ⟨t, ht⟩
    exact ⟨t, by rw [hnodes, ht, Option.map_some, if_pos rfl]⟩
  have hother : ∀ id op operands, id ≠ replacement → b.Has id op operands →
      b'.Has id op (operands.map (redirect node replacement)) := by
    rintro id op operands hid ⟨t, ht⟩
    refine ⟨t, ?_⟩
    rw [hnodes, ht, Option.map_some, if_neg hid]
    rfl
  have htypes : ∀ id, b'.typeOf id = b.typeOf id := by
    intro id
    unfold typeOf
    rw [hnodes]
    cases b.nodes id with
    | none => rfl
    | some n =>
      by_cases hid : id = replacement
      · simp only [Option.map_some, if_pos hid]
      · simp only [if_neg hid]
        rfl
  refine ⟨hnext.trans hm, ⟨hnext.ge, fun id _ _ => htypes id, ?_⟩, hself, hother, ?_, hsame⟩
  · intro id op operands _ _ hrewired hhas
    by_cases hid : id = replacement
    · subst hid
      exact hself op operands hhas
    · have := hother id op operands hid hhas
      rwa [map_redirect_of_notMem (hrewired node (List.mem_singleton_self _))] at this
  · intro x
    rw [htypes]
    unfold redirect
    split
    · rename_i hx
      rw [hx, htype]
    · rfl

/-- One operand is set. -/
theorem setOperand_spec (id k x : ℕ) :
    (b.setOperand id k x).nextId = m ∧ Keeps [id] [] b (b.setOperand id k x) ∧
    (b.setOperand id k x).typeOf id = b.typeOf id ∧
    (∀ op operands, b.Has id op operands → (b.setOperand id k x).Has id op (operands.set k x)) ∧
    SameRegisters b (b.setOperand id k x) := by
  have hother : ∀ i, i ≠ id → (b.setOperand id k x).nodes i = b.nodes i := by
    intro i hi
    show (b.nodes i).map _ = _
    simp only [if_neg hi, Option.map_id']
  have hself : (b.setOperand id k x).nodes id =
      (b.nodes id).map fun n => { n with operands := n.operands.set k x } := by
    show (b.nodes id).map _ = _
    simp only [↓reduceIte]
  refine ⟨hm, ⟨le_rfl, ?_, ?_⟩, ?_, ?_, rfl, rfl, rfl⟩
  · intro i _ hi
    unfold typeOf
    rw [hother i fun heq => hi (List.mem_singleton.mpr heq)]
  · rintro i op operands - hi - ⟨t, ht⟩
    exact ⟨t, (hother i fun heq => hi (List.mem_singleton.mpr heq)).trans ht⟩
  · unfold typeOf
    rw [hself, Option.map_map]
    rfl
  · rintro op operands ⟨t, ht⟩
    exact ⟨t, by rw [hself, ht, Option.map_some]⟩

/-- `ReplaceOperandNumber`. -/
theorem replaceOperandNumber_spec {id k x : ℕ} (h : b.replaceOperandNumber id k x = some b') :
    b'.nextId = m ∧ Keeps [id] [] b b' ∧ b'.typeOf id = b.typeOf id ∧
    (∀ op operands, b.Has id op operands → b'.Has id op (operands.set k x)) ∧
    SameRegisters b b' := by
  unfold replaceOperandNumber at h
  split at h
  · split at h
    · cases h
      exact setOperand_spec hm id k x
    · cases h
  · cases h

/-- `ReplaceExistingLoadEnable`. -/
theorem replaceExistingLoadEnable_spec {id x : ℕ} (h : b.replaceExistingLoadEnable id x = some b') :
    b'.nextId = m ∧ Keeps [id] [] b b' ∧ b'.typeOf id = b.typeOf id ∧
    (∀ op operands, b.Has id op operands → b'.Has id op (operands.set 1 x)) ∧
    SameRegisters b b' := by
  unfold replaceExistingLoadEnable at h
  split at h
  · exact replaceOperandNumber_spec hm h
  · cases h

/-! ## Registers -/

/-- A register write, which is recorded. -/
theorem makeRegisterWrite_spec (reg : String) (data : ℕ) (loadEnable reset : Option ℕ) :
    (b.makeRegisterWrite reg data loadEnable reset).1.nextId = m + 1 ∧
    (b.makeRegisterWrite reg data loadEnable reset).1.Has m
      (.registerWrite reg loadEnable.isSome reset.isSome)
      (data :: (loadEnable.toList ++ reset.toList)) ∧
    Keeps [] [] b (b.makeRegisterWrite reg data loadEnable reset).1 ∧
    (b.makeRegisterWrite reg data loadEnable reset).1.registers = b.registers ∧
    (b.makeRegisterWrite reg data loadEnable reset).1.registerWrites =
      Function.update b.registerWrites reg (some m) ∧
    (b.makeRegisterWrite reg data loadEnable reset).1.resetPort = b.resetPort := by
  obtain ⟨hnext, hhas, -, hkeep⟩ := makeNode_spec hm
    (.registerWrite reg loadEnable.isSome reset.isSome)
    (data :: (loadEnable.toList ++ reset.toList)) (.tuple [])
  refine ⟨hnext, hhas, ⟨hkeep.nextId_le, hkeep.types, hkeep.nodes⟩, rfl, ?_, rfl⟩
  show Function.update b.registerWrites reg (some b.nextId) = _
  rw [hm]

/-- `AddRegister`: a new name. -/
theorem addRegister_spec {name : String} {reg : Register} (h : b.addRegister name reg = some b') :
    b.registers name = none ∧ b'.nextId = m ∧ Keeps [] [] b b' ∧
    b'.registers = Function.update b.registers name (some reg) ∧
    b'.registerWrites = b.registerWrites ∧ b'.resetPort = b.resetPort := by
  unfold addRegister at h
  split at h
  · cases h
  · rename_i hnew
    cases h
    exact ⟨hnew, hm, ⟨le_rfl, fun _ _ _ => rfl, fun _ _ _ _ _ _ hhas => hhas⟩, rfl, rfl, rfl⟩

end

/-- The operands of a node. -/
theorem operand_of_has {id k : ℕ} {op : BlockOp} {operands : List ℕ} (h : b.Has id op operands) :
    b.operand id k = operands[k]? := by
  obtain ⟨t, ht⟩ := h
  unfold operand
  rw [ht]

end Edits

/-! ## Evaluation -/

/-- A bitwise operation on any number of operands of one width. -/
def naryBits (f : ℕ → ℕ → ℕ) : List Bits → Option Bits
  | [] => none
  | first :: rest =>
    some (rest.foldl (fun acc b => Bits.ofNat first.bitCount (f acc.toNat b.toNat)) first)

/-- The value of a node on the values of its operands, in a cycle with the given
registers.  Ports of the block get their value from outside. -/
def evalNode (env : Env) (regs : String → Value) (id : ℕ) (n : BlockNode)
    (operands : List Value) : Option Value :=
  match n.op with
  | .inputPort => some (env id operands)
  | .outputPort => some (.tuple [])
  | .registerRead reg => some (regs reg)
  | .registerWrite _ _ _ => some (.tuple [])
  | .and => ((Interpreter.bitsVector operands).bind (naryBits Nat.land)).map .bits
  | .or => ((Interpreter.bitsVector operands).bind (naryBits Nat.lor)).map .bits
  | .not => (Interpreter.bits1 operands).map fun b => .bits (Bits.ofNat b.bitCount
      (2 ^ b.bitCount - 1 - b.toNat))
  | .ir op => Interpreter.evalNode env id ⟨op, n.operands, n.type⟩ operands

/-- The values of the nodes in one cycle: each is computed from the values of the
operands, and conforms to its type. -/
def Consistent (b : Block) (regs : String → Value) (val : ℕ → Value) : Prop :=
  ∃ env, ∀ id n, b.nodes id = some n →
    evalNode env regs id n (n.operands.map val) = some (val id) ∧
    (val id).conformsToType n.type = true

/-- A one-bit value. -/
def ofBool (b : Bool) : Value := .bits (BitsOps.ofBool b)

/-- `ResolveAsBool`. -/
def isTrue (v : Value) : Bool := decide (v = ofBool true)

/-- `get_next_reg_state` of `HandleRegisterWrite`, for a write with the given operand
values. -/
def nextRegState (reset : Option Reset) (hasLoadEnable hasReset : Bool) (old : Value)
    (operands : List Value) : Option Value :=
  let loadEnable := if hasLoadEnable then operands[1]? else none
  let resetSignal := if hasReset then operands[if hasLoadEnable then 2 else 1]? else none
  let inReset := match resetSignal, reset with
    | some signal, some r => isTrue signal != r.activeLow
    | _, _ => false
  if inReset then reset.map Reset.resetValue
  else
    match loadEnable with
    | some enable => if isTrue enable then operands[0]? else some old
    | none => operands[0]?

/-- The registers after a cycle. -/
def NextRegs (b : Block) (regs : String → Value) (val : ℕ → Value) (regs' : String → Value) : Prop :=
  ∀ reg r write n hasLoadEnable hasReset, b.registers reg = some r →
    b.getRegisterWrite reg = some write → b.nodes write = some n →
    n.op = .registerWrite reg hasLoadEnable hasReset →
    nextRegState r.reset hasLoadEnable hasReset (regs reg) (n.operands.map val) =
      some (regs' reg)

/-- One cycle of a block. -/
def Step (b : Block) (regs : String → Value) (val : ℕ → Value) (regs' : String → Value) : Prop :=
  b.Consistent regs val ∧ b.NextRegs regs val regs'

/-- The operands of every node exist. -/
def WellFormed (b : Block) : Prop :=
  ∀ id n, b.nodes id = some n → id < b.nextId ∧ ∀ o ∈ n.operands, o < b.nextId

/-- The registers hold their reset values. -/
def InResetState (b : Block) (regs : String → Value) : Prop :=
  ∀ reg r reset, b.registers reg = some r → r.reset = some reset → regs reg = reset.resetValue

/-! ## Values of one-bit nodes -/

/-- The truth of a bit. -/
@[simp] theorem isTrue_ofBool (b : Bool) : isTrue (ofBool b) = b := by
  cases b <;> rfl

/-- A value of the one-bit type is a truth value. -/
theorem exists_ofBool {v : Value} (h : v.conformsToType (.bits 1) = true) : ∃ b, v = ofBool b := by
  obtain ⟨⟨w, n, hn⟩, hv, hw⟩ := Value.asBits_of_conforms h
  subst hw
  have hn : n = 0 ∨ n = 1 := by omega
  rcases hn with rfl | rfl
  · exact ⟨false, hv⟩
  · exact ⟨true, hv⟩

/-- Bits as a vector. -/
theorem bitsVector_map_ofBool (bs : List Bool) :
    Interpreter.bitsVector (bs.map ofBool) = some (bs.map BitsOps.ofBool) := by
  induction bs with
  | nil => rfl
  | cons b rest ih =>
    rw [List.map_cons, Interpreter.bitsVector, ih]
    rfl

/-- A bitwise operation which acts on single bits as `g` does, folded over one-bit
values. -/
theorem naryBits_ofBool {f : ℕ → ℕ → ℕ} {g : Bool → Bool → Bool}
    (hfg : ∀ a b : Bool, Bits.ofNat 1 (f (BitsOps.ofBool a).toNat (BitsOps.ofBool b).toNat) =
      BitsOps.ofBool (g a b)) (first : Bool) (rest : List Bool) :
    naryBits f ((first :: rest).map BitsOps.ofBool) = some (BitsOps.ofBool (rest.foldl g first)) := by
  have hfold : ∀ (l : List Bool) (a : Bool),
      (l.map BitsOps.ofBool).foldl (fun acc b => Bits.ofNat 1 (f acc.toNat b.toNat))
        (BitsOps.ofBool a) = BitsOps.ofBool (l.foldl g a) := by
    intro l
    induction l with
    | nil => exact fun _ => rfl
    | cons c rest ih =>
      intro a
      rw [List.map_cons, List.foldl_cons, hfg, ih, List.foldl_cons]
  exact congrArg some (hfold rest first)

section Values

variable {b : Block} {regs : String → Value} {val : ℕ → Value} {id : ℕ}

/-! ## Consistent blocks -/

/-- A read has the value of its register. -/
theorem Consistent.registerRead (h : b.Consistent regs val) {reg : String}
    (hn : b.Has id (.registerRead reg) []) : val id = regs reg := by
  obtain ⟨env, henv⟩ := h
  obtain ⟨t, ht⟩ := hn
  exact (Option.some.inj (henv id _ ht).1).symm

variable {x : ℕ} {a : Bool}

/-- The conjunction of bits. -/
theorem Consistent.and (h : b.Consistent regs val) {xs : List ℕ} (hn : b.Has id .and (x :: xs))
    {l : List Bool} (hval : (x :: xs).map val = (a :: l).map ofBool) :
    val id = ofBool (l.foldl Bool.and a) := by
  obtain ⟨env, henv⟩ := h
  obtain ⟨t, ht⟩ := hn
  have heval := (henv id _ ht).1
  have hfold := naryBits_ofBool (f := Nat.land) (g := Bool.and) (by decide) a l
  simp only [evalNode, hval, bitsVector_map_ofBool, Option.bind_some, hfold, Option.map_some,
    Option.some.injEq] at heval
  exact heval.symm

/-- The disjunction of bits. -/
theorem Consistent.or (h : b.Consistent regs val) {xs : List ℕ} (hn : b.Has id .or (x :: xs))
    {l : List Bool} (hval : (x :: xs).map val = (a :: l).map ofBool) :
    val id = ofBool (l.foldl Bool.or a) := by
  obtain ⟨env, henv⟩ := h
  obtain ⟨t, ht⟩ := hn
  have heval := (henv id _ ht).1
  have hfold := naryBits_ofBool (f := Nat.lor) (g := Bool.or) (by decide) a l
  simp only [evalNode, hval, bitsVector_map_ofBool, Option.bind_some, hfold, Option.map_some,
    Option.some.injEq] at heval
  exact heval.symm

/-- The inverse of a bit. -/
theorem Consistent.not (h : b.Consistent regs val) (hn : b.Has id .not [x])
    (hval : val x = ofBool a) : val id = ofBool (!a) := by
  obtain ⟨env, henv⟩ := h
  obtain ⟨t, ht⟩ := hn
  have heval := (henv id _ ht).1
  rw [List.map_singleton, hval] at heval
  cases a <;> exact (Option.some.inj heval).symm

/-- A select between two nodes. -/
theorem Consistent.select (h : b.Consistent regs val) {selector y : ℕ}
    (hn : b.Has id (.ir (.sel false)) [selector, x, y]) (hval : val selector = ofBool a) :
    val id = if a then val y else val x := by
  obtain ⟨env, henv⟩ := h
  obtain ⟨t, ht⟩ := hn
  have heval := (henv id _ ht).1
  simp only [List.map_cons, hval] at heval
  cases a <;> exact (Option.some.inj heval).symm

end Values

end Block

end Xls
