/-
# Buffers of streaming channels

`AddSkidBufferToRDVNodes`, `AddRegisterToRDVNodes` and `AddZeroLatencyBufferToRDVNodes`
(`xls/codegen/block_conversion.cc`) insert a buffer behind a data and a valid node and in
front of a ready node, by adding nodes and registers to a block and rewiring uses.
-/
import Xls.Ir.Block
import Xls.Lib.Run

namespace Xls

namespace BlockConversion

open Block

/-- `CodegenOptions::IOKind`. -/
inductive IOKind where
  | flop
  | skidBuffer
  | zeroLatencyBuffer
  deriving DecidableEq, Repr

/-- A `RegisterRead` node and its register. -/
structure RegisterRead where
  id : ℕ
  reg : String
  deriving DecidableEq, Repr

/-- `AddRegisterAfterNode`. -/
def addRegisterAfterNode (namePrefix : String) (resetBehavior : Option Reset)
    (loadEnable : Option ℕ) (node : ℕ) (b : Block) : Option (Block × RegisterRead) := do
  let reset ← resetBehavior
  let resetPort ← b.resetPort
  let type ← b.typeOf node
  let name := "__" ++ namePrefix ++ "_reg"
  let b ← b.addRegister name ⟨type, some { reset with resetValue := Value.zeroOfType type }⟩
  let (b, regRead) := b.makeNode ⟨.registerRead name, [], type⟩
  let b ← b.replaceUsesWith node regRead
  let (b, _) := b.makeRegisterWrite name node loadEnable (some resetPort)
  return (b, ⟨regRead, name⟩)

/-- `from_rdy->operand_count()` must be one. -/
def checkSingleOperand (b : Block) (fromRdy : ℕ) : Option Unit :=
  match b.nodes fromRdy with
  | some n => if n.operands.length = 1 then some () else none
  | none => none

/-- The nodes made in the middle of the skid and zero-latency buffers. -/
structure SkidOutputs where
  toValid : ℕ
  toData : ℕ
  toIsReady : ℕ
  fromSkidRdy : ℕ
  deriving DecidableEq, Repr

/-- The middle of the skid and zero-latency buffers: the outputs are selected from the skid
registers when these are valid, and input is accepted whenever they are empty. -/
def makeSkidOutputs (valid data dataValidSkidRegRead dataSkidRegRead fromRdy : ℕ) (b : Block) :
    Option (Block × SkidOutputs) := do
  let (b, toValid) ← b.makeOp .or [valid, dataValidSkidRegRead]
  let b ← b.replaceUsesWith dataValidSkidRegRead toValid
  let (b, toData) ← b.makeSelect dataValidSkidRegRead [data, dataSkidRegRead]
  let b ← b.replaceUsesWith dataSkidRegRead toData
  let toIsReady ← b.operand fromRdy 0
  let (b, fromSkidRdy) ← b.makeOp .not [dataValidSkidRegRead]
  let b ← b.replaceOperandNumber fromRdy 0 fromSkidRdy
  return (b, ⟨toValid, toData, toIsReady, fromSkidRdy⟩)

/-- The end of the skid and zero-latency buffers: the skid is loaded, and set to zero when
its value is sent.  The skid valid register gets its own inverse. -/
def connectSkid (dataSkid validSkid : RegisterRead) (skidDataLoadEn toIsReady fromSkidRdy : ℕ)
    (b : Block) : Option Block := do
  let (b, skidValidSetZero) ← b.makeOp .and [validSkid.id, toIsReady]
  let (b, skidValidLoadEn) ← b.makeOp .or [skidDataLoadEn, skidValidSetZero]
  let dataSkidRegWrite ← b.getRegisterWrite dataSkid.reg
  let b ← b.replaceExistingLoadEnable dataSkidRegWrite skidDataLoadEn
  let dataValidSkidRegWrite ← b.getRegisterWrite validSkid.reg
  let b ← b.replaceExistingLoadEnable dataValidSkidRegWrite skidValidLoadEn
  b.replaceOperandNumber dataValidSkidRegWrite 0 fromSkidRdy

/-- The registers of a skid buffer. -/
structure SkidRegisters where
  data : RegisterRead
  dataSkid : RegisterRead
  dataValid : RegisterRead
  dataValidSkid : RegisterRead

/-- The first part of `AddSkidBufferToRDVNodes`: data and valid, and their skid
counterparts, with a load enable which is replaced later. -/
def addSkidRegisters (fromData fromValid : ℕ) (namePrefix : String)
    (resetBehavior : Option Reset) (b : Block) : Option (Block × SkidRegisters) := do
  let (b, literal1) := b.makeNode ⟨.ir (.literal (.bits (BitsOps.ofBool true))), [], .bits 1⟩
  let (b, data) ← addRegisterAfterNode namePrefix resetBehavior (some literal1) fromData b
  let (b, dataSkid) ←
    addRegisterAfterNode (namePrefix ++ "_skid") resetBehavior (some literal1) data.id b
  let (b, dataValid) ←
    addRegisterAfterNode (namePrefix ++ "_valid") resetBehavior (some literal1) fromValid b
  let (b, dataValidSkid) ←
    addRegisterAfterNode (namePrefix ++ "_valid_skid") resetBehavior (some literal1) dataValid.id b
  return (b, ⟨data, dataSkid, dataValid, dataValidSkid⟩)

/-- The last part of `AddSkidBufferToRDVNodes`: the load enables. -/
def loadSkidRegisters (regs : SkidRegisters) (out : SkidOutputs) (fromValid : ℕ) (b : Block) :
    Option Block := do
  -- data is set when input is read
  let (b, inputReadyAndValid) ← b.makeOp .and [fromValid, out.fromSkidRdy]
  let dataRegWrite ← b.getRegisterWrite regs.data.reg
  let b ← b.replaceExistingLoadEnable dataRegWrite inputReadyAndValid
  -- valid is set when input is read or data is sent
  let (b, dataIsSentTo) ← b.makeOp .and [regs.dataValid.id, out.toIsReady, out.fromSkidRdy]
  let (b, validLoadEn) ← b.makeOp .or [dataIsSentTo, inputReadyAndValid]
  let dataValidRegWrite ← b.getRegisterWrite regs.dataValid.reg
  let b ← b.replaceExistingLoadEnable dataValidRegWrite validLoadEn
  -- the skid is loaded from the first stage
  let (b, toIsNotRdy) ← b.makeOp .not [out.toIsReady]
  let (b, skidDataLoadEn) ← b.makeOp .and [regs.dataValid.id, inputReadyAndValid, toIsNotRdy]
  connectSkid regs.dataSkid regs.dataValidSkid skidDataLoadEn out.toIsReady out.fromSkidRdy b

/-- `AddSkidBufferToRDVNodes`: the block, the new valid node and the new data node. -/
def addSkidBufferToRDVNodes (fromData fromValid fromRdy : ℕ) (namePrefix : String)
    (resetBehavior : Option Reset) (b : Block) : Option (Block × ℕ × ℕ) := do
  checkSingleOperand b fromRdy
  let (b, regs) ← addSkidRegisters fromData fromValid namePrefix resetBehavior b
  let (b, out) ← makeSkidOutputs regs.dataValid.id regs.data.id regs.dataValidSkid.id
    regs.dataSkid.id fromRdy b
  let b ← loadSkidRegisters regs out fromValid b
  return (b, out.toValid, out.toData)

/-- `AddZeroLatencyBufferToRDVNodes`. -/
def addZeroLatencyBufferToRDVNodes (fromData fromValid fromRdy : ℕ) (namePrefix : String)
    (resetBehavior : Option Reset) (b : Block) : Option (Block × ℕ × ℕ) := do
  checkSingleOperand b fromRdy
  let (b, literal1) := b.makeNode ⟨.ir (.literal (.bits (BitsOps.ofBool true))), [], .bits 1⟩
  let (b, dataSkidReg) ←
    addRegisterAfterNode (namePrefix ++ "_skid") resetBehavior (some literal1) fromData b
  let (b, dataValidSkidReg) ←
    addRegisterAfterNode (namePrefix ++ "_valid_skid") resetBehavior (some literal1) fromValid b
  let (b, out) ←
    makeSkidOutputs fromValid fromData dataValidSkidReg.id dataSkidReg.id fromRdy b
  let (b, toIsNotRdy) ← b.makeOp .not [out.toIsReady]
  let (b, skidDataLoadEn) ← b.makeOp .and [fromValid, out.fromSkidRdy, toIsNotRdy]
  let b ← connectSkid dataSkidReg dataValidSkidReg skidDataLoadEn out.toIsReady out.fromSkidRdy b
  return (b, out.toValid, out.toData)

/-- `UpdateRegisterLoadEn`: the write of a register is made anew with a load enable. -/
def updateRegisterLoadEn (loadEn : ℕ) (reg : String) (b : Block) : Option Block := do
  let oldRegWrite ← b.getRegisterWrite reg
  match b.nodes oldRegWrite with
  | some ⟨.registerWrite _ hasLoadEnable hasReset, operands, _⟩ =>
    let data ← operands[0]?
    let reset := if hasReset then operands[if hasLoadEnable then 2 else 1]? else none
    let (b, _) := b.makeRegisterWrite reg data (some loadEn) reset
    return b.removeNode oldRegWrite
  | _ => none

/-- `AddRegisterToRDVNodes`. -/
def addRegisterToRDVNodes (fromData fromValid fromRdy : ℕ) (namePrefix : String)
    (resetBehavior : Option Reset) (b : Block) : Option (Block × ℕ × ℕ) := do
  checkSingleOperand b fromRdy
  let (b, dataReg) ← addRegisterAfterNode namePrefix resetBehavior none fromData b
  let (b, validReg) ←
    addRegisterAfterNode (namePrefix ++ "_valid") resetBehavior none fromValid b
  let fromRdySrc ← b.operand fromRdy 0
  let (b, notValid) ← b.makeOp .not [validReg.id]
  let (b, validLoadEn) ← b.makeOp .or [fromRdySrc, notValid]
  let (b, dataLoadEn) ← b.makeOp .and [fromValid, validLoadEn]
  -- `ReplaceOperand` on a node with a single operand
  let b := b.setOperand fromRdy 0 dataLoadEn
  let b ← updateRegisterLoadEn dataLoadEn dataReg.reg b
  let b ← updateRegisterLoadEn validLoadEn validReg.reg b
  return (b, validReg.id, dataReg.id)

/-- `AddRegisterAfterStreamingInput`: the buffer of the given kind. -/
def addRegisterAfterStreamingInput (kind : IOKind) (fromData fromValid fromRdy : ℕ)
    (namePrefix : String) (resetBehavior : Option Reset) (b : Block) : Option (Block × ℕ × ℕ) :=
  match kind with
  | .zeroLatencyBuffer =>
    addZeroLatencyBufferToRDVNodes fromData fromValid fromRdy namePrefix resetBehavior b
  | .skidBuffer => addSkidBufferToRDVNodes fromData fromValid fromRdy namePrefix resetBehavior b
  | .flop => addRegisterToRDVNodes fromData fromValid fromRdy namePrefix resetBehavior b

end BlockConversion

end Xls
