/-
# The netlists of the stream buffers

What the three buffer functions leave in the block: the new nodes with their operands,
the load enables and data of the register writes, and the operand of the ready node.
The order of the rewiring matters: a node added before a `ReplaceUsesWith` is rewired
by it, one added after is not.
-/
import Xls.Codegen.RdvBuffers

namespace Xls

namespace BlockConversion

open Block

/-- The parts of a monadic computation which succeeds. -/
theorem bind_some {α β : Type} {x : Option α} {f : α → Option β} {r : β}
    (h : (x >>= f) = some r) : ∃ a, x = some a ∧ f a = some r := Option.bind_eq_some_iff.mp h

/-- The name of the register made by `AddRegisterAfterNode`. -/
def registerName (namePrefix : String) : String := "__" ++ namePrefix ++ "_reg"

/-- The registers of a buffer besides its data register. -/
abbrev skidName (namePrefix : String) : String := registerName (namePrefix ++ "_skid")

abbrev validName (namePrefix : String) : String := registerName (namePrefix ++ "_valid")

abbrev validSkidName (namePrefix : String) : String := registerName (namePrefix ++ "_valid_skid")

/-- The register of `AddRegisterAfterNode` for a node of the given type. -/
def bufferRegister (type : Ty) (reset : Reset) : Register :=
  ⟨type, some { reset with resetValue := Value.zeroOfType type }⟩

/-- The register has the given type and reset, and its write has the given operands. -/
structure Writes (b : Block) (reg : String) (type : Ty) (reset : Reset) (write : ℕ)
    (hasLoadEnable : Bool) (operands : List ℕ) : Prop where
  register : b.registers reg = some (bufferRegister type reset)
  recorded : b.registerWrites reg = some write
  node : b.Has write (.registerWrite reg hasLoadEnable true) operands

section Edits

variable {b b' : Block} {m : ℕ}

theorem redirect_lt {old new x bound : ℕ} (hnew : new < bound) (hx : x < bound) :
    redirect old new x < bound := by
  unfold redirect
  split
  · exact hnew
  · exact hx

theorem addRegisterAfterNode_spec (hm : b.nextId = m) {namePrefix : String}
    {resetBehavior : Option Reset} {loadEnable : Option ℕ} {node : ℕ} {r : RegisterRead}
    (h : addRegisterAfterNode namePrefix resetBehavior loadEnable node b = some (b', r)) :
    r = ⟨m, registerName namePrefix⟩ ∧ b'.nextId = m + 2 ∧
    ∃ reset resetPort type, resetBehavior = some reset ∧ b.resetPort = some resetPort ∧
      b.typeOf node = some type ∧
      b'.Has m (.registerRead (registerName namePrefix)) [] ∧
      Writes b' (registerName namePrefix) type reset (m + 1) loadEnable.isSome
        (node :: (loadEnable.toList ++ [resetPort])) ∧
      Keeps [] [node] b b' ∧
      (∀ id op operands, id < m → b.Has id op operands →
        b'.Has id op (operands.map (redirect node m))) ∧
      (∀ x < m, b'.typeOf (redirect node m x) = b.typeOf x) ∧
      (∀ reg, reg ≠ registerName namePrefix →
        b'.registers reg = b.registers reg ∧ b'.registerWrites reg = b.registerWrites reg) ∧
      b.registers (registerName namePrefix) = none ∧ b'.resetPort = b.resetPort := by
  obtain ⟨reset, hreset, h⟩ := bind_some h
  obtain ⟨resetPort, hport, h⟩ := bind_some h
  obtain ⟨type, htype, h⟩ := bind_some h
  obtain ⟨b₁, hadd, h⟩ := bind_some h
  obtain ⟨b₃, hreplace, h⟩ := bind_some h
  cases h
  obtain ⟨hnew, n₁, k₁, g₁, w₁, p₁⟩ := addRegister_spec hm hadd
  obtain ⟨n₂, hread, -, k₂⟩ :=
    makeNode_spec n₁ (.registerRead (registerName namePrefix)) [] type
  obtain ⟨n₃, k₃, self₃, other₃, types₃, g₃, w₃, p₃⟩ := replaceUsesWith_spec n₂ hreplace
  obtain ⟨n₄, hwrite, k₄, g₄, w₄, p₄⟩ :=
    makeRegisterWrite_spec n₃ (registerName namePrefix) node loadEnable (some resetPort)
  have k₁₂ := k₁.trans k₂
  refine ⟨congrArg (RegisterRead.mk · _) n₁, n₄, reset, resetPort, type, hreset, hport, htype, ?_,
    ⟨?_, ?_, hwrite⟩, (k₁₂.trans k₃).trans k₄, ?_, ?_, ?_, hnew,
    p₄.trans (p₃.trans p₁)⟩
  · exact k₄.has (n₁ ▸ self₃ _ _ (n₁.symm ▸ hread))
  · refine (congrFun (g₄.trans (g₃.trans g₁)) _).trans ?_
    exact Function.update_self _ _ _
  · exact (congrFun w₄ _).trans (Function.update_self _ _ _)
  · intro id op operands hlt hhas
    have hb₂ := k₁₂.has hhas
    have hb₃ := other₃ id op operands (by rw [n₁]; exact hlt.ne) hb₂
    rw [n₁] at hb₃
    exact k₄.has hb₃
  · intro x hx
    have hlt : redirect node m x < m + 1 := redirect_lt (by omega) (by omega)
    have hb₃ := types₃ x
    rw [n₁] at hb₃
    exact ((k₄.typeOf_eq _).trans hb₃).trans (k₁₂.typeOf_eq x)
  · intro reg hreg
    refine ⟨?_, ?_⟩
    · refine (congrFun (g₄.trans (g₃.trans g₁)) _).trans ?_
      exact Function.update_of_ne hreg _ _
    · refine (congrFun w₄ _).trans ((Function.update_of_ne hreg _ _).trans ?_)
      exact congrFun (w₃.trans w₁) reg

theorem Writes.keep {reg : String} {type : Ty} {reset : Reset} {write : ℕ} {hasLoadEnable : Bool}
    {operands touched rewired : List ℕ} (h : Writes b reg type reset write hasLoadEnable operands)
    (hkeep : Keeps touched rewired b b')
    (hsame : b'.registers reg = b.registers reg ∧ b'.registerWrites reg = b.registerWrites reg)
    (hlt : write < b.nextId := by omega)
    (htouched : write ∉ touched := by first | (simp; done) | (simp; omega))
    (hrewired : ∀ x ∈ rewired, x ∉ operands := by first | (simp; done) | (simp; omega)) :
    Writes b' reg type reset write hasLoadEnable operands :=
  ⟨hsame.1.trans h.register, hsame.2.trans h.recorded, hkeep.has h.node hlt htouched hrewired⟩

/-- The name of a register which is there differs from a new name. -/
theorem Writes.ne_of_new {reg reg' : String} {type : Ty} {reset : Reset} {write : ℕ}
    {hasLoadEnable : Bool} {operands : List ℕ}
    (h : Writes b reg type reset write hasLoadEnable operands)
    (hnew : b.registers reg' = none) : reg ≠ reg' := by
  rintro rfl
  rw [h.register] at hnew
  cases hnew

theorem makeSkidOutputs_spec (hm : b.nextId = m) {valid data validSkid dataSkid fromRdy : ℕ}
    {out : SkidOutputs} (hrdy : fromRdy < m) (hsv : validSkid ≠ dataSkid) (hv : valid ≠ dataSkid)
    (h : makeSkidOutputs valid data validSkid dataSkid fromRdy b = some (b', out)) :
    out.toValid = m ∧ out.toData = m + 1 ∧ out.fromSkidRdy = m + 2 ∧ b'.nextId = m + 3 ∧
    b'.Has m .or [valid, validSkid] ∧ b'.Has (m + 1) (.ir (.sel false)) [validSkid, data, dataSkid] ∧
    b'.Has (m + 2) .not [validSkid] ∧
    Keeps [fromRdy] [validSkid, dataSkid] b b' ∧
    (∀ op src, src < m → b.Has fromRdy op [src] → b'.Has fromRdy op [m + 2] ∧
      out.toIsReady = redirect dataSkid (m + 1) (redirect validSkid m src) ∧
      b'.typeOf out.toIsReady = b.typeOf src) ∧
    SameRegisters b b' := by
  obtain ⟨⟨b₁, toValid⟩, h₁, h⟩ := bind_some h
  obtain ⟨b₂, h₂, h⟩ := bind_some h
  obtain ⟨⟨b₃, toData⟩, h₃, h⟩ := bind_some h
  obtain ⟨b₄, h₄, h⟩ := bind_some h
  obtain ⟨toIsReady, hready, h⟩ := bind_some h
  obtain ⟨⟨b₅, fromSkidRdy⟩, h₅, h⟩ := bind_some h
  obtain ⟨b₆, h₆, h⟩ := bind_some h
  cases h
  obtain ⟨rfl, n₁, e₁, k₁, s₁⟩ := makeOp_spec hm h₁
  obtain ⟨n₂, k₂, self₂, other₂, ty₂, s₂⟩ := replaceUsesWith_spec n₁ h₂
  obtain ⟨rfl, n₃, e₃, k₃, s₃⟩ := makeSelect_spec n₂ h₃
  obtain ⟨n₄, k₄, self₄, other₄, ty₄, s₄⟩ := replaceUsesWith_spec n₃ h₄
  obtain ⟨rfl, n₅, e₅, k₅, s₅⟩ := makeOp_spec n₄ h₅
  obtain ⟨n₆, k₆, ty₆, set₆, s₆⟩ := replaceOperandNumber_spec n₅ h₆
  have k₅₆ := k₅.trans k₆
  have k₄₆ := k₄.trans k₅₆
  have k₃₆ := k₃.trans k₄₆
  refine ⟨rfl, rfl, rfl, n₆, ?_, ?_, ?_, (k₁.trans k₂).trans k₃₆, ?_, ?_⟩
  · refine k₃₆.nodes m _ _ (by omega) ?_ ?_ (self₂ _ _ e₁)
    · simp only [List.nil_append, List.mem_singleton]
      omega
    · simp [hv.symm, hsv.symm]
  · refine k₅₆.nodes (m + 1) _ _ (by omega) ?_ (by simp) (self₄ _ _ e₃)
    simp only [List.nil_append, List.mem_singleton]
    omega
  · refine k₆.nodes (m + 2) _ _ (by omega) ?_ (by simp) e₅
    simp only [List.mem_singleton]
    omega
  · intro op src hlt hsrc
    have hb₂ := other₂ fromRdy op _ (by omega) (k₁.has hsrc)
    have hb₄ := other₄ fromRdy op _ (by omega) (k₃.has hb₂)
    have hb₅ := k₅.has hb₄
    rw [operand_of_has hb₄] at hready
    have hready : redirect dataSkid (m + 1) (redirect validSkid m src) = toIsReady :=
      Option.some.inj hready
    refine ⟨set₆ op _ hb₅, hready.symm, ?_⟩
    have hmid : redirect validSkid m src < m + 1 := redirect_lt (by omega) (by omega)
    have hend : toIsReady < m + 2 := hready ▸ redirect_lt (by omega) (by omega)
    calc b'.typeOf toIsReady = b₅.typeOf toIsReady := by
          by_cases hself : toIsReady = fromRdy
          · rw [hself]
            exact ty₆
          · exact k₆.types _ (by omega) (by simpa using hself)
      _ = b₄.typeOf toIsReady := k₅.typeOf_eq _
      _ = b₃.typeOf (redirect validSkid m src) := by rw [← hready, ty₄]
      _ = b₂.typeOf (redirect validSkid m src) := k₃.typeOf_eq _
      _ = b₁.typeOf src := ty₂ src
      _ = b.typeOf src := k₁.typeOf_eq _
  · exact s₁.trans (s₂.trans (s₃.trans (s₄.trans (s₅.trans s₆))))

theorem connectSkid_spec (hm : b.nextId = m) {dataSkid validSkid : RegisterRead}
    {skidDataLoadEn toIsReady fromSkidRdy w₁ w₂ : ℕ}
    (hw₁ : b.registerWrites dataSkid.reg = some w₁) (hw₂ : b.registerWrites validSkid.reg = some w₂)
    (hlt₁ : w₁ < m) (hlt₂ : w₂ < m) (hne : w₁ ≠ w₂)
    (h : connectSkid dataSkid validSkid skidDataLoadEn toIsReady fromSkidRdy b = some b') :
    b'.nextId = m + 2 ∧ b'.Has m .and [validSkid.id, toIsReady] ∧
    b'.Has (m + 1) .or [skidDataLoadEn, m] ∧ Keeps [w₁, w₂] [] b b' ∧
    (∀ op operands, b.Has w₁ op operands → b'.Has w₁ op (operands.set 1 skidDataLoadEn)) ∧
    (∀ op operands, b.Has w₂ op operands →
      b'.Has w₂ op ((operands.set 1 (m + 1)).set 0 fromSkidRdy)) ∧
    SameRegisters b b' := by
  obtain ⟨⟨b₁, _⟩, h₁, h⟩ := bind_some h
  obtain ⟨⟨b₂, _⟩, h₂, h⟩ := bind_some h
  obtain ⟨w, hw, h⟩ := bind_some h
  obtain ⟨b₃, h₃, h⟩ := bind_some h
  obtain ⟨w', hw', h⟩ := bind_some h
  obtain ⟨b₄, h₄, h₅⟩ := bind_some h
  obtain ⟨rfl, n₁, e₁, k₁, s₁⟩ := makeOp_spec hm h₁
  obtain ⟨rfl, n₂, e₂, k₂, s₂⟩ := makeOp_spec n₁ h₂
  obtain ⟨n₃, k₃, -, set₃, s₃⟩ := replaceExistingLoadEnable_spec n₂ h₃
  obtain ⟨n₄, k₄, -, set₄, s₄⟩ := replaceExistingLoadEnable_spec n₃ h₄
  obtain ⟨n₅, k₅, -, set₅, s₅⟩ := replaceOperandNumber_spec n₄ h₅
  have s₁₂ := s₁.trans s₂
  have s₁₃ := s₁₂.trans s₃
  -- the writes are found where they were
  have hfound₁ : b₂.registerWrites dataSkid.reg = some w := hw
  have hfound₂ : b₃.registerWrites validSkid.reg = some w' := hw'
  rw [s₁₂.2.1, hw₁] at hfound₁
  rw [s₁₃.2.1, hw₂] at hfound₂
  cases hfound₁
  cases hfound₂
  have k₃₅ := k₃.trans (k₄.trans k₅)
  have k₂₅ := k₂.trans k₃₅
  have hfresh : ∀ i, m ≤ i → i ∉ [w₁] ++ ([w₂] ++ [w₂]) := by
    intro i hi
    simp only [List.mem_append, List.mem_singleton]
    omega
  refine ⟨n₅, ?_, ?_, (k₁.trans k₂₅).mono (by simp) (by simp), ?_, ?_, s₁₃.trans (s₄.trans s₅)⟩
  · exact k₂₅.nodes m _ _ (by omega) (by simpa using hfresh m le_rfl) (by simp) e₁
  · exact k₃₅.nodes (m + 1) _ _ (by omega) (by simpa using hfresh (m + 1) (by omega)) (by simp) e₂
  · intro op operands hhas
    have hb₂ := (k₁.trans k₂).has hhas
    exact (k₄.trans k₅).nodes w₁ op _ (by omega) (by simpa using hne) (by simp) (set₃ op _ hb₂)
  · intro op operands hhas
    have hb₃ := (k₁.trans (k₂.trans k₃)).nodes w₂ op operands (by omega) (by simpa using hne.symm)
      (by simp) hhas
    exact set₅ op _ (set₄ op _ hb₃)

end Edits

/-! ## The host block -/

/-- What is known of a block into which a buffer is inserted: the nodes are there and
distinct, the ready node has the single operand `src`, and valid and ready have one bit. -/
structure Host (b : Block) (fromData fromValid fromRdy src : ℕ) : Prop where
  wellFormed : b.WellFormed
  data_lt : fromData < b.nextId
  data_ne_valid : fromData ≠ fromValid
  rdy_ne_valid : fromRdy ≠ fromValid
  rdy : ∃ op, b.Has fromRdy op [src]
  valid_type : b.typeOf fromValid = some (.bits 1)
  src_type : b.typeOf src = some (.bits 1)
  resetPort : ∀ port, b.resetPort = some port → port < b.nextId ∧ port ≠ fromValid

section Host

variable {b : Block} {fromData fromValid fromRdy src : ℕ}

/-- The nodes of the host, below the number of the next node. -/
theorem Host.numbered (h : Host b fromData fromValid fromRdy src) : ∃ n op, b.nextId = n ∧
    b.Has fromRdy op [src] ∧ fromRdy < n ∧ src < n ∧ fromData < n ∧ fromValid < n ∧
    ∀ port, b.resetPort = some port → port < n ∧ port ≠ fromValid := by
  obtain ⟨op, t, ht⟩ := h.rdy
  obtain ⟨hrdy, hsrc⟩ := h.wellFormed _ _ ht
  obtain ⟨n, hn, -⟩ := Option.map_eq_some_iff.mp h.valid_type
  exact ⟨b.nextId, op, rfl, ⟨t, ht⟩, hrdy, hsrc src (List.mem_singleton_self _), h.data_lt,
    (h.wellFormed _ _ hn).1, h.resetPort⟩

end Host

/-- The node which tells the buffer that its output is accepted: the old operand of the
ready node, or the output of the buffer which has taken its place. -/
def downstream (fromData fromValid toData toValid src : ℕ) : ℕ :=
  redirect fromValid toValid (redirect fromData toData src)

/-- A use of the data or the valid node ends at the outputs of the buffer: the uses of the
last data register become uses of `toData`, those of the last valid register uses of
`toValid`. -/
theorem downstream_eq {n fromData fromValid src dataReg validReg toData toValid : ℕ}
    (hfv : fromValid < n) (hsrc : src < n) (hd : n ≤ dataReg) (hv : n ≤ validReg)
    (htd : n ≤ toData) (hdv : dataReg ≠ validReg) (hne : toValid ≠ dataReg) :
    redirect dataReg toData (redirect validReg toValid
      (redirect fromValid validReg (redirect fromData dataReg src))) =
      downstream fromData fromValid toData toValid src := by
  unfold downstream redirect
  split_ifs <;> omega

/-- How a buffer is connected: `ready` is the new operand of the ready node, and `toIsReady` tells
that the output is accepted. -/
structure Inserted (b : Block) (resetBehavior : Option Reset) (reset : Reset)
    (port fromValid fromRdy ready toIsReady : ℕ) : Prop where
  reset : resetBehavior = some reset
  resetPort : b.resetPort = some port
  operand : b.operand fromRdy 0 = some ready
  fromValid : b.typeOf fromValid = some (.bits 1)
  toIsReady : b.typeOf toIsReady = some (.bits 1)

/-! ## The skid buffer -/

/-- The inner nodes of a skid buffer. -/
structure SkidNodes where
  dataReg : ℕ
  dataSkidReg : ℕ
  dataValidReg : ℕ
  dataValidSkidReg : ℕ
  inputReadyAndValid : ℕ
  dataIsSentTo : ℕ
  validLoadEn : ℕ
  toIsNotRdy : ℕ
  skidDataLoadEn : ℕ
  skidValidSetZero : ℕ
  skidValidLoadEn : ℕ

/-- The logic which `AddSkidBufferToRDVNodes` leaves in a block. -/
structure SkidNetlist (b : Block) (namePrefix : String) (type : Ty) (reset : Reset)
    (resetPort fromData fromValid ready toValid toData toIsReady : ℕ) (x : SkidNodes) : Prop where
  dataRead : b.Has x.dataReg (.registerRead (registerName namePrefix)) []
  dataSkidRead : b.Has x.dataSkidReg (.registerRead (skidName namePrefix)) []
  validRead : b.Has x.dataValidReg (.registerRead (validName namePrefix)) []
  validSkidRead :
    b.Has x.dataValidSkidReg (.registerRead (validSkidName namePrefix)) []
  validOr : b.Has toValid .or [x.dataValidReg, x.dataValidSkidReg]
  dataSelect : b.Has toData (.ir (.sel false)) [x.dataValidSkidReg, x.dataReg, x.dataSkidReg]
  fromSkidRdy : b.Has ready .not [x.dataValidSkidReg]
  inputReadyAndValid : b.Has x.inputReadyAndValid .and [fromValid, ready]
  dataIsSentTo : b.Has x.dataIsSentTo .and [x.dataValidReg, toIsReady, ready]
  validLoadEn : b.Has x.validLoadEn .or [x.dataIsSentTo, x.inputReadyAndValid]
  toIsNotRdy : b.Has x.toIsNotRdy .not [toIsReady]
  skidDataLoadEn :
    b.Has x.skidDataLoadEn .and [x.dataValidReg, x.inputReadyAndValid, x.toIsNotRdy]
  skidValidSetZero : b.Has x.skidValidSetZero .and [x.dataValidSkidReg, toIsReady]
  skidValidLoadEn : b.Has x.skidValidLoadEn .or [x.skidDataLoadEn, x.skidValidSetZero]
  dataWrite : ∃ w, Writes b (registerName namePrefix) type reset w true
    [fromData, x.inputReadyAndValid, resetPort]
  dataSkidWrite : ∃ w, Writes b (skidName namePrefix) type reset w true
    [x.dataReg, x.skidDataLoadEn, resetPort]
  validWrite : ∃ w, Writes b (validName namePrefix) (.bits 1) reset w true
    [fromValid, x.validLoadEn, resetPort]
  validSkidWrite : ∃ w, Writes b (validSkidName namePrefix) (.bits 1) reset w true
    [ready, x.skidValidLoadEn, resetPort]

section SkidBuffer

variable {b b' : Block} {n : ℕ}

/-- What becomes of a use of `operand` when the four registers are added. -/
def behindSkidRegisters (n fromData fromValid operand : ℕ) : ℕ :=
  redirect (n + 5) (n + 7) (redirect fromValid (n + 5)
    (redirect (n + 1) (n + 3) (redirect fromData (n + 1) operand)))

/-- A use of the data or the valid node becomes a use of the last register behind it. -/
theorem behindSkidRegisters_eq (fromData : ℕ) {fromValid operand : ℕ} (hfv : fromValid < n)
    (ho : operand < n) :
    behindSkidRegisters n fromData fromValid operand =
      redirect fromValid (n + 7) (redirect fromData (n + 3) operand) := by
  unfold behindSkidRegisters redirect
  split_ifs <;> omega

theorem addSkidRegisters_spec (hn : b.nextId = n) {fromData fromValid : ℕ} {namePrefix : String}
    {resetBehavior : Option Reset} {regs : SkidRegisters} (hfd : fromData < n) (hfv : fromValid < n)
    (hdv : fromData ≠ fromValid) (hvt : b.typeOf fromValid = some (.bits 1))
    (hport : ∀ port, b.resetPort = some port → port < n ∧ port ≠ fromValid)
    (h : addSkidRegisters fromData fromValid namePrefix resetBehavior b = some (b', regs)) :
    regs = ⟨⟨n + 1, registerName namePrefix⟩, ⟨n + 3, skidName namePrefix⟩,
      ⟨n + 5, validName namePrefix⟩,
      ⟨n + 7, validSkidName namePrefix⟩⟩ ∧ b'.nextId = n + 9 ∧
    ∃ reset port type, resetBehavior = some reset ∧ b.resetPort = some port ∧
      b'.resetPort = some port ∧
      b'.Has (n + 1) (.registerRead (registerName namePrefix)) [] ∧
      b'.Has (n + 3) (.registerRead (skidName namePrefix)) [] ∧
      b'.Has (n + 5) (.registerRead (validName namePrefix)) [] ∧
      b'.Has (n + 7) (.registerRead (validSkidName namePrefix)) [] ∧
      Writes b' (registerName namePrefix) type reset (n + 2) true [fromData, n, port] ∧
      Writes b' (skidName namePrefix) type reset (n + 4) true [n + 1, n, port] ∧
      Writes b' (validName namePrefix) (.bits 1) reset (n + 6) true [fromValid, n, port] ∧
      Writes b' (validSkidName namePrefix) (.bits 1) reset (n + 8) true [n + 5, n, port] ∧
      Keeps [] [fromData, n + 1, fromValid, n + 5] b b' ∧
      (∀ id op operands, id < n → b.Has id op operands →
        b'.Has id op (operands.map (behindSkidRegisters n fromData fromValid))) ∧
      (∀ x < n, b'.typeOf (behindSkidRegisters n fromData fromValid x) = b.typeOf x) := by
  obtain ⟨⟨b₁, r₁⟩, h₁, h⟩ := bind_some h
  obtain ⟨⟨b₂, r₂⟩, h₂, h⟩ := bind_some h
  obtain ⟨⟨b₃, r₃⟩, h₃, h⟩ := bind_some h
  obtain ⟨⟨b₄, r₄⟩, h₄, h⟩ := bind_some h
  cases h
  obtain ⟨n₀, -, -, k₀⟩ :=
    makeNode_spec hn (.ir (.literal (.bits (BitsOps.ofBool true)))) [] (.bits 1)
  obtain ⟨rfl, n₁, reset, port, type, hreset, hport₁, htype, read₁, write₁, k₁, rew₁, ty₁, same₁,
    new₁, p₁⟩ := addRegisterAfterNode_spec n₀ h₁
  obtain ⟨rfl, n₂, reset₂, port₂, type₂, hreset₂, hport₂, htype₂, read₂, write₂, k₂, rew₂, ty₂,
    same₂, new₂, p₂⟩ := addRegisterAfterNode_spec n₁ h₂
  obtain ⟨rfl, n₃, reset₃, port₃, type₃, hreset₃, hport₃, htype₃, read₃, write₃, k₃, rew₃, ty₃,
    same₃, new₃, p₃⟩ := addRegisterAfterNode_spec n₂ h₃
  obtain ⟨rfl, n₄, reset₄, port₄, type₄, hreset₄, hport₄, htype₄, read₄, write₄, k₄, rew₄, ty₄,
    same₄, new₄, p₄⟩ := addRegisterAfterNode_spec n₃ h₄
  have hport₀ : b.resetPort = some port := hport₁
  obtain ⟨hlt, hne⟩ := hport port hport₀
  -- one reset and one reset port
  cases hreset.symm.trans hreset₂
  cases hreset.symm.trans hreset₃
  cases hreset.symm.trans hreset₄
  cases (p₁.trans hport₁).symm.trans hport₂
  cases (p₂.trans hport₂).symm.trans hport₃
  cases (p₃.trans hport₃).symm.trans hport₄
  -- the skid registers have the types of the registers before them
  have ht₂ : type₂ = type := by
    have := ty₁ fromData (by omega)
    rw [redirect, if_pos rfl, htype₂, htype] at this
    exact Option.some.inj this
  have ht₃ : type₃ = .bits 1 := by
    have := ((k₀.trans k₁).trans k₂).typeOf_eq fromValid
    rw [htype₃, hvt] at this
    exact Option.some.inj this
  have ht₄ : type₄ = .bits 1 := by
    have := ty₃ fromValid (by omega)
    rw [redirect, if_pos rfl, htype₄, htype₃, ht₃] at this
    exact Option.some.inj this
  subst ht₂ ht₃ ht₄
  -- the name of each register was new
  have ne₁₂ := write₁.ne_of_new new₂
  have write₁ := write₁.keep k₂ (same₂ _ ne₁₂)
  have ne₁₃ := write₁.ne_of_new new₃
  have ne₂₃ := write₂.ne_of_new new₃
  have write₁ := write₁.keep k₃ (same₃ _ ne₁₃)
  have write₂ := write₂.keep k₃ (same₃ _ ne₂₃)
  have ne₁₄ := write₁.ne_of_new new₄
  have ne₂₄ := write₂.ne_of_new new₄
  have ne₃₄ := write₃.ne_of_new new₄
  have k₃₄ := k₃.trans k₄
  have k₂₄ := k₂.trans k₃₄
  rw [hn] at write₁ write₂ write₃ write₄
  refine ⟨rfl, n₄, reset, port, type₂, hreset, hport₀, p₄.trans hport₄, ?_, ?_, ?_, read₄, ?_, ?_,
    ?_, write₄, ?_, ?_, ?_⟩
  · exact k₂₄.has read₁
  · exact k₃₄.has read₂
  · exact k₄.has read₃
  · exact write₁.keep k₄ (same₄ _ ne₁₄)
  · exact write₂.keep k₄ (same₄ _ ne₂₄)
  · exact write₃.keep k₄ (same₄ _ ne₃₄)
  · exact (k₀.trans (k₁.trans k₂₄)).mono (by simp) (by simp)
  · intro id op operands hid hhas
    have hb₁ := rew₁ id op _ (by omega) (k₀.has hhas)
    have hb₄ := rew₄ id op _ (by omega) (rew₃ id op _ (by omega) (rew₂ id op _ (by omega) hb₁))
    rw [List.map_map, List.map_map, List.map_map] at hb₄
    exact hb₄
  · intro x hx
    have hx₁ : redirect fromData (n + 1) x < n + 2 := redirect_lt (by omega) (by omega)
    have hx₂ : redirect (n + 1) (n + 3) (redirect fromData (n + 1) x) < n + 4 :=
      redirect_lt (by omega) (by omega)
    have hx₃ : redirect fromValid (n + 5) (redirect (n + 1) (n + 3)
        (redirect fromData (n + 1) x)) < n + 6 := redirect_lt (by omega) (by omega)
    calc b'.typeOf (behindSkidRegisters n fromData fromValid x)
        = b₃.typeOf (redirect fromValid (n + 5) (redirect (n + 1) (n + 3)
            (redirect fromData (n + 1) x))) := ty₄ _ (by omega)
      _ = b₂.typeOf (redirect (n + 1) (n + 3) (redirect fromData (n + 1) x)) := ty₃ _ (by omega)
      _ = b₁.typeOf (redirect fromData (n + 1) x) := ty₂ _ (by omega)
      _ = (b.makeNode ⟨.ir (.literal (.bits (BitsOps.ofBool true))), [], .bits 1⟩).1.typeOf x :=
          ty₁ _ (by omega)
      _ = b.typeOf x := k₀.typeOf_eq x

theorem loadSkidRegisters_spec {m : ℕ} (hm : b.nextId = m) {regs : SkidRegisters}
    {out : SkidOutputs} {fromValid w₁ w₂ w₃ w₄ : ℕ}
    (hw₁ : b.registerWrites regs.data.reg = some w₁)
    (hw₂ : b.registerWrites regs.dataSkid.reg = some w₂)
    (hw₃ : b.registerWrites regs.dataValid.reg = some w₃)
    (hw₄ : b.registerWrites regs.dataValidSkid.reg = some w₄)
    (hlt : w₁ < m ∧ w₂ < m ∧ w₃ < m ∧ w₄ < m) (hne : [w₁, w₂, w₃, w₄].Nodup)
    (h : loadSkidRegisters regs out fromValid b = some b') :
    b'.nextId = m + 7 ∧
    b'.Has m .and [fromValid, out.fromSkidRdy] ∧
    b'.Has (m + 1) .and [regs.dataValid.id, out.toIsReady, out.fromSkidRdy] ∧
    b'.Has (m + 2) .or [m + 1, m] ∧ b'.Has (m + 3) .not [out.toIsReady] ∧
    b'.Has (m + 4) .and [regs.dataValid.id, m, m + 3] ∧
    b'.Has (m + 5) .and [regs.dataValidSkid.id, out.toIsReady] ∧
    b'.Has (m + 6) .or [m + 4, m + 5] ∧ Keeps [w₁, w₂, w₃, w₄] [] b b' ∧
    (∀ op operands, b.Has w₁ op operands → b'.Has w₁ op (operands.set 1 m)) ∧
    (∀ op operands, b.Has w₂ op operands → b'.Has w₂ op (operands.set 1 (m + 4))) ∧
    (∀ op operands, b.Has w₃ op operands → b'.Has w₃ op (operands.set 1 (m + 2))) ∧
    (∀ op operands, b.Has w₄ op operands →
      b'.Has w₄ op ((operands.set 1 (m + 6)).set 0 out.fromSkidRdy)) ∧
    SameRegisters b b' := by
  obtain ⟨⟨b₁, _⟩, h₁, h⟩ := bind_some h
  obtain ⟨v₂, hv₂, h⟩ := bind_some h
  obtain ⟨b₂, h₂, h⟩ := bind_some h
  obtain ⟨⟨b₃, _⟩, h₃, h⟩ := bind_some h
  obtain ⟨⟨b₄, _⟩, h₄, h⟩ := bind_some h
  obtain ⟨v₅, hv₅, h⟩ := bind_some h
  obtain ⟨b₅, h₅, h⟩ := bind_some h
  obtain ⟨⟨b₆, _⟩, h₆, h⟩ := bind_some h
  obtain ⟨⟨b₇, _⟩, h₇, h₈⟩ := bind_some h
  simp only [List.nodup_cons, List.mem_cons, List.not_mem_nil, not_or, not_false_eq_true,
    and_true] at hne
  obtain ⟨⟨ne₁₂, ne₁₃, ne₁₄⟩, ⟨ne₂₃, ne₂₄⟩, ne₃₄⟩ := hne
  obtain ⟨rfl, n₁, e₁, k₁, s₁⟩ := makeOp_spec hm h₁
  have hv₂ : b₁.registerWrites regs.data.reg = some v₂ := hv₂
  rw [s₁.2.1, hw₁] at hv₂
  cases hv₂
  obtain ⟨n₂, k₂, -, set₂, s₂⟩ := replaceExistingLoadEnable_spec n₁ h₂
  obtain ⟨rfl, n₃, e₃, k₃, s₃⟩ := makeOp_spec n₂ h₃
  obtain ⟨rfl, n₄, e₄, k₄, s₄⟩ := makeOp_spec n₃ h₄
  have s₁₄ := s₁.trans (s₂.trans (s₃.trans s₄))
  have hv₅ : b₄.registerWrites regs.dataValid.reg = some v₅ := hv₅
  rw [s₁₄.2.1, hw₃] at hv₅
  cases hv₅
  obtain ⟨n₅, k₅, -, set₅, s₅⟩ := replaceExistingLoadEnable_spec n₄ h₅
  obtain ⟨rfl, n₆, e₆, k₆, s₆⟩ := makeOp_spec n₅ h₆
  obtain ⟨rfl, n₇, e₇, k₇, s₇⟩ := makeOp_spec n₆ h₇
  have s₁₇ := s₁₄.trans (s₅.trans (s₆.trans s₇))
  obtain ⟨n₈, e₈, e₉, k₈, set₈, set₉, s₈⟩ := connectSkid_spec n₇
    ((congrFun s₁₇.2.1 _).trans hw₂) ((congrFun s₁₇.2.1 _).trans hw₄) (by omega) (by omega) ne₂₄ h₈
  -- the edits behind each step
  have k₇₈ := k₇.trans k₈
  have k₆₈ := k₆.trans k₇₈
  have k₅₈ := k₅.trans k₆₈
  have k₄₈ := k₄.trans k₅₈
  have k₃₈ := k₃.trans k₄₈
  have k₂₈ := k₂.trans k₃₈
  refine ⟨n₈, ?_, ?_, ?_, ?_, ?_, e₈, e₉, ?_, ?_, ?_, ?_, ?_, s₁₇.trans s₈⟩
  · exact k₂₈.has e₁
  · exact k₄₈.has e₃
  · exact k₅₈.has e₄
  · exact k₇₈.has e₆
  · exact k₈.has e₇
  · refine (k₁.trans k₂₈).mono ?_ (by simp)
    intro i hi
    simp only [List.mem_append, List.mem_cons] at hi ⊢
    tauto
  · intro op operands hhas
    have hb₁ := k₁.has hhas
    exact k₃₈.has (set₂ op _ hb₁)
  · intro op operands hhas
    have hb₇ := (k₁.trans (k₂.trans (k₃.trans (k₄.trans (k₅.trans (k₆.trans k₇)))))).has hhas
    exact set₈ op _ hb₇
  · intro op operands hhas
    have hb₄ := (k₁.trans (k₂.trans (k₃.trans k₄))).has hhas
    exact k₆₈.has (set₅ op _ hb₄)
  · intro op operands hhas
    have hb₇ := (k₁.trans (k₂.trans (k₃.trans (k₄.trans (k₅.trans (k₆.trans k₇)))))).has hhas
    exact set₉ op _ hb₇

theorem Writes.set {reg : String} {type : Ty} {reset : Reset} {write : ℕ} {hasLoadEnable : Bool}
    {operands operands' : List ℕ} (h : Writes b reg type reset write hasLoadEnable operands)
    (hsame : SameRegisters b b')
    (hset : b'.Has write (.registerWrite reg hasLoadEnable true) operands') :
    Writes b' reg type reset write hasLoadEnable operands' :=
  ⟨(congrFun hsame.1 reg).trans h.register, (congrFun hsame.2.1 reg).trans h.recorded, hset⟩

end SkidBuffer

section Buffers

variable {b b' : Block} {fromData fromValid fromRdy src : ℕ} {namePrefix : String}
  {resetBehavior : Option Reset} {toValid toData : ℕ}
  (hhost : Host b fromData fromValid fromRdy src)

section AddSkidBuffer

include hhost

/-- `AddSkidBufferToRDVNodes` leaves the skid logic in the block. -/
theorem skidNetlist_of_addSkidBuffer
    (h : addSkidBufferToRDVNodes fromData fromValid fromRdy namePrefix resetBehavior b =
      some (b', toValid, toData)) :
    ∃ x ready type reset port, Inserted b' resetBehavior reset port fromValid fromRdy ready
        (downstream fromData fromValid toData toValid src) ∧
      SkidNetlist b' namePrefix type reset port fromData fromValid ready toValid toData
        (downstream fromData fromValid toData toValid src) x := by
  obtain ⟨n, op, hn, hrdy, hfr, hsrc, hfd, hfv, hports⟩ := hhost.numbered
  obtain ⟨-, -, h⟩ := bind_some h
  obtain ⟨⟨b₁, regs⟩, h₁, h⟩ := bind_some h
  obtain ⟨⟨b₂, out⟩, h₂, h⟩ := bind_some h
  obtain ⟨b₃, h₃, h⟩ := bind_some h
  cases h
  obtain ⟨rfl, n₁, reset, port, type, hreset, hport, hport₁, read₁, read₂, read₃, read₄, write₁,
    write₂, write₃, write₄, k₁, rew₁, ty₁⟩ := addSkidRegisters_spec hn hfd hfv hhost.data_ne_valid
      hhost.valid_type hports h₁
  obtain ⟨rv, rd, rs, n₂, or₂, sel₂, not₂, k₂, rdy₂, s₂⟩ :=
    makeSkidOutputs_spec n₁ (by omega) (by simp) (by simp) h₂
  obtain ⟨toValid, toData, toIsReady, fromSkidRdy⟩ := out
  subst rv rd rs
  obtain ⟨hlt, hne⟩ := hports port hport
  have keep₂ : ∀ {reg type write operands}, Writes b₁ reg type reset write true operands →
      write < n + 9 → n ≤ write → n + 7 ∉ operands → n + 3 ∉ operands →
      Writes b₂ reg type reset write true operands := by
    intro reg type write operands hw hlt hge h7 h3
    exact hw.keep k₂ ⟨congrFun s₂.1 reg, congrFun s₂.2.1 reg⟩ (by omega) (by simp; omega)
      (by simp [h7, h3])
  have w₁ := keep₂ write₁ (by omega) (by omega) (by simp; omega) (by simp; omega)
  have w₂ := keep₂ write₂ (by omega) (by omega) (by simp; omega) (by simp; omega)
  have w₃ := keep₂ write₃ (by omega) (by omega) (by simp; omega) (by simp; omega)
  have w₄ := keep₂ write₄ (by omega) (by omega) (by simp; omega) (by simp; omega)
  obtain ⟨n₃, e₀, e₁, e₂, e₃, e₄, e₅, e₆, k₃, set₁, set₂, set₃, set₄, s₃⟩ :=
    loadSkidRegisters_spec n₂ w₁.recorded w₂.recorded w₃.recorded w₄.recorded
      ⟨by omega, by omega, by omega, by omega⟩ (by simp) h₃
  -- the operand of the ready node, through all rewirings
  have hbehind := behindSkidRegisters_eq fromData hfv hsrc
  have hbehind_lt : behindSkidRegisters n fromData fromValid src < n + 9 := by
    rw [hbehind]
    exact redirect_lt (by omega) (redirect_lt (by omega) (by omega))
  obtain ⟨hready, hdown, hdownType⟩ := rdy₂ op _ hbehind_lt (rew₁ fromRdy op _ hfr hrdy)
  have hdown : toIsReady = downstream fromData fromValid (n + 9 + 1) (n + 9) src := by
    refine hdown.trans ?_
    rw [hbehind]
    exact downstream_eq hfv hsrc (by simp) (by simp) (by omega) (by simp) (by simp)
  have hdown_lt : toIsReady < n + 12 := by
    rw [hdown]
    exact redirect_lt (by omega) (redirect_lt (by omega) (by omega))
  have hdown_ne : toIsReady ∉ [n + 2, n + 4, n + 6, n + 8] := by
    rw [hdown]
    unfold downstream redirect
    simp only [List.mem_cons, List.not_mem_nil, or_false]
    split_ifs <;> omega
  rw [← hdown]
  have k₁₃ := k₂.trans k₃
  have r₁ := k₁₃.has read₁
  have r₂ := k₁₃.has read₂
  have r₃ := k₁₃.has read₃
  have r₄ := k₁₃.has read₄
  have o₁ := k₃.has or₂
  have o₂ := k₃.has sel₂
  have o₃ := k₃.has not₂
  have hnv := hhost.rdy_ne_valid
  refine ⟨⟨n + 1, n + 3, n + 5, n + 7, n + 12, n + 13, n + 14, n + 15, n + 16, n + 17, n + 18⟩,
    n + 11, type, reset, port, ⟨hreset, ?_, ?_, ?_, ?_⟩, ?_⟩
  · exact (s₂.trans s₃).2.2.trans hport₁
  · exact operand_of_has (k₃.has hready)
  · exact ((k₁.trans k₁₃).typeOf_eq fromValid).trans hhost.valid_type
  · exact ((k₃.types _ (by omega) hdown_ne).trans hdownType).trans
      ((ty₁ src hsrc).trans hhost.src_type)
  · exact {
      dataRead := r₁
      dataSkidRead := r₂
      validRead := r₃
      validSkidRead := r₄
      validOr := o₁
      dataSelect := o₂
      fromSkidRdy := o₃
      inputReadyAndValid := e₀
      dataIsSentTo := e₁
      validLoadEn := e₂
      toIsNotRdy := e₃
      skidDataLoadEn := e₄
      skidValidSetZero := e₅
      skidValidLoadEn := e₆
      dataWrite := ⟨n + 2, w₁.set s₃ (set₁ _ _ w₁.node)⟩
      dataSkidWrite := ⟨n + 4, w₂.set s₃ (set₂ _ _ w₂.node)⟩
      validWrite := ⟨n + 6, w₃.set s₃ (set₃ _ _ w₃.node)⟩
      validSkidWrite := ⟨n + 8, w₄.set s₃ (set₄ _ _ w₄.node)⟩ }

end AddSkidBuffer

/-! ## The zero-latency buffer -/

section TwoRegisters

variable {b b₁ b' : Block} {m fromData fromValid : ℕ}

/-- A register behind the data node and one behind the valid node. -/
theorem twoRegisters_spec (hm : b.nextId = m) {dataPrefix validPrefix : String}
    {resetBehavior : Option Reset} {loadEnable : Option ℕ} {r₁ r₂ : RegisterRead}
    (hfv : fromValid < m) (hdv : fromData ≠ fromValid)
    (hle : fromValid ∉ loadEnable.toList) (hvt : b.typeOf fromValid = some (.bits 1))
    (hport : ∀ port, b.resetPort = some port → port ≠ fromValid)
    (h₁ : addRegisterAfterNode dataPrefix resetBehavior loadEnable fromData b = some (b₁, r₁))
    (h₂ : addRegisterAfterNode validPrefix resetBehavior loadEnable fromValid b₁ = some (b', r₂)) :
    r₁ = ⟨m, registerName dataPrefix⟩ ∧ r₂ = ⟨m + 2, registerName validPrefix⟩ ∧
    b'.nextId = m + 4 ∧ registerName dataPrefix ≠ registerName validPrefix ∧
    ∃ reset port type, resetBehavior = some reset ∧ b.resetPort = some port ∧
      b'.resetPort = some port ∧
      b'.Has m (.registerRead (registerName dataPrefix)) [] ∧
      b'.Has (m + 2) (.registerRead (registerName validPrefix)) [] ∧
      Writes b' (registerName dataPrefix) type reset (m + 1) loadEnable.isSome
        (fromData :: (loadEnable.toList ++ [port])) ∧
      Writes b' (registerName validPrefix) (.bits 1) reset (m + 3) loadEnable.isSome
        (fromValid :: (loadEnable.toList ++ [port])) ∧
      Keeps [] [fromData, fromValid] b b' ∧
      (∀ id op operands, id < m → b.Has id op operands → b'.Has id op
        (operands.map fun o => redirect fromValid (m + 2) (redirect fromData m o))) ∧
      (∀ x < m, b'.typeOf (redirect fromValid (m + 2) (redirect fromData m x)) = b.typeOf x) := by
  obtain ⟨rfl, n₁, reset, port, type, hreset, hport₁, htype, read₁, write₁, k₁, rew₁, ty₁, same₁,
    new₁, p₁⟩ := addRegisterAfterNode_spec hm h₁
  obtain ⟨rfl, n₂, reset₂, port₂, type₂, hreset₂, hport₂, htype₂, read₂, write₂, k₂, rew₂, ty₂,
    same₂, new₂, p₂⟩ := addRegisterAfterNode_spec n₁ h₂
  cases hreset.symm.trans hreset₂
  cases (p₁.trans hport₁).symm.trans hport₂
  have ht₂ : type₂ = .bits 1 := by
    have := k₁.typeOf_eq fromValid
    rw [htype₂, hvt] at this
    exact Option.some.inj this
  subst ht₂
  have hne := write₁.ne_of_new new₂
  have hpv := hport port hport₁
  refine ⟨rfl, rfl, n₂, hne, reset, port, type, hreset, hport₁, p₂.trans hport₂, ?_, read₂, ?_,
    write₂, k₁.trans k₂, ?_, ?_⟩
  · exact k₂.has read₁
  · refine write₁.keep k₂ (same₂ _ hne) (by omega) (by simp) ?_
    intro x hx
    rw [List.mem_singleton.mp hx]
    simp only [List.mem_cons, List.mem_append, List.not_mem_nil, or_false, not_or]
    exact ⟨hdv.symm, hle, hpv.symm⟩
  · intro id op operands hid hhas
    have hb' := rew₂ id op _ (by omega) (rew₁ id op _ hid hhas)
    rw [List.map_map] at hb'
    exact hb'
  · intro x hx
    have hx₁ : redirect fromData m x < m + 1 := redirect_lt (by omega) (by omega)
    exact (ty₂ _ (by omega)).trans (ty₁ x hx)

end TwoRegisters

/-- The inner nodes of a zero-latency buffer. -/
structure ZeroLatencyNodes where
  dataSkidReg : ℕ
  dataValidSkidReg : ℕ
  toIsNotRdy : ℕ
  skidDataLoadEn : ℕ
  skidValidSetZero : ℕ
  skidValidLoadEn : ℕ

/-- The logic which `AddZeroLatencyBufferToRDVNodes` leaves in a block. -/
structure ZeroLatencyNetlist (b : Block) (namePrefix : String) (type : Ty) (reset : Reset)
    (resetPort fromData fromValid ready toValid toData toIsReady : ℕ) (x : ZeroLatencyNodes) :
    Prop where
  dataSkidRead : b.Has x.dataSkidReg (.registerRead (skidName namePrefix)) []
  validSkidRead :
    b.Has x.dataValidSkidReg (.registerRead (validSkidName namePrefix)) []
  validOr : b.Has toValid .or [fromValid, x.dataValidSkidReg]
  dataSelect : b.Has toData (.ir (.sel false)) [x.dataValidSkidReg, fromData, x.dataSkidReg]
  fromSkidRdy : b.Has ready .not [x.dataValidSkidReg]
  toIsNotRdy : b.Has x.toIsNotRdy .not [toIsReady]
  skidDataLoadEn : b.Has x.skidDataLoadEn .and [fromValid, ready, x.toIsNotRdy]
  skidValidSetZero : b.Has x.skidValidSetZero .and [x.dataValidSkidReg, toIsReady]
  skidValidLoadEn : b.Has x.skidValidLoadEn .or [x.skidDataLoadEn, x.skidValidSetZero]
  dataSkidWrite : ∃ w, Writes b (skidName namePrefix) type reset w true
    [fromData, x.skidDataLoadEn, resetPort]
  validSkidWrite : ∃ w, Writes b (validSkidName namePrefix) (.bits 1) reset w true
    [ready, x.skidValidLoadEn, resetPort]

section AddZeroLatencyBuffer

include hhost

/-- `AddZeroLatencyBufferToRDVNodes` leaves the zero-latency logic in the block. -/
theorem zeroLatencyNetlist_of_addZeroLatencyBuffer
    (h : addZeroLatencyBufferToRDVNodes fromData fromValid fromRdy namePrefix resetBehavior b =
      some (b', toValid, toData)) :
    ∃ x ready type reset port, Inserted b' resetBehavior reset port fromValid fromRdy ready
        (downstream fromData fromValid toData toValid src) ∧
      ZeroLatencyNetlist b' namePrefix type reset port fromData fromValid ready toValid toData
        (downstream fromData fromValid toData toValid src) x := by
  obtain ⟨n, op, hn, hrdy, hfr, hsrc, hfd, hfv, hports⟩ := hhost.numbered
  obtain ⟨-, -, h⟩ := bind_some h
  obtain ⟨⟨b₁, r₁⟩, h₁, h⟩ := bind_some h
  obtain ⟨⟨b₂, r₂⟩, h₂, h⟩ := bind_some h
  obtain ⟨⟨b₃, out⟩, h₃, h⟩ := bind_some h
  obtain ⟨⟨b₄, _⟩, h₄, h⟩ := bind_some h
  obtain ⟨⟨b₅, _⟩, h₅, h⟩ := bind_some h
  obtain ⟨b₆, h₆, h⟩ := bind_some h
  cases h
  obtain ⟨n₀, -, -, k₀⟩ :=
    makeNode_spec hn (.ir (.literal (.bits (BitsOps.ofBool true)))) [] (.bits 1)
  have hvt := (k₀.typeOf_eq fromValid).trans hhost.valid_type
  obtain ⟨rfl, rfl, n₂, hnames, reset, port, type, hreset, hport, hport₂, read₁, read₂, write₁,
    write₂, k₂, rew₂, ty₂⟩ := twoRegisters_spec n₀ (by omega) hhost.data_ne_valid
      (by simp; omega) hvt (fun port hp => (hports port hp).2) h₁ h₂
  obtain ⟨hlt, hne⟩ := hports port hport
  obtain ⟨rv, rd, rs, n₃, or₃, sel₃, not₃, k₃, rdy₃, s₃⟩ :=
    makeSkidOutputs_spec n₂ (by omega) (by simp) (by simp; omega) h₃
  obtain ⟨toValid, toData, toIsReady, fromSkidRdy⟩ := out
  subst rv rd rs
  obtain ⟨rfl, n₄, e₄, k₄, s₄⟩ := makeOp_spec n₃ h₄
  obtain ⟨rfl, n₅, e₅, k₅, s₅⟩ := makeOp_spec n₄ h₅
  have s₃₅ := s₃.trans (s₄.trans s₅)
  have keep₅ : ∀ {reg type write operands}, Writes b₂ reg type reset write true operands →
      write < n + 5 → n ≤ write → n + 3 ∉ operands → n + 1 ∉ operands →
      Writes b₅ reg type reset write true operands := by
    intro reg type write operands hw hlt hge h3 h1
    exact hw.keep (k₃.trans (k₄.trans k₅)) ⟨congrFun s₃₅.1 reg, congrFun s₃₅.2.1 reg⟩ (by omega)
      (by simp; omega) (by simp [h3, h1])
  have w₁ := keep₅ write₁ (by omega) (by omega) (by simp; omega) (by simp; omega)
  have w₂ := keep₅ write₂ (by omega) (by omega) (by simp; omega) (by simp; omega)
  obtain ⟨n₆, e₆, e₇, k₆, set₁, set₂, s₆⟩ :=
    connectSkid_spec n₅ w₁.recorded w₂.recorded (by omega) (by omega) (by omega) h₆
  -- the operand of the ready node, through all rewirings
  have hrdy₀ := k₀.has hrdy
  have hbehind_lt : redirect fromValid (n + 1 + 2) (redirect fromData (n + 1) src) < n + 5 :=
    redirect_lt (by omega) (redirect_lt (by omega) (by omega))
  obtain ⟨hready, hdown, hdownType⟩ := rdy₃ op _ hbehind_lt (rew₂ fromRdy op _ (by omega) hrdy₀)
  have hdown : toIsReady = downstream fromData fromValid (n + 5 + 1) (n + 5) src :=
    hdown.trans (downstream_eq hfv hsrc (by simp) (by simp; omega) (by omega) (by simp) (by simp))
  have hdown_lt : toIsReady < n + 8 := by
    rw [hdown]
    exact redirect_lt (by omega) (redirect_lt (by omega) (by omega))
  have hdown_ne : toIsReady ∉ [n + 2, n + 4] := by
    rw [hdown]
    unfold downstream redirect
    simp only [List.mem_cons, List.not_mem_nil, or_false]
    split_ifs <;> omega
  rw [← hdown]
  have k₄₆ := k₄.trans (k₅.trans k₆)
  have k₃₆ := k₃.trans k₄₆
  have hnv := hhost.rdy_ne_valid
  have r₁ := k₃₆.has read₁
  have r₂ := k₃₆.has read₂
  have o₁ := k₄₆.has or₃
  have o₂ := k₄₆.has sel₃
  have o₃ := k₄₆.has not₃
  have o₄ := (k₅.trans k₆).has e₄
  have o₅ := k₆.has e₅
  refine ⟨⟨n + 1, n + 3, n + 8, n + 9, n + 10, n + 11⟩, n + 7, type, reset, port,
    ⟨hreset, ?_, ?_, ?_, ?_⟩, ?_⟩
  · exact (s₃₅.trans s₆).2.2.trans hport₂
  · exact operand_of_has (k₄₆.has hready)
  · exact ((k₂.trans k₃₆).typeOf_eq fromValid).trans hvt
  · have hsrcType := (k₀.typeOf_eq src).trans hhost.src_type
    exact ((k₄₆.types _ (by omega) hdown_ne).trans hdownType).trans
      ((ty₂ src (by omega)).trans hsrcType)
  · exact {
      dataSkidRead := r₁
      validSkidRead := r₂
      validOr := o₁
      dataSelect := o₂
      fromSkidRdy := o₃
      toIsNotRdy := o₄
      skidDataLoadEn := o₅
      skidValidSetZero := e₆
      skidValidLoadEn := e₇
      dataSkidWrite := ⟨n + 2, w₁.set s₆ (set₁ _ _ w₁.node)⟩
      validSkidWrite := ⟨n + 4, w₂.set s₆ (set₂ _ _ w₂.node)⟩ }

end AddZeroLatencyBuffer

/-! ## The register -/

theorem updateRegisterLoadEn_spec {b b' : Block} {m : ℕ} (hm : b.nextId = m) {reg : String}
    {type : Ty} {reset : Reset} {w data port loadEn : ℕ}
    (hw : Writes b reg type reset w false [data, port]) (hlt : w < m)
    (h : updateRegisterLoadEn loadEn reg b = some b') :
    b'.nextId = m + 1 ∧ Writes b' reg type reset m true [data, loadEn, port] ∧
    Keeps [w] [] b b' ∧
    (∀ reg', reg' ≠ reg →
      b'.registers reg' = b.registers reg' ∧ b'.registerWrites reg' = b.registerWrites reg') ∧
    b'.resetPort = b.resetPort := by
  obtain ⟨w', hw', h⟩ := bind_some h
  cases (show b.registerWrites reg = some w' from hw').symm.trans hw.recorded
  obtain ⟨t, hnode⟩ := hw.node
  rw [hnode] at h
  cases h
  obtain ⟨hnext, hhas, hkeep, hregs, hwrites, hport⟩ :=
    makeRegisterWrite_spec hm reg data (some loadEn) (some port)
  have hother : ∀ {i}, i ≠ w → ((b.makeRegisterWrite reg data (some loadEn) (some port)).1.removeNode
      w).nodes i = (b.makeRegisterWrite reg data (some loadEn) (some port)).1.nodes i :=
    fun hi => Function.update_of_ne hi _ _
  refine ⟨hnext, ⟨?_, ?_, ?_⟩, ⟨hkeep.nextId_le, ?_, ?_⟩, ?_, hport⟩
  · exact (congrFun hregs reg).trans hw.register
  · exact (congrFun hwrites reg).trans (Function.update_self _ _ _)
  · obtain ⟨t', ht'⟩ := hhas
    exact ⟨t', (hother (by omega)).trans ht'⟩
  · intro id hid hne
    refine Eq.trans ?_ (hkeep.types id hid (by simp))
    exact congrArg (Option.map _) (hother (by simpa using hne))
  · intro id op operands hid hne hr hhas'
    obtain ⟨t', ht'⟩ := hkeep.nodes id op operands hid (by simp) hr hhas'
    exact ⟨t', (hother (by simpa using hne)).trans ht'⟩
  · intro reg' hreg'
    exact ⟨congrFun hregs reg', (congrFun hwrites reg').trans (Function.update_of_ne hreg' _ _)⟩

/-- The logic which `AddRegisterToRDVNodes` leaves in a block. -/
structure RegisterNetlist (b : Block) (namePrefix : String) (type : Ty) (reset : Reset)
    (resetPort fromData fromValid ready toValid toData toIsReady notValid validLoadEn : ℕ) :
    Prop where
  dataRead : b.Has toData (.registerRead (registerName namePrefix)) []
  validRead : b.Has toValid (.registerRead (validName namePrefix)) []
  validInv : b.Has notValid .not [toValid]
  validLoadEnOr : b.Has validLoadEn .or [toIsReady, notValid]
  dataLoadEn : b.Has ready .and [fromValid, validLoadEn]
  dataWrite : ∃ w, Writes b (registerName namePrefix) type reset w true
    [fromData, ready, resetPort]
  validWrite : ∃ w, Writes b (validName namePrefix) (.bits 1) reset w true
    [fromValid, validLoadEn, resetPort]

section AddRegister

include hhost

/-- `AddRegisterToRDVNodes` leaves the register logic in the block. -/
theorem registerNetlist_of_addRegister
    (h : addRegisterToRDVNodes fromData fromValid fromRdy namePrefix resetBehavior b =
      some (b', toValid, toData)) :
    ∃ notValid validLoadEn ready type reset port,
      Inserted b' resetBehavior reset port fromValid fromRdy ready
        (downstream fromData fromValid toData toValid src) ∧
      RegisterNetlist b' namePrefix type reset port fromData fromValid ready toValid toData
        (downstream fromData fromValid toData toValid src) notValid validLoadEn := by
  obtain ⟨n, op, hn, hrdy, hfr, hsrc, hfd, hfv, hports⟩ := hhost.numbered
  obtain ⟨-, -, h⟩ := bind_some h
  obtain ⟨⟨b₁, r₁⟩, h₁, h⟩ := bind_some h
  obtain ⟨⟨b₂, r₂⟩, h₂, h⟩ := bind_some h
  obtain ⟨toIsReady, hready, h⟩ := bind_some h
  obtain ⟨⟨b₃, _⟩, h₃, h⟩ := bind_some h
  obtain ⟨⟨b₄, _⟩, h₄, h⟩ := bind_some h
  obtain ⟨⟨b₅, _⟩, h₅, h⟩ := bind_some h
  obtain ⟨b₇, h₇, h⟩ := bind_some h
  obtain ⟨b₈, h₈, h⟩ := bind_some h
  cases h
  obtain ⟨rfl, rfl, n₂, hnames, reset, port, type, hreset, hport, hport₂, read₁, read₂, write₁,
    write₂, k₂, rew₂, ty₂⟩ := twoRegisters_spec hn hfv hhost.data_ne_valid
      (by simp) hhost.valid_type (fun port hp => (hports port hp).2) h₁ h₂
  obtain ⟨rfl, n₃, e₃, k₃, s₃⟩ := makeOp_spec n₂ h₃
  obtain ⟨rfl, n₄, e₄, k₄, s₄⟩ := makeOp_spec n₃ h₄
  obtain ⟨rfl, n₅, e₅, k₅, s₅⟩ := makeOp_spec n₄ h₅
  obtain ⟨n₆, k₆, ty₆, set₆, s₆⟩ := setOperand_spec n₅ fromRdy 0 (n + 6)
  have k₃₆ := k₃.trans (k₄.trans (k₅.trans k₆))
  have s₃₆ := s₃.trans (s₄.trans (s₅.trans s₆))
  have keep₆ : ∀ {reg type write operands}, Writes b₂ reg type reset write false operands →
      write < n + 4 → n ≤ write →
      Writes (b₅.setOperand fromRdy 0 (n + 6)) reg type reset write false operands := by
    intro reg type write operands hw hlt hge
    exact hw.keep k₃₆ ⟨congrFun s₃₆.1 reg, congrFun s₃₆.2.1 reg⟩
  have w₁ := keep₆ write₁ (by omega) (by omega)
  have w₂ := keep₆ write₂ (by omega) (by omega)
  obtain ⟨n₇, w₁, k₇, same₇, p₇⟩ := updateRegisterLoadEn_spec n₆ w₁ (by omega) h₇
  have w₂ := w₂.keep k₇ (same₇ _ hnames.symm)
  obtain ⟨n₈, w₂, k₈, same₈, p₈⟩ := updateRegisterLoadEn_spec n₇ w₂ (by omega) h₈
  have w₁ := w₁.keep k₈ (same₈ _ hnames)
  -- the operand of the ready node, through both rewirings
  have hrdy₂ := rew₂ fromRdy op _ hfr hrdy
  rw [operand_of_has hrdy₂] at hready
  have hdown : downstream fromData fromValid n (n + 2) src = toIsReady := Option.some.inj hready
  have hdown_lt : toIsReady < n + 3 :=
    hdown ▸ redirect_lt (by omega) (redirect_lt (by omega) (by omega))
  have hdown_ne : toIsReady ≠ n + 1 := by
    rw [← hdown]
    unfold downstream redirect
    split_ifs <;> omega
  have k₇₈ := k₇.trans k₈
  have k₆₈ := k₆.trans k₇₈
  have k₃₈ := k₃₆.trans k₇₈
  have hnv := hhost.rdy_ne_valid
  have r₁ := k₃₈.has read₁
  have r₂ := k₃₈.has read₂
  have o₁ := (k₄.trans (k₅.trans k₆₈)).has e₃
  have o₂ := (k₅.trans k₆₈).has e₄
  have o₃ := k₆₈.has e₅
  have hrdy₅ := (k₃.trans (k₄.trans k₅)).has hrdy₂
  have hrdy₈ := k₇₈.has (set₆ _ _ hrdy₅)
  have htype₈ : b'.typeOf toIsReady = some (.bits 1) := by
    have h₆₈ := k₇₈.typeOf_eq toIsReady
    have h₅₆ : (b₅.setOperand fromRdy 0 (n + 6)).typeOf toIsReady = b₅.typeOf toIsReady := by
      by_cases hself : toIsReady = fromRdy
      · rw [hself]
        exact ty₆
      · exact k₆.types _ (by omega) (by simpa using hself)
    have h₂₅ := (k₃.trans (k₄.trans k₅)).typeOf_eq toIsReady
    have h₀₂ := ty₂ src hsrc
    rw [show redirect fromValid (n + 2) (redirect fromData n src) = toIsReady from hdown] at h₀₂
    exact ((h₆₈.trans h₅₆).trans h₂₅).trans (h₀₂.trans hhost.src_type)
  refine ⟨n + 4, n + 5, n + 6, type, reset, port, ⟨hreset, ?_, operand_of_has hrdy₈, ?_, ?_⟩, ?_⟩
  · exact (p₈.trans p₇).trans (s₃₆.2.2.trans hport₂)
  · exact ((k₂.trans k₃₈).typeOf_eq fromValid).trans hhost.valid_type
  · rw [hdown]
    exact htype₈
  · rw [hdown]
    exact ⟨r₁, r₂, o₁, o₂, o₃, ⟨_, w₁⟩, ⟨_, w₂⟩⟩

end AddRegister

end Buffers

end BlockConversion

end Xls
