/-
# Stream buffers are first-in first-out queues

Each buffer is a queue whose contents can be read off its registers.  A cycle moves the
accepted input to the back and the delivered output from the front; over a run, the
accepted inputs are the delivered outputs followed by the contents.
-/
import Xls.Codegen.RdvNetlist

namespace Xls

namespace BlockConversion

open Block

/-! ## Cycles of a buffer -/

/-- A cycle of a block whose reset is not asserted. -/
def Cycle (b : Block) (resetBehavior : Option Reset) (regs : String → Value) (val : ℕ → Value)
    (regs' : String → Value) : Prop :=
  b.Step regs val regs' ∧ ∀ reset port, resetBehavior = some reset → b.resetPort = some port →
    isTrue (val port) = reset.activeLow

/-- The data, valid and ready nodes of a streaming channel. -/
structure RdvNodes where
  data : ℕ
  valid : ℕ
  ready : ℕ

/-- What a channel transfers in a cycle. -/
def RdvNodes.transfer (c : RdvNodes) (val : ℕ → Value) : List Value :=
  if isTrue (val c.valid) && isTrue (val c.ready) then [val c.data] else []

/-- A value which is offered and not accepted is offered again. -/
def RdvNodes.Holds (c : RdvNodes) (val val' : ℕ → Value) : Prop :=
  isTrue (val c.valid) = true → isTrue (val c.ready) = false →
    isTrue (val' c.valid) = true ∧ val' c.data = val c.data

/-- The part of the block between two channels is a queue with the given capacity. -/
def IsFifo (b : Block) (resetBehavior : Option Reset) (capacity : ℕ) (input output : RdvNodes) :
    Prop :=
  ∃ contents : (String → Value) → List Value, (∀ regs, (contents regs).length ≤ capacity) ∧
    ∀ regs cycles regs', b.InResetState regs →
      Lts.Run (Cycle b resetBehavior) regs cycles regs' →
      cycles.flatMap (fun c => input.transfer c.2) =
        cycles.flatMap (fun c => output.transfer c.2) ++ contents regs' ∧
      cycles.IsChain fun c c' => output.Holds c.2 c'.2

/-- How many values a buffer holds. -/
def IOKind.capacity : IOKind → ℕ
  | .flop => 1
  | .skidBuffer => 2
  | .zeroLatencyBuffer => 1

/-- A queue, from an invariant of the registers: it holds after reset, each cycle keeps it
and moves values from the input to the output through the contents, and a value which is
not accepted stays at the output. -/
theorem isFifo_of_invariant {b : Block} {resetBehavior : Option Reset} {capacity : ℕ}
    {input output : RdvNodes} (Inv : (String → Value) → Prop)
    (contents : (String → Value) → List Value)
    (hcap : ∀ regs, (contents regs).length ≤ capacity)
    (hinit : ∀ regs, b.InResetState regs → Inv regs ∧ contents regs = [])
    (hstep : ∀ {regs val regs'}, Inv regs → Cycle b resetBehavior regs val regs' →
      Inv regs' ∧ contents regs ++ input.transfer val = output.transfer val ++ contents regs')
    (hstall : ∀ {regs val regs' val' regs''}, Inv regs → Cycle b resetBehavior regs val regs' →
      Cycle b resetBehavior regs' val' regs'' → output.Holds val val') :
    IsFifo b resetBehavior capacity input output := by
  refine ⟨contents, hcap, ?_⟩
  intro regs cycles regs' hreset hrun
  obtain ⟨hinv, hempty⟩ := hinit regs hreset
  refine ⟨?_, ?_⟩
  · have hcons : contents regs ++ cycles.flatMap (fun c => input.transfer c.2) =
        cycles.flatMap (fun c => output.transfer c.2) ++ contents regs' :=
      hrun.conserves hinv (fun h hc => (hstep h hc).1) (fun h hc => (hstep h hc).2)
    rw [hempty] at hcons
    exact hcons
  · exact hrun.isChain hinv (fun h hc => (hstep h hc).1) (fun h hc hc' => hstall h hc hc')

/-! ## Registers -/

/-- The next value of a register with a load enable. -/
theorem Writes.next {b : Block} {reg : String} {type : Ty} {reset : Reset}
    {w data loadEn port : ℕ} (h : Writes b reg type reset w true [data, loadEn, port])
    {regs regs' : String → Value} {val : ℕ → Value} (hnext : b.NextRegs regs val regs')
    (hquiet : isTrue (val port) = reset.activeLow) {e : Bool} (he : val loadEn = ofBool e) :
    regs' reg = if e then val data else regs reg := by
  obtain ⟨t, ht⟩ := h.node
  have := hnext reg _ w _ true true h.register h.recorded ht rfl
  simp only [nextRegState, bufferRegister, List.map_cons, he] at this
  cases e <;> simpa [hquiet] using this.symm

/-- After reset a one-bit register is false. -/
theorem Writes.inReset {b : Block} {reg : String} {reset : Reset} {w : ℕ} {hasLoadEnable : Bool}
    {operands : List ℕ} (h : Writes b reg (.bits 1) reset w hasLoadEnable operands)
    {regs : String → Value} (hreset : b.InResetState regs) : regs reg = ofBool false :=
  hreset reg _ _ h.register rfl

/-- A node of one bit has a truth value in each cycle. -/
theorem exists_bool {b : Block} {regs : String → Value} {val : ℕ → Value}
    (h : b.Consistent regs val) {id : ℕ} (ht : b.typeOf id = some (.bits 1)) :
    ∃ a, val id = ofBool a := by
  obtain ⟨env, henv⟩ := h
  obtain ⟨n, hn, htype⟩ := Option.map_eq_some_iff.mp ht
  have hconf := (henv id n hn).2
  rw [htype] at hconf
  exact exists_ofBool hconf

section Buffers

variable {b : Block} {namePrefix : String} {type : Ty} {reset : Reset} {resetBehavior : Option Reset}
  {port fromData fromValid fromRdy ready toValid toData toIsReady : ℕ}
  {regs regs' : String → Value} {val : ℕ → Value}
  (hin : Inserted b resetBehavior reset port fromValid fromRdy ready toIsReady)

include hin in
/-- The input valid and the output ready are truth values. -/
theorem Inserted.exists_inputs (hcycle : Cycle b resetBehavior regs val regs') :
    ∃ iv rdy, val fromValid = ofBool iv ∧ val toIsReady = ofBool rdy := by
  obtain ⟨iv, hiv⟩ := exists_bool hcycle.1.1 hin.fromValid
  obtain ⟨rdy, hrdy⟩ := exists_bool hcycle.1.1 hin.toIsReady
  exact ⟨iv, rdy, hiv, hrdy⟩

/-! ## The skid buffer -/

/-- The valid registers hold truth values, and the skid register is filled last. -/
def SkidInv (namePrefix : String) (regs : String → Value) : Prop :=
  ∃ v sv, regs (validName namePrefix) = ofBool v ∧
    regs (validSkidName namePrefix) = ofBool sv ∧ (sv = true → v = true)

/-- The skid register is ahead of the data register. -/
def skidContents (namePrefix : String) (regs : String → Value) : List Value :=
  if isTrue (regs (validSkidName namePrefix)) then
    [regs (skidName namePrefix), regs (registerName namePrefix)]
  else if isTrue (regs (validName namePrefix)) then
    [regs (registerName namePrefix)]
  else []

variable {v sv iv rdy : Bool} (hc : b.Consistent regs val)
  (hstep : Cycle b resetBehavior regs val regs') (hv : regs (validName namePrefix) = ofBool v)
  (hsv : regs (validSkidName namePrefix) = ofBool sv) (hiv : val fromValid = ofBool iv)
  (hrdy : val toIsReady = ofBool rdy)

section Skid

variable {x : SkidNodes}
  (h : SkidNetlist b namePrefix type reset port fromData fromValid ready toValid toData toIsReady x)

include h

include hc hv hsv hiv hrdy in
/-- The signals of a skid buffer, from the valid registers, the input valid and the output
ready. -/
theorem SkidNetlist.signals :
    val toValid = ofBool (v || sv) ∧
    val toData = (if sv then regs (skidName namePrefix)
      else regs (registerName namePrefix)) ∧
    val ready = ofBool (!sv) ∧
    val x.inputReadyAndValid = ofBool (iv && !sv) ∧
    val x.validLoadEn = ofBool ((v && rdy && !sv) || (iv && !sv)) ∧
    val x.skidDataLoadEn = ofBool (v && (iv && !sv) && !rdy) ∧
    val x.skidValidLoadEn = ofBool ((v && (iv && !sv) && !rdy) || (sv && rdy)) ∧
    val x.dataReg = regs (registerName namePrefix) := by
  have rv : val x.dataValidReg = ofBool v := (hc.registerRead h.validRead).trans hv
  have rsv : val x.dataValidSkidReg = ofBool sv := (hc.registerRead h.validSkidRead).trans hsv
  have rd := hc.registerRead h.dataRead
  have rsd := hc.registerRead h.dataSkidRead
  have hready : val ready = ofBool (!sv) := hc.not h.fromSkidRdy rsv
  have hin : val x.inputReadyAndValid = ofBool (iv && !sv) :=
    hc.and h.inputReadyAndValid (a := iv) (l := [!sv]) (by simp [hiv, hready])
  have hsent : val x.dataIsSentTo = ofBool (v && rdy && !sv) :=
    hc.and h.dataIsSentTo (a := v) (l := [rdy, !sv]) (by simp [rv, hrdy, hready])
  have hnot : val x.toIsNotRdy = ofBool (!rdy) := hc.not h.toIsNotRdy hrdy
  have hskid : val x.skidDataLoadEn = ofBool (v && (iv && !sv) && !rdy) :=
    hc.and h.skidDataLoadEn (a := v) (l := [iv && !sv, !rdy]) (by simp [rv, hin, hnot])
  have hzero : val x.skidValidSetZero = ofBool (sv && rdy) :=
    hc.and h.skidValidSetZero (a := sv) (l := [rdy]) (by simp [rsv, hrdy])
  refine ⟨?_, ?_, hready, hin, ?_, hskid, ?_, rd⟩
  · exact hc.or h.validOr (a := v) (l := [sv]) (by simp [rv, rsv])
  · rw [hc.select h.dataSelect rsv, rd, rsd]
  · exact hc.or h.validLoadEn (a := v && rdy && !sv) (l := [iv && !sv]) (by simp [hsent, hin])
  · exact hc.or h.skidValidLoadEn (a := v && (iv && !sv) && !rdy) (l := [sv && rdy])
      (by simp [hskid, hzero])

include hin hstep hv hsv hiv hrdy in
/-- What a cycle does to the registers of a skid buffer. -/
theorem SkidNetlist.cycle :
    regs' (registerName namePrefix) =
      (if iv && !sv then val fromData else regs (registerName namePrefix)) ∧
    regs' (skidName namePrefix) =
      (if v && (iv && !sv) && !rdy then regs (registerName namePrefix)
        else regs (skidName namePrefix)) ∧
    regs' (validName namePrefix) =
      ofBool (if (v && rdy && !sv) || (iv && !sv) then iv else v) ∧
    regs' (validSkidName namePrefix) =
      ofBool (if (v && (iv && !sv) && !rdy) || (sv && rdy) then !sv else sv) := by
  obtain ⟨⟨hc, hnext⟩, hquiet⟩ := hstep
  have hquiet := hquiet reset port hin.reset hin.resetPort
  obtain ⟨-, -, hready, hin, hvalid, hskid, hskidValid, rd⟩ := h.signals hc hv hsv hiv hrdy
  obtain ⟨w₁, hw₁⟩ := h.dataWrite
  obtain ⟨w₂, hw₂⟩ := h.dataSkidWrite
  obtain ⟨w₃, hw₃⟩ := h.validWrite
  obtain ⟨w₄, hw₄⟩ := h.validSkidWrite
  refine ⟨hw₁.next hnext hquiet hin, ?_, ?_, ?_⟩
  · rw [hw₂.next hnext hquiet hskid, rd]
  · rw [hw₃.next hnext hquiet hvalid, hiv, hv, apply_ite ofBool]
  · rw [hw₄.next hnext hquiet hskidValid, hready, hsv, apply_ite ofBool]

include hin in
theorem SkidNetlist.isFifo :
    IsFifo b resetBehavior 2 ⟨fromData, fromValid, ready⟩ ⟨toData, toValid, toIsReady⟩ := by
  refine isFifo_of_invariant (SkidInv namePrefix) (skidContents namePrefix) ?_ ?_ ?_ ?_
  · intro regs
    unfold skidContents
    split_ifs <;> simp
  · intro regs hregs
    obtain ⟨w₃, hw₃⟩ := h.validWrite
    obtain ⟨w₄, hw₄⟩ := h.validSkidWrite
    have hv := hw₃.inReset hregs
    have hsv := hw₄.inReset hregs
    refine ⟨⟨false, false, hv, hsv, id⟩, ?_⟩
    simp [skidContents, hv, hsv]
  · rintro regs val regs' ⟨v, sv, hv, hsv, himp⟩ hcycle
    obtain ⟨iv, rdy, hiv, hrdy⟩ := hin.exists_inputs hcycle
    obtain ⟨sValid, sData, sReady, -⟩ := h.signals hcycle.1.1 hv hsv hiv hrdy
    obtain ⟨hd', hsd', hv', hsv'⟩ := h.cycle hin hcycle hv hsv hiv hrdy
    refine ⟨⟨_, _, hv', hsv', ?_⟩, ?_⟩
    · revert himp
      cases v <;> cases sv <;> cases iv <;> cases rdy <;> decide
    · simp only [skidContents, RdvNodes.transfer, hv, hsv, hiv, hrdy, sValid, sData, sReady, hd',
        hsd', hv', hsv']
      revert himp
      cases v <;> cases sv <;> cases iv <;> cases rdy <;> simp
  · rintro regs val regs' val' regs'' ⟨v, sv, hv, hsv, himp⟩ hcycle hcycle' hvalid hstall
    obtain ⟨iv, rdy, hiv, hrdy⟩ := hin.exists_inputs hcycle
    obtain ⟨iv', rdy', hiv', hrdy'⟩ := hin.exists_inputs hcycle'
    obtain ⟨sValid, sData, -⟩ := h.signals hcycle.1.1 hv hsv hiv hrdy
    obtain ⟨hd', hsd', hv', hsv'⟩ := h.cycle hin hcycle hv hsv hiv hrdy
    obtain ⟨sValid', sData', -⟩ := h.signals hcycle'.1.1 hv' hsv' hiv' hrdy'
    simp only [sValid, hrdy, isTrue_ofBool] at hvalid hstall
    simp only [sValid', sData', sData, hd', hsd']
    subst hstall
    revert himp hvalid
    cases v <;> cases sv <;> cases iv <;> simp

end Skid

/-! ## The zero-latency buffer -/

/-- The contents of a buffer of one register. -/
def registerContents (dataName validName : String) (regs : String → Value) : List Value :=
  if isTrue (regs validName) then [regs dataName] else []

theorem length_registerContents (dataName validName : String) (regs : String → Value) :
    (registerContents dataName validName regs).length ≤ 1 := by
  unfold registerContents
  split_ifs <;> simp

section ZeroLatency

variable {x : ZeroLatencyNodes}
  (h : ZeroLatencyNetlist b namePrefix type reset port fromData fromValid ready toValid toData
    toIsReady x)

include h

include hc hsv hiv hrdy in
/-- The signals of a zero-latency buffer. -/
theorem ZeroLatencyNetlist.signals :
    val toValid = ofBool (iv || sv) ∧
    val toData = (if sv then regs (skidName namePrefix) else val fromData) ∧
    val ready = ofBool (!sv) ∧
    val x.skidDataLoadEn = ofBool (iv && !sv && !rdy) ∧
    val x.skidValidLoadEn = ofBool ((iv && !sv && !rdy) || (sv && rdy)) := by
  have rsv : val x.dataValidSkidReg = ofBool sv := (hc.registerRead h.validSkidRead).trans hsv
  have hready : val ready = ofBool (!sv) := hc.not h.fromSkidRdy rsv
  have hnot : val x.toIsNotRdy = ofBool (!rdy) := hc.not h.toIsNotRdy hrdy
  have hskid : val x.skidDataLoadEn = ofBool (iv && !sv && !rdy) :=
    hc.and h.skidDataLoadEn (a := iv) (l := [!sv, !rdy]) (by simp [hiv, hready, hnot])
  have hzero : val x.skidValidSetZero = ofBool (sv && rdy) :=
    hc.and h.skidValidSetZero (a := sv) (l := [rdy]) (by simp [rsv, hrdy])
  refine ⟨?_, ?_, hready, hskid, ?_⟩
  · exact hc.or h.validOr (a := iv) (l := [sv]) (by simp [hiv, rsv])
  · rw [hc.select h.dataSelect rsv, hc.registerRead h.dataSkidRead]
  · exact hc.or h.skidValidLoadEn (a := iv && !sv && !rdy) (l := [sv && rdy])
      (by simp [hskid, hzero])

include hin hstep hsv hiv hrdy in
/-- What a cycle does to the registers of a zero-latency buffer. -/
theorem ZeroLatencyNetlist.cycle :
    regs' (skidName namePrefix) =
      (if iv && !sv && !rdy then val fromData else regs (skidName namePrefix)) ∧
    regs' (validSkidName namePrefix) =
      ofBool (if (iv && !sv && !rdy) || (sv && rdy) then !sv else sv) := by
  obtain ⟨⟨hc, hnext⟩, hquiet⟩ := hstep
  have hquiet := hquiet reset port hin.reset hin.resetPort
  obtain ⟨-, -, hready, hskid, hskidValid⟩ := h.signals hc hsv hiv hrdy
  obtain ⟨w₁, hw₁⟩ := h.dataSkidWrite
  obtain ⟨w₂, hw₂⟩ := h.validSkidWrite
  refine ⟨hw₁.next hnext hquiet hskid, ?_⟩
  rw [hw₂.next hnext hquiet hskidValid, hready, hsv, apply_ite ofBool]

include hin in
theorem ZeroLatencyNetlist.isFifo :
    IsFifo b resetBehavior 1 ⟨fromData, fromValid, ready⟩ ⟨toData, toValid, toIsReady⟩ := by
  refine isFifo_of_invariant (fun regs => ∃ sv, regs (validSkidName namePrefix) = ofBool sv)
    (registerContents (skidName namePrefix)
      (validSkidName namePrefix)) (length_registerContents _ _) ?_ ?_ ?_
  · intro regs hregs
    obtain ⟨w, hw⟩ := h.validSkidWrite
    have hsv := hw.inReset hregs
    exact ⟨⟨false, hsv⟩, by simp [registerContents, hsv]⟩
  · rintro regs val regs' ⟨sv, hsv⟩ hcycle
    obtain ⟨iv, rdy, hiv, hrdy⟩ := hin.exists_inputs hcycle
    obtain ⟨sValid, sData, sReady, -⟩ := h.signals hcycle.1.1 hsv hiv hrdy
    obtain ⟨hsd', hsv'⟩ := h.cycle hin hcycle hsv hiv hrdy
    simp only [registerContents, RdvNodes.transfer, hsv, hiv, hrdy, sValid, sData, sReady, hsd',
      hsv']
    cases sv <;> cases iv <;> cases rdy <;> simp
  · rintro regs val regs' val' regs'' ⟨sv, hsv⟩ hcycle hcycle' hvalid hstall
    obtain ⟨iv, rdy, hiv, hrdy⟩ := hin.exists_inputs hcycle
    obtain ⟨iv', rdy', hiv', hrdy'⟩ := hin.exists_inputs hcycle'
    obtain ⟨sValid, sData, -⟩ := h.signals hcycle.1.1 hsv hiv hrdy
    obtain ⟨hsd', hsv'⟩ := h.cycle hin hcycle hsv hiv hrdy
    obtain ⟨sValid', sData', -⟩ := h.signals hcycle'.1.1 hsv' hiv' hrdy'
    simp only [sValid, hrdy, isTrue_ofBool] at hvalid hstall
    simp only [sValid', sData', sData, hsd']
    subst hstall
    revert hvalid
    cases sv <;> cases iv <;> simp

end ZeroLatency

/-! ## The register -/

section Register

variable {notValid validLoadEn : ℕ}
  (h : RegisterNetlist b namePrefix type reset port fromData fromValid ready toValid toData
    toIsReady notValid validLoadEn)

include h

include hc hv hiv hrdy in
/-- The signals of a register stage. -/
theorem RegisterNetlist.signals :
    val toValid = ofBool v ∧ val toData = regs (registerName namePrefix) ∧
    val validLoadEn = ofBool (rdy || !v) ∧ val ready = ofBool (iv && (rdy || !v)) := by
  have rv : val toValid = ofBool v := (hc.registerRead h.validRead).trans hv
  have hnot : val notValid = ofBool (!v) := hc.not h.validInv rv
  have hload : val validLoadEn = ofBool (rdy || !v) :=
    hc.or h.validLoadEnOr (a := rdy) (l := [!v]) (by simp [hrdy, hnot])
  refine ⟨rv, hc.registerRead h.dataRead, hload, ?_⟩
  exact hc.and h.dataLoadEn (a := iv) (l := [rdy || !v]) (by simp [hiv, hload])

include hin hstep hv hiv hrdy in
/-- What a cycle does to the registers of a register stage. -/
theorem RegisterNetlist.cycle :
    regs' (registerName namePrefix) =
      (if iv && (rdy || !v) then val fromData else regs (registerName namePrefix)) ∧
    regs' (validName namePrefix) = ofBool (if rdy || !v then iv else v) := by
  obtain ⟨⟨hc, hnext⟩, hquiet⟩ := hstep
  have hquiet := hquiet reset port hin.reset hin.resetPort
  obtain ⟨-, -, hload, hready⟩ := h.signals hc hv hiv hrdy
  obtain ⟨w₁, hw₁⟩ := h.dataWrite
  obtain ⟨w₂, hw₂⟩ := h.validWrite
  refine ⟨hw₁.next hnext hquiet hready, ?_⟩
  rw [hw₂.next hnext hquiet hload, hiv, hv, apply_ite ofBool]

include hin in
theorem RegisterNetlist.isFifo :
    IsFifo b resetBehavior 1 ⟨fromData, fromValid, ready⟩ ⟨toData, toValid, toIsReady⟩ := by
  refine isFifo_of_invariant (fun regs => ∃ v, regs (validName namePrefix) = ofBool v)
    (registerContents (registerName namePrefix) (validName namePrefix))
    (length_registerContents _ _) ?_ ?_ ?_
  · intro regs hregs
    obtain ⟨w, hw⟩ := h.validWrite
    have hv := hw.inReset hregs
    exact ⟨⟨false, hv⟩, by simp [registerContents, hv]⟩
  · rintro regs val regs' ⟨v, hv⟩ hcycle
    obtain ⟨iv, rdy, hiv, hrdy⟩ := hin.exists_inputs hcycle
    obtain ⟨sValid, sData, -, sReady⟩ := h.signals hcycle.1.1 hv hiv hrdy
    obtain ⟨hd', hv'⟩ := h.cycle hin hcycle hv hiv hrdy
    simp only [registerContents, RdvNodes.transfer, hv, hiv, hrdy, sValid, sData, sReady, hd', hv']
    cases v <;> cases iv <;> cases rdy <;> simp
  · rintro regs val regs' val' regs'' ⟨v, hv⟩ hcycle hcycle' hvalid hstall
    obtain ⟨iv, rdy, hiv, hrdy⟩ := hin.exists_inputs hcycle
    obtain ⟨iv', rdy', hiv', hrdy'⟩ := hin.exists_inputs hcycle'
    obtain ⟨sValid, sData, -⟩ := h.signals hcycle.1.1 hv hiv hrdy
    obtain ⟨hd', hv'⟩ := h.cycle hin hcycle hv hiv hrdy
    obtain ⟨sValid', sData', -⟩ := h.signals hcycle'.1.1 hv' hiv' hrdy'
    simp only [sValid, hrdy, isTrue_ofBool] at hvalid hstall
    simp only [sValid', sData', sData, hd']
    subst hvalid hstall
    cases iv <;> simp

end Register

end Buffers

/-! ## All buffers -/

/-- The ready signal of the input is a function of the registers only. -/
def ReadyFromRegisters (b : Block) (ready : ℕ) : Prop :=
  ∃ f : (String → Value) → Value, ∀ regs val, b.Consistent regs val → val ready = f regs

/-- The inverse of a register is a function of the registers. -/
theorem readyFromRegisters_of_not {b : Block} {ready read : ℕ} {reg : String}
    (hread : b.Has read (.registerRead reg) []) (hnot : b.Has ready .not [read]) :
    ReadyFromRegisters b ready := by
  refine ⟨fun regs => ((evalNode (fun _ _ => .token) regs ready ⟨.not, [read], .bits 1⟩
    [regs reg]).getD .token), ?_⟩
  intro regs val hc
  have hr := hc.registerRead hread
  obtain ⟨env, henv⟩ := hc
  obtain ⟨t, ht⟩ := hnot
  have heval := (henv ready _ ht).1
  rw [List.map_singleton, hr] at heval
  show val ready = Option.getD _ _
  rw [show evalNode (fun _ _ => .token) regs ready ⟨.not, [read], .bits 1⟩ [regs reg] =
    some (val ready) from heval, Option.getD_some]

/-- The nodes of a block which passes a stream through: data, valid, reset and the ready of
the output come in, the ready of the input, data and valid go out. -/
def passThroughNodes : List BlockNode :=
  [⟨.inputPort, [], .bits 8⟩, ⟨.inputPort, [], .bits 1⟩, ⟨.inputPort, [], .bits 1⟩,
    ⟨.inputPort, [], .bits 1⟩, ⟨.outputPort, [3], .tuple []⟩, ⟨.outputPort, [0], .tuple []⟩,
    ⟨.outputPort, [1], .tuple []⟩]

/-- The block which passes a stream through. -/
def passThrough : Block :=
  ⟨fun id => passThroughNodes[id]?, 7, fun _ => none, fun _ => none, some 2⟩

theorem passThrough_host : Host passThrough 0 1 4 3 where
  wellFormed := by
    intro id n hn
    refine ⟨(List.getElem?_eq_some_iff.mp hn).1, ?_⟩
    exact (by decide : ∀ n ∈ passThroughNodes, ∀ o ∈ n.operands, o < 7) n (List.mem_of_getElem? hn)
  data_lt := by decide
  data_ne_valid := by decide
  rdy_ne_valid := by decide
  rdy := ⟨.outputPort, .tuple [], rfl⟩
  valid_type := rfl
  src_type := rfl
  resetPort := by
    intro port hport
    cases hport
    decide

end BlockConversion

end Xls
