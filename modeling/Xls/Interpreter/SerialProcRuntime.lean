/-
# The serial proc runtime

`SerialProcRuntime::TickInternal` (`xls/interpreter/serial_proc_runtime.cc`) runs the
procs of a package from a ready list.  A proc which blocks on a receive is entered into
the map `blocked_procs` under its channel, and goes back to the ready list when a proc
sends on the channel.

The map has one entry for a channel.  When a second proc blocks on it, the entry of the
first is lost; the first is not woken by the next send.
-/
import Xls.Interpreter.ProcInterpreter
import Xls.Lib.Run

namespace Xls

/-- `Proc::HasIoOperations`: some node is a send or a receive. -/
def Proc.hasIoOperations (proc : Proc) : Bool :=
  proc.nodes.any fun node =>
    match node with
    | .compute _ => false
    | .receive _ _ _ | .send _ _ _ => true

/-- `NetworkTickResult`. -/
structure NetworkTickResult where
  progressMade : Bool
  progressMadeOnIoProcs : Bool
  blockedChannels : List ℕ
  deriving DecidableEq, Repr

/-- The state of the loop of `TickInternal`.  `lastResult` is the result of the last tick of
each proc, which the source only logs. -/
structure SerialProcRuntime where
  continuations : ℕ → ProcContinuation
  queues : ChannelQueues
  blockedProcs : ℕ → Option ℕ
  readyProcs : List ℕ
  progressMade : Bool
  progressMadeOnIoProcs : Bool
  lastResult : ℕ → Option TickExecutionState

namespace SerialProcRuntime

/-- All procs are put on the ready list. -/
def start (pkg : Package) (continuations : ℕ → ProcContinuation) (queues : ChannelQueues) :
    SerialProcRuntime where
  continuations := continuations
  queues := queues
  blockedProcs _ := none
  readyProcs := List.range pkg.procs.length
  progressMade := false
  progressMadeOnIoProcs := false
  lastResult _ := none

/-- The proc which is recorded as blocked on the channel goes back to the ready list. -/
def unblock (st : SerialProcRuntime) (channel : ℕ) : SerialProcRuntime :=
  match st.blockedProcs channel with
  | some proc =>
    { st with
      readyProcs := st.readyProcs ++ [proc]
      blockedProcs := Function.update st.blockedProcs channel none }
  | none => st

/-- The branches on the result of a tick. -/
def handleResult (st : SerialProcRuntime) (proc : ℕ) : TickExecutionState → SerialProcRuntime
  | .sentOnChannel channel =>
    let st := st.unblock channel
    { st with readyProcs := st.readyProcs ++ [proc] }
  | .blockedOnReceive channel =>
    { st with blockedProcs := Function.update st.blockedProcs channel (some proc) }
  | .completed => st

/-- The state behind a tick of the first proc of the ready list. -/
def afterTick (st : SerialProcRuntime) (proc : ℕ) (ready : List ℕ) (hasIo : Bool)
    (result : TickResult) (cont : ProcContinuation) (queues : ChannelQueues) :
    SerialProcRuntime :=
  { st with
    continuations := Function.update st.continuations proc cont
    queues := queues
    readyProcs := ready
    progressMade := st.progressMade || result.progressMade
    progressMadeOnIoProcs := st.progressMadeOnIoProcs || (result.progressMade && hasIo)
    lastResult := Function.update st.lastResult proc (some result.executionState) }

/-- One round of the loop; `none` is an error status. -/
def iteration (pkg : Package) (st : SerialProcRuntime) : Option SerialProcRuntime :=
  match st.readyProcs with
  | [] => none
  | id :: ready =>
    match pkg.procs[id]? with
    | none => none
    | some proc =>
      match ProcInterpreter.tick pkg.channels proc (st.continuations id) st.queues with
      | none => none
      | some (result, cont, queues) =>
        some ((st.afterTick id ready proc.hasIoOperations result cont queues).handleResult id
          result.executionState)

/-- The loop of `TickInternal`, with fuel. -/
def loop (pkg : Package) : ℕ → SerialProcRuntime → Option SerialProcRuntime
  | 0, _ => none
  | fuel + 1, st =>
    match st.readyProcs with
    | [] => some st
    | _ :: _ =>
      match iteration pkg st with
      | some st => loop pkg fuel st
      | none => none

/-- `get_blocked_channels`: the keys of the map in the order of their ids. -/
def blockedChannels (pkg : Package) (st : SerialProcRuntime) : List ℕ :=
  (List.range pkg.channels.length).filter fun channel => (st.blockedProcs channel).isSome

/-- `TickInternal`: the result and the state in which it leaves the procs and queues. -/
def tickInternal (pkg : Package) (fuel : ℕ) (continuations : ℕ → ProcContinuation)
    (queues : ChannelQueues) : Option (NetworkTickResult × SerialProcRuntime) :=
  (loop pkg fuel (start pkg continuations queues)).map fun st =>
    (⟨st.progressMade, st.progressMadeOnIoProcs, blockedChannels pkg st⟩, st)

/-! ## One round -/

section Fields

variable (st : SerialProcRuntime) (proc : ℕ) (state : TickExecutionState)

/-- Only the lists of the procs change. -/
theorem handleResult_frame : (st.handleResult proc state).queues = st.queues ∧
    (st.handleResult proc state).continuations = st.continuations ∧
    (st.handleResult proc state).lastResult = st.lastResult := by
  rcases state with _ | c | c
  · exact ⟨rfl, rfl, rfl⟩
  · exact ⟨rfl, rfl, rfl⟩
  · simp only [handleResult, unblock]
    split <;> exact ⟨rfl, rfl, rfl⟩

@[simp] theorem handleResult_queues : (st.handleResult proc state).queues = st.queues :=
  (handleResult_frame st proc state).1

@[simp] theorem handleResult_continuations :
    (st.handleResult proc state).continuations = st.continuations :=
  (handleResult_frame st proc state).2.1

@[simp] theorem handleResult_lastResult :
    (st.handleResult proc state).lastResult = st.lastResult :=
  (handleResult_frame st proc state).2.2

end Fields

/-- The proc is off the ready list and its last tick ended blocked on the channel. -/
def Waits (pkg : Package) (st : SerialProcRuntime) (channel proc : ℕ) : Prop :=
  proc < pkg.procs.length ∧ proc ∉ st.readyProcs ∧
    st.lastResult proc = some (.blockedOnReceive channel)

/-- The next tick sends on a channel on which several procs are blocked. -/
def SendsToSeveral (pkg : Package) (st : SerialProcRuntime) : Prop :=
  ∃ id ready proc result cont queues channel,
    st.readyProcs = id :: ready ∧ pkg.procs[id]? = some proc ∧
    ProcInterpreter.tick pkg.channels proc (st.continuations id) st.queues =
      some (result, cont, queues) ∧
    result.executionState = .sentOnChannel channel ∧
    ∃ p q, p ≠ q ∧ Waits pkg st channel p ∧ Waits pkg st channel q

/-- The procs off the ready list are done or wait for an empty queue, and the map knows a
proc for each channel on which a proc waits. -/
structure Inv (pkg : Package) (st : SerialProcRuntime) : Prop where
  ready_lt : ∀ p ∈ st.readyProcs, p < pkg.procs.length
  ready_nodup : st.readyProcs.Nodup
  settled : ∀ p < pkg.procs.length, p ∉ st.readyProcs →
    st.lastResult p = some .completed ∨ ∃ c, st.lastResult p = some (.blockedOnReceive c)
  empty : ∀ c p, Waits pkg st c p → st.queues c = []
  atReceive : ∀ c p proc, Waits pkg st c p → pkg.procs[p]? = some proc →
    ProcInterpreter.AtReceive proc (st.continuations p) c
  channel_lt : ∀ c p, Waits pkg st c p → c < pkg.channels.length
  recorded : ∀ c p, st.blockedProcs c = some p → Waits pkg st c p
  complete : ∀ c, st.blockedProcs c = none → ∀ p, ¬ Waits pkg st c p

theorem Inv.start (pkg : Package) (continuations : ℕ → ProcContinuation)
    (queues : ChannelQueues) : Inv pkg (start pkg continuations queues) := by
  have hnot : ∀ c p, ¬ Waits pkg (SerialProcRuntime.start pkg continuations queues) c p := by
    rintro c p ⟨hp, hready, -⟩
    exact hready (List.mem_range.mpr hp)
  refine ⟨fun p hp => List.mem_range.mp hp, List.nodup_range, ?_, ?_, ?_, ?_, ?_, ?_⟩
  · intro p hp hready
    exact absurd (List.mem_range.mpr hp) hready
  · intro c p hw
    exact absurd hw (hnot c p)
  · intro c p proc hw
    exact absurd hw (hnot c p)
  · intro c p hw
    exact absurd hw (hnot c p)
  · intro c p hp
    cases hp
  · intro c _ p
    exact hnot c p

section Round

variable {pkg : Package} {st : SerialProcRuntime} {id : ℕ} {ready : List ℕ} {hasIo : Bool}
  {result : TickResult} {cont : ProcContinuation} {queues : ChannelQueues}

variable (h : Inv pkg st) (hready : st.readyProcs = id :: ready) {proc : Proc}
  (hproc : pkg.procs[id]? = some proc)
  (heffect : ProcInterpreter.TickEffect pkg.channels proc st.queues result.executionState cont
    queues)

include h hready in
/-- The procs which wait after a tick are those which waited before and the one which has
blocked. -/
theorem waits_afterTick {c p : ℕ} :
    Waits pkg (st.afterTick id ready hasIo result cont queues) c p ↔
      Waits pkg st c p ∨ p = id ∧ result.executionState = .blockedOnReceive c := by
  have hnodup := h.ready_nodup
  have hlt := h.ready_lt id
  rw [hready] at hnodup hlt
  obtain ⟨hnot, -⟩ := List.nodup_cons.mp hnodup
  unfold Waits
  rw [hready]
  simp only [afterTick]
  by_cases hp : p = id
  · subst hp
    simp [hnot, hlt]
  · simp [hp]

theorem Waits.ne (h : st.readyProcs = id :: ready) {c p : ℕ} (hw : Waits pkg st c p) : p ≠ id := by
  rintro rfl
  exact hw.2.1 (by simp [h])

section

include h hready

include hproc heffect in
/-- What a tick keeps of the invariant, whatever its result. -/
theorem Inv.afterTick {c p : ℕ}
    (hw : Waits pkg (st.afterTick id ready hasIo result cont queues) c p) :
    (result.executionState ≠ .sentOnChannel c → queues c = []) ∧ c < pkg.channels.length ∧
    ∀ proc', pkg.procs[p]? = some proc' →
      ProcInterpreter.AtReceive proc' (Function.update st.continuations id cont p) c := by
  rcases (waits_afterTick h hready).mp hw with hold | ⟨rfl, hblocked⟩
  · refine ⟨fun hne => heffect.others c hne (h.empty c p hold), h.channel_lt c p hold, ?_⟩
    intro proc' hproc'
    rw [Function.update_of_ne (hold.ne hready)]
    exact h.atReceive c p proc' hold hproc'
  · obtain ⟨hlt, hempty, hat⟩ := heffect.blocked c hblocked
    refine ⟨fun _ => hempty, hlt, ?_⟩
    intro proc' hproc'
    rw [hproc] at hproc'
    cases hproc'
    rw [Function.update_self]
    exact hat

/-- A proc off the ready list is done or waits. -/
theorem Inv.settled_afterTick {p : ℕ} (hp : p < pkg.procs.length) (hnot : p ∉ ready)
    (hresult : ∀ c, result.executionState ≠ .sentOnChannel c) :
    Function.update st.lastResult id (some result.executionState) p = some .completed ∨
      ∃ c, Function.update st.lastResult id (some result.executionState) p =
        some (.blockedOnReceive c) := by
  by_cases hid : p = id
  · subst hid
    rw [Function.update_self]
    rcases hstate : result.executionState with _ | c | c
    · exact .inl rfl
    · exact .inr ⟨c, rfl⟩
    · exact absurd hstate (hresult c)
  · rw [Function.update_of_ne hid]
    exact h.settled p hp (by simp [hready, hid, hnot])

include hproc heffect in
/-- A round in which the proc completes or blocks. -/
theorem Inv.not_sent (hresult : ∀ c, result.executionState ≠ .sentOnChannel c) :
    Inv pkg ((st.afterTick id ready hasIo result cont queues).handleResult id
      result.executionState) := by
  set st₁ := st.afterTick id ready hasIo result cont queues with hst₁
  have hlt := h.ready_lt
  have hnodup := h.ready_nodup
  rw [hready] at hlt hnodup
  have hwaits : ∀ {c p}, Waits pkg st₁ c p ↔
      Waits pkg st c p ∨ p = id ∧ result.executionState = .blockedOnReceive c :=
    waits_afterTick h hready
  have hkeep := fun {c p} (hw : Waits pkg st₁ c p) => h.afterTick hready hproc heffect hw
  rcases hstate : result.executionState with _ | channel | channel
  case sentOnChannel => exact absurd hstate (hresult channel)
  all_goals
    refine ⟨fun p hp => hlt p (by simp [show p ∈ ready from hp]), hnodup.of_cons,
      fun p hp hnot => h.settled_afterTick hready hp hnot hresult,
      fun c p hw => (hkeep hw).1 (hresult c), fun c p proc' hw => (hkeep hw).2.2 proc',
      fun c p hw => (hkeep hw).2.1, ?_, ?_⟩
  · -- completed: the procs which wait and are recorded stay
    intro c p hp
    exact hwaits.mpr (.inl (h.recorded c p hp))
  · intro c hnone p hw
    rcases hwaits.mp hw with hold | ⟨-, hblocked⟩
    · exact h.complete c hnone p hold
    · rw [hstate] at hblocked
      cases hblocked
  · -- blocked: the proc is recorded and waits
    intro c p hp
    have hp : Function.update st.blockedProcs channel (some id) c = some p := hp
    refine hwaits.mpr ?_
    by_cases hc : c = channel
    · subst hc
      rw [Function.update_self] at hp
      cases hp
      exact .inr ⟨rfl, hstate⟩
    · rw [Function.update_of_ne hc] at hp
      exact .inl (h.recorded c p hp)
  · intro c hnone p hw
    have hnone : Function.update st.blockedProcs channel (some id) c = none := hnone
    by_cases hc : c = channel
    · subst hc
      rw [Function.update_self] at hnone
      cases hnone
    · rw [Function.update_of_ne hc] at hnone
      rcases hwaits.mp hw with hold | ⟨-, hblocked⟩
      · exact h.complete c hnone p hold
      · rw [hstate] at hblocked
        cases hblocked
        exact hc rfl

end

/-- The procs which a send has woken, in the state after it. -/
structure Woken (pkg : Package) (st st' : SerialProcRuntime) (id : ℕ) (ready : List ℕ)
    (channel : ℕ) (woken : List ℕ) : Prop where
  waits : ∀ p, p ∈ woken ↔ Waits pkg st channel p
  readyProcs : st'.readyProcs = ready ++ woken ++ [id]
  blockedProcs : st'.blockedProcs = Function.update st.blockedProcs channel none
  nodup : woken.Nodup

section Sent

variable {channel : ℕ} {woken : List ℕ}
  (hresult : result.executionState = .sentOnChannel channel)

include h in
/-- The procs which wait are woken, when there is one at most. -/
theorem Inv.exists_woken (hresult : result.executionState = .sentOnChannel channel)
    (hone : ∀ p q, Waits pkg st channel p → Waits pkg st channel q → p = q) :
    ∃ woken, Woken pkg st ((st.afterTick id ready hasIo result cont queues).handleResult id
      result.executionState) id ready channel woken := by
  rw [hresult]
  rcases hmap : st.blockedProcs channel with _ | q
  · refine ⟨[], fun p => ?_, ?_, ?_, List.nodup_nil⟩
    · exact iff_of_false (by simp) (h.complete channel hmap p)
    · simp [handleResult, unblock, SerialProcRuntime.afterTick, hmap]
    · have hsame : Function.update st.blockedProcs channel none = st.blockedProcs := by
        rw [← hmap, Function.update_eq_self]
      simp [handleResult, unblock, SerialProcRuntime.afterTick, hmap]
  · refine ⟨[q], fun p => ?_, ?_, ?_, List.nodup_singleton q⟩
    · rw [List.mem_singleton]
      constructor
      · rintro rfl
        exact h.recorded channel p hmap
      · intro hw
        exact hone p q hw (h.recorded channel q hmap)
    · simp [handleResult, unblock, SerialProcRuntime.afterTick, hmap]
    · simp [handleResult, unblock, SerialProcRuntime.afterTick, hmap]

include hready in
/-- The woken proc was off the ready list, and the sender is its head. -/
theorem Woken.nodup_ready (h : Inv pkg st) {st' : SerialProcRuntime}
    (hwoken : Woken pkg st st' id ready channel woken) :
    (ready ++ woken ++ [id]).Nodup := by
  have hnodup := h.ready_nodup
  rw [hready] at hnodup
  obtain ⟨hnot, hnodup⟩ := List.nodup_cons.mp hnodup
  have hwokenReady : ∀ p ∈ woken, p ∉ ready ∧ p ≠ id := by
    intro p hp
    have hw := (hwoken.waits p).mp hp
    exact ⟨fun hp => hw.2.1 (hready ▸ List.mem_cons_of_mem _ hp), hw.ne hready⟩
  refine (hnodup.append hwoken.nodup ?_).append (List.nodup_singleton id) ?_
  · intro p hp hp'
    exact (hwokenReady p hp').1 hp
  · intro p hp hp'
    rw [List.mem_singleton] at hp'
    subst hp'
    rcases List.mem_append.mp hp with hp | hp
    · exact hnot hp
    · exact (hwokenReady p hp).2 rfl

include h hready hresult

/-- A tick which ends in a send changes nothing for the other procs. -/
theorem waits_sent {c p : ℕ} :
    Waits pkg (st.afterTick id ready hasIo result cont queues) c p ↔ Waits pkg st c p := by
  rw [waits_afterTick h hready, hresult]
  simp

/-- The procs which wait now are those which waited, less the one woken. -/
theorem Woken.waits_iff (hwoken : Woken pkg st
      ((st.afterTick id ready hasIo result cont queues).handleResult id result.executionState)
      id ready channel woken) {c p : ℕ} :
    Waits pkg ((st.afterTick id ready hasIo result cont queues).handleResult id
      result.executionState) c p ↔ Waits pkg st c p ∧ c ≠ channel := by
  constructor
  · rintro ⟨hp, hoff, hlast⟩
    rw [handleResult_lastResult] at hlast
    rw [hwoken.readyProcs] at hoff
    simp only [List.mem_append, not_or] at hoff
    have hw : Waits pkg st c p := (waits_sent h hready hresult).mp ⟨hp, hoff.1.1, hlast⟩
    refine ⟨hw, ?_⟩
    rintro rfl
    exact hoff.1.2 ((hwoken.waits p).mpr hw)
  · rintro ⟨hw, hc⟩
    obtain ⟨hp, hoff, hlast⟩ := (waits_sent h hready hresult).mpr hw
    refine ⟨hp, ?_, by rw [handleResult_lastResult, hlast]⟩
    rw [hwoken.readyProcs]
    simp only [List.mem_append, List.mem_singleton, not_or]
    refine ⟨⟨hoff, ?_⟩, hw.ne hready⟩
    -- a proc waits on one channel only
    intro hp
    have hother := ((hwoken.waits p).mp hp).2.2
    rw [hw.2.2] at hother
    cases hother
    exact hc rfl

include hproc heffect in
/-- A round in which the proc sends, on a channel on which one proc waits at most. -/
theorem Inv.sent (hone : ∀ p q, Waits pkg st channel p → Waits pkg st channel q → p = q) :
    Inv pkg ((st.afterTick id ready hasIo result cont queues).handleResult id
      result.executionState) := by
  obtain ⟨woken, hwoken⟩ : ∃ woken, Woken pkg st
      ((st.afterTick id ready hasIo result cont queues).handleResult id result.executionState)
      id ready channel woken := h.exists_woken hresult hone
  have hlt := h.ready_lt
  rw [hready] at hlt
  have hwaits : ∀ {c p}, Waits pkg (st.afterTick id ready hasIo result cont queues) c p ↔
      Waits pkg st c p := waits_sent h hready hresult
  have hwaits' := fun {c p} => hwoken.waits_iff h hready hresult (c := c) (p := p)
  have hkeep := fun {c p} (hw : Waits pkg st c p) =>
    h.afterTick hready hproc heffect (hwaits.mpr hw)
  refine ⟨?_, ?_, ?_, ?_, ?_, ?_, ?_, ?_⟩
  · intro p hp
    rw [hwoken.readyProcs] at hp
    simp only [List.mem_append, List.mem_singleton] at hp
    rcases hp with (hp | hp) | rfl
    · exact hlt p (List.mem_cons_of_mem _ hp)
    · exact ((hwoken.waits p).mp hp).1
    · exact hlt p List.mem_cons_self
  · rw [hwoken.readyProcs]
    exact hwoken.nodup_ready hready h
  · intro p hp hoff
    rw [hwoken.readyProcs] at hoff
    simp only [List.mem_append, List.mem_singleton, not_or] at hoff
    rw [handleResult_lastResult]
    show Function.update st.lastResult id _ p = _ ∨ ∃ c, Function.update st.lastResult id _ p = _
    rw [Function.update_of_ne hoff.2]
    exact h.settled p hp (by simp [hready, hoff.1.1, hoff.2])
  · intro c p hw
    obtain ⟨hw, hc⟩ := hwaits'.mp hw
    rw [handleResult_queues]
    refine (hkeep hw).1 ?_
    rw [hresult]
    rintro ⟨⟩
    exact hc rfl
  · intro c p proc' hw
    rw [handleResult_continuations]
    exact (hkeep (hwaits'.mp hw).1).2.2 proc'
  · intro c p hw
    exact h.channel_lt c p (hwaits'.mp hw).1
  · intro c p hp
    rw [hwoken.blockedProcs] at hp
    by_cases hc : c = channel
    · subst hc
      rw [Function.update_self] at hp
      cases hp
    · rw [Function.update_of_ne hc] at hp
      exact hwaits'.mpr ⟨h.recorded c p hp, hc⟩
  · intro c hnone p hw
    obtain ⟨hw, hc⟩ := hwaits'.mp hw
    rw [hwoken.blockedProcs, Function.update_of_ne hc] at hnone
    exact h.complete c hnone p hw

end Sent

end Round

/-! ## Whole runs -/

/-- One round of the loop as a step. -/
def Step (pkg : Package) (st : SerialProcRuntime) (_ : Unit) (st' : SerialProcRuntime) : Prop :=
  iteration pkg st = some st'

/-- A round keeps the invariant, unless the proc sends to several blocked procs. -/
theorem Inv.step {pkg : Package} {st st' : SerialProcRuntime} (h : Inv pkg st)
    (hone : ¬ SendsToSeveral pkg st) (hstep : iteration pkg st = some st') : Inv pkg st' := by
  unfold iteration at hstep
  split at hstep
  · cases hstep
  rename_i id ready hready
  split at hstep
  · cases hstep
  rename_i proc hproc
  split at hstep
  · cases hstep
  rename_i result cont queues htick
  cases hstep
  have heffect := ProcInterpreter.tickFrom_effect rfl htick
  by_cases hsent : ∃ channel, result.executionState = .sentOnChannel channel
  · obtain ⟨channel, hsent⟩ := hsent
    refine h.sent hready hproc heffect hsent ?_
    intro p q hp hq
    by_contra hpq
    exact hone ⟨id, ready, proc, result, cont, queues, channel, hready, hproc, htick, hsent, p, q,
      hpq, hp, hq⟩
  · exact h.not_sent hready hproc heffect (not_exists.mp hsent)

/-- The loop is a run of rounds to a state with no proc on the ready list. -/
theorem loop_run {pkg : Package} {fuel : ℕ} {st final : SerialProcRuntime}
    (h : loop pkg fuel st = some final) :
    final.readyProcs = [] ∧ ∃ rounds, Lts.Run (Step pkg) st rounds final := by
  induction fuel generalizing st with
  | zero => cases h
  | succ fuel ih =>
    rw [loop] at h
    split at h
    · rename_i hready
      cases h
      exact ⟨hready, [], .nil _⟩
    · split at h
      · rename_i next hnext
        obtain ⟨hready, rounds, hrun⟩ := ih h
        exact ⟨hready, (_, ()) :: rounds, .cons hnext hrun⟩
      · cases h

theorem mem_blockedChannels {pkg : Package} {st : SerialProcRuntime} (h : Inv pkg st)
    (hready : st.readyProcs = []) {c : ℕ} :
    c ∈ blockedChannels pkg st ↔
      ∃ p < pkg.procs.length, st.lastResult p = some (.blockedOnReceive c) := by
  simp only [blockedChannels, List.mem_filter, List.mem_range, Option.isSome_iff_exists]
  constructor
  · rintro ⟨-, p, hp⟩
    obtain ⟨hlt, -, hlast⟩ := h.recorded c p hp
    exact ⟨p, hlt, hlast⟩
  · rintro ⟨p, hp, hlast⟩
    have hw : Waits pkg st c p := ⟨hp, by simp [hready], hlast⟩
    refine ⟨h.channel_lt c p hw, ?_⟩
    rcases hmap : st.blockedProcs c with _ | q
    · exact absurd hw (h.complete c hmap p)
    · exact ⟨q, rfl⟩

/-- What the caller of `TickInternal` finds: the procs have completed or are blocked on an
empty queue, and the blocked channels are reported. -/
structure Settled (pkg : Package) (result : NetworkTickResult) (final : SerialProcRuntime) :
    Prop where
  procs : ∀ p proc, pkg.procs[p]? = some proc →
    final.lastResult p = some .completed ∨
    ∃ c, final.lastResult p = some (.blockedOnReceive c) ∧
      ProcInterpreter.AtReceive proc (final.continuations p) c ∧ final.queues c = []
  channels : ∀ c, c ∈ result.blockedChannels ↔
    ∃ p < pkg.procs.length, final.lastResult p = some (.blockedOnReceive c)

/-- No wakeup is lost in a run in which no proc sends to several blocked procs. -/
theorem tickInternal_settled {pkg : Package} {fuel : ℕ} {continuations : ℕ → ProcContinuation}
    {queues : ChannelQueues} {result : NetworkTickResult} {final : SerialProcRuntime}
    (h : tickInternal pkg fuel continuations queues = some (result, final))
    (hone : ∀ rounds, Lts.Run (Step pkg) (start pkg continuations queues) rounds final →
      ∀ round ∈ rounds, ¬ SendsToSeveral pkg round.1) :
    Settled pkg result final := by
  obtain ⟨final, hloop, hresult⟩ := Option.map_eq_some_iff.mp h
  cases hresult
  obtain ⟨hready, rounds, hrun⟩ := loop_run hloop
  have hinv : Inv pkg final :=
    ((hrun.restrict (hone rounds hrun)).invariant (Inv.start pkg continuations queues)
      fun hinv hstep => hinv.step hstep.1 hstep.2).1
  refine ⟨?_, fun c => mem_blockedChannels hinv hready⟩
  intro p proc hproc
  have hp : p < pkg.procs.length := (List.getElem?_eq_some_iff.mp hproc).1
  rcases hinv.settled p hp (by simp [hready]) with hdone | ⟨c, hlast⟩
  · exact .inl hdone
  · have hw : Waits pkg final c p := ⟨hp, by simp [hready], hlast⟩
    exact .inr ⟨c, hlast, hinv.atReceive c p proc hw hproc, hinv.empty c p hw⟩

/-- A proc which receives once from channel 0 in an activation. -/
def receiver : Proc := ⟨[.receive 0 none true], []⟩

/-- A proc which sends 5 and 7 on channel 0 in an activation. -/
def sender : Proc :=
  ⟨[.send 0 none fun _ => .bits ⟨8, 5, by decide⟩, .send 0 none fun _ => .bits ⟨8, 7, by decide⟩],
    []⟩

/-- A proc at the start of an activation, without state. -/
def atStart : ProcContinuation := ⟨[], 0, []⟩

/-- One receiver and the sender. -/
def oneReceiver : Package := ⟨[⟨.streaming, .bits 8⟩], [receiver, sender]⟩

/-- Two receivers and the sender. -/
def twoReceivers : Package := ⟨[⟨.streaming, .bits 8⟩], [receiver, receiver, sender]⟩

/-- Of two procs, one of which sends, only one can be blocked. -/
theorem not_sendsToSeveral_of_two {pkg : Package} (htwo : pkg.procs.length = 2)
    (st : SerialProcRuntime) : ¬ SendsToSeveral pkg st := by
  rintro ⟨id, ready, proc, result, cont, queues, channel, hready, hproc, -, -, p, q, hpq, hp, hq⟩
  have hid := (List.getElem?_eq_some_iff.mp hproc).1
  have hpid := hp.ne hready
  have hqid := hq.ne hready
  have hplt := hp.1
  have hqlt := hq.1
  omega

/-- The receiver blocks, is woken by the first send and completes. -/
theorem tickInternal_oneReceiver :
    (tickInternal oneReceiver 6 (fun _ => atStart) (fun _ => [])).isSome = true ∧
    ∀ result final,
      tickInternal oneReceiver 6 (fun _ => atStart) (fun _ => []) = some (result, final) →
      Settled oneReceiver result final :=
  ⟨by decide, fun _ _ h => tickInternal_settled h fun _ _ round _ =>
    not_sendsToSeveral_of_two rfl round.1⟩

/-- Both receivers block, the second is woken, and the first stays blocked beside a value,
on a channel which is not reported. -/
theorem not_settled_twoReceivers : ∃ result final,
    tickInternal twoReceivers 8 (fun _ => atStart) (fun _ => []) = some (result, final) ∧
    result.blockedChannels = [] ∧ final.lastResult 0 = some (.blockedOnReceive 0) ∧
    final.queues 0 = [.bits ⟨8, 7, by decide⟩] ∧ ¬ Settled twoReceivers result final := by
  have hrun : (tickInternal twoReceivers 8 (fun _ => atStart) (fun _ => [])).map
      (fun r => (r.1.blockedChannels, r.2.lastResult 0, r.2.queues 0)) =
      some ([], some (.blockedOnReceive 0), [.bits ⟨8, 7, by decide⟩]) := by decide
  obtain ⟨⟨result, final⟩, htick, hfinal⟩ := Option.map_eq_some_iff.mp hrun
  simp only [Prod.mk.injEq] at hfinal
  obtain ⟨hchannels, hlast, hqueue⟩ := hfinal
  refine ⟨result, final, htick, hchannels, hlast, hqueue, ?_⟩
  intro h
  have hblocked := (h.channels 0).mpr ⟨0, by decide, hlast⟩
  rw [hchannels] at hblocked
  cases hblocked

end SerialProcRuntime

end Xls
