/-
# Dead code elimination

`DeadCodeEliminationPass` (`xls/passes/dce_pass.cc`): nodes without users are removed from a
worklist, and an operand enters it when its last user goes.

A node is dead when no use of it, however far, leads to a node which must stay: one with an implicit
use, or with a side effect other than that of a gate.

* `mem_worklist` of `Invariant` : the worklist holds the nodes which could be removed at once;
* `Invariant.round` : one node is removed;
* `runOnFunctionBaseInternal_exact` : the pass ends with the nodes which are not dead;
* `runOnFunctionBaseInternal_values` : they have the values which they had.
-/
import Xls.Lib.TermReplacement
import Xls.Lib.StepLoop
import Mathlib.Data.List.Nodup

namespace Xls

/-- `Op`. -/
inductive Opcode where
  | add | and | andReduce | assert | cover | receive | send | nand | nor | afterAll | array
  | arrayIndex | arraySlice | arrayUpdate | arrayConcat | bitSlice | dynamicBitSlice
  | bitSliceUpdate | concat | countedFor | decode | dynamicCountedFor | encode | eq | identity
  | invoke | inputPort | literal | map | ne | neg | not | oneHot | oneHotSel | prioritySel | or
  | orReduce | outputPort | param | registerRead | registerWrite | instantiationOutput
  | instantiationInput | reverse | sDiv | sMod | sel | sGe | sGt | shll | shrl | shra | signExt
  | sLe | sLt | sMul | sMulp | sub | tuple | tupleIndex | uDiv | uMod | uGe | uGt | uLe | uLt
  | uMul | uMulp | xor | xorReduce | zeroExt | gate | trace | minDelay
  deriving DecidableEq, Repr

/-- `OpIsSideEffecting`. -/
def Opcode.isSideEffecting : Opcode → Bool
  | .assert | .cover | .receive | .send | .inputPort | .outputPort | .param | .registerRead
  | .registerWrite | .instantiationOutput | .instantiationInput | .gate | .trace => true
  | _ => false

namespace DeadCodeElimination

/-- The nodes of a function or proc, its parameters, and the nodes with an implicit use: the return
value, or the next token and the next state. -/
structure FunctionBase where
  nodes : TermGraph Opcode
  params : List ℕ
  implicitUses : List ℕ

namespace FunctionBase

/-- `users`. -/
def users (f : FunctionBase) (i : ℕ) : List ℕ := f.nodes.users i

/-- `HasImplicitUse`. -/
def hasImplicitUse (f : FunctionBase) (i : ℕ) : Bool := decide (i ∈ f.implicitUses)

/-- `RemoveNode`, which also takes a parameter from the list of parameters. -/
def removeNode (f : FunctionBase) (i : ℕ) : Option FunctionBase :=
  match f.nodes.vertex i with
  | none => none
  | some n =>
    if (f.users i).isEmpty && !f.hasImplicitUse i then
      some ⟨f.nodes.remove i,
        if n.label = .param then f.params.filter (fun p => p != i) else f.params, f.implicitUses⟩
    else none

/-- `is_deletable`. -/
def isDeletable (f : FunctionBase) (i : ℕ) : Bool :=
  match f.nodes.vertex i with
  | none => false
  | some n => !f.hasImplicitUse i && (!n.label.isSideEffecting || decide (n.label = .gate))

/-- The node must stay. -/
def IsRoot (f : FunctionBase) (i : ℕ) : Prop :=
  i ∈ f.implicitUses ∨
    ∃ n, f.nodes.vertex i = some n ∧ n.label.isSideEffecting = true ∧ n.label ≠ .gate

/-- No use of the node leads to one which must stay. -/
def Dead (f : FunctionBase) (i : ℕ) : Prop :=
  (f.nodes.vertex i).isSome = true ∧ ¬ ∃ k, Relation.ReflTransGen f.nodes.UsedBy i k ∧ f.IsRoot k

end FunctionBase

/-- The function, the worklist and `removed_count`. -/
structure State where
  f : FunctionBase
  worklist : List ℕ
  removedCount : ℕ

/-- The loop over the operands of a node, with `unique_operands`. -/
def pushOperands (f : FunctionBase) : List ℕ → List ℕ → List ℕ → List ℕ
  | [], _, worklist => worklist
  | operand :: operands, uniqueOperands, worklist =>
    if operand ∈ uniqueOperands then pushOperands f operands uniqueOperands worklist
    else pushOperands f operands (operand :: uniqueOperands)
      (if (f.users operand).length = 1 && f.isDeletable operand then worklist ++ [operand]
        else worklist)

/-- The worklist before the loop. -/
def start (f : FunctionBase) : State :=
  ⟨f, (List.range f.nodes.length).filter fun i =>
    (f.nodes.vertex i).isSome && ((f.users i).isEmpty && f.isDeletable i), 0⟩

/-- One round of the loop.  In the end there is a function and whether it changed, or a failed
check. -/
def step (s : State) : State ⊕ Option (FunctionBase × Bool) :=
  match s.worklist with
  | [] => .inr (some (s.f, decide (0 < s.removedCount)))
  | node :: worklist =>
    match s.f.nodes.vertex node with
    | none => .inr none
    | some n =>
      match s.f.removeNode node with
      | none => .inr none
      | some f => .inl ⟨f, pushOperands s.f n.operands [] worklist, s.removedCount + 1⟩

/-- `RunOnFunctionBaseInternal`, as far as some number of rounds goes. -/
def runOnFunctionBaseInternal (rounds : ℕ) (f : FunctionBase) :
    Option (Option (FunctionBase × Bool)) :=
  StepLoop.run step rounds (start f)

namespace FunctionBase

variable {f f' : FunctionBase} {i k : ℕ}

theorem nodup_users : (f.users i).Nodup := List.nodup_range.filter _

theorem users_eq_nil_iff : f.users i = [] ↔ ∀ k, ¬ f.nodes.UsedBy i k := by
  rw [List.eq_nil_iff_forall_not_mem]
  exact forall_congr' fun k => not_congr TermGraph.mem_users

theorem isDeletable_iff :
    f.isDeletable i = true ↔ (f.nodes.vertex i).isSome = true ∧ ¬ f.IsRoot i := by
  rw [isDeletable, IsRoot]
  rcases hn : f.nodes.vertex i with - | n
  · simp
  · by_cases himplicit : i ∈ f.implicitUses
    · simp [hasImplicitUse, himplicit]
    · by_cases heffect : n.label.isSideEffecting = true
      · simp [hasImplicitUse, heffect]
      · simp [hasImplicitUse, heffect]

/-- A dead node may be removed once its users are gone. -/
theorem Dead.isDeletable (h : f.Dead i) : f.isDeletable i = true :=
  isDeletable_iff.mpr ⟨h.1, fun hroot => h.2 ⟨i, .refl, hroot⟩⟩

theorem Dead.of_usedBy (h : f.Dead i) (hk : f.nodes.UsedBy i k) : f.Dead k := by
  refine ⟨?_, ?_⟩
  · obtain ⟨n, hn, -⟩ := hk
    rw [hn]
    rfl
  · rintro ⟨m, hkm, hroot⟩
    exact h.2 ⟨m, hkm.head hk, hroot⟩

/-- A node is dead when it may be removed and its users are dead. -/
theorem dead_of_users (h : f.isDeletable i = true) (husers : ∀ k, f.nodes.UsedBy i k → f.Dead k) :
    f.Dead i := by
  obtain ⟨hsome, hroot⟩ := isDeletable_iff.mp h
  refine ⟨hsome, ?_⟩
  rintro ⟨m, him, hm⟩
  rcases him.cases_head with rfl | ⟨k, hik, hkm⟩
  · exact hroot hm
  · exact (husers k hik).2 ⟨m, hkm, hm⟩

/-- What is removed: a node without users. -/
theorem removeNode_eq {n : Vertex Opcode} (hn : f.nodes.vertex i = some n) (husers : f.users i = [])
    (hdeletable : f.isDeletable i = true) :
    f.removeNode i = some ⟨f.nodes.remove i, f.params, f.implicitUses⟩ := by
  obtain ⟨-, hroot⟩ := isDeletable_iff.mp hdeletable
  have himplicit : f.hasImplicitUse i = false := decide_eq_false fun h => hroot (Or.inl h)
  have hparam : n.label ≠ .param := by
    intro hparam
    refine hroot (Or.inr ⟨n, hn, ?_, ?_⟩)
    · rw [hparam]
      rfl
    · rw [hparam]
      decide
  rw [removeNode, hn]
  simp only [husers, himplicit, hparam, List.isEmpty_nil, Bool.not_false, Bool.and_self, if_true,
    if_false]

end FunctionBase

/-! ## The worklist -/

/-- The loop over the operands appends those whose only user is the node. -/
theorem exists_pushed (f : FunctionBase) (operands uniqueOperands worklist : List ℕ) :
    ∃ pushed, pushOperands f operands uniqueOperands worklist = worklist ++ pushed ∧
      pushed.Nodup ∧ ∀ i, i ∈ pushed ↔ i ∈ operands ∧ i ∉ uniqueOperands ∧
        (f.users i).length = 1 ∧ f.isDeletable i = true := by
  induction operands generalizing uniqueOperands worklist with
  | nil =>
    refine ⟨[], (List.append_nil worklist).symm, List.nodup_nil, fun i => ?_⟩
    simp
  | cons operand operands ih =>
    rw [pushOperands]
    by_cases hunique : operand ∈ uniqueOperands
    · rw [if_pos hunique]
      obtain ⟨pushed, heq, hnodup, hmem⟩ := ih uniqueOperands worklist
      refine ⟨pushed, heq, hnodup, fun i => ?_⟩
      rw [hmem, List.mem_cons]
      constructor
      · rintro ⟨hi, hrest⟩
        exact ⟨Or.inr hi, hrest⟩
      · rintro ⟨rfl | hi, hnew, hrest⟩
        · exact absurd hunique hnew
        · exact ⟨hi, hnew, hrest⟩
    · rw [if_neg hunique]
      by_cases hpush : (f.users operand).length = 1 ∧ f.isDeletable operand = true
      · -- the operand is pushed
        have hcond : (decide ((f.users operand).length = 1) && f.isDeletable operand) = true := by
          rw [Bool.and_eq_true, decide_eq_true_iff]
          exact hpush
        rw [if_pos hcond]
        obtain ⟨pushed, heq, hnodup, hmem⟩ :=
          ih (operand :: uniqueOperands) (worklist ++ [operand])
        refine ⟨operand :: pushed, ?_, ?_, fun i => ?_⟩
        · rw [heq, List.append_assoc, List.singleton_append]
        · refine List.nodup_cons.mpr ⟨fun h => ?_, hnodup⟩
          exact ((hmem operand).mp h).2.1 List.mem_cons_self
        · rw [List.mem_cons, hmem]
          by_cases hi : i = operand
          · rw [hi]
            simp [hunique, hpush]
          · simp [hi]
      · have hcond : ¬ (decide ((f.users operand).length = 1) && f.isDeletable operand) = true := by
          rw [Bool.and_eq_true, decide_eq_true_iff]
          exact hpush
        rw [if_neg hcond]
        obtain ⟨pushed, heq, hnodup, hmem⟩ := ih (operand :: uniqueOperands) worklist
        refine ⟨pushed, heq, hnodup, fun i => ?_⟩
        rw [hmem]
        by_cases hi : i = operand
        · rw [hi]
          simp [hpush]
        · simp [hi]

/-- The worklist holds, once each, the nodes without users which may be removed, and the nodes which
are gone were dead in the function `f₀` of the beginning. -/
structure Invariant (f₀ : FunctionBase) (s : State) : Prop where
  nodup : s.worklist.Nodup
  mem_worklist : ∀ i, i ∈ s.worklist ↔ s.f.users i = [] ∧ s.f.isDeletable i = true
  params_eq : s.f.params = f₀.params
  implicitUses_eq : s.f.implicitUses = f₀.implicitUses
  vertex_eq : ∀ i, s.f.nodes.vertex i = f₀.nodes.vertex i ∨
    s.f.nodes.vertex i = none ∧ f₀.Dead i
  count_pos : 0 < s.removedCount ↔ ∃ i, f₀.Dead i ∧ s.f.nodes.vertex i = none

variable {f₀ f f' : FunctionBase} {s s' : State} {i k m : ℕ}

theorem invariant_start (f : FunctionBase) : Invariant f (start f) where
  nodup := List.nodup_range.filter _
  mem_worklist i := by
    rw [start, List.mem_filter, List.mem_range, Bool.and_eq_true, Bool.and_eq_true,
      List.isEmpty_iff]
    constructor
    · rintro ⟨-, -, hrest⟩
      exact hrest
    · rintro ⟨husers, hdeletable⟩
      have hsome := (FunctionBase.isDeletable_iff.mp hdeletable).1
      obtain ⟨n, hn⟩ := Option.isSome_iff_exists.mp hsome
      exact ⟨TermGraph.lt_length_of_vertex hn, hsome, husers, hdeletable⟩
  params_eq := rfl
  implicitUses_eq := rfl
  vertex_eq i := Or.inl rfl
  count_pos := by
    refine iff_of_false (Nat.lt_irrefl 0) ?_
    rintro ⟨i, hdead, hnone⟩
    have hsome := hdead.1
    rw [show f.nodes.vertex i = none from hnone] at hsome
    cases hsome

namespace Invariant

/-- The node at the front is there, and it is dead. -/
theorem front (h : Invariant f₀ s) (hi : i ∈ s.worklist) :
    ∃ n, s.f.nodes.vertex i = some n ∧ s.f.users i = [] ∧ f₀.Dead i := by
  obtain ⟨husers, hdeletable⟩ := (h.mem_worklist i).mp hi
  obtain ⟨hsome, hroot⟩ := FunctionBase.isDeletable_iff.mp hdeletable
  obtain ⟨n, hn⟩ := Option.isSome_iff_exists.mp hsome
  have hsame : f₀.nodes.vertex i = some n := by
    rcases h.vertex_eq i with heq | ⟨hnone, -⟩
    · rw [← heq, hn]
    · rw [hn] at hnone
      cases hnone
  refine ⟨n, hn, husers, FunctionBase.dead_of_users ?_ fun k hk => ?_⟩
  · refine FunctionBase.isDeletable_iff.mpr ⟨by rw [hsame]; rfl, ?_⟩
    rintro (himplicit | ⟨m, hm, heffect⟩)
    · refine hroot (Or.inl ?_)
      rw [h.implicitUses_eq]
      exact himplicit
    · rw [hsame] at hm
      cases hm
      exact hroot (Or.inr ⟨n, hn, heffect⟩)
  · -- a user in the beginning is gone by now
    obtain ⟨m, hm, hmem⟩ := hk
    rcases h.vertex_eq k with heq | ⟨-, hdead⟩
    · exact absurd ⟨m, heq.trans hm, hmem⟩ (FunctionBase.users_eq_nil_iff.mp husers k)
    · exact hdead

end Invariant

/-- Without a node there are only the other users. -/
theorem usedBy_remove : (f.nodes.remove i).UsedBy k m ↔ m ≠ i ∧ f.nodes.UsedBy k m := by
  by_cases hm : m = i
  · refine iff_of_false ?_ fun h => h.1 hm
    rintro ⟨n, hn, -⟩
    rw [hm, TermGraph.vertex_remove_self] at hn
    cases hn
  · unfold TermGraph.UsedBy
    rw [TermGraph.vertex_remove_of_ne hm]
    simp [hm]

/-- The only user of a node. -/
theorem length_users_eq_one_iff (hk : f.nodes.UsedBy k i) :
    (f.users k).length = 1 ↔ ∀ m, f.nodes.UsedBy k m → m = i := by
  rw [FunctionBase.users]
  constructor
  · intro hone m hm
    obtain ⟨u, hu⟩ := List.length_eq_one_iff.mp hone
    have hmu := TermGraph.mem_users.mpr hm
    have hiu := TermGraph.mem_users.mpr hk
    rw [hu, List.mem_singleton] at hmu hiu
    rw [hmu, hiu]
  · intro honly
    have hsub : f.nodes.users k ⊆ [i] := by
      intro m hm
      rw [List.mem_singleton]
      exact honly m (TermGraph.mem_users.mp hm)
    have hnodup : (f.nodes.users k).Nodup := FunctionBase.nodup_users
    have hle := (hnodup.subperm hsub).length_le
    have hpos := List.length_pos_of_mem (TermGraph.mem_users.mpr hk)
    rw [List.length_singleton] at hle
    omega

/-- A round removes the node at the front, and pushes the operands it was the last user of. -/
theorem Invariant.round {node : ℕ} {worklist : List ℕ} (h : Invariant f₀ s)
    (hw : s.worklist = node :: worklist) :
    ∃ s', step s = .inl s' ∧ Invariant f₀ s' ∧ s'.f.nodes = s.f.nodes.remove node := by
  have hnode : node ∈ s.worklist := by
    rw [hw]
    exact List.mem_cons_self
  obtain ⟨n, hn, husers, hdead⟩ := h.front hnode
  obtain ⟨-, hdeletable⟩ := (h.mem_worklist node).mp hnode
  obtain ⟨pushed, hpushed, hnodup, hmem⟩ := exists_pushed s.f n.operands [] worklist
  have hnodupw := h.nodup
  rw [hw, List.nodup_cons] at hnodupw
  let f' : FunctionBase := ⟨s.f.nodes.remove node, s.f.params, s.f.implicitUses⟩
  have hdeletable' : ∀ i, f'.isDeletable i = true ↔ i ≠ node ∧ s.f.isDeletable i = true := by
    intro i
    by_cases hi : i = node
    · refine iff_of_false (fun hd => ?_) fun hd => hd.1 hi
      have hsome := (FunctionBase.isDeletable_iff.mp hd).1
      rw [hi, show f'.nodes.vertex node = none from TermGraph.vertex_remove_self] at hsome
      cases hsome
    · have hvertex : f'.nodes.vertex i = s.f.nodes.vertex i := TermGraph.vertex_remove_of_ne hi
      have hsame : f'.isDeletable i = s.f.isDeletable i := by
        rw [FunctionBase.isDeletable, hvertex]
        rfl
      rw [hsame]
      simp [hi]
  have husers' : ∀ i, f'.users i = [] ↔ ∀ k, s.f.nodes.UsedBy i k → k = node := by
    intro i
    rw [FunctionBase.users_eq_nil_iff]
    refine forall_congr' fun k => ?_
    rw [usedBy_remove]
    constructor
    · intro hnot hk
      by_contra hne
      exact hnot ⟨hne, hk⟩
    · rintro himp ⟨hne, hk⟩
      exact hne (himp hk)
  refine ⟨⟨f', worklist ++ pushed, s.removedCount + 1⟩, ?_, ⟨?_, ?_, h.params_eq,
    h.implicitUses_eq, ?_, ?_⟩, rfl⟩
  · rw [step, hw]
    simp only
    rw [hn]
    simp only
    rw [FunctionBase.removeNode_eq hn husers hdeletable, hpushed]
  · -- the operands which are pushed have a user, those which wait have none
    refine List.Nodup.append hnodupw.2 hnodup fun i hi hi' => ?_
    have hnone := (h.mem_worklist i).mp (by rw [hw]; exact List.mem_cons_of_mem _ hi)
    have hone := ((hmem i).mp hi').2.2.1
    rw [hnone.1] at hone
    cases hone
  · intro i
    rw [List.mem_append, hmem, husers', hdeletable']
    constructor
    · rintro (hi | ⟨hoperand, -, hone, hd⟩)
      · have hold := (h.mem_worklist i).mp (by rw [hw]; exact List.mem_cons_of_mem _ hi)
        refine ⟨fun k hk => absurd hk (FunctionBase.users_eq_nil_iff.mp hold.1 k), ?_, hold.2⟩
        rintro rfl
        exact hnodupw.1 hi
      · have hused : s.f.nodes.UsedBy i node := ⟨n, hn, hoperand⟩
        refine ⟨(length_users_eq_one_iff hused).mp hone, ?_, hd⟩
        rintro rfl
        exact FunctionBase.users_eq_nil_iff.mp husers _ hused
    · rintro ⟨honly, hne, hd⟩
      by_cases hused : s.f.nodes.UsedBy i node
      · obtain ⟨m, hm, hoperand⟩ := id hused
        rw [hn] at hm
        cases hm
        exact Or.inr ⟨hoperand, List.not_mem_nil, (length_users_eq_one_iff hused).mpr honly, hd⟩
      · left
        have hold : i ∈ s.worklist := (h.mem_worklist i).mpr
          ⟨FunctionBase.users_eq_nil_iff.mpr fun k hk => hused (honly k hk ▸ hk), hd⟩
        rw [hw] at hold
        exact (List.mem_cons.mp hold).resolve_left hne
  · intro i
    by_cases hi : i = node
    · rw [hi]
      exact Or.inr ⟨TermGraph.vertex_remove_self, hdead⟩
    · rw [show f'.nodes.vertex i = s.f.nodes.vertex i from TermGraph.vertex_remove_of_ne hi]
      exact h.vertex_eq i
  · exact iff_of_true (Nat.succ_pos _) ⟨node, hdead, TermGraph.vertex_remove_self⟩

/-! ## The pass -/

/-- The number of nodes which are there. -/
def nodeCount (f : FunctionBase) : ℕ := f.nodes.countP Option.isSome

theorem nodeCount_remove {n : Vertex Opcode} (hn : f.nodes.vertex i = some n)
    (hf : f'.nodes = f.nodes.remove i) : nodeCount f' < nodeCount f := by
  rw [TermGraph.vertex, Option.join_eq_some_iff] at hn
  obtain ⟨hi, hget⟩ := List.getElem?_eq_some_iff.mp hn
  have hmem : some n ∈ f.nodes := List.mem_of_getElem? hn
  have hpos : 0 < f.nodes.countP Option.isSome := List.countP_pos_iff.mpr ⟨some n, hmem, rfl⟩
  rw [nodeCount, nodeCount, hf, TermGraph.remove, List.countP_set hi, hget]
  simp only [Option.isSome_some, Option.isSome_none, if_true, Bool.false_eq_true, if_false]
  omega

/-- Each round removes a node, so that the loop ends. -/
theorem Invariant.ends (h : Invariant f₀ s) : StepLoop.Ends step s := by
  refine StepLoop.ends_of_lt (P := fun s count => Invariant f₀ s ∧ count = nodeCount s.f) ?_
    (a := nodeCount s.f) ⟨h, rfl⟩
  rintro s _ s' ⟨h, rfl⟩ hstep
  rcases hw : s.worklist with - | ⟨node, worklist⟩
  · rw [step, hw] at hstep
    cases hstep
  · obtain ⟨s'', hstep', h', hnodes⟩ := h.round hw
    rw [hstep] at hstep'
    cases hstep'
    obtain ⟨n, hn, -⟩ := h.front (by rw [hw]; exact List.mem_cons_self)
    exact ⟨nodeCount s'.f, nodeCount_remove hn hnodes, h', rfl⟩

/-- What is returned. -/
theorem Invariant.run (h : Invariant f₀ s) {rounds : ℕ}
    {result : Option (FunctionBase × Bool)} (hrun : StepLoop.run step rounds s = some result) :
    ∃ t, Invariant f₀ t ∧ t.worklist = [] ∧ result = some (t.f, decide (0 < t.removedCount)) := by
  induction rounds generalizing s with
  | zero => cases hrun
  | succ rounds ih =>
    rcases hw : s.worklist with - | ⟨node, worklist⟩
    · rw [StepLoop.run, step, hw] at hrun
      cases hrun
      exact ⟨s, h, hw, rfl⟩
    · obtain ⟨s', hstep, h', -⟩ := h.round hw
      rw [StepLoop.run_inl hstep] at hrun
      exact ih h' hrun

theorem Invariant.reaches (h : Invariant f₀ s) (hreach : StepLoop.Reaches step s s') :
    Invariant f₀ s' := by
  refine hreach.invariant h fun t t' ht hstep => ?_
  rcases hw : t.worklist with - | ⟨node, worklist⟩
  · rw [step, hw] at hstep
    cases hstep
  · obtain ⟨t'', hstep', h', -⟩ := ht.round hw
    rw [hstep] at hstep'
    cases hstep'
    exact h'

/-- When nothing waits, the dead nodes are gone: the last of those left would have no users. -/
theorem Invariant.vertex_eq_none (h : Invariant f₀ s) (hacyclic : f₀.nodes.IsAcyclic)
    (hw : s.worklist = []) (hi : f₀.Dead i) : s.f.nodes.vertex i = none := by
  by_contra hne
  obtain ⟨k, ⟨hdead, hleft⟩, hlast⟩ := hacyclic.exists_last
    (P := fun k => f₀.Dead k ∧ s.f.nodes.vertex k ≠ none) (fun k hk => hk.1.1) ⟨hi, hne⟩
  have hsame : ∀ k, s.f.nodes.vertex k ≠ none → s.f.nodes.vertex k = f₀.nodes.vertex k :=
    fun k hk => (h.vertex_eq k).resolve_right fun hnone => hk hnone.1
  have hmem : k ∈ s.worklist := by
    refine (h.mem_worklist k).mpr ⟨FunctionBase.users_eq_nil_iff.mpr fun m hm => ?_, ?_⟩
    · obtain ⟨n, hn, hoperand⟩ := hm
      have hused : f₀.nodes.UsedBy k m :=
        ⟨n, (hsame m (by rw [hn]; exact Option.some_ne_none n)).symm.trans hn, hoperand⟩
      exact hlast m hused ⟨hdead.of_usedBy hused, by rw [hn]; exact Option.some_ne_none n⟩
    · have hdeletable := hdead.isDeletable
      rw [FunctionBase.isDeletable, FunctionBase.hasImplicitUse, hsame k hleft, h.implicitUses_eq]
      exact hdeletable
  rw [hw] at hmem
  cases hmem

/-- The pass ends.  A node which it removes is there and has no users; in the end the dead nodes are
gone, and another run finds nothing to do. -/
theorem runOnFunctionBaseInternal_exact (f : FunctionBase) (hacyclic : f.nodes.IsAcyclic) :
    StepLoop.Ends step (start f) ∧
    (∀ s node worklist, StepLoop.Reaches step (start f) s → s.worklist = node :: worklist →
      (s.f.nodes.vertex node).isSome = true ∧ s.f.users node = [] ∧ node ∉ worklist) ∧
    ∀ rounds result, runOnFunctionBaseInternal rounds f = some result →
      ∃ f' changed, result = some (f', changed) ∧ (∀ i, f.Dead i → f'.nodes.vertex i = none) ∧
        (∀ i, ¬ f.Dead i → f'.nodes.vertex i = f.nodes.vertex i) ∧
        f'.params = f.params ∧ f'.implicitUses = f.implicitUses ∧
        (changed = true ↔ ∃ i, f.Dead i) ∧
        runOnFunctionBaseInternal 1 f' = some (some (f', false)) := by
  have hstart := invariant_start f
  refine ⟨hstart.ends, fun s node worklist hreach hw => ?_, fun rounds result hrun => ?_⟩
  · have h := hstart.reaches hreach
    obtain ⟨n, hn, husers, -⟩ := h.front (i := node) (by rw [hw]; exact List.mem_cons_self)
    have hnodup := h.nodup
    rw [hw, List.nodup_cons] at hnodup
    exact ⟨by rw [hn]; rfl, husers, hnodup.1⟩
  · obtain ⟨s, h, hw, rfl⟩ := hstart.run hrun
    refine ⟨s.f, _, rfl, fun i hi => h.vertex_eq_none hacyclic hw hi, fun i hi => ?_, h.params_eq,
      h.implicitUses_eq, ?_, ?_⟩
    · exact (h.vertex_eq i).resolve_right fun hnone => hi hnone.2
    · rw [decide_eq_true_iff, h.count_pos]
      constructor
      · rintro ⟨i, hdead, -⟩
        exact ⟨i, hdead⟩
      · rintro ⟨i, hdead⟩
        exact ⟨i, hdead, h.vertex_eq_none hacyclic hw hdead⟩
    · -- the nodes which the next run would begin with are those which wait now
      have hempty : (start s.f).worklist = [] := by
        refine List.eq_nil_iff_forall_not_mem.mpr fun i hi => ?_
        have hmem := (h.mem_worklist i).mpr (((invariant_start s.f).mem_worklist i).mp hi)
        rw [hw] at hmem
        cases hmem
      rw [runOnFunctionBaseInternal, StepLoop.run, step, hempty]
      rfl

/-- A parameter, a chain of two nodes one of which has the same operand twice, a gate, and a sum
which is returned. -/
def chain : FunctionBase :=
  ⟨[some ⟨.param, []⟩, some ⟨.neg, [0]⟩, some ⟨.add, [1, 1]⟩, some ⟨.gate, [0, 2]⟩,
    some ⟨.add, [0, 0]⟩], [0], [4]⟩

theorem isAcyclic_chain : chain.nodes.IsAcyclic := by
  refine ⟨id, ?_⟩
  intro k n hn i hi
  have hlt := TermGraph.lt_length_of_vertex hn
  have hcheck : ∀ k < 5, ∀ n ∈ chain.nodes.vertex k, ∀ i ∈ n.operands, i < k := by decide
  exact hcheck k hlt n hn i hi

theorem runOnFunctionBaseInternal_exact_chain : runOnFunctionBaseInternal 5 chain =
      some (some (⟨[some ⟨.param, []⟩, none, none, none, some ⟨.add, [0, 0]⟩], [0], [4]⟩, true)) ∧
    StepLoop.Ends step (start chain) :=
  ⟨rfl, (runOnFunctionBaseInternal_exact chain isAcyclic_chain).1⟩

/-- What a node which is not dead uses is not dead. -/
theorem not_dead_of_usedBy {f : FunctionBase} {o k : ℕ} (huse : f.nodes.UsedBy o k)
    (hk : ¬ f.Dead k) : ¬ f.Dead o := by
  intro hdead
  obtain ⟨n, hn, ho⟩ := huse
  apply hk
  refine ⟨by rw [hn]; rfl, ?_⟩
  rintro ⟨r, hpath, hroot⟩
  exact hdead.2 ⟨r, hpath.head ⟨n, hn, ho⟩, hroot⟩

/-- **Values are preserved.**  Whatever the operations mean, the nodes which must stay are left, and
each node which is left has the value which it had. -/
theorem runOnFunctionBaseInternal_values {V : Type} {sem : ℕ → Opcode → List V → Option V}
    (f : FunctionBase) (hacyclic : f.nodes.IsAcyclic)
    (hoperands : ∀ o k, f.nodes.UsedBy o k → (f.nodes.vertex o).isSome = true) {rounds : ℕ}
    {f' : FunctionBase} {changed : Bool}
    (hrun : runOnFunctionBaseInternal rounds f = some (some (f', changed))) {val val' : ℕ → V}
    (hval : TermGraph.IsValuation sem f.nodes val)
    (hval' : TermGraph.IsValuation sem f'.nodes val') :
    (∀ i, (f.nodes.vertex i).isSome = true → f.IsRoot i → (f'.nodes.vertex i).isSome = true) ∧
      ∀ i, (f'.nodes.vertex i).isSome = true → val' i = val i := by
  obtain ⟨s, h, hw, heq⟩ := (invariant_start f).run hrun
  obtain ⟨rfl, -⟩ := Prod.mk.inj (Option.some.inj heq)
  have hleft : ∀ i, ¬ f.Dead i → s.f.nodes.vertex i = f.nodes.vertex i := fun i hi =>
    (h.vertex_eq i).resolve_right fun hnone => hi hnone.2
  have hnot : ∀ i, s.f.nodes.vertex i ≠ none → ¬ f.Dead i := fun i hi hdead =>
    hi (h.vertex_eq_none hacyclic hw hdead)
  constructor
  · intro i hi hroot
    rw [hleft i fun hdead => hdead.2 ⟨i, .refl, hroot⟩]
    exact hi
  · -- the values before are those of the nodes which are left, and there are no others
    have hrest : TermGraph.IsValuation sem s.f.nodes val := by
      intro k n hn
      rw [hleft k (hnot k (by rw [hn]; exact Option.some_ne_none n))] at hn
      exact hval k n hn
    obtain ⟨rank, hrank⟩ := hacyclic
    intro i hi
    obtain ⟨n, hn⟩ := Option.isSome_iff_exists.mp hi
    have hranks : ∀ k m, s.f.nodes.vertex k = some m → ∀ o ∈ m.operands,
        rank o < rank k ∧ s.f.nodes.vertex o ≠ none := by
      intro k m hm o ho
      have hk := hnot k (by rw [hm]; exact Option.some_ne_none m)
      rw [hleft k hk] at hm
      have huse : f.nodes.UsedBy o k := ⟨m, hm, ho⟩
      refine ⟨hrank.lt huse, ?_⟩
      rw [hleft o (not_dead_of_usedBy huse hk)]
      exact Option.isSome_iff_ne_none.mp (hoperands o k huse)
    exact hval'.unique hrest hranks i n hn

/-- Values of the operations of `chain`. -/
def chainSem : ℕ → Opcode → List ℤ → Option ℤ
  | _, .param, [] => some 3
  | _, .neg, [x] => some (-x)
  | _, .add, [x, y] => some (x + y)
  | _, .gate, [_, y] => some y
  | _, _, _ => none

theorem runOnFunctionBaseInternal_values_chain :
    (∀ i, (chain.nodes.vertex i).isSome = true → chain.IsRoot i →
      (TermGraph.vertex [some ⟨.param, []⟩, none, none, none, some ⟨.add, [0, 0]⟩] i :
        Option (Vertex Opcode)).isSome = true) ∧
    ∀ i, (TermGraph.vertex [some ⟨.param, []⟩, none, none, none, some ⟨.add, [0, 0]⟩] i :
      Option (Vertex Opcode)).isSome = true →
        ([3, 0, 0, 0, 6] : List ℤ).getD i 0 = [3, -3, -6, -6, 6].getD i 0 := by
  refine @runOnFunctionBaseInternal_values ℤ chainSem chain isAcyclic_chain ?_ 5
    ⟨[some ⟨.param, []⟩, none, none, none, some ⟨.add, [0, 0]⟩], [0], [4]⟩ true rfl
    (fun i => [3, -3, -6, -6, 6].getD i 0) (fun i => [3, 0, 0, 0, 6].getD i 0) ?_ ?_
  · rintro o k ⟨n, hn, ho⟩
    have hcheck : ∀ k < 5, ∀ n ∈ chain.nodes.vertex k, ∀ o ∈ n.operands,
        (chain.nodes.vertex o).isSome = true := by decide
    exact hcheck k (TermGraph.lt_length_of_vertex hn) n hn o ho
  · intro k n hn
    have hcheck : ∀ k < 5, ∀ n ∈ chain.nodes.vertex k, chainSem k n.label
        (n.operands.map fun i => ([3, -3, -6, -6, 6] : List ℤ).getD i 0) =
          some (([3, -3, -6, -6, 6] : List ℤ).getD k 0) := by decide
    exact hcheck k (TermGraph.lt_length_of_vertex hn) n hn
  · intro k n hn
    have hcheck : ∀ k < 5, ∀ n ∈ (TermGraph.vertex
        [some ⟨.param, []⟩, none, none, none, some ⟨.add, [0, 0]⟩] k : Option (Vertex Opcode)),
          chainSem k n.label (n.operands.map fun i => ([3, 0, 0, 0, 6] : List ℤ).getD i 0) =
            some (([3, 0, 0, 0, 6] : List ℤ).getD k 0) := by decide
    exact hcheck k (TermGraph.lt_length_of_vertex hn) n hn

end DeadCodeElimination

end Xls
