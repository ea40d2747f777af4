/-
# Unobservability behind a select arm

A node to which the predicate dominator analysis assigns an arm of a select does not
matter when the select chooses another arm: replacing the value of the node changes
no value which is not itself guarded by the arm.  Values which the function uses
without a user node, and the operands of side-effecting nodes, may themselves be
guarded, since the analysis only follows users; `Covered` says that none is.
-/
import Xls.Passes.PredicateDominatorAnalysis

namespace Xls

/-- `OpIsSideEffecting`. -/
def Op.isSideEffecting : Op → Bool
  | .param | .gate => true
  | .other _ sideEffecting => sideEffecting
  | _ => false

/-- The function with the value of a node replaced. -/
def FunctionBase.replaceNode (f : FunctionBase) (n : ℕ) (v : Value) : FunctionBase :=
  { f with nodes := f.nodes.modify n fun node => ⟨.literal v, [], node.type⟩ }

namespace Select

/-- The arm which a select of `count` arms chooses. -/
def chosenArm (hasDefault : Bool) (count : ℕ) (selector : Bits) : Arm :=
  if count - hasDefault.toNat ≤ selector.toNat then .default else .case selector.toNat

/-- The operand which a select of `count` arms chooses. -/
def chosenOperand (hasDefault : Bool) (count : ℕ) (selector : Bits) : Option ℕ :=
  let caseCount := count - hasDefault.toNat
  if caseCount = 0 ∨ Bits.uBits (caseCount - 1) selector.bitCount = none then none
  else if selector.toNat < caseCount then some selector.toNat
  else if hasDefault then some caseCount
  else none

theorem sel_eq (hasDefault : Bool) (selector : Bits) (arms : List Value) :
    Interpreter.sel hasDefault (.bits selector :: arms) =
      (chosenOperand hasDefault arms.length selector).bind (arms[·]?) := by
  have hcount : (Interpreter.selectArms hasDefault arms).1.length =
      arms.length - hasDefault.toNat := by
    rw [Interpreter.selectArms]
    cases hasDefault <;> simp
  rw [Interpreter.sel, chosenOperand]
  rcases hcases : (Interpreter.selectArms hasDefault arms).1 with _ | ⟨first, cases⟩
  · simp only [hcases, ← hcount, List.length_nil, true_or, if_true, Option.bind_none]
  · have hpos : arms.length - hasDefault.toNat ≠ 0 := by
      rw [← hcount, hcases, List.length_cons]
      omega
    simp only [hcases, hpos, false_or]
    rw [← hcases, hcount]
    rcases hlast : Bits.uBits (arms.length - hasDefault.toNat - 1) selector.bitCount with _ | last
    · simp
    · have hlast' := (Bits.uBits_eq_some hlast).2
      simp only [BitsOps.uLessThan, decide_eq_true_eq, reduceCtorEq, if_false]
      by_cases hlt : selector.toNat < arms.length - hasDefault.toNat
      · rw [if_neg (by omega), if_pos hlt]
        cases hasDefault
        · rfl
        · show arms.dropLast[selector.toNat]? = _
          rw [List.getElem?_dropLast]
          exact if_pos hlt
      · rw [if_pos (by omega), if_neg hlt]
        cases hasDefault
        · rfl
        · show arms.getLast? = _
          rw [List.getLast?_eq_getElem?]
          rfl

theorem armOf_chosenOperand {hasDefault : Bool} {count k : ℕ} {selector : Bits}
    (h : chosenOperand hasDefault count selector = some k) :
    armOf hasDefault count k = chosenArm hasDefault count selector := by
  unfold chosenOperand at h
  unfold armOf chosenArm
  by_cases hnone : count - hasDefault.toNat = 0 ∨
      Bits.uBits (count - hasDefault.toNat - 1) selector.bitCount = none
  · rw [if_pos hnone] at h
    cases h
  · rw [if_neg hnone] at h
    by_cases hlt : selector.toNat < count - hasDefault.toNat
    · rw [if_pos hlt] at h
      have hk := Option.some.inj h
      rw [if_neg (by omega : ¬ count - hasDefault.toNat ≤ selector.toNat), if_neg, hk]
      rintro ⟨rfl, hlast⟩
      simp only [Bool.toNat_true] at hlt
      omega
    · rw [if_neg hlt] at h
      cases hasDefault
      · cases h
      · have hk := Option.some.inj h
        simp only [Bool.toNat_true] at hk hlt hnone
        rw [if_pos ⟨rfl, by omega⟩, if_pos (by simp only [Bool.toNat_true]; omega)]

/-- A select depends on its selector and the chosen arm only. -/
theorem sel_congr {hasDefault : Bool} {selector : Bits} {arms arms' : List Value}
    (hlength : arms.length = arms'.length)
    (h : ∀ k, armOf hasDefault arms.length k = chosenArm hasDefault arms.length selector →
      arms[k]? = arms'[k]?) :
    Interpreter.sel hasDefault (.bits selector :: arms) =
      Interpreter.sel hasDefault (.bits selector :: arms') := by
  rw [sel_eq, sel_eq, ← hlength]
  rcases hk : chosenOperand hasDefault arms.length selector with _ | k
  · rfl
  · exact h k (armOf_chosenOperand hk)

end Select

namespace PredicateDominatorAnalysis

variable {f : FunctionBase}

/-- A value which the function itself or a side-effecting node uses. -/
def Observable (f : FunctionBase) (o : ℕ) : Prop :=
  o ∈ f.implicitUses ∨
    ∃ (u : ℕ) (node : Node), f.nodes[u]? = some node ∧ node.op.isSideEffecting = true ∧
      o ∈ node.operands

/-- The select of an arm chooses it. -/
def Chooses (f : FunctionBase) (values : List Value) (arm : ℕ × Arm) : Prop :=
  ∃ hasDefault selector rest b, IsSelect f arm.1 hasDefault selector rest ∧
    values[selector]? = some (.bits b) ∧ Select.chosenArm hasDefault rest.length b = arm.2

/-! ## Two runs -/

/-- The operands of a node are read off the values before it. -/
theorem resolve_getElem? {values : List Value} {ids : List ℕ} {operands : List Value}
    (h : Interpreter.resolve values ids = some operands) :
    operands.length = ids.length ∧ ∀ k : ℕ, operands[k]? = ids[k]?.bind (values[·]?) := by
  induction ids generalizing operands with
  | nil =>
    cases h
    exact ⟨rfl, fun k => by simp⟩
  | cons i ids ih =>
    obtain ⟨v, vs, hv, hvs, rfl⟩ := Interpreter.resolve_cons h
    obtain ⟨hlength, hget⟩ := ih hvs
    refine ⟨by rw [List.length_cons, List.length_cons, hlength], ?_⟩
    intro k
    rcases k with _ | k
    · simp [hv]
    · simpa using hget k

section TwoRuns

variable {env : Env} {values values' : List Value} {n : ℕ} {v : Value} {arm : ℕ × Arm}

theorem nodes_replaceNode {m : ℕ} (hm : m ≠ n) : (f.replaceNode n v).nodes[m]? = f.nodes[m]? := by
  rw [FunctionBase.replaceNode]
  simp [Ne.symm hm]

/-- A node whose operands agree, but for an arm which is not chosen, keeps its value. -/
theorem evalNode_eq {m : ℕ} {node : Node} {operands operands' : List Value} {u u' : Value}
    (hnode : f.nodes[m]? = some node) (hnot : ¬ Chooses f values arm)
    (hvalues : ∀ k : ℕ, node.operands[k]?.bind (values[·]?) = operands[k]?)
    (hlength : operands.length = node.operands.length)
    (hlength' : operands'.length = node.operands.length)
    (hsame : ∀ (k i : ℕ), node.operands[k]? = some i → ¬ Guards f arm i →
      operands'[k]? = operands[k]?)
    (hguarded : ∀ i ∈ node.operands, Guards f arm i → OnlyInArm f arm i m)
    (heval : Interpreter.evalNode env m node operands = some u)
    (heval' : Interpreter.evalNode env m node operands' = some u') : u' = u := by
  by_cases hall : ∀ i ∈ node.operands, ¬ Guards f arm i
  · have hoperands : operands' = operands := by
      apply List.ext_getElem?
      intro k
      rcases hk : node.operands[k]? with _ | i
      · rw [List.getElem?_eq_none_iff] at hk
        rw [List.getElem?_eq_none (by omega), List.getElem?_eq_none (by omega)]
      · exact hsame k i hk (hall i (List.mem_of_getElem? hk))
    rw [hoperands, heval] at heval'
    exact (Option.some.inj heval').symm
  · push Not at hall
    obtain ⟨i, hi, hguards⟩ := hall
    obtain ⟨hm, hasDefault, selector, rest, hsel, -, -⟩ := hguarded i hi hguards
    obtain ⟨type, hselNode⟩ := hsel
    rw [hnode] at hselNode
    cases hselNode
    rcases operands with _ | ⟨b, arms⟩
    · simp at hlength
    rcases operands' with _ | ⟨b', arms'⟩
    · simp at hlength'
    -- the selector is not guarded, since it is used outside the arm
    have hselector : ¬ Guards f arm selector := by
      intro hg
      obtain ⟨-, hasDefault', selector', rest', hsel', hne, -⟩ := hguarded selector (by simp) hg
      obtain ⟨type', hsel'⟩ := hsel'
      rw [hnode] at hsel'
      cases hsel'
      exact hne rfl
    have hb : b' = b := by simpa using hsame 0 selector rfl hselector
    subst hb
    have hevalSel : Interpreter.sel hasDefault (b' :: arms) = some u := heval
    have hevalSel' : Interpreter.sel hasDefault (b' :: arms') = some u' := heval'
    rcases b' with b | _ | _ | _
    · have hchosen : Select.chosenArm hasDefault rest.length b ≠ arm.2 := by
        intro hchosen
        refine hnot ⟨hasDefault, selector, rest, b, ⟨type, hm ▸ hnode⟩, ?_, hchosen⟩
        simpa using hvalues 0
      simp only [List.length_cons, Nat.add_right_cancel_iff] at hlength hlength'
      rw [Select.sel_congr (hlength.trans hlength'.symm), hevalSel'] at hevalSel
      · exact Option.some.inj hevalSel
      · intro k hk
        rcases hki : rest[k]? with _ | j
        · rw [List.getElem?_eq_none_iff] at hki
          rw [List.getElem?_eq_none (by omega), List.getElem?_eq_none (by omega)]
        · refine (hsame (k + 1) j (by simpa using hki) ?_).symm
          intro hg
          obtain ⟨-, hasDefault', selector', rest', ⟨type', hsel'⟩, -, honly⟩ :=
            hguarded j (by simp [List.mem_of_getElem? hki]) hg
          rw [hnode] at hsel'
          cases hsel'
          rw [hlength] at hk
          exact hchosen (hk.symm.trans (honly _ (Select.mem_arms.mpr ⟨k, hki, rfl⟩)))
    all_goals cases hevalSel

/-- Replacing a node which is guarded by an arm that is not chosen only changes values which
are guarded by the arm. -/
theorem values_eq_of_not_guards (hf : Verifier.verify f = true)
    (hrun : Interpreter.run env f = some values)
    (hrun' : Interpreter.run env (f.replaceNode n v) = some values') (hn : Guards f arm n)
    (hnot : ¬ Chooses f values arm) {m : ℕ} (hm : ¬ Guards f arm m) :
    values'[m]? = values[m]? := by
  obtain ⟨hlength, hnodes⟩ := Interpreter.run_spec hrun
  obtain ⟨hlength', hnodes'⟩ := Interpreter.run_spec hrun'
  have hcount : (f.replaceNode n v).nodes.length = f.nodes.length := List.length_modify _ _ _
  induction m using Nat.strong_induction_on with
  | _ m ih =>
    rcases hnode : f.nodes[m]? with _ | node
    · rw [List.getElem?_eq_none_iff] at hnode
      rw [List.getElem?_eq_none (by omega), List.getElem?_eq_none (by omega)]
    · have hmn : m ≠ n := by
        rintro rfl
        exact hm hn
      obtain ⟨u, hu, -, operands, hresolve, heval⟩ := hnodes m node hnode
      obtain ⟨u', hu', -, operands', hresolve', heval'⟩ :=
        hnodes' m node ((nodes_replaceNode hmn).trans hnode)
      have huses : ∀ i ∈ node.operands, Uses f m i := fun i hi => ⟨node, hnode, hi⟩
      have hlt : ∀ i ∈ node.operands, i < m := fun i hi => lt_of_uses hf (huses i hi)
      rw [hu, hu', evalNode_eq hnode hnot ?_ (resolve_getElem? hresolve).1
        (resolve_getElem? hresolve').1 ?_ ?_ heval heval']
      · intro k
        rw [(resolve_getElem? hresolve).2]
        rcases hk : node.operands[k]? with _ | i
        · rfl
        · simp [List.getElem?_take_of_lt (hlt i (List.mem_of_getElem? hk))]
      · intro k i hk hi
        have hmem := List.mem_of_getElem? hk
        rw [(resolve_getElem? hresolve).2, (resolve_getElem? hresolve').2, hk, Option.bind_some,
          Option.bind_some, List.getElem?_take, List.getElem?_take, ih i (hlt i hmem) hi]
      · intro i hi hguards
        exact ((guards_iff.mp hguards).2 m (huses i hi)).resolve_right hm

end TwoRuns

/-! ## The predicates of the analysis -/

/-- No value which the function or a side-effecting node uses is guarded by an arm. -/
def Covered (f : FunctionBase) : Prop := ∀ o, Observable f o → ∀ arm, Escapes f arm o

/-- A node with a predicate does not influence anything observable in an evaluation in
which the select of the predicate chooses another arm. -/
def Unobservable (f : FunctionBase) (us : Users f) : Prop :=
  ∀ result, analyze f us = some result → ∀ (n s : ℕ) (a : Arm), result[n]? = some (.select s a) →
    ∀ env values, Interpreter.run env f = some values → ¬ Chooses f values (s, a) →
      ∀ v values', Interpreter.run env (f.replaceNode n v) = some values' →
        ∀ o, Observable f o → values'[o]? = values[o]?

/-- Every observable node can be given another value while a given arm is not chosen. -/
def Replaceable (f : FunctionBase) : Prop :=
  ∀ o, Observable f o → ∀ arm, ∃ env values v values', Interpreter.run env f = some values ∧
    ¬ Chooses f values arm ∧ Interpreter.run env (f.replaceNode o v) = some values' ∧
    values'[o]? ≠ values[o]?

theorem Observable.lt {o : ℕ} (hf : Verifier.verify f = true) (h : Observable f o) :
    o < f.nodes.length := by
  rcases h with himplicit | ⟨u, node, hnode, -, hmem⟩
  · rw [Verifier.verify, Bool.and_eq_true, List.all_eq_true] at hf
    simpa using hf.2 o himplicit
  · have hu := (List.getElem?_eq_some_iff.mp hnode).1
    exact (lt_of_uses hf ⟨node, hnode, hmem⟩).trans hu

/-- The analysis gives every observable node the base predicate exactly when no observable
node is guarded by an arm, and then its predicates mean unobservability.  Where observable
nodes can be replaced, this is the only case. -/
theorem analyze_unobservable_iff (f : FunctionBase) (us : Users f) (hf : Verifier.verify f = true) :
    (∃ result, analyze f us = some result ∧
      (Covered f ↔ ∀ o, Observable f o → result[o]? = some .base)) ∧
    (Covered f → Unobservable f us) ∧
    (Replaceable f → (Unobservable f us ↔ Covered f)) := by
  obtain ⟨result, hresult, hlength, hdescribes⟩ := analyze_spec us fun u n => lt_of_uses hf
  have hsound : Covered f → Unobservable f us := by
    intro hcovered result' hresult' n s a hpred env values hrun hnot v values' hrun' o ho
    rw [hresult] at hresult'
    cases hresult'
    exact values_eq_of_not_guards hf hrun hrun' (hdescribes n _ hpred) hnot
      fun hguards => hguards (hcovered o ho (s, a))
  have hpredicate : ∀ o, Observable f o → ∃ p, result[o]? = some p ∧ Describes f o p := by
    intro o ho
    have hlt : o < result.length := by
      rw [hlength]
      exact ho.lt hf
    exact ⟨_, List.getElem?_eq_getElem hlt, hdescribes o _ (List.getElem?_eq_getElem hlt)⟩
  have hbase : Covered f ↔ ∀ o, Observable f o → result[o]? = some .base := by
    constructor
    · intro hcovered o ho
      obtain ⟨p, hp, hdesc⟩ := hpredicate o ho
      rcases p with _ | ⟨s, a⟩
      · exact hp
      · exact absurd (hcovered o ho (s, a)) hdesc
    · intro hall o ho arm
      by_contra hguards
      exact hdescribes o _ (hall o ho) arm hguards
  refine ⟨⟨result, hresult, hbase⟩, hsound, fun hreplaceable => ⟨fun hunobs => ?_, hsound⟩⟩
  rw [hbase]
  intro o ho
  obtain ⟨p, hp, -⟩ := hpredicate o ho
  rcases p with _ | ⟨s, a⟩
  · exact hp
  · obtain ⟨env, values, v, values', hrun, hnot, hrun', hne⟩ := hreplaceable o ho (s, a)
    exact absurd (hunobs result hresult o s a hp env values hrun hnot v values' hrun' o ho) hne

/-- A select between a parameter and its negation. -/
def negateSample (implicitUses : List ℕ) : FunctionBase where
  nodes := [⟨.param, [], .bits 1⟩, ⟨.param, [], .bits 8⟩, ⟨.neg, [1], .bits 8⟩,
    ⟨.sel false, [0, 2, 1], .bits 8⟩]
  implicitUses := implicitUses

/-- When the select is the only value used, the negation is behind its first arm. -/
theorem analyze_unobservable_negateSample : analyze (negateSample [3]) (.ofFunction _) =
      some [.base, .base, .select 3 (.case 0), .base] ∧
    Unobservable (negateSample [3]) (.ofFunction _) := by
  refine ⟨by decide, (analyze_unobservable_iff _ _ (by decide)).2.1 ?_⟩
  have hunused : ∀ u, ¬ Uses (negateSample [3]) u 3 := by
    rintro u ⟨node, hnode, hmem⟩
    have := List.mem_of_getElem? hnode
    simp only [negateSample, List.mem_cons, List.not_mem_nil, or_false] at this
    rcases this with rfl | rfl | rfl | rfl
    all_goals simp at hmem
  rintro o (himplicit | ⟨u, node, hnode, heffect, hmem⟩) arm
  · obtain rfl : o = 3 := by simpa [negateSample] using himplicit
    exact .unused hunused
  · have := List.mem_of_getElem? hnode
    simp only [negateSample, List.mem_cons, List.not_mem_nil, or_false] at this
    rcases this with rfl | rfl | rfl | rfl
    · simp at hmem
    · simp at hmem
    · cases heffect
    · cases heffect

/-- When the negation is the return value, it keeps the predicate and is observable in an
evaluation in which the select chooses the other arm. -/
theorem not_unobservable_negateSample : Verifier.verify (negateSample [2]) = true ∧
    ¬ Unobservable (negateSample [2]) (.ofFunction _) := by
  refine ⟨by decide, fun h => ?_⟩
  have hchange := h [.base, .base, .select 3 (.case 0), .base] (by decide) 2 3 (.case 0) rfl
    (fun id _ => if id = 0 then .bits ⟨1, 1, by decide⟩ else .bits ⟨8, 1, by decide⟩)
    [.bits ⟨1, 1, by decide⟩, .bits ⟨8, 1, by decide⟩, .bits ⟨8, 255, by decide⟩,
      .bits ⟨8, 1, by decide⟩] (by decide) ?_ (.bits ⟨8, 0, by decide⟩)
    [.bits ⟨1, 1, by decide⟩, .bits ⟨8, 1, by decide⟩, .bits ⟨8, 0, by decide⟩,
      .bits ⟨8, 1, by decide⟩] (by decide) 2 (.inl (by decide))
  · revert hchange
    decide
  · rintro ⟨hasDefault, selector, rest, b, ⟨type, hsel⟩, hb, hchosen⟩
    cases hsel
    cases hb
    revert hchosen
    decide

end PredicateDominatorAnalysis

end Xls
