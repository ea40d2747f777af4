/-
# Comparison simplification keeps the values

The nodes for which a set is computed are the conditions on one node, and what they are replaced
with has their value.

* `ConditionOn.computed`, `ConditionOn.of_computed` : the nodes for which a set is computed;
* `simplifyNode_returns` : what a node is replaced with has its value;
* `comparisonSimplification_exact` : all nodes of a function.
-/
import Xls.Passes.ComparisonEquivalences

namespace Xls

namespace ComparisonSimplification

open NodeBuilder

variable {reduce : IntervalSet → IntervalSet → Option IntervalSet} {g : Bool → Bool → Bool}
  {equivalences : List (Option RangeEquivalence)} {limit : Bits} {literalOnRhs : Bool}
  {es : List RangeEquivalence} {e : RangeEquivalence}
  {nodes nodes' : List LogicNode} {x i : ℕ} {v r : Bits} {env : Env} {n : LogicNode}
  {types : List Ty}

/-! ## The nodes with a set -/

/-- A tree of comparisons of a node with literals, strict or for equality, and of logic
operations. -/
inductive ConditionOn (nodes : List LogicNode) (x : ℕ) : ℕ → Prop
  | compare {i : ℕ} {n : LogicNode} {limit : Bits} {literalOnRhs : Bool} (hn : nodes[i]? = some n)
      (hop : n.op = .core .eq ∨ n.op = .core .ne ∨ n.op = .core .ult ∨ n.op = .core .ugt)
      (hoperands : literalOperand nodes n.operands = some (limit, x, literalOnRhs)) :
      ConditionOn nodes x i
  | logic {i : ℕ} {n : LogicNode} (hn : nodes[i]? = some n) (hop : opIsLogic n.op = true)
      (hoperands : ∀ o ∈ n.operands, ConditionOn nodes x o) : ConditionOn nodes x i

/-- What the verifier has checked of a logic operation. -/
theorem types_of_opIsLogic (htypes : LogicVerifier.NodeTypes nodes i n types)
    (hop : opIsLogic n.op = true) : types ≠ [] ∧ ∀ t ∈ types, t = n.type := by
  have hcheck := htypes.verify
  obtain ⟨op, operands, type, hlt⟩ := n
  have hnary : ∀ count, Verifier.allSameBitsType count type types = true → 0 < count →
      types ≠ [] ∧ ∀ t ∈ types, t = type := by
    intro count hsame hpos
    have h := of_decide_eq_true (Bool.and_eq_true_iff.mp hsame).2
    refine ⟨fun hnil => ?_, fun t ht => ?_⟩
    · rw [hnil] at h
      exact absurd (congrArg List.length h) (by
        rw [List.length_replicate]
        exact hpos.ne)
    · rw [h] at ht
      exact List.eq_of_mem_replicate ht
  have hmany : (decide (0 < types.length) &&
      Verifier.allSameBitsType types.length type types) = true →
      types ≠ [] ∧ ∀ t ∈ types, t = type := by
    intro h
    obtain ⟨hpos, hsame⟩ := Bool.and_eq_true_iff.mp h
    exact hnary _ hsame (of_decide_eq_true hpos)
  cases op with
  | and => exact hmany hcheck
  | or => exact hmany hcheck
  | nand => exact hmany hcheck
  | nor => exact hmany hcheck
  | not => exact hnary 1 hcheck Nat.one_pos
  | _ => cases hop

/-- The types of a comparison with a literal. -/
theorem types_of_compare (htypes : LogicVerifier.NodeTypes nodes i n types)
    (hverify : LogicVerifier.verify ⟨nodes⟩ = true) (hop : opIsCompare n.op = true)
    (hoperands : literalOperand nodes n.operands = some (limit, x, literalOnRhs)) :
    n.type = .bits 1 ∧ firstOperandIsBits nodes n = true := by
  have hcompare := compareTypes_of_verify htypes hop
  obtain ⟨l, hl, hops⟩ := literalOperand_eq_some hoperands
  obtain ⟨hltype, -⟩ := literal_facts (x := x) (v := limit) hverify hl
  have hall := htypes.operands
  rw [hops] at hall
  unfold firstOperandIsBits
  rw [hops]
  rcases literalOnRhs with - | -
  · rcases hall with - | ⟨ha, hb⟩
    rcases hb with - | ⟨hb, hnil⟩
    cases hnil
    refine ⟨of_decide_eq_true (Bool.and_eq_true_iff.mp hcompare).2, ?_⟩
    obtain ⟨m, hm, htype⟩ := Option.map_eq_some_iff.mp hltype
    show (nodes[l]?.map fun n => n.type.isBits).getD false = true
    rw [hm, Option.map_some, htype]
    rfl
  · rcases hall with - | ⟨ha, hb⟩
    rcases hb with - | ⟨hb, hnil⟩
    cases hnil
    obtain ⟨hab, hbit⟩ := Bool.and_eq_true_iff.mp hcompare
    refine ⟨of_decide_eq_true hbit, ?_⟩
    obtain ⟨m, hm, htype⟩ := Option.map_eq_some_iff.mp ha
    show (nodes[x]?.map fun n => n.type.isBits).getD false = true
    rw [hltype] at hb
    rw [hm, Option.map_some, htype, ← of_decide_eq_true hab, ← Option.some.inj hb]
    rfl

theorem compareEquivalence_eq_some {op : LogicOp}
    (h : compareEquivalence op limit x literalOnRhs = some (some e)) :
    (op = .core .eq ∨ op = .core .ne ∨ op = .core .ult ∨ op = .core .ugt) ∧ e.node = x := by
  unfold compareEquivalence at h
  split at h
  · cases h
    exact ⟨Or.inl rfl, rfl⟩
  · obtain ⟨range, -, heq⟩ := Option.map_eq_some_iff.mp h
    cases heq
    exact ⟨Or.inr (Or.inl rfl), rfl⟩
  · cases h
    exact ⟨Or.inr (Or.inr (Or.inl rfl)), rfl⟩
  · cases h
    exact ⟨Or.inr (Or.inr (Or.inr rfl)), rfl⟩
  · cases h

theorem reduceEquivalence_eq_some {complement : Bool}
    (h : reduceEquivalence es reduce complement = some (some e)) :
    ∃ first rest, es = first :: rest ∧ e.node = first.node ∧ ∀ c ∈ rest, c.node = first.node := by
  unfold reduceEquivalence at h
  split at h
  · cases h
  · rename_i first rest
    split at h
    · rename_i hall
      obtain ⟨r, -, h⟩ := Option.bind_eq_some_iff.mp h
      obtain ⟨range, -, heq⟩ := Option.map_eq_some_iff.mp h
      cases heq
      exact ⟨first, rest, rfl, rfl, fun c hc => beq_iff_eq.mp (List.all_eq_true.mp hall c hc)⟩
    · cases h

theorem logicEquivalence_eq_some {op : LogicOp} (h : logicEquivalence op es = some (some e)) :
    opIsLogic op = true ∧ ∃ first rest, es = first :: rest ∧ e.node = first.node ∧
        ∀ c ∈ rest, c.node = first.node := by
  unfold logicEquivalence at h
  split at h
  iterate 5 exact ⟨rfl, reduceEquivalence_eq_some h⟩
  · cases h

variable (hverify : LogicVerifier.verify ⟨nodes⟩ = true)

section

include hverify

/-- Trees of comparisons have a set. -/
theorem ConditionOn.computed (h : Computed nodes equivalences)
    (hlength : equivalences.length = nodes.length) (hi : ConditionOn nodes x i) :
    ∃ range, equivalences[i]? = some (some ⟨x, range⟩) := by
  induction hi with
  | @compare i n limit literalOnRhs hn hop hoperands =>
    obtain ⟨types, htypes⟩ := LogicVerifier.node_of_verify hverify hn
    have hcompare : opIsCompare n.op = true := by
      rcases hop with h | h | h | h
      all_goals rw [h]; rfl
    obtain ⟨hbit, hfirst⟩ := types_of_compare htypes hverify hcompare hoperands
    have hlt : i < equivalences.length := hlength ▸ (List.getElem?_eq_some_iff.mp hn).1
    rw [← h.computed i n hlt hn]
    unfold computeRangeEquivalence
    rw [if_neg (by
      rw [hfirst]
      rintro (hne | ⟨-, hfalse⟩)
      · exact hne hbit
      · cases hfalse), if_pos hcompare, hoperands]
    show ∃ range, compareEquivalence n.op limit x literalOnRhs = _
    rcases hop with h | h | h | h
    · rw [h]
      exact ⟨_, rfl⟩
    · rw [h]
      obtain ⟨c, hc, -⟩ := IntervalSet.complement_spec (IntervalSet.precise_isNormalized limit)
      exact ⟨c, by rw [compareEquivalence, hc]; rfl⟩
    · rw [h]
      exact ⟨_, rfl⟩
    · rw [h]
      exact ⟨_, rfl⟩
  | @logic i n hn hop _ ih =>
    obtain ⟨types, htypes⟩ := LogicVerifier.node_of_verify hverify hn
    obtain ⟨hne, hsame⟩ := types_of_opIsLogic htypes hop
    have hlt : i < equivalences.length := hlength ▸ (List.getElem?_eq_some_iff.mp hn).1
    obtain ⟨es, hes, hnodes⟩ : ∃ es : List RangeEquivalence, List.Forall₂
        (fun o e => (equivalences[o]?).join = some e) n.operands es ∧ ∀ e ∈ es, e.node = x := by
      generalize n.operands = operands at ih
      induction operands with
      | nil => exact ⟨[], .nil, nofun⟩
      | cons o operands ih' =>
        obtain ⟨range, hrange⟩ := ih o (List.mem_cons_self ..)
        obtain ⟨es, hes, hnodes⟩ := ih' fun o ho => ih o (List.mem_cons_of_mem _ ho)
        refine ⟨⟨x, range⟩ :: es, .cons (Option.join_eq_some_iff.mpr hrange) hes, ?_⟩
        rintro e (- | ⟨-, he⟩)
        · rfl
        · exact hnodes e he
    have hexact : List.Forall₂ (Exact nodes) n.operands es :=
      hes.imp fun o e ho => h.exact o e (Option.join_eq_some_iff.mp ho)
    -- the operands are single bits, and so is the node
    have hbit : n.type = .bits 1 := by
      rcases hall : types with - | ⟨t, ts⟩
      · exact absurd hall hne
      · have hops := htypes.operands
        rw [hall] at hops
        rcases hops' : n.operands with - | ⟨o, operands⟩
        · rw [hops'] at hops
          cases hops
        · rw [hops'] at hops hexact
          rcases hops with - | ⟨ho, -⟩
          rcases hexact with - | ⟨he, -⟩
          rw [← hsame t (hall ▸ List.mem_cons_self ..)]
          exact Option.some.inj (ho.symm.trans he.type_bit)
    obtain ⟨r, hr, hspec, hsome⟩ := logicEquivalence_spec hn hbit htypes hexact
    have hes' : es ≠ [] := by
      rintro rfl
      have hlen := htypes.operands.length_eq
      rw [hexact.length_eq] at hlen
      exact hne (List.length_eq_zero_iff.mp hlen.symm)
    obtain ⟨e, rfl⟩ := Option.isSome_iff_exists.mp (hsome hop ⟨x, hes', hnodes⟩)
    have hcompare : opIsCompare n.op = false := by
      generalize n.op = op at hop
      cases op with
      | core => cases hop
      | _ => rfl
    rw [← h.computed i n hlt hn]
    unfold computeRangeEquivalence
    rw [if_neg (by
      rw [hcompare]
      rintro (hne | ⟨hfalse, -⟩)
      · exact hne hbit
      · cases hfalse), if_neg (by rw [hcompare]; exact Bool.false_ne_true)]
    rw [mapM_eq_some_iff.mpr hes]
    obtain ⟨-, first, rest, rfl, hfirst, -⟩ := logicEquivalence_eq_some hr
    refine ⟨e.range, hr.trans ?_⟩
    rw [← hnodes first (List.mem_cons_self ..), ← hfirst]

/-- Only trees of comparisons have a set. -/
theorem ConditionOn.of_computed (h : Computed nodes equivalences)
    (hlength : equivalences.length = nodes.length) (hi : equivalences[i]? = some (some e)) :
    ConditionOn nodes e.node i := by
  induction i using Nat.strong_induction_on generalizing e with
  | _ i ih =>
    have hlt : i < equivalences.length := (List.getElem?_eq_some_iff.mp hi).1
    have hn := List.getElem?_eq_getElem (hlength ▸ hlt : i < nodes.length)
    obtain ⟨types, htypes⟩ := LogicVerifier.node_of_verify hverify hn
    have hcomputed := (h.computed i _ hlt hn).trans hi
    unfold computeRangeEquivalence at hcomputed
    split at hcomputed
    · cases hcomputed
    · split at hcomputed
      · rename_i limit otherOperand literalOnRhs hliteral
        obtain ⟨-, hliteral⟩ := Option.ite_none_right_eq_some.mp hliteral
        obtain ⟨hop, rfl⟩ := compareEquivalence_eq_some hcomputed
        exact .compare hn hop hliteral
      · split at hcomputed
        · cases hcomputed
        · rename_i es hes
          obtain ⟨hop, first, rest, rfl, hnode, hsame⟩ := logicEquivalence_eq_some hcomputed
          refine .logic hn hop fun o ho => ?_
          -- each operand has one of the sets, which are all for one node
          obtain ⟨k, hk, rfl⟩ := List.getElem_of_mem ho
          have hall := mapM_eq_some_iff.mp hes
          have hk' : k < (first :: rest).length := hall.length_eq ▸ hk
          have hget := Option.join_eq_some_iff.mp ((List.forall₂_iff_get.mp hall).2 k hk hk')
          have hx : ((first :: rest).get ⟨k, hk'⟩).node = e.node := by
            rcases List.mem_cons.mp (List.get_mem (first :: rest) ⟨k, hk'⟩) with heq | hmem
            · rw [heq, hnode]
            · rw [hsame _ hmem, hnode]
          rw [← hx]
          exact ih _ (htypes.before _ ho) hget

end

/-! ## The rewrites -/

theorem EvaluatesTo.grow (h : EvaluatesTo nodes x v i r) (hle : nodes <+: nodes') :
    EvaluatesTo nodes' x v i r := by
  induction h with
  | here => exact .here
  | node rs hi hn hlength _ heval ih =>
    exact .node rs hi (getElem?_of_first hle hn) hlength ih heval

theorem twoOperands {a b : ℕ} : [a, b].length < 2 ^ 64 := by
  rw [List.length_cons, List.length_singleton]
  decide

/-- A comparison with a new literal. -/
theorem returns_replaceWithCompare (hvalid : Valid env nodes) {value y : Bits}
    (hx : HasValue env nodes x (.bits value.bitCount) (.bits y)) (op : Op) (b : Bool)
    (hverify : ∀ operands h, LogicVerifier.verifyNode ⟨.core op, operands, .bits 1, h⟩
      [.bits value.bitCount, .bits value.bitCount] = true)
    (heval : ∀ id operands h, LogicInterpreter.evalNode env id ⟨.core op, operands, .bits 1, h⟩
      [.bits y, .bits value] = some (.bits (BitsOps.ofBool b))) :
    Returns env nodes (replaceWithCompare x value op) fun nodes' r => ∀ j, r = some j →
      HasValue env nodes' j (.bits 1) (.bits (BitsOps.ofBool b)) := by
  refine Returns.bind (returns_makeBitsLiteral hvalid value) fun nodes₁ l hvalid₁ hle₁ hl => ?_
  have hoperands : HaveValues env nodes₁ [x, l] [(.bits value.bitCount, .bits y),
      (.bits value.bitCount, .bits value)] := .cons (hx.grow hle₁) (.cons hl .nil)
  refine Returns.map ((returns_makeVerified hvalid₁ hoperands twoOperands (fun h => hverify _ h)
    (fun id h => heval id _ h) (conforms_ofBool b)).mono fun nodes₂ j _ _ hj k hk => ?_)
  cases hk
  exact hj

/-- The operand of a set and the node have these values. -/
theorem Exact.denotes (h : Exact nodes i e) (hle : nodes <+: nodes') (hvalid : Valid env nodes') :
    ∃ y : Bits, y.bitCount = e.range.bitCount ∧
      HasValue env nodes' e.node (.bits e.range.bitCount) (.bits y) ∧
      HasValue env nodes' i (.bits 1) (.bits (BitsOps.ofBool (e.range.covers y.toNat))) := by
  obtain ⟨m, hm, hmtype⟩ := Option.map_eq_some_iff.mp h.type
  obtain ⟨n, hn, hntype⟩ := Option.map_eq_some_iff.mp h.type_bit
  obtain ⟨ps, u, hx⟩ := hvalid.node (getElem?_of_first hle hm)
  obtain ⟨qs, z, hi⟩ := hvalid.node (getElem?_of_first hle hn)
  have hxd := hx.result
  have hid := hi.result
  rw [hmtype] at hxd
  rw [hntype] at hid
  obtain ⟨y, rfl, hy⟩ : ∃ y, u = .bits y ∧ y.bitCount = e.range.bitCount := by
    have hconf := hxd.conforms
    cases u with
    | bits y => exact ⟨y, rfl, beq_iff_eq.mp hconf⟩
    | _ => cases hconf
  refine ⟨y, hy, hxd, ?_⟩
  have hliteral : ∀ c, literalBits nodes e.node = some c → c = y := by
    intro c hc
    obtain ⟨m', hm', hop⟩ := literalBits_eq_some hc
    obtain rfl := Option.some.inj (hm.symm.trans hm')
    have heval := hx.eval
    obtain ⟨op, operands, type, hlt⟩ := m
    cases hop
    exact Value.bits.inj (Option.some.inj heval)
  have hz := ((h.evaluates y hy hliteral).grow hle).denotes hvalid hxd hid
  exact hz ▸ hid

/-- A set from zero up to a bound. -/
theorem getULtInterval_eq_some {range : IntervalSet} (hs : range.isNormalized = true)
    (h : getULtInterval range = some limit) :
    limit.bitCount = range.bitCount ∧ ∀ y : Bits, y.bitCount = range.bitCount →
      range.covers y.toNat = BitsOps.uLessThan y limit := by
  unfold getULtInterval at h
  split at h
  · rename_i interval hinterval
    obtain ⟨hcond, heq⟩ := Option.ite_none_right_eq_some.mp h
    cases heq
    rw [Bool.and_eq_true, Bool.not_eq_true'] at hcond
    have hlower : interval.lower = 0 := beq_iff_eq.mp hcond.1
    have hupper : interval.upper ≠ 2 ^ range.bitCount - 1 := fun heq =>
      Bool.eq_false_iff.mp hcond.2 (beq_iff_eq.mpr heq)
    have hlt := interval.upper_lt
    have hinc : (BitsOps.increment interval.upperBound).toNat = interval.upper + 1 :=
      BitsOps.increment_toNat_of_lt (a := interval.upperBound) (by
        show interval.upper + 1 < 2 ^ range.bitCount
        omega)
    refine ⟨rfl, fun y hy => ?_⟩
    have hcovers := IntervalSet.covers_singleton hs hinterval hy
    rw [IntervalSet.Covers, and_iff_right hy] at hcovers
    rw [Bool.eq_iff_iff, hcovers, BitsOps.uLessThan, decide_eq_true_eq]
    omega
  · cases h

/-- A set from a bound up to the greatest number. -/
theorem getUGtInterval_eq_some {range : IntervalSet} (hs : range.isNormalized = true)
    (h : getUGtInterval range = some limit) :
    limit.bitCount = range.bitCount ∧ ∀ y : Bits, y.bitCount = range.bitCount →
      range.covers y.toNat = BitsOps.uLessThan limit y := by
  unfold getUGtInterval at h
  split at h
  · rename_i interval hinterval
    obtain ⟨hcond, heq⟩ := Option.ite_none_right_eq_some.mp h
    cases heq
    rw [Bool.and_eq_true, Bool.not_eq_true'] at hcond
    have hlower : 0 < interval.lower := Nat.pos_of_ne_zero fun heq =>
      Bool.eq_false_iff.mp hcond.1 (beq_iff_eq.mpr heq)
    have hupper : interval.upper = 2 ^ range.bitCount - 1 := beq_iff_eq.mp hcond.2
    have hdec : (BitsOps.decrement interval.lowerBound).toNat = interval.lower - 1 :=
      BitsOps.decrement_toNat_of_pos (a := interval.lowerBound) hlower
    refine ⟨rfl, fun y hy => ?_⟩
    have hcovers := IntervalSet.covers_singleton hs hinterval hy
    have hmax := y.toNat_le
    rw [hy] at hmax
    rw [IntervalSet.Covers, and_iff_right hy] at hcovers
    rw [Bool.eq_iff_iff, hcovers, BitsOps.uLessThan, decide_eq_true_eq]
    omega
  · cases h

/-- What a node is replaced with has its value. -/
theorem simplifyNode_returns (h : Exact nodes i e) (hle : nodes <+: nodes')
    (hvalid : Valid env nodes') (op : LogicOp) :
    Returns env nodes' (simplifyNode op e) fun nodes'' r => ∀ j, r = some j →
      ∃ value, HasValue env nodes'' j (.bits 1) value ∧ HasValue env nodes'' i (.bits 1) value := by
  obtain ⟨y, hy, hx, hi⟩ := h.denotes hle hvalid
  have hcovers : e.range.Covers y ↔ e.range.covers y.toNat = true := and_iff_right hy
  have hdone : ∀ {prog : NodeM (Option ℕ)} {b : Bool}, e.range.covers y.toNat = b →
      Returns env nodes' prog (fun nodes'' r => ∀ j, r = some j →
        HasValue env nodes'' j (.bits 1) (.bits (BitsOps.ofBool b))) →
      Returns env nodes' prog fun nodes'' r => ∀ j, r = some j →
        ∃ value, HasValue env nodes'' j (.bits 1) value ∧ HasValue env nodes'' i (.bits 1) value := by
    rintro prog b rfl hprog
    exact hprog.mono fun nodes'' r _ hle' hr j hj => ⟨_, hr j hj, hi.grow hle'⟩
  have hconstant : ∀ b : Bool, e.range.covers y.toNat = b → Returns env nodes'
      (do return some (← makeBitsLiteral (BitsOps.ofBool b))) fun nodes'' r => ∀ j, r = some j →
        ∃ value, HasValue env nodes'' j (.bits 1) value ∧ HasValue env nodes'' i (.bits 1) value := by
    intro b hb
    refine hdone hb (Returns.bind (returns_makeBitsLiteral hvalid _) fun nodes'' j hvalid'' _ hj => ?_)
    refine Returns.pure hvalid'' fun k hk => ?_
    cases hk
    exact hj
  have hkeep : Returns env nodes' (pure none : NodeM (Option ℕ)) fun nodes'' r => ∀ j, r = some j →
      ∃ value, HasValue env nodes'' j (.bits 1) value ∧ HasValue env nodes'' i (.bits 1) value :=
    Returns.pure hvalid nofun
  unfold simplifyNode
  by_cases hmax : e.range.isMaximal = true
  · rw [if_pos hmax]
    exact hconstant true (hcovers.mp (IntervalSet.covers_of_isMaximal hmax hy))
  rw [if_neg hmax]
  by_cases hempty : e.range.isEmpty = true
  · rw [if_pos hempty]
    refine hconstant false (Bool.eq_false_iff.mpr fun hc => ?_)
    exact IntervalSet.not_covers_of_isEmpty hempty (hcovers.mpr hc)
  rw [if_neg hempty]
  have hcompare : ∀ (value : Bits) (o : Op) (b : Bool), value.bitCount = e.range.bitCount →
      e.range.covers y.toNat = b →
      (∀ operands h, LogicVerifier.verifyNode ⟨.core o, operands, .bits 1, h⟩
        [.bits value.bitCount, .bits value.bitCount] = true) →
      (∀ id operands h, LogicInterpreter.evalNode env id ⟨.core o, operands, .bits 1, h⟩
        [.bits y, .bits value] = some (.bits (BitsOps.ofBool b))) →
      Returns env nodes' (replaceWithCompare e.node value o) fun nodes'' r => ∀ j, r = some j →
        ∃ value, HasValue env nodes'' j (.bits 1) value ∧ HasValue env nodes'' i (.bits 1) value :=
    fun value o b hw hb hverify heval =>
      hdone hb (returns_replaceWithCompare hvalid (hw.symm ▸ hx) o b hverify heval)
  have hsame : ∀ value : Bits, Verifier.compareTypes (.bits 1)
      [.bits value.bitCount, .bits value.bitCount] = true := fun value => by
    rw [Verifier.compareTypes, decide_eq_true rfl, decide_eq_true rfl, Bool.and_self]
  rcases IntervalSet.getPreciseValue_spec h.isNormalized (Bool.eq_false_iff.mpr hempty) with
    hnone | ⟨value, hvalue, hw, hiff⟩
  · refine Returns.lift_bind hnone ?_
    obtain ⟨c, hc, hexact⟩ := IntervalSet.complement_spec h.isNormalized
    have hcw : c.bitCount = e.range.bitCount := hexact.bitCount
    -- the complement has points, since the set is not maximal
    have hcempty : c.isEmpty = false := by
      rw [← Bool.not_eq_true]
      intro hcempty
      refine hmax (IntervalSet.isMaximal_of_covers h.isNormalized fun b hb => ?_)
      by_contra hnot
      exact IntervalSet.not_covers_of_isEmpty hcempty ((hexact.covers b hb).mpr hnot)
    rcases IntervalSet.getPreciseValue_spec hexact.isNormalized hcempty with
      hcnone | ⟨value, hvalue, hw, hiff⟩
    · refine Returns.lift_bind (by rw [hc]; exact hcnone) ?_
      rcases hult : getULtInterval e.range with - | limit
      · rcases hugt : getUGtInterval e.range with - | limit
        · exact hkeep
        · obtain ⟨hw, hiff⟩ := getUGtInterval_eq_some h.isNormalized hugt
          show Returns env nodes' (if opIsCompare op then pure none
            else replaceWithCompare e.node limit .ugt) _
          split
          · exact hkeep
          · exact hcompare limit .ugt _ hw (hiff y hy) (fun operands h => hsame limit)
              fun id operands h => eval_ugt env id operands h y limit
      · obtain ⟨hw, hiff⟩ := getULtInterval_eq_some h.isNormalized hult
        show Returns env nodes' (if opIsCompare op then pure none
          else replaceWithCompare e.node limit .ult) _
        split
        · exact hkeep
        · exact hcompare limit .ult _ hw (hiff y hy) (fun operands h => hsame limit)
            fun id operands h => eval_ult env id operands h y limit
    · refine Returns.lift_bind (by rw [hc]; exact hvalue) ?_
      show Returns env nodes' (if op = .core .eq ∨ op = .core .ne then pure none
        else replaceWithCompare e.node value .ne) _
      split
      · exact hkeep
      · refine hcompare value .ne (decide (y ≠ value)) (hw.trans hcw) ?_
          (fun operands h => hsame value) fun id operands h => ?_
        · have hne : ¬ e.range.Covers y ↔ y = value :=
            (hexact.covers y hy).symm.trans (hiff y (hy.trans hcw.symm))
          rw [Bool.eq_iff_iff, decide_eq_true_eq, ← hcovers]
          exact ⟨fun hc heq => hne.mpr heq hc, fun hne' => not_not.mp (mt hne.mp hne')⟩
        · rw [eval_ne]
          exact congrArg (fun b => some (Value.bits (BitsOps.ofBool b)))
            (decide_eq_decide.mpr (not_congr ⟨Value.bits.inj, congrArg Value.bits⟩))
  · refine Returns.lift_bind hvalue ?_
    show Returns env nodes' (if op = .core .eq ∨ op = .core .ne then pure none
      else replaceWithCompare e.node value .eq) _
    split
    · exact hkeep
    · refine hcompare value .eq (decide (y = value)) hw ?_
        (fun operands h => hsame value) fun id operands h => ?_
      · rw [Bool.eq_iff_iff, decide_eq_true_eq, ← hcovers, hiff y hy]
      · rw [eval_eq]
        exact congrArg (fun b => some (Value.bits (BitsOps.ofBool b)))
          (decide_eq_decide.mpr ⟨Value.bits.inj, congrArg Value.bits⟩)

/-- The rewrite of one node, in a function which has grown since its set was computed. -/
def RewriteExact (nodes : List LogicNode) (i : ℕ) (e : RangeEquivalence) : Prop :=
  ∀ (env : Env) (nodes' : List LogicNode) (op : LogicOp), nodes <+: nodes' → Valid env nodes' →
    Returns env nodes' (simplifyNode op e) fun nodes'' r => ∀ j, r = some j →
      ∃ value, HasValue env nodes'' j (.bits 1) value ∧ HasValue env nodes'' i (.bits 1) value

/-- The pass fails no check; the nodes with a set are the trees of comparisons, a set has exactly
the values for which the tree is set, and what replaces the tree has its value. -/
theorem comparisonSimplification_exact (nodes : List LogicNode)
    (hverify : LogicVerifier.verify ⟨nodes⟩ = true) :
    ∃ equivalences, computeEquivalences nodes = some equivalences ∧
      (∀ x i, (∃ range, equivalences[i]? = some (some ⟨x, range⟩)) ↔ ConditionOn nodes x i) ∧
      ∀ i e, equivalences[i]? = some (some e) → Exact nodes i e ∧ RewriteExact nodes i e := by
  obtain ⟨equivalences, hcompute, hlength, hcomputed⟩ := computeEquivalences_spec hverify
  refine ⟨equivalences, hcompute, fun x i => ⟨?_, ConditionOn.computed hverify hcomputed hlength⟩,
    fun i e he => ?_⟩
  · rintro ⟨range, hrange⟩
    exact ConditionOn.of_computed hverify hcomputed hlength hrange
  · have hexact := hcomputed.exact i e he
    exact ⟨hexact, fun env nodes' op hle hvalid => simplifyNode_returns hexact hle hvalid op⟩

theorem noOperands_length : ([] : List ℕ).length < 2 ^ 64 := by decide

theorem ultOperands_length : [0, 1].length < 2 ^ 64 := by decide

theorem eqOperands_length : [1, 0].length < 2 ^ 64 := by decide

theorem orOperands_length : [2, 3].length < 2 ^ 64 := by decide

/-- A number below five or equal to it. -/
def atMostFive : List LogicNode :=
  [⟨.core .param, [], .bits 3, noOperands_length⟩,
    ⟨.core (.literal (.bits (Bits.ofNat 3 5))), [], .bits 3, noOperands_length⟩,
    ⟨.core .ult, [0, 1], .bits 1, ultOperands_length⟩,
    ⟨.core .eq, [1, 0], .bits 1, eqOperands_length⟩,
    ⟨.or, [2, 3], .bits 1, orOperands_length⟩]

theorem comparisonSimplification_exact_atMostFive : LogicVerifier.verify ⟨atMostFive⟩ = true ∧
    ∃ equivalences, computeEquivalences atMostFive = some equivalences ∧
      (∀ x i, (∃ range, equivalences[i]? = some (some ⟨x, range⟩)) ↔ ConditionOn atMostFive x i) ∧
      ∀ i e, equivalences[i]? = some (some e) → Exact atMostFive i e ∧
        RewriteExact atMostFive i e :=
  ⟨by decide, comparisonSimplification_exact atMostFive (by decide)⟩

end ComparisonSimplification

end Xls
