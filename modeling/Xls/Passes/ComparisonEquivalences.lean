/-
# The sets of conditions

A condition on one node, a comparison with a literal or a logic operation on such comparisons, is a
function of the value of that node: it holds exactly for the values of the set which is computed.

* `EvaluatesTo` : the value of a node as a function of another one;
* `computeRangeEquivalence_spec` : the set of one node from those of its operands;
* `computeEquivalences_spec` : the sets of all nodes.
-/
import Xls.Passes.ComparisonSimplification

namespace Xls

namespace ComparisonSimplification

open NodeBuilder

variable {reduce : IntervalSet → IntervalSet → Option IntervalSet} {g : Bool → Bool → Bool}
  {equivalences : List (Option RangeEquivalence)} {limit : Bits} {literalOnRhs : Bool}
  {es : List RangeEquivalence} {e : RangeEquivalence}

/-! ## The value of a node as a function of another one -/

/-- When the node `x` has the value `v`, the node has this value, whatever the environment is. -/
inductive EvaluatesTo (nodes : List LogicNode) (x : ℕ) (v : Bits) : ℕ → Bits → Prop
  | here : EvaluatesTo nodes x v x v
  | node {i : ℕ} {n : LogicNode} (rs : List Bits) {r : Bits} (hi : i ≠ x)
      (hn : nodes[i]? = some n) (hlength : rs.length = n.operands.length)
      (hoperands : ∀ (k o : ℕ) (b : Bits), n.operands[k]? = some o → rs[k]? = some b →
        EvaluatesTo nodes x v o b)
      (heval : ∀ env, LogicInterpreter.evalNode env i n (rs.map .bits) = some (.bits r)) :
      EvaluatesTo nodes x v i r

variable {nodes nodes' : List LogicNode} {x i : ℕ} {v r r' : Bits} {env : Env}

/-- In a run in which `x` has the value, the node has its one. -/
theorem EvaluatesTo.denotes (h : EvaluatesTo nodes x v i r) (hvalid : Valid env nodes) {t u : Ty}
    {y : Value} (hx : HasValue env nodes x t (.bits v)) (hi : HasValue env nodes i u y) :
    y = .bits r := by
  induction h generalizing u y with
  | here => exact hi.value_eq hvalid hx
  | @node i n rs r _ hn hlength _ heval ih =>
    obtain ⟨ps, z, hfacts⟩ := hvalid.node hn
    have hps : ps.map Prod.snd = rs.map .bits := by
      have hlen := hfacts.operands.length_eq
      apply List.ext_getElem
      · rw [List.length_map, List.length_map, hlength, hlen]
      · intro k hk hk'
        rw [List.length_map] at hk hk'
        rw [List.getElem_map, List.getElem_map]
        have hko : k < n.operands.length := hlen ▸ hk
        exact ih k _ _ (List.getElem?_eq_getElem hko) (List.getElem?_eq_getElem hk')
          (List.forall₂_iff_get.mp hfacts.operands |>.2 k hko hk)
    have hz := hfacts.eval
    rw [hps, heval env] at hz
    exact (hi.value_eq hvalid hfacts.result).trans (Option.some.inj hz).symm

/-- The set has the values of a node for which another one, a single bit, is set.  A literal has
one value only. -/
structure Exact (nodes : List LogicNode) (i : ℕ) (e : RangeEquivalence) : Prop where
  before : e.node < i
  type_bit : nodes[i]?.map LogicNode.type = some (.bits 1)
  type : nodes[e.node]?.map LogicNode.type = some (.bits e.range.bitCount)
  isNormalized : e.range.isNormalized = true
  evaluates : ∀ v : Bits, v.bitCount = e.range.bitCount →
    (∀ c, literalBits nodes e.node = some c → c = v) →
    EvaluatesTo nodes e.node v i (BitsOps.ofBool (e.range.covers v.toNat))

variable {n : LogicNode} {types : List Ty}

theorem literalBits_eq_some {c : Bits} (h : literalBits nodes i = some c) :
    ∃ n, nodes[i]? = some n ∧ n.op = .core (.literal (.bits c)) := by
  unfold literalBits at h
  split at h
  · rename_i hop
    cases h
    exact Option.map_eq_some_iff.mp hop
  · cases h

/-- A literal has its value and its type. -/
theorem literal_facts (hverify : LogicVerifier.verify ⟨nodes⟩ = true) {c : Bits}
    (h : literalBits nodes i = some c) : nodes[i]?.map LogicNode.type = some (.bits c.bitCount) ∧
      (i ≠ x → EvaluatesTo nodes x v i c) := by
  obtain ⟨n, hn, hop⟩ := literalBits_eq_some h
  obtain ⟨types, htypes⟩ := LogicVerifier.node_of_verify hverify hn
  have hcheck := htypes.verify
  obtain ⟨op, operands, type, hlt⟩ := n
  cases hop
  have hchecked : (types.isEmpty && (Value.bits c).conformsToType type) = true := hcheck
  rw [Bool.and_eq_true] at hchecked
  have htype : type = .bits c.bitCount := by
    cases type with
    | bits w => exact congrArg Ty.bits (beq_iff_eq.mp hchecked.2).symm
    | _ => cases hchecked.2
  have hnil : operands = [] := by
    have hlen := htypes.operands.length_eq
    rw [List.isEmpty_iff.mp hchecked.1] at hlen
    exact List.length_eq_zero_iff.mp hlen
  subst htype hnil
  refine ⟨by rw [hn]; rfl, fun hi => ?_⟩
  exact .node [] hi hn rfl (fun k o b ho => nomatch ho) fun env => rfl

/-- The literal and the other operand of a comparison. -/
theorem literalOperand_eq_some {operands : List ℕ}
    (h : literalOperand nodes operands = some (limit, x, literalOnRhs)) :
    ∃ l, literalBits nodes l = some limit ∧
      operands = if literalOnRhs then [x, l] else [l, x] := by
  unfold literalOperand at h
  split at h
  · rename_i lhs rhs
    split at h
    · rename_i value hvalue
      cases h
      exact ⟨lhs, hvalue, rfl⟩
    · obtain ⟨value, hvalue, heq⟩ := Option.map_eq_some_iff.mp h
      cases heq
      exact ⟨rhs, hvalue, rfl⟩
  · cases h

/-- The checks of a comparison. -/
theorem compareTypes_of_verify (htypes : LogicVerifier.NodeTypes nodes i n types)
    (hop : opIsCompare n.op = true) : Verifier.compareTypes n.type types = true := by
  have hcheck := htypes.verify
  obtain ⟨op, operands, type, hlt⟩ := n
  cases op with
  | core op => cases op <;> first | exact hcheck | cases hop
  | _ => cases hop

/-- A comparison with a literal. -/
theorem compare_exact (hverify : LogicVerifier.verify ⟨nodes⟩ = true) (hn : nodes[i]? = some n)
    (htype : n.type = .bits 1) (hop : opIsCompare n.op = true)
    (hoperands : literalOperand nodes n.operands = some (limit, x, literalOnRhs)) :
    ∃ r, compareEquivalence n.op limit x literalOnRhs = some r ∧
      ∀ e, r = some e → Exact nodes i e := by
  obtain ⟨types, htypes⟩ := LogicVerifier.node_of_verify hverify hn
  obtain ⟨l, hl, hops⟩ := literalOperand_eq_some hoperands
  obtain ⟨hltype, -⟩ := literal_facts (x := x) (v := limit) hverify hl
  obtain ⟨r, hr, hspec⟩ := compareEquivalence_spec n.op limit x literalOnRhs
  -- both operands have one type
  have hsame : nodes[x]?.map LogicNode.type = nodes[l]?.map LogicNode.type := by
    have hcompare := compareTypes_of_verify htypes hop
    have hall := htypes.operands
    rw [hops] at hall
    rcases literalOnRhs with - | -
    all_goals
      rcases hall with - | ⟨ha, hb⟩
      rcases hb with - | ⟨hb, hnil⟩
      cases hnil
      have hab := of_decide_eq_true (Bool.and_eq_true_iff.mp hcompare).1
      rw [ha, hb, hab]
  have hx : x < i := htypes.before x (by rw [hops]; cases literalOnRhs <;> simp)
  refine ⟨r, hr, fun e he => ?_⟩
  obtain ⟨hnode, hwidth, hnormal, heval⟩ := hspec e he
  refine ⟨hnode ▸ hx, by rw [hn, Option.map_some, htype], by rw [hnode, hsame, hltype, hwidth],
    hnormal, fun v hv hliteral => ?_⟩
  rw [hnode] at hliteral ⊢
  have hlv : EvaluatesTo nodes x v l limit := by
    by_cases hlx : l = x
    · subst hlx
      rw [hliteral limit hl]
      exact .here
    · exact (literal_facts hverify hl).2 hlx
  refine .node (compareOperands limit v literalOnRhs) hx.ne' hn ?_ ?_ fun env => ?_
  · rw [hops]
    cases literalOnRhs <;> rfl
  · rw [hops]
    intro k o b ho hb
    rcases literalOnRhs with - | -
    all_goals
      rcases k with - | - | k
      · cases ho
        cases hb
        first | exact .here | exact hlv
      · cases ho
        cases hb
        first | exact .here | exact hlv
      · cases ho
  · obtain ⟨op, operands, type, hlt⟩ := n
    cases htype
    exact heval v (hv.trans hwidth) env i operands hlt

/-- A logic operation on the sets of its operands. -/
theorem logic_exact (h : Pointwise reduce g) (complement : Bool) (hn : nodes[i]? = some n)
    (htype : n.type = .bits 1) (hbefore : ∀ o ∈ n.operands, o < i)
    (heval : ∀ env b (bs : List Bool), (b :: bs).length = n.operands.length →
      LogicInterpreter.evalNode env i n (((b :: bs).map BitsOps.ofBool).map .bits) =
        some (.bits (BitsOps.ofBool (bs.foldl g b != complement))))
    (hes : List.Forall₂ (Exact nodes) n.operands es) :
    ∃ r, reduceEquivalence es reduce complement = some r ∧ (∀ e, r = some e → Exact nodes i e) ∧
      ((∃ x, es ≠ [] ∧ ∀ c ∈ es, c.node = x) → r.isSome = true) := by
  have hexact : ∀ c ∈ es, ∃ o, Exact nodes o c := by
    intro c hc
    obtain ⟨k, hk, rfl⟩ := List.getElem_of_mem hc
    exact ⟨_, (List.forall₂_iff_get.mp hes).2 k (hes.length_eq ▸ hk) hk⟩
  -- sets for one node have its width
  have hwidth : ∀ c ∈ es, ∀ d ∈ es, c.node = d.node → c.range.bitCount = d.range.bitCount := by
    intro c hc d hd hcd
    obtain ⟨o, ho⟩ := hexact c hc
    obtain ⟨o', ho'⟩ := hexact d hd
    have := ho.type
    rw [hcd, ho'.type] at this
    exact (Ty.bits.inj (Option.some.inj this)).symm
  have hnormal : ∀ c ∈ es, c.range.isNormalized = true := fun c hc =>
    (hexact c hc).choose_spec.isNormalized
  rcases reduceEquivalence_spec h complement hnormal hwidth with
    ⟨hnone, hnot⟩ | ⟨first, rest, range, rfl, hsame, hr, hw, hnorm, hc⟩
  · exact ⟨none, hnone, nofun, fun hall => absurd hall hnot⟩
  · refine ⟨_, hr, fun e he => ?_, fun _ => rfl⟩
    cases he
    rcases hops : n.operands with - | ⟨o, operands⟩
    · rw [hops] at hes
      cases hes
    rw [hops] at hes
    rcases hes with - | ⟨ho, hrest⟩
    have hoi : o < i := hbefore o (hops ▸ List.mem_cons_self ..)
    have hwidths : ∀ c ∈ rest, c.range.bitCount = first.range.bitCount := fun c hc =>
      hwidth c (List.mem_cons_of_mem _ hc) first (List.mem_cons_self ..) (hsame c hc)
    refine ⟨ho.before.trans hoi, by rw [hn, Option.map_some, htype], by rw [ho.type, hw], hnorm,
      fun v hv hliteral => ?_⟩
    have hv' : v.bitCount = first.range.bitCount := hv.trans hw
    refine .node ((first.range.covers v.toNat :: rest.map fun c => c.range.covers v.toNat).map
      BitsOps.ofBool) (ho.before.trans hoi).ne' hn ?_ ?_ fun env => ?_
    · rw [hops, List.length_map, List.length_cons, List.length_map, List.length_cons,
        hrest.length_eq]
    · rw [hops]
      intro k o' b ho' hb
      rcases k with - | k
      · cases ho'
        cases hb
        exact ho.evaluates v hv' hliteral
      · rw [List.getElem?_cons_succ] at ho'
        rw [List.map_cons, List.map_map] at hb
        obtain ⟨c, hck, rfl⟩ := List.getElem?_map .. ▸ hb |> Option.map_eq_some_iff.mp
        obtain ⟨hk, rfl⟩ := List.getElem?_eq_some_iff.mp hck
        obtain ⟨hk', rfl⟩ := List.getElem?_eq_some_iff.mp ho'
        have hmem : rest[k] ∈ rest := List.getElem_mem hk
        have hk'' := (List.forall₂_iff_get.mp hrest).2 k hk' hk
        have hev := hk''.evaluates v (hv'.trans (hwidths _ hmem).symm) (by
          rw [List.get_eq_getElem, hsame _ hmem]
          exact hliteral)
        rw [List.get_eq_getElem, hsame _ hmem] at hev
        exact hev
    · rw [heval env _ _ (by rw [hops, List.length_cons, List.length_map, List.length_cons,
        hrest.length_eq]), hc v.toNat (hv ▸ v.isLt)]

theorem nary_ofBool {f : Bits → Bits → Bits}
    (hfg : ∀ a b, f (BitsOps.ofBool a) (BitsOps.ofBool b) = BitsOps.ofBool (g a b)) (b : Bool)
    (bs : List Bool) : BitsOps.nary f ((b :: bs).map BitsOps.ofBool) =
      some (BitsOps.ofBool (bs.foldl g b)) := by
  have hfold : ∀ (bs : List Bool) (b : Bool), (bs.map BitsOps.ofBool).foldl f (BitsOps.ofBool b) =
      BitsOps.ofBool (bs.foldl g b) := by
    intro bs
    induction bs with
    | nil => exact fun b => rfl
    | cons c bs ih =>
      intro b
      rw [List.map_cons, List.foldl_cons, hfg, ih, List.foldl_cons]
  have hwidth : ∀ c ∈ bs.map BitsOps.ofBool, c.bitCount = (BitsOps.ofBool b).bitCount := by
    intro c hc
    obtain ⟨d, -, rfl⟩ := List.mem_map.mp hc
    rfl
  rw [List.map_cons, BitsOps.nary, if_pos hwidth, hfold]

theorem not_ofBool (b : Bool) : BitsOps.not (BitsOps.ofBool b) = BitsOps.ofBool (!b) := by
  cases b <;> rfl

theorem naryOp_ofBool {f : List Bits → Option Bits} {b c : Bool} {bs : List Bool}
    (h : f ((b :: bs).map BitsOps.ofBool) = some (BitsOps.ofBool c)) :
    LogicInterpreter.naryOp f (((b :: bs).map BitsOps.ofBool).map .bits) =
      some (.bits (BitsOps.ofBool c)) := by
  rw [LogicInterpreter.naryOp, bitsVector_map, Option.bind_some, h, Option.map_some]

theorem nary_and_ofBool (b : Bool) (bs : List Bool) :
    BitsOps.nary BitsOps.and ((b :: bs).map BitsOps.ofBool) =
      some (BitsOps.ofBool (bs.foldl and b)) := by
  apply nary_ofBool
  decide

theorem nary_or_ofBool (b : Bool) (bs : List Bool) :
    BitsOps.nary BitsOps.or ((b :: bs).map BitsOps.ofBool) =
      some (BitsOps.ofBool (bs.foldl or b)) := by
  apply nary_ofBool
  decide

/-- The logic operations which are looked at. -/
def opIsLogic : LogicOp → Bool
  | .and | .or | .not | .nand | .nor => true
  | _ => false

/-- A logic operation. -/
theorem logicEquivalence_spec (hn : nodes[i]? = some n) (htype : n.type = .bits 1)
    (htypes : LogicVerifier.NodeTypes nodes i n types)
    (hes : List.Forall₂ (Exact nodes) n.operands es) :
    ∃ r, logicEquivalence n.op es = some r ∧ (∀ e, r = some e → Exact nodes i e) ∧
      (opIsLogic n.op = true → (∃ x, es ≠ [] ∧ ∀ c ∈ es, c.node = x) → r.isSome = true) := by
  have hlift : ∀ {reduce : IntervalSet → IntervalSet → Option IntervalSet}
      {g : Bool → Bool → Bool}, Pointwise reduce g → ∀ complement : Bool,
      (∀ env b (bs : List Bool), (b :: bs).length = n.operands.length →
        LogicInterpreter.evalNode env i n (((b :: bs).map BitsOps.ofBool).map .bits) =
          some (.bits (BitsOps.ofBool (bs.foldl g b != complement)))) →
      ∃ r, reduceEquivalence es reduce complement = some r ∧ (∀ e, r = some e → Exact nodes i e) ∧
        (opIsLogic n.op = true → (∃ x, es ≠ [] ∧ ∀ c ∈ es, c.node = x) → r.isSome = true) := by
    intro reduce g hg complement heval
    obtain ⟨r, hr, hexact, hsome⟩ :=
      logic_exact hg complement hn htype htypes.before heval hes
    exact ⟨r, hr, hexact, fun _ => hsome⟩
  have hcheck := htypes.verify
  have hlength := htypes.operands.length_eq
  obtain ⟨op, operands, type, hlt⟩ := n
  cases htype
  unfold logicEquivalence
  split
  · rename_i hop
    cases hop
    refine hlift pointwise_intersect false fun env b bs _ => ?_
    rw [Bool.bne_false]
    exact naryOp_ofBool (nary_and_ofBool b bs)
  · rename_i hop
    cases hop
    refine hlift pointwise_combine false fun env b bs _ => ?_
    rw [Bool.bne_false]
    exact naryOp_ofBool (nary_or_ofBool b bs)
  · rename_i hop
    cases hop
    refine hlift pointwise_intersect true fun env b bs hbs => ?_
    -- a negation has one operand
    have hone : types.length = 1 := by
      have hsame : Verifier.allSameBitsType 1 (.bits 1) types = true := hcheck
      rw [of_decide_eq_true (Bool.and_eq_true_iff.mp hsame).2, List.length_replicate]
    obtain rfl : bs = [] := List.length_eq_zero_iff.mp (by
      exact Nat.succ.inj (hbs.trans (hlength.trans hone)))
    rw [Bool.bne_true]
    exact congrArg (some ∘ Value.bits) (not_ofBool b)
  · rename_i hop
    cases hop
    refine hlift pointwise_intersect true fun env b bs _ => ?_
    rw [Bool.bne_true]
    refine naryOp_ofBool ?_
    rw [BitsOps.naryNand, nary_and_ofBool, Option.map_some, not_ofBool]
  · rename_i hop
    cases hop
    refine hlift pointwise_combine true fun env b bs _ => ?_
    rw [Bool.bne_true]
    refine naryOp_ofBool ?_
    rw [BitsOps.naryNor, nary_or_ofBool, Option.map_some, not_ofBool]
  · rename_i hand hor hnot hnand hnor
    refine ⟨none, rfl, (fun e he => by cases he), fun hop => ?_⟩
    cases op with
    | and => exact absurd rfl hand
    | or => exact absurd rfl hor
    | not => exact absurd rfl hnot
    | nand => exact absurd rfl hnand
    | nor => exact absurd rfl hnor
    | _ => cases hop

/-- The sets found so far. -/
def AllExact (nodes : List LogicNode) (equivalences : List (Option RangeEquivalence)) : Prop :=
  ∀ o e, equivalences[o]? = some (some e) → Exact nodes o e

/-- The set of one node. -/
theorem computeRangeEquivalence_spec (hverify : LogicVerifier.verify ⟨nodes⟩ = true)
    (hall : AllExact nodes equivalences) (hn : nodes[i]? = some n) :
    ∃ r, computeRangeEquivalence nodes equivalences n = some r ∧
      ∀ e, r = some e → Exact nodes i e := by
  obtain ⟨types, htypes⟩ := LogicVerifier.node_of_verify hverify hn
  unfold computeRangeEquivalence
  split
  · exact ⟨none, rfl, nofun⟩
  · rename_i hcond
    push Not at hcond
    obtain ⟨htype, -⟩ := hcond
    split
    · rename_i limit otherOperand literalOnRhs hliteral
      obtain ⟨hop, hliteral⟩ := Option.ite_none_right_eq_some.mp hliteral
      exact compare_exact hverify hn htype hop hliteral
    · split
      · exact ⟨none, rfl, nofun⟩
      · rename_i es hes
        have hexact : List.Forall₂ (Exact nodes) n.operands es :=
          (mapM_eq_some_iff.mp hes).imp fun o e ho => hall o e (Option.join_eq_some_iff.mp ho)
        obtain ⟨r, hr, hspec, -⟩ := logicEquivalence_spec hn htype htypes hexact
        exact ⟨r, hr, hspec⟩

/-- The first loop of the pass has found the sets of the nodes so far. -/
structure Computed (nodes : List LogicNode) (equivalences : List (Option RangeEquivalence)) :
    Prop where
  exact : AllExact nodes equivalences
  computed : ∀ i n, i < equivalences.length → nodes[i]? = some n →
    computeRangeEquivalence nodes equivalences n = equivalences[i]?

/-- Only the sets of the operands are looked at. -/
theorem computeRangeEquivalence_append {more : List (Option RangeEquivalence)}
    (hbefore : ∀ o ∈ n.operands, o < equivalences.length) :
    computeRangeEquivalence nodes (equivalences ++ more) n =
      computeRangeEquivalence nodes equivalences n := by
  have hmap : (n.operands.mapM fun o => ((equivalences ++ more)[o]?).join) =
      n.operands.mapM fun o => (equivalences[o]?).join := by
    generalize n.operands = operands at hbefore
    induction operands with
    | nil => rfl
    | cons o operands ih =>
      rw [List.mapM_cons, List.mapM_cons, ih fun o ho => hbefore o (List.mem_cons_of_mem _ ho),
        List.getElem?_append_left (hbefore o (List.mem_cons_self ..))]
  unfold computeRangeEquivalence
  rw [hmap]

/-- The first loop of the pass. -/
theorem computeEquivalences_spec (hverify : LogicVerifier.verify ⟨nodes⟩ = true) :
    ∃ equivalences, computeEquivalences nodes = some equivalences ∧
      equivalences.length = nodes.length ∧ Computed nodes equivalences := by
  have hloop : ∀ (rest before : List LogicNode) (equivalences : List (Option RangeEquivalence)),
      nodes = before ++ rest → equivalences.length = before.length →
      Computed nodes equivalences → ∃ out, rest.foldlM (fun equivalences n =>
        (computeRangeEquivalence nodes equivalences n).map fun e => equivalences ++ [e])
          equivalences = some out ∧ out.length = nodes.length ∧ Computed nodes out := by
    intro rest
    induction rest with
    | nil =>
      intro before equivalences hnodes hlength hcomputed
      refine ⟨equivalences, rfl, ?_, hcomputed⟩
      rw [hlength, hnodes, List.append_nil]
    | cons n rest ih =>
      intro before equivalences hnodes hlength hcomputed
      have hn : nodes[equivalences.length]? = some n := by
        rw [hnodes, hlength, List.getElem?_append_right le_rfl, Nat.sub_self]
        rfl
      obtain ⟨r, hr, hexact⟩ := computeRangeEquivalence_spec hverify hcomputed.exact hn
      rw [List.foldlM_cons, hr]
      refine ih (before ++ [n]) (equivalences ++ [r]) (by rw [hnodes]; simp)
        (by rw [List.length_append, List.length_append, hlength]; rfl) ⟨?_, ?_⟩
      · intro o e ho
        rcases lt_or_ge o equivalences.length with hlt | hge
        · rw [List.getElem?_append_left hlt] at ho
          exact hcomputed.exact o e ho
        · rw [List.getElem?_append_right hge] at ho
          obtain ⟨hzero, ho⟩ := List.getElem?_eq_some_iff.mp ho
          obtain rfl : o = equivalences.length := by
            rw [List.length_singleton] at hzero
            omega
          exact hexact e (by simpa using ho)
      · intro i m hi hm
        obtain ⟨types, htypes⟩ := LogicVerifier.node_of_verify hverify hm
        rw [List.length_append, List.length_singleton] at hi
        rw [computeRangeEquivalence_append fun o ho => by
          have := htypes.before o ho
          omega]
        rcases Nat.lt_succ_iff_lt_or_eq.mp hi with hlt | rfl
        · rw [List.getElem?_append_left hlt]
          exact hcomputed.computed i m hlt hm
        · obtain rfl := Option.some.inj (hn.symm.trans hm)
          rw [hr, List.getElem?_concat_length]
  exact hloop nodes [] [] rfl rfl ⟨nofun, nofun⟩

end ComparisonSimplification

end Xls
