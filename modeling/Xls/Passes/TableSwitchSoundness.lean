/-
# The table of a chain of selects

A link of a chain over an index chooses between its value and the next link, so that the chain
has the value of the first link whose key is the index, or else the value which ends it.  A
table has these values in order, in one of three ways: the keys are the whole index space, the
holes of the index space are filled, or the keys are dense from zero on and every larger index
is cut to the one behind them.

* `IsChain.value`: the value of a chain.
* `coveredTable_selects`, `filledTable_selects`, `saturatingTable_selects`: the three tables.
* `linksToTable_arrayIndex`: no check fails, and the table has the value of the chain.
-/
import Xls.Passes.RangeAggregates
import Xls.Passes.TableSwitch

namespace Xls

namespace TableSwitch

/-! ## Verified nodes and their values -/

variable {f : FunctionBase} {env : Env} {values : List Value}
  (hverify : Verifier.verify f = true) (hrun : Interpreter.run env f = some values)

section Nodes

variable {i : ℕ} {n : Node}

/-- The type of a node. -/
def typeAt (f : FunctionBase) (i : ℕ) : Option Ty := f.nodes[i]?.map (·.type)

theorem operandTypes_cons {id : ℕ} {ids : List ℕ} {types : List Ty}
    (h : Verifier.operandTypes f id (i :: ids) = some types) :
    i < id ∧ ∃ t ts, typeAt f i = some t ∧ Verifier.operandTypes f id ids = some ts ∧
      types = t :: ts := by
  rw [Verifier.operandTypes] at h
  split at h
  · rename_i hlt
    split at h
    · rename_i m ts hm hts
      cases h
      exact ⟨hlt, m.type, ts, by rw [typeAt, hm]; rfl, hts, rfl⟩
    · cases h
  · cases h

/-- The types of two operands. -/
theorem operandTypes_pair {id a b : ℕ} {types : List Ty}
    (h : Verifier.operandTypes f id [a, b] = some types) :
    ∃ s t, typeAt f a = some s ∧ typeAt f b = some t ∧ types = [s, t] := by
  obtain ⟨-, s, ts, hs, hts, rfl⟩ := operandTypes_cons h
  obtain ⟨-, t, us, ht, hus, rfl⟩ := operandTypes_cons hts
  cases hus
  exact ⟨s, t, hs, ht, rfl⟩

theorem resolve_take {values operands : List Value} {id : ℕ} {ids : List ℕ}
    (h : Interpreter.resolve (values.take id) (i :: ids) = some operands) :
    ∃ v vs, values[i]? = some v ∧ Interpreter.resolve (values.take id) ids = some vs ∧
      operands = v :: vs := by
  obtain ⟨v, vs, hv, hvs, rfl⟩ := Interpreter.resolve_cons h
  refine ⟨v, vs, ?_, hvs, rfl⟩
  rw [List.getElem?_take] at hv
  split at hv
  · exact hv
  · cases hv

theorem literalValue_eq_some {value : Value} (h : literalValue f i = some value) :
    ∃ n, f.nodes[i]? = some n ∧ n.op = .literal value := by
  unfold literalValue at h
  split at h
  · rename_i n hn
    split at h
    · rename_i v hop
      cases h
      exact ⟨n, hn, hop⟩
    · cases h
  · cases h

include hverify in
/-- The value of a literal has the type of its node. -/
theorem conforms_of_literalValue {value : Value} (h : literalValue f i = some value) {t : Ty}
    (ht : typeAt f i = some t) :
    value.conformsToType t = true := by
  obtain ⟨n, hn, hop⟩ := literalValue_eq_some h
  obtain ⟨types, -, hnode⟩ := Verifier.verifyNode_of_verify hverify hn
  rw [typeAt, hn] at ht
  cases ht
  unfold Verifier.verifyNode at hnode
  rw [hop, Bool.and_eq_true] at hnode
  exact hnode.2

section

include hrun

/-- A literal has its value in every run. -/
theorem value_of_literalValue {value : Value} (h : literalValue f i = some value) :
    values[i]? = some value := by
  obtain ⟨n, hn, hop⟩ := literalValue_eq_some h
  obtain ⟨v, hv⟩ := (Interpreter.run_spec hrun).2 i n hn
  obtain ⟨operands, -, heval⟩ := hv.eval
  rw [Interpreter.evalNode, hop] at heval
  cases heval
  exact hv.value

/-- The value of a node in a run has the type of the node. -/
theorem conforms_of_run {t : Ty} (ht : typeAt f i = some t) {v : Value} (hv : values[i]? = some v) :
    v.conformsToType t = true := by
  obtain ⟨n, hn, rfl⟩ := Option.map_eq_some_iff.mp ht
  obtain ⟨u, hu⟩ := (Interpreter.run_spec hrun).2 i n hn
  rw [hu.value] at hv
  cases hv
  exact hu.conforms

end

theorem uint64Literal_eq_some {key : ℕ} (h : uint64Literal f i = some key) :
    ∃ b : Bits, literalValue f i = some (.bits b) ∧ b.toNat = key ∧ key < 2 ^ 64 := by
  unfold uint64Literal at h
  split at h
  · rename_i b hb
    split at h
    · rename_i hlt
      cases h
      exact ⟨b, hb, rfl, hlt⟩
    · cases h
  · cases h

end Nodes

/-! ## A link -/

section Links

variable {node : ℕ} {link : Link} {c : Uint64Comparison}

/-- A comparison of an index with a literal, on either side. -/
theorem matchCompareEqAgainstUint64_eq_some {i : ℕ} (h : matchCompareEqAgainstUint64 f i = some c) :
    ∃ n keyNode, f.nodes[i]? = some n ∧ n.op = c.comparisonOp ∧
      (c.comparisonOp = .eq ∨ c.comparisonOp = .ne) ∧ uint64Literal f keyNode = some c.key ∧
      (n.operands = [c.index, keyNode] ∨ n.operands = [keyNode, c.index]) := by
  unfold matchCompareEqAgainstUint64 at h
  split at h
  · rename_i n hn
    split at h
    · cases h
    · rename_i hop
      have hop : n.op = .eq ∨ n.op = .ne := by
        by_contra hne
        exact hop (not_or.mp hne)
      split at h
      · rename_i lhs rhs hoperands
        split at h
        · rename_i key hkey
          cases h
          exact ⟨n, lhs, hn, rfl, hop, hkey, Or.inr hoperands⟩
        · obtain ⟨key, hkey, rfl⟩ := Option.map_eq_some_iff.mp h
          exact ⟨n, rhs, hn, rfl, hop, hkey, Or.inl hoperands⟩
      · cases h
  · cases h

/-- The node of a comparison of an index with a literal, and the literal. -/
structure ComparesWith (f : FunctionBase) (i : ℕ) (c : Uint64Comparison) (n : Node)
    (keyNode : ℕ) (k : Bits) : Prop where
  node : f.nodes[i]? = some n
  op : n.op = c.comparisonOp
  ops : c.comparisonOp = .eq ∨ c.comparisonOp = .ne
  type : n.type = .bits 1
  literal : literalValue f keyNode = some (.bits k)
  key : k.toNat = c.key
  key_lt : c.key < 2 ^ 64
  operands : n.operands = [c.index, keyNode] ∨ n.operands = [keyNode, c.index]
  index : typeAt f c.index = some (.bits k.bitCount)

include hverify in
theorem comparesWith {i : ℕ} (h : matchCompareEqAgainstUint64 f i = some c) :
    ∃ n keyNode k, ComparesWith f i c n keyNode k := by
  obtain ⟨n, keyNode, hn, hop, hops, hkey, hoperands⟩ := matchCompareEqAgainstUint64_eq_some h
  obtain ⟨k, hk, htoNat, hlt⟩ := uint64Literal_eq_some hkey
  obtain ⟨types, htypes, hnode⟩ := Verifier.verifyNode_of_verify hverify hn
  have hcompare : Verifier.compareTypes n.type types = true := by
    unfold Verifier.verifyNode at hnode
    rcases hops with heq | hne
    · rwa [hop, heq] at hnode
    · rwa [hop, hne] at hnode
  -- the two operands have one type
  obtain ⟨t, hindex, hliteral, htype⟩ : ∃ t, typeAt f c.index = some t ∧
      typeAt f keyNode = some t ∧ n.type = .bits 1 := by
    rcases hoperands with hoperands | hoperands
    · rw [hoperands] at htypes
      obtain ⟨s, t, hs, ht, rfl⟩ := operandTypes_pair htypes
      rw [Verifier.compareTypes, Bool.and_eq_true, decide_eq_true_eq, decide_eq_true_eq] at hcompare
      exact ⟨t, hcompare.1 ▸ hs, ht, hcompare.2⟩
    · rw [hoperands] at htypes
      obtain ⟨s, t, hs, ht, rfl⟩ := operandTypes_pair htypes
      rw [Verifier.compareTypes, Bool.and_eq_true, decide_eq_true_eq, decide_eq_true_eq] at hcompare
      exact ⟨t, ht, hcompare.1 ▸ hs, hcompare.2⟩
  have hconf := conforms_of_literalValue hverify hk hliteral
  cases t with
  | bits w =>
    rw [Value.conformsToType, beq_iff_eq] at hconf
    rw [← hconf] at hindex
    exact ⟨n, keyNode, k, hn, hop, hops, htype, hk, htoNat, htoNat ▸ hlt, hoperands, hindex⟩
  | token => cases hconf
  | tuple ts => cases hconf
  | array m t => cases hconf

theorem boolResult_one (c : Bool) :
    Interpreter.boolResult (.bits 1) c = some (.bits (BitsOps.ofBool c)) := by
  cases c <;> rfl

/-- The value of a comparison with a literal. -/
theorem ComparesWith.value {i keyNode : ℕ} {n : Node} {k : Bits}
    (h : ComparesWith f i c n keyNode k) {env : Env} (hrun : Interpreter.run env f = some values)
    {b : Bits} (hb : values[c.index]? = some (.bits b)) :
    values[i]? = some (.bits (BitsOps.ofBool
      (decide (b.toNat = c.key) == decide (c.comparisonOp = .eq)))) := by
  obtain ⟨v, hv⟩ := (Interpreter.run_spec hrun).2 i n h.node
  obtain ⟨operands, hres, heval⟩ := hv.eval
  have hwidth : b.bitCount = k.bitCount := by
    have hconf := conforms_of_run hrun h.index hb
    rwa [Value.conformsToType, beq_iff_eq] at hconf
  have heq : Value.bits b = Value.bits k ↔ b.toNat = c.key := by
    rw [← h.key, Value.bits.injEq, Bits.ext_iff]
    exact ⟨And.right, fun htoNat => ⟨hwidth, htoNat⟩⟩
  -- the truth of the equality, whatever the order of the operands
  have hequality : ∀ expected, Interpreter.equalityOp expected n.type operands =
      some (.bits (BitsOps.ofBool (decide (b.toNat = c.key) == expected))) := by
    intro expected
    have hkey := value_of_literalValue hrun h.literal
    rcases h.operands with hoperands | hoperands
    · rw [hoperands] at hres
      obtain ⟨x, xs, hx, hxs, rfl⟩ := resolve_take hres
      obtain ⟨y, ys, hy, hys, rfl⟩ := resolve_take hxs
      cases hys
      rw [hb] at hx
      rw [hkey] at hy
      cases hx
      cases hy
      rw [Interpreter.equalityOp, h.type, boolResult_one, decide_eq_decide.mpr heq]
    · rw [hoperands] at hres
      obtain ⟨x, xs, hx, hxs, rfl⟩ := resolve_take hres
      obtain ⟨y, ys, hy, hys, rfl⟩ := resolve_take hxs
      cases hys
      rw [hkey] at hx
      rw [hb] at hy
      cases hx
      cases hy
      rw [Interpreter.equalityOp, h.type, boolResult_one, decide_eq_decide.mpr (eq_comm.trans heq)]
  rw [hv.value]
  rcases h.ops with hop | hop
  · rw [Interpreter.evalNode, h.op] at heval
    rw [← heval, hop]
    exact hequality true
  · rw [Interpreter.evalNode, h.op] at heval
    rw [← heval, hop]
    exact hequality false

theorem binarySelect_eq_some {selector case0 case1 : ℕ}
    (h : binarySelect f node = some (selector, case0, case1)) :
    ∃ n, f.nodes[node]? = some n ∧ n.op = .sel false ∧ n.operands = [selector, case0, case1] := by
  unfold binarySelect at h
  split at h
  · rename_i n hn
    split at h
    · rename_i s c0 c1 hop hoperands
      cases h
      exact ⟨n, hn, hop, hoperands⟩
    · cases h
  · cases h

include hverify in
/-- The cases of a binary select have its type and come before it. -/
theorem typeAt_cases {selector case0 case1 : ℕ}
    (h : binarySelect f node = some (selector, case0, case1)) :
    ∃ t, typeAt f node = some t ∧ typeAt f case0 = some t ∧ typeAt f case1 = some t ∧
      case0 < node ∧ case1 < node := by
  obtain ⟨n, hn, hop, hoperands⟩ := binarySelect_eq_some h
  obtain ⟨types, htypes, hnode⟩ := Verifier.verifyNode_of_verify hverify hn
  rw [hoperands] at htypes
  obtain ⟨-, s, ts, hs, hts, rfl⟩ := operandTypes_cons htypes
  obtain ⟨hlt0, t0, us, ht0, hus, rfl⟩ := operandTypes_cons hts
  obtain ⟨hlt1, t1, vs, ht1, hvs, rfl⟩ := operandTypes_cons hus
  unfold Verifier.verifyNode at hnode
  rw [hop] at hnode
  unfold Verifier.selTypes at hnode
  cases s with
  | bits w =>
    simp only [Bool.and_eq_true, List.all_cons, decide_eq_true_eq,
      Bool.false_eq_true, if_false] at hnode
    obtain ⟨-, rfl, rfl, -⟩ := hnode
    exact ⟨n.type, by rw [typeAt, hn]; rfl, ht0, ht1, hlt0, hlt1⟩
  | token => cases hnode
  | tuple ts => cases hnode
  | array m t => cases hnode

include hrun in
/-- A binary select chooses by its selector. -/
theorem value_of_binarySelect {selector case0 case1 : ℕ}
    (h : binarySelect f node = some (selector, case0, case1)) {c : Bool}
    (hc : values[selector]? = some (.bits (BitsOps.ofBool c))) :
    values[node]? = values[if c then case1 else case0]? := by
  obtain ⟨n, hn, hop, hoperands⟩ := binarySelect_eq_some h
  obtain ⟨v, hv⟩ := (Interpreter.run_spec hrun).2 node n hn
  obtain ⟨operands, hres, heval⟩ := hv.eval
  rw [hoperands] at hres
  obtain ⟨s, ss, hs, hss, rfl⟩ := resolve_take hres
  obtain ⟨v0, us, hv0, hus, rfl⟩ := resolve_take hss
  obtain ⟨v1, vs, hv1, hvs, rfl⟩ := resolve_take hus
  cases hvs
  rw [hc] at hs
  cases hs
  rw [Interpreter.evalNode, hop] at heval
  rw [hv.value, ← heval]
  cases c with
  | false => exact hv0.symm
  | true => exact hv1.symm

/-- The parts of a link. -/
theorem matchLink_eq_some {index : Option ℕ} (h : matchLink f node index = some link) :
    ∃ selector case0 case1 c, binarySelect f node = some (selector, case0, case1) ∧
      matchCompareEqAgainstUint64 f selector = some c ∧
      literalValue f (if c.comparisonOp = .eq then case1 else case0) = some link.value ∧
      (∀ i, index = some i → i = link.index) ∧ link.node = node ∧ link.index = c.index ∧
      link.key = c.key ∧ link.next = if c.comparisonOp = .eq then case0 else case1 := by
  unfold matchLink at h
  split at h
  · cases h
  · rename_i selector case0 case1 hselect
    split at h
    · cases h
    · rename_i c hc
      dsimp only at h
      split at h
      · cases h
      · rename_i value hvalue
        split at h
        · cases h
        · rename_i hindex
          cases h
          refine ⟨selector, case0, case1, c, hselect, hc, hvalue, ?_, rfl, rfl, rfl, rfl⟩
          rintro i rfl
          simpa using hindex

/-- What the verifier says of a link: the key is a value of the index, and the select, the value
and what follows have one type. -/
structure LinkTyped (f : FunctionBase) (link : Link) (w : ℕ) (t : Ty) : Prop where
  index : typeAt f link.index = some (.bits w)
  key_lt : link.key < 2 ^ w
  key_lt_word : link.key < 2 ^ 64
  node : typeAt f link.node = some t
  value : link.value.conformsToType t = true
  next : typeAt f link.next = some t
  next_lt : link.next < link.node

section

include hverify

theorem linkTyped {index : Option ℕ} (h : matchLink f node index = some link) :
    ∃ w t, LinkTyped f link w t := by
  obtain ⟨selector, case0, case1, c, hselect, hc, hvalue, -, hnode, hindex, hkey, hnext⟩ :=
    matchLink_eq_some h
  obtain ⟨n, keyNode, k, hcompare⟩ := comparesWith hverify hc
  obtain ⟨t, hsel, ht0, ht1, hlt0, hlt1⟩ := typeAt_cases hverify hselect
  have hkeylt : link.key < 2 ^ k.bitCount := by
    rw [hkey, ← hcompare.key]
    exact k.isLt
  have hword : link.key < 2 ^ 64 := hkey ▸ hcompare.key_lt
  by_cases hop : c.comparisonOp = .eq
  · rw [if_pos hop] at hvalue hnext
    exact ⟨k.bitCount, t, hindex ▸ hcompare.index, hkeylt, hword, hnode ▸ hsel,
      conforms_of_literalValue hverify hvalue ht1, hnext ▸ ht0, by rwa [hnext, hnode]⟩
  · rw [if_neg hop] at hvalue hnext
    exact ⟨k.bitCount, t, hindex ▸ hcompare.index, hkeylt, hword, hnode ▸ hsel,
      conforms_of_literalValue hverify hvalue ht0, hnext ▸ ht1, by rwa [hnext, hnode]⟩

include hrun in
/-- A link is the choice `index == key ? value : next`. -/
theorem value_of_link {index : Option ℕ} (h : matchLink f node index = some link) {b : Bits}
    (hb : values[link.index]? = some (.bits b)) :
    
    values[node]? = if b.toNat = link.key then some link.value else values[link.next]? := by
  obtain ⟨selector, case0, case1, c, hselect, hc, hvalue, -, -, hindex, hkey, hnext⟩ :=
    matchLink_eq_some h
  obtain ⟨n, keyNode, k, hcompare⟩ := comparesWith hverify hc
  rw [hindex] at hb
  rw [value_of_binarySelect hrun hselect (hcompare.value hrun hb), hkey, hnext,
    ← value_of_literalValue hrun hvalue]
  by_cases hop : c.comparisonOp = .eq
  · by_cases hbk : b.toNat = c.key
    · simp [hbk]
    · simp [hbk]
  · by_cases hbk : b.toNat = c.key
    · simp [hbk]
    · simp [hbk]

end

end Links

/-! ## A chain of links -/

/-- `links` lead from one node to another, all over one index. -/
inductive IsChain (f : FunctionBase) (index : ℕ) : ℕ → List Link → ℕ → Prop
  | nil (node : ℕ) : IsChain f index node [] node
  | cons {node last : ℕ} {link : Link} {links : List Link} :
      matchLink f node (some index) = some link → IsChain f index link.next links last →
      IsChain f index node (link :: links) last

section Chains

variable {index node last : ℕ} {links : List Link} (h : IsChain f index node links last)
  (hne : links ≠ [])

include hrun in
include hverify in
/-- The first link decides about its key, and leaves the other keys to the rest. -/
theorem IsChain.value (h : IsChain f index node links last) {b : Bits}
    (hb : values[index]? = some (.bits b)) :
    values[node]? =
      ((links.find? fun link => link.key == b.toNat).map (·.value)).or values[last]? := by
  induction h with
  | nil node => rfl
  | @cons node last link links hlink _ ih =>
    obtain ⟨-, -, -, -, -, -, -, hindex, -⟩ := matchLink_eq_some hlink
    rw [value_of_link hverify hrun hlink (by rwa [← hindex index rfl]), List.find?_cons]
    by_cases hkey : b.toNat = link.key
    · rw [if_pos hkey, hkey, beq_self_eq_true]
      rfl
    · rw [if_neg hkey, ih, beq_false_of_ne (Ne.symm hkey)]

include hverify h hne in
/-- The links of a chain have one type and one width of the index. -/
theorem IsChain.typed :
    ∃ w t, typeAt f index = some (.bits w) ∧ typeAt f node = some t ∧ typeAt f last = some t ∧
      ∀ link ∈ links, LinkTyped f link w t := by
  induction h with
  | nil node => exact absurd rfl hne
  | @cons node last link links hlink hrest ih =>
    obtain ⟨w, t, htyped⟩ := linkTyped hverify hlink
    obtain ⟨-, -, -, -, -, -, -, hindex, hnode, -⟩ := matchLink_eq_some hlink
    have hw : typeAt f index = some (.bits w) := hindex index rfl ▸ htyped.index
    have ht : typeAt f node = some t := hnode ▸ htyped.node
    rcases List.eq_nil_or_concat links with rfl | hconcat
    · cases hrest
      exact ⟨w, t, hw, ht, htyped.next, by simpa using htyped⟩
    · obtain ⟨w', t', hw', ht', hlast, hall⟩ := ih (by
        rintro rfl
        obtain ⟨_, _, hnil⟩ := hconcat
        simp at hnil)
      rw [hw] at hw'
      rw [htyped.next] at ht'
      cases hw'
      cases ht'
      exact ⟨w, t, hw, ht, hlast, List.forall_mem_cons.mpr ⟨htyped, hall⟩⟩

include h hne in
/-- The last link leads to the end of the chain. -/
theorem IsChain.getLast_next :
    (links.getLast hne).next = last := by
  induction h with
  | nil node => exact absurd rfl hne
  | @cons node last link links _ hrest ih =>
    cases hrest with
    | nil _ => rfl
    | cons hlink hrest =>
      exact ih (List.cons_ne_nil _ _)

end Chains

/-! ## The map of keys -/

section Maps

variable {links : List Link} {m : KeyMap} {map : List (ℕ × Value)}

/-- The keys of a map. -/
abbrev keys (map : List (ℕ × Value)) : List ℕ := map.map Prod.fst

/-- What the loop over the links has gathered: each key with the value of its first link, and
the bounds of the keys. -/
structure Gathered (links : List Link) (m : KeyMap) : Prop where
  distinct : DenseTable.Distinct m.map
  lookup : ∀ k, m.map.lookup k = (links.find? fun link => link.key == k).map (·.value)
  minKey_le : ∀ k ∈ keys m.map, m.minKey ≤ k
  le_maxKey : ∀ k ∈ keys m.map, k ≤ m.maxKey
  minKey_mem : links ≠ [] → m.minKey ∈ keys m.map
  maxKey_mem : links ≠ [] → m.maxKey ∈ keys m.map
  initial : links = [] → m = ⟨[], 2 ^ 64 - 1, 0⟩

theorem Gathered.insert (h : Gathered links m) {link : Link} (hkey : link.key < 2 ^ 64) :
    Gathered (links ++ [link]) (m.insert link) := by
  unfold KeyMap.insert
  by_cases hsome : (m.map.lookup link.key).isSome = true
  · -- the key is known: the new link is shadowed
    rw [if_pos hsome]
    have hmem := DenseTable.lookup_isSome_iff.mp hsome
    have hne : links ≠ [] := by
      rintro rfl
      rw [h.initial rfl] at hmem
      cases hmem
    refine ⟨h.distinct, fun k => ?_, h.minKey_le, h.le_maxKey, fun _ => h.minKey_mem hne,
      fun _ => h.maxKey_mem hne, fun hnil => absurd hnil (by simp)⟩
    rw [h.lookup k, List.find?_append]
    by_cases hk : link.key = k
    · rw [h.lookup link.key, hk, Option.isSome_map] at hsome
      obtain ⟨first, hfirst⟩ := Option.isSome_iff_exists.mp hsome
      rw [hfirst, Option.some_or]
    · rw [List.find?_singleton, beq_false_of_ne hk, if_neg Bool.false_ne_true, Option.or_none]
  · rw [if_neg hsome]
    rw [Option.not_isSome_iff_eq_none] at hsome
    have hkeys : keys (m.map ++ [(link.key, link.value)]) = keys m.map ++ [link.key] :=
      List.map_append
    refine ⟨h.distinct.append_singleton hsome _, fun k => ?_, ?_, ?_, fun _ => ?_, fun _ => ?_,
      fun hnil => absurd hnil (by simp)⟩
    · rw [DenseTable.lookup_append_singleton, h.lookup k, List.find?_append, Option.map_or,
        List.find?_singleton]
      by_cases hk : k = link.key
      · rw [if_pos hk, hk, beq_self_eq_true, if_pos rfl, Option.map_some]
      · rw [if_neg hk, beq_false_of_ne (Ne.symm hk), if_neg Bool.false_ne_true, Option.map_none]
    · intro k hk
      rw [hkeys, List.mem_append, List.mem_singleton] at hk
      rcases hk with hk | rfl
      · exact (Nat.min_le_left _ _).trans (h.minKey_le k hk)
      · exact Nat.min_le_right _ _
    · intro k hk
      rw [hkeys, List.mem_append, List.mem_singleton] at hk
      rcases hk with hk | rfl
      · exact (h.le_maxKey k hk).trans (Nat.le_max_left _ _)
      · exact Nat.le_max_right _ _
    · rw [hkeys, List.mem_append, List.mem_singleton]
      rcases List.eq_nil_or_concat links with hnil | hconcat
      · rw [h.initial hnil]
        right
        show min (2 ^ 64 - 1) link.key = link.key
        omega
      · have hmem := h.minKey_mem (by rintro rfl; obtain ⟨_, _, hnil⟩ := hconcat; simp at hnil)
        rcases Nat.le_total m.minKey link.key with hle | hle
        · left
          rwa [Nat.min_eq_left hle]
        · right
          exact Nat.min_eq_right hle
    · rw [hkeys, List.mem_append, List.mem_singleton]
      rcases List.eq_nil_or_concat links with hnil | hconcat
      · rw [h.initial hnil]
        right
        exact Nat.zero_max _
      · have hmem := h.maxKey_mem (by rintro rfl; obtain ⟨_, _, hnil⟩ := hconcat; simp at hnil)
        rcases Nat.le_total m.maxKey link.key with hle | hle
        · right
          exact Nat.max_eq_right hle
        · left
          rwa [Nat.max_eq_left hle]

/-- The loop over all links. -/
theorem gathered (hkeys : ∀ link ∈ links, link.key < 2 ^ 64) : Gathered links (gather links) := by
  have hinit : Gathered [] ⟨[], 2 ^ 64 - 1, 0⟩ :=
    ⟨List.nodup_nil, fun _ => rfl, fun _ hk => absurd hk (List.not_mem_nil),
      fun _ hk => absurd hk (List.not_mem_nil), fun hne => absurd rfl hne,
      fun hne => absurd rfl hne, fun _ => rfl⟩
  have hloop : ∀ done m, Gathered done m → (∀ link ∈ links, link.key < 2 ^ 64) →
      Gathered (done ++ links) (links.foldl KeyMap.insert m) := by
    clear hkeys hinit
    induction links with
    | nil =>
      intro done m h _
      rwa [List.append_nil]
    | cons link links ih =>
      intro done m h hkeys
      obtain ⟨hkey, hrest⟩ := List.forall_mem_cons.mp hkeys
      have := ih (done ++ [link]) (m.insert link) (h.insert hkey) hrest
      rwa [List.append_assoc] at this
  exact hloop [] _ hinit hkeys

/-- The entries of a map come from links. -/
theorem Gathered.exists_link (h : Gathered links m) {k : ℕ} {value : Value}
    (hlookup : m.map.lookup k = some value) :
    ∃ link ∈ links, link.key = k ∧ link.value = value := by
  rw [h.lookup k] at hlookup
  obtain ⟨link, hfind, hvalue⟩ := Option.map_eq_some_iff.mp hlookup
  exact ⟨link, List.mem_of_find?_eq_some hfind, by simpa using List.find?_some hfind, hvalue⟩

/-- Every checked write succeeds when the keys are in range. -/
theorem foldlM_storeChecked {values : List (Option Value)}
    (hlt : ∀ k ∈ keys map, k < values.length) :
    map.foldlM storeChecked values = .ok (map.foldl DenseTable.store values) := by
  induction map generalizing values with
  | nil => rfl
  | cons e map ih =>
    rw [keys, List.map_cons, List.forall_mem_cons] at hlt
    rw [List.foldlM_cons, storeChecked, if_pos hlt.1]
    apply ih
    rw [DenseTable.store, List.length_set]
    exact hlt.2

/-- `map_to_array_value` of a map whose keys are all the numbers below its size. -/
theorem mapToArrayValue_eq (h : DenseTable.Distinct map) (hpos : map.length ≠ 0)
    (hlt : ∀ k ∈ keys map, k < map.length) {t : Ty}
    (hconf : ∀ k value, map.lookup k = some value → value.conformsToType t = true) :
    ∃ dense, mapToArrayValue map = .ok (.array dense) ∧ dense.length = map.length ∧
      ∀ k, dense[k]? = map.lookup k := by
  obtain ⟨dense, hlength, hget, hfold⟩ := DenseTable.exists_dense h hlt
  refine ⟨dense, ?_, hlength, hget⟩
  have hall : (dense.map some).all Option.isSome = true := by simp
  have hvalues : (dense.map some).filterMap id = dense := by
    rw [List.filterMap_map]
    exact List.filterMap_some
  have hdense : Value.conformToType dense t = true := by
    rw [Flattening.conformToType_iff]
    intro v hv
    obtain ⟨k, hk⟩ := List.mem_iff_getElem?.mp hv
    exact hconf k v (hget k ▸ hk)
  rw [mapToArrayValue, foldlM_storeChecked (by simpa using hlt), hfold]
  show arrayOfWritten (dense.map some) = _
  rw [arrayOfWritten, if_pos hall, hvalues]
  exact Flattening.valueArray_eq hdense (by omega)

/-! ## The tables -/

/-- The element which a table has for an index, and the saturation of the index. -/
def Selects (table : Value) (w : ℕ) (value : ℕ → Option Value) : Prop :=
  ∀ b : Bits, b.bitCount = w → Interpreter.arrayIndex [table, .bits b] = value b.toNat

theorem arrayIndex_dense (dense : List Value) (b : Bits) :
    Interpreter.arrayIndex [.array dense, .bits b] = dense[min b.toNat (dense.length - 1)]? := by
  show Interpreter.arrayIndexFrom (.array dense) [b] = _
  rw [Interpreter.arrayIndexFrom, Range.bitsToBoundedUint64_eq]
  cases dense[min b.toNat (dense.length - 1)]? with
  | none => rfl
  | some v => rfl

/-- The keys cover the index space, so that the end of the chain does not matter. -/
theorem coveredTable_selects (h : Gathered links m) {w : ℕ} {t : Ty}
    (hkeys : ∀ link ∈ links, link.key < 2 ^ w ∧ link.value.conformsToType t = true)
    (hsize : m.map.length = 2 ^ w) (other : Option Value) :
    ∃ table, coveredTable m m.map.length = .ok (some table) ∧ Selects table w fun k =>
        ((links.find? fun link => link.key == k).map (·.value)).or other := by
  have hpos : 0 < 2 ^ w := Nat.two_pow_pos w
  have hlt : ∀ k ∈ keys m.map, k < m.map.length := by
    intro k hk
    obtain ⟨value, hvalue⟩ := Option.isSome_iff_exists.mp (DenseTable.lookup_isSome_iff.mpr hk)
    obtain ⟨link, hlink, rfl, -⟩ := h.exists_link hvalue
    rw [hsize]
    exact (hkeys link hlink).1
  have hmem : ∀ k, k < m.map.length → k ∈ keys m.map := fun k hk =>
    h.distinct.mem_of_lt hlt rfl hk
  have hmin : m.minKey = 0 := Nat.le_zero.mp (h.minKey_le 0 (hmem 0 (by omega)))
  have hne : links ≠ [] := by
    rintro rfl
    rw [h.initial rfl] at hsize
    simp only [List.length_nil] at hsize
    omega
  have hmax : m.maxKey = m.map.length - 1 := by
    have hge := h.le_maxKey _ (hmem (m.map.length - 1) (by omega))
    have hle := hlt _ (h.maxKey_mem hne)
    omega
  obtain ⟨dense, harray, hlength, hget⟩ := mapToArrayValue_eq h.distinct (by omega) hlt
    (t := t) fun k value hk => by
      obtain ⟨link, hlink, -, rfl⟩ := h.exists_link hk
      exact (hkeys link hlink).2
  refine ⟨.array dense, ?_, fun b hb => ?_⟩
  · rw [coveredTable, if_neg (not_not.mpr hmin), if_neg (not_not.mpr hmax), harray]
    rfl
  · have hblt := b.isLt
    rw [hb] at hblt
    obtain ⟨value, hvalue⟩ := Option.isSome_iff_exists.mp
      (DenseTable.lookup_isSome_iff.mpr (hmem b.toNat (by omega)))
    rw [arrayIndex_dense, Nat.min_eq_left (by omega), hget]
    show _ = ((links.find? fun link => link.key == b.toNat).map (·.value)).or other
    rw [← h.lookup, hvalue, Option.some_or]

theorem lookup_foldl_fillHole (map : List (ℕ × Value)) (elseValue : Value) (n j : ℕ) :
    ((List.range n).foldl (fillHole elseValue) map).lookup j =
      (map.lookup j).or (if j < n then some elseValue else none) := by
  induction n with
  | zero => simp
  | succ n ih =>
    rw [List.range_succ, List.foldl_append, List.foldl_cons, List.foldl_nil, fillHole]
    by_cases hj : j = n
    · subst hj
      rw [if_neg (lt_irrefl j), Option.or_none] at ih
      rw [if_pos (Nat.lt_succ_self j)]
      split
      · rename_i hsome
        rw [ih] at hsome ⊢
        obtain ⟨v, hv⟩ := Option.isSome_iff_exists.mp hsome
        rw [hv, Option.some_or]
      · rw [DenseTable.lookup_append_singleton, ih, if_pos rfl]
    · have hlt : j < n + 1 ↔ j < n := by omega
      rw [if_congr hlt rfl rfl, ← ih]
      split
      · rfl
      · rw [DenseTable.lookup_append_singleton, if_neg hj, Option.or_none]

theorem distinct_foldl_fillHole (h : DenseTable.Distinct map) (elseValue : Value) (is : List ℕ) :
    DenseTable.Distinct (is.foldl (fillHole elseValue) map) := by
  induction is generalizing map with
  | nil => exact h
  | cons i is ih =>
    apply ih
    rw [fillHole]
    split
    · exact h
    · rename_i hnone
      exact h.append_singleton (Option.not_isSome_iff_eq_none.mp hnone) elseValue

/-- The holes of the index space are filled with the end of the chain. -/
theorem filledTable_selects (h : Gathered links m) {w : ℕ} {t : Ty}
    (hkeys : ∀ link ∈ links, link.key < 2 ^ w ∧ link.value.conformsToType t = true)
    {elseValue : Value} (helse : elseValue.conformsToType t = true) :
    ∃ table, filledTable m (2 ^ w) elseValue = .ok (some table) ∧ Selects table w fun k =>
        ((links.find? fun link => link.key == k).map (·.value)).or (some elseValue) := by
  have hpos : 0 < 2 ^ w := Nat.two_pow_pos w
  have hdistinct := distinct_foldl_fillHole h.distinct elseValue (List.range (2 ^ w))
  have hlookup := lookup_foldl_fillHole m.map elseValue (2 ^ w)
  have hmem : ∀ k, k ∈ keys ((List.range (2 ^ w)).foldl (fillHole elseValue) m.map) ↔
      k < 2 ^ w := by
    intro k
    rw [← DenseTable.lookup_isSome_iff, hlookup]
    constructor
    · intro hsome
      by_contra hge
      rw [if_neg hge, Option.or_none] at hsome
      obtain ⟨value, hvalue⟩ := Option.isSome_iff_exists.mp hsome
      obtain ⟨link, hlink, rfl, -⟩ := h.exists_link hvalue
      exact hge (hkeys link hlink).1
    · intro hlt
      rw [if_pos hlt, Option.isSome_or, Option.isSome_some, Bool.or_true]
  have hlength := hdistinct.length_eq hmem
  obtain ⟨dense, harray, hdense, hget⟩ := mapToArrayValue_eq hdistinct (by omega)
    (fun k hk => hlength.symm ▸ (hmem k).mp hk) (t := t) fun k value hk => by
      rw [hlookup] at hk
      rcases Option.or_eq_some_iff.mp hk with hk | ⟨-, hk⟩
      · obtain ⟨link, hlink, -, rfl⟩ := h.exists_link hk
        exact (hkeys link hlink).2
      · split at hk
        · cases hk
          exact helse
        · cases hk
  refine ⟨.array dense, ?_, fun b hb => ?_⟩
  · unfold filledTable
    rw [if_neg (not_not.mpr hlength), harray]
    rfl
  · have hblt := b.isLt
    rw [hb] at hblt
    rw [arrayIndex_dense, Nat.min_eq_left (by omega), hget, hlookup, if_pos hblt, h.lookup]

/-- The end of the chain stands behind the greatest key, where larger indices are cut. -/
theorem saturatingTable_selects (h : Gathered links m) (hne : links ≠ []) {t : Ty}
    (hkeys : ∀ link ∈ links, link.key < 2 ^ 64 ∧ link.value.conformsToType t = true)
    {elseValue : Value} (helse : elseValue.conformsToType t = true)
    (hsize : m.map.length = (m.maxKey + 1) % 2 ^ 64) (w : ℕ) :
    ∃ table, saturatingTable m elseValue = .ok (some table) ∧ Selects table w fun k =>
        ((links.find? fun link => link.key == k).map (·.value)).or (some elseValue) := by
  have hpos : 0 < m.map.length := by
    have hmem := h.maxKey_mem hne
    have := List.length_pos_of_mem hmem
    rwa [List.length_map] at this
  have hmaxlt : m.maxKey < 2 ^ 64 := by
    obtain ⟨value, hvalue⟩ := Option.isSome_iff_exists.mp
      (DenseTable.lookup_isSome_iff.mpr (h.maxKey_mem hne))
    obtain ⟨link, hlink, hkey, -⟩ := h.exists_link hvalue
    exact hkey ▸ (hkeys link hlink).1
  -- the number of keys is the greatest key and one, without a wrap
  have hwrap : (m.maxKey + 1) % 2 ^ 64 = m.maxKey + 1 := by
    by_cases htop : m.maxKey + 1 = 2 ^ 64
    · omega
    · exact Nat.mod_eq_of_lt (by omega)
  rw [hwrap] at hsize
  have hlt : ∀ k ∈ keys m.map, k < m.maxKey + 1 := fun k hk => Nat.lt_succ_of_le (h.le_maxKey k hk)
  have hmem : ∀ k, k < m.maxKey + 1 → k ∈ keys m.map := fun k hk =>
    h.distinct.mem_of_lt hlt hsize hk
  have hmin : m.minKey = 0 := Nat.le_zero.mp (h.minKey_le 0 (hmem 0 (by omega)))
  have hnone : m.map.lookup (m.maxKey + 1) = none := by
    rw [← Option.not_isSome_iff_eq_none, DenseTable.lookup_isSome_iff]
    exact fun hk => absurd (hlt _ hk) (lt_irrefl _)
  have hassign : assign m.map (m.maxKey + 1) elseValue = m.map ++ [(m.maxKey + 1, elseValue)] := by
    rw [assign, List.filter_eq_self.mpr]
    intro e he
    rw [bne_iff_ne]
    exact Nat.ne_of_lt (hlt _ (List.mem_map_of_mem he))
  have hlookup : ∀ j, (assign m.map (m.maxKey + 1) elseValue).lookup j =
      (m.map.lookup j).or (if j = m.maxKey + 1 then some elseValue else none) := by
    intro j
    rw [hassign, DenseTable.lookup_append_singleton]
  have hlength : (assign m.map (m.maxKey + 1) elseValue).length = m.maxKey + 2 := by
    rw [hassign, List.length_append, hsize, List.length_singleton]
  have hdistinct : DenseTable.Distinct (assign m.map (m.maxKey + 1) elseValue) := by
    rw [hassign]
    exact h.distinct.append_singleton hnone elseValue
  obtain ⟨dense, harray, hdense, hget⟩ := mapToArrayValue_eq hdistinct (by omega) (by
      intro k hk
      rw [hassign, keys, List.map_append, List.mem_append] at hk
      rcases hk with hk | hk
      · have := hlt k hk
        omega
      · have := List.mem_singleton.mp hk
        omega)
    (t := t) fun k value hk => by
      rw [hlookup] at hk
      rcases Option.or_eq_some_iff.mp hk with hk | ⟨-, hk⟩
      · obtain ⟨link, hlink, -, rfl⟩ := h.exists_link hk
        exact (hkeys link hlink).2
      · split at hk
        · cases hk
          exact helse
        · cases hk
  refine ⟨.array dense, ?_, fun b _ => ?_⟩
  · rw [saturatingTable, if_neg (not_not.mpr hmin), hwrap, harray]
    rfl
  · rw [arrayIndex_dense, hdense, hlength, hget, hlookup]
    show _ = ((links.find? fun link => link.key == b.toNat).map (·.value)).or (some elseValue)
    rw [← h.lookup]
    by_cases hb : b.toNat < m.maxKey + 1
    · -- the index is a key
      rw [Nat.min_eq_left (by omega)]
      obtain ⟨value, hvalue⟩ := Option.isSome_iff_exists.mp
        (DenseTable.lookup_isSome_iff.mpr (hmem _ hb))
      rw [hvalue, Option.some_or, Option.some_or]
    · -- the index lies behind all keys
      have hbnone : m.map.lookup b.toNat = none := by
        rw [← Option.not_isSome_iff_eq_none, DenseTable.lookup_isSome_iff]
        exact fun hk => hb (hlt _ hk)
      rw [show min b.toNat (m.maxKey + 2 - 1) = m.maxKey + 1 by omega, hnone, if_pos rfl, hbnone]

/-- Every table, whichever way the keys lie. -/
theorem linksToTableFrom_selects (h : Gathered links m) (hne : links ≠ []) {w : ℕ} {t : Ty}
    (hkeys : ∀ link ∈ links, link.key < 2 ^ w ∧ link.value.conformsToType t = true)
    (hword : ∀ link ∈ links, link.key < 2 ^ 64) {elseValue : Option Value}
    (helse : ∀ value ∈ elseValue, value.conformsToType t = true) (other : Option Value)
    (hother : ∀ value ∈ elseValue, other = some value) :
    ∃ result, linksToTableFrom m (indexSpaceSize w) elseValue = .ok result ∧
      ∀ table ∈ result, Selects table w fun k =>
        ((links.find? fun link => link.key == k).map (·.value)).or other := by
  have hspace : ∀ size, indexSpaceSize w = some size → size = 2 ^ w := by
    intro size hsize
    rw [indexSpaceSize] at hsize
    split at hsize
    · exact (Option.some.inj hsize).symm
    · cases hsize
  unfold linksToTableFrom
  by_cases hfull : indexSpaceSize w = some m.map.length
  · obtain ⟨table, htable, hselects⟩ :=
      coveredTable_selects h hkeys (hspace _ hfull) other
    refine ⟨some table, by rw [if_pos hfull, htable], ?_⟩
    intro _ hmem
    cases hmem
    exact hselects
  · rw [if_neg hfull]
    cases elseValue with
    | none => exact ⟨none, rfl, fun _ hmem => by cases hmem⟩
    | some elseValue =>
      rw [hother elseValue rfl]
      dsimp only
      split
      · -- more than half of the index space
        rename_i size hsize
        obtain ⟨hsize, -⟩ := Option.filter_eq_some_iff.mp hsize
        obtain ⟨table, htable, hselects⟩ :=
          filledTable_selects h hkeys (helse elseValue rfl)
        rw [hspace size hsize]
        refine ⟨some table, htable, ?_⟩
        intro _ hmem
        cases hmem
        exact hselects
      · split
        · rename_i hdense
          obtain ⟨table, htable, hselects⟩ := saturatingTable_selects h hne
            (fun link hlink => ⟨hword link hlink, (hkeys link hlink).2⟩)
            (helse elseValue rfl) hdense w
          refine ⟨some table, htable, ?_⟩
          intro _ hmem
          cases hmem
          exact hselects
        · exact ⟨none, rfl, fun _ hmem => by cases hmem⟩

end Maps

/-! ## An example -/

/-- `index != 2 ? (index == 1 ? (index == 0 ? 13 : 10) : 11) : 12`, spelled as the pass finds
it: the literal on either side, a comparison of either kind. -/
def threeSelects : FunctionBase where
  nodes := [
    ⟨.param, [], .bits 4⟩,
    ⟨.literal (.bits (Bits.ofNat 4 0)), [], .bits 4⟩,
    ⟨.literal (.bits (Bits.ofNat 4 1)), [], .bits 4⟩,
    ⟨.literal (.bits (Bits.ofNat 4 2)), [], .bits 4⟩,
    ⟨.literal (.bits (Bits.ofNat 8 10)), [], .bits 8⟩,
    ⟨.literal (.bits (Bits.ofNat 8 11)), [], .bits 8⟩,
    ⟨.literal (.bits (Bits.ofNat 8 12)), [], .bits 8⟩,
    ⟨.literal (.bits (Bits.ofNat 8 13)), [], .bits 8⟩,
    ⟨.eq, [0, 1], .bits 1⟩,
    ⟨.eq, [2, 0], .bits 1⟩,
    ⟨.ne, [0, 3], .bits 1⟩,
    ⟨.sel false, [8, 7, 4], .bits 8⟩,
    ⟨.sel false, [9, 11, 5], .bits 8⟩,
    ⟨.sel false, [10, 6, 12], .bits 8⟩]
  implicitUses := [13]

/-- The links of `threeSelects`. -/
def threeLinks : List Link :=
  [⟨13, 0, 2, .bits (Bits.ofNat 8 12), 12⟩, ⟨12, 0, 1, .bits (Bits.ofNat 8 11), 11⟩,
    ⟨11, 0, 0, .bits (Bits.ofNat 8 10), 7⟩]

/-! ## The conversion of a chain -/

section Conversion

variable {index node last : ℕ} {links : List Link} (h : IsChain f index node links last)
  (hne : links ≠ [])

include hverify h hne in
/-- The conversion of a chain fails no check, and a table which it returns selects, for every
value of the index, the value of the first link with this key, or else what ends the chain. -/
theorem linksToTable_selects {w : ℕ} (hw : typeAt f index = some (.bits w)) :
    ∃ result, linksToTable f links = .ok result ∧
      ∀ table ∈ result, ∀ other, (∀ value ∈ literalValue f last, other = some value) →
        Selects table w fun k =>
          ((links.find? fun link => link.key == k).map (·.value)).or other := by
  obtain ⟨w', t, hw', -, hlast, htyped⟩ := h.typed hverify hne
  rw [hw] at hw'
  cases hw'
  have hgathered : Gathered links (gather links) :=
    gathered fun link hlink => (htyped link hlink).key_lt_word
  have hconf : ∀ value ∈ literalValue f last, value.conformsToType t = true :=
    fun value hvalue => conforms_of_literalValue hverify hvalue hlast
  have hfrom := fun other => linksToTableFrom_selects hgathered hne
    (fun link hlink => ⟨(htyped link hlink).key_lt, (htyped link hlink).value⟩)
    (fun link hlink => (htyped link hlink).key_lt_word) hconf other
  have hwidth : ∀ link ∈ links, flatBitCount f link.index = w := by
    intro link hlink
    obtain ⟨n, hn, htype⟩ := Option.map_eq_some_iff.mp (htyped link hlink).index
    rw [flatBitCount, hn]
    dsimp only
    rw [htype]
    rfl
  have hlinks : linksToTable f links =
      linksToTableFrom (gather links) (indexSpaceSize w) (literalValue f last) := by
    obtain ⟨first, rest, rfl⟩ := List.exists_cons_of_ne_nil hne
    rw [linksToTable, hwidth first List.mem_cons_self, h.getLast_next hne]
  rw [hlinks]
  obtain ⟨result, hresult, -⟩ := hfrom (literalValue f last) fun value hvalue => hvalue
  refine ⟨result, hresult, fun table htable other hother => ?_⟩
  obtain ⟨result', hresult', hselects⟩ := hfrom other hother
  rw [hresult] at hresult'
  cases hresult'
  exact hselects table htable

/-- The conversion of a chain of selects to a table fails none of its checks, and the array which
it returns has, at the value of the index, the value of the chain. -/
theorem linksToTable_arrayIndex (hverify : Verifier.verify f = true)
    (h : IsChain f index node links last) (hne : links ≠ []) :
    ∃ result, linksToTable f links = .ok result ∧
      ∀ table ∈ result, ∀ env values, Interpreter.run env f = some values →
        ∃ i, values[index]? = some i ∧ Interpreter.arrayIndex [table, i] = values[node]? := by
  obtain ⟨w, t, hw, -, -, -⟩ := h.typed hverify hne
  obtain ⟨result, hresult, hselects⟩ := linksToTable_selects hverify h hne hw
  refine ⟨result, hresult, fun table htable env values hrun => ?_⟩
  obtain ⟨n, hn, htype⟩ := Option.map_eq_some_iff.mp hw
  obtain ⟨v, hv⟩ := (Interpreter.run_spec hrun).2 index n hn
  have hconf := hv.conforms
  rw [htype] at hconf
  cases v with
  | bits b =>
    rw [Value.conformsToType, beq_iff_eq] at hconf
    refine ⟨.bits b, hv.value, ?_⟩
    rw [hselects table htable values[last]? (fun value => value_of_literalValue hrun) b hconf,
      h.value hverify hrun hv.value]
  | token => cases hconf
  | tuple ts => cases hconf
  | array vs => cases hconf

theorem linksToTable_arrayIndex_threeLinks :
    ∃ result, linksToTable threeSelects threeLinks = .ok result ∧
      ∀ table ∈ result, ∀ env values, Interpreter.run env threeSelects = some values →
        ∃ i, values[0]? = some i ∧ Interpreter.arrayIndex [table, i] = values[13]? :=
  linksToTable_arrayIndex (by decide) (.cons rfl (.cons rfl (.cons rfl (.nil 7))))
    (List.cons_ne_nil _ _)

/-- The table saturates at the value which ends the chain. -/
example : linksToTable threeSelects threeLinks = .ok (some (.array
    [.bits (Bits.ofNat 8 10), .bits (Bits.ofNat 8 11), .bits (Bits.ofNat 8 12),
      .bits (Bits.ofNat 8 13)])) := rfl

end Conversion

end TableSwitch

end Xls
