/-
# Rules for selects, clamps, differences and extensions

A select with two cases has a selector of one bit and no default; a clamp is such a select over a
comparison with a literal.  A difference with a literal is a sum, and an extension is a
concatenation.

* `two_way` : selects with two cases;
* `clampForm_cases`, `clampForm_spec` : the forms of a clamp;
* `sound_invertedSelect` … `zeroExtension_spec` : the rules.
-/
import Xls.Passes.CanonicalizationOperands
import Xls.Passes.SparsifySelect

namespace Xls

namespace Canonicalization

open NodeGraph
open SparsifySelect (SelTypes selTypes_of_verify selectCases selectDefault)

variable {env : Env} {g : NodeGraph} {i k : ℕ} {val : ℕ → Value} {n : Vertex NodeLabel}
  {t s type : Ty} {w selector default : ℕ} {d : NodeLabel} {x y b : Bits} {v : Value} {op : Op}
  {rewrite : Rewrite} {cases : List ℕ}

/-! ## Selects -/

theorem vertex_of_asSelect {default : Option ℕ} (h : asSelect g k = some (selector, cases, default)) :
    ∃ hasDefault type arms,
      g.vertex k = some ⟨⟨.logic (.core (.sel hasDefault)), type⟩, selector :: arms⟩ ∧
        cases = selectCases hasDefault arms ∧ default = selectDefault hasDefault arms := by
  unfold asSelect at h
  split at h
  · rename_i hasDefault type s arms hvertex
    obtain ⟨rfl, harms⟩ := Prod.mk.inj (Option.some.inj h)
    refine ⟨hasDefault, type, arms, hvertex, ?_⟩
    cases hasDefault with
    | false => exact ⟨(congrArg Prod.fst harms).symm, (congrArg Prod.snd harms).symm⟩
    | true => exact ⟨(congrArg Prod.fst harms).symm, (congrArg Prod.snd harms).symm⟩
  · cases h

/-- The checks of a select. -/
theorem verify_select {hasDefault : Bool} {arms : List ℕ}
    (h : g.verifyVertex ⟨⟨.logic (.core (.sel hasDefault)), type⟩, selector :: arms⟩ = true) :
    ∃ w types, g.typeOf selector = some (.bits w) ∧
      List.Forall₂ (fun i t => g.typeOf i = some t) arms types ∧
      Verifier.selTypes hasDefault type (.bits w :: types) = true ∧ arms.length + 1 < 2 ^ 64 := by
  obtain ⟨types, htypes, hlabel, hlength⟩ := verifyVertex_iff.mp h
  have hverify : Verifier.selTypes hasDefault type types = true := hlabel
  cases htypes with
  | cons hselector htypes =>
    rename_i t types
    cases t with
    | bits w => exact ⟨w, types, hselector, htypes, hverify, hlength⟩
    | token => cases hverify
    | tuple ts => cases hverify
    | array n t => cases hverify

/-- A select with two cases has a selector of one bit and no default. -/
structure TwoWay (g : NodeGraph) (i selector case0 case1 : ℕ) (type : Ty) : Prop where
  vertex : g.vertex i = some ⟨⟨.logic (.core (.sel false)), type⟩, [selector, case0, case1]⟩
  selector : g.typeOf selector = some (.bits 1)
  case0 : g.typeOf case0 = some type
  case1 : g.typeOf case1 = some type
  noToken : Verifier.typeHasToken type = false

theorem two_way (hg : Verified g) {case0 case1 : ℕ} {default : Option ℕ}
    (h : asSelect g i = some (selector, [case0, case1], default))
    (hone : default = none ∨ g.typeOf selector = some (.bits 1)) :
    default = none ∧ ∃ type, TwoWay g i selector case0 case1 type := by
  obtain ⟨hasDefault, type, arms, hvertex, hcases, hdefault⟩ := vertex_of_asSelect h
  obtain ⟨w, types, hselector, htypes, hverify, -⟩ := verify_select (hg _ _ hvertex)
  have hsel := selTypes_of_verify hverify
  cases hasDefault with
  | false =>
    obtain rfl : arms = [case0, case1] := hcases.symm
    have hw : types.length = 2 ^ w := hsel.all rfl
    cases htypes with
    | cons h0 htypes =>
      cases htypes with
      | cons h1 htypes =>
        cases htypes
        have hw1 : w = 1 := by
          refine Nat.pow_right_injective (le_refl 2) ?_
          exact hw.symm
        subst hw1
        have htype := fun t ht => hsel.cases t ht
        refine ⟨hdefault, type, hvertex, hselector, ?_, ?_, hsel.noToken⟩
        · rw [h0, htype _ (List.mem_cons_self ..)]
        · rw [h1, htype _ (List.mem_cons_of_mem _ (List.mem_cons_self ..))]
  | true =>
    exfalso
    have hlength : (selectCases true arms).length = 2 := by
      rw [← hcases]
      rfl
    rcases hone with rfl | hone
    · have harms : arms = [] := List.getLast?_eq_none_iff.mp hdefault.symm
      rw [harms] at hlength
      cases hlength
    · -- two cases are all there are for one bit
      obtain rfl : w = 1 := by
        rw [hselector] at hone
        exact Ty.bits.inj (Option.some.inj hone)
      have hdrop : types.dropLast.length = 2 := by
        rw [List.length_dropLast, ← htypes.length_eq, ← List.length_dropLast]
        exact hlength
      rcases hrest : types.dropLast with - | ⟨t, - | ⟨u, - | ⟨v, rest⟩⟩⟩
      · rw [hrest] at hdrop
        cases hdrop
      · rw [hrest] at hdrop
        cases hdrop
      · unfold Verifier.selTypes at hverify
        simp only [hrest] at hverify
        simp [Verifier.isPowerOfTwo, Bits.minBitCountUnsigned] at hverify
        exact hverify.1.2 hverify.1.1.2
      · rw [hrest] at hdrop
        cases hdrop

theorem exists_ofBool (h : b.bitCount = 1) : ∃ c, b = BitsOps.ofBool c := by
  obtain ⟨w, n, hlt⟩ := b
  obtain rfl : w = 1 := h
  have hn : n = 0 ∨ n = 1 := by omega
  rcases hn with rfl | rfl
  · exact ⟨false, rfl⟩
  · exact ⟨true, rfl⟩

/-- The selector and the value of a select with two cases. -/
theorem TwoWay.value {case0 case1 : ℕ} (h : TwoWay g i selector case0 case1 type)
    (hval : Valuation env g val) :
    ∃ c, val selector = .bits (BitsOps.ofBool c) ∧ val i = if c then val case1 else val case0 := by
  obtain ⟨b, hb, hone⟩ := exists_bits hval h.selector
  obtain ⟨c, rfl⟩ := exists_ofBool hone
  refine ⟨c, hb, ?_⟩
  have heval := (eval_of_valuation hval h.vertex).1
  rw [List.map_cons, hb] at heval
  exact (Option.some.inj
    ((NodeBuilder.eval_sel env i [] type (Nat.two_pow_pos 64) c _ _).symm.trans heval)).symm

theorem selTypes_two (h : Verifier.typeHasToken type = false) :
    Verifier.selTypes false type [.bits 1, type, type] = true := by
  have hlog : Nat.log2 1 = 0 := by decide
  simp [Verifier.selTypes, Verifier.isPowerOfTwo, Bits.minBitCountUnsigned, h, hlog]

/-- A new select with two cases. -/
theorem verifyVertex_select {case0 case1 : ℕ} (hselector : g.typeOf selector = some (.bits 1))
    (h0 : g.typeOf case0 = some type) (h1 : g.typeOf case1 = some type)
    (htoken : Verifier.typeHasToken type = false) :
    g.verifyVertex (selectNode type selector [case0, case1]) = true :=
  verifyVertex_iff.mpr ⟨[.bits 1, type, type], .cons hselector (.cons h0 (.cons h1 .nil)),
    selTypes_two htoken, show 3 < 2 ^ 64 by decide⟩

theorem sound_invertedSelect (hg : Verified g) (h : invertedSelect g i = some rewrite) :
    Sound i rewrite.replacement g rewrite.newNodes := by
  obtain ⟨selector, case0, case1, p, t, hselect, hp, ht, rfl⟩ := invertedSelect_eq_some h
  obtain ⟨-, type, hway⟩ := two_way hg hselect (Or.inl rfl)
  obtain rfl := Option.some.inj (hway.case1.symm.trans ht)
  -- the inverted selector
  obtain ⟨u, hnot⟩ := notOperand_eq_some hp
  obtain ⟨s, hx, hverify⟩ := verify_one hg hnot
  have hu : u = .bits 1 := Option.some.inj ((typeOf_of_vertex hnot).symm.trans hway.selector)
  subst hu
  obtain rfl : s = .bits 1 := by
    have hsame : (true && decide ([s] = [Ty.bits 1])) = true := hverify
    rw [Bool.true_and, decide_eq_true_eq] at hsame
    exact (List.cons.inj hsame).1
  refine sound_new hway.vertex
    (verifyVertex_select hx hway.case1 hway.case0 hway.noToken) rfl fun env val hval => ?_
  obtain ⟨c, hc, hvalue⟩ := hway.value hval
  obtain ⟨b, hb, hone⟩ := exists_bits hval hx
  obtain ⟨d, rfl⟩ := exists_ofBool hone
  -- the selector is the negation of `d`
  have hnotValue : val selector = .bits (BitsOps.not (BitsOps.ofBool d)) := by
    have heval := (eval_of_valuation hval hnot).1
    rw [List.map_cons, hb] at heval
    exact (Option.some.inj heval).symm
  have hcd : c = !d := by
    rw [hc] at hnotValue
    have hequal := Value.bits.inj hnotValue
    cases c <;> cases d <;> first | rfl | exact absurd hequal (by decide)
  show evalLabel env _ ⟨.logic (.core (.sel false)), type⟩
    [val p, val case1, val case0] = some (val i)
  rw [hb, hvalue, hcd]
  cases d <;> rfl

/-! ## Clamps -/

/-- A strict comparison of numbers. -/
def holds (op : Op) (x y : Bits) : Bool :=
  match op with
  | .ugt => BitsOps.uLessThan y x
  | .ult => BitsOps.uLessThan x y
  | _ => false

theorem eval_holds (hop : op = .ugt ∨ op = .ult) (x y : Bits) :
    evalLabel env k ⟨.logic (.core op), .bits 1⟩ [.bits x, .bits y] =
      some (.bits (BitsOps.ofBool (holds op x y))) := by
  rcases hop with rfl | rfl
  · exact NodeBuilder.eval_ugt env k [] (Nat.two_pow_pos 64) x y
  · exact NodeBuilder.eval_ult env k [] (Nat.two_pow_pos 64) x y

theorem areSequentialLiterals_spec {m n : ℕ} (h : areSequentialLiterals g m n = true) :
    ∃ a b, literalBits g m = some a ∧ literalBits g n = some b ∧ a.toNat + 1 = b.toNat := by
  unfold areSequentialLiterals at h
  split at h
  · rename_i a b ha hb
    refine ⟨a, b, ha, hb, ?_⟩
    have hequal := of_decide_eq_true h
    rw [← hequal]
    -- the extension leaves room for the carry
    have hlt := a.isLt
    show a.toNat + 1 = ((BitsOps.zeroExtend a (a.bitCount + 1)).toNat + 1) %
      2 ^ (BitsOps.zeroExtend a (a.bitCount + 1)).bitCount
    rw [BitsOps.zeroExtend_toNat, BitsOps.zeroExtend_bitCount (Nat.le_succ _),
      Nat.mod_eq_of_lt (by omega)]
  · cases h

theorem areEqualLiterals_spec {m n : ℕ} (h : areEqualLiterals g m n = true) :
    ∃ a b, literalBits g m = some a ∧ literalBits g n = some b ∧ a.toNat = b.toNat := by
  unfold areEqualLiterals at h
  split at h
  · rename_i a b ha hb
    exact ⟨a, b, ha, hb, of_decide_eq_true h⟩
  · cases h

/-- What the six forms say: the literals, and the value of the clamp. -/
structure ClampForm (g : NodeGraph) (cmp : Op) (a b c d k : ℕ) (op : Op) : Prop where
  strict : cmp = .ugt ∨ cmp = .ult
  strict' : op = .ugt ∨ op = .ult
  literals : ∃ m x, literalBits g b = some m ∧ literalBits g k = some x ∧
    ((a = d ∧ k = c ∧ ∀ y : Bits, y.bitCount = x.bitCount →
      (if holds cmp y m then x else y) = if holds op y x then x else y) ∨
    (a = c ∧ k = d ∧ ∀ y : Bits, y.bitCount = x.bitCount →
      (if holds cmp y m then y else x) = if holds op y x then x else y))

/-- A number which is not told apart from the bound `x` may be exchanged for it. -/
theorem clamp_eq {p q : Prop} [Decidable p] [Decidable q] (hw : y.bitCount = x.bitCount)
    (h : (p ↔ q) ∨ y.toNat = x.toNat) : (if p then x else y) = if q then x else y := by
  rcases h with h | h
  · simp only [h]
  · rw [Bits.ext hw.symm h.symm, ite_self, ite_self]

theorem clamp_not_eq {p q : Prop} [Decidable p] [Decidable q] (hw : y.bitCount = x.bitCount)
    (h : (¬ p ↔ q) ∨ y.toNat = x.toNat) : (if p then y else x) = if q then x else y := by
  rw [← ite_not]
  exact clamp_eq hw h

theorem holds_ugt : holds .ugt x y = true ↔ y.toNat < x.toNat := decide_eq_true_iff

theorem holds_ult : holds .ult x y = true ↔ x.toNat < y.toNat := decide_eq_true_iff

/-- A literal is no greater than itself by one. -/
theorem areSequentialLiterals_self : areSequentialLiterals g m m = false := by
  rw [Bool.eq_false_iff]
  intro h
  obtain ⟨a, b, ha, hb, hab⟩ := areSequentialLiterals_spec h
  obtain rfl := Option.some.inj (ha.symm.trans hb)
  omega

/-- The six forms of a clamp. -/
theorem clampForm_cases {cmp : Op} {a b c d : ℕ} (h : clampForm g cmp a b c d = some (k, op)) :
    (a = d ∧ k = c ∧ (cmp = .ugt ∧ op = .ugt ∧ areSequentialLiterals g b c = true ∨
      cmp = .ult ∧ op = .ult ∧ areSequentialLiterals g c b = true)) ∨
    a = c ∧ k = d ∧ (cmp = .ult ∧ op = .ugt ∧
        (areEqualLiterals g b d = true ∨ areSequentialLiterals g d b = true) ∨
      cmp = .ugt ∧ op = .ult ∧
        (areEqualLiterals g b d = true ∨ areSequentialLiterals g b d = true)) := by
  unfold clampForm at h
  split_ifs at h with h₁ h₂ h₃ h₄ h₅ h₆ <;> cases h
  · exact .inl ⟨h₁.2.1, rfl, .inl ⟨h₁.1, rfl, h₁.2.2⟩⟩
  · exact .inr ⟨h₂.2.1, rfl, .inl ⟨h₂.1, rfl, .inl h₂.2.2⟩⟩
  · exact .inr ⟨h₃.2.1, rfl, .inl ⟨h₃.1, rfl, .inr h₃.2.2⟩⟩
  · exact .inl ⟨h₄.2.1, rfl, .inr ⟨h₄.1, rfl, h₄.2.2⟩⟩
  · exact .inr ⟨h₅.2.1, rfl, .inr ⟨h₅.1, rfl, .inl h₅.2.2⟩⟩
  · exact .inr ⟨h₆.2.1, rfl, .inr ⟨h₆.1, rfl, .inr h₆.2.2⟩⟩

theorem clampForm_spec {cmp : Op} {a b c d : ℕ} (h : clampForm g cmp a b c d = some (k, op)) :
    ClampForm g cmp a b c d k op := by
  rcases clampForm_cases h with ⟨rfl, rfl, ⟨rfl, rfl, hliterals⟩ | ⟨rfl, rfl, hliterals⟩⟩ |
    ⟨rfl, rfl, ⟨rfl, rfl, hliterals | hliterals⟩ | ⟨rfl, rfl, hliterals | hliterals⟩⟩
  · obtain ⟨m, x, hm, hx, hmx⟩ := areSequentialLiterals_spec hliterals
    refine ⟨Or.inl rfl, Or.inl rfl, m, x, hm, hx, Or.inl ⟨rfl, rfl, fun y hy => clamp_eq hy ?_⟩⟩
    rw [holds_ugt, holds_ugt]
    omega
  · obtain ⟨x, m, hx, hm, hmx⟩ := areSequentialLiterals_spec hliterals
    refine ⟨Or.inr rfl, Or.inr rfl, m, x, hm, hx, Or.inl ⟨rfl, rfl, fun y hy => clamp_eq hy ?_⟩⟩
    rw [holds_ult, holds_ult]
    omega
  · obtain ⟨m, x, hm, hx, hmx⟩ := areEqualLiterals_spec hliterals
    refine ⟨Or.inr rfl, Or.inl rfl, m, x, hm, hx, Or.inr ⟨rfl, rfl, fun y hy => clamp_not_eq hy ?_⟩⟩
    rw [holds_ult, holds_ugt]
    omega
  · obtain ⟨x, m, hx, hm, hmx⟩ := areSequentialLiterals_spec hliterals
    refine ⟨Or.inr rfl, Or.inl rfl, m, x, hm, hx, Or.inr ⟨rfl, rfl, fun y hy => clamp_not_eq hy ?_⟩⟩
    rw [holds_ult, holds_ugt]
    omega
  · obtain ⟨m, x, hm, hx, hmx⟩ := areEqualLiterals_spec hliterals
    refine ⟨Or.inl rfl, Or.inr rfl, m, x, hm, hx, Or.inr ⟨rfl, rfl, fun y hy => clamp_not_eq hy ?_⟩⟩
    rw [holds_ugt, holds_ult]
    omega
  · obtain ⟨m, x, hm, hx, hmx⟩ := areSequentialLiterals_spec hliterals
    refine ⟨Or.inl rfl, Or.inr rfl, m, x, hm, hx, Or.inr ⟨rfl, rfl, fun y hy => clamp_not_eq hy ?_⟩⟩
    rw [holds_ugt, holds_ult]
    omega

theorem opIsCompare_strict (h : op = .ugt ∨ op = .ult) : opIsCompare op = true := by
  rcases h with rfl | rfl
  · rfl
  · rfl

theorem sound_canonicalizeClamp (hg : Verified g) (h : canonicalizeClamp g i = some rewrite) :
    Sound i rewrite.replacement g rewrite.newNodes := by
  obtain ⟨a, k, op, t, hmatch, ht, rfl⟩ := canonicalizeClamp_eq_some h
  obtain ⟨selector, d, c, default, cmp, type, b, hselect, hvertex, hform⟩ :=
    matchClamp_eq_some hmatch
  obtain ⟨hstrict, hstrict', m, x, hm, hx, hforms⟩ := clampForm_spec hform
  obtain ⟨s, u, ha, hb, hverify⟩ := verify_two hg hvertex
  obtain ⟨rfl, rfl⟩ := (verifyLabel_compare (opIsCompare_strict hstrict)).mp hverify
  obtain ⟨-, type, hway⟩ := two_way hg hselect (Or.inr (typeOf_of_vertex hvertex))
  obtain ⟨hmType, hmVal⟩ := literalBits_spec hg hm
  obtain ⟨hxType, hxVal⟩ := literalBits_spec hg hx
  -- the node and the literal are the two cases
  have htypes : g.typeOf a = some type ∧ g.typeOf k = some type := by
    rcases hforms with ⟨rfl, rfl, -⟩ | ⟨rfl, rfl, -⟩
    · exact ⟨hway.case0, hway.case1⟩
    · exact ⟨hway.case1, hway.case0⟩
  obtain rfl : t = type := Option.some.inj (ht.symm.trans htypes.1)
  obtain rfl : t = .bits x.bitCount := Option.some.inj (htypes.2.symm.trans hxType)
  have hvalue : ∀ env val, Valuation env g val → ∃ y : Bits, val a = .bits y ∧
      val i = .bits (if holds op y x then x else y) := by
    intro env val hval
    obtain ⟨y, hy, hwidth⟩ := exists_bits hval htypes.1
    refine ⟨y, hy, ?_⟩
    obtain ⟨p, hp, hi⟩ := hway.value hval
    have hcmp : evalLabel env selector ⟨.logic (.core cmp), .bits 1⟩ [val a, val b] =
        some (val selector) := (eval_of_valuation hval hvertex).1
    rw [hy, hmVal env val hval, eval_holds hstrict, hp] at hcmp
    have hpHolds : holds cmp y m = p := by
      have hequal := Value.bits.inj (Option.some.inj hcmp)
      rcases hh : holds cmp y m with - | -
      · cases p with
        | false => rfl
        | true =>
          rw [hh] at hequal
          exact absurd hequal (by decide)
      · cases p with
        | false =>
          rw [hh] at hequal
          exact absurd hequal (by decide)
        | true => rfl
    rw [hi, ← hpHolds]
    rcases hforms with ⟨rfl, rfl, hclamp⟩ | ⟨rfl, rfl, hclamp⟩
    · rw [← hclamp y hwidth, hy, hxVal env val hval]
      exact (apply_ite Value.bits _ _ _).symm
    · rw [← hclamp y hwidth, hy, hxVal env val hval]
      exact (apply_ite Value.bits _ _ _).symm
  refine ⟨?_, fun env val hval => ?_, ?_⟩
  · refine verifyVertex_two htypes.1 htypes.2 ?_
    exact (verifyLabel_compare (opIsCompare_strict hstrict')).mpr ⟨rfl, rfl⟩
  · obtain ⟨y, hy, -⟩ := hvalue env val hval
    refine ⟨.bits (BitsOps.ofBool (holds op y x)), sem_eq_some.mpr ⟨?_, rfl⟩⟩
    show evalLabel env _ ⟨.logic (.core op), .bits 1⟩ [val a, val k] = _
    rw [hy, hxVal env val hval, eval_holds hstrict']
  · have hlength : g.length + 1 = (g.make (compareNode op a k)).length := TermGraph.length_make.symm
    rw [hlength]
    refine sound_new (vertex_make hway.vertex) ?_ rfl fun env val hmade => ?_
    · exact verifyVertex_select typeOf_make_length (typeOf_make_of_eq_some htypes.1)
        (typeOf_make_of_eq_some htypes.2) hway.noToken
    · obtain ⟨hold, hnew⟩ := TermGraph.isValuation_make.mp hmade
      obtain ⟨y, hy, hi⟩ := hvalue env val hold
      have hcompare : evalLabel env g.length ⟨.logic (.core op), .bits 1⟩ [val a, val k] =
          some (val g.length) := (sem_eq_some.mp hnew).1
      rw [hy, hxVal env val hold, eval_holds hstrict'] at hcompare
      show evalLabel env _ ⟨.logic (.core (.sel false)), .bits x.bitCount⟩
        [val g.length, val a, val k] = _
      rw [← Option.some.inj hcompare, hi, hy, hxVal env val hold]
      rw [apply_ite Value.bits]
      exact NodeBuilder.eval_sel env 0 [] (.bits x.bitCount) (Nat.two_pow_pos 64) _ _ _

/-! ## Differences and extensions -/

theorem add_negate {a : Bits} (h : b.bitCount = a.bitCount) :
    BitsOps.add a (BitsOps.negate b) = BitsOps.sub a b := by
  refine Bits.ext rfl ?_
  show (a.toNat + (2 ^ b.bitCount - b.toNat) % 2 ^ b.bitCount) % 2 ^ a.bitCount = _
  rw [h, Nat.add_mod_mod]
  rfl

theorem sound_subtractLiteral (hg : Verified g) (h : subtractLiteral g i = some rewrite) :
    Sound i rewrite.replacement g rewrite.newNodes := by
  obtain ⟨type, x, y, literal, t, hvertex, hliteral, ht, rfl⟩ := subtractLiteral_eq_some h
  obtain ⟨htype, hval⟩ := literalBits_spec hg hliteral
  obtain ⟨s, u, hx, hy, hverify⟩ := verify_two hg hvertex
  have hsame : verifyLabel ⟨.logic (.core .add), type⟩ [s, u] = true := hverify
  obtain ⟨w, htypeEq, rfl, rfl⟩ := sameType_of_verify (by simp) hsame
  obtain rfl : type = .bits w := htypeEq
  obtain rfl : literal.bitCount = w := Ty.bits.inj (Option.some.inj (htype.symm.trans hy))
  obtain rfl := Option.some.inj (hx.symm.trans ht)
  apply sound_literal
  have hlength : g.length + 1 = (g.make (literalNode (BitsOps.negate literal))).length :=
    TermGraph.length_make.symm
  rw [hlength]
  refine sound_new (vertex_make hvertex) ?_ rfl fun env val hmade => ?_
  · exact verifyVertex_two (typeOf_make_of_eq_some hx) (typeOf_literalNode _) hsame
  · obtain ⟨hold, -⟩ := TermGraph.isValuation_make.mp hmade
    obtain ⟨a, ha, hwidth⟩ := exists_bits hold hx
    have heval : evalLabel env i ⟨.logic (.core .sub), .bits literal.bitCount⟩ [val x, val y] =
        some (val i) := (eval_of_valuation hold hvertex).1
    rw [ha, hval env val hold] at heval
    show evalLabel env _ ⟨.logic (.core .add), .bits literal.bitCount⟩ [val x, val g.length] = _
    rw [val_literalNode hmade, ha, ← heval]
    exact congrArg (fun b => some (Value.bits b)) (add_negate hwidth.symm)

/-- The operand of an extension, and the widths. -/
theorem extension_facts (hg : Verified g) {x : ℕ} (h : extendOperand g i = some x) :
    ∃ m w op, g.vertex i = some ⟨⟨.logic (.core op), .bits w⟩, [x]⟩ ∧
      (op = .zeroExt w ∨ op = .signExt w) ∧ g.typeOf x = some (.bits m) ∧ m ≤ w := by
  have htypes : ∀ {w : ℕ} {type s : Ty}, Verifier.extendTypes w type [s] = true →
      ∃ m, s = .bits m ∧ m ≤ w ∧ type = .bits w := by
    intro w type s hverify
    cases s with
    | bits m =>
      rw [Verifier.extendTypes, Bool.and_eq_true, decide_eq_true_eq, decide_eq_true_eq] at hverify
      exact ⟨m, rfl, hverify⟩
    | token => cases hverify
    | tuple ts => cases hverify
    | array n t => cases hverify
  unfold extendOperand at h
  split at h
  · rename_i w type y hvertex
    obtain rfl := Option.some.inj h
    obtain ⟨s, hs, hverify⟩ := verify_one hg hvertex
    obtain ⟨m, rfl, hle, rfl⟩ := htypes hverify
    exact ⟨m, w, _, hvertex, Or.inl rfl, hs, hle⟩
  · rename_i w type y hvertex
    obtain rfl := Option.some.inj h
    obtain ⟨s, hs, hverify⟩ := verify_one hg hvertex
    obtain ⟨m, rfl, hle, rfl⟩ := htypes hverify
    exact ⟨m, w, _, hvertex, Or.inr rfl, hs, hle⟩
  · cases h

theorem zeroExtend_self (b : Bits) : BitsOps.zeroExtend b b.bitCount = b :=
  Bits.ext (BitsOps.zeroExtend_bitCount le_rfl) (BitsOps.zeroExtend_toNat b b.bitCount)

theorem signExtend_self (b : Bits) : BitsOps.signExtend b b.bitCount = b := by
  refine Bits.ext (BitsOps.signExtend_bitCount le_rfl) ?_
  rw [BitsOps.signExtend_toNat le_rfl, Nat.sub_self, Nat.add_zero, ite_self]

theorem bitCountOrDie_eq_some : bitCountOrDie g k = some w ↔ g.typeOf k = some (.bits w) := by
  unfold bitCountOrDie
  split
  · rename_i v hv
    rw [hv, Option.some.injEq, Option.some.injEq, Ty.bits.injEq]
  · rename_i hne
    refine iff_of_false (fun h => ?_) fun h => hne w h
    cases h

theorem sound_removeExtension (hg : Verified g) (h : removeExtension g i = some rewrite) :
    Sound i rewrite.replacement g rewrite.newNodes := by
  obtain ⟨x, w, hx, hw, hm, rfl⟩ := removeExtension_eq_some h
  rw [bitCountOrDie_eq_some] at hw hm
  obtain ⟨m, w', op, hvertex, hop, hxType, -⟩ := extension_facts hg hx
  obtain rfl : w' = w :=
    Ty.bits.inj (Option.some.inj ((typeOf_of_vertex hvertex).symm.trans hw))
  refine ⟨hm.trans hw.symm, fun env val hval => ?_⟩
  obtain ⟨b, hb, rfl⟩ := exists_bits hval hm
  have heval := (eval_of_valuation hval hvertex).1
  rw [List.map_cons, hb] at heval
  rw [hb]
  rcases hop with rfl | rfl
  · have hvalue : some (Value.bits (BitsOps.zeroExtend b b.bitCount)) = some (val i) := heval
    rw [zeroExtend_self] at hvalue
    exact Option.some.inj hvalue
  · have hvalue : some (Value.bits (BitsOps.signExtend b b.bitCount)) = some (val i) := heval
    rw [signExtend_self] at hvalue
    exact Option.some.inj hvalue

/-- A zero-extension which is left is to a greater width. -/
theorem zeroExtension_spec (hg : Verified g) (hkept : removeExtension g i = none) :
    ∃ result, zeroExtension g i = some result ∧ ∀ rewrite, result = some rewrite →
      Sound i rewrite.replacement g rewrite.newNodes := by
  unfold zeroExtension
  split
  · rename_i v type x hvertex
    have hx : extendOperand g i = some x := by
      rw [extendOperand, hvertex]
    obtain ⟨m, w, op, hvertex', hop, hxType, hle⟩ := extension_facts hg hx
    obtain ⟨hd, -⟩ := Vertex.mk.inj (Option.some.inj (hvertex.symm.trans hvertex'))
    obtain ⟨hlabel, rfl⟩ := NodeLabel.mk.inj hd
    obtain rfl : op = .zeroExt w := by
      rcases hop with hop | rfl
      · exact hop
      · cases hlabel
    obtain rfl : v = w := by
      cases hlabel
      rfl
    have hiType := typeOf_of_vertex hvertex
    have hne : m ≠ v := by
      rintro rfl
      rw [removeExtension, hx, Option.bind_eq_bind, Option.bind_some,
        bitCountOrDie_eq_some.mpr hiType, Option.bind_some, bitCountOrDie_eq_some.mpr hxType,
        Option.bind_some, if_pos rfl] at hkept
      cases hkept
    refine ⟨some ⟨[literalNode (Bits.zero (v - m)),
      ⟨⟨.logic (.core .concat), .bits (v - m + m)⟩, [g.length, x]⟩], g.length + 1⟩, ?_, ?_⟩
    · rw [bitCountOrDie_eq_some.mpr hiType, Option.bind_eq_bind, Option.bind_some,
        bitCountOrDie_eq_some.mpr hxType, Option.bind_some, if_pos (by omega)]
    · intro rewrite hrewrite
      obtain rfl := Option.some.inj hrewrite
      refine sound_literal ?_
      have hlength : g.length + 1 = (g.make (literalNode (Bits.zero (v - m)))).length :=
        TermGraph.length_make.symm
      rw [hlength]
      refine sound_new (vertex_make hvertex) ?_ ?_ fun env val hmade => ?_
      · refine verifyVertex_two (typeOf_literalNode _) (typeOf_make_of_eq_some hxType) ?_
        exact decide_eq_true rfl
      · rw [Nat.sub_add_cancel hle]
      · obtain ⟨hold, -⟩ := TermGraph.isValuation_make.mp hmade
        obtain ⟨b, hb, rfl⟩ := exists_bits hold hxType
        have heval := (eval_of_valuation hold hvertex).1
        rw [List.map_cons, hb] at heval
        show evalLabel env _ ⟨.logic (.core .concat), _⟩ [val g.length, val x] = _
        rw [val_literalNode hmade, hb, ← heval]
        rfl
  · exact ⟨none, rfl, fun _ h => by cases h⟩

end Canonicalization

end Xls
