/-
# Canonical forms mean the same

Each rule of `CanonicalizeNode` names new nodes which pass the checks of the verifier, and whose
last one has the value of the old node.  The rule for defaults is the exception: its test is a
shift which does not see selectors of 64 bits and more, and the verifier has not looked at the type
of the default.

* `WithDefault.sound` : the rule for defaults, for selectors below 64 bits;
* `canonicalizeNode_correct_iff` : the exact condition.
-/
import Xls.Passes.CanonicalizationSelects

namespace Xls

namespace Canonicalization

open NodeGraph
open SparsifySelect (SelTypes selTypes_of_verify selectCases selectDefault)

variable {env : Env} {g : NodeGraph} {i k : ℕ} {val : ℕ → Value} {n : Vertex NodeLabel}
  {t s type : Ty} {w selector default : ℕ} {v : Value} {rewrite : Rewrite} {cases : List ℕ}

/-! ## Defaults -/

variable {overlong : ℕ → BitVec 64}

/-- A default which becomes a case is needed by the verifier, or has another type than the cases. -/
def BadDefault (overlong : ℕ → BitVec 64) (g : NodeGraph) (i : ℕ) : Prop :=
  ∃ selector cases default w, singleDefault overlong g i = some (selector, cases, default) ∧
    bitCountOrDie g selector = some w ∧ (64 ≤ w ∨ g.typeOf default ≠ g.typeOf i)

/-- A select with a default. -/
structure WithDefault (g : NodeGraph) (i selector : ℕ) (cases : List ℕ) (default w : ℕ)
    (type : Ty) : Prop where
  vertex : g.vertex i =
    some ⟨⟨.logic (.core (.sel true)), type⟩, selector :: (cases ++ [default])⟩
  selectorType : g.typeOf selector = some (.bits w)
  caseTypes : ∀ c ∈ cases, g.typeOf c = some type
  defaultType : ∃ t, g.typeOf default = some t
  noToken : Verifier.typeHasToken type = false
  pos : w < 64 → 0 < cases.length
  count : cases.length + 2 < 2 ^ 64

theorem withDefault_of_asSelect (hg : Verified g)
    (h : asSelect g i = some (selector, cases, some default)) :
    ∃ w type, WithDefault g i selector cases default w type := by
  obtain ⟨hasDefault, type, arms, hvertex, hcases, hdefault⟩ := vertex_of_asSelect h
  obtain ⟨w, types, hselector, htypes, hverify, hlength⟩ := verify_select (hg _ _ hvertex)
  have hsel := selTypes_of_verify hverify
  cases hasDefault with
  | false => cases hdefault
  | true =>
    have hlast : arms.getLast? = some default := hdefault.symm
    have harms : arms = cases ++ [default] := by
      rw [hcases]
      exact (List.dropLast_append_getLast? default hlast).symm
    subst harms
    rw [List.length_append] at hlength
    -- the types of the cases and of the default
    have hdrop := Relational.forall₂_dropLast htypes
    rw [List.dropLast_concat] at hdrop
    refine ⟨w, type, hvertex, hselector, fun c hc => ?_, ?_, hsel.noToken, fun hw => ?_, hlength⟩
    · obtain ⟨t, ht⟩ := Relational.exists_of_mapM (typesOf_eq_some.mpr hdrop) hc
      have hmem := Relational.mem_of_mapM (typesOf_eq_some.mpr hdrop) hc ht
      rw [ht, hsel.cases t hmem]
    · exact Relational.exists_of_mapM (typesOf_eq_some.mpr htypes)
        (List.mem_append_right _ (List.mem_singleton.mpr rfl))
    · -- without cases the selector would need 64 bits
      rw [List.length_pos_iff]
      rintro rfl
      have hnil : types.dropLast = [] := List.forall₂_nil_left_iff.mp hdrop
      unfold Verifier.selTypes at hverify
      simp only [if_true, hnil, List.isEmpty_nil, Bool.and_eq_true, decide_eq_true_eq] at hverify
      omega

theorem selTypes_full {n : ℕ} (hn : n = 2 ^ w) (htoken : Verifier.typeHasToken type = false) :
    Verifier.selTypes false type (.bits w :: List.replicate n type) = true := by
  have hpos : 0 < n := hn ▸ Nat.two_pow_pos w
  have hpower : Verifier.isPowerOfTwo n = true := by
    rw [Verifier.isPowerOfTwo, hn, Nat.log2_two_pow, decide_eq_true (Nat.two_pow_pos w),
      decide_eq_true rfl, Bool.and_self]
  have hwidth : Bits.minBitCountUnsigned (n - 1) = w :=
    Nat.pow_right_injective (le_refl 2)
      ((SparsifySelect.minBitCountUnsigned_pred_of_isPowerOfTwo hpower).trans hn)
  have hempty : (List.replicate n type).isEmpty = false := by
    rw [List.isEmpty_eq_false_iff, Ne, List.replicate_eq_nil_iff]
    omega
  simp only [Verifier.selTypes, Bool.false_eq_true, if_false, hempty, List.length_replicate, hwidth,
    hpower, htoken, decide_eq_true hpos, le_refl]
  rw [Bool.and_eq_true]
  refine ⟨rfl, List.all_eq_true.mpr fun t ht => ?_⟩
  exact decide_eq_true (List.eq_of_mem_replicate ht)

/-- What the verifier asks of the select without the default. -/
theorem verify_default (hselector : g.typeOf selector = some (.bits w))
    (h : g.verifyVertex (selectNode type selector (cases ++ [default])) = true) :
    cases.length + 1 = 2 ^ w ∧ g.typeOf default = some type := by
  obtain ⟨w', types, hselector', htypes, hverify, -⟩ := verify_select h
  obtain rfl : w = w' := Ty.bits.inj (Option.some.inj (hselector.symm.trans hselector'))
  have hsel := selTypes_of_verify hverify
  refine ⟨?_, ?_⟩
  · rw [← hsel.all rfl, ← htypes.length_eq, List.length_append, List.length_singleton]
  · have hmem : default ∈ cases ++ [default] :=
      List.mem_append_right _ (List.mem_singleton.mpr rfl)
    obtain ⟨t, ht⟩ := Relational.exists_of_mapM (typesOf_eq_some.mpr htypes) hmem
    rw [ht, hsel.cases t (Relational.mem_of_mapM (typesOf_eq_some.mpr htypes) hmem ht)]

theorem forall₂_typeOf {is : List ℕ} (h : ∀ c ∈ is, g.typeOf c = some type) :
    List.Forall₂ (fun i t => g.typeOf i = some t) is (List.replicate is.length type) := by
  induction is with
  | nil => exact .nil
  | cons c is ih =>
    exact .cons (h c (List.mem_cons_self ..)) (ih fun c hc => h c (List.mem_cons_of_mem _ hc))

/-- The default is the last case when the cases leave one value. -/
theorem WithDefault.sound (h : WithDefault g i selector cases default w type) (hw : w < 64)
    (hsingle : cases.length + 1 = 2 ^ w) (hdefault : g.typeOf default = some type) :
    Sound i g.length g [selectNode type selector (cases ++ [default])] := by
  have harms : ∀ c ∈ cases ++ [default], g.typeOf c = some type := by
    intro c hc
    rcases List.mem_append.mp hc with hc | hc
    · exact h.caseTypes c hc
    · rw [List.mem_singleton.mp hc, hdefault]
  have hcount : (cases ++ [default]).length = 2 ^ w := by
    rw [List.length_append, List.length_singleton, hsingle]
  refine sound_new h.vertex ?_ rfl fun env val hval => ?_
  · refine verifyVertex_iff.mpr ⟨.bits w :: List.replicate (cases ++ [default]).length type,
      .cons h.selectorType (forall₂_typeOf harms), selTypes_full hcount h.noToken, ?_⟩
    show (cases ++ [default]).length + 1 < 2 ^ 64
    rw [List.length_append]
    exact h.count
  · obtain ⟨s, hs, rfl⟩ := exists_bits hval h.selectorType
    have heval := (eval_of_valuation hval h.vertex).1
    have hpos := h.pos hw
    have hlt := s.isLt
    rw [List.map_cons, List.map_append, hs] at heval
    have hold : Interpreter.sel true (.bits s :: (cases.map val ++ [val default])) = some (val i) :=
      heval
    rw [SparsifySelect.sel_default _ (by rwa [List.length_map])
      (by rw [List.length_map]; omega), List.length_map] at hold
    show Interpreter.sel false (val selector :: (cases ++ [default]).map val) = some (val i)
    rw [hs, List.map_append, List.map_singleton, SparsifySelect.sel_eq, SparsifySelect.arm_eq]
    · rw [if_neg Bool.false_ne_true, ← hold]
      split
      · rw [List.getElem?_append_left (by rwa [List.length_map])]
      · have hlast : s.toNat = (cases.map val).length := by
          rw [List.length_map]
          omega
        rw [hlast, List.getElem?_concat_length]
    · show 0 < (cases.map val ++ [val default]).length
      rw [List.length_append]
      exact Nat.succ_pos _
    · show (cases.map val ++ [val default]).length ≤ 2 ^ s.bitCount
      rw [List.length_append, List.length_map, List.length_singleton]
      omega

/-! ## The pass on one node -/

/-- The rules for other nodes do not apply to a select with a default. -/
theorem rewriteNode_default (hg : Verified g)
    (h : asSelect g i = some (selector, cases, some default)) :
    rewriteNode overlong g i = some (defaultToCase overlong g i) := by
  obtain ⟨w, type, hfacts⟩ := withDefault_of_asSelect hg h
  have hvertex := hfacts.vertex
  have hcommute : commuteOperands g i = none := by
    unfold commuteOperands
    rw [hvertex]
    rcases cases with - | ⟨c, - | ⟨d, cases⟩⟩ <;> rfl
  have hcompare : commuteComparison g i = none := by
    unfold commuteComparison
    rw [hvertex]
    rcases cases with - | ⟨c, - | ⟨d, cases⟩⟩
    · exact ite_self none
    · rfl
    · rfl
  have hstrict : strictComparison g i = none := by
    unfold strictComparison
    rw [hvertex]
    rcases cases with - | ⟨c, - | ⟨d, cases⟩⟩
    · show (literalBits g default).bind _ = none
      rcases literalBits g default with - | b
      · rfl
      · simp
    · rfl
    · rfl
  have hclamp : canonicalizeClamp g i = none := by
    rcases hmatch : matchClamp g i with - | ⟨a, k, op⟩
    · rw [canonicalizeClamp, hmatch]
      rfl
    · obtain ⟨s, d, c, default', cmp, type', b, hselect, hcmp, hform⟩ := matchClamp_eq_some hmatch
      obtain ⟨s', t', -, -, hverify⟩ := verify_two hg hcmp
      obtain ⟨-, rfl⟩ := (verifyLabel_compare
        (opIsCompare_strict (clampForm_spec hform).strict)).mp hverify
      obtain ⟨rfl, -⟩ := two_way hg hselect (Or.inr (typeOf_of_vertex hcmp))
      cases (Prod.mk.inj (Prod.mk.inj (Option.some.inj (h.symm.trans hselect))).2).2
  have hsub : subtractLiteral g i = none := by
    unfold subtractLiteral
    rw [hvertex]
  have hextend : extendOperand g i = none := by
    unfold extendOperand
    rw [hvertex]
  have hremove : removeExtension g i = none := by
    rw [removeExtension, hextend]
    rfl
  have hzero : zeroExtension g i = some none := by
    unfold zeroExtension
    rw [hvertex]
  have hinverted : invertedSelect g i = none := by
    unfold invertedSelect
    rw [h]
    rcases cases with - | ⟨c, - | ⟨d, - | ⟨e, cases⟩⟩⟩ <;> rfl
  unfold rewriteNode
  rw [hcommute, hcompare, hstrict, hclamp, hsub, hremove, hzero, hinverted]
  rfl

/-- A node which the rules before the last one rewrite. -/
theorem rewriteNode_spec (overlong : ℕ → BitVec 64) (hg : Verified g) (i : ℕ) :
    ∃ result, rewriteNode overlong g i = some result ∧
    (∀ rewrite, result = some rewrite → Sound i rewrite.replacement g rewrite.newNodes ∨
      defaultToCase overlong g i = some rewrite) := by
  unfold rewriteNode
  split
  · rename_i rewrite hfirst
    refine ⟨some rewrite, rfl, fun r hr => Or.inl ?_⟩
    obtain rfl := Option.some.inj hr
    simp only [Option.orElse_eq_orElse, Option.orElse_eq_or, Option.or_eq_some_iff] at hfirst
    rcases hfirst with h | ⟨-, h | ⟨-, h | ⟨-, h | ⟨-, h | ⟨-, h⟩⟩⟩⟩⟩
    · exact sound_commuteOperands hg h
    · exact sound_commuteComparison hg h
    · exact sound_strictComparison hg h
    · exact sound_canonicalizeClamp hg h
    · exact sound_subtractLiteral hg h
    · exact sound_removeExtension hg h
  · rename_i hfirst
    have hkept : removeExtension g i = none := by
      simp only [Option.orElse_eq_orElse, Option.orElse_eq_or, Option.or_eq_none_iff] at hfirst
      exact hfirst.2.2.2.2.2
    obtain ⟨result, hresult, hsound⟩ := zeroExtension_spec hg hkept
    rw [hresult]
    cases result with
    | some rewrite => exact ⟨some rewrite, rfl, fun r hr => Or.inl (hsound r hr)⟩
    | none =>
      refine ⟨_, rfl, fun r hr => ?_⟩
      rw [Option.orElse_eq_orElse, Option.orElse_eq_or, Option.or_eq_some_iff] at hr
      rcases hr with h | ⟨-, h⟩
      · exact Or.inl (sound_invertedSelect hg h)
      · exact Or.inr h

/-- The claim on one node: no check fails, the new nodes pass theirs, the node which replaces the
old one has its value, and a default becomes a case exactly when it stands for one value. -/
def Correct (overlong : ℕ → BitVec 64) (g : NodeGraph) (i : ℕ) : Prop :=
  ∃ result, canonicalizeNode overlong g i = some result ∧
    (∀ g' r, result = some (g', r) → Replaces g i g' r) ∧
    ∀ selector cases default w, asSelect g i = some (selector, cases, some default) →
      bitCountOrDie g selector = some w → (result ≠ none ↔ cases.length + 1 = 2 ^ w)

theorem shiftOne_of_lt (h : w < 64) : shiftOne overlong w = 2 ^ w := if_pos h

/-- A select with a default which stands for no single value stays as it is. -/
theorem WithDefault.kept (hg : Verified g)
    (hselect : asSelect g i = some (selector, cases, some default))
    (h : WithDefault g i selector cases default w type)
    (hmany : cases.length + 1 ≠ shiftOne overlong w) :
    canonicalizeNode overlong g i = some none ∧ cases.length + 1 ≠ 2 ^ w := by
  have hsingle : singleDefault overlong g i = none := by
    unfold singleDefault
    rw [hselect]
    simp only [bitCountOrDie_eq_some.mpr h.selectorType]
    rw [if_neg hmany]
  refine ⟨?_, fun hpow => ?_⟩
  · rw [canonicalizeNode, rewriteNode_default hg hselect, defaultToCase, hsingle]
    rfl
  · rcases lt_or_ge w 64 with hw | hw
    · exact hmany (hpow.trans (shiftOne_of_lt hw).symm)
    · have hle : 2 ^ 64 ≤ 2 ^ w := Nat.pow_le_pow_right (by decide) hw
      have hcount := h.count
      omega

/-- A default which stands for a single value becomes a case, if the verifier lets it. -/
theorem WithDefault.moved (hg : Verified g)
    (hselect : asSelect g i = some (selector, cases, some default))
    (h : WithDefault g i selector cases default w type)
    (hsingle : cases.length + 1 = shiftOne overlong w) :
    ∃ t, (w < 64 → t = type) ∧ canonicalizeNode overlong g i =
      (g.makeNodes [selectNode t selector (cases ++ [default])]).map
        fun g' => some (g', g.length) := by
  have hdefault : singleDefault overlong g i = some (selector, cases, default) :=
    singleDefault_eq_some.mpr ⟨hselect, w, bitCountOrDie_eq_some.mpr h.selectorType, hsingle⟩
  obtain ⟨t, first, hfirst, ht, htype⟩ : ∃ t first, (cases ++ [default]).head? = some first ∧
      g.typeOf first = some t ∧ (w < 64 → t = type) := by
    rcases hcases : cases with - | ⟨c, rest⟩
    · obtain ⟨t, ht⟩ := h.defaultType
      refine ⟨t, default, rfl, ht, fun hw => ?_⟩
      have hpos := h.pos hw
      rw [hcases] at hpos
      exact absurd hpos (Nat.lt_irrefl 0)
    · exact ⟨type, c, rfl, h.caseTypes c (hcases ▸ List.mem_cons_self ..), fun _ => rfl⟩
  refine ⟨t, htype, ?_⟩
  have hrule : defaultToCase overlong g i =
      some (replaceWithNew g (selectNode t selector (cases ++ [default]))) := by
    rw [defaultToCase, hdefault, Option.bind_eq_bind]
    show ((cases ++ [default]).head?).bind _ = _
    rw [hfirst, Option.bind_some, ht]
    rfl
  rw [canonicalizeNode, rewriteNode_default hg hselect, hrule]
  rfl

/-- A default which the verifier does not take for a case. -/
theorem canonicalizeNode_of_badDefault (hg : Verified g) (hbad : BadDefault overlong g i) :
    canonicalizeNode overlong g i = none := by
  obtain ⟨selector, cases, default, w, hdefault, hwidth, hbad⟩ := hbad
  obtain ⟨hselect, w', hwidth', hsingle⟩ := singleDefault_eq_some.mp hdefault
  obtain rfl := Option.some.inj (hwidth.symm.trans hwidth')
  obtain ⟨v, type, hfacts⟩ := withDefault_of_asSelect hg hselect
  obtain rfl : w = v :=
    Option.some.inj (hwidth.symm.trans (bitCountOrDie_eq_some.mpr hfacts.selectorType))
  obtain ⟨t, ht, hcanonical⟩ := hfacts.moved hg hselect hsingle
  rw [hcanonical, Option.map_eq_none_iff, makeNodes, if_neg]
  intro hverify
  obtain ⟨hpow, htype⟩ := verify_default hfacts.selectorType hverify
  -- there are too few cases for a wide selector
  have hw : w < 64 := by
    by_contra hwide
    have hle : 2 ^ 64 ≤ 2 ^ w := Nat.pow_le_pow_right (by decide) (not_lt.mp hwide)
    have hcount := hfacts.count
    omega
  obtain rfl := ht hw
  rcases hbad with hwide | hne
  · exact absurd hw (not_lt.mpr hwide)
  · exact hne (htype.trans (typeOf_of_vertex hfacts.vertex).symm)

/-- A select with a default which is not bad. -/
theorem WithDefault.correct (hg : Verified g) (h : WithDefault g i selector cases default w type)
    (hselect : asSelect g i = some (selector, cases, some default))
    (hgood : ¬ BadDefault overlong g i) :
    ∃ result, canonicalizeNode overlong g i = some result ∧
      (∀ g' r, result = some (g', r) → Replaces g i g' r) ∧
      (result ≠ none ↔ cases.length + 1 = 2 ^ w) := by
  by_cases hsingle : cases.length + 1 = shiftOne overlong w
  · have hwidth := bitCountOrDie_eq_some.mpr h.selectorType
    have hdefault : singleDefault overlong g i = some (selector, cases, default) :=
      singleDefault_eq_some.mpr ⟨hselect, w, hwidth, hsingle⟩
    obtain ⟨hw, hequal⟩ := not_or.mp fun hbad =>
      hgood ⟨selector, cases, default, w, hdefault, hwidth, hbad⟩
    rw [not_le] at hw
    rw [not_not] at hequal
    obtain ⟨t, ht, hcanonical⟩ := h.moved hg hselect hsingle
    obtain rfl := ht hw
    rw [shiftOne_of_lt hw] at hsingle
    obtain ⟨g', hmake, hreplaces⟩ :=
      (h.sound hw hsingle (hequal.trans (typeOf_of_vertex h.vertex))).replaces hg
    refine ⟨some (g', g.length), ?_, ?_, iff_of_true (Option.some_ne_none _) hsingle⟩
    · rw [hcanonical, hmake]
      rfl
    · intro g'' r hr
      obtain ⟨rfl, rfl⟩ := Prod.mk.inj (Option.some.inj hr)
      exact hreplaces
  · obtain ⟨hcanonical, hpow⟩ := h.kept hg hselect hsingle
    exact ⟨none, hcanonical, fun _ _ h => absurd h (Option.some_ne_none _).symm,
      iff_of_false (fun h => h rfl) hpow⟩

/-- A node which is not a select with a default. -/
theorem correct_of_no_default (hg : Verified g)
    (h : ¬ ∃ selector cases default, asSelect g i = some (selector, cases, some default)) :
    ∃ result, canonicalizeNode overlong g i = some result ∧
      ∀ g' r, result = some (g', r) → Replaces g i g' r := by
  obtain ⟨result, hresult, hsound⟩ := rewriteNode_spec overlong hg i
  rw [canonicalizeNode, hresult]
  cases result with
  | none => exact ⟨none, rfl, fun _ _ h => absurd h (Option.some_ne_none _).symm⟩
  | some rewrite =>
    have hrule : Sound i rewrite.replacement g rewrite.newNodes := by
      refine (hsound rewrite rfl).resolve_right fun hdefault => ?_
      obtain ⟨selector, cases, default, t, hsingle, -⟩ := defaultToCase_eq_some hdefault
      exact h ⟨selector, cases, default, (singleDefault_eq_some.mp hsingle).1⟩
    obtain ⟨g', hmake, hreplaces⟩ := hrule.replaces hg
    refine ⟨some (g', rewrite.replacement), ?_, ?_⟩
    · simp only [hmake]
      rfl
    · intro g'' r hr
      obtain ⟨rfl, rfl⟩ := Prod.mk.inj (Option.some.inj hr)
      exact hreplaces

theorem correct_of_not_badDefault (hg : Verified g) (hgood : ¬ BadDefault overlong g i) :
    Correct overlong g i := by
  by_cases hwith : ∃ selector cases default, asSelect g i = some (selector, cases, some default)
  · obtain ⟨selector, cases, default, hselect⟩ := hwith
    obtain ⟨w, type, hfacts⟩ := withDefault_of_asSelect hg hselect
    obtain ⟨result, hresult, hreplaces, hiff⟩ := hfacts.correct hg hselect hgood
    refine ⟨result, hresult, hreplaces, ?_⟩
    intro s cs d v hs hv
    obtain ⟨rfl, hrest⟩ := Prod.mk.inj (Option.some.inj (hselect.symm.trans hs))
    obtain ⟨rfl, -⟩ := Prod.mk.inj hrest
    have hwidth := bitCountOrDie_eq_some.mpr hfacts.selectorType
    obtain rfl := Option.some.inj (hwidth.symm.trans hv)
    exact hiff
  · obtain ⟨result, hresult, hreplaces⟩ := correct_of_no_default hg hwith
    exact ⟨result, hresult, hreplaces, fun s cs d _ hs => absurd ⟨s, cs, d, hs⟩ hwith⟩

/-- Canonicalization of a node is right exactly when it does not take a default for the last case
whose selector has 64 bits or more, or which has another type than the select. -/
theorem canonicalizeNode_correct_iff (overlong : ℕ → BitVec 64) {g : NodeGraph} (hg : Verified g)
    (i : ℕ) : Correct overlong g i ↔ ¬ BadDefault overlong g i := by
  refine ⟨?_, correct_of_not_badDefault hg⟩
  rintro ⟨result, hresult, -⟩ hbad
  rw [canonicalizeNode_of_badDefault hg hbad] at hresult
  cases hresult

/-- A shift whose count is taken modulo 64. -/
def shiftModulo (bitCount : ℕ) : BitVec 64 := BitVec.ofNat 64 (2 ^ (bitCount % 64))

/-- A select with one case and a default, for a selector of 65 bits. -/
def wideSelect : NodeGraph := [
  some ⟨⟨.logic (.core .param), .bits 65⟩, []⟩,
  some (literalNode (Bits.ofNat 8 3)),
  some (literalNode (Bits.ofNat 8 4)),
  some ⟨⟨.logic (.core (.sel true)), .bits 8⟩, [0, 1, 2]⟩]

theorem wideSelect_verified : Verified wideSelect := by
  intro k n hn
  have hk : k < 4 := TermGraph.lt_length_of_vertex hn
  interval_cases k <;> (obtain rfl := Option.some.inj hn; rfl)

/-- The shift says two, as many as the case and the default, and the verifier rejects a select of
two cases. -/
theorem wideSelect_not_correct : Verified wideSelect ∧ ¬ Correct shiftModulo wideSelect 3 := by
  refine ⟨wideSelect_verified, ?_⟩
  rintro ⟨result, hresult, -⟩
  have hnone : canonicalizeNode shiftModulo wideSelect 3 = none := by decide
  cases hnone.symm.trans hresult

theorem canonicalizeNode_correct_iff_wideSelect :
    Correct shiftModulo wideSelect 3 ↔ ¬ BadDefault shiftModulo wideSelect 3 :=
  canonicalizeNode_correct_iff shiftModulo wideSelect_verified 3

end Canonicalization

end Xls
