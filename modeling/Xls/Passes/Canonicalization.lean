/-
# Canonical forms of nodes

`CanonicalizeNode` (`xls/passes/canonicalization_pass.cc`) rewrites a node to a form which other
passes look for: literals on the right, strict comparisons with literals, clamps, sums instead of
differences, concats instead of extensions, and selects without an inverted selector or a needless
default.  The rules are tried in turn; each names its new nodes and the node which replaces the old
one.
-/
import Xls.Ir.NodeGraph

namespace Xls

namespace Canonicalization

open NodeGraph

/-! ## Nodes -/

/-- The value of a literal. -/
def literalValue (g : NodeGraph) (i : ℕ) : Option Value :=
  match g.vertex i with
  | some ⟨⟨.logic (.core (.literal v)), _⟩, _⟩ => some v
  | _ => none

/-- `Is<Literal>`. -/
def isLiteral (g : NodeGraph) (i : ℕ) : Bool := (literalValue g i).isSome

/-- The value of a literal of bits type. -/
def literalBits (g : NodeGraph) (i : ℕ) : Option Bits := (literalValue g i).bind Value.asBits

/-- `BitCountOrDie`. -/
def bitCountOrDie (g : NodeGraph) (i : ℕ) : Option ℕ :=
  match g.typeOf i with
  | some (.bits w) => some w
  | _ => none

/-- `Select`: the selector, the cases and the default. -/
def asSelect (g : NodeGraph) (i : ℕ) : Option (ℕ × List ℕ × Option ℕ) :=
  match g.vertex i with
  | some ⟨⟨.logic (.core (.sel hasDefault)), _⟩, selector :: arms⟩ =>
    some (selector, if hasDefault then (arms.dropLast, arms.getLast?) else (arms, none))
  | _ => none

/-- `OpIsCommutative`. -/
def opIsCommutative : GraphOp → Bool
  | .logic .and | .logic .nand | .logic .nor | .logic .or | .logic .xor => true
  | .logic (.core .add) | .logic (.core .umul) | .logic (.core .eq) | .logic (.core .ne) => true
  | .smul | .smulp _ | .umulp _ | .afterAll => true
  | _ => false

/-- `CompareOpCommuted`, for the comparisons only. -/
def compareOpCommuted : Op → Option Op
  | .eq => some .eq
  | .ne => some .ne
  | .sge => some .sle
  | .uge => some .ule
  | .sgt => some .slt
  | .ugt => some .ult
  | .sle => some .sge
  | .ule => some .uge
  | .slt => some .sgt
  | .ult => some .ugt
  | _ => none

/-- `OpIsCompare`. -/
def opIsCompare (op : Op) : Bool := (compareOpCommuted op).isSome

/-- A new `Literal` of bits. -/
def literalNode (b : Bits) : Vertex NodeLabel :=
  ⟨⟨.logic (.core (.literal (.bits b))), .bits b.bitCount⟩, []⟩

/-- A new `CompareOp`. -/
def compareNode (op : Op) (lhs rhs : ℕ) : Vertex NodeLabel :=
  ⟨⟨.logic (.core op), .bits 1⟩, [lhs, rhs]⟩

/-- A new `Select` without default. -/
def selectNode (type : Ty) (selector : ℕ) (cases : List ℕ) : Vertex NodeLabel :=
  ⟨⟨.logic (.core (.sel false)), type⟩, selector :: cases⟩

/-- New nodes, and the node which replaces the old one. -/
structure Rewrite where
  newNodes : List (Vertex NodeLabel)
  replacement : ℕ

/-- `ReplaceUsesWithNew`. -/
def replaceWithNew (g : NodeGraph) (n : Vertex NodeLabel) : Rewrite := ⟨[n], g.length⟩

/-! ## The rules -/

/-- The type of a clone on other operands, of which `x` is the first. -/
def cloneType (g : NodeGraph) (d : NodeLabel) (x : ℕ) : Option Ty :=
  match d.op with
  | .logic .and | .logic .nand | .logic .nor | .logic .or | .logic .xor | .logic (.core .add) =>
    g.typeOf x
  | _ => some d.type

/-- A literal moves to the right of a commutative operation. -/
def commuteOperands (g : NodeGraph) (i : ℕ) : Option Rewrite :=
  match g.vertex i with
  | some ⟨d, [x, y]⟩ =>
    if opIsCommutative d.op && isLiteral g x && !isLiteral g y then
      (cloneType g d y).map fun t => replaceWithNew g ⟨⟨d.op, t⟩, [y, x]⟩
    else none
  | _ => none

/-- A literal moves to the right of a comparison. -/
def commuteComparison (g : NodeGraph) (i : ℕ) : Option Rewrite :=
  match g.vertex i with
  | some ⟨⟨.logic (.core op), _⟩, [x, y]⟩ =>
    if isLiteral g x && !isLiteral g y then
      (compareOpCommuted op).map fun op => replaceWithNew g (compareNode op y x)
    else none
  | _ => none

/-- A comparison with a literal becomes strict. -/
def strictComparison (g : NodeGraph) (i : ℕ) : Option Rewrite :=
  match g.vertex i with
  | some ⟨⟨.logic (.core op), _⟩, [x, y]⟩ => do
    let literal ← literalBits g y
    if op = .uge ∧ literal.isZero = false then
      some ⟨[literalNode (BitsOps.decrement literal), compareNode .ugt x g.length], g.length + 1⟩
    else if op = .ule ∧ literal.isAllOnes = false then
      some ⟨[literalNode (BitsOps.increment literal), compareNode .ult x g.length], g.length + 1⟩
    else none
  | _ => none

/-- `AreSequentialLiterals`. -/
def areSequentialLiterals (g : NodeGraph) (m n : ℕ) : Bool :=
  match literalBits g m, literalBits g n with
  | some m, some n =>
    BitsOps.uEqual (BitsOps.increment (BitsOps.zeroExtend m (m.bitCount + 1))) n
  | _, _ => false

/-- `AreEqualLiterals`. -/
def areEqualLiterals (g : NodeGraph) (m n : ℕ) : Bool :=
  match literalBits g m, literalBits g n with
  | some m, some n => BitsOps.uEqual m n
  | _, _ => false

/-- The six forms of `a cmp b ? c : d` which are clamps: the literal, and the comparison of the
canonical form. -/
def clampForm (g : NodeGraph) (cmp : Op) (a b c d : ℕ) : Option (ℕ × Op) :=
  if cmp = .ugt ∧ a = d ∧ areSequentialLiterals g b c then some (c, .ugt)
  else if cmp = .ult ∧ a = c ∧ areEqualLiterals g b d then some (d, .ugt)
  else if cmp = .ult ∧ a = c ∧ areSequentialLiterals g d b then some (d, .ugt)
  else if cmp = .ult ∧ a = d ∧ areSequentialLiterals g c b then some (c, .ult)
  else if cmp = .ugt ∧ a = c ∧ areEqualLiterals g b d then some (d, .ult)
  else if cmp = .ugt ∧ a = c ∧ areSequentialLiterals g b d then some (d, .ult)
  else none

/-- A select which is a clamp: the clamped node, the literal, and the comparison. -/
def matchClamp (g : NodeGraph) (i : ℕ) : Option (ℕ × ℕ × Op) :=
  match bitCountOrDie g i, asSelect g i with
  | some _, some (selector, [d, c], _) =>
    match g.vertex selector with
    | some ⟨⟨.logic (.core cmp), _⟩, [a, b]⟩ =>
      (clampForm g cmp a b c d).map fun (k, op) => (a, k, op)
    | _ => none
  | _, _ => none

/-- `MaybeCanonicalizeClamp`. -/
def canonicalizeClamp (g : NodeGraph) (i : ℕ) : Option Rewrite := do
  let (a, k, op) ← matchClamp g i
  let t ← g.typeOf a
  some ⟨[compareNode op a k, selectNode t g.length [a, k]], g.length + 1⟩

/-- A difference with a literal becomes a sum. -/
def subtractLiteral (g : NodeGraph) (i : ℕ) : Option Rewrite :=
  match g.vertex i with
  | some ⟨⟨.logic (.core .sub), _⟩, [x, y]⟩ => do
    let literal ← literalBits g y
    let t ← g.typeOf x
    some ⟨[literalNode (BitsOps.negate literal), ⟨⟨.logic (.core .add), t⟩, [x, g.length]⟩],
      g.length + 1⟩
  | _ => none

/-- The operand of an `ExtendOp`. -/
def extendOperand (g : NodeGraph) (i : ℕ) : Option ℕ :=
  match g.vertex i with
  | some ⟨⟨.logic (.core (.zeroExt _)), _⟩, [x]⟩ => some x
  | some ⟨⟨.logic (.core (.signExt _)), _⟩, [x]⟩ => some x
  | _ => none

/-- An extension to the width of its operand is removed. -/
def removeExtension (g : NodeGraph) (i : ℕ) : Option Rewrite := do
  let x ← extendOperand g i
  let bitCount ← bitCountOrDie g i
  let operandBitCount ← bitCountOrDie g x
  if bitCount = operandBitCount then some ⟨[], x⟩ else none

/-- A zero-extension becomes a concat; it must be to a greater width. -/
def zeroExtension (g : NodeGraph) (i : ℕ) : Option (Option Rewrite) :=
  match g.vertex i with
  | some ⟨⟨.logic (.core (.zeroExt _)), _⟩, [x]⟩ => do
    let bitCount ← bitCountOrDie g i
    let operandBitCount ← bitCountOrDie g x
    if operandBitCount < bitCount then
      some (some ⟨[literalNode (Bits.zero (bitCount - operandBitCount)),
        ⟨⟨.logic (.core .concat), .bits (bitCount - operandBitCount + operandBitCount)⟩,
          [g.length, x]⟩], g.length + 1⟩)
    else none
  | _ => some none

/-- The operand of a `Not`. -/
def notOperand (g : NodeGraph) (i : ℕ) : Option ℕ :=
  match g.vertex i with
  | some ⟨⟨.logic .not, _⟩, [x]⟩ => some x
  | _ => none

/-- A two-way select with an inverted selector. -/
def invertedSelect (g : NodeGraph) (i : ℕ) : Option Rewrite :=
  match asSelect g i with
  | some (selector, [case0, case1], none) => do
    let p ← notOperand g selector
    let t ← g.typeOf case1
    some (replaceWithNew g (selectNode t p [case1, case0]))
  | _ => none

/-- `1ULL << bitCount`.  For more than 63 the result is undefined in C++, and here a parameter. -/
def shiftOne (overlong : ℕ → BitVec 64) (bitCount : ℕ) : ℕ :=
  if bitCount < 64 then 2 ^ bitCount else (overlong bitCount).toNat

/-- The default of a select which stands for a single value of the selector. -/
def singleDefault (overlong : ℕ → BitVec 64) (g : NodeGraph) (i : ℕ) :
    Option (ℕ × List ℕ × ℕ) :=
  match asSelect g i with
  | some (selector, cases, some default) =>
    match bitCountOrDie g selector with
    | some w => if cases.length + 1 = shiftOne overlong w then some (selector, cases, default)
      else none
    | none => none
  | _ => none

/-- Such a default becomes the last case. -/
def defaultToCase (overlong : ℕ → BitVec 64) (g : NodeGraph) (i : ℕ) : Option Rewrite := do
  let (selector, cases, default) ← singleDefault overlong g i
  let first ← (cases ++ [default]).head?
  let t ← g.typeOf first
  some (replaceWithNew g (selectNode t selector (cases ++ [default])))

/-- The rules in turn; `none` is a failed check. -/
def rewriteNode (overlong : ℕ → BitVec 64) (g : NodeGraph) (i : ℕ) : Option (Option Rewrite) :=
  match commuteOperands g i <|> commuteComparison g i <|> strictComparison g i <|>
      canonicalizeClamp g i <|> subtractLiteral g i <|> removeExtension g i with
  | some rewrite => some (some rewrite)
  | none =>
    match zeroExtension g i with
    | none => none
    | some (some rewrite) => some (some rewrite)
    | some none => some (invertedSelect g i <|> defaultToCase overlong g i)

/-- `CanonicalizeNode`, but for the replacement of the uses: the graph with the new nodes, and the
node which replaces the old one. -/
def canonicalizeNode (overlong : ℕ → BitVec 64) (g : NodeGraph) (i : ℕ) :
    Option (Option (NodeGraph × ℕ)) :=
  match rewriteNode overlong g i with
  | none => none
  | some none => some none
  | some (some rewrite) =>
    (g.makeNodes rewrite.newNodes).map fun g' => some (g', rewrite.replacement)

/-! ## What the rules rewrite -/

variable {g : NodeGraph} {i k : ℕ} {rewrite : Rewrite}

/-- A literal moves to the second operand. -/
theorem commuteOperands_eq_some (h : commuteOperands g i = some rewrite) : ∃ d x y t,
    g.vertex i = some ⟨d, [x, y]⟩ ∧ opIsCommutative d.op = true ∧ isLiteral g x = true ∧
      isLiteral g y = false ∧ cloneType g d y = some t ∧
      rewrite = replaceWithNew g ⟨⟨d.op, t⟩, [y, x]⟩ := by
  unfold commuteOperands at h
  split at h
  · rename_i d x y hvertex
    split at h
    · rename_i hcond
      obtain ⟨t, ht, rfl⟩ := Option.map_eq_some_iff.mp h
      rw [Bool.and_eq_true, Bool.and_eq_true, Bool.not_eq_true'] at hcond
      exact ⟨d, x, y, t, hvertex, hcond.1.1, hcond.1.2, hcond.2, ht, rfl⟩
    · cases h
  · cases h

/-! ## Comparisons -/

/-- A comparison is turned around. -/
theorem commuteComparison_eq_some (h : commuteComparison g i = some rewrite) : ∃ op op' t x y,
    g.vertex i = some ⟨⟨.logic (.core op), t⟩, [x, y]⟩ ∧ compareOpCommuted op = some op' ∧
      isLiteral g x = true ∧ isLiteral g y = false ∧
      rewrite = replaceWithNew g (compareNode op' y x) := by
  unfold commuteComparison at h
  split at h
  · rename_i op t x y hvertex
    split at h
    · rename_i hcond
      obtain ⟨op', hop', rfl⟩ := Option.map_eq_some_iff.mp h
      rw [Bool.and_eq_true, Bool.not_eq_true'] at hcond
      exact ⟨op, op', t, x, y, hvertex, hop', hcond.1, hcond.2, rfl⟩
    · cases h
  · cases h

/-- A comparison with a literal becomes strict. -/
theorem strictComparison_eq_some (h : strictComparison g i = some rewrite) :
    ∃ op t x y literal b op', g.vertex i = some ⟨⟨.logic (.core op), t⟩, [x, y]⟩ ∧
      literalBits g y = some literal ∧
      (op = .uge ∧ literal.isZero = false ∧ b = BitsOps.decrement literal ∧ op' = .ugt ∨
        op = .ule ∧ literal.isAllOnes = false ∧ b = BitsOps.increment literal ∧ op' = .ult) ∧
      rewrite = ⟨[literalNode b, compareNode op' x g.length], g.length + 1⟩ := by
  unfold strictComparison at h
  split at h
  · rename_i op t x y hvertex
    obtain ⟨literal, hliteral, hrule⟩ := Option.bind_eq_some_iff.mp h
    split at hrule
    · rename_i hcond
      exact ⟨op, t, x, y, literal, _, _, hvertex, hliteral, Or.inl ⟨hcond.1, hcond.2, rfl, rfl⟩,
        (Option.some.inj hrule).symm⟩
    · split at hrule
      · rename_i hcond
        exact ⟨op, t, x, y, literal, _, _, hvertex, hliteral,
          Or.inr ⟨hcond.1, hcond.2, rfl, rfl⟩, (Option.some.inj hrule).symm⟩
      · cases hrule
  · cases h

/-- The parts of a clamp. -/
theorem matchClamp_eq_some {a : ℕ} {op : Op} (h : matchClamp g i = some (a, k, op)) :
    ∃ selector d c default cmp type b, asSelect g i = some (selector, [d, c], default) ∧
      g.vertex selector = some ⟨⟨.logic (.core cmp), type⟩, [a, b]⟩ ∧
      clampForm g cmp a b c d = some (k, op) := by
  unfold matchClamp at h
  split at h
  · rename_i selector d c default _ hselect
    split at h
    · rename_i cmp type a' b hvertex
      obtain ⟨⟨k', op'⟩, hform, hparts⟩ := Option.map_eq_some_iff.mp h
      obtain ⟨rfl, hliteral⟩ := Prod.mk.inj hparts
      obtain ⟨rfl, rfl⟩ := Prod.mk.inj hliteral
      exact ⟨selector, d, c, default, cmp, type, b, hselect, hvertex, hform⟩
    · cases h
  · cases h

/-- A clamp becomes a select on its comparison. -/
theorem canonicalizeClamp_eq_some (h : canonicalizeClamp g i = some rewrite) : ∃ a k op t,
    matchClamp g i = some (a, k, op) ∧ g.typeOf a = some t ∧
      rewrite = ⟨[compareNode op a k, selectNode t g.length [a, k]], g.length + 1⟩ := by
  obtain ⟨⟨a, k, op⟩, hmatch, hrule⟩ := Option.bind_eq_some_iff.mp h
  obtain ⟨t, ht, hrule⟩ := Option.bind_eq_some_iff.mp hrule
  exact ⟨a, k, op, t, hmatch, ht, (Option.some.inj hrule).symm⟩

/-! ## Differences and extensions -/

/-- A difference becomes a sum. -/
theorem subtractLiteral_eq_some (h : subtractLiteral g i = some rewrite) : ∃ type x y literal t,
    g.vertex i = some ⟨⟨.logic (.core .sub), type⟩, [x, y]⟩ ∧ literalBits g y = some literal ∧
      g.typeOf x = some t ∧ rewrite = ⟨[literalNode (BitsOps.negate literal),
        ⟨⟨.logic (.core .add), t⟩, [x, g.length]⟩], g.length + 1⟩ := by
  unfold subtractLiteral at h
  split at h
  · rename_i type x y hvertex
    obtain ⟨literal, hliteral, hrule⟩ := Option.bind_eq_some_iff.mp h
    obtain ⟨t, ht, hrule⟩ := Option.bind_eq_some_iff.mp hrule
    exact ⟨type, x, y, literal, t, hvertex, hliteral, ht, (Option.some.inj hrule).symm⟩
  · cases h

/-- An extension to the same width goes away. -/
theorem removeExtension_eq_some (h : removeExtension g i = some rewrite) : ∃ x w,
    extendOperand g i = some x ∧ bitCountOrDie g i = some w ∧ bitCountOrDie g x = some w ∧
      rewrite = ⟨[], x⟩ := by
  obtain ⟨x, hx, hrule⟩ := Option.bind_eq_some_iff.mp h
  obtain ⟨w, hw, hrule⟩ := Option.bind_eq_some_iff.mp hrule
  obtain ⟨m, hm, hrule⟩ := Option.bind_eq_some_iff.mp hrule
  split at hrule
  · rename_i hwidth
    subst hwidth
    exact ⟨x, w, hx, hw, hm, (Option.some.inj hrule).symm⟩
  · cases hrule

/-- A zero extension becomes a concatenation. -/
theorem zeroExtension_eq_some (h : zeroExtension g i = some (some rewrite)) : ∃ v type x w m,
    g.vertex i = some ⟨⟨.logic (.core (.zeroExt v)), type⟩, [x]⟩ ∧ bitCountOrDie g i = some w ∧
      bitCountOrDie g x = some m ∧ m < w ∧
      rewrite = ⟨[literalNode (Bits.zero (w - m)),
        ⟨⟨.logic (.core .concat), .bits (w - m + m)⟩, [g.length, x]⟩], g.length + 1⟩ := by
  unfold zeroExtension at h
  split at h
  · rename_i v type x hvertex
    obtain ⟨w, hw, hrule⟩ := Option.bind_eq_some_iff.mp h
    obtain ⟨m, hm, hrule⟩ := Option.bind_eq_some_iff.mp hrule
    split at hrule
    · rename_i hlt
      exact ⟨v, type, x, w, m, hvertex, hw, hm, hlt, (Option.some.inj (Option.some.inj hrule)).symm⟩
    · cases hrule
  · cases h

/-! ## Selects -/

/-- The operand of an inversion. -/
theorem notOperand_eq_some {p : ℕ} (h : notOperand g k = some p) :
    ∃ t, g.vertex k = some ⟨⟨.logic .not, t⟩, [p]⟩ := by
  unfold notOperand at h
  split at h
  · rename_i t x hvertex
    obtain rfl := Option.some.inj h
    exact ⟨t, hvertex⟩
  · cases h

/-- The cases of an inverted selector are swapped. -/
theorem invertedSelect_eq_some (h : invertedSelect g i = some rewrite) :
    ∃ selector case0 case1 p t, asSelect g i = some (selector, [case0, case1], none) ∧
      notOperand g selector = some p ∧ g.typeOf case1 = some t ∧
      rewrite = replaceWithNew g (selectNode t p [case1, case0]) := by
  unfold invertedSelect at h
  split at h
  · rename_i selector case0 case1 hselect
    obtain ⟨p, hp, hrule⟩ := Option.bind_eq_some_iff.mp h
    obtain ⟨t, ht, hrule⟩ := Option.bind_eq_some_iff.mp hrule
    exact ⟨selector, case0, case1, p, t, hselect, hp, ht, (Option.some.inj hrule).symm⟩
  · cases h

variable {overlong : ℕ → BitVec 64}

/-- A default which stands for one case. -/
theorem singleDefault_eq_some {selector default : ℕ} {cases : List ℕ} :
    singleDefault overlong g i = some (selector, cases, default) ↔
      asSelect g i = some (selector, cases, some default) ∧
        ∃ w, bitCountOrDie g selector = some w ∧ cases.length + 1 = shiftOne overlong w := by
  unfold singleDefault
  constructor
  · intro h
    split at h
    · rename_i s cs d hselect
      split at h
      · rename_i w hw
        split at h
        · rename_i hsingle
          cases h
          exact ⟨hselect, w, hw, hsingle⟩
        · cases h
      · cases h
    · cases h
  · rintro ⟨hselect, w, hw, hsingle⟩
    rw [hselect]
    simp only [hw]
    rw [if_pos hsingle]

/-- It becomes that case. -/
theorem defaultToCase_eq_some (h : defaultToCase overlong g i = some rewrite) :
    ∃ selector cases default t, singleDefault overlong g i = some (selector, cases, default) ∧
        rewrite = replaceWithNew g (selectNode t selector (cases ++ [default])) := by
  obtain ⟨⟨selector, cases, default⟩, hsingle, hrule⟩ := Option.bind_eq_some_iff.mp h
  obtain ⟨first, -, hrule⟩ := Option.bind_eq_some_iff.mp hrule
  obtain ⟨t, -, hrule⟩ := Option.bind_eq_some_iff.mp hrule
  exact ⟨selector, cases, default, t, hsingle, (Option.some.inj hrule).symm⟩

/-- The rules, one by one. -/
theorem rewriteNode_cases (h : rewriteNode overlong g i = some (some rewrite)) :
    commuteOperands g i = some rewrite ∨ commuteComparison g i = some rewrite ∨
      strictComparison g i = some rewrite ∨ canonicalizeClamp g i = some rewrite ∨
      subtractLiteral g i = some rewrite ∨ removeExtension g i = some rewrite ∨
      zeroExtension g i = some (some rewrite) ∨ invertedSelect g i = some rewrite ∨
      defaultToCase overlong g i = some rewrite := by
  unfold rewriteNode at h
  split at h
  · rename_i first hfirst
    obtain rfl := Option.some.inj (Option.some.inj h)
    simp only [Option.orElse_eq_orElse, Option.orElse_eq_or, Option.or_eq_some_iff] at hfirst
    rcases hfirst with h | ⟨-, h | ⟨-, h | ⟨-, h | ⟨-, h | ⟨-, h⟩⟩⟩⟩⟩ <;> simp [h]
  · split at h
    · cases h
    · rename_i second hsecond
      obtain rfl := Option.some.inj (Option.some.inj h)
      simp [hsecond]
    · have hlast := Option.some.inj h
      rw [Option.orElse_eq_orElse, Option.orElse_eq_or, Option.or_eq_some_iff] at hlast
      rcases hlast with h | ⟨-, h⟩ <;> simp [h]

end Canonicalization

end Xls
