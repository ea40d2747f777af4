/-
# Parsing numbers

`ParseNumber` reads back what `BitsToString` writes.  A decimal number is read digit by digit
and narrowed after each of them; a binary or hexadecimal number is read in groups of 64 bits.
The result of a number which is not negative has the width of an unsigned number, so that a
signed value is read back with its sign only when it is negative.

* `parseChunks_eq` : the groups join to the number;
* `parseDecimal_eq` : the narrowed sums are the number;
* `toInt_dropLeadingOnes` : a negative number keeps its value when leading ones are dropped;
* `parseNumber_bitsToString` : the round trip.
-/
import Xls.Ir.BitsFormat

namespace Xls
namespace BitsOps

/-- What ends a parse without a number: an error status, a failed `XLS_RET_CHECK`, and a
failed `XLS_CHECK` or `XLS_LOG(FATAL)`. -/
inductive ParseFailure where
  | invalidArgument (message : String)
  | internal
  | fatal
  deriving DecidableEq, Repr

/-! ## Groups of digits -/

/-- `char_to_digit` of `StrTo64Base`: in the bases up to ten a character below zero wraps
around to a digit which is too large. -/
def charToDigit (original : List Char) (base : ℕ) (c : Char) : Except ParseFailure ℕ :=
  let error := ParseFailure.invalidArgument
    ("Number character '" ++ c.toString ++ "' is invalid for numeric base " ++ toString base ++
      " in \"" ++ String.ofList original ++ "\"")
  if base = 2 ∨ base = 8 ∨ base = 10 then
    if '0' ≤ c ∧ c.toNat - '0'.toNat < base then .ok (c.toNat - '0'.toNat) else .error error
  else if base = 16 then
    if 'a' ≤ c ∧ c ≤ 'f' then .ok (c.toNat - 'a'.toNat + 10)
    else if 'A' ≤ c ∧ c ≤ 'F' then .ok (c.toNat - 'A'.toNat + 10)
    else if '0' ≤ c ∧ c ≤ '9' then .ok (c.toNat - '0'.toNat)
    else .error error
  else .error .fatal

/-- One character of the loop of `StrTo64Base`. -/
def accumulate (original : List Char) (base accum : ℕ) (c : Char) : Except ParseFailure ℕ := do
  let digit ← charToDigit original base c
  let accum := accum * base + digit
  if accum / 2 ^ 64 ≠ 0 then
    .error (.invalidArgument ("Number overflows 64-bit integer: \"" ++ String.ofList original ++ "\""))
  else .ok accum

/-- `absl::ConsumePrefix`. -/
def consumePrefix (s pre : List Char) : Bool × List Char :=
  if pre.isPrefixOf s then (true, s.drop pre.length) else (false, s)

/-- `StrTo64Base`, as a number of 64 bits. -/
def strTo64Base (s : List Char) (base : ℕ) : Except ParseFailure ℕ :=
  if s = ['0'] ∨ s = ['-', '0'] then .ok 0
  else do
    let original := s
    let (negated, s) := consumePrefix s ['-']
    let (base, s) :=
      if base = 0 then
        if (consumePrefix s ['0', 'b']).1 then (2, (consumePrefix s ['0', 'b']).2)
        else if (consumePrefix s ['0', 'x']).1 then (16, (consumePrefix s ['0', 'x']).2)
        else if (consumePrefix s ['0']).1 then (8, (consumePrefix s ['0']).2)
        else (10, s)
      else if base = 16 then (16, (consumePrefix s ['0', 'x']).2)
      else if base = 8 then (8, (consumePrefix s ['0']).2)
      else if base = 2 then (2, (consumePrefix s ['0', 'b']).2)
      else (base, s)
    if base < 2 then .error .internal
    else if s.isEmpty then
      .error (.invalidArgument
        ("Number contained no digits: \"" ++ String.ofList original ++ "\""))
    else do
      let accum ← s.foldlM (accumulate original base) 0
      .ok (if negated then (2 ^ 64 - accum) % 2 ^ 64 else accum)

/-! ## Unsigned numbers -/

section Parse

-- `absl::SimpleAtoi` for a `uint32_t`
variable (simpleAtoi : List Char → Option ℕ)

/-- One character of the decimal loop. -/
def decimalStep (origString : List Char) (result : Bits) (c : Char) : Except ParseFailure Bits :=
  let result := uMul result (Bits.ofNat 8 10)
  match simpleAtoi [c] with
  | none => .error (.invalidArgument
      ("Could not convert " ++ String.ofList origString ++ " to 32-bit decimal number"))
  | some magnitude =>
    match Bits.uBits magnitude result.bitCount with
    | none => .error .fatal
    | some newChar => .ok (dropLeadingZeroes (add result newChar))

/-- The loop over groups of `stepSize` characters, most significant group first; each round
takes at least one character. -/
def parseChunks (origString : List Char) (base baseBits stepSize : ℕ) (baseName : String) :
    ℕ → List Char → Except ParseFailure (List Bits)
  | 0, _ => .ok []
  | fuel + 1, s =>
    if s.isEmpty then .ok []
    else
      let chunk := s.take stepSize
      match strTo64Base chunk base with
      | .error (.invalidArgument message) => .error (.invalidArgument
          ("Could not convert " ++ String.ofList origString ++ " to " ++ baseName ++ " number: " ++
            message))
      | .error failure => .error failure
      | .ok chunkValue =>
        match Bits.uBits chunkValue (chunk.length * baseBits) with
        | none => .error .fatal
        | some bits => do
          let chunks ← parseChunks origString base baseBits stepSize baseName fuel (s.drop stepSize)
          .ok (bits :: chunks)

/-- `ParseUnsignedNumberHelper`; without a bit count, `kMinimumBitCount`. -/
def parseUnsignedNumberHelper (input : List Char) (format : FormatPreference)
    (origString : List Char) (bitCount : Option ℕ) : Except ParseFailure Bits :=
  if format = .default then .error (.invalidArgument "Cannot specify default format.")
  else
    let numericString := input.filter (· ≠ '_')
    if numericString.isEmpty then .error (.invalidArgument
      ("Could not convert " ++ String.ofList origString ++ " to a number"))
    else if format = .unsignedDecimal then
      numericString.foldlM (decimalStep simpleAtoi origString) (Bits.zero 32)
    else if format = .binary ∨ format = .hex then do
      let (base, baseBits, baseName) :=
        if format = .binary then (2, 1, "binary") else (16, 4, "hexadecimal")
      let chunks ← parseChunks origString base baseBits (64 / baseBits) baseName
        numericString.length numericString
      let unnarrowed := concat chunks
      match bitCount with
      | none => .ok (slice unnarrowed 0 (unnarrowed.bitCount - unnarrowed.countLeadingZeros))
      | some bitCount =>
        if bitCount > unnarrowed.bitCount then
          .ok (append (Bits.zero (bitCount - unnarrowed.bitCount)) unnarrowed)
        else .ok (slice unnarrowed 0 bitCount)
    else .error (.invalidArgument ("Invalid format: " ++ toString format.number))

/-! ## Signs and prefixes -/

/-- `GetSignAndMagnitude`. -/
def getSignAndMagnitude (input : List Char) : Except ParseFailure (Bool × Bits) := do
  if input.isEmpty then .error (.invalidArgument "Cannot parse empty string as a number.")
  else
    let isNegative := input.head? == some '-'
    let numericSubstring := if isNegative then input.drop 1 else input
    match numericSubstring with
    | '0' :: baseChar :: rest =>
      if baseChar = 'b' then do
        let value ← parseUnsignedNumberHelper simpleAtoi rest .binary input none
        .ok (isNegative, value)
      else if baseChar = 'x' then do
        let value ← parseUnsignedNumberHelper simpleAtoi rest .hex input none
        .ok (isNegative, value)
      else .error (.invalidArgument ("Invalid numeric base 0x" ++
        String.ofList (Nat.toDigits 16 baseChar.toNat) ++ " = '" ++ baseChar.toString ++
        "'. Expected 'b' or 'x'."))
    | _ => do
      let value ← parseUnsignedNumberHelper simpleAtoi numericSubstring .unsignedDecimal input none
      .ok (isNegative, value)

/-- The number of leading ones. -/
def leadingOnes (b : Bits) : ℕ := ((List.range b.bitCount).reverse.takeWhile b.get).length

/-- `ParseNumber`: a negative number keeps one leading one. -/
def parseNumber (input : List Char) : Except ParseFailure Bits := do
  let (isNegative, magnitude) ← getSignAndMagnitude simpleAtoi input
  if isNegative && !magnitude.isZero then
    let result := negate (zeroExtend magnitude (magnitude.bitCount + 1))
    if 0 < leadingOnes result then
      .ok (slice result 0 (result.bitCount - leadingOnes result + 1))
    else .error .internal
  else .ok magnitude

end Parse

/-! ## Reading groups of digits -/

variable {d base : ℕ} {c : Char} {ds : List ℕ}

theorem digitChar_ne (h : d < 16) : Nat.digitChar d ≠ '-' ∧ Nat.digitChar d ≠ 'x' := by
  interval_cases d <;> decide

theorem digitChar_ne_b (h : d < 2) : Nat.digitChar d ≠ 'b' := by
  interval_cases d <;> decide

theorem charToDigit_hex (original : List Char) (h : d < 16) :
    charToDigit original 16 (Nat.digitChar d) = .ok d := by
  interval_cases d <;> rfl

theorem charToDigit_binary (original : List Char) (h : d < 2) :
    charToDigit original 2 (Nat.digitChar d) = .ok d := by
  interval_cases d <;> rfl

/-- A prefix with a character which does not occur is not consumed. -/
theorem consumePrefix_of_notMem {s pre : List Char} (hpre : c ∈ pre) (hs : c ∉ s) :
    consumePrefix s pre = (false, s) := by
  rw [consumePrefix, if_neg]
  rw [List.isPrefixOf_iff_prefix]
  exact fun h => hs (h.subset hpre)

theorem accumulate_ok {original : List Char} {accum : ℕ} (hd : charToDigit original base c = .ok d)
    (hfit : accum * base + d < 2 ^ 64) :
    accumulate original base accum c = .ok (accum * base + d) := by
  rw [accumulate, hd]
  show (if (accum * base + d) / 2 ^ 64 ≠ 0 then _ else _) = _
  rw [if_neg fun h => h (Nat.div_eq_of_lt hfit)]

/-- Digits are accumulated to the number they write, as long as it has 64 bits. -/
theorem foldlM_accumulate (original : List Char) (hbase : 0 < base)
    (hdigit : ∀ d ∈ ds, charToDigit original base (Nat.digitChar d) = .ok d)
    (hfit : Numeral.value base ds < 2 ^ 64) :
    (ds.map Nat.digitChar).foldlM (accumulate original base) 0 = .ok (Numeral.value base ds) := by
  induction ds using List.reverseRecOn with
  | nil => rfl
  | append_singleton ds d ih =>
    rw [Numeral.value_concat] at hfit ⊢
    have hle : Numeral.value base ds ≤ Numeral.value base ds * base :=
      Nat.le_mul_of_pos_right _ hbase
    have hrest := ih (fun e he => hdigit e (by simp [he])) (by omega)
    have hstep := accumulate_ok (hdigit d (by simp)) hfit
    rw [List.map_append, List.foldlM_append, hrest]
    show List.foldlM (accumulate original base) (Numeral.value base ds) [Nat.digitChar d] = _
    rw [List.foldlM_cons, hstep]
    rfl

/-- A group of binary or hexadecimal digits is the number they write. -/
theorem strTo64Base_eq {baseBits : ℕ} (hbase : base = 2 ∧ baseBits = 1 ∨ base = 16 ∧ baseBits = 4)
    (hds : ∀ d ∈ ds, d < base) (hne : ds ≠ []) (hlength : ds.length ≤ 64 / baseBits) :
    strTo64Base (ds.map Nat.digitChar) base = .ok (Numeral.value base ds) := by
  have hsixteen : ∀ d ∈ ds, d < 16 := fun d hd => (hds d hd).trans_le (by omega)
  have hminus : '-' ∉ ds.map Nat.digitChar := by
    intro h
    obtain ⟨d, hd, hchar⟩ := List.mem_map.mp h
    exact (digitChar_ne (hsixteen d hd)).1 hchar
  have hpow : base = 2 ^ baseBits := by
    rcases hbase with ⟨rfl, rfl⟩ | ⟨rfl, rfl⟩ <;> rfl
  have hfit : Numeral.value base ds < 2 ^ 64 := by
    calc Numeral.value base ds < base ^ ds.length := Numeral.value_lt hds
      _ = 2 ^ (baseBits * ds.length) := by rw [hpow, pow_mul]
      _ ≤ 2 ^ 64 := Nat.pow_le_pow_right Nat.two_pos
        ((Nat.mul_le_mul_left _ hlength).trans (Nat.mul_div_le 64 baseBits))
  rw [strTo64Base]
  split
  · rename_i hzero
    rcases hzero with hzero | hzero
    · -- the shortcut for zero
      obtain ⟨d, hd⟩ : ∃ d, ds = [d] :=
        List.length_eq_one_iff.mp (by simpa using congrArg List.length hzero)
      subst hd
      have hd16 := hsixteen d (by simp)
      have hd0 : d = 0 := by
        revert hzero
        interval_cases d <;> decide
      rw [hd0]
      simp [Numeral.value]
    · exact absurd (hzero ▸ List.mem_cons_self) hminus
  · rw [consumePrefix_of_notMem (List.mem_singleton_self '-') hminus]
    rcases hbase with ⟨rfl, -⟩ | ⟨rfl, -⟩
    · have hpre : 'b' ∉ ds.map Nat.digitChar := by
        intro h
        obtain ⟨d, hd, hchar⟩ := List.mem_map.mp h
        exact digitChar_ne_b (hds d hd) hchar
      have hfold := foldlM_accumulate (ds.map Nat.digitChar) Nat.two_pos
        (fun d hd => charToDigit_binary _ (hds d hd)) hfit
      simp only [consumePrefix_of_notMem (show 'b' ∈ ['0', 'b'] by simp) hpre]
      simp [hfold, hne]
      rfl
    · have hpre : 'x' ∉ ds.map Nat.digitChar := by
        intro h
        obtain ⟨d, hd, hchar⟩ := List.mem_map.mp h
        exact (digitChar_ne (hsixteen d hd)).2 hchar
      have hfold := foldlM_accumulate (ds.map Nat.digitChar) (by decide)
        (fun d hd => charToDigit_hex _ (hds d hd)) hfit
      simp only [consumePrefix_of_notMem (show 'x' ∈ ['0', 'x'] by simp) hpre]
      simp [hfold, hne]
      rfl

/-- Joined groups stand below what was joined before. -/
theorem foldl_append (bs : List Bits) (acc : Bits) :
    (bs.foldl append acc).bitCount = acc.bitCount + (concat bs).bitCount ∧
      (bs.foldl append acc).toNat = acc.toNat * 2 ^ (concat bs).bitCount + (concat bs).toNat := by
  induction bs generalizing acc with
  | nil => simp [concat]
  | cons b bs ih =>
    obtain ⟨hcount, hvalue⟩ := ih (append acc b)
    obtain ⟨hcount', hvalue'⟩ := ih (append (Bits.zero 0) b)
    rw [List.foldl_cons, concat, List.foldl_cons, hcount, hvalue, hcount', hvalue']
    simp only [append_bitCount, append_toNat, Bits.zero_bitCount, Bits.zero_toNat]
    constructor
    · omega
    · ring

theorem concat_cons (b : Bits) (bs : List Bits) :
    (concat (b :: bs)).bitCount = b.bitCount + (concat bs).bitCount ∧
      (concat (b :: bs)).toNat = b.toNat * 2 ^ (concat bs).bitCount + (concat bs).toNat := by
  have h := foldl_append bs (append (Bits.zero 0) b)
  rw [append_bitCount, append_toNat, Bits.zero_bitCount, Bits.zero_toNat, Nat.zero_mul,
    Nat.zero_add, Nat.zero_add] at h
  exact h

/-- The groups of binary or hexadecimal digits join to the number they write. -/
theorem parseChunks_eq (origString : List Char) (baseName : String) {baseBits : ℕ}
    (hbase : base = 2 ∧ baseBits = 1 ∨ base = 16 ∧ baseBits = 4) (fuel : ℕ)
    (hds : ∀ d ∈ ds, d < base) (hfuel : ds.length ≤ fuel) : ∃ chunks,
    parseChunks origString base baseBits (64 / baseBits) baseName fuel (ds.map Nat.digitChar) =
        .ok chunks ∧
      (concat chunks).bitCount = ds.length * baseBits ∧
      (concat chunks).toNat = Numeral.value base ds := by
  have hpow : base = 2 ^ baseBits := by
    rcases hbase with ⟨rfl, rfl⟩ | ⟨rfl, rfl⟩ <;> rfl
  have hstep : 0 < 64 / baseBits := by
    rcases hbase with ⟨-, rfl⟩ | ⟨-, rfl⟩ <;> decide
  induction fuel generalizing ds with
  | zero =>
    rw [List.length_eq_zero_iff.mp (Nat.le_zero.mp hfuel)]
    exact ⟨[], rfl, by simp [concat], rfl⟩
  | succ fuel ih =>
    rcases ds with _ | ⟨d, ds⟩
    · exact ⟨[], rfl, by simp [concat], rfl⟩
    · set step := 64 / baseBits with hstepdef
      set first := (d :: ds).take step with hfirst
      set rest := (d :: ds).drop step with hrest
      have hsplit : first ++ rest = d :: ds := List.take_append_drop _ _
      have hchunk : strTo64Base (first.map Nat.digitChar) base = .ok (Numeral.value base first) :=
        strTo64Base_eq hbase (fun e he => hds e (List.mem_of_mem_take he))
          (by rw [ne_eq, List.take_eq_nil_iff]; simp; omega)
          (List.length_take_le _ _)
      have hfit : Numeral.value base first < 2 ^ (first.length * baseBits) := by
        rw [Nat.mul_comm, pow_mul, ← hpow]
        exact Numeral.value_lt fun e he => hds e (List.mem_of_mem_take he)
      obtain ⟨chunks, hchunks, hcount, hvalue⟩ := ih
        (show ∀ e ∈ rest, e < base from fun e he => hds e (List.mem_of_mem_drop he))
        (by rw [List.length_drop]; omega)
      refine ⟨⟨first.length * baseBits, Numeral.value base first, hfit⟩ :: chunks, ?_, ?_, ?_⟩
      · rw [parseChunks, ← List.map_take, ← List.map_drop, ← hfirst, ← hrest]
        simp only [hchunk]
        simp [Bits.uBits, hfit, hchunks]
        rfl
      · rw [(concat_cons _ _).1, hcount, ← hsplit, List.length_append, Nat.add_mul]
      · rw [(concat_cons _ _).2, hcount, hvalue, ← hsplit, Numeral.value_append,
          Nat.mul_comm rest.length, pow_mul, ← hpow]

/-! ## Reading decimal digits -/

/-- What is documented of `absl::SimpleAtoi` on a decimal digit. -/
def ReadsDigits (simpleAtoi : List Char → Option ℕ) : Prop :=
  ∀ d < 10, simpleAtoi [Nat.digitChar d] = some d

section Atoi

variable {simpleAtoi : List Char → Option ℕ}

variable (hatoi : ReadsDigits simpleAtoi)

section

include hatoi

/-- One decimal digit; the product leaves room for it. -/
theorem decimalStep_digitChar (origString : List Char) (result : Bits) (h : d < 10) :
    ∃ r, decimalStep simpleAtoi origString result (Nat.digitChar d) = .ok r ∧
      r.toNat = result.toNat * 10 + d := by
  have hproduct : (uMul result (Bits.ofNat 8 10)).toNat = result.toNat * 10 := uMul_toNat _ _
  have hcount : (uMul result (Bits.ofNat 8 10)).bitCount = result.bitCount + 8 := rfl
  have hlt := result.isLt
  have hroom : result.toNat * 10 + d < 2 ^ (result.bitCount + 8) := by
    rw [pow_add]
    omega
  refine ⟨dropLeadingZeroes (add (uMul result (Bits.ofNat 8 10))
    ⟨result.bitCount + 8, d, by omega⟩), ?_, ?_⟩
  · rw [decimalStep, hatoi d h]
    simp only [Bits.uBits, hcount, show d < 2 ^ (result.bitCount + 8) by omega, dif_pos]
  · rw [dropLeadingZeroes_toNat, add_toNat_of_lt, hproduct]
    rw [hproduct]
    exact hroom

/-- The decimal loop reads the number which its digits write. -/
theorem parseDecimal_eq (origString : List Char) (hds : ∀ d ∈ ds, d < 10) (width : ℕ) :
    ∃ r, (ds.map Nat.digitChar).foldlM (decimalStep simpleAtoi origString) (Bits.zero width) =
      .ok r ∧ r.toNat = Numeral.value 10 ds := by
  induction ds using List.reverseRecOn with
  | nil => exact ⟨Bits.zero width, rfl, rfl⟩
  | append_singleton ds d ih =>
    obtain ⟨r, hr, hvalue⟩ := ih fun e he => hds e (by simp [he])
    obtain ⟨r', hr', hvalue'⟩ := decimalStep_digitChar hatoi origString r (hds d (by simp))
    refine ⟨r', ?_, by rw [hvalue', hvalue, Numeral.value_concat]⟩
    rw [List.map_append, List.foldlM_append, hr]
    show List.foldlM (decimalStep simpleAtoi origString) r [Nat.digitChar d] = _
    rw [List.foldlM_cons, hr']
    rfl

end

/-! ## Unsigned numbers -/

include hatoi in
/-- An unsigned number is read from the digits left when the separators are dropped. -/
theorem parseUnsignedNumberHelper_eq (origString : List Char) {input : List Char}
    {format : FormatPreference}
    (hformat : format = .unsignedDecimal ∧ base = 10 ∨ format = .binary ∧ base = 2 ∨
      format = .hex ∧ base = 16) (hinput : input.filter (· ≠ '_') = ds.map Nat.digitChar)
    (hds : ∀ d ∈ ds, d < base) (hne : ds ≠ []) :
    ∃ r, parseUnsignedNumberHelper simpleAtoi input format origString none = .ok r ∧
      r.toNat = Numeral.value base ds := by
  have hempty : (ds.map Nat.digitChar).isEmpty = false := by
    simpa using hne
  have hnarrow : ∀ b : Bits, (slice b 0 (b.bitCount - b.countLeadingZeros)).toNat = b.toNat :=
    dropLeadingZeroes_toNat
  rcases hformat with ⟨rfl, rfl⟩ | ⟨rfl, rfl⟩ | ⟨rfl, rfl⟩
  · obtain ⟨r, hr, hvalue⟩ := parseDecimal_eq hatoi origString hds 32
    refine ⟨r, ?_, hvalue⟩
    unfold parseUnsignedNumberHelper
    simp only [hinput, hempty]
    exact hr
  · obtain ⟨chunks, hchunks, -, hvalue⟩ := parseChunks_eq origString
      "binary" (Or.inl ⟨rfl, rfl⟩) (ds.map Nat.digitChar).length hds (by simp)
    refine ⟨_, ?_, (hnarrow (concat chunks)).trans hvalue⟩
    unfold parseUnsignedNumberHelper
    simp only [hinput, hempty]
    simp only [if_true, hchunks]
    rfl
  · obtain ⟨chunks, hchunks, -, hvalue⟩ := parseChunks_eq origString
      "hexadecimal" (Or.inr ⟨rfl, rfl⟩) (ds.map Nat.digitChar).length hds (by simp)
    refine ⟨_, ?_, (hnarrow (concat chunks)).trans hvalue⟩
    unfold parseUnsignedNumberHelper
    simp only [hinput, hempty]
    simp only [reduceCtorEq, if_false, hchunks]
    rfl

/-! ## Signs and prefixes -/

/-- What the big number library documents of the decimal text of an integer. -/
def decimalText (z : ℤ) : List Char :=
  if z < 0 then '-' :: Nat.toDigits 10 z.natAbs else Nat.toDigits 10 z.natAbs

theorem digitChar_ne_zero (h : d < 10) (h0 : d ≠ 0) : Nat.digitChar d ≠ '0' := by
  interval_cases d <;> first | exact absurd rfl h0 | decide

section

include hatoi

/-- A decimal text has no prefix, and its sign comes first. -/
theorem getSignAndMagnitude_decimalText (z : ℤ) : ∃ r,
    getSignAndMagnitude simpleAtoi (decimalText z) = .ok (decide (z < 0), r) ∧ r.toNat = z.natAbs := by
  obtain ⟨ds, hdigits, hds, hvalue, hne, hhead, hzero⟩ :=
    Numeral.exists_toDigits (show 1 < 10 by decide) z.natAbs
  have hfilter : (ds.map Nat.digitChar).filter (· ≠ '_') = ds.map Nat.digitChar := by
    rw [List.filter_eq_self]
    intro c hc
    obtain ⟨d, -, rfl⟩ := List.mem_map.mp hc
    simp
  rcases ds with _ | ⟨d, ds⟩
  · exact absurd rfl hne
  · have hd : d < 10 := hds d (by simp)
    obtain ⟨r, hr, hrvalue⟩ := parseUnsignedNumberHelper_eq hatoi (decimalText z)
      (Or.inl ⟨rfl, rfl⟩) hfilter hds hne
    refine ⟨r, ?_, hrvalue.trans hvalue⟩
    -- after the sign, no base is found
    have hbase : ∀ c rest, Nat.digitChar d :: ds.map Nat.digitChar ≠ '0' :: c :: rest := by
      intro c rest heq
      rw [List.cons.injEq] at heq
      by_cases hn : z.natAbs = 0
      · rw [(List.cons.inj (hzero hn)).2] at heq
        exact List.noConfusion rfl (heq_of_eq heq.2)
      · have hd0 : d ≠ 0 := fun h => hhead (by omega) (by rw [h, List.head?_cons])
        exact digitChar_ne_zero hd hd0 heq.1
    have hparse := hr
    rw [List.map_cons] at hdigits hparse
    by_cases hneg : z < 0
    · rw [decimalText, if_pos hneg, hdigits] at hparse ⊢
      rw [getSignAndMagnitude, decide_eq_true hneg]
      simp only [List.head?_cons, beq_self_eq_true, if_true, List.drop_succ_cons, List.drop_zero]
      rw [hparse]
      rfl
    · rw [decimalText, if_neg hneg, hdigits] at hparse ⊢
      have hhead' : ((Nat.digitChar d :: ds.map Nat.digitChar).head? == some '-') = false := by
        simp
      rw [getSignAndMagnitude, decide_eq_false hneg]
      simp only [Bool.false_eq_true, if_false, hhead']
      rw [hparse]
      rfl

/-- A binary or hexadecimal text is read from the digits behind its prefix. -/
theorem getSignAndMagnitude_prefix {text : List Char}
    (hc : c = 'b' ∧ base = 2 ∨ c = 'x' ∧ base = 16)
    (htext : text.filter (· ≠ '_') = ds.map Nat.digitChar) (hds : ∀ d ∈ ds, d < base)
    (hne : ds ≠ []) : ∃ r, getSignAndMagnitude simpleAtoi ('0' :: c :: text) = .ok (false, r) ∧
      r.toNat = Numeral.value base ds := by
  rcases hc with ⟨rfl, rfl⟩ | ⟨rfl, rfl⟩
  · obtain ⟨r, hr, hvalue⟩ := parseUnsignedNumberHelper_eq hatoi ('0' :: 'b' :: text)
      (Or.inr (Or.inl ⟨rfl, rfl⟩)) htext hds hne
    refine ⟨r, ?_, hvalue⟩
    rw [getSignAndMagnitude]
    simp [hr]
    rfl
  · obtain ⟨r, hr, hvalue⟩ := parseUnsignedNumberHelper_eq hatoi ('0' :: 'x' :: text)
      (Or.inr (Or.inr ⟨rfl, rfl⟩)) htext hds hne
    refine ⟨r, ?_, hvalue⟩
    rw [getSignAndMagnitude]
    simp [hr]
    rfl

end

/-! ## Negative numbers -/

theorem leadingOnes_le (b : Bits) : leadingOnes b ≤ b.bitCount := by
  have h := (List.takeWhile_prefix (l := (List.range b.bitCount).reverse) b.get).length_le
  rwa [List.length_reverse, List.length_range] at h

/-- The leading ones are set. -/
theorem testBit_of_leadingOnes {b : Bits} {i : ℕ} (hi : b.bitCount - leadingOnes b ≤ i)
    (hlt : i < b.bitCount) : b.toNat.testBit i = true := by
  have hpre := List.takeWhile_prefix (l := (List.range b.bitCount).reverse) b.get
  have hj : b.bitCount - 1 - i < ((List.range b.bitCount).reverse.takeWhile b.get).length := by
    show _ < leadingOnes b
    omega
  have hget := List.mem_takeWhile_imp (List.getElem_mem hj)
  rw [hpre.getElem, List.getElem_reverse, List.getElem_range, List.length_range] at hget
  rwa [show b.bitCount - 1 - (b.bitCount - 1 - i) = i by omega] at hget

/-- The leading ones stand above the rest of the number. -/
theorem div_eq_of_leadingOnes (b : Bits) :
    b.toNat / 2 ^ (b.bitCount - leadingOnes b) = 2 ^ leadingOnes b - 1 := by
  have hle := leadingOnes_le b
  refine Nat.eq_of_testBit_eq fun i => ?_
  rw [Nat.testBit_div_two_pow, Nat.testBit_two_pow_sub_one]
  by_cases hi : i < leadingOnes b
  · rw [testBit_of_leadingOnes (by omega) (by omega), decide_eq_true hi]
  · rw [decide_eq_false hi]
    exact Nat.testBit_lt_two_pow (b.isLt.trans_le (Nat.pow_le_pow_right Nat.two_pos (by omega)))

theorem leadingOnes_pos {b : Bits} (h : b.msb = true) : 0 < leadingOnes b := by
  obtain ⟨hcount, -⟩ := (msb_eq_true_iff b).mp h
  rw [Bits.msb, if_neg (by omega)] at h
  rw [leadingOnes, show b.bitCount = b.bitCount - 1 + 1 by omega, List.range_succ,
    List.reverse_append, List.reverse_singleton, List.singleton_append,
    List.takeWhile_cons_of_pos h]
  exact Nat.succ_pos _

/-- Without all but one of its leading ones a number keeps its signed value. -/
theorem toInt_dropLeadingOnes (b : Bits) (hpos : 0 < leadingOnes b) :
    toInt (slice b 0 (b.bitCount - leadingOnes b + 1)) = toInt b := by
  have hle := leadingOnes_le b
  have hdiv := div_eq_of_leadingOnes b
  set k := b.bitCount - leadingOnes b with hk
  set low := b.toNat % 2 ^ k with hlow
  have hcount : b.bitCount = k + leadingOnes b := by omega
  have htwo : 2 ^ leadingOnes b = 2 * 2 ^ (leadingOnes b - 1) := by
    rw [← pow_succ', Nat.sub_add_cancel hpos]
  have hhalf : 0 < 2 ^ (leadingOnes b - 1) := Nat.two_pow_pos _
  have hvalue : b.toNat + 2 ^ k = 2 ^ b.bitCount + low := by
    have h := Nat.div_add_mod b.toNat (2 ^ k)
    rw [hdiv, Nat.mul_sub, ← pow_add, ← hcount] at h
    have : 2 ^ k ≤ 2 ^ b.bitCount := Nat.pow_le_pow_right Nat.two_pos (by omega)
    omega
  have hslice : (slice b 0 (k + 1)).toNat = low + 2 ^ k := by
    show b.toNat / 2 ^ 0 % 2 ^ (k + 1) = _
    rw [pow_zero, Nat.div_one, pow_succ, Nat.mod_mul, hdiv,
      show (2 ^ leadingOnes b - 1) % 2 = 1 by omega, Nat.mul_one]
  have hmsb : b.msb = true := by
    rw [msb_eq_true_iff]
    have : 2 ^ k ≤ 2 ^ (b.bitCount - 1) := Nat.pow_le_pow_right Nat.two_pos (by omega)
    have : 2 ^ b.bitCount = 2 * 2 ^ (b.bitCount - 1) := by
      rw [← pow_succ', Nat.sub_add_cancel (by omega)]
    omega
  have hsliceMsb : (slice b 0 (k + 1)).msb = true := by
    rw [msb_eq_true_iff, slice_bitCount, Nat.add_sub_cancel]
    omega
  rw [toInt, toInt, hmsb, hsliceMsb, if_pos rfl, if_pos rfl, slice_bitCount, pow_succ]
  linarith

/-- The magnitude of a negative number is negated with room for its sign. -/
theorem negate_zeroExtend {m : Bits} (hpos : 0 < m.toNat) :
    (negate (zeroExtend m (m.bitCount + 1))).msb = true ∧
      toInt (negate (zeroExtend m (m.bitCount + 1))) = -m.toNat := by
  have hlt := m.isLt
  have hcount : (negate (zeroExtend m (m.bitCount + 1))).bitCount = m.bitCount + 1 :=
    zeroExtend_bitCount (Nat.le_succ _)
  have hvalue : (negate (zeroExtend m (m.bitCount + 1))).toNat =
      2 ^ (m.bitCount + 1) - m.toNat := by
    rw [negate_toNat, zeroExtend_toNat, if_neg (by omega), zeroExtend_bitCount (Nat.le_succ _)]
  have hmsb : (negate (zeroExtend m (m.bitCount + 1))).msb = true := by
    rw [msb_eq_true_iff, hcount, hvalue, Nat.add_sub_cancel]
    omega
  refine ⟨hmsb, ?_⟩
  rw [toInt, hmsb, if_pos rfl, hcount, hvalue, Nat.cast_sub (by omega)]
  push_cast
  ring

/-! ## The round trip -/

section

include hatoi

/-- A decimal text is read as an unsigned number, or as a negative one when it has a sign. -/
theorem parseNumber_decimalText (z : ℤ) :
    ∃ r, parseNumber simpleAtoi (decimalText z) = .ok r ∧
    (0 ≤ z → (r.toNat : ℤ) = z) ∧ (z < 0 → toInt r = z) := by
  obtain ⟨m, hm, hvalue⟩ := getSignAndMagnitude_decimalText hatoi z
  by_cases hneg : z < 0
  · have hpos : 0 < m.toNat := by omega
    have hzero : m.isZero = false := by
      rw [Bits.isZero, beq_eq_false_iff_ne]
      omega
    obtain ⟨hmsb, htoInt⟩ := negate_zeroExtend hpos
    refine ⟨_, ?_, fun h => absurd h (by omega), fun _ =>
      (toInt_dropLeadingOnes _ (leadingOnes_pos hmsb)).trans (htoInt.trans (by omega))⟩
    rw [parseNumber, hm]
    show (if (decide (z < 0) && !m.isZero) = true then _ else _) = _
    rw [if_pos (by simp [hneg, hzero]), if_pos (leadingOnes_pos hmsb)]
  · refine ⟨m, ?_, fun _ => by omega, fun h => absurd h hneg⟩
    rw [parseNumber, hm]
    show (if (decide (z < 0) && !m.isZero) = true then _ else _) = _
    rw [if_neg (by simp [hneg])]

/-- A binary or hexadecimal text is read as an unsigned number. -/
theorem parseNumber_rawDigits (bnToDec : ℤ → List Char) (b : Bits) {format : FormatPreference}
    (hformat : format = .binary ∧ c = 'b' ∨ format = .hex ∧ c = 'x') :
    ∃ digits r, bitsToRawDigits bnToDec b format false = some digits ∧
      parseNumber simpleAtoi ('0' :: c :: digits) = .ok r ∧ r.toNat = b.toNat := by
  obtain ⟨digitWidth, base, hwidth, hbase, hc⟩ : ∃ digitWidth base,
      (format = .binary ∧ digitWidth = 1 ∨ format = .hex ∧ digitWidth = 4) ∧
        base = 2 ^ digitWidth ∧ (c = 'b' ∧ base = 2 ∨ c = 'x' ∧ base = 16) := by
    rcases hformat with ⟨rfl, rfl⟩ | ⟨rfl, rfl⟩
    · exact ⟨1, 2, Or.inl ⟨rfl, rfl⟩, rfl, Or.inl ⟨rfl, rfl⟩⟩
    · exact ⟨4, 16, Or.inr ⟨rfl, rfl⟩, rfl, Or.inr ⟨rfl, rfl⟩⟩
  obtain ⟨text, ds, htext, hfilter, hds, hne, hvalue⟩ := bitsToRawDigits_spec bnToDec b hwidth
  rw [← hbase] at hds hvalue
  obtain ⟨r, hr, hrvalue⟩ := getSignAndMagnitude_prefix hatoi hc hfilter hds hne
  refine ⟨text, r, htext, ?_, hrvalue.trans hvalue⟩
  rw [parseNumber, hr]
  rfl

end

/-- **Printing and parsing.**  In the formats with a prefix or in decimal, the text of a number
is read back: as the same unsigned number, or, of a number printed with a sign, as the same
two's-complement number. -/
theorem parseNumber_bitsToString (hatoi : ReadsDigits simpleAtoi) {bnToDec : ℤ → List Char}
    (hdec : ∀ z, bnToDec z = decimalText z)
    (b : Bits) {format : FormatPreference} (hbinary : format ≠ .plainBinary)
    (hhex : format ≠ .plainHex) : ∃ text r, bitsToString bnToDec b format false = some text ∧
      parseNumber simpleAtoi text = .ok r ∧
      if format = .signedDecimal then
        if toInt b < 0 then toInt r = toInt b else (r.toNat : ℤ) = toInt b
      else r.toNat = b.toNat := by
  have hunsigned : ∃ r, parseNumber simpleAtoi (bnToDec b.toNat) = .ok r ∧ r.toNat = b.toNat := by
    obtain ⟨r, hr, hvalue, -⟩ := parseNumber_decimalText hatoi b.toNat
    exact ⟨r, hdec _ ▸ hr, by exact_mod_cast hvalue (by omega)⟩
  obtain ⟨digits, hexResult, hdigits, hhexParse, hhexValue⟩ :=
    parseNumber_rawDigits hatoi bnToDec b (Or.inr ⟨rfl, rfl⟩)
  rcases format with _ | _ | _ | _ | _ | _ | _
  · -- the default is decimal up to 64 bits
    by_cases hwide : b.bitCount ≤ 64
    · obtain ⟨r, hr, hvalue⟩ := hunsigned
      exact ⟨_, r, by simp [bitsToString, bitsToRawDigits, hwide], hr, hvalue⟩
    · exact ⟨_, hexResult, by simp [bitsToString, hwide, hdigits], hhexParse, hhexValue⟩
  · obtain ⟨text, r, htext, hr, hvalue⟩ := parseNumber_rawDigits hatoi bnToDec b (Or.inl ⟨rfl, rfl⟩)
    exact ⟨_, r, by simp [bitsToString, htext], hr, hvalue⟩
  · obtain ⟨r, hr, hnonneg, hneg⟩ := parseNumber_decimalText hatoi (toInt b)
    refine ⟨bnToDec (toInt b), r, by simp [bitsToString, bitsToRawDigits], hdec _ ▸ hr, ?_⟩
    rw [if_pos rfl]
    split
    · rename_i h
      exact hneg h
    · rename_i h
      exact hnonneg (not_lt.mp h)
  · obtain ⟨r, hr, hvalue⟩ := hunsigned
    exact ⟨_, r, by simp [bitsToString, bitsToRawDigits], hr, hvalue⟩
  · exact ⟨_, hexResult, by simp [bitsToString, hdigits], hhexParse, hhexValue⟩
  · exact absurd rfl hbinary
  · exact absurd rfl hhex

end Atoi

/-- A function which reads decimal digits. -/
def digitValue : List Char → Option ℕ
  | [c] => if c.isDigit then some (c.toNat - '0'.toNat) else none
  | _ => none

theorem readsDigits_digitValue : ReadsDigits digitValue := by
  intro d hd
  interval_cases d <;> rfl

/-- The text `-2` of the number `6` of three bits. -/
theorem parseNumber_bitsToString_six : ∃ text r,
    bitsToString decimalText (Bits.ofNat 3 6) .signedDecimal false = some text ∧
      parseNumber digitValue text = .ok r ∧
      if FormatPreference.signedDecimal = .signedDecimal then
        if toInt (Bits.ofNat 3 6) < 0 then toInt r = toInt (Bits.ofNat 3 6)
        else (r.toNat : ℤ) = toInt (Bits.ofNat 3 6)
      else r.toNat = (Bits.ofNat 3 6).toNat :=
  parseNumber_bitsToString readsDigits_digitValue (fun _ => rfl) (Bits.ofNat 3 6) (by decide)
  (by decide)

/-- A number which is not negative is read with the width of an unsigned number: of `5` in four
bits, three bits are left, and they are negative as a two's-complement number. -/
theorem not_parseNumber_signedDecimal : ¬ ∀ b : Bits, ∃ text r,
    bitsToString decimalText b .signedDecimal false = some text ∧ parseNumber digitValue text = .ok r ∧
      toInt r = toInt b := by
  intro h
  obtain ⟨text, r, htext, hr, hvalue⟩ := h (Bits.ofNat 4 5)
  have htext' : text = ['5'] := (Option.some.inj htext).symm
  subst htext'
  have hr' : r = Bits.ofNat 3 5 := (Except.ok.inj hr).symm
  subst hr'
  exact absurd hvalue (by decide)

end BitsOps
end Xls
