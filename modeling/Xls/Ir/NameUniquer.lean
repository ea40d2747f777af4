/-
# Unique names

The generation of node names (`xls/ir/name_uniquer.h`, `xls/ir/name_uniquer.cc`).  A requested
name is sanitized and split into a root and a number; the numbers of each root are handed out
once.  A name is a list of characters, one for each byte of the source's string.

* `sanitizeName`, `splitSuffix`, `SequentialIdGenerator`, `getSanitizedUniqueName` : the source;
* `splitSuffix_eq_some` : the root and the number of a name;
* `run_nodup` : the names of a run are distinct;
* `run_isSome` : a run does not fail.
-/
import Mathlib.Data.List.Nodup
import Mathlib.Data.Nat.Digits.Defs
import Mathlib.Logic.Function.Basic
import Mathlib.Order.Basic
import Mathlib.Data.Int.Interval

namespace Xls

/-- The bytes of a string. -/
abbrev Name := List Char

namespace NameUniquer

/-! ## Sanitized names -/

/-- `IsAllowed`. -/
def isAllowed (c : Char) : Bool := c.isAlphanum || c == '_'

/-- The loop which puts underscores in front of a reserved name. -/
def unreserve (reservedNames : List Name) : ℕ → Name → Name
  | 0, result => result
  | fuel + 1, result =>
    if result ∈ reservedNames then unreserve reservedNames fuel ('_' :: result) else result

/-- The loop over the first `size` characters. -/
def replaceDisallowed (size : ℕ) (result : Name) : Name :=
  (result.take size).map (fun c => if isAllowed c then c else '_') ++ result.drop size

/-- The underscore in front of a name which begins with neither a letter nor an underscore. -/
def prefixDigit : Name → Name
  | [] => []
  | c :: result => if !c.isAlpha && c != '_' then '_' :: c :: result else c :: result

/-- `SanitizeName`.  The second loop counts up to the size of the given name. -/
def sanitizeName (name : Name) (reservedNames : List Name) : Name :=
  if name = [] then []
  else prefixDigit
    (replaceDisallowed name.length (unreserve reservedNames reservedNames.length name))

/-- `IsValidIdentifier`. -/
def isValidIdentifier : Name → Bool
  | [] => false
  | c :: str => (c.isAlpha || c == '_') && str.all fun c => c.isAlphanum || c == '_'

/-! ## Numeric suffixes -/

/-- `std::string::rfind`. -/
def rfind (separator : Name) : Name → Option ℕ
  | [] => if separator = [] then some 0 else none
  | c :: str =>
    match rfind separator str with
    | some i => some (i + 1)
    | none => if separator.isPrefixOf (c :: str) then some 0 else none

/-- The number after the last separator is taken off a name. -/
def splitSuffix (simpleAtoi : Name → Option ℤ) (separator root : Name) : Name × Option ℤ :=
  match rfind separator root with
  | none => (root, none)
  | some separatorIndex =>
    match simpleAtoi (root.drop (separatorIndex + separator.length)) with
    | none => (root, none)
    | some i => (root.take separatorIndex, some i)

/-- An integer as `absl::StrCat` writes it. -/
def decimal (i : ℤ) : Name :=
  if i < 0 then '-' :: Nat.toDigits 10 i.natAbs else Nat.toDigits 10 i.natAbs

/-- The largest `int64_t`. -/
def int64Max : ℤ := 2 ^ 63 - 1

/-- The documented behaviour of `absl::SimpleAtoi` on `int64_t`: decimal digits are read as their
number, leading zeros included; a number is in range, and negative only after a minus sign. -/
structure IsSimpleAtoi (simpleAtoi : Name → Option ℤ) : Prop where
  digits : ∀ (zeros : ℕ) (i : ℤ), 0 ≤ i → i ≤ int64Max →
    simpleAtoi (List.replicate zeros '0' ++ decimal i) = some i
  negative : ∀ i : ℤ, i < 0 → - int64Max - 1 ≤ i → simpleAtoi (decimal i) = some i
  range : ∀ s i, simpleAtoi s = some i → - int64Max - 1 ≤ i ∧ i ≤ int64Max
  sign : ∀ s i, simpleAtoi s = some i → i < 0 → '-' ∈ s

/-! ## Numbers of a root -/

/-- `SequentialIdGenerator`: `next_` is the first positive number which is not used. -/
structure SequentialIdGenerator where
  next : ℤ
  used : List ℤ
  next_pos : 1 ≤ next
  next_le : next ≤ int64Max
  next_notMem : next ∉ used
  mem_used : ∀ i, 1 ≤ i → i < next → i ∈ used

/-- `next_` moves on to the first number which is not used; none when it leaves the range of
`int64_t`. -/
def advance (used : List ℤ) : ℕ → ℤ → Option ℤ
  | 0, _ => none
  | fuel + 1, next =>
    if next ∈ used then
      if next < int64Max then advance used fuel (next + 1) else none
    else some next

theorem advance_spec {used : List ℤ} {fuel : ℕ} {next n : ℤ} (h : advance used fuel next = some n) :
    n ∉ used ∧ next ≤ n ∧ (next ≤ int64Max → n ≤ int64Max) ∧ ∀ i, next ≤ i → i < n → i ∈ used := by
  induction fuel generalizing next with
  | zero => cases h
  | succ fuel ih =>
    rw [advance] at h
    split at h
    · rename_i hused
      split at h
      · obtain ⟨hn, hle, hmax, hbelow⟩ := ih h
        refine ⟨hn, by omega, fun _ => hmax (by omega), fun i hi hin => ?_⟩
        rcases eq_or_lt_of_le hi with rfl | hi
        · exact hused
        · exact hbelow i (by omega) hin
      · cases h
    · rename_i hnext
      cases h
      exact ⟨hnext, le_rfl, id, fun i hi hin => absurd hi (not_le.mpr hin)⟩

namespace SequentialIdGenerator

/-- A generator without numbers. -/
def empty : SequentialIdGenerator where
  next := 1
  used := []
  next_pos := le_rfl
  next_le := by decide
  next_notMem := List.not_mem_nil
  mem_used := fun i h h' => absurd h (not_le.mpr h')

/-- The end of `RegisterId`: a new number is inserted and `next_` moves on. -/
def insert (g : SequentialIdGenerator) (id : ℤ) : Option SequentialIdGenerator :=
  match h : advance (id :: g.used) (g.used.length + 2) g.next with
  | none => none
  | some n => some
    { next := n
      used := id :: g.used
      next_pos := g.next_pos.trans (advance_spec h).2.1
      next_le := (advance_spec h).2.2.1 g.next_le
      next_notMem := (advance_spec h).1
      mem_used := fun i hi hin => by
        rcases lt_or_ge i g.next with hlt | hle
        · exact List.mem_cons_of_mem _ (g.mem_used i hi hlt)
        · exact (advance_spec h).2.2.2 i hle hin }

/-- `RegisterId`.  The check that `next_` is not used is the invariant of the generator. -/
def registerId (g : SequentialIdGenerator) (id : ℤ) : Option (ℤ × SequentialIdGenerator) :=
  let result := if id ∈ g.used then g.next else id
  (g.insert result).map fun g => (result, g)

/-- `NextId`. -/
def nextId (g : SequentialIdGenerator) : Option (ℤ × SequentialIdGenerator) := g.registerId g.next

end SequentialIdGenerator

end NameUniquer

open NameUniquer in
/-- `NameUniquer`. -/
structure NameUniquer where
  separator : Name
  reservedNames : List Name
  generatedNames : Name → Option SequentialIdGenerator

namespace NameUniquer

/-- The constructor. -/
def new (separator : Name) (reservedNames : List Name) : NameUniquer :=
  ⟨separator, reservedNames, fun _ => none⟩

/-- The generator of a root. -/
def setGenerator (u : NameUniquer) (root : Name) (g : SequentialIdGenerator) : NameUniquer :=
  { u with generatedNames := Function.update u.generatedNames root (some g) }

/-- The root with a number. -/
def numbered (u : NameUniquer) (root : Name) (i : ℤ) : Name := root ++ u.separator ++ decimal i

/-- An empty root is given a generic name. -/
def rootOf (root : Name) : Name := if root = [] then "name".toList else root

/-- `GetSanitizedUniqueName`. -/
def getSanitizedUniqueName (simpleAtoi : Name → Option ℤ) (u : NameUniquer) (requested : Name) :
    Option (Name × NameUniquer) :=
  let split := splitSuffix simpleAtoi u.separator (sanitizeName requested u.reservedNames)
  let root := rootOf split.1
  match u.generatedNames root, split.2 with
  | some generator, some numericSuffix =>
    (generator.registerId numericSuffix).map fun r => (u.numbered root r.1, u.setGenerator root r.2)
  | some generator, none =>
    generator.nextId.map fun r => (u.numbered root r.1, u.setGenerator root r.2)
  | none, some numericSuffix =>
    (SequentialIdGenerator.empty.registerId numericSuffix).map fun r =>
      (u.numbered root r.1, u.setGenerator root r.2)
  | none, none => some (root, u.setGenerator root .empty)

/-- The names returned by a sequence of calls. -/
def run (simpleAtoi : Name → Option ℤ) : NameUniquer → List Name → Option (List Name × NameUniquer)
  | u, [] => some ([], u)
  | u, requested :: calls => do
    let (name, u) ← getSanitizedUniqueName simpleAtoi u requested
    let (names, u) ← run simpleAtoi u calls
    return (name :: names, u)

/-! ## Names which end in a number -/

/-- The separator of all name uniquers of functions. -/
abbrev underscores : Name := ['_', '_']

/-- The name ends in a number: the part after its last separator is one. -/
def NumberedAs (simpleAtoi : Name → Option ℤ) (s root : Name) (i : ℤ) : Prop :=
  ∃ suffix, s = root ++ underscores ++ suffix ∧ ¬ underscores <:+: '_' :: suffix ∧
    simpleAtoi suffix = some i

theorem rfind_eq_none {s : Name} : rfind underscores s = none ↔ ¬ underscores <:+: s := by
  induction s with
  | nil => simp [rfind]
  | cons c s ih =>
    rw [rfind, List.infix_cons_iff, not_or, ← ih]
    cases hs : rfind underscores s with
    | none => simp [List.isPrefixOf_iff_prefix]
    | some i => simp

theorem rfind_eq_some {s : Name} {i : ℕ} : rfind underscores s = some i ↔
    ∃ root suffix, root.length = i ∧ s = root ++ underscores ++ suffix ∧
      ¬ underscores <:+: '_' :: suffix := by
  induction s generalizing i with
  | nil => simp [rfind]
  | cons c s ih =>
    rw [rfind]
    constructor
    · intro h
      cases hs : rfind underscores s with
      | some j =>
        rw [hs] at h
        cases h
        obtain ⟨root, suffix, hroot, rfl, hsuffix⟩ := ih.mp hs
        exact ⟨c :: root, suffix, by simpa using hroot, rfl, hsuffix⟩
      | none =>
        rw [hs] at h
        simp only [Option.ite_none_right_eq_some, List.isPrefixOf_iff_prefix,
          Option.some.injEq] at h
        obtain ⟨⟨suffix, hsuffix⟩, rfl⟩ := h
        obtain ⟨rfl, rfl⟩ : '_' = c ∧ '_' :: suffix = s := by simpa using hsuffix
        exact ⟨[], suffix, rfl, rfl, rfind_eq_none.mp hs⟩
    · rintro ⟨root, suffix, rfl, hs, hsuffix⟩
      cases root with
      | nil =>
        obtain ⟨rfl, rfl⟩ : c = '_' ∧ s = '_' :: suffix := by simpa using hs
        rw [rfind_eq_none.mpr hsuffix]
        simp
      | cons d root =>
        obtain ⟨rfl, rfl⟩ : c = d ∧ s = root ++ underscores ++ suffix := by simpa using hs
        rw [ih.mpr ⟨root, suffix, rfl, rfl, hsuffix⟩]
        rfl

section

variable {simpleAtoi : Name → Option ℤ}

variable {i : ℤ} {u u' : NameUniquer} {name : Name}

theorem splitSuffix_eq_some {s root : Name} :
    splitSuffix simpleAtoi underscores s = (root, some i) ↔ NumberedAs simpleAtoi s root i := by
  rw [splitSuffix]
  constructor
  · intro h
    cases hs : rfind underscores s with
    | none => simp [hs] at h
    | some j =>
      obtain ⟨root', suffix, rfl, rfl, hsuffix⟩ := rfind_eq_some.mp hs
      have hdrop : (root' ++ underscores ++ suffix).drop (root'.length + underscores.length) =
          suffix := by
        rw [← List.length_append, List.drop_left]
      rw [hs] at h
      simp only [hdrop] at h
      cases hi : simpleAtoi suffix with
      | none => simp [hi] at h
      | some i' =>
        rw [hi, List.append_assoc, List.take_left] at h
        cases h
        exact ⟨suffix, rfl, hsuffix, hi⟩
  · rintro ⟨suffix, rfl, hsuffix, hi⟩
    have hdrop : (root ++ underscores ++ suffix).drop (root.length + underscores.length) =
        suffix := by
      rw [← List.length_append, List.drop_left]
    rw [rfind_eq_some.mpr ⟨root, suffix, rfl, rfl, hsuffix⟩]
    simp only [hdrop, hi]
    rw [List.append_assoc, List.take_left]

/-- A name which does not end in a number stays whole. -/
theorem splitSuffix_cases (simpleAtoi : Name → Option ℤ) (s : Name) :
    (splitSuffix simpleAtoi underscores s = (s, none) ∧
      ∀ root i, ¬ NumberedAs simpleAtoi s root i) ∨
    ∃ root i, splitSuffix simpleAtoi underscores s = (root, some i) ∧
      NumberedAs simpleAtoi s root i := by
  rcases hs : splitSuffix simpleAtoi underscores s with ⟨root, _ | i⟩
  · left
    have hroot : root = s := by
      rw [splitSuffix] at hs
      split at hs
      · exact (Prod.mk.inj hs).1.symm
      · split at hs
        · exact (Prod.mk.inj hs).1.symm
        · cases hs
    refine ⟨by rw [hroot], fun root' i hnum => ?_⟩
    rw [splitSuffix_eq_some.mpr hnum] at hs
    cases hs
  · exact .inr ⟨root, i, rfl, splitSuffix_eq_some.mp hs⟩

/-! ## Decimal numbers -/

theorem isDigit_of_mem_decimal {c : Char} (hi : 0 ≤ i) (hc : c ∈ decimal i) : c.isDigit = true := by
  rw [decimal, if_neg (not_lt.mpr hi)] at hc
  exact Nat.isDigit_of_mem_toDigits (by decide) (by decide) hc

theorem underscore_notMem_decimal (i : ℤ) : '_' ∉ decimal i := by
  intro hc
  rw [decimal] at hc
  split at hc
  · rcases List.mem_cons.mp hc with h | h
    · exact absurd h (by decide)
    · exact absurd (Nat.isDigit_of_mem_toDigits (by decide) (by decide) h) (by decide)
  · exact absurd (Nat.isDigit_of_mem_toDigits (by decide) (by decide) hc) (by decide)

theorem not_infix_of_notMem {suffix : Name} (h : '_' ∉ suffix) :
    ¬ underscores <:+: '_' :: suffix := by
  intro hinfix
  have hsublist := hinfix.sublist
  rw [List.cons_sublist_cons] at hsublist
  exact h (List.singleton_sublist.mp hsublist)

/-- The written numbers are read back. -/
theorem IsSimpleAtoi.decimal_eq (ha : IsSimpleAtoi simpleAtoi) (hmin : - int64Max - 1 ≤ i)
    (hmax : i ≤ int64Max) : simpleAtoi (decimal i) = some i := by
  rcases lt_or_ge i 0 with hi | hi
  · exact ha.negative i hi hmin
  · exact ha.digits 0 i hi hmax

theorem numberedAs_decimal (ha : IsSimpleAtoi simpleAtoi) (root : Name) (hmin : - int64Max - 1 ≤ i)
    (hmax : i ≤ int64Max) : NumberedAs simpleAtoi (root ++ underscores ++ decimal i) root i :=
  ⟨_, rfl, not_infix_of_notMem (underscore_notMem_decimal i), ha.decimal_eq hmin hmax⟩

/-! ## One call -/

theorem SequentialIdGenerator.registerId_spec {g g' : SequentialIdGenerator} {id result : ℤ}
    (h : g.registerId id = some (result, g')) :
    g'.used = result :: g.used ∧ result ∉ g.used ∧ (result = id ∨ result = g.next) := by
  obtain ⟨g'', hg'', heq⟩ := Option.map_eq_some_iff.mp h
  cases heq
  have hused : ∀ {i : ℤ} {g'}, g.insert i = some g' → g'.used = i :: g.used := by
    intro i g' h
    rw [SequentialIdGenerator.insert] at h
    split at h
    · cases h
    · cases h
      rfl
  refine ⟨hused hg'', ?_, ?_⟩
  · split
    · exact g.next_notMem
    · assumption
  · split
    · exact .inr rfl
    · exact .inl rfl

/-- The generator of a root, an empty one before the first call. -/
def generator (u : NameUniquer) (root : Name) : SequentialIdGenerator :=
  (u.generatedNames root).getD .empty

/-- A call returns the sanitized name itself, the first time and if it does not end in a number,
or else its root with a new number. -/
theorem getSanitizedUniqueName_spec {requested : Name}
    (h : getSanitizedUniqueName simpleAtoi u requested = some (name, u')) :
    ∃ s suffix, splitSuffix simpleAtoi u.separator (sanitizeName requested u.reservedNames) =
        (s, suffix) ∧
      ((suffix = none ∧ u.generatedNames (rootOf s) = none ∧ name = rootOf s ∧
          u' = u.setGenerator (rootOf s) .empty) ∨
        ∃ i g, u' = u.setGenerator (rootOf s) g ∧ name = u.numbered (rootOf s) i ∧
          g.used = i :: (u.generator (rootOf s)).used ∧ i ∉ (u.generator (rootOf s)).used ∧
          (suffix = some i ∨ i = (u.generator (rootOf s)).next)) := by
  rw [getSanitizedUniqueName] at h
  generalize splitSuffix simpleAtoi u.separator (sanitizeName requested u.reservedNames) = split
    at h ⊢
  obtain ⟨s, suffix⟩ := split
  refine ⟨s, suffix, rfl, ?_⟩
  cases hg : u.generatedNames (rootOf s) with
  | none =>
    have hgen : u.generator (rootOf s) = .empty := by rw [generator, hg, Option.getD_none]
    cases suffix with
    | none =>
      rw [hg] at h
      cases h
      exact .inl ⟨rfl, rfl, rfl, rfl⟩
    | some id =>
      rw [hg] at h
      obtain ⟨⟨i, g⟩, hreg, heq⟩ := Option.map_eq_some_iff.mp h
      cases heq
      obtain ⟨hused, hnew, hi⟩ := SequentialIdGenerator.registerId_spec hreg
      refine .inr ⟨i, g, rfl, rfl, hgen ▸ hused, hgen ▸ hnew, ?_⟩
      rcases hi with rfl | rfl
      · exact .inl rfl
      · exact .inr (hgen ▸ rfl)
  | some gen =>
    have hgen : u.generator (rootOf s) = gen := by rw [generator, hg, Option.getD_some]
    rw [hgen]
    cases suffix with
    | none =>
      rw [hg] at h
      obtain ⟨⟨i, g⟩, hreg, heq⟩ := Option.map_eq_some_iff.mp h
      cases heq
      obtain ⟨hused, hnew, hi⟩ := SequentialIdGenerator.registerId_spec hreg
      exact .inr ⟨i, g, rfl, rfl, hused, hnew, .inr (hi.elim id id)⟩
    | some id =>
      rw [hg] at h
      obtain ⟨⟨i, g⟩, hreg, heq⟩ := Option.map_eq_some_iff.mp h
      cases heq
      obtain ⟨hused, hnew, hi⟩ := SequentialIdGenerator.registerId_spec hreg
      exact .inr ⟨i, g, rfl, rfl, hused, hnew, hi.imp (congrArg some ·.symm) fun h => h⟩

/-! ## Distinct names -/

/-- All numbers are in the range of `int64_t`. -/
def InRange (u : NameUniquer) : Prop :=
  ∀ root, ∀ i ∈ (u.generator root).used, - int64Max - 1 ≤ i ∧ i ≤ int64Max

/-- The name has been handed out: as a root with a number, or as a name which does not end in
one. -/
def Produced (simpleAtoi : Name → Option ℤ) (u : NameUniquer) (name : Name) : Prop :=
  (splitSuffix simpleAtoi u.separator name = (name, none) ∧ u.generatedNames name ≠ none) ∨
    ∃ root, ∃ i ∈ (u.generator root).used, name = u.numbered root i

theorem generator_setGenerator (u : NameUniquer) (root root' : Name) (g : SequentialIdGenerator) :
    (u.setGenerator root g).generator root' = if root' = root then g else u.generator root' := by
  unfold generator setGenerator
  by_cases h : root' = root
  · subst h
    simp
  · simp [h]

/-- The generators keep their numbers. -/
def Grows (u u' : NameUniquer) : Prop :=
  u'.separator = u.separator ∧ u'.reservedNames = u.reservedNames ∧
    (∀ root, u.generatedNames root ≠ none → u'.generatedNames root ≠ none) ∧
    ∀ root, (u.generator root).used ⊆ (u'.generator root).used

theorem grows_setGenerator {root : Name} {g : SequentialIdGenerator}
    (h : (u.generator root).used ⊆ g.used) : u.Grows (u.setGenerator root g) := by
  refine ⟨rfl, rfl, fun root' h => ?_, fun root' => ?_⟩
  · by_cases hr : root' = root
    · simp [setGenerator, hr]
    · simpa [setGenerator, hr] using h
  rw [generator_setGenerator]
  split
  · rename_i heq
    rw [heq]
    exact h
  · exact List.Subset.refl _

theorem Produced.grow (h : Produced simpleAtoi u name) (hle : u.Grows u') :
    Produced simpleAtoi u' name := by
  obtain ⟨hsep, -, hgenerated, hused⟩ := hle
  rcases h with ⟨hsplit, hname⟩ | ⟨root, i, hi, rfl⟩
  · exact .inl ⟨hsep ▸ hsplit, hgenerated name hname⟩
  · refine .inr ⟨root, i, hused root hi, ?_⟩
    rw [numbered, numbered, hsep]

theorem splitSuffix_rootOf {s : Name} (h : splitSuffix simpleAtoi underscores s = (s, none)) :
    splitSuffix simpleAtoi underscores (rootOf s) = (rootOf s, none) := by
  unfold rootOf
  split
  · rfl
  · exact h

/-- A call returns a new name. -/
theorem call_spec (ha : IsSimpleAtoi simpleAtoi) {requested : Name}
    (hsep : u.separator = underscores) (hrange : u.InRange)
    (h : getSanitizedUniqueName simpleAtoi u requested = some (name, u')) :
    u.Grows u' ∧ u'.InRange ∧ ¬ Produced simpleAtoi u name ∧ Produced simpleAtoi u' name := by
  obtain ⟨s, suffix, hsplit, hcases⟩ := getSanitizedUniqueName_spec h
  rw [hsep] at hsplit
  rcases hcases with ⟨rfl, hnone, rfl, rfl⟩ | ⟨i, g, rfl, rfl, hused, hnew, hi⟩
  · have hs : splitSuffix simpleAtoi underscores s = (s, none) := by
      rcases splitSuffix_cases simpleAtoi
        (sanitizeName requested u.reservedNames) with ⟨hbare, -⟩ | ⟨root, i, hnum, -⟩
      · rw [hbare] at hsplit
        cases hsplit
        exact hbare
      · rw [hnum] at hsplit
        cases hsplit
    have hroot := splitSuffix_rootOf hs
    have hempty : (u.generator (rootOf s)).used = [] := by
      rw [generator, hnone]
      rfl
    refine ⟨grows_setGenerator (by rw [hempty]; exact List.nil_subset _), ?_, ?_, ?_⟩
    · intro root' i hi
      rw [generator_setGenerator] at hi
      split at hi
      · cases hi
      · exact hrange root' i hi
    · rintro (⟨-, hsome⟩ | ⟨root', i, hi, hname⟩)
      · exact hsome hnone
      · obtain ⟨hmin, hmax⟩ := hrange root' i hi
        rw [numbered, hsep] at hname
        have hnum := splitSuffix_eq_some.mpr (numberedAs_decimal ha root' hmin hmax)
        rw [← hname, hroot] at hnum
        cases hnum
    · refine .inl ⟨hsep ▸ hroot, ?_⟩
      simp [setGenerator]
  · -- the number is read from the name or is the next one
    have hirange : - int64Max - 1 ≤ i ∧ i ≤ int64Max := by
      rcases hi with rfl | rfl
      · obtain ⟨_, -, -, hnum⟩ := splitSuffix_eq_some.mp hsplit
        exact ha.range _ _ hnum
      · have := (u.generator (rootOf s)).next_pos
        have := (u.generator (rootOf s)).next_le
        constructor <;> omega
    refine ⟨grows_setGenerator (by rw [hused]; exact List.subset_cons_self _ _), ?_, ?_, ?_⟩
    · intro root' j hj
      rw [generator_setGenerator] at hj
      split at hj
      · rw [hused] at hj
        rcases List.mem_cons.mp hj with rfl | hj
        · exact hirange
        · exact hrange _ j hj
      · exact hrange root' j hj
    · have hnum := splitSuffix_eq_some.mpr (numberedAs_decimal ha (rootOf s) hirange.1 hirange.2)
      rw [numbered]
      rintro (⟨hbare, -⟩ | ⟨root', j, hj, hname⟩)
      · rw [hsep, hnum] at hbare
        cases congrArg Prod.snd hbare
      · obtain ⟨hmin, hmax⟩ := hrange root' j hj
        have hnum' := splitSuffix_eq_some.mpr (numberedAs_decimal ha root' hmin hmax)
        rw [numbered, hsep] at hname
        rw [hname, hnum', Prod.mk.injEq, Option.some.injEq] at hnum
        rw [← hnum.1, ← hnum.2] at hnew
        exact hnew hj
    · refine .inr ⟨rootOf s, i, ?_, rfl⟩
      rw [generator_setGenerator, if_pos rfl, hused]
      exact List.mem_cons_self

/-- The names of a run are distinct from each other and from those handed out before. -/
theorem run_nodup (ha : IsSimpleAtoi simpleAtoi) {calls : List Name} :
    ∀ {u u' : NameUniquer} {names : List Name}, u.separator = underscores → u.InRange →
    run simpleAtoi u calls = some (names, u') →
    names.Nodup ∧ ∀ name ∈ names, ¬ Produced simpleAtoi u name := by
  induction calls with
  | nil =>
    intro u u' names _ _ h
    cases h
    exact ⟨List.nodup_nil, fun _ hname => absurd hname List.not_mem_nil⟩
  | cons requested calls ih =>
    intro u u' names hsep hrange h
    obtain ⟨⟨name, v⟩, hcall, h⟩ := Option.bind_eq_some_iff.mp h
    obtain ⟨⟨names', w⟩, hrun, h⟩ := Option.bind_eq_some_iff.mp h
    cases h
    obtain ⟨hgrows, hrange', hnew, hproduced⟩ := call_spec ha hsep hrange hcall
    obtain ⟨hnodup, hnames⟩ := ih (hgrows.1.trans hsep) hrange' hrun
    refine ⟨List.nodup_cons.mpr ⟨fun hmem => hnames name hmem hproduced, hnodup⟩, ?_⟩
    rintro name' hmem hold
    rcases List.mem_cons.mp hmem with rfl | hmem
    · exact hnew hold
    · exact hnames name' hmem (hold.grow hgrows)

/-! ## Runs do not fail -/

theorem next_le_length {used : List ℤ} {next : ℤ} (hpos : 1 ≤ next)
    (h : ∀ i, 1 ≤ i → i < next → i ∈ used) : next ≤ used.length + 1 := by
  have hsub : Finset.Ico 1 next ⊆ used.toFinset := by
    intro i hi
    rw [Finset.mem_Ico] at hi
    exact List.mem_toFinset.mpr (h i hi.1 hi.2)
  have hcard := (Finset.card_le_card hsub).trans used.toFinset_card_le
  rw [Int.card_Ico] at hcard
  omega

/-- `next_` stays in range while fewer numbers are used than there are. -/
theorem advance_isSome (used : List ℤ) (hused : (used.length : ℤ) < int64Max) (fuel : ℕ)
    {next : ℤ} (hpos : 1 ≤ next) (hmax : next ≤ int64Max)
    (hbelow : ∀ i, 1 ≤ i → i < next → i ∈ used) (hfuel : (used.length : ℤ) < fuel + (next - 1)) :
    ∃ n, advance used fuel next = some n := by
  induction fuel generalizing next with
  | zero =>
    have := next_le_length hpos hbelow
    omega
  | succ fuel ih =>
    rw [advance]
    split
    · rename_i hmem
      have hbelow' : ∀ i, 1 ≤ i → i < next + 1 → i ∈ used := by
        intro i hi hin
        rcases eq_or_lt_of_le (Int.lt_add_one_iff.mp hin) with rfl | hlt
        · exact hmem
        · exact hbelow i hi hlt
      have hle := next_le_length (by omega) hbelow'
      rw [if_pos (by omega)]
      exact ih (by omega) (by omega) hbelow' (by omega)
    · exact ⟨next, rfl⟩

theorem SequentialIdGenerator.registerId_isSome (g : SequentialIdGenerator) (id : ℤ)
    (h : (g.used.length : ℤ) + 1 < int64Max) : ∃ r, g.registerId id = some r := by
  obtain ⟨n, hn⟩ := advance_isSome ((if id ∈ g.used then g.next else id) :: g.used)
    (by push_cast [List.length_cons]; omega) (g.used.length + 2) g.next_pos g.next_le
    (fun i hi hin => List.mem_cons_of_mem _ (g.mem_used i hi hin))
    (by have := g.next_pos; push_cast [List.length_cons]; omega)
  have hinsert : ∃ g', g.insert (if id ∈ g.used then g.next else id) = some g' := by
    rw [SequentialIdGenerator.insert]
    split
    · rename_i hnone
      rw [hn] at hnone
      cases hnone
    · exact ⟨_, rfl⟩
  obtain ⟨g', hg'⟩ := hinsert
  exact ⟨_, Option.map_eq_some_iff.mpr ⟨g', hg', rfl⟩⟩

/-- No generator has more than `m` numbers. -/
def Bounded (u : NameUniquer) (m : ℕ) : Prop := ∀ root, (u.generator root).used.length ≤ m

theorem getSanitizedUniqueName_isSome (simpleAtoi : Name → Option ℤ) {m : ℕ} (hu : u.Bounded m)
    (hm : (m : ℤ) + 1 < int64Max) (requested : Name) :
    ∃ r, getSanitizedUniqueName simpleAtoi u requested = some r := by
  rw [getSanitizedUniqueName]
  generalize splitSuffix simpleAtoi u.separator (sanitizeName requested u.reservedNames) = split
  obtain ⟨s, suffix⟩ := split
  have hlength := hu (rootOf s)
  rw [generator] at hlength
  cases hg : u.generatedNames (rootOf s) with
  | none =>
    cases suffix with
    | none => exact ⟨_, rfl⟩
    | some id =>
      obtain ⟨r, hr⟩ := SequentialIdGenerator.empty.registerId_isSome id (by decide)
      exact ⟨_, Option.map_eq_some_iff.mpr ⟨r, hr, rfl⟩⟩
  | some g =>
    rw [hg, Option.getD_some] at hlength
    cases suffix with
    | none =>
      obtain ⟨r, hr⟩ := g.registerId_isSome g.next (by omega)
      exact ⟨_, Option.map_eq_some_iff.mpr ⟨r, hr, rfl⟩⟩
    | some id =>
      obtain ⟨r, hr⟩ := g.registerId_isSome id (by omega)
      exact ⟨_, Option.map_eq_some_iff.mpr ⟨r, hr, rfl⟩⟩

theorem bounded_of_call {m : ℕ} {requested : Name} (hu : u.Bounded m)
    (h : getSanitizedUniqueName simpleAtoi u requested = some (name, u')) : u'.Bounded (m + 1) := by
  obtain ⟨s, suffix, -, hcases⟩ := getSanitizedUniqueName_spec h
  rcases hcases with ⟨-, -, -, rfl⟩ | ⟨i, g, rfl, -, hused, -, -⟩
  · intro root
    rw [generator_setGenerator]
    split
    · exact Nat.zero_le _
    · exact (hu root).trans (Nat.le_succ m)
  · intro root
    rw [generator_setGenerator]
    split
    · rw [hused]
      exact Nat.succ_le_succ (hu _)
    · exact (hu root).trans (Nat.le_succ m)

/-- As long as the numbers do not run out, every call returns. -/
theorem run_isSome (simpleAtoi : Name → Option ℤ) {calls : List Name} :
    ∀ {u : NameUniquer} {m : ℕ}, u.Bounded m →
    (m : ℤ) + calls.length < int64Max → ∃ r, run simpleAtoi u calls = some r := by
  induction calls with
  | nil => exact fun _ _ => ⟨_, rfl⟩
  | cons requested calls ih =>
    intro u m hu hm
    rw [List.length_cons] at hm
    obtain ⟨⟨name, v⟩, hcall⟩ :=
      getSanitizedUniqueName_isSome simpleAtoi hu (by omega) requested
    obtain ⟨⟨names, w⟩, hrun⟩ := ih (bounded_of_call hu hcall) (by omega)
    refine ⟨(name :: names, w), ?_⟩
    simp only [run, hcall, hrun, Option.bind_eq_bind, Option.bind_some]
    rfl

end

end NameUniquer

end Xls
