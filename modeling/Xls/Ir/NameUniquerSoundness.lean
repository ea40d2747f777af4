/-
# Unique names are legal

Which reserved names never leave a `NameUniquer` (`xls/ir/name_uniquer.cc`).  A name is compared
with the reserved names before it is sanitized, and neither the sanitized name nor the name with
its number is compared again.

* `sanitizeName_of_notMem`, `sanitizeName_of_mem` : what a name is sanitized to;
* `unique_legal_unreserved_iff` : for which reserved names all names are legal and not reserved;
* `harmless_of_plain` : reserved identifiers without underscores are among them;
* `file_number_reserved` : the keywords of the IR are not.
-/
import Xls.Ir.NameUniquer
import Mathlib.Algebra.Order.BigOperators.Group.List

namespace Xls

namespace NameUniquer

section

variable {simpleAtoi : Name → Option ℤ}

/-! ## Sanitized names are identifiers -/

/-- A character which is not allowed becomes an underscore. -/
def respellChar (c : Char) : Char := if isAllowed c then c else '_'

/-- The spelling of a name which is not reserved. -/
def respell (name : Name) : Name := prefixDigit (name.map respellChar)

/-- A reserved name with `k` underscores in front: its last `k` characters are not respelled. -/
def marked (k : ℕ) (name : Name) : Name :=
  List.replicate k '_' ++
    ((name.take (name.length - k)).map respellChar ++ name.drop (name.length - k))

variable {s name root : Name} {reservedNames : List Name} {i : ℤ}

theorem isValidIdentifier_iff : isValidIdentifier s = true ↔
    (∃ c t, s = c :: t ∧ (c.isAlpha = true ∨ c = '_')) ∧ ∀ c ∈ s, isAllowed c = true := by
  cases s with
  | nil => simp [isValidIdentifier]
  | cons c t =>
    simp only [isValidIdentifier, Bool.and_eq_true, Bool.or_eq_true, beq_iff_eq, List.all_eq_true,
      List.forall_mem_cons, isAllowed, List.cons.injEq, exists_eq_left', exists_and_left,
      and_assoc]
    constructor
    · rintro ⟨hc, ht⟩
      refine ⟨hc, ?_, ht⟩
      rcases hc with hc | hc
      · exact .inl (by simp [Char.isAlphanum, hc])
      · exact .inr hc
    · rintro ⟨hc, -, ht⟩
      exact ⟨hc, ht⟩

theorem isAllowed_respellChar (c : Char) : isAllowed (respellChar c) = true := by
  unfold respellChar
  split
  · assumption
  · rfl

theorem respellChar_of_isAllowed {c : Char} (h : isAllowed c = true) : respellChar c = c := if_pos h

theorem isValidIdentifier_respell (h : name ≠ []) : isValidIdentifier (respell name) = true := by
  rw [isValidIdentifier_iff]
  cases name with
  | nil => exact absurd rfl h
  | cons c name =>
    have hall : ∀ d ∈ respellChar c :: name.map respellChar, isAllowed d = true := by
      intro d hd
      obtain ⟨e, -, rfl⟩ := List.mem_map.mp (List.map_cons ▸ hd : d ∈ (c :: name).map respellChar)
      exact isAllowed_respellChar e
    rw [respell, List.map_cons, prefixDigit]
    split
    · exact ⟨⟨_, _, rfl, .inr rfl⟩, List.forall_mem_cons.mpr ⟨rfl, hall⟩⟩
    · rename_i hstart
      refine ⟨⟨_, _, rfl, ?_⟩, hall⟩
      simpa [or_iff_not_imp_left] using hstart

/-- Identifiers keep their spelling. -/
theorem respell_eq_self (h : isValidIdentifier name = true) : respell name = name := by
  rw [isValidIdentifier_iff] at h
  obtain ⟨⟨c, t, rfl, hc⟩, hall⟩ := h
  have hmap : (c :: t).map respellChar = c :: t :=
    (List.map_congr_left fun d hd => respellChar_of_isAllowed (hall d hd)).trans (List.map_id _)
  rw [respell, hmap, prefixDigit]
  rcases hc with hc | rfl
  · simp [hc]
  · simp

/-- The underscores in front of a reserved name are as many as it takes. -/
theorem unreserve_fuel (reservedNames : List Name) (fuel : ℕ) (name : Name) :
    ∃ k, unreserve reservedNames fuel name = List.replicate k '_' ++ name ∧
      (∀ j < k, List.replicate j '_' ++ name ∈ reservedNames) ∧
      (k = fuel ∨ List.replicate k '_' ++ name ∉ reservedNames) := by
  induction fuel generalizing name with
  | zero => exact ⟨0, rfl, fun j hj => absurd hj (Nat.not_lt_zero j), .inl rfl⟩
  | succ fuel ih =>
    rw [unreserve]
    split
    · rename_i hmem
      obtain ⟨k, heq, hbelow, hend⟩ := ih ('_' :: name)
      have hshift : ∀ j, List.replicate j '_' ++ '_' :: name =
          List.replicate (j + 1) '_' ++ name := by
        intro j
        rw [List.replicate_succ', List.append_assoc, List.singleton_append]
      refine ⟨k + 1, heq.trans (hshift k), fun j hj => ?_, ?_⟩
      · cases j with
        | zero => exact hmem
        | succ j => exact hshift j ▸ hbelow j (by omega)
      · exact hend.imp (congrArg (· + 1)) fun h => hshift k ▸ h
    · rename_i hnot
      exact ⟨0, rfl, fun j hj => absurd hj (Nat.not_lt_zero j), .inr hnot⟩

theorem unreserve_spec (reservedNames : List Name) (name : Name) :
    ∃ k, unreserve reservedNames reservedNames.length name = List.replicate k '_' ++ name ∧
      (∀ j < k, List.replicate j '_' ++ name ∈ reservedNames) ∧
      List.replicate k '_' ++ name ∉ reservedNames := by
  obtain ⟨k, heq, hbelow, hend⟩ := unreserve_fuel reservedNames reservedNames.length name
  refine ⟨k, heq, hbelow, fun hmem => ?_⟩
  rcases hend with rfl | hend
  · -- one name more than there are reserved names
    have hsub : (List.range (reservedNames.length + 1)).map
        (fun j => List.replicate j '_' ++ name) ⊆ reservedNames := by
      intro s hs
      obtain ⟨j, hj, rfl⟩ := List.mem_map.mp hs
      rcases Nat.lt_succ_iff_lt_or_eq.mp (List.mem_range.mp hj) with hj | rfl
      · exact hbelow j hj
      · exact hmem
    have hnodup : ((List.range (reservedNames.length + 1)).map
        fun j => List.replicate j '_' ++ name).Nodup := by
      refine List.Nodup.map (fun i j hij => ?_) List.nodup_range
      simpa using congrArg List.length hij
    have hle := (hnodup.subperm hsub).length_le
    rw [List.length_map, List.length_range] at hle
    omega
  · exact hend hmem

/-- A name which is not reserved is respelled. -/
theorem sanitizeName_of_notMem (hne : name ≠ []) (h : name ∉ reservedNames) :
    sanitizeName name reservedNames = respell name := by
  have hun : unreserve reservedNames reservedNames.length name = name := by
    cases reservedNames.length with
    | zero => rfl
    | succ fuel => rw [unreserve, if_neg h]
  rw [sanitizeName, if_neg hne, hun, replaceDisallowed, List.take_length, List.drop_length,
    List.append_nil]
  rfl

/-- A reserved name is marked. -/
theorem sanitizeName_of_mem (hne : name ≠ []) {k : ℕ}
    (hbelow : ∀ j < k, List.replicate j '_' ++ name ∈ reservedNames) (hk : 0 < k)
    (hend : List.replicate k '_' ++ name ∉ reservedNames) :
    sanitizeName name reservedNames = marked k name := by
  obtain ⟨k', heq, hbelow', hend'⟩ := unreserve_spec reservedNames name
  have hkk : k' = k := by
    rcases lt_trichotomy k' k with hlt | rfl | hlt
    · exact absurd (hbelow k' hlt) hend'
    · rfl
    · exact absurd (hbelow' k hlt) hend
  have hreplace : replaceDisallowed name.length (List.replicate k '_' ++ name) = marked k name := by
    have hmap : (List.replicate (min name.length k) '_').map respellChar =
        List.replicate (min name.length k) '_' := by
      rw [List.map_replicate]
      rfl
    change ((List.replicate k '_' ++ name).take name.length).map respellChar ++
      (List.replicate k '_' ++ name).drop name.length = marked k name
    rw [List.take_append, List.drop_append, List.length_replicate, List.map_append,
      List.take_replicate, List.drop_replicate, hmap, marked]
    rcases Nat.le_total k name.length with hle | hle
    · rw [min_eq_right hle, Nat.sub_eq_zero_of_le hle, List.replicate_zero, List.nil_append,
        List.append_assoc]
    · rw [min_eq_left hle, Nat.sub_eq_zero_of_le hle, List.take_zero, List.map_nil, List.append_nil,
        ← List.append_assoc, List.replicate_append_replicate,
        Nat.add_sub_cancel' hle, List.nil_append]
  rw [sanitizeName, if_neg hne, heq, hkk, hreplace]
  obtain ⟨j, rfl⟩ := Nat.exists_eq_succ_of_ne_zero hk.ne'
  rfl

/-! ## Legal names which are not reserved -/

/-- The reserved names for which all names are legal and not reserved. -/
structure Harmless (simpleAtoi : Name → Option ℤ) (reservedNames : List Name) : Prop where
  /-- The generic name is not reserved. -/
  name : "name".toList ∉ reservedNames
  /-- No identifier with a number is reserved. -/
  numbered : ∀ root i, isValidIdentifier root = true → 0 ≤ i → i ≤ int64Max →
    root ++ underscores ++ decimal i ∉ reservedNames
  /-- No name becomes reserved only when it is spelled with allowed characters, unless it ends in
  a number. -/
  respelled : ∀ name ∉ reservedNames, name ≠ [] →
    (∀ root i, ¬ NumberedAs simpleAtoi (respell name) root i) → respell name ∉ reservedNames
  /-- A reserved name with the underscores which take it out of the reserved names: if it ends in a
  number, the root is an identifier or empty and the number is not negative; otherwise the whole
  name is an identifier and not reserved. -/
  marked : ∀ name ∈ reservedNames, name ≠ [] → ∀ k,
    (∀ j < k, List.replicate j '_' ++ name ∈ reservedNames) →
    List.replicate k '_' ++ name ∉ reservedNames →
    (∀ root i, NumberedAs simpleAtoi (marked k name) root i →
      (root = [] ∨ isValidIdentifier root = true) ∧ 0 ≤ i) ∧
    ((∀ root i, ¬ NumberedAs simpleAtoi (marked k name) root i) →
      isValidIdentifier (marked k name) = true ∧ marked k name ∉ reservedNames)

theorem isValidIdentifier_append {t : Name} (hs : isValidIdentifier s = true)
    (ht : ∀ c ∈ t, isAllowed c = true) : isValidIdentifier (s ++ t) = true := by
  rw [isValidIdentifier_iff] at hs ⊢
  obtain ⟨⟨c, s, rfl, hc⟩, hall⟩ := hs
  exact ⟨⟨c, s ++ t, rfl, hc⟩, List.forall_mem_append.mpr ⟨hall, ht⟩⟩

theorem isAllowed_of_mem_decimal (hi : 0 ≤ i) : ∀ c ∈ decimal i, isAllowed c = true := by
  intro c hc
  have hdigit := isDigit_of_mem_decimal hi hc
  simp [isAllowed, Char.isAlphanum, hdigit]

theorem isAllowed_underscores : ∀ c ∈ underscores, isAllowed c = true := by
  intro c hc
  have hc : c = '_' := by simpa using hc
  rw [hc]
  rfl

theorem isValidIdentifier_numbered (h : isValidIdentifier root = true) (hi : 0 ≤ i) :
    isValidIdentifier (root ++ underscores ++ decimal i) = true :=
  isValidIdentifier_append (isValidIdentifier_append h isAllowed_underscores)
    (isAllowed_of_mem_decimal hi)

/-- The parts of an identifier around a separator. -/
theorem isValidIdentifier_parts {suffix : Name}
    (h : isValidIdentifier (root ++ underscores ++ suffix) = true) :
    (root = [] ∨ isValidIdentifier root = true) ∧ ∀ c ∈ suffix, isAllowed c = true := by
  rw [isValidIdentifier_iff] at h
  obtain ⟨⟨d, t, heq, hd⟩, hall⟩ := h
  refine ⟨?_, fun c hc => hall c (List.mem_append_right _ hc)⟩
  cases root with
  | nil => exact .inl rfl
  | cons c root =>
    right
    rw [List.append_assoc, List.cons_append, List.cons.injEq] at heq
    rw [isValidIdentifier_iff]
    exact ⟨⟨c, root, rfl, heq.1 ▸ hd⟩,
      fun e he => hall e (List.mem_append_left _ (List.mem_append_left _ he))⟩

variable (ha : IsSimpleAtoi simpleAtoi)

include ha in
/-- The root and the number of an identifier. -/
theorem NumberedAs.of_valid (h : NumberedAs simpleAtoi s root i) (hs : isValidIdentifier s = true) :
    (root = [] ∨ isValidIdentifier root = true) ∧ 0 ≤ i := by
  obtain ⟨suffix, rfl, -, hi⟩ := h
  obtain ⟨hroot, hall⟩ := isValidIdentifier_parts hs
  refine ⟨hroot, ?_⟩
  by_contra hneg
  exact absurd (hall '-' (ha.sign _ _ hi (not_le.mp hneg))) (by decide)

theorem nonneg_of_allowed_decimal (h : ∀ c ∈ decimal i, isAllowed c = true) : 0 ≤ i := by
  by_contra hneg
  rw [decimal, if_pos (not_le.mp hneg)] at h
  exact absurd (h '-' List.mem_cons_self) (by decide)

theorem isValidIdentifier_rootOf (h : root = [] ∨ isValidIdentifier root = true) :
    isValidIdentifier (rootOf root) = true := by
  unfold rootOf
  split
  · decide
  · exact h.resolve_left ‹_›

section

include ha

/-- What the sanitized name of a request is split into. -/
theorem Harmless.split (hr : Harmless simpleAtoi reservedNames) {requested : Name}
    {suffix : Option ℤ}
    (h : splitSuffix simpleAtoi underscores (sanitizeName requested reservedNames) = (s, suffix)) :
    isValidIdentifier (rootOf s) = true ∧ (suffix = none → rootOf s ∉ reservedNames) ∧
      ∀ i, suffix = some i → 0 ≤ i := by
  -- the sanitized name is an identifier and not reserved, or ends in a number
  suffices hsplit : (∀ root i, NumberedAs simpleAtoi (sanitizeName requested reservedNames) root i →
      (root = [] ∨ isValidIdentifier root = true) ∧ 0 ≤ i) ∧
      ((∀ root i, ¬ NumberedAs simpleAtoi (sanitizeName requested reservedNames) root i) →
        isValidIdentifier (rootOf (sanitizeName requested reservedNames)) = true ∧
          rootOf (sanitizeName requested reservedNames) ∉ reservedNames) by
    rcases splitSuffix_cases simpleAtoi (sanitizeName requested reservedNames) with
      ⟨hbare, hnot⟩ | ⟨root, i, heq, hnum⟩
    · rw [hbare] at h
      cases h
      obtain ⟨hvalid, hfree⟩ := hsplit.2 hnot
      exact ⟨hvalid, fun _ => hfree, fun i hi => absurd hi (by simp)⟩
    · rw [heq] at h
      cases h
      obtain ⟨hroot, hi⟩ := hsplit.1 _ _ hnum
      refine ⟨isValidIdentifier_rootOf hroot, fun hnone => absurd hnone (by simp), fun j hj => ?_⟩
      cases hj
      exact hi
  have hrootOf : ∀ {s : Name}, isValidIdentifier s = true → rootOf s = s := by
    intro s hs
    rw [rootOf, if_neg]
    rintro rfl
    cases hs
  by_cases hne : requested = []
  · subst hne
    have hempty : ∀ root i, ¬ NumberedAs simpleAtoi ([] : Name) root i := by
      rintro root i ⟨suffix, heq, -⟩
      simp at heq
    rw [sanitizeName, if_pos rfl]
    exact ⟨fun root i hnum => absurd hnum (hempty root i), fun _ => ⟨by decide, hr.name⟩⟩
  · by_cases hmem : requested ∈ reservedNames
    · obtain ⟨k, -, hbelow, hend⟩ := unreserve_spec reservedNames requested
      have hk : 0 < k := by
        rw [Nat.pos_iff_ne_zero]
        rintro rfl
        exact hend hmem
      rw [sanitizeName_of_mem hne hbelow hk hend]
      obtain ⟨hnum, hbare⟩ := hr.marked requested hmem hne k hbelow hend
      refine ⟨hnum, fun hnot => ?_⟩
      obtain ⟨hvalid, hfree⟩ := hbare hnot
      rw [hrootOf hvalid]
      exact ⟨hvalid, hfree⟩
    · rw [sanitizeName_of_notMem hne hmem]
      have hvalid := isValidIdentifier_respell hne
      refine ⟨fun root i hnum => hnum.of_valid ha hvalid, fun hnot => ?_⟩
      rw [hrootOf hvalid]
      exact ⟨hvalid, hr.respelled requested hmem hne hnot⟩

/-- A call returns a legal name which is not reserved. -/
theorem Harmless.call {u u' : NameUniquer} (hr : Harmless simpleAtoi u.reservedNames)
    (hsep : u.separator = underscores) {requested : Name}
    (h : getSanitizedUniqueName simpleAtoi u requested = some (name, u')) :
    isValidIdentifier name = true ∧ name ∉ u.reservedNames := by
  obtain ⟨s, suffix, hsplit, hcases⟩ := getSanitizedUniqueName_spec h
  rw [hsep] at hsplit
  obtain ⟨hvalid, hfree, hpos⟩ := hr.split ha hsplit
  rcases hcases with ⟨hnone, -, rfl, -⟩ | ⟨i, g, -, rfl, -, -, hi⟩
  · exact ⟨hvalid, hfree hnone⟩
  · have hirange : 0 ≤ i ∧ i ≤ int64Max := by
      rcases hi with rfl | rfl
      · obtain ⟨_, -, -, hnum⟩ := splitSuffix_eq_some.mp hsplit
        exact ⟨hpos i rfl, (ha.range _ _ hnum).2⟩
      · exact ⟨by have := (u.generator (rootOf s)).next_pos; omega,
          (u.generator (rootOf s)).next_le⟩
    rw [NameUniquer.numbered, hsep]
    exact ⟨isValidIdentifier_numbered hvalid hirange.1, hr.numbered _ _ hvalid hirange.1 hirange.2⟩

theorem Harmless.run (hr : Harmless simpleAtoi reservedNames) {calls : List Name} :
    ∀ {u u' : NameUniquer} {names : List Name}, u.separator = underscores →
    u.reservedNames = reservedNames → u.InRange →
    NameUniquer.run simpleAtoi u calls = some (names, u') →
    ∀ name ∈ names, isValidIdentifier name = true ∧ name ∉ reservedNames := by
  induction calls with
  | nil =>
    intro u u' names _ _ _ h
    cases h
    exact fun _ hname => absurd hname List.not_mem_nil
  | cons requested calls ih =>
    intro u u' names hsep hres hrange h
    obtain ⟨⟨name, v⟩, hcall, h⟩ := Option.bind_eq_some_iff.mp h
    obtain ⟨⟨names', w⟩, hrun, h⟩ := Option.bind_eq_some_iff.mp h
    cases h
    obtain ⟨hgrows, hrange', -, -⟩ := call_spec ha hsep hrange hcall
    have hname := Harmless.call ha (hres ▸ hr) hsep hcall
    rw [hres] at hname
    exact List.forall_mem_cons.mpr
      ⟨hname, ih (hgrows.1.trans hsep) (hgrows.2.1.trans hres) hrange' hrun⟩

/-- Reserved identifiers without underscores are harmless. -/
theorem harmless_of_plain (h : ∀ name ∈ reservedNames, isValidIdentifier name = true ∧ '_' ∉ name ∧
      name ≠ "name".toList) : Harmless simpleAtoi reservedNames where
  name hmem := (h _ hmem).2.2 rfl
  numbered root i _ _ _ hmem := (h _ hmem).2.1 (by simp)
  respelled name hnot hne _ hmem := by
    have hplain := (h _ hmem).2.1
    have hall : ∀ c ∈ name, respellChar c = c := by
      intro c hc
      refine respellChar_of_isAllowed ?_
      by_contra hc'
      have hmem' : '_' ∈ name.map respellChar :=
        List.mem_map.mpr ⟨c, hc, if_neg hc'⟩
      refine hplain ?_
      rw [respell]
      cases hname : name.map respellChar with
      | nil => rw [hname] at hmem'; cases hmem'
      | cons d t =>
        rw [hname] at hmem'
        rw [prefixDigit]
        split
        · exact List.mem_cons_self
        · exact hmem'
    have hmap : name.map respellChar = name := (List.map_congr_left hall).trans (List.map_id _)
    cases name with
    | nil => exact hne rfl
    | cons c t =>
      rw [respell, hmap, prefixDigit] at hplain hmem
      split at hmem
      · rename_i hstart
        rw [if_pos hstart] at hplain
        exact hplain List.mem_cons_self
      · exact hnot hmem
  marked name hmem hne k hbelow hend := by
    have hvalid : isValidIdentifier (NameUniquer.marked k name) = true := by
      have hname := (h _ hmem).1
      have hmap : (name.take (name.length - k)).map respellChar = name.take (name.length - k) :=
        (List.map_congr_left fun c hc => respellChar_of_isAllowed
          ((isValidIdentifier_iff.mp hname).2 c (List.mem_of_mem_take hc))).trans (List.map_id _)
      rw [NameUniquer.marked, hmap, List.take_append_drop]
      cases k with
      | zero => exact hname
      | succ k =>
        rw [isValidIdentifier_iff]
        refine ⟨⟨'_', _, rfl, .inr rfl⟩, List.forall_mem_append.mpr ⟨fun c hc => ?_,
          (isValidIdentifier_iff.mp hname).2⟩⟩
        rw [List.eq_of_mem_replicate hc]
        rfl
    refine ⟨fun root i hnum => hnum.of_valid ha hvalid, fun _ => ⟨hvalid, fun hmem' => ?_⟩⟩
    cases k with
    | zero => exact hend hmem
    | succ k => exact (h _ hmem').2.1 List.mem_cons_self

end

/-! ## When the names of all runs are legal and not reserved -/

theorem inRange_new (separator : Name) (reservedNames : List Name) :
    (new separator reservedNames).InRange := fun _ _ h => absurd h List.not_mem_nil

/-- The first name of a run. -/
theorem first_call (reservedNames : List Name) {requested : Name} {suffix : Option ℤ}
    (h : splitSuffix simpleAtoi underscores (sanitizeName requested reservedNames) = (s, suffix)) :
    ∃ u', run simpleAtoi (new underscores reservedNames) [requested] =
      some ([suffix.elim (rootOf s) fun i => rootOf s ++ underscores ++ decimal i], u') := by
  have hbounded : (new underscores reservedNames).Bounded 0 := fun _ => le_rfl
  obtain ⟨⟨name, u'⟩, hcall⟩ :=
    getSanitizedUniqueName_isSome simpleAtoi hbounded (by decide) requested
  refine ⟨u', ?_⟩
  have hname : name = suffix.elim (rootOf s) fun i => rootOf s ++ underscores ++ decimal i := by
    rw [getSanitizedUniqueName,
      show (new underscores reservedNames).separator = underscores from rfl,
      show (new underscores reservedNames).reservedNames = reservedNames from rfl, h] at hcall
    cases suffix with
    | none =>
      cases hcall
      rfl
    | some id =>
      obtain ⟨⟨i, g⟩, hreg, heq⟩ := Option.map_eq_some_iff.mp hcall
      cases heq
      obtain ⟨g', -, heq⟩ := Option.map_eq_some_iff.mp hreg
      cases heq
      rfl
  rw [run, hcall, ← hname]
  rfl

include ha in
/-- Every identifier with a number is the answer to some request. -/
theorem exists_request (reservedNames : List Name) (hroot : isValidIdentifier root = true)
    (hi : 0 ≤ i) (hmax : i ≤ int64Max) :
    ∃ requested u', run simpleAtoi (new underscores reservedNames) [requested] =
      some ([root ++ underscores ++ decimal i], u') := by
  -- enough leading zeros make the request longer than all reserved names
  set zeros := (reservedNames.map List.length).sum + 1 with hzeros
  set requested := root ++ underscores ++ (List.replicate zeros '0' ++ decimal i) with hrequested
  have hnot : requested ∉ reservedNames := by
    intro hmem
    have hle := List.single_le_sum (fun n _ => Nat.zero_le n) _
      (List.mem_map.mpr ⟨requested, hmem, rfl⟩ : requested.length ∈ reservedNames.map List.length)
    have hlength : zeros ≤ requested.length := by
      rw [List.length_append, List.length_append, List.length_append, List.length_replicate]
      omega
    omega
  have hvalid : isValidIdentifier requested = true := by
    refine isValidIdentifier_append (isValidIdentifier_append hroot isAllowed_underscores) ?_
    refine List.forall_mem_append.mpr ⟨fun c hc => ?_, isAllowed_of_mem_decimal hi⟩
    rw [List.eq_of_mem_replicate hc]
    rfl
  have hne : requested ≠ [] := by
    intro h
    rw [h] at hvalid
    cases hvalid
  have hnum : NumberedAs simpleAtoi requested root i := by
    refine ⟨_, rfl, not_infix_of_notMem fun hmem => ?_, ha.digits zeros i hi hmax⟩
    rcases List.mem_append.mp hmem with hmem | hmem
    · exact absurd (List.eq_of_mem_replicate hmem) (by decide)
    · exact underscore_notMem_decimal i hmem
  have hsplit : splitSuffix simpleAtoi underscores (sanitizeName requested reservedNames) =
      (root, some i) := by
    rw [sanitizeName_of_notMem hne hnot, respell_eq_self hvalid]
    exact splitSuffix_eq_some.mpr hnum
  have hrootOf : rootOf root = root := by
    rw [rootOf, if_neg]
    rintro rfl
    cases hroot
  obtain ⟨u', hrun⟩ := first_call reservedNames hsplit
  rw [hrootOf] at hrun
  exact ⟨requested, u', hrun⟩

theorem ne_nil_of_valid (h : isValidIdentifier s = true) : s ≠ [] := by
  rintro rfl
  cases h

theorem rootOf_of_ne_nil (h : s ≠ []) : rootOf s = s := if_neg h

theorem splitSuffix_of_forall (h : ∀ root i, ¬ NumberedAs simpleAtoi s root i) :
    splitSuffix simpleAtoi underscores s = (s, none) := by
  rcases splitSuffix_cases simpleAtoi s with ⟨hbare, -⟩ | ⟨root, i, -, hnum⟩
  · exact hbare
  · exact absurd hnum (h root i)

/-- **Unique names.**  Every run with fewer calls than there are numbers returns, its names are
pairwise distinct, and the names of all runs are identifiers and not reserved exactly if the
reserved names are harmless. -/
theorem unique_legal_unreserved_iff (ha : IsSimpleAtoi simpleAtoi) (reservedNames : List Name) :
    (∀ calls : List Name, (calls.length : ℤ) < int64Max →
      ∃ names u', run simpleAtoi (new underscores reservedNames) calls = some (names, u')) ∧
    ((∀ (calls names : List Name) (u' : NameUniquer),
      run simpleAtoi (new underscores reservedNames) calls = some (names, u') →
      names.Nodup ∧ ∀ name ∈ names, isValidIdentifier name = true ∧ name ∉ reservedNames) ↔
    Harmless simpleAtoi reservedNames) := by
  refine ⟨fun calls hcalls => ?_, fun h => ?_, fun hr calls names u' hrun => ?_⟩
  · have hbounded : (new underscores reservedNames).Bounded 0 := fun _ => le_rfl
    obtain ⟨⟨names, u'⟩, hrun⟩ := run_isSome simpleAtoi hbounded (by simpa using hcalls)
    exact ⟨names, u', hrun⟩
  · have hfirst : ∀ {requested s : Name} {suffix : Option ℤ},
        splitSuffix simpleAtoi underscores (sanitizeName requested reservedNames) = (s, suffix) →
        isValidIdentifier (suffix.elim (rootOf s) fun i => rootOf s ++ underscores ++ decimal i) =
            true ∧
          (suffix.elim (rootOf s) fun i => rootOf s ++ underscores ++ decimal i) ∉
            reservedNames := by
      intro requested s suffix hsplit
      obtain ⟨u', hrun⟩ := first_call reservedNames hsplit
      exact (h _ _ _ hrun).2 _ List.mem_cons_self
    have hempty : splitSuffix simpleAtoi underscores (sanitizeName [] reservedNames) =
        ([], none) := rfl
    refine ⟨(hfirst hempty).2, ?_, ?_, ?_⟩
    · intro root i hroot hi hmax
      obtain ⟨requested, u', hrun⟩ := exists_request ha reservedNames hroot hi hmax
      exact ((h _ _ _ hrun).2 _ List.mem_cons_self).2
    · intro name hnot hne hbare
      have hsplit := splitSuffix_of_forall hbare
      rw [← sanitizeName_of_notMem hne hnot] at hsplit ⊢
      have hroot := (hfirst hsplit).2
      rwa [Option.elim_none, rootOf_of_ne_nil (by
        rw [sanitizeName_of_notMem hne hnot]
        exact ne_nil_of_valid (isValidIdentifier_respell hne))] at hroot
    · intro name hmem hne k hbelow hend
      have hk : 0 < k := by
        rw [Nat.pos_iff_ne_zero]
        rintro rfl
        exact hend hmem
      have hmarked := sanitizeName_of_mem hne hbelow hk hend
      constructor
      · intro root i hnum
        have hvalid := (hfirst (hmarked ▸ splitSuffix_eq_some.mpr hnum)).1
        obtain ⟨hroot, hall⟩ := isValidIdentifier_parts hvalid
        refine ⟨or_iff_not_imp_left.mpr fun hne => ?_, nonneg_of_allowed_decimal hall⟩
        rw [rootOf_of_ne_nil hne] at hroot
        exact hroot.resolve_left hne
      · intro hbare
        have hsplit := splitSuffix_of_forall hbare
        rw [← hmarked] at hsplit ⊢
        have hroot := hfirst hsplit
        have hne' : marked k name ≠ [] := by
          obtain ⟨j, rfl⟩ := Nat.exists_eq_succ_of_ne_zero hk.ne'
          exact List.cons_ne_nil _ _
        rw [← hmarked] at hne'
        rwa [Option.elim_none, rootOf_of_ne_nil hne'] at hroot
  · exact ⟨(run_nodup ha rfl (inRange_new _ _) hrun).1, hr.run ha rfl rfl (inRange_new _ _) hrun⟩

end

/-! ## A parser of numbers -/

/-- `absl::ascii_isspace`. -/
def isSpace (c : Char) : Bool := c == ' ' || (9 ≤ c.toNat && c.toNat ≤ 13)

/-- A number without its sign. -/
def parseDigits (digits : Name) : Option ℕ :=
  if digits ≠ [] ∧ digits.all Char.isDigit then some (Nat.ofDigitChars 10 digits 0) else none

/-- A number of `int64_t`, with white space around it and an optional sign. -/
def parseInt64 (s : Name) : Option ℤ :=
  match ((s.dropWhile isSpace).reverse.dropWhile isSpace).reverse with
  | '-' :: digits =>
    (parseDigits digits).bind fun n => if (n : ℤ) ≤ int64Max + 1 then some (-(n : ℤ)) else none
  | '+' :: digits => (parseDigits digits).bind fun n => if (n : ℤ) ≤ int64Max then some n else none
  | digits => (parseDigits digits).bind fun n => if (n : ℤ) ≤ int64Max then some n else none

theorem parseDigits_toDigits (zeros n : ℕ) :
    parseDigits (List.replicate zeros '0' ++ Nat.toDigits 10 n) = some n := by
  have hall : (List.replicate zeros '0' ++ Nat.toDigits 10 n).all Char.isDigit = true := by
    rw [List.all_eq_true]
    intro c hc
    rcases List.mem_append.mp hc with hc | hc
    · rw [List.eq_of_mem_replicate hc]
      rfl
    · exact Nat.isDigit_of_mem_toDigits (by decide) (by decide) hc
  have hne : List.replicate zeros '0' ++ Nat.toDigits 10 n ≠ [] := by
    rw [ne_eq, List.append_eq_nil_iff]
    exact fun h => Nat.toDigits_ne_nil h.2
  rw [parseDigits, if_pos ⟨hne, hall⟩, Nat.ofDigitChars_append, Nat.ofDigitChars_replicate_zero,
    Nat.mul_zero, Nat.ofDigitChars_ten_toDigits]

/-- Nothing is stripped from a string without white space. -/
theorem strip_eq_self {s : Name} (h : ∀ c ∈ s, isSpace c = false) :
    ((s.dropWhile isSpace).reverse.dropWhile isSpace).reverse = s := by
  have hdrop : ∀ t : Name, (∀ c ∈ t, isSpace c = false) → t.dropWhile isSpace = t := by
    intro t ht
    cases t with
    | nil => rfl
    | cons c t => rw [List.dropWhile_cons, ht c List.mem_cons_self, if_neg (by decide)]
  rw [hdrop s h, hdrop _ fun c hc => h c (List.mem_reverse.mp hc), List.reverse_reverse]

theorem isSpace_of_isDigit {c : Char} (h : c.isDigit = true) : isSpace c = false := by
  simp only [Char.isDigit, Bool.and_eq_true, decide_eq_true_eq] at h
  have hc : 48 ≤ c.toNat := h.1
  have hne : c ≠ ' ' := by
    rintro rfl
    exact absurd hc (by decide)
  simp [isSpace, hne]
  omega

/-- The result of the parser, by its sign. -/
theorem parseInt64_cases {s : Name} {i : ℤ} (h : parseInt64 s = some i) :
    (0 ≤ i ∧ i ≤ int64Max) ∨ (- int64Max - 1 ≤ i ∧ i ≤ 0 ∧ '-' ∈ s) := by
  rw [parseInt64] at h
  have hsub : ((s.dropWhile isSpace).reverse.dropWhile isSpace).reverse ⊆ s := by
    intro c hc
    rw [List.mem_reverse] at hc
    exact (List.dropWhile_sublist _).subset
      (List.mem_reverse.mp ((List.dropWhile_sublist _).subset hc))
  have hpos : ∀ {digits : Name}, (parseDigits digits).bind (fun n =>
      if (n : ℤ) ≤ int64Max then some (n : ℤ) else none) = some i → 0 ≤ i ∧ i ≤ int64Max := by
    intro digits h
    obtain ⟨n, -, hn⟩ := Option.bind_eq_some_iff.mp h
    obtain ⟨hle, hn⟩ := Option.ite_none_right_eq_some.mp hn
    cases hn
    exact ⟨Int.natCast_nonneg n, hle⟩
  split at h
  · rename_i digits heq
    obtain ⟨n, -, hn⟩ := Option.bind_eq_some_iff.mp h
    obtain ⟨hle, hn⟩ := Option.ite_none_right_eq_some.mp hn
    cases hn
    exact .inr ⟨by omega, by omega, hsub (heq ▸ List.mem_cons_self)⟩
  · exact .inl (hpos h)
  · exact .inl (hpos h)

theorem isSimpleAtoi_parseInt64 : IsSimpleAtoi parseInt64 where
  digits zeros i hi hmax := by
    have hdigit : ∀ c ∈ List.replicate zeros '0' ++ decimal i, c.isDigit = true := by
      refine List.forall_mem_append.mpr ⟨fun c hc => ?_, fun c => isDigit_of_mem_decimal hi⟩
      rw [List.eq_of_mem_replicate hc]
      rfl
    have hparse := parseDigits_toDigits zeros i.natAbs
    rw [parseInt64, strip_eq_self fun c hc => isSpace_of_isDigit (hdigit c hc)]
    rw [decimal, if_neg (not_lt.mpr hi)] at hdigit ⊢
    have hvalue : ((parseDigits (List.replicate zeros '0' ++ Nat.toDigits 10 i.natAbs)).bind
        fun n => if (n : ℤ) ≤ int64Max then some (n : ℤ) else none) = some i := by
      rw [hparse, Option.bind_some, Int.natAbs_of_nonneg hi, if_pos hmax]
    split
    · rename_i heq
      exact absurd (hdigit '-' (heq ▸ List.mem_cons_self)) (by decide)
    · rename_i heq
      exact absurd (hdigit '+' (heq ▸ List.mem_cons_self)) (by decide)
    · exact hvalue
  negative i hi hmin := by
    have hparse := parseDigits_toDigits 0 i.natAbs
    rw [List.replicate_zero, List.nil_append] at hparse
    have hspace : ∀ c ∈ decimal i, isSpace c = false := by
      rw [decimal, if_pos hi]
      exact List.forall_mem_cons.mpr ⟨by decide, fun c hc =>
        isSpace_of_isDigit (Nat.isDigit_of_mem_toDigits (by decide) (by decide) hc)⟩
    rw [parseInt64, strip_eq_self hspace, decimal, if_pos hi]
    simp only [hparse, Option.bind_some]
    rw [if_pos (by omega)]
    congr 1
    omega
  range s i h := by
    rcases parseInt64_cases h with ⟨hi, hmax⟩ | ⟨hmin, hi, -⟩
    · exact ⟨by omega, hmax⟩
    · exact ⟨hmin, by rw [int64Max]; omega⟩
  sign s i h hi := by
    rcases parseInt64_cases h with ⟨hpos, -⟩ | ⟨-, -, hmem⟩
    · exact absurd hi (not_lt.mpr hpos)
    · exact hmem

/-! ## A reserved word that appears when a character is replaced -/

/-- The keywords of the IR (`Token::GetKeywords`), which are the reserved names of a function. -/
def irKeywords : List Name :=
  ["fn", "bits", "token", "ret", "package", "proc", "chan", "reg", "next", "block", "clock",
    "instantiation", "top", "file_number"].map String.toList

theorem file_number_reserved : ¬ ∀ (calls names : List Name) (u' : NameUniquer),
    run parseInt64 (new underscores irKeywords) calls = some (names, u') →
    names.Nodup ∧ ∀ name ∈ names, isValidIdentifier name = true ∧ name ∉ irKeywords := by
  intro h
  have hrun : (run parseInt64 (new underscores irKeywords) ["file-number".toList]).map Prod.fst =
      some ["file_number".toList] := by
    decide
  obtain ⟨⟨names, u'⟩, hrun, rfl⟩ := Option.map_eq_some_iff.mp hrun
  exact ((h _ _ _ hrun).2 _ List.mem_cons_self).2 (by decide)

/-- Names of a run in which all keywords but `file_number` are reserved. -/
theorem unique_legal_unreserved_keywords : ∃ names u',
    run parseInt64 (new underscores (irKeywords.take 13))
      (["reg", "reg", "a-b", "a b__07", "", "9"].map String.toList) = some (names, u') ∧
    names = ["_reg", "_reg__1", "a_b", "a_b__7", "name", "_9"].map String.toList ∧
    names.Nodup ∧ ∀ name ∈ names, isValidIdentifier name = true ∧ name ∉ irKeywords.take 13 := by
  have hrun : (run parseInt64 (new underscores (irKeywords.take 13))
      (["reg", "reg", "a-b", "a b__07", "", "9"].map String.toList)).map Prod.fst =
      some (["_reg", "_reg__1", "a_b", "a_b__7", "name", "_9"].map String.toList) := by
    decide +kernel
  obtain ⟨⟨names, u'⟩, hrun, rfl⟩ := Option.map_eq_some_iff.mp hrun
  exact ⟨_, u', hrun, rfl,
    (unique_legal_unreserved_iff isSimpleAtoi_parseInt64 (irKeywords.take 13)).2.mpr
      (harmless_of_plain isSimpleAtoi_parseInt64 (by decide)) _ _ u' hrun⟩

end NameUniquer

end Xls
