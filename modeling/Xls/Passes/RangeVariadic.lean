/-
# Soundness of `HandleVariadicOp`

The intervals chosen from the operand sets bracket the operand values; the bounds
computed from them by a monotone (or antitone) implementation bracket the result.
Each operation below brings its own argument, with the cases where the result
interval wraps around (`neg`), where the division is by zero, and where the
implementation gives up on overflow.
-/
import Xls.Passes.RangeQueryEngine

namespace Xls

namespace Range

/-! ## What a tree says about a value -/

/-- The tree of a node, normalized and of the node's type, covers its value. -/
structure Tracks (tree : IntervalSetTree) (v : Value) : Prop where
  covers : List.Forall₂ IntervalSet.Covers tree.elements v.leaves
  normalized : ∀ s ∈ tree.elements, s.isNormalized = true
  conforms : v.conformsToType tree.type = true

/-- A normalized set which covers a point. -/
def SetTracks (s : IntervalSet) (b : Bits) : Prop := s.Covers b ∧ s.isNormalized = true

variable {tree : IntervalSetTree} {b a x y : Bits} {xs : List Bits} {sets : List IntervalSet}
  {trees : List IntervalSetTree} {w : ℕ}

/-- The set of a tree of bits type tracks the bits of the value. -/
theorem Tracks.get {v : Value} (h : Tracks tree v) {s : IntervalSet} (hs : tree.get [] = some s)
    (hb : v.asBits = some b) : SetTracks s b := by
  obtain ⟨-, helem⟩ := LeafTypeTree.get_nil_eq_some hs
  have hcov := h.covers
  have hv : v = .bits b := by
    cases v <;> first | cases hb; rfl | cases hb
  rw [helem, hv] at hcov
  cases hcov with
  | cons hc _ => exact ⟨hc, h.normalized s (by rw [helem]; exact List.mem_singleton_self s)⟩

theorem bitsVector_cons {v : Value} {vs : List Value}
    (h : Interpreter.bitsVector (v :: vs) = some xs) :
    ∃ x rest, v.asBits = some x ∧ Interpreter.bitsVector vs = some rest ∧ xs = x :: rest := by
  rw [Interpreter.bitsVector] at h
  split at h
  · rename_i x rest hx hrest
    cases h
    exact ⟨x, rest, hx, hrest, rfl⟩
  · cases h

theorem bitsOperands_cons {t : IntervalSetTree} {ts : List IntervalSetTree}
    (h : bitsOperands (t :: ts) = some sets) :
    ∃ s rest, t.get [] = some s ∧ bitsOperands ts = some rest ∧ sets = s :: rest := by
  rw [bitsOperands] at h
  split at h
  · rename_i s rest hs hrest
    cases h
    exact ⟨s, rest, hs, hrest, rfl⟩
  · cases h

theorem length_bitsOperands (h : bitsOperands trees = some sets) : sets.length = trees.length := by
  induction trees generalizing sets with
  | nil =>
    cases h
    rfl
  | cons t ts ih =>
    obtain ⟨s, rest, -, hrest, rfl⟩ := bitsOperands_cons h
    rw [List.length_cons, List.length_cons, ih hrest]

/-- The operand sets of a node on bits track the operand values. -/
theorem bitsOperands_tracks {operands : List Value} (h : List.Forall₂ Tracks trees operands)
    (hs : bitsOperands trees = some sets) (hx : Interpreter.bitsVector operands = some xs) :
    List.Forall₂ SetTracks sets xs := by
  induction h generalizing sets xs with
  | nil =>
    cases hs
    cases hx
    exact .nil
  | cons ht _ ih =>
    obtain ⟨s, ss, hget, hss, rfl⟩ := bitsOperands_cons hs
    obtain ⟨x, xs', hb, hxs, rfl⟩ := bitsVector_cons hx
    exact .cons (ht.get hget hb) (ih hss hxs)

/-! ## The chosen intervals -/

/-- The bounds of an interval bracket a value of the same width. -/
def Between (p : Bits × Bits) (x : Bits) : Prop :=
  p.1.bitCount = x.bitCount ∧ p.2.bitCount = x.bitCount ∧
  p.1.toNat ≤ x.toNat ∧ x.toNat ≤ p.2.toNat

theorem minimizeOperands_tracks (h : List.Forall₂ SetTracks sets xs) :
    ∀ i, List.Forall₂ SetTracks (minimizeOperands i sets) xs := by
  induction h with
  | nil => intro i; exact .nil
  | cons hs _ ih =>
    intro i
    exact .cons ⟨minimizeIntervals_Covers hs.1 _, minimizeIntervals_isNormalized _ _⟩ (ih (i + 1))

/-- Some choice of intervals brackets the operand values. -/
theorem exists_chosenIntervals (h : List.Forall₂ SetTracks sets xs) :
    ∃ indexes chosen, List.Forall₂ (· < ·) indexes (sets.map fun s => s.intervals.length) ∧
      chosenIntervals sets indexes = some chosen ∧ List.Forall₂ Between chosen xs := by
  induction h with
  | nil => exact ⟨[], [], .nil, rfl, .nil⟩
  | @cons s x sets xs hs _ ih =>
    obtain ⟨indexes, chosen, hidx, hchosen, hbetween⟩ := ih
    obtain ⟨interval, hmem, hcov⟩ := hs.1.exists_interval
    rw [Interval.covers_iff_of_proper ((s.normal hs.2).proper hmem) hs.1.lt] at hcov
    obtain ⟨i, hi, hget⟩ := List.getElem_of_mem hmem
    refine ⟨i :: indexes, (interval.lowerBound, interval.upperBound) :: chosen,
      .cons hi hidx, ?_, .cons ⟨hs.1.1.symm, hs.1.1.symm, hcov⟩ hbetween⟩
    rw [chosenIntervals, List.getElem?_eq_getElem hi, hget, hchosen]

theorem intervalOfBits_eq_some {lower upper : Bits} {interval : Interval w}
    (h : intervalOfBits w lower upper = some interval) :
    lower.bitCount = w ∧ upper.bitCount = w ∧ interval.lower = lower.toNat ∧
    interval.upper = upper.toNat := by
  unfold intervalOfBits at h
  split at h
  · rename_i hw
    cases h
    exact ⟨hw.1, hw.2, rfl, rfl⟩
  · cases h

/-- What an implementation must satisfy at given operand values: the bounds computed
from bracketing arguments form an interval which covers the result. -/
def SoundAt (impl : List Bits → Option Bits) (tonicities : List Tonicity) (w : ℕ)
    (xs : List Bits) (r : Bits) : Prop :=
  ∀ (chosen : List (Bits × Bits)) (lower upper : Bits) (interval : Interval w),
    List.Forall₂ Between chosen xs →
    impl (lowerArguments tonicities (chosen.map Prod.fst) (chosen.map Prod.snd)) = some lower →
    impl (lowerArguments tonicities (chosen.map Prod.snd) (chosen.map Prod.fst)) = some upper →
    intervalOfBits w lower upper = some interval → interval.covers r.toNat = true

theorem storeLeaf_eq_some {type : Ty} {s : IntervalSet} (h : storeLeaf type s = some (some tree)) :
    tree.elements = [s] := by
  unfold storeLeaf at h
  split at h
  · rename_i t ht
    cases h
    exact (LeafTypeTree.ofLeaf_eq_some ht).2.2
  · cases h

/-- A callback which does not stop adds an interval with the computed bounds. -/
theorem variadicCallback_eq_some {impl : List Bits → Option Bits} {tonicities : List Tonicity}
    {operands : List IntervalSet} {l l' : List (Interval w)} {indexes : List ℕ} {stop : Bool}
    (h : variadicCallback impl tonicities w operands l indexes = some (l', stop)) :
    (l' = l ∧ stop = true) ∨
    ∃ chosen lower upper interval, chosenIntervals operands indexes = some chosen ∧
      impl (lowerArguments tonicities (chosen.map Prod.fst) (chosen.map Prod.snd)) = some lower ∧
      impl (lowerArguments tonicities (chosen.map Prod.snd) (chosen.map Prod.fst)) = some upper ∧
      intervalOfBits w lower upper = some interval ∧ l' = l ++ [interval] := by
  unfold variadicCallback at h
  split at h
  · cases h
  · rename_i chosen hchosen
    simp only at h
    split at h
    · rename_i lower upper hlower hupper
      split at h
      · rename_i interval hinterval
        cases h
        exact .inr ⟨chosen, lower, upper, interval, hchosen, hlower, hupper, hinterval, rfl⟩
      · cases h
    · cases h
      exact .inl ⟨rfl, rfl⟩

/-- `HandleVariadicOp` stores a set which covers the result. -/
theorem handleVariadicOp_covers {impl : List Bits → Option Bits} {tonicities : List Tonicity}
    {type : Ty} {operands : List Value} (ht : List.Forall₂ Tracks trees operands)
    (hx : Interpreter.bitsVector operands = some xs) {r : Bits}
    (hr : (Value.bits r).conformsToType type = true)
    (hsound : SoundAt impl tonicities r.bitCount xs r)
    (h : handleVariadicOp impl tonicities type trees = some (some tree)) :
    List.Forall₂ IntervalSet.Covers tree.elements [r] := by
  unfold handleVariadicOp at h
  split at h
  · rename_i w sets hsets
    have hw : r.bitCount = w := by simpa [Value.conformsToType] using hr
    subst hw
    split at h
    · simp only at h
      split at h
      · cases h
      · cases h
      · rename_i resultIntervals hiter
        rw [storeLeaf_eq_some h]
        refine .cons (minimizeIntervals_Covers ?_ _) .nil
        rw [IntervalSet.ofIntervals_Covers]
        refine ⟨rfl, ?_⟩
        -- the index vector whose intervals bracket the operands was visited
        have htracks := minimizeOperands_tracks (bitsOperands_tracks ht hsets hx) 0
        obtain ⟨indexes, chosen, hidx, hchosen, hbetween⟩ := exists_chosenIntervals htracks
        rw [mixedRadixIterate_eq_visit] at hiter
        have hstep : ∀ {l : List (Interval r.bitCount)} {idx : List ℕ} {l' stop},
            variadicCallback impl tonicities r.bitCount (minimizeOperands 0 sets) l idx =
              some (l', stop) → l ⊆ l' := by
          intro l idx l' stop hcb
          obtain ⟨rfl, -⟩ | ⟨_, _, _, _, _, _, _, _, rfl⟩ := variadicCallback_eq_some hcb
          · exact List.Subset.refl l'
          · exact List.subset_append_left _ _
        obtain ⟨t, u, -, hcb, hsub⟩ := Visit.visit_mem List.Subset.refl
          (fun h h' => List.Subset.trans h h') hstep hiter (mem_mixedRadixNumbers hidx)
        obtain ⟨-, hfalse⟩ | ⟨chosen', lower, upper, interval, hchosen', hlower, hupper,
          hinterval, rfl⟩ := variadicCallback_eq_some hcb
        · cases hfalse
        · rw [hchosen] at hchosen'
          cases hchosen'
          exact ⟨interval, hsub (by simp), hsound _ _ _ _ hbetween hlower hupper hinterval⟩
    · cases h
  · cases h

/-! ## The operations -/

theorem between_one {chosen : List (Bits × Bits)} (h : List.Forall₂ Between chosen [a]) :
    ∃ p, chosen = [p] ∧ Between p a := by
  cases h with
  | cons hp hrest =>
    cases hrest
    exact ⟨_, rfl, hp⟩

theorem between_two {chosen : List (Bits × Bits)} (h : List.Forall₂ Between chosen [a, b]) :
    ∃ p q, chosen = [p, q] ∧ Between p a ∧ Between q b := by
  cases h with
  | cons hp hrest =>
    obtain ⟨q, rfl, hq⟩ := between_one hrest
    exact ⟨_, q, rfl, hp, hq⟩

/-- Bounds which bracket the result are covered by the interval they form. -/
theorem covers_of_bracket {lower upper : Bits} {interval : Interval w} {n : ℕ}
    (h : intervalOfBits w lower upper = some interval) (hl : lower.toNat ≤ n) (hu : n ≤ upper.toNat) :
    interval.covers n = true := by
  obtain ⟨-, -, h1, h2⟩ := intervalOfBits_eq_some h
  exact Interval.covers_of_between (by omega) (by omega)

theorem addImpl_eq_some {z : Bits} (hw : y.bitCount = x.bitCount) (h : addImpl x y = some z) :
    z.toNat = x.toNat + y.toNat ∧ x.toNat + y.toNat < 2 ^ x.bitCount := by
  have hx := x.isLt
  have hy := y.isLt
  rw [hw] at hy
  unfold addImpl at h
  simp only [hw, max_self] at h
  split at h
  · cases h
  · rename_i hmsb
    cases h
    rw [BitsOps.msb_eq_true_iff, BitsOps.add_bitCount,
      BitsOps.zeroExtend_bitCount (by omega)] at hmsb
    have hsum : (BitsOps.zeroExtend x (x.bitCount + 1)).toNat +
        (BitsOps.zeroExtend y (x.bitCount + 1)).toNat <
        2 ^ (BitsOps.zeroExtend x (x.bitCount + 1)).bitCount := by
      rw [BitsOps.zeroExtend_bitCount (by omega), BitsOps.zeroExtend_toNat,
        BitsOps.zeroExtend_toNat]
      omega
    rw [BitsOps.add_toNat_of_lt hsum, BitsOps.zeroExtend_toNat, BitsOps.zeroExtend_toNat,
      Nat.add_sub_cancel] at hmsb
    have hlt : x.toNat + y.toNat < 2 ^ x.bitCount := by omega
    exact ⟨BitsOps.add_toNat_of_lt hlt, hlt⟩

theorem addImpl_sound (hw : b.bitCount = a.bitCount) :
    SoundAt (binary addImpl) [.monotone, .monotone] (BitsOps.add a b).bitCount [a, b]
      (BitsOps.add a b) := by
  intro chosen lower upper interval hchosen hlower hupper hinterval
  obtain ⟨p, q, rfl, ⟨hp1, hp2, hp3, hp4⟩, ⟨hq1, hq2, hq3, hq4⟩⟩ := between_two hchosen
  obtain ⟨hl, -⟩ := addImpl_eq_some (by omega) hlower
  obtain ⟨hu, hlt⟩ := addImpl_eq_some (by omega) hupper
  rw [hp2] at hlt
  refine covers_of_bracket hinterval ?_ ?_ <;>
    rw [BitsOps.add_toNat_of_lt (by omega)] <;> omega

theorem subImpl_eq_some {z : Bits} (h : subImpl x y = some z) :
    y.toNat ≤ x.toNat ∧ z.toNat = x.toNat - y.toNat := by
  unfold subImpl at h
  split at h
  · rename_i hle
    cases h
    have hle : y.toNat ≤ x.toNat := by simpa [BitsOps.uLessThanOrEqual] using hle
    exact ⟨hle, BitsOps.sub_toNat_of_le hle⟩
  · cases h

theorem subImpl_sound (a b : Bits) :
    SoundAt (binary subImpl) [.monotone, .antitone] (BitsOps.sub a b).bitCount [a, b]
      (BitsOps.sub a b) := by
  intro chosen lower upper interval hchosen hlower hupper hinterval
  obtain ⟨p, q, rfl, ⟨hp1, hp2, hp3, hp4⟩, ⟨hq1, hq2, hq3, hq4⟩⟩ := between_two hchosen
  obtain ⟨hle, hl⟩ := subImpl_eq_some hlower
  obtain ⟨-, hu⟩ := subImpl_eq_some hupper
  refine covers_of_bracket hinterval ?_ ?_ <;>
    rw [BitsOps.sub_toNat_of_le (by omega)] <;> omega

/-- Negation is antitone except at zero; an interval which starts at zero and holds
more becomes an improper one. -/
theorem negate_sound (a : Bits) :
    SoundAt (unary fun b => some (BitsOps.negate b)) [.antitone] (BitsOps.negate a).bitCount [a]
      (BitsOps.negate a) := by
  intro chosen lower upper interval hchosen hlower hupper hinterval
  obtain ⟨p, rfl, hp1, hp2, hp3, hp4⟩ := between_one hchosen
  cases hlower
  cases hupper
  obtain ⟨-, -, h1, h2⟩ := intervalOfBits_eq_some hinterval
  simp only [BitsOps.negate_toNat] at h1 h2
  have hplt := p.2.isLt
  rw [hp2] at hplt
  rw [hp1] at h2
  rw [hp2] at h1
  by_cases himp : interval.upper < interval.lower
  · rw [Interval.covers_iff_of_improper himp, BitsOps.negate_toNat]
    split_ifs at h1 h2 ⊢ <;> omega
  · refine Interval.covers_of_between ?_ ?_ <;>
      rw [BitsOps.negate_toNat] <;>
      split_ifs at h1 h2 ⊢ <;> omega

theorem umulImpl_eq_some {z : Bits} (h : umulImpl w x y = some z) :
    z.toNat = x.toNat * y.toNat ∧ x.toNat * y.toNat < 2 ^ w := by
  unfold umulImpl at h
  simp only at h
  split at h
  · rename_i hfits
    cases h
    have hlt := Bits.lt_of_fitsInNBitsUnsigned hfits
    rw [BitsOps.uMul_toNat] at hlt
    rw [BitsOps.zeroExtend_toNat, BitsOps.dropLeadingZeroes_toNat, BitsOps.uMul_toNat]
    exact ⟨rfl, hlt⟩
  · cases h

theorem umulImpl_sound {r : Bits} (hval : a.toNat * b.toNat < 2 ^ w → r.toNat = a.toNat * b.toNat) :
    SoundAt (binary (umulImpl w)) [.monotone, .monotone] r.bitCount [a, b] r := by
  intro chosen lower upper interval hchosen hlower hupper hinterval
  obtain ⟨p, q, rfl, ⟨hp1, hp2, hp3, hp4⟩, ⟨hq1, hq2, hq3, hq4⟩⟩ := between_two hchosen
  obtain ⟨hl, -⟩ := umulImpl_eq_some hlower
  obtain ⟨hu, hlt⟩ := umulImpl_eq_some hupper
  have hup : a.toNat * b.toNat ≤ p.2.toNat * q.2.toNat := Nat.mul_le_mul hp4 hq4
  have hlo : p.1.toNat * q.1.toNat ≤ a.toNat * b.toNat := Nat.mul_le_mul hp3 hq3
  refine covers_of_bracket hinterval ?_ ?_ <;> rw [hval (by omega)] <;> omega

/-- Division is antitone in the divisor, a zero divisor giving the greatest value. -/
theorem uDiv_sound (a b : Bits) :
    SoundAt (binary fun a b => some (BitsOps.uDiv a b)) [.monotone, .antitone]
      (BitsOps.uDiv a b).bitCount [a, b] (BitsOps.uDiv a b) := by
  intro chosen lower upper interval hchosen hlower hupper hinterval
  obtain ⟨p, q, rfl, ⟨hp1, hp2, hp3, hp4⟩, ⟨hq1, hq2, hq3, hq4⟩⟩ := between_two hchosen
  cases hlower
  cases hupper
  have hle := (BitsOps.uDiv a b).toNat_le
  rw [BitsOps.uDiv_bitCount] at hle
  refine covers_of_bracket hinterval ?_ ?_
  · simp only [BitsOps.uDiv_toNat]
    by_cases hb : b.toNat = 0
    · have hdiv : p.1.toNat / q.2.toNat ≤ p.1.toNat := Nat.div_le_self _ _
      have halt := a.isLt
      rw [hp1]
      split_ifs <;> omega
    · rw [if_neg hb, if_neg (by omega)]
      exact Nat.div_le_div hp3 hq4 (by omega)
  · by_cases hq : q.1.toNat = 0
    · simp only [BitsOps.uDiv_toNat p.2, hq, hp2]
      exact hle
    · simp only [BitsOps.uDiv_toNat]
      rw [if_neg (by omega), if_neg hq]
      exact Nat.div_le_div hp4 hq3 hq

theorem lowerArguments_replicate (los his : List Bits) (h : los.length = his.length) :
    lowerArguments (List.replicate los.length .monotone) los his = los := by
  induction los generalizing his with
  | nil => simp [lowerArguments]
  | cons lo los ih =>
    cases his with
    | nil => cases h
    | cons hi his =>
      rw [List.length_cons, List.replicate_succ, lowerArguments, ih his (by simpa using h)]

/-- `Concat` is monotone in every argument, whatever stands in front. -/
theorem foldl_append_le {as bs : List Bits}
    (h : List.Forall₂ (fun a b : Bits => a.bitCount = b.bitCount ∧ a.toNat ≤ b.toNat) as bs) :
    ∀ {x y : Bits}, x.bitCount = y.bitCount → x.toNat ≤ y.toNat →
      (as.foldl BitsOps.append x).toNat ≤ (bs.foldl BitsOps.append y).toNat := by
  induction h with
  | nil => intro x y _ hle; exact hle
  | cons hab _ ih =>
    intro x y hw hle
    refine ih ?_ ?_
    · rw [BitsOps.append_bitCount, BitsOps.append_bitCount, hw, hab.1]
    · rw [BitsOps.append_toNat, BitsOps.append_toNat, hab.1]
      exact Nat.add_le_add (Nat.mul_le_mul_right _ hle) hab.2

theorem concat_sound (xs : List Bits) :
    SoundAt (fun bs => some (BitsOps.concat bs)) (List.replicate xs.length .monotone)
      (BitsOps.concat xs).bitCount xs (BitsOps.concat xs) := by
  intro chosen lower upper interval hchosen hlower hupper hinterval
  have hlen : xs.length = chosen.length := hchosen.length_eq.symm
  have hlo := lowerArguments_replicate (chosen.map Prod.fst) (chosen.map Prod.snd) (by simp)
  have hhi := lowerArguments_replicate (chosen.map Prod.snd) (chosen.map Prod.fst) (by simp)
  rw [List.length_map] at hlo hhi
  rw [hlen, hlo] at hlower
  rw [hlen, hhi] at hupper
  cases hlower
  cases hupper
  refine covers_of_bracket hinterval ?_ ?_
  · refine foldl_append_le ?_ rfl le_rfl
    rw [List.forall₂_map_left_iff]
    exact hchosen.imp fun p x hp => ⟨hp.1, hp.2.2.1⟩
  · refine foldl_append_le ?_ rfl le_rfl
    rw [List.forall₂_map_right_iff]
    exact hchosen.flip.imp fun x p hp => ⟨hp.2.1.symm, hp.2.2.2⟩

/-- A monotone unary operation. -/
theorem monotone_sound {f : Bits → Bits} (a : Bits)
    (hmono : ∀ {x y : Bits}, x.bitCount = y.bitCount → x.toNat ≤ y.toNat →
      (f x).toNat ≤ (f y).toNat) :
    SoundAt (unary fun b => some (f b)) [.monotone] (f a).bitCount [a] (f a) := by
  intro chosen lower upper interval hchosen hlower hupper hinterval
  obtain ⟨p, rfl, hp1, hp2, hp3, hp4⟩ := between_one hchosen
  cases hlower
  cases hupper
  exact covers_of_bracket hinterval (hmono hp1 hp3) (hmono hp2.symm hp4)

/-- Sign extension is monotone as a function on unsigned values: a set sign bit only
adds the same high bits. -/
theorem signExtend_mono {n : ℕ} (hw : x.bitCount = y.bitCount) (hle : x.toNat ≤ y.toNat) :
    (BitsOps.signExtend x n).toNat ≤ (BitsOps.signExtend y n).toNat := by
  have hmsb : x.msb = true → y.msb = true := by
    rw [BitsOps.msb_eq_true_iff, BitsOps.msb_eq_true_iff, hw]
    omega
  refine foldl_append_le (.cons ?_ (.cons ⟨hw, hle⟩ .nil)) rfl le_rfl
  simp only [hw]
  cases hx : x.msb with
  | true =>
    rw [hmsb hx]
    exact ⟨rfl, le_rfl⟩
  | false =>
    cases y.msb with
    | true => exact ⟨rfl, Nat.zero_le _⟩
    | false => exact ⟨rfl, le_rfl⟩

end Range

end Xls
