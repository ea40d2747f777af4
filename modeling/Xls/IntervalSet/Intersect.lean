/-
# The intersection loop

The loop of `IntervalSet::Intersect` (`xls/ir/interval_set.cc`).  It walks down two
sorted lists; when the heads intersect and one reaches further, the remainders of
the longer head are inserted in front of it while the head itself stays in the
list.  The list therefore fills up with older copies of intervals, and neither
termination nor exactness is immediate.

The argument: when all common points below some `f` have been found, each list is
a `Front` from `f` on.  One round of the loop moves `f` behind the end of the
shorter head and reads a few older copies on the way.
-/
import Xls.IntervalSet.Normalize

namespace Xls

variable {w : ℕ}

/-- What `Intersect` does to the list whose head `kept` reaches further than the
head `popped` of the other list: the remainders of `kept` are inserted in front of
it, and `kept` itself stays. -/
def insertRemainders (popped kept : Interval w) (rest : List (Interval w)) :
    List (Interval w) :=
  if (popped.intersect kept).isSome then kept.difference popped ++ kept :: rest
  else kept :: rest

/-- The loop of `Intersect`, the two lists being read from their iterators on.  The
result lists the intersections in the order they are added; `none` when the fuel
runs out. -/
def intersectLoop : ℕ → List (Interval w) → List (Interval w) → Option (List (Interval w))
  | _, [], _ => some []
  | _, _ :: _, [] => some []
  | 0, _ :: _, _ :: _ => none
  | fuel + 1, left :: lefts, right :: rights =>
    if left.upper < right.upper then
      ((left.intersect right).toList ++ ·) <$>
        intersectLoop fuel lefts (insertRemainders left right rights)
    else if right.upper < left.upper then
      ((left.intersect right).toList ++ ·) <$>
        intersectLoop fuel (insertRemainders right left lefts) rights
    else
      ((left.intersect right).toList ++ ·) <$> intersectLoop fuel lefts rights

namespace Interval

theorem intersect_comm (a b : Interval w) : a.intersect b = b.intersect a := by
  unfold intersect
  simp only [max_comm a.lower, min_comm a.upper]

/-- Two intervals without a common point. -/
theorem intersect_eq_none_of_lt {a b : Interval w} (h : a.upper < b.lower) :
    a.intersect b = none := by
  unfold intersect
  rw [if_pos]
  rw [isImproper_iff]
  simp only
  omega

/-- The common points of two proper intervals. -/
theorem intersect_covers {a b : Interval w} (ha : a.Proper) (hb : b.Proper) {n : ℕ}
    (hn : n < 2 ^ w) :
    coversPoint (a.intersect b).toList n = true ↔ a.covers n = true ∧ b.covers n = true := by
  rw [covers_iff_of_proper ha hn, covers_iff_of_proper hb hn]
  cases h : a.intersect b with
  | none =>
    have := intersect_none h
    simp only [Option.toList_none, coversPoint_nil, Bool.false_eq_true, false_iff]
    omega
  | some c =>
    obtain ⟨hc, hl, hu⟩ := intersect_some h
    simp only [Option.toList_some, coversPoint_cons, coversPoint_nil, Bool.or_false]
    rw [covers_iff_of_proper hc hn]
    omega

/-- The remainders of `b` after an interval `a` which ends before it does: possibly
one interval in front of `a`, and the rest of `b` behind `a`. -/
theorem difference_of_upper_lt {a b c : Interval w} (hlt : a.upper < b.upper)
    (h : a.intersect b = some c) :
    ∃ (front : Option (Interval w)) (back : Interval w), b.difference a = front.toList ++ [back] ∧
      back.lower = a.upper + 1 ∧ back.upper = b.upper ∧
      ∀ i ∈ front, i.Proper ∧ i.lower = b.lower ∧ i.upper + 1 = a.lower := by
  obtain ⟨hc, hl, hu⟩ := intersect_some h
  have hbu := b.upper_lt
  unfold Proper at hc
  have hc' : b.intersect a = some c := by rw [intersect_comm, h]
  unfold difference
  rw [hc']
  simp only
  rw [if_pos (show c.upper < b.upper by omega)]
  by_cases hfront : b.lower < c.lower
  · rw [if_pos hfront]
    refine ⟨some _, _, rfl, ?_, rfl, ?_⟩
    · simp only [leftOpen]
      rw [Nat.mod_eq_of_lt (by omega)]
      omega
    · intro i hi
      rw [Option.mem_some_iff] at hi
      subst hi
      have hmod : (c.lower + (2 ^ w - 1)) % 2 ^ w = c.lower - 1 := by
        rw [show c.lower + (2 ^ w - 1) = c.lower - 1 + 2 ^ w by omega, Nat.add_mod_right,
          Nat.mod_eq_of_lt (by omega)]
      refine ⟨?_, rfl, ?_⟩
      · simp only [Proper, rightOpen]
        omega
      · simp only [rightOpen]
        omega
  · rw [if_neg hfront]
    refine ⟨none, _, rfl, ?_, rfl, by simp⟩
    simp only [leftOpen]
    rw [Nat.mod_eq_of_lt (by omega)]
    omega

end Interval

variable {a b r l : Interval w} {f k : ℕ} {Q stale untouched res N₁ N₂ Q₁ Q₂ : List (Interval w)}

/-- The shape of the list which keeps its head: the remainders lie inside the
head. -/
theorem insertRemainders_cases (ha : a.Proper) (hlt : a.upper < b.upper) (rest : List (Interval w)) :
    (a.upper < b.lower ∧ insertRemainders a b rest = b :: rest) ∨
    ∃ (front : Option (Interval w)) (back : Interval w),
      insertRemainders a b rest = front.toList ++ back :: b :: rest ∧
      b.lower ≤ a.upper ∧ back.lower = a.upper + 1 ∧ back.upper = b.upper ∧
      ∀ i ∈ front, i.Proper ∧ i.lower = b.lower ∧ i.upper + 1 = a.lower := by
  unfold insertRemainders
  cases h : a.intersect b with
  | none =>
    have := Interval.intersect_none h
    unfold Interval.Proper at ha
    exact .inl ⟨by omega, rfl⟩
  | some c =>
    obtain ⟨hc, hl, hu⟩ := Interval.intersect_some h
    obtain ⟨front, back, hd, h1, h2, h3⟩ := Interval.difference_of_upper_lt hlt h
    unfold Interval.Proper at hc
    refine .inr ⟨front, back, ?_, by omega, h1, h2, h3⟩
    rw [hd]
    simp

/-! ### Points in the result are common points -/

theorem insertRemainders_proper (ha : a.Proper) (hb : b.Proper) (hlt : a.upper < b.upper)
    {rest : List (Interval w)} (hrest : ∀ i ∈ rest, i.Proper) :
    ∀ i ∈ insertRemainders a b rest, i.Proper := by
  intro i hi
  obtain ⟨-, heq⟩ | ⟨front, back, heq, -, h1, h2, h3⟩ := insertRemainders_cases ha hlt rest
  · rw [heq, List.mem_cons] at hi
    obtain rfl | hi := hi
    · exact hb
    · exact hrest i hi
  · simp only [heq, List.mem_append, Option.mem_toList, List.mem_cons] at hi
    obtain hi | rfl | rfl | hi := hi
    · exact (h3 i hi).1
    · unfold Interval.Proper
      omega
    · exact hb
    · exact hrest i hi

theorem insertRemainders_covers (ha : a.Proper) (hlt : a.upper < b.upper) (rest : List (Interval w))
    {n : ℕ} (hn : n < 2 ^ w) (h : coversPoint (insertRemainders a b rest) n = true) :
    coversPoint (b :: rest) n = true := by
  obtain ⟨-, heq⟩ | ⟨front, back, heq, h0, h1, h2, h3⟩ := insertRemainders_cases ha hlt rest
  · rw [heq] at h
    exact h
  · obtain ⟨i, hi, hcov⟩ := coversPoint_eq_true.mp h
    simp only [heq, List.mem_append, Option.mem_toList, List.mem_cons] at hi
    have hbn : b.lower ≤ n → n ≤ b.upper → coversPoint (b :: rest) n = true := fun h h' =>
      coversPoint_of_mem List.mem_cons_self (Interval.covers_of_between h h')
    obtain hi | rfl | hi := hi
    · obtain ⟨hp, hl, hu⟩ := h3 i hi
      rw [Interval.covers_iff_of_proper hp hn] at hcov
      unfold Interval.Proper at ha
      exact hbn (by omega) (by omega)
    · have hp : i.Proper := by
        unfold Interval.Proper
        omega
      rw [Interval.covers_iff_of_proper hp hn] at hcov
      exact hbn (by omega) (by omega)
    · exact coversPoint_of_mem (List.mem_cons.mpr hi) hcov

theorem intersectLoop_sound (fuel : ℕ) :
    ∀ {L R res : List (Interval w)}, (∀ i ∈ L, i.Proper) → (∀ i ∈ R, i.Proper) →
      intersectLoop fuel L R = some res →
      ∀ {n : ℕ}, n < 2 ^ w → coversPoint res n = true →
        coversPoint L n = true ∧ coversPoint R n = true := by
  induction fuel with
  | zero =>
    intro L R res _ _ h n _ hcov
    cases L <;> cases R <;> simp only [intersectLoop, Option.some.injEq, reduceCtorEq] at h <;>
      (subst h; cases hcov)
  | succ fuel ih =>
    intro L R res hL hR h n hn hcov
    match L, R with
    | [], _ =>
      simp only [intersectLoop, Option.some.injEq] at h
      subst h
      cases hcov
    | _ :: _, [] =>
      simp only [intersectLoop, Option.some.injEq] at h
      subst h
      cases hcov
    | left :: lefts, right :: rights =>
      have hl : left.Proper := hL left List.mem_cons_self
      have hr : right.Proper := hR right List.mem_cons_self
      have hL' : ∀ i ∈ lefts, i.Proper := fun i hi => hL i (List.mem_cons_of_mem _ hi)
      have hR' : ∀ i ∈ rights, i.Proper := fun i hi => hR i (List.mem_cons_of_mem _ hi)
      -- a point of the intersection of the heads lies in both lists
      have hhead : coversPoint (left.intersect right).toList n = true →
          coversPoint (left :: lefts) n = true ∧ coversPoint (right :: rights) n = true := by
        intro hc
        obtain ⟨h1, h2⟩ := (Interval.intersect_covers hl hr hn).mp hc
        exact ⟨coversPoint_of_mem List.mem_cons_self h1, coversPoint_of_mem List.mem_cons_self h2⟩
      have hleft : coversPoint lefts n = true → coversPoint (left :: lefts) n = true := by
        intro hc
        rw [coversPoint_cons, hc, Bool.or_true]
      have hright : coversPoint rights n = true → coversPoint (right :: rights) n = true := by
        intro hc
        rw [coversPoint_cons, hc, Bool.or_true]
      rw [intersectLoop] at h
      split_ifs at h with hlt hgt
      all_goals
        obtain ⟨res', hres, rfl⟩ := Option.map_eq_some_iff.mp h
        rw [coversPoint_append, Bool.or_eq_true] at hcov
        obtain hcov | hcov := hcov
        · exact hhead hcov
      · obtain ⟨h1, h2⟩ := ih hL' (insertRemainders_proper hl hr hlt hR') hres hn hcov
        exact ⟨hleft h1, insertRemainders_covers hl hlt rights hn h2⟩
      · obtain ⟨h1, h2⟩ := ih (insertRemainders_proper hr hl hgt hL') hR' hres hn hcov
        exact ⟨insertRemainders_covers hr hgt lefts hn h1, hright h2⟩
      · obtain ⟨h1, h2⟩ := ih hL' hR' hres hn hcov
        exact ⟨hleft h1, hright h2⟩

/-! ### The loop ends and loses no common point -/

theorem intersectLoop_comm (fuel : ℕ) :
    ∀ L R : List (Interval w), intersectLoop fuel L R = intersectLoop fuel R L := by
  induction fuel with
  | zero =>
    intro L R
    cases L <;> cases R <;> rfl
  | succ fuel ih =>
    intro L R
    match L, R with
    | [], [] => rfl
    | [], _ :: _ => rfl
    | _ :: _, [] => rfl
    | left :: lefts, right :: rights =>
      rw [intersectLoop, intersectLoop]
      rw [Interval.intersect_comm right left]
      by_cases hlt : left.upper < right.upper
      · rw [if_pos hlt, if_neg (by omega), if_pos hlt, ih]
      · by_cases hgt : right.upper < left.upper
        · rw [if_neg hlt, if_pos hgt, if_pos hgt, ih]
        · rw [if_neg hlt, if_neg hgt, if_neg hgt, if_neg hlt, ih]

/-- The intervals of one list still to be read when all common points below `f`
have been found: a head, older copies of it (which end where it ends) left behind
by insertions, and untouched intervals of the normalized input.  When there are
older copies the head starts at `f`, so they hold no further point from `f` on. -/
structure Front (f : ℕ) (Q : List (Interval w)) (head : Interval w)
    (stale untouched : List (Interval w)) : Prop where
  eq : Q = head :: (stale ++ untouched)
  lower : f ≤ head.lower
  proper : head.Proper
  stale_upper : ∀ i ∈ stale, i.upper = head.upper
  stale_proper : ∀ i ∈ stale, i.Proper
  stale_lower : stale ≠ [] → head.lower = f
  after : ∀ i ∈ untouched, head.upper < i.lower
  normal : Normal untouched

/-- Untouched intervals are a front of their own. -/
theorem Normal.front {i : Interval w} {rest : List (Interval w)} (h : Normal (i :: rest))
    (hf : f ≤ i.lower) : Front f (i :: rest) i [] rest where
  eq := rfl
  lower := hf
  proper := h.proper List.mem_cons_self
  stale_upper := by simp
  stale_proper := by simp
  stale_lower := by simp
  after := by
    intro j hj
    have := h.gap hj
    omega
  normal := h.tail

/-- From `f` on, the points of a front up to the end of its head lie in the head. -/
theorem Front.covers_head {head : Interval w} (h : Front f Q head stale untouched) {n : ℕ}
    (hn : n < 2 ^ w) (hf : f ≤ n) (hu : n ≤ head.upper) (hcov : coversPoint Q n = true) :
    head.covers n = true := by
  rw [h.eq] at hcov
  obtain ⟨i, hi, hi'⟩ := coversPoint_eq_true.mp hcov
  rw [List.mem_cons, List.mem_append] at hi
  obtain rfl | hi | hi := hi
  · exact hi'
  · have hne : stale ≠ [] := List.ne_nil_of_mem hi
    exact Interval.covers_of_between (by rw [h.stale_lower hne]; exact hf) hu
  · have hp := h.normal.proper hi
    have hgap := h.after i hi
    rw [Interval.covers_iff_of_proper hp hn] at hi'
    omega

/-- Behind its head, a front has only its untouched points. -/
theorem Front.covers_untouched {head : Interval w} (h : Front f Q head stale untouched) {n : ℕ}
    (hn : n < 2 ^ w) (hu : head.upper < n) (hcov : coversPoint Q n = true) :
    coversPoint untouched n = true := by
  rw [h.eq] at hcov
  obtain ⟨i, hi, hi'⟩ := coversPoint_eq_true.mp hcov
  rw [List.mem_cons, List.mem_append] at hi
  obtain rfl | hi | hi := hi
  · rw [Interval.covers_iff_of_proper h.proper hn] at hi'
    omega
  · rw [Interval.covers_iff_of_proper (h.stale_proper i hi) hn, h.stale_upper i hi] at hi'
    omega
  · exact coversPoint_of_mem hi hi'

/-- Intervals which end before the head of the other list are skipped. -/
theorem intersectLoop_skip (hr : r.Proper) (R Q : List (Interval w)) (fuel : ℕ) :
    ∀ P : List (Interval w), (∀ p ∈ P, p.upper < r.lower) →
      intersectLoop (fuel + P.length) (P ++ Q) (r :: R) = intersectLoop fuel Q (r :: R) := by
  intro P
  induction P with
  | nil => intro _; rfl
  | cons p rest ih =>
    intro hP
    have hp : p.upper < r.lower := hP p List.mem_cons_self
    have hnone : p.intersect r = none := Interval.intersect_eq_none_of_lt hp
    have hlt : p.upper < r.upper := lt_of_lt_of_le hp hr
    rw [List.length_cons, ← Nat.add_assoc, List.cons_append, intersectLoop, if_pos hlt]
    rw [insertRemainders, hnone]
    simp only [Option.toList_none, List.nil_append, Option.map_eq_map, Option.map_id']
    exact ih fun q hq => hP q (List.mem_cons_of_mem _ hq)

/-- More fuel does not change the result. -/
theorem intersectLoop_mono (fuel : ℕ) :
    ∀ {L R res : List (Interval w)}, intersectLoop fuel L R = some res →
      intersectLoop (fuel + 1) L R = some res := by
  induction fuel with
  | zero =>
    intro L R res h
    match L, R with
    | [], _ => exact h
    | _ :: _, [] => exact h
    | _ :: _, _ :: _ => cases h
  | succ fuel ih =>
    intro L R res h
    match L, R with
    | [], _ => exact h
    | _ :: _, [] => exact h
    | left :: lefts, right :: rights =>
      rw [intersectLoop] at h ⊢
      split_ifs at h ⊢ with hlt hgt
      all_goals
        obtain ⟨res', hres, rfl⟩ := Option.map_eq_some_iff.mp h
        rw [ih hres]
        rfl

theorem intersectLoop_mono_le (fuel : ℕ) {fuel' : ℕ} (hle : fuel ≤ fuel') {L R : List (Interval w)}
    (h : intersectLoop fuel L R = some res) : intersectLoop fuel' L R = some res := by
  induction hle with
  | refl => exact h
  | step _ ih => exact intersectLoop_mono _ ih

/-- A list is a front with `groups` distinct upper bounds, or empty. -/
def IsFront (f : ℕ) (Q : List (Interval w)) (groups : ℕ) : Prop :=
  (Q = [] ∧ groups = 0) ∨
  ∃ head stale untouched, Front f Q head stale untouched ∧ groups = untouched.length + 1

theorem Normal.isFront {l : List (Interval w)} (h : Normal l) (hf : ∀ i ∈ l, f ≤ i.lower) :
    IsFront f l l.length := by
  cases l with
  | nil => exact .inl ⟨rfl, rfl⟩
  | cons i rest => exact .inr ⟨i, [], rest, h.front (hf i List.mem_cons_self), rfl⟩

/-- A loop which starts with an empty list adds nothing. -/
theorem intersectLoop_nil_left (fuel : ℕ) (R : List (Interval w)) :
    intersectLoop fuel [] R = some [] := by
  cases fuel <;> rfl

/-- After the head of the left list has been read, the piece `front` cut off the
right list and the older copies `stale` of the head are read without touching the
rest `q :: R`, which starts behind them. -/
theorem intersectLoop_settle {R : List (Interval w)} {front : Option (Interval w)} {q : Interval w}
    (hq : q.Proper) (hql : f ≤ q.lower) (hstale : ∀ i ∈ stale, i.upper + 1 = f ∧ i.Proper)
    (hfront : ∀ i ∈ front, i.upper + 1 < f ∧ i.Proper)
    (huntouched : ∀ i ∈ untouched, f ≤ i.lower ∧ i.Proper)
    (h : intersectLoop k untouched (q :: R) = some res) :
    ∃ extra, intersectLoop (k + stale.length + 3) (stale ++ untouched)
      (front.toList ++ q :: R) = some (extra ++ res) := by
  have hskip : ∀ P : List (Interval w), (∀ p ∈ P, p.upper < f) → P.length ≤ stale.length + 2 →
      intersectLoop (k + stale.length + 2) (P ++ untouched) (q :: R) = some res := by
    intro P hP hlen
    refine intersectLoop_mono_le (k + P.length) (by omega) ?_
    rw [intersectLoop_skip hq R untouched k P fun p hp => by have := hP p hp; omega, h]
  cases front with
  | none =>
    refine ⟨[], intersectLoop_mono _ (hskip stale ?_ (by omega))⟩
    intro p hp
    have := (hstale p hp).1
    omega
  | some a =>
    obtain ⟨ha, hap⟩ := hfront a rfl
    cases stale with
    | nil =>
      refine ⟨[], ?_⟩
      cases untouched with
      | nil =>
        rw [intersectLoop_nil_left] at h
        cases h
        rw [List.append_nil, intersectLoop_nil_left]
      | cons i rest =>
        obtain ⟨hi, hip⟩ := huntouched i List.mem_cons_self
        refine intersectLoop_mono_le (k + [a].length) (by simp) ?_
        rw [intersectLoop_comm] at h ⊢
        rw [Option.toList_some, List.nil_append, intersectLoop_skip hip, h]
        · rfl
        · intro p hp
          rw [List.mem_singleton.mp hp]
          omega
    | cons s stale =>
      obtain ⟨hs, hsp⟩ := hstale s List.mem_cons_self
      have hlt : a.upper < s.upper := by omega
      have hstale' : ∀ p ∈ stale, p.upper < f := by
        intro p hp
        have := (hstale p (List.mem_cons_of_mem _ hp)).1
        omega
      refine ⟨(s.intersect a).toList, ?_⟩
      rw [Option.toList_some, List.cons_append, List.cons_append, intersectLoop, if_neg (by omega),
        if_pos hlt]
      refine Option.map_eq_some_iff.mpr ⟨res, ?_, rfl⟩
      obtain ⟨-, heq⟩ | ⟨front', back, heq, -, h1, h2, h3⟩ :=
        insertRemainders_cases hap hlt (stale ++ untouched)
      · rw [heq, ← List.cons_append]
        refine hskip (s :: stale) ?_ (by simp)
        intro p hp
        obtain rfl | hp := List.mem_cons.mp hp
        · omega
        · exact hstale' p hp
      · rw [heq, show front'.toList ++ back :: s :: (stale ++ untouched) =
          (front'.toList ++ back :: s :: stale) ++ untouched by simp]
        refine hskip _ ?_ ?_
        · intro p hp
          simp only [List.mem_append, Option.mem_toList, List.mem_cons] at hp
          obtain hp | rfl | rfl | hp := hp
          · have := (h3 p hp).2.2
            unfold Interval.Proper at hap
            omega
          · omega
          · omega
          · exact hstale' p hp
        · cases front' <;> simp

/-- After two heads with the same upper bound have been read, so are the older
copies of both. -/
theorem intersectLoop_settle_both (h₁ : ∀ i ∈ N₁, f ≤ i.lower ∧ i.Proper)
    (h₂ : ∀ i ∈ N₂, f ≤ i.lower ∧ i.Proper) (h : intersectLoop k N₁ N₂ = some res)
    (S₁ : List (Interval w)) :
    ∀ S₂ : List (Interval w), (∀ i ∈ S₁, i.upper + 1 = f) → (∀ i ∈ S₂, i.upper + 1 = f) →
    ∃ extra, intersectLoop (k + S₁.length + S₂.length) (S₁ ++ N₁) (S₂ ++ N₂) =
      some (extra ++ res) := by
  have hone : ∀ {M₁ M₂ : List (Interval w)}, (∀ i ∈ M₁, f ≤ i.lower ∧ i.Proper) →
      intersectLoop k M₁ M₂ = some res → ∀ S, (∀ i ∈ S, i.upper + 1 = f) →
      intersectLoop (k + S.length) M₁ (S ++ M₂) = some res := by
    intro M₁ M₂ hM hres S hS
    cases M₁ with
    | nil =>
      rw [intersectLoop_nil_left] at hres ⊢
      exact hres
    | cons i rest =>
      obtain ⟨hi, hip⟩ := hM i List.mem_cons_self
      rw [intersectLoop_comm] at hres ⊢
      rw [intersectLoop_skip hip, hres]
      intro p hp
      have := hS p hp
      omega
  induction S₁ with
  | nil =>
    intro S₂ _ hS₂
    exact ⟨[], hone h₁ h S₂ hS₂⟩
  | cons s₁ S₁ ih =>
    intro S₂ hS₁ hS₂
    cases S₂ with
    | nil =>
      refine ⟨[], ?_⟩
      rw [intersectLoop_comm] at h ⊢
      exact hone h₂ h (s₁ :: S₁) hS₁
    | cons s₂ S₂ =>
      have hs₁ := hS₁ s₁ List.mem_cons_self
      have hs₂ := hS₂ s₂ List.mem_cons_self
      obtain ⟨extra, hextra⟩ := ih S₂ (fun i hi => hS₁ i (List.mem_cons_of_mem _ hi))
        (fun i hi => hS₂ i (List.mem_cons_of_mem _ hi))
      refine ⟨(s₁.intersect s₂).toList ++ extra, ?_⟩
      rw [List.length_cons, List.length_cons,
        show k + (S₁.length + 1) + (S₂.length + 1) = k + S₁.length + S₂.length + 1 + 1 by omega,
        List.cons_append, List.cons_append, intersectLoop, if_neg (by omega),
        if_neg (by omega), intersectLoop_mono _ hextra]
      simp

/-- The common points from `f` on of two fronts are found, with fuel to spare. -/
def FindsCommon (f fuel : ℕ) (Q₁ Q₂ : List (Interval w)) : Prop :=
  ∃ res, intersectLoop fuel Q₁ Q₂ = some res ∧
    ∀ n < 2 ^ w, f ≤ n → coversPoint Q₁ n = true → coversPoint Q₂ n = true →
      coversPoint res n = true

theorem FindsCommon.symm {fuel : ℕ} (h : FindsCommon f fuel Q₁ Q₂) : FindsCommon f fuel Q₂ Q₁ := by
  obtain ⟨res, hres, hcov⟩ := h
  exact ⟨res, by rw [intersectLoop_comm, hres], fun n hn hf h1 h2 => hcov n hn hf h2 h1⟩

theorem findsCommon_nil (f fuel : ℕ) (Q₂ : List (Interval w)) : FindsCommon f fuel [] Q₂ :=
  ⟨[], intersectLoop_nil_left fuel Q₂, fun _ _ _ h _ => h⟩

/-- One round of the loop from two fronts, when the left head ends first. -/
theorem findsCommon_of_lt {S₁ S₂ : List (Interval w)} (hl : Front f Q₁ l S₁ N₁)
    (hr : Front f Q₂ r S₂ N₂) (hlt : l.upper < r.upper)
    (ih : ∀ Q₂', IsFront (l.upper + 1) Q₂' (N₂.length + 1) → Q₂'.length ≤ Q₂.length + 1 →
      FindsCommon (l.upper + 1) k N₁ Q₂') : FindsCommon f (k + S₁.length + 4) Q₁ Q₂ := by
  have hlp := hl.proper
  have hrp := hr.proper
  have hfl := hl.lower
  unfold Interval.Proper at hlp
  -- the front of the right list behind `l`, and what `insertRemainders` puts before it
  obtain ⟨front, q, rest, hins, hQ₂', hlen, hql, hqp, hfront, hsub⟩ :
      ∃ (front : Option (Interval w)) (q : Interval w) (rest : List (Interval w)),
        insertRemainders l r (S₂ ++ N₂) = front.toList ++ q :: rest ∧
        IsFront (l.upper + 1) (q :: rest) (N₂.length + 1) ∧
        (q :: rest).length ≤ Q₂.length + 1 ∧ l.upper + 1 ≤ q.lower ∧ q.Proper ∧
        (∀ i ∈ front, i.upper + 1 < l.upper + 1 ∧ i.Proper) ∧
        ∀ n, coversPoint Q₂ n = true → coversPoint (q :: rest) n = true := by
    obtain ⟨hgap, heq⟩ | ⟨front, back, heq, h0, h1, h2, h3⟩ :=
      insertRemainders_cases hl.proper hlt (S₂ ++ N₂)
    · refine ⟨none, r, S₂ ++ N₂, heq, .inr ⟨r, S₂, N₂, ?_, rfl⟩, ?_, hgap, hrp, by simp, ?_⟩
      · refine { hr with eq := rfl, lower := hgap, stale_lower := ?_ }
        intro hne
        have := hr.stale_lower hne
        omega
      · rw [hr.eq]
        exact Nat.le_succ _
      · intro n hn
        rw [hr.eq] at hn
        exact hn
    · have hback : back.Proper := by
        unfold Interval.Proper
        omega
      refine ⟨front, back, r :: (S₂ ++ N₂), heq, .inr ⟨back, r :: S₂, N₂, ?_, rfl⟩, ?_,
        h1.ge, hback, ?_, ?_⟩
      · exact {
          eq := rfl
          lower := h1.ge
          proper := hback
          stale_upper := by
            intro i hi
            obtain rfl | hi := List.mem_cons.mp hi
            · exact h2.symm
            · rw [hr.stale_upper i hi, h2]
          stale_proper := by
            intro i hi
            obtain rfl | hi := List.mem_cons.mp hi
            · exact hrp
            · exact hr.stale_proper i hi
          stale_lower := fun _ => h1
          after := by
            intro i hi
            rw [h2]
            exact hr.after i hi
          normal := hr.normal }
      · rw [hr.eq]
        simp
      · intro i hi
        obtain ⟨hip, -, hiu⟩ := h3 i hi
        exact ⟨by omega, hip⟩
      · intro n hn
        rw [hr.eq] at hn
        rw [coversPoint_cons, hn, Bool.or_true]
  obtain ⟨res, hres, hcov⟩ := ih (q :: rest) hQ₂' hlen
  obtain ⟨extra, hextra⟩ := intersectLoop_settle hqp hql
    (fun i hi => ⟨by rw [hl.stale_upper i hi], hl.stale_proper i hi⟩) hfront
    (fun i hi => ⟨hl.after i hi, hl.normal.proper hi⟩) hres
  refine ⟨(l.intersect r).toList ++ (extra ++ res), ?_, ?_⟩
  · rw [hl.eq, hr.eq, intersectLoop, if_pos hlt, hins, hextra]
    rfl
  · intro n hn hf h1 h2
    rw [coversPoint_append, coversPoint_append, Bool.or_eq_true, Bool.or_eq_true]
    by_cases hnl : n ≤ l.upper
    · left
      rw [Interval.intersect_covers hl.proper hrp hn]
      exact ⟨hl.covers_head hn hf hnl h1, hr.covers_head hn hf (by omega) h2⟩
    · right; right
      exact hcov n hn (by omega) (hl.covers_untouched hn (by omega) h1) (hsub n h2)

/-- One round of the loop from two fronts whose heads end together. -/
theorem findsCommon_of_eq {S₁ S₂ : List (Interval w)} (hl : Front f Q₁ l S₁ N₁)
    (hr : Front f Q₂ r S₂ N₂) (heq : l.upper = r.upper) (ih : FindsCommon (l.upper + 1) k N₁ N₂) :
    FindsCommon f (k + S₁.length + S₂.length + 1) Q₁ Q₂ := by
  obtain ⟨res, hres, hcov⟩ := ih
  obtain ⟨extra, hextra⟩ := intersectLoop_settle_both (f := l.upper + 1)
    (fun i hi => ⟨hl.after i hi, hl.normal.proper hi⟩)
    (fun i hi => ⟨by rw [heq]; exact hr.after i hi, hr.normal.proper hi⟩) hres S₁ S₂
    (fun i hi => by rw [hl.stale_upper i hi])
    (fun i hi => by rw [hr.stale_upper i hi, heq])
  refine ⟨(l.intersect r).toList ++ (extra ++ res), ?_, ?_⟩
  · rw [hl.eq, hr.eq, intersectLoop, if_neg (by omega), if_neg (by omega), hextra]
    rfl
  · intro n hn hf h1 h2
    rw [coversPoint_append, coversPoint_append, Bool.or_eq_true, Bool.or_eq_true]
    by_cases hnl : n ≤ l.upper
    · left
      rw [Interval.intersect_covers hl.proper hr.proper hn]
      exact ⟨hl.covers_head hn hf hnl h1, hr.covers_head hn hf (by omega) h2⟩
    · right; right
      exact hcov n hn (by omega) (hl.covers_untouched hn (by omega) h1)
        (hr.covers_untouched hn (by omega) h2)

theorem FindsCommon.mono {fuel fuel' : ℕ} (hle : fuel ≤ fuel') (h : FindsCommon f fuel Q₁ Q₂) :
    FindsCommon f fuel' Q₁ Q₂ := by
  obtain ⟨res, hres, hcov⟩ := h
  exact ⟨res, intersectLoop_mono_le fuel hle hres, hcov⟩

/-- The untouched part of a front is a front behind its head. -/
theorem Front.isFront_untouched {S N : List (Interval w)} (h : Front f Q l S N) :
    IsFront (l.upper + 1) N N.length :=
  h.normal.isFront fun i hi => h.after i hi

theorem Front.length {S N : List (Interval w)} (h : Front f Q l S N) :
    Q.length = S.length + N.length + 1 := by
  rw [h.eq]
  simp

/-- The loop finds all common points of two fronts.  Each round settles one group
of one list at least; the fuel pays five steps for a group and one for every
interval present. -/
theorem findsCommon_of_isFront (groups : ℕ) :
    ∀ {f g₁ g₂ : ℕ} {Q₁ Q₂ : List (Interval w)}, g₁ + g₂ = groups → IsFront f Q₁ g₁ →
      IsFront f Q₂ g₂ → FindsCommon f (5 * groups + Q₁.length + Q₂.length) Q₁ Q₂ := by
  induction groups using Nat.strong_induction_on with
  | _ groups ih =>
    intro f g₁ g₂ Q₁ Q₂ hg h₁ h₂
    obtain ⟨rfl, -⟩ | ⟨l, S₁, N₁, hl, hg₁⟩ := h₁
    · exact findsCommon_nil f _ Q₂
    obtain ⟨rfl, -⟩ | ⟨r, S₂, N₂, hr, hg₂⟩ := h₂
    · exact (findsCommon_nil f _ Q₁).symm
    have hlen₁ := hl.length
    have hlen₂ := hr.length
    rcases lt_trichotomy l.upper r.upper with hlt | heq | hgt
    · refine (findsCommon_of_lt (k := 5 * (groups - 1) + N₁.length + (Q₂.length + 1))
        hl hr hlt ?_).mono (by omega)
      intro Q₂' hQ₂' hlen
      exact (ih (groups - 1) (by omega) (by omega) hl.isFront_untouched hQ₂').mono (by omega)
    · refine (findsCommon_of_eq (k := 5 * (groups - 2) + N₁.length + N₂.length)
        hl hr heq ?_).mono (by omega)
      have hN₂ : IsFront (l.upper + 1) N₂ N₂.length := by
        rw [heq]
        exact hr.isFront_untouched
      exact ih (groups - 2) (by omega) (by omega) hl.isFront_untouched hN₂
    · refine (findsCommon_of_lt (k := 5 * (groups - 1) + N₂.length + (Q₁.length + 1))
        hr hl hgt ?_).symm.mono (by omega)
      intro Q₁' hQ₁' hlen
      exact (ih (groups - 1) (by omega) (by omega) hr.isFront_untouched hQ₁').mono (by omega)

/-- The intervals added by `Intersect` to its result before it is normalized.  The
loop takes at most six steps per interval. -/
def intersectIntervals (lhs rhs : List (Interval w)) : Option (List (Interval w)) :=
  intersectLoop (6 * (lhs.length + rhs.length)) lhs rhs

/-- The loop ends, and its result covers exactly the common points. -/
theorem intersectIntervals_spec {lhs rhs : List (Interval w)} (hl : Normal lhs) (hr : Normal rhs) :
    ∃ res, intersectIntervals lhs rhs = some res ∧
      ∀ n < 2 ^ w, coversPoint res n = (coversPoint lhs n && coversPoint rhs n) := by
  obtain ⟨res, hres, hcov⟩ := (findsCommon_of_isFront (lhs.length + rhs.length) rfl
    (hl.isFront fun i _ => Nat.zero_le _) (hr.isFront fun i _ => Nat.zero_le _)).mono
    (show _ ≤ 6 * (lhs.length + rhs.length) by omega)
  refine ⟨res, hres, ?_⟩
  intro n hn
  rw [Bool.eq_iff_iff, Bool.and_eq_true]
  constructor
  · exact intersectLoop_sound _ (fun i hi => hl.proper hi) (fun i hi => hr.proper hi) hres hn
  · intro h
    exact hcov n hn (Nat.zero_le _) h.1 h.2

end Xls
