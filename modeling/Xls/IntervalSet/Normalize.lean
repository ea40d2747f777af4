/-
# Normal forms of interval lists

The list part of `IntervalSet::Normalize` (`xls/ir/interval_set.cc`).  `Normal`
spells out points 2 to 4 of the documentation of `Normalize`: proper intervals,
sorted, no two overlapping or abutting; `normalizeIntervals_spec` says that the
result is normal and that the points are kept.
-/
import Xls.Interval

namespace Xls

variable {w : ℕ}

/-- The points covered by a list of intervals. -/
def coversPoint (l : List (Interval w)) (n : ℕ) : Bool := l.any fun i => i.covers n

/-- The normal form of a list of intervals. -/
def Normal (l : List (Interval w)) : Prop :=
  (∀ i ∈ l, i.Proper) ∧ l.Pairwise fun a b => a.upper + 1 < b.lower

/-- The first loop of `Normalize`: improper intervals are split at the end of the
range. -/
def expandImproper (l : List (Interval w)) : List (Interval w) :=
  l.flatMap fun i =>
    if i.isImproper then
      [⟨0, i.upper, Nat.two_pow_pos w, i.upper_lt⟩,
        ⟨i.lower, 2 ^ w - 1, i.lower_lt, Bits.two_pow_sub_one_lt w⟩]
    else [i]

/-- `std::sort` with the lexicographic `operator<`, under which equivalent
intervals are equal. -/
def sortIntervals (l : List (Interval w)) : List (Interval w) :=
  l.insertionSort fun a b => b.lt a = false

/-- The second loop of `Normalize`, `interval` being grown by the intervals which
overlap or abut it. -/
def mergeInto (interval : Interval w) : List (Interval w) → List (Interval w)
  | [] => [interval]
  | next :: rest =>
    if interval.overlaps next || interval.abuts next then
      mergeInto (interval.convexHull next) rest
    else interval :: mergeInto next rest

/-- The second loop of `Normalize` on a sorted list. -/
def mergeSorted : List (Interval w) → List (Interval w)
  | [] => []
  | i :: rest => mergeInto i rest

/-- The intervals after `Normalize`: a single proper interval is left alone. -/
def normalizeIntervals (l : List (Interval w)) : List (Interval w) :=
  match l with
  | [i] => if i.isImproper then mergeSorted (sortIntervals (expandImproper [i])) else [i]
  | _ => mergeSorted (sortIntervals (expandImproper l))

/-! ### Points and normal forms -/

@[simp] theorem coversPoint_nil (n : ℕ) : coversPoint ([] : List (Interval w)) n = false := rfl

@[simp] theorem coversPoint_cons (i : Interval w) (l : List (Interval w)) (n : ℕ) :
    coversPoint (i :: l) n = (i.covers n || coversPoint l n) := rfl

@[simp] theorem coversPoint_append (l l' : List (Interval w)) (n : ℕ) :
    coversPoint (l ++ l') n = (coversPoint l n || coversPoint l' n) := List.any_append

variable {n : ℕ} {l : List (Interval w)} {i j : Interval w}

theorem coversPoint_eq_true :
    coversPoint l n = true ↔ ∃ i ∈ l, i.covers n = true := List.any_eq_true

theorem coversPoint_of_mem (hi : i ∈ l) (h : i.covers n = true) :
    coversPoint l n = true := coversPoint_eq_true.mpr ⟨i, hi, h⟩

theorem Normal.nil : Normal ([] : List (Interval w)) := ⟨by simp, List.Pairwise.nil⟩

theorem Normal.singleton (h : i.Proper) : Normal [i] := by
  refine ⟨?_, List.pairwise_singleton _ _⟩
  intro j hj
  rw [List.mem_singleton.mp hj]
  exact h

theorem Normal.proper (h : Normal l) (hi : i ∈ l) : i.Proper := h.1 i hi

theorem Normal.tail (h : Normal (i :: l)) : Normal l :=
  ⟨fun j hj => h.1 j (List.mem_cons_of_mem _ hj), (List.pairwise_cons.mp h.2).2⟩

theorem Normal.gap (h : Normal (i :: l)) (hj : j ∈ l) : i.upper + 1 < j.lower :=
  (List.pairwise_cons.mp h.2).1 j hj

/-- The first interval of a normal form has the least lower bound. -/
theorem Normal.head_lower_le (h : Normal l) (hi : l.head? = some i) (hj : j ∈ l) :
    i.lower ≤ j.lower := by
  cases l with
  | nil => cases hi
  | cons a rest =>
    cases hi
    obtain rfl | hj := List.mem_cons.mp hj
    · exact le_rfl
    · have hgap := h.gap hj
      have hp : i.Proper := h.proper List.mem_cons_self
      unfold Interval.Proper at hp
      omega

/-- The last interval of a normal form has the greatest upper bound. -/
theorem Normal.upper_le_last (h : Normal l) (hi : l.getLast? = some i) (hj : j ∈ l) :
    j.upper ≤ i.upper := by
  induction l generalizing j with
  | nil => cases hj
  | cons a rest ih =>
    cases rest with
    | nil =>
      rw [List.getLast?_singleton, Option.some.injEq] at hi
      rw [List.mem_singleton.mp hj, hi]
    | cons b rest =>
      obtain rfl | hj := List.mem_cons.mp hj
      · have hb := ih h.tail hi (List.mem_cons_self (a := b) (l := rest))
        have hgap := h.gap (List.mem_cons_self (a := b) (l := rest))
        have hp : b.Proper := h.proper (by simp)
        unfold Interval.Proper at hp
        omega
      · exact ih h.tail hi hj

/-- At most one interval of a normal form covers a given point. -/
theorem Normal.countP_covers_le (h : Normal l) (hn : n < 2 ^ w) :
    l.countP (fun i => i.covers n) ≤ 1 := by
  induction l with
  | nil => simp
  | cons a rest ih =>
    rw [List.countP_cons]
    by_cases ha : a.covers n = true
    · have hrest : rest.countP (fun i => i.covers n) = 0 := by
        rw [List.countP_eq_zero]
        intro j hj hcov
        rw [Interval.covers_iff_of_proper (h.proper (List.mem_cons_of_mem _ hj)) hn] at hcov
        rw [Interval.covers_iff_of_proper (h.proper List.mem_cons_self) hn] at ha
        have := h.gap hj
        omega
      simp [hrest, ha]
    · simp only [ha]
      exact ih h.tail

/-- Splitting improper intervals keeps the points and leaves proper intervals. -/
theorem expandImproper_proper (l : List (Interval w)) : ∀ i ∈ expandImproper l, i.Proper := by
  intro i hi
  obtain ⟨j, -, hij⟩ := List.mem_flatMap.mp hi
  have hl := j.lower_lt
  split at hij
  · simp only [List.mem_cons, List.not_mem_nil, or_false] at hij
    obtain rfl | rfl := hij
    · exact Nat.zero_le _
    · exact Nat.le_sub_one_of_lt hl
  · rename_i himp
    rw [List.mem_singleton.mp hij]
    exact (Interval.isImproper_eq_false_iff j).mp (by simpa using himp)

theorem expandImproper_covers (l : List (Interval w)) (hn : n < 2 ^ w) :
    coversPoint (expandImproper l) n = coversPoint l n := by
  induction l with
  | nil => rfl
  | cons i rest ih =>
    have hstep : expandImproper (i :: rest) = expandImproper [i] ++ expandImproper rest := by
      simp [expandImproper]
    rw [hstep, coversPoint_append]
    congr 1
    by_cases himp : i.isImproper = true
    · have hlt := (Interval.isImproper_iff i).mp himp
      rw [Bool.eq_iff_iff, Interval.covers_iff_of_improper hlt]
      simp only [expandImproper, List.flatMap_cons, List.flatMap_nil, himp, if_true,
        List.append_nil, coversPoint_cons, coversPoint_nil, Bool.or_false, Bool.or_eq_true]
      have hlo : ∀ h h', (⟨0, i.upper, h, h'⟩ : Interval w).Proper :=
        fun _ _ => Nat.zero_le _
      have hhi : ∀ h h', (⟨i.lower, 2 ^ w - 1, h, h'⟩ : Interval w).Proper :=
        fun _ _ => Nat.le_sub_one_of_lt i.lower_lt
      rw [Interval.covers_iff_of_proper (hlo _ _) hn, Interval.covers_iff_of_proper (hhi _ _) hn]
      simp only
      omega
    · simp [expandImproper, himp]

theorem sortIntervals_mem : i ∈ sortIntervals l ↔ i ∈ l := List.mem_insertionSort _

theorem lt_eq_false_iff (a b : Interval w) :
    b.lt a = false ↔ a.lower < b.lower ∨ a.lower = b.lower ∧ a.upper ≤ b.upper := by
  unfold Interval.lt
  split_ifs <;> simp only [false_iff, true_iff, decide_eq_false_iff_not] <;>
    omega

theorem lt_eq_true_iff (a b : Interval w) :
    b.lt a = true ↔ b.lower < a.lower ∨ b.lower = a.lower ∧ b.upper < a.upper := by
  rw [← Bool.not_eq_false, lt_eq_false_iff]
  omega

/-- The sorted list is sorted by lower bounds. -/
theorem sortIntervals_sorted (l : List (Interval w)) :
    (sortIntervals l).Pairwise fun a b => a.lower ≤ b.lower := by
  have htotal : Std.Total fun a b : Interval w => b.lt a = false := by
    constructor
    intro a b
    rw [lt_eq_false_iff, lt_eq_false_iff]
    omega
  have htrans : IsTrans (Interval w) fun a b => b.lt a = false := by
    constructor
    intro a b c
    rw [lt_eq_false_iff, lt_eq_false_iff, lt_eq_false_iff]
    omega
  refine (List.pairwise_insertionSort (fun a b : Interval w => b.lt a = false) l).imp ?_
  intro a b hab
  rw [lt_eq_false_iff] at hab
  omega

theorem coversPoint_sortIntervals (l : List (Interval w)) (n : ℕ) :
    coversPoint (sortIntervals l) n = coversPoint l n := by
  rw [Bool.eq_iff_iff, coversPoint_eq_true, coversPoint_eq_true]
  simp only [sortIntervals_mem]

/-- Merging a sorted list of proper intervals gives a normal form whose first
interval starts where the grown interval starts. -/
theorem mergeInto_spec (rest : List (Interval w)) :
    ∀ i : Interval w, i.Proper → (∀ j ∈ rest, j.Proper) → (∀ j ∈ rest, i.lower ≤ j.lower) →
      rest.Pairwise (fun a b => a.lower ≤ b.lower) →
      Normal (mergeInto i rest) ∧ (∀ j ∈ mergeInto i rest, i.lower ≤ j.lower) ∧
      ∀ n < 2 ^ w, coversPoint (mergeInto i rest) n = coversPoint (i :: rest) n := by
  induction rest with
  | nil =>
    intro i hi _ _ _
    refine ⟨Normal.singleton hi, ?_, fun n _ => rfl⟩
    intro j hj
    rw [mergeInto, List.mem_singleton] at hj
    rw [hj]
  | cons next rest ih =>
    intro i hi hproper hlow hsorted
    obtain ⟨hnext, hsorted'⟩ := List.pairwise_cons.mp hsorted
    have hpn : next.Proper := hproper next List.mem_cons_self
    have hpr : ∀ j ∈ rest, j.Proper := fun j hj => hproper j (List.mem_cons_of_mem _ hj)
    have hin : i.lower ≤ next.lower := hlow next List.mem_cons_self
    rw [mergeInto]
    by_cases ht : (i.overlaps next || i.abuts next) = true
    · -- the grown interval keeps the lower bound of `i`
      rw [if_pos ht]
      have hhull : (i.convexHull next).lower = i.lower := min_eq_left hin
      obtain ⟨h1, h2, h3⟩ := ih (i.convexHull next) (Interval.convexHull_proper hi) hpr
        (fun j hj => by rw [hhull]; exact hlow j (List.mem_cons_of_mem _ hj)) hsorted'
      rw [hhull] at h2
      refine ⟨h1, h2, ?_⟩
      intro n hn
      obtain ⟨ht1, ht2⟩ := (Interval.touches_iff hi hpn).mp ht
      rw [h3 n hn, coversPoint_cons, coversPoint_cons, coversPoint_cons, ← Bool.or_assoc]
      congr 1
      rw [Bool.eq_iff_iff, Interval.convexHull_covers_iff hi hpn ht1 ht2 hn, Bool.or_eq_true]
    · rw [if_neg ht]
      obtain ⟨h1, h2, h3⟩ := ih next hpn hpr hnext hsorted'
      rw [Interval.touches_iff hi hpn] at ht
      have hgap : i.upper + 1 < next.lower := by
        unfold Interval.Proper at hi hpn
        omega
      refine ⟨⟨?_, ?_⟩, ?_, ?_⟩
      · intro j hj
        obtain rfl | hj := List.mem_cons.mp hj
        · exact hi
        · exact h1.proper hj
      · exact List.pairwise_cons.mpr ⟨fun j hj => lt_of_lt_of_le hgap (h2 j hj), h1.2⟩
      · intro j hj
        obtain rfl | hj := List.mem_cons.mp hj
        · exact le_rfl
        · exact hin.trans (h2 j hj)
      · intro n hn
        rw [coversPoint_cons, h3 n hn, coversPoint_cons i (next :: rest)]

/-- Merging never adds an interval, and changes nothing when it removes none. -/
theorem mergeInto_length (rest : List (Interval w)) :
    ∀ i : Interval w, (mergeInto i rest).length ≤ rest.length + 1 ∧
      ((mergeInto i rest).length = rest.length + 1 → mergeInto i rest = i :: rest) := by
  induction rest with
  | nil => intro i; exact ⟨le_rfl, fun _ => rfl⟩
  | cons next rest ih =>
    intro i
    rw [mergeInto]
    split
    · have := (ih (i.convexHull next)).1
      rw [List.length_cons]
      exact ⟨by omega, fun h => by omega⟩
    · obtain ⟨h1, h2⟩ := ih next
      rw [List.length_cons, List.length_cons]
      exact ⟨by omega, fun h => by rw [h2 (by omega)]⟩

theorem mergeSorted_spec (hproper : ∀ i ∈ l, i.Proper)
    (hsorted : l.Pairwise fun a b => a.lower ≤ b.lower) :
    Normal (mergeSorted l) ∧ ∀ n < 2 ^ w, coversPoint (mergeSorted l) n = coversPoint l n := by
  cases l with
  | nil => exact ⟨Normal.nil, fun n _ => rfl⟩
  | cons i rest =>
    obtain ⟨hlow, hsorted'⟩ := List.pairwise_cons.mp hsorted
    obtain ⟨h1, -, h3⟩ := mergeInto_spec rest i (hproper i List.mem_cons_self)
      (fun j hj => hproper j (List.mem_cons_of_mem _ hj)) hlow hsorted'
    exact ⟨h1, h3⟩

/-- Sorting and merging the split intervals gives a normal form with the same
points. -/
theorem mergeSorted_sort_expand (l : List (Interval w)) :
    Normal (mergeSorted (sortIntervals (expandImproper l))) ∧
    ∀ n < 2 ^ w,
      coversPoint (mergeSorted (sortIntervals (expandImproper l))) n = coversPoint l n := by
  obtain ⟨h1, h2⟩ := mergeSorted_spec
    (fun i hi => expandImproper_proper l i (sortIntervals_mem.mp hi)) (sortIntervals_sorted _)
  refine ⟨h1, ?_⟩
  intro n hn
  rw [h2 n hn, coversPoint_sortIntervals, expandImproper_covers l hn]

/-- `Normalize` establishes the normal form and keeps the points. -/
theorem normalizeIntervals_spec (l : List (Interval w)) : Normal (normalizeIntervals l) ∧
    ∀ n < 2 ^ w, coversPoint (normalizeIntervals l) n = coversPoint l n := by
  unfold normalizeIntervals
  split
  · rename_i i
    split
    · exact mergeSorted_sort_expand [i]
    · rename_i himp
      exact ⟨Normal.singleton ((Interval.isImproper_eq_false_iff i).mp (by simpa using himp)),
        fun n _ => rfl⟩
  · exact mergeSorted_sort_expand l

/-- Proper intervals need no splitting. -/
theorem expandImproper_eq_self (h : ∀ i ∈ l, i.Proper) : expandImproper l = l := by
  induction l with
  | nil => rfl
  | cons i rest ih =>
    have hi := (Interval.isImproper_eq_false_iff i).mpr (h i List.mem_cons_self)
    have hrest := ih fun j hj => h j (List.mem_cons_of_mem _ hj)
    unfold expandImproper at hrest ⊢
    rw [List.flatMap_cons, hrest, hi]
    rfl

/-- When normalizing proper intervals removes none of them, no point is covered
twice. -/
theorem countP_covers_le_of_length (hl : ∀ i ∈ l, i.Proper)
    (hlen : (normalizeIntervals l).length = l.length) (hn : n < 2 ^ w) :
    l.countP (fun i => i.covers n) ≤ 1 := by
  have hslow : normalizeIntervals l = mergeSorted (sortIntervals l) ∨ l.length ≤ 1 := by
    unfold normalizeIntervals
    split
    · exact .inr le_rfl
    · rw [expandImproper_eq_self hl]
      exact .inl rfl
  obtain heq | hshort := hslow
  · have hperm : (sortIntervals l).Perm l := List.perm_insertionSort _ l
    have hnormal : Normal (mergeSorted (sortIntervals l)) := by
      rw [← heq]
      exact (normalizeIntervals_spec l).1
    have hsame : mergeSorted (sortIntervals l) = sortIntervals l := by
      rw [heq, ← hperm.length_eq] at hlen
      cases hs : sortIntervals l with
      | nil => rfl
      | cons i rest =>
        rw [hs] at hlen
        exact (mergeInto_length rest i).2 hlen
    rw [← hperm.countP_eq, ← hsame]
    exact hnormal.countP_covers_le hn
  · exact (List.countP_le_length).trans hshort

end Xls
