/-
# The Dadda multiplier

`UMul` keeps one queue of partial products for each bit of the result.  Stages of full and
half adders bring the heights of the queues down along the sequence `…, 9, 6, 4, 3, 2`, and
a ripple-carry adder ends the work.  No stage needs a column after the last one because the
columns get thinner towards the end.

* `Tapers` : the heights allowed by a maximum height, from the last column backwards;
* `reduceStages_spec` : the stages keep the number written and reach height `2`;
* `uMul_exact`, `sMul_exact` : the products.
-/
import Xls.Ir.EvaluatorDivision

namespace Xls
namespace Evaluator

open BoolList

/-! ## Columns -/

/-- The number of ones in a column. -/
def ones (column : List Bool) : ℕ := column.count true

/-- The number written by columns of weights `1, 2, 4, …`. -/
def columnsValue : List (List Bool) → ℕ
  | [] => 0
  | column :: rest => ones column + 2 * columnsValue rest

/-- The height of a column with `after` columns behind it: the last columns are as thin as
the partial products made them. -/
def heightBound (maxHeight after : ℕ) : ℕ :=
  if after + 1 < maxHeight then after else maxHeight

/-- The heights at the end of a stage. -/
def Tapers (maxHeight : ℕ) : List (List Bool) → Prop
  | [] => True
  | column :: rest => column.length ≤ heightBound maxHeight rest.length ∧ Tapers maxHeight rest

@[simp] theorem ones_nil : ones [] = 0 := rfl

@[simp] theorem ones_cons (b : Bool) (column : List Bool) :
    ones (b :: column) = b.toNat + ones column := by
  unfold ones
  cases b
  · simp
  · simp [Nat.add_comm]

@[simp] theorem ones_append (v w : List Bool) : ones (v ++ w) = ones v + ones w :=
  List.count_append

theorem heightBound_le {maxHeight after : ℕ} : heightBound maxHeight after ≤ maxHeight := by
  unfold heightBound
  split <;> omega

theorem tapers_of_getElem {maxHeight : ℕ} {columns : List (List Bool)}
    (h : ∀ c (hc : c < columns.length),
      columns[c].length ≤ heightBound maxHeight (columns.length - 1 - c)) :
    Tapers maxHeight columns := by
  induction columns with
  | nil => trivial
  | cons column rest ih =>
    refine ⟨h 0 (Nat.succ_pos _), ih fun c hc => ?_⟩
    have hcolumn := h (c + 1) (Nat.succ_lt_succ hc)
    rw [List.length_cons, show rest.length + 1 - 1 - (c + 1) = rest.length - 1 - c by omega]
      at hcolumn
    exact hcolumn

theorem bool_halfAdder (a b : Bool) : (bool.halfAdder a b).sum.toNat +
    2 * (bool.halfAdder a b).carry.toNat = a.toNat + b.toNat := by
  cases a <;> cases b <;> rfl

/-! ## One column -/

section Column

variable {maxHeight : ℕ}

/-- A round takes two elements out of the column, and the loop ends at a height of
`maxHeight` or one more. -/
theorem fullAdders_spec (hmax : 2 ≤ maxHeight) (fuel : ℕ) (column next : List Bool)
    (hfuel : column.length ≤ fuel) (hheight : maxHeight < column.length) :
    ∃ full, bool.fullAdders maxHeight fuel column next = some full ∧
      full.1.length + 2 * full.2.length = column.length + 2 * next.length ∧
      maxHeight ≤ full.1.length ∧ full.1.length ≤ maxHeight + 1 ∧
      ones full.1 + 2 * ones full.2 = ones column + 2 * ones next := by
  induction fuel using Nat.strong_induction_on generalizing column next with
  | _ fuel ih =>
    obtain _ | fuel := fuel
    · omega
    · unfold fullAdders
      by_cases hlong : maxHeight + 1 < column.length
      · rw [if_pos hlong]
        rcases column with - | ⟨a, - | ⟨b, - | ⟨c, rest⟩⟩⟩
        · exact absurd hlong (Nat.not_lt_zero _)
        · simp at hlong
        · simp at hlong
          omega
        · simp only [List.length_cons] at hfuel hheight hlong
          have hadd := bool_fullAdder a b c
          set r := bool.fullAdder a b c
          by_cases hdone : maxHeight < (rest ++ [r.sum]).length
          · obtain ⟨full, hfull, hsize, hlow, hhigh, hones⟩ :=
              ih fuel (Nat.lt_succ_self _) (rest ++ [r.sum]) (next ++ [r.carry])
                (by simp; omega) hdone
            refine ⟨full, hfull, ?_, hlow, hhigh, ?_⟩
            · simp at hsize ⊢
              omega
            · simp at hones ⊢
              omega
          · -- the loop stops at once: the column is exactly at `maxHeight`
            have hstop : bool.fullAdders maxHeight fuel (rest ++ [r.sum]) (next ++ [r.carry]) =
                some (rest ++ [r.sum], next ++ [r.carry]) := by
              cases fuel with
              | zero => rfl
              | succ fuel =>
                unfold fullAdders
                rw [if_neg (by omega)]
            refine ⟨_, hstop, ?_, ?_, ?_, ?_⟩
            · simp
              omega
            · simp at hdone ⊢
              omega
            · simp at hdone ⊢
              omega
            · simp
              omega
      · rw [if_neg hlong]
        exact ⟨_, rfl, rfl, hheight.le, Nat.not_lt.mp hlong, rfl⟩

theorem halfAdders_spec (hmax : 2 ≤ maxHeight) {column : List Bool} (next : List Bool)
    (hlow : maxHeight ≤ column.length) (hhigh : column.length ≤ maxHeight + 1) :
    ∃ half, bool.halfAdders maxHeight column next = some half ∧ half.1.length = maxHeight ∧
      half.1.length + half.2.length = column.length + next.length ∧
      ones half.1 + 2 * ones half.2 = ones column + 2 * ones next := by
  unfold halfAdders
  by_cases hlong : maxHeight < column.length
  · rw [if_pos hlong]
    rcases column with - | ⟨a, - | ⟨b, rest⟩⟩
    · exact absurd hlong (Nat.not_lt_zero _)
    · simp at hlong
      omega
    · have hadd := bool_halfAdder a b
      simp only [List.length_cons] at hlow hhigh hlong ⊢
      refine ⟨_, rfl, ?_, ?_, ?_⟩
      · simp
        omega
      · simp
        omega
      · simp
        omega
  · rw [if_neg hlong]
    exact ⟨_, rfl, Nat.le_antisymm (Nat.not_lt.mp hlong) hlow, rfl, rfl⟩

end Column

/-! ## The stages -/

section Stages

variable {maxHeight height : ℕ}

/-- One stage.  A column with `j` columns behind it receives at most `j + 2 - height`
carries, and at most `maxHeight - height`: so no carry reaches the columns which are still
thin, the last one among them. -/
theorem reduceFrom_spec (hheight : 2 ≤ height) (hlt : height < maxHeight)
    (column : List Bool) (rest : List (List Bool)) (hrest : Tapers maxHeight rest)
    (hcolumn : column.length ≤ heightBound maxHeight rest.length +
      min (maxHeight - height) (rest.length + 2 - height)) :
    ∃ reduced, bool.reduceFrom height column rest = some reduced ∧
      reduced.length = rest.length + 1 ∧ Tapers height reduced ∧
      columnsValue reduced = ones column + 2 * columnsValue rest := by
  induction rest generalizing column with
  | nil =>
    have hshort : column.length ≤ 0 := by
      simp only [heightBound, List.length_nil] at hcolumn
      rw [if_pos (by omega)] at hcolumn
      omega
    refine ⟨[column], ?_, rfl, ⟨?_, trivial⟩, rfl⟩
    · unfold reduceFrom
      rw [if_pos (by omega)]
    · exact hshort.trans (Nat.zero_le _)
  | cons next rest ih =>
    obtain ⟨hnext, hrest⟩ := hrest
    rw [List.length_cons] at hcolumn
    unfold reduceFrom
    by_cases hshort : column.length ≤ height
    · rw [if_pos hshort]
      obtain ⟨reduced, hreduced, hlength, htapers, hvalue⟩ :=
        ih next hrest (hnext.trans (Nat.le_add_right _ _))
      refine ⟨column :: reduced, by rw [hreduced]; rfl, by simp [hlength], ⟨?_, htapers⟩, ?_⟩
      · rw [hlength]
        unfold heightBound at hcolumn ⊢
        split
        · rw [if_pos (by omega)] at hcolumn
          omega
        · exact hshort
      · rw [columnsValue, hvalue]
        rfl
    · rw [if_neg hshort]
      obtain ⟨full, hfull, hsize, hlow, hhigh, hones⟩ :=
        fullAdders_spec hheight column.length column next le_rfl (by omega)
      obtain ⟨half, hhalf, hdown, hsize', hones'⟩ :=
        halfAdders_spec hheight full.2 hlow hhigh
      have hcarries : half.2.length ≤ heightBound maxHeight rest.length +
          min (maxHeight - height) (rest.length + 2 - height) := by
        have hbound := hcolumn
        unfold heightBound at hbound
        split at hbound <;> omega
      obtain ⟨reduced, hreduced, hlength, htapers, hvalue⟩ := ih half.2 hrest hcarries
      refine ⟨half.1 :: reduced, ?_, by simp [hlength], ⟨?_, htapers⟩, ?_⟩
      · rw [hfull]
        show (bool.halfAdders height full.1 full.2 >>= fun half =>
          (bool.reduceFrom height half.2 rest).map (half.1 :: ·)) = _
        rw [hhalf]
        show (bool.reduceFrom height half.2 rest).map (half.1 :: ·) = _
        rw [hreduced]
        rfl
      · rw [hlength, hdown]
        unfold heightBound at hcolumn ⊢
        rw [if_neg]
        intro hthin
        rw [if_pos (by omega)] at hcolumn
        omega
      · rw [columnsValue, hvalue, columnsValue]
        omega

theorem reduceColumns_spec (hheight : 2 ≤ height) (hlt : height < maxHeight)
    {columns : List (List Bool)} (h : Tapers maxHeight columns) :
    ∃ reduced, bool.reduceColumns height columns = some reduced ∧
      reduced.length = columns.length ∧ Tapers height reduced ∧
      columnsValue reduced = columnsValue columns := by
  cases columns with
  | nil => exact ⟨[], rfl, rfl, trivial, rfl⟩
  | cons column rest =>
    exact reduceFrom_spec hheight hlt column rest h.2 (h.1.trans (Nat.le_add_right _ _))

/-- The stages, from the number of rounds on which ends the loop. -/
theorem reduceStages_spec (fuel maxHeight : ℕ) (hfuel : maxHeight ≤ fuel) (hmax : 2 ≤ maxHeight)
    {columns : List (List Bool)} (h : Tapers maxHeight columns) :
    ∃ reduced, bool.reduceStages fuel maxHeight columns = some reduced ∧
      reduced.length = columns.length ∧ Tapers 2 reduced ∧
      columnsValue reduced = columnsValue columns := by
  induction fuel generalizing maxHeight columns with
  | zero => omega
  | succ fuel ih =>
    unfold reduceStages
    by_cases hhigh : 2 < maxHeight
    · rw [if_pos hhigh]
      have htwo : 2 ≤ (2 * maxHeight + 2) / 3 := by omega
      obtain ⟨reduced, hreduced, hlength, htapers, hvalue⟩ := reduceColumns_spec htwo (by omega) h
      obtain ⟨last, hlast, hlength', htapers', hvalue'⟩ := ih _ (by omega) (by omega) htapers
      refine ⟨last, ?_, hlength'.trans hlength, htapers', hvalue'.trans hvalue⟩
      rw [hreduced]
      exact hlast
    · rw [if_neg hhigh]
      obtain rfl : maxHeight = 2 := by omega
      exact ⟨columns, rfl, rfl, h, rfl⟩

end Stages

/-! ## The ripple-carry adder -/

theorem rippleColumn_spec {column : List Bool} (h : column.length ≤ 3) :
    ∃ r, bool.rippleColumn column = some r ∧ (column.length ≤ 1 → r.2 = none) ∧
      r.2.toList.length ≤ 1 ∧ r.1.toNat + 2 * ones r.2.toList = ones column := by
  rcases column with - | ⟨a, - | ⟨b, - | ⟨c, - | ⟨d, rest⟩⟩⟩⟩
  · exact ⟨_, rfl, fun _ => rfl, Nat.zero_le _, rfl⟩
  · exact ⟨_, rfl, fun _ => rfl, Nat.zero_le _, by simp⟩
  · refine ⟨_, rfl, fun h => absurd h (by simp), le_rfl, ?_⟩
    have hadd := bool_halfAdder a b
    simp
    omega
  · refine ⟨_, rfl, fun h => absurd h (by simp), le_rfl, ?_⟩
    have hadd := bool_fullAdder a b c
    simp
    omega
  · simp at h
    omega

/-- A column of height at most `2` may receive a carry, and the last one, which is empty, may
receive a carry as well. -/
theorem rippleFrom_spec (column : List Bool) (rest : List (List Bool)) (hrest : Tapers 2 rest)
    (hcolumn : column.length ≤ heightBound 2 rest.length + 1) :
    ∃ r, bool.rippleFrom column rest = some r ∧ r.length = rest.length + 1 ∧
      value r = ones column + 2 * columnsValue rest := by
  have hthree : column.length ≤ 3 := hcolumn.trans (Nat.succ_le_succ heightBound_le)
  obtain ⟨r, hr, hnone, hcarry, hvalue⟩ := rippleColumn_spec hthree
  induction rest generalizing column r with
  | nil =>
    have hlast := hnone hcolumn
    refine ⟨[r.1], ?_, rfl, ?_⟩
    · unfold rippleFrom
      rw [hr]
      show (if r.2.isNone then some [r.1] else none) = _
      rw [hlast]
      rfl
    · rw [hlast] at hvalue
      simpa [columnsValue] using hvalue
  | cons next rest ih =>
    obtain ⟨hnext, hrest⟩ := hrest
    have hnext' : (next ++ r.2.toList).length ≤ heightBound 2 rest.length + 1 := by
      rw [List.length_append]
      exact Nat.add_le_add hnext hcarry
    have hthree' := hnext'.trans (Nat.succ_le_succ heightBound_le)
    obtain ⟨r', hr', hnone', hcarry', hvalue'⟩ := rippleColumn_spec hthree'
    obtain ⟨v, hv, hlength, hsum⟩ :=
      ih (next ++ r.2.toList) hrest hnext' hthree' r' hr' hnone' hcarry' hvalue'
    refine ⟨r.1 :: v, ?_, by simp [hlength], ?_⟩
    · unfold rippleFrom
      rw [hr]
      show (bool.rippleFrom (next ++ r.2.toList) rest).map (r.1 :: ·) = _
      rw [hv]
      rfl
    · rw [value_cons, hsum, columnsValue, ones_append]
      omega

theorem rippleColumns_spec {columns : List (List Bool)} (h : Tapers 2 columns) :
    ∃ r, bool.rippleColumns columns = some r ∧ r.length = columns.length ∧
      value r = columnsValue columns := by
  cases columns with
  | nil => exact ⟨[], rfl, rfl, rfl⟩
  | cons column rest => exact rippleFrom_spec column rest h.2 (h.1.trans (Nat.le_succ _))

/-! ## The partial products -/

theorem columnsValue_modify (columns : List (List Bool)) (k : ℕ) (b : Bool)
    (hk : k < columns.length) :
    columnsValue (columns.modify k (· ++ [b])) = columnsValue columns + 2 ^ k * b.toNat := by
  induction columns generalizing k with
  | nil => cases hk
  | cons column rest ih =>
    cases k with
    | zero =>
      rw [List.modify_zero_cons, columnsValue, columnsValue, ones_append]
      simp
      omega
    | succ k =>
      rw [List.modify_succ_cons, columnsValue, columnsValue, ih k (Nat.lt_of_succ_lt_succ hk),
        pow_succ]
      ring

theorem columnsValue_replicate (n : ℕ) : columnsValue (List.replicate n []) = 0 := by
  induction n with
  | zero => rfl
  | succ n ih => rw [List.replicate_succ, columnsValue, ih, ones_nil]

/-- One row of partial products, from entry `s` of `b` on: one more entry in each column it
reaches. -/
theorem row_spec (x : Bool) (i : ℕ) (b : List Bool) (s : ℕ) (columns : List (List Bool))
    (hlength : i + s + b.length ≤ columns.length) :
    ∃ row, (b.zipIdx s).foldl (fun columns (y, j) =>
        columns.modify (i + j) (· ++ [bool.and x y])) columns = row ∧
      row.length = columns.length ∧
      columnsValue row = columnsValue columns + 2 ^ (i + s) * (x.toNat * value b) ∧
      ∀ c, (row.getD c []).length ≤ (columns.getD c []).length +
        if i + s ≤ c ∧ c < i + s + b.length then 1 else 0 := by
  induction b generalizing s columns with
  | nil => exact ⟨columns, rfl, rfl, by simp, fun c => Nat.le_add_right _ _⟩
  | cons y b ih =>
    rw [List.length_cons] at hlength
    set first := columns.modify (i + s) (· ++ [bool.and x y])
    have hfirst : first.length = columns.length := List.length_modify ..
    obtain ⟨row, hrow, hlen, hvalue, hheight⟩ := ih (s + 1) first (by omega)
    refine ⟨row, hrow, hlen.trans hfirst, ?_, fun c => (hheight c).trans ?_⟩
    · rw [hvalue, columnsValue_modify _ _ _ (by omega), value_cons,
        show (bool.and x y).toNat = x.toNat * y.toNat by cases x <;> cases y <;> rfl,
        ← Nat.add_assoc, pow_succ]
      ring
    · have hget : (first.getD c []).length =
          (columns.getD c []).length + if c = i + s then 1 else 0 := by
        by_cases hc : c < columns.length
        · rw [List.getD_eq_getElem _ _ (hfirst.symm ▸ hc), List.getD_eq_getElem _ _ hc,
            List.getElem_modify]
          split
          · rw [if_pos (by omega)]
            simp
          · rw [if_neg (by omega), Nat.add_zero]
        · rw [if_neg (by omega), List.getD_eq_default _ _ (by omega),
            List.getD_eq_default _ _ (by omega), Nat.add_zero]
      rw [hget, List.length_cons]
      split <;> split <;> split <;> omega

/-- The rows, from row `s` on: column `c` misses the rows which end before it. -/
theorem rows_spec (a b : List Bool) (s : ℕ) (columns : List (List Bool))
    (hlength : s + a.length + b.length ≤ columns.length)
    (hheight : ∀ c, (columns.getD c []).length ≤ s - (c + 1 - b.length)) :
    ∃ rows, (a.zipIdx s).foldl (fun columns (x, i) =>
        b.zipIdx.foldl (fun columns (y, j) =>
          columns.modify (i + j) (· ++ [bool.and x y])) columns) columns = rows ∧
      rows.length = columns.length ∧
      columnsValue rows = columnsValue columns + 2 ^ s * (value a * value b) ∧
      ∀ c, (rows.getD c []).length ≤ s + a.length - (c + 1 - b.length) := by
  induction a generalizing s columns with
  | nil => exact ⟨columns, rfl, rfl, by simp, hheight⟩
  | cons x a ih =>
    rw [List.length_cons] at hlength
    obtain ⟨row, hrow, hlen, hvalue, hrowHeight⟩ := row_spec x s b 0 columns (by omega)
    obtain ⟨rows, hrows, hlen', hvalue', hheight'⟩ := ih (s + 1) row (by omega) fun c => by
      have hold := hheight c
      have hnew := hrowHeight c
      split at hnew <;> omega
    refine ⟨rows, ?_, hlen'.trans hlen, ?_, fun c => (hheight' c).trans ?_⟩
    · rw [List.zipIdx_cons, List.foldl_cons]
      simp only
      rw [hrow]
      exact hrows
    · rw [hvalue', hvalue, value_cons, Nat.add_zero, pow_succ]
      ring
    · rw [List.length_cons]
      omega

theorem partialProducts_spec {maxHeight : ℕ} (a b : List Bool) (hmax : a.length ≤ maxHeight) :
    (bool.partialProducts a b).length = a.length + b.length ∧
      columnsValue (bool.partialProducts a b) = value a * value b ∧
      Tapers maxHeight (bool.partialProducts a b) := by
  obtain ⟨rows, hrows, hlength, hvalue, hheight⟩ :=
    rows_spec a b 0 (List.replicate (a.length + b.length) []) (by simp) fun c => by
      rw [List.getD_eq_getElem?_getD, List.getElem?_replicate]
      split <;> exact Nat.zero_le _
  rw [List.length_replicate] at hlength
  rw [columnsValue_replicate, Nat.zero_add, pow_zero, Nat.one_mul] at hvalue
  have heq : bool.partialProducts a b = rows := hrows
  rw [heq]
  refine ⟨hlength, hvalue, tapers_of_getElem fun c hc => ?_⟩
  have hcolumn := hheight c
  rw [List.getD_eq_getElem _ _ hc] at hcolumn
  unfold heightBound
  split <;> omega

/-! ## The product -/

/-- The loop which finds the first maximum height ends because each height is above the one
before. -/
theorem le_growHeight (size fuel maxHeight : ℕ) (hmax : 2 ≤ maxHeight)
    (hfuel : size ≤ maxHeight + fuel) :
    size ≤ growHeight size fuel maxHeight ∧ 2 ≤ growHeight size fuel maxHeight := by
  induction fuel generalizing maxHeight with
  | zero => exact ⟨hfuel, hmax⟩
  | succ fuel ih =>
    unfold growHeight
    split
    · exact ih _ (by omega) (by omega)
    · exact ⟨by omega, hmax⟩

/-- More rounds than the largest height change nothing. -/
theorem reduceStages_fuel (fuel maxHeight : ℕ) (hfuel : maxHeight ≤ fuel)
    (columns : List (List Bool)) :
    bool.reduceStages fuel maxHeight columns = bool.reduceStages maxHeight maxHeight columns := by
  induction maxHeight using Nat.strong_induction_on generalizing fuel columns with
  | _ maxHeight ih =>
    cases fuel with
    | zero => rw [Nat.le_zero.mp hfuel]
    | succ fuel =>
      cases maxHeight with
      | zero => rfl
      | succ maxHeight =>
        unfold reduceStages
        by_cases hhigh : 2 < maxHeight + 1
        · rw [if_pos hhigh, if_pos hhigh]
          congr 1
          funext reduced
          rw [ih _ (by omega) fuel (by omega), ih _ (by omega) maxHeight (by omega)]
        · rw [if_neg hhigh, if_neg hhigh]

theorem bool_uMul (a b : List Bool) : ∃ r, bool.uMul a b = some r ∧ r.length = a.length + b.length ∧
      value r = value a * value b := by
  set size := max a.length b.length
  obtain ⟨hsize, hmax⟩ := le_growHeight size size 2 le_rfl (by omega)
  set maxHeight := growHeight size size 2
  obtain ⟨hlength, hvalue, htapers⟩ :=
    partialProducts_spec a b ((le_max_left _ _).trans hsize)
  obtain ⟨columns, hcolumns, hlength', htapers', hvalue'⟩ :=
    reduceStages_spec maxHeight maxHeight le_rfl hmax htapers
  obtain ⟨r, hr, hlength'', hvalue''⟩ := rippleColumns_spec htapers'
  refine ⟨r, ?_, hlength''.trans (hlength'.trans hlength), hvalue''.trans (hvalue'.trans hvalue)⟩
  show (bool.reduceStages maxHeight maxHeight (bool.partialProducts a b) >>= bool.rippleColumns) = _
  rw [hcolumns]
  exact hr

theorem Tapers.length_le {maxHeight : ℕ} {columns : List (List Bool)} (h : Tapers maxHeight columns) :
    ∀ column ∈ columns, column.length ≤ maxHeight := by
  induction columns with
  | nil => simp
  | cons column rest ih =>
    intro c hc
    rcases List.mem_cons.mp hc with rfl | hc
    · exact h.1.trans heightBound_le
    · exact ih h.2 c hc

/-- No check of `UMul` fails, its loops end with all columns at a height of at most two, and it
returns the product. -/
theorem uMul_exact (a b : List Bool) :
    max a.length b.length ≤ growHeight (max a.length b.length) (max a.length b.length) 2 ∧
    (∃ columns, (∀ column ∈ columns, column.length ≤ 2) ∧
      ∀ fuel ≥ growHeight (max a.length b.length) (max a.length b.length) 2,
        bool.reduceStages fuel (growHeight (max a.length b.length) (max a.length b.length) 2)
          (bool.partialProducts a b) = some columns) ∧
    ∃ r, bool.uMul a b = some r ∧ r.length = a.length + b.length ∧ value r = value a * value b := by
  obtain ⟨hsize, hmax⟩ := le_growHeight (max a.length b.length) (max a.length b.length) 2 le_rfl
    (by omega)
  obtain ⟨-, -, htapers⟩ := partialProducts_spec a b ((le_max_left _ _).trans hsize)
  obtain ⟨columns, hcolumns, -, htapers', -⟩ := reduceStages_spec _ _ le_rfl hmax htapers
  refine ⟨hsize, ⟨columns, htapers'.length_le, ?_⟩, bool_uMul a b⟩
  intro fuel hfuel
  rw [reduceStages_fuel fuel _ hfuel, hcolumns]

/-! ## Signed products -/

theorem value_eq_intValue_emod (v : List Bool) : (value v : ℤ) = intValue v % 2 ^ v.length := by
  have hlt : (value v : ℤ) < 2 ^ v.length := by exact_mod_cast value_lt v
  unfold intValue
  split
  · rw [Int.sub_emod_right, Int.emod_eq_of_lt (by positivity) hlt]
  · rw [Int.emod_eq_of_lt (by positivity) hlt]

theorem intValue_bounds {v : List Bool} (hv : v ≠ []) :
    -2 ^ (v.length - 1) ≤ intValue v ∧ intValue v < 2 ^ (v.length - 1) := by
  have hlt : (value v : ℤ) < 2 ^ v.length := by exact_mod_cast value_lt v
  have hpow : (2 : ℤ) ^ v.length = 2 ^ (v.length - 1) * 2 :=
    (pow_sub_one_mul (List.length_pos_iff.mpr hv).ne' 2).symm
  have hback := getLastD_eq_true_iff hv
  unfold intValue
  split
  · rename_i h
    have hge : (2 : ℤ) ^ (v.length - 1) ≤ value v := by exact_mod_cast hback.mp h
    omega
  · rename_i h
    have hge : (value v : ℤ) < 2 ^ (v.length - 1) := by
      exact_mod_cast Nat.lt_of_not_le fun hle => h (hback.mpr hle)
    have hpos : (0 : ℤ) ≤ value v := by positivity
    omega

/-- The number read by a vector is the only one in its range with this remainder. -/
theorem intValue_eq_of_emod {v : List Bool} (hv : v ≠ []) {k : ℤ}
    (hmod : (value v : ℤ) = k % 2 ^ v.length) (hlow : -2 ^ (v.length - 1) ≤ k)
    (hhigh : k < 2 ^ (v.length - 1)) : intValue v = k := by
  obtain ⟨hlow', hhigh'⟩ := intValue_bounds hv
  have hpow : (2 : ℤ) ^ v.length = 2 ^ (v.length - 1) * 2 :=
    (pow_sub_one_mul (List.length_pos_iff.mpr hv).ne' 2).symm
  rw [value_eq_intValue_emod] at hmod
  -- the two differ by less than the range
  have hsmall : |k - intValue v| < 2 ^ v.length := by
    rw [abs_lt]
    omega
  have hzero := Int.eq_zero_of_abs_lt_dvd (Int.ModEq.dvd hmod) hsmall
  omega

theorem signExtend_spec {v : List Bool} (hv : v ≠ []) {w : ℕ} (hw : v.length ≤ w) :
    ∃ r, signExtend v w = some r ∧ r.length = w ∧ (value r : ℤ) = intValue v % 2 ^ w := by
  have hlt : (value v : ℤ) < 2 ^ v.length := by exact_mod_cast value_lt v
  have hle : (2 : ℤ) ^ v.length ≤ 2 ^ w := by exact_mod_cast Nat.pow_le_pow_right Nat.two_pos hw
  refine ⟨v ++ List.replicate (w - v.length) (v.getLastD false), ?_, ?_, ?_⟩
  · rw [signExtend, getLast?_eq_getLastD hv]
    simp [hw, concat]
  · simp
    omega
  · rw [value_append]
    unfold intValue
    cases v.getLastD false
    · rw [value_replicate_false, Nat.mul_zero, Nat.add_zero]
      simp only [Bool.false_eq_true, if_false]
      rw [Int.emod_eq_of_lt (by positivity) (hlt.trans_le hle)]
    · have hpow : (2 : ℤ) ^ v.length * 2 ^ (w - v.length) = 2 ^ w := by
        rw [← pow_add, Nat.add_sub_cancel' hw]
      rw [value_replicate_true]
      simp only [if_true]
      push_cast [Nat.one_le_two_pow]
      rw [mul_sub, hpow, mul_one, ← Int.add_emod_right, Int.emod_eq_of_lt (by omega) (by omega)]
      ring

/-- `SMul` returns the signed product, which always fits. -/
theorem sMul_exact (a b : List Bool) (ha : a ≠ []) (hb : b ≠ []) :
    ∃ r, bool.sMul a b = some r ∧ r.length = a.length + b.length ∧
      intValue r = intValue a * intValue b := by
  have hla := List.length_pos_iff.mpr ha
  have hlb := List.length_pos_iff.mpr hb
  set w := max a.length b.length * 2 with hw
  obtain ⟨x, hx, hxl, hxv⟩ := signExtend_spec ha (w := w) (by omega)
  obtain ⟨y, hy, hyl, hyv⟩ := signExtend_spec hb (w := w) (by omega)
  obtain ⟨p, hp, hpl, hpv⟩ := bool_uMul x y
  have hfit : a.length + b.length ≤ p.length := by omega
  have hlen : (p.take (a.length + b.length)).length = a.length + b.length := by
    rw [List.length_take]
    omega
  refine ⟨p.take (a.length + b.length), ?_, hlen, ?_⟩
  · simp only [sMul, ← hw, hx, hy, hp, Option.bind_eq_bind, Option.bind_some, bitSlice]
    rw [if_pos (by omega), List.drop_zero]
  · have hne : p.take (a.length + b.length) ≠ [] := by
      rw [← List.length_pos_iff]
      omega
    have hdvd : (2 : ℤ) ^ (a.length + b.length) ∣ 2 ^ w := pow_dvd_pow 2 (by omega)
    obtain ⟨hal, hau⟩ := intValue_bounds ha
    obtain ⟨hbl, hbu⟩ := intValue_bounds hb
    have hhalf : (2 : ℤ) ^ (a.length + b.length - 1) =
        2 ^ (a.length - 1) * 2 ^ (b.length - 1) * 2 := by
      rw [← pow_add, ← pow_succ]
      congr 1
      omega
    have hapos : (0 : ℤ) < 2 ^ (a.length - 1) := by positivity
    have hbpos : (0 : ℤ) < 2 ^ (b.length - 1) := by positivity
    have habs : |intValue a * intValue b| ≤ 2 ^ (a.length - 1) * 2 ^ (b.length - 1) := by
      rw [abs_mul]
      exact mul_le_mul (abs_le.mpr ⟨hal, hau.le⟩) (abs_le.mpr ⟨hbl, hbu.le⟩) (abs_nonneg _) hapos.le
    obtain ⟨hlow, hhigh⟩ := abs_le.mp habs
    have hprod : (0 : ℤ) < 2 ^ (a.length - 1) * 2 ^ (b.length - 1) := by positivity
    apply intValue_eq_of_emod hne
    · rw [value_take, hlen, hpv, Int.natCast_mod, Nat.cast_mul, hxv, hyv, Nat.cast_pow,
        Nat.cast_ofNat, Int.mul_emod, Int.emod_emod_of_dvd _ hdvd, Int.emod_emod_of_dvd _ hdvd,
        ← Int.mul_emod]
    · rw [hlen, hhalf]
      omega
    · rw [hlen, hhalf]
      omega

/-- Minus one by minus two. -/
theorem sMul_exact_negatives : ∃ r, bool.sMul [true] [false, true] = some r ∧ r.length = 3 ∧
    intValue r = intValue [true] * intValue [false, true] :=
  sMul_exact [true] [false, true] (by decide) (by decide)

end Evaluator
end Xls
