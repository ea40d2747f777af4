/-
# The order of the nodes

`NodeIterator::Initialize` (`xls/ir/node_iterator.cc`) sorts the nodes of a function so that the
users of a node come before it.  A node is ready when its last user has been sorted; the users
which are left are counted in `pending`, where `-1` marks a node which has become
ready.  `none` is a failed check.

* `foldlM_bump` : one sorted node counts down its operands;
* `step_spec` : one round of the loop is a step of Kahn's algorithm;
* `reverseTopoSort_spec` : the order of a function without cycles.
-/
import Xls.Ir.Users
import Xls.Lib.Kahn
import Mathlib.Logic.Function.Basic

namespace Xls

namespace NodeIterator

variable {f : FunctionBase}

/-! ## The source -/

/-- `pending_to_remaining_users` and `ready`. -/
structure State where
  pending : ℕ → Option ℤ
  ready : List ℕ

/-- `is_scheduled`. -/
def isScheduled (s : State) (n : ℕ) : Bool :=
  match s.pending n with
  | none => false
  | some remaining => decide (remaining < 0)

/-- `bump_down_remaining_users`. -/
def bumpDownRemainingUsers (users : Users f) (s : State) (n : ℕ) : Option State :=
  let remainingUsers := (s.pending n).getD (users.users n).length
  if (users.users n).isEmpty = false ∧ remainingUsers > 0 then
    if remainingUsers - 1 = 0 then
      some ⟨Function.update s.pending n (some (-1)), s.ready ++ [n]⟩
    else some ⟨Function.update s.pending n (some (remainingUsers - 1)), s.ready⟩
  else none

/-- The loop over the operands in `add_to_order`, which passes over those which it has seen. -/
def bumpOperands (users : Users f) : List ℕ → List ℕ → State → Option State
  | [], _, s => some s
  | o :: rest, seenOperands, s =>
    if o ∈ seenOperands then bumpOperands users rest seenOperands s
    else do
      let s ← bumpDownRemainingUsers users s o
      bumpOperands users rest (seenOperands ++ [o]) s

/-- `add_to_order`, but for the push onto the order. -/
def addToOrder (users : Users f) (s : State) (r : ℕ) : Option State :=
  if (users.users r).all (isScheduled s) then bumpOperands users (f.operands r).reverse [] s
  else none

/-- `seed_ready`. -/
def seedReady (s : State) (n : ℕ) : Option State :=
  match s.pending n with
  | none => some ⟨Function.update s.pending n (some (-1)), n :: s.ready⟩
  | some _ => none

/-- The nodes without users are ready from the start, the return value before the others. -/
def seed (users : Users f) (returnValue : Option ℕ) : Option State := do
  let starts := (List.range f.nodes.length).filter fun n => (users.users n).isEmpty
  let s ← (starts.filter fun n => returnValue ≠ some n).foldlM seedReady ⟨fun _ => none, []⟩
  (starts.filter fun n => returnValue = some n).foldlM seedReady s

/-- The loop over the ready nodes. -/
def orderLoop (users : Users f) : ℕ → State → List ℕ → Option (List ℕ)
  | 0, s, ordered => if s.ready.isEmpty then some ordered else none
  | fuel + 1, s, ordered =>
    match s.ready with
    | [] => some ordered
    | r :: ready => do
      let s ← addToOrder users ⟨s.pending, ready⟩ r
      orderLoop users fuel s (ordered ++ [r])

/-- `ReverseTopoSort`, for a function with its return value, or for a proc. -/
def reverseTopoSort (users : Users f) (returnValue : Option ℕ) : Option (List ℕ) := do
  let s ← seed users returnValue
  let ordered ← orderLoop users f.nodes.length s []
  -- not all nodes have been placed, so that there is a cycle
  if ordered.length < f.nodes.length then none else some ordered

/-! ## The operands of a node, each once -/

/-- The operands which are counted down. -/
def distinct : List ℕ → List ℕ → List ℕ
  | [], _ => []
  | o :: rest, seen => if o ∈ seen then distinct rest seen else o :: distinct rest (seen ++ [o])

variable {l : List ℕ} {users : Users f}

theorem mem_distinct {seen : List ℕ} {o : ℕ} : o ∈ distinct l seen ↔ o ∈ l ∧ o ∉ seen := by
  induction l generalizing seen with
  | nil => simp [distinct]
  | cons x l ih =>
    rw [distinct]
    split
    · rename_i hx
      rw [ih, List.mem_cons]
      refine and_congr_left fun ho => (or_iff_right ?_).symm
      rintro rfl
      exact ho hx
    · rename_i hx
      rw [List.mem_cons, ih, List.mem_append]
      by_cases h : o = x
      · subst h
        simp [hx]
      · simp [h]

theorem nodup_distinct (l seen : List ℕ) : (distinct l seen).Nodup := by
  induction l generalizing seen with
  | nil => exact List.nodup_nil
  | cons x l ih =>
    rw [distinct]
    split
    · exact ih seen
    · refine List.nodup_cons.mpr ⟨fun hmem => ?_, ih _⟩
      exact (mem_distinct.mp hmem).2 (List.mem_append_right seen (List.mem_singleton_self x))

theorem bumpOperands_eq (users : Users f) (l seen : List ℕ) (s : State) :
    bumpOperands users l seen s = (distinct l seen).foldlM (bumpDownRemainingUsers users) s := by
  induction l generalizing seen s with
  | nil => rfl
  | cons o l ih =>
    rw [bumpOperands, distinct]
    split
    · exact ih seen s
    · exact congrArg (bumpDownRemainingUsers users s o >>= ·) (funext fun s' => ih _ s')

/-! ## Counting down -/

/-- The number of users which are left. -/
def remaining (users : Users f) (pending : ℕ → Option ℤ) (n : ℕ) : ℤ :=
  (pending n).getD (users.users n).length

/-- A node with one more user which is sorted. -/
def countDown (users : Users f) (pending : ℕ → Option ℤ) (n : ℕ) : ℤ :=
  if remaining users pending n = 1 then -1 else remaining users pending n - 1

theorem bump_eq {s : State} {n : ℕ} (h : 0 < remaining users s.pending n) (hne : users.users n ≠ []) :
    bumpDownRemainingUsers users s n =
      some ⟨Function.update s.pending n (some (countDown users s.pending n)),
        s.ready ++ [n].filter fun n => remaining users s.pending n = 1⟩ := by
  unfold bumpDownRemainingUsers
  rw [if_pos ⟨List.isEmpty_eq_false_iff.mpr hne, h⟩]
  unfold countDown
  show (if remaining users s.pending n - 1 = 0 then _ else _) = _
  by_cases hone : remaining users s.pending n = 1
  · rw [if_pos (show remaining users s.pending n - 1 = 0 by omega), if_pos hone,
      List.filter_cons_of_pos (by simpa using hone), List.filter_nil]
  · rw [if_neg (show ¬ remaining users s.pending n - 1 = 0 by omega), if_neg hone,
      List.filter_cons_of_neg (by simpa using hone), List.filter_nil, List.append_nil]
    rfl

/-- All operands of a node are counted down. -/
theorem foldlM_bump (hnodup : l.Nodup) {s : State}
    (h : ∀ n ∈ l, 0 < remaining users s.pending n ∧ users.users n ≠ []) :
    ∃ pending, l.foldlM (bumpDownRemainingUsers users) s =
        some ⟨pending, s.ready ++ l.filter fun n => remaining users s.pending n = 1⟩ ∧
      ∀ v, pending v = if v ∈ l then some (countDown users s.pending v) else s.pending v := by
  induction l generalizing s with
  | nil => exact ⟨s.pending, by simp, fun v => rfl⟩
  | cons n l ih =>
    obtain ⟨hn, hl⟩ := List.nodup_cons.mp hnodup
    obtain ⟨hpos, hne⟩ := h n (List.mem_cons_self ..)
    have hother : ∀ v ∈ l, remaining users
        (Function.update s.pending n (some (countDown users s.pending n))) v =
          remaining users s.pending v := by
      intro v hv
      have hvn : v ≠ n := fun heq => hn (heq ▸ hv)
      rw [remaining, Function.update_of_ne hvn, remaining]
    obtain ⟨pending, hfold, hpending⟩ := ih hl
      (s := ⟨Function.update s.pending n (some (countDown users s.pending n)),
        s.ready ++ [n].filter fun n => remaining users s.pending n = 1⟩) fun v hv => by
      rw [hother v hv]
      exact h v (List.mem_cons_of_mem n hv)
    refine ⟨pending, ?_, fun v => ?_⟩
    · have hfilter : (l.filter fun v => decide (remaining users (Function.update s.pending n
          (some (countDown users s.pending n))) v = 1)) =
            l.filter fun v => decide (remaining users s.pending v = 1) :=
        List.filter_congr fun v hv => by rw [hother v hv]
      rw [List.foldlM_cons, bump_eq hpos hne]
      refine hfold.trans ?_
      rw [hfilter, List.append_assoc, ← List.filter_append, List.singleton_append]
    · rw [hpending v]
      by_cases hv : v ∈ l
      · rw [if_pos hv, if_pos (List.mem_cons_of_mem n hv)]
        exact congrArg (fun k : ℤ => some (if k = 1 then -1 else k - 1)) (hother v hv)
      · rw [if_neg hv]
        by_cases hvn : v = n
        · subst hvn
          rw [if_pos (List.mem_cons_self ..)]
          exact Function.update_self ..
        · rw [if_neg (by simp [hvn, hv])]
          exact Function.update_of_ne hvn ..

/-! ## The run -/

/-- The nodes in the order, those which are ready and the counts. -/
structure Sorting (users : Users f) (ordered : List ℕ) (s : State) : Prop where
  progress : Kahn.Progress (List.range f.nodes.length) users.users ordered s.ready
    fun v => some (max 0 (remaining users s.pending v))
  scheduled : ∀ v ∈ ordered ++ s.ready, s.pending v = some (-1)

/-- The graph from the users to the nodes which they use. -/
theorem isGraph (users : Users f) (hclosed : ∀ u n, Uses f u n → n < f.nodes.length) :
    Kahn.IsGraph (Uses f) (List.range f.nodes.length) users.users
      fun u => distinct (f.operands u).reverse [] where
  nodup := List.nodup_range
  mem_of_edge h := ⟨List.mem_range.mpr h.lt_length, List.mem_range.mpr (hclosed _ _ h)⟩
  mem_preds := users.mem_iff
  mem_succs := by
    intro u n
    rw [mem_distinct, List.mem_reverse, mem_operands_iff]
    exact and_iff_left List.not_mem_nil
  nodup_preds := users.nodup
  nodup_succs u := nodup_distinct _ _

/-- One round of the loop. -/
theorem step_spec (hclosed : ∀ u n, Uses f u n → n < f.nodes.length) {ordered ready : List ℕ}
    {pending : ℕ → Option ℤ} {r : ℕ} (h : Sorting users ordered ⟨pending, r :: ready⟩) :
    ∃ s, addToOrder users ⟨pending, ready⟩ r = some s ∧ Sorting users (ordered ++ [r]) s := by
  have hg := isGraph users hclosed
  have hr : r ∈ ordered ++ r :: ready := List.mem_append_right _ (List.mem_cons_self ..)
  have hrange := h.progress.mem r hr
  -- the users of the node are sorted, and the node is not
  have husers := (h.progress.ready_iff r hrange).mp hr
  have hnot : r ∉ ordered := fun hmem =>
    (List.nodup_append.mp h.progress.nodup).2.2 r hmem r (List.mem_cons_self ..) rfl
  have hcheck : (users.users r).all (isScheduled ⟨pending, ready⟩) = true := by
    refine List.all_eq_true.mpr fun u hu => ?_
    have hsched := h.scheduled u (List.mem_append_left _ (husers u hu))
    unfold isScheduled
    rw [hsched]
    rfl
  have hpos : ∀ v ∈ distinct (f.operands r).reverse [],
      0 < remaining users pending v ∧ r ∈ users.users v := by
    intro v hv
    have huse := hg.mem_succs.mp hv
    have hmem : r ∈ users.users v := users.mem_iff.mpr huse
    have hcount := h.progress.count_eq v (List.mem_range.mpr (hclosed _ _ huse))
    have hunsorted : Kahn.unsorted users.users ordered v ≠ 0 := fun hzero =>
      hnot (Kahn.unsorted_eq_zero.mp hzero r hmem)
    have hmax : max 0 (remaining users pending v) = (Kahn.unsorted users.users ordered v : ℤ) :=
      Option.some.inj hcount
    exact ⟨by omega, hmem⟩
  obtain ⟨pending', hfold, hpending'⟩ := foldlM_bump (nodup_distinct (f.operands r).reverse [])
    (s := ⟨pending, ready⟩) fun v hv => ⟨(hpos v hv).1, List.ne_nil_of_mem (hpos v hv).2⟩
  refine ⟨_, (if_pos hcheck).trans ((bumpOperands_eq users _ _ _).trans hfold), ?_⟩
  have hcounts : ∀ v ∈ List.range f.nodes.length,
      some (max 0 (remaining users pending' v)) = if v ∈ distinct (f.operands r).reverse [] then
        (some (max 0 (remaining users pending v))).map (· - 1)
          else some (max 0 (remaining users pending v)) := by
    intro v _
    rw [remaining, hpending' v]
    split
    · rename_i hv
      have hv := (hpos v hv).1
      rw [Option.getD_some, Option.map_some, Option.some.injEq, countDown]
      simp only
      split <;> omega
    · rfl
  have hstep := h.progress.step hg
    ((nodup_distinct (f.operands r).reverse []).filter fun v => remaining users pending v = 1)
    (fun v => by
      rw [List.mem_filter, decide_eq_true_eq]
      refine and_congr_right fun hv => ?_
      rw [Option.some.injEq]
      simp only
      omega) hcounts
  refine ⟨hstep.perm List.perm_append_comm, fun v hv => ?_⟩
  simp only at hv ⊢
  rw [hpending' v]
  split
  · rename_i hl
    have hcount := hpos v hl
    -- an operand which is scheduled has just become ready
    have hone : remaining users pending v = 1 := by
      by_contra hne
      have hold : v ∈ ordered ++ r :: ready := by
        simp only [List.mem_append, List.mem_cons, List.mem_filter, decide_eq_true_eq] at hv ⊢
        tauto
      have hsched := h.scheduled v hold
      simp only at hsched
      rw [remaining, hsched] at hcount
      exact absurd hcount.1 (show ¬ (0 : ℤ) < -1 by decide)
    rw [countDown, if_pos hone]
  · refine h.scheduled v ?_
    simp only [List.mem_append, List.mem_cons, List.mem_filter] at hv ⊢
    tauto

theorem orderLoop_spec (hclosed : ∀ u n, Uses f u n → n < f.nodes.length) (fuel : ℕ) :
    ∀ {s : State} {ordered : List ℕ}, Sorting users ordered s →
      f.nodes.length ≤ ordered.length + fuel → ∃ order final,
        orderLoop users fuel s ordered = some order ∧ Sorting users order final ∧
          final.ready = [] := by
  induction fuel with
  | zero =>
    rintro ⟨pending, ready⟩ ordered h hfuel
    rcases ready with - | ⟨r, ready⟩
    · exact ⟨ordered, _, rfl, h, rfl⟩
    · have hle := h.progress.length_le
      rw [List.length_range, List.length_append, List.length_cons] at hle
      omega
  | succ fuel ih =>
    rintro ⟨pending, ready⟩ ordered h hfuel
    rcases ready with - | ⟨r, ready⟩
    · exact ⟨ordered, _, rfl, h, rfl⟩
    · obtain ⟨s, hs, hnext⟩ := step_spec hclosed h
      obtain ⟨order, final, hloop, hfinal⟩ := ih hnext (by
        rw [List.length_append, List.length_singleton]
        omega)
      refine ⟨order, final, ?_, hfinal⟩
      show (addToOrder users ⟨pending, ready⟩ r).bind _ = _
      rw [hs]
      exact hloop

theorem foldlM_seedReady (hnodup : l.Nodup) {s : State} (h : ∀ n ∈ l, s.pending n = none) :
    ∃ pending, l.foldlM seedReady s = some ⟨pending, l.reverse ++ s.ready⟩ ∧
        ∀ v, pending v = if v ∈ l then some (-1) else s.pending v := by
  induction l generalizing s with
  | nil => exact ⟨s.pending, rfl, fun v => rfl⟩
  | cons n l ih =>
    obtain ⟨hn, hl⟩ := List.nodup_cons.mp hnodup
    have hseed : seedReady s n = some ⟨Function.update s.pending n (some (-1)), n :: s.ready⟩ := by
      unfold seedReady
      rw [h n (List.mem_cons_self ..)]
    obtain ⟨pending, hfold, hpending⟩ := ih hl
      (s := ⟨Function.update s.pending n (some (-1)), n :: s.ready⟩) fun v hv => by
        have hvn : v ≠ n := fun heq => hn (heq ▸ hv)
        exact (Function.update_of_ne hvn ..).trans (h v (List.mem_cons_of_mem n hv))
    refine ⟨pending, ?_, fun v => ?_⟩
    · rw [List.foldlM_cons, hseed]
      refine hfold.trans ?_
      rw [List.reverse_cons, List.append_assoc, List.singleton_append]
    · rw [hpending v]
      by_cases hv : v ∈ l
      · rw [if_pos hv, if_pos (List.mem_cons_of_mem n hv)]
      · rw [if_neg hv]
        by_cases hvn : v = n
        · subst hvn
          rw [if_pos (List.mem_cons_self ..)]
          exact Function.update_self ..
        · rw [if_neg (by simp [hvn, hv])]
          exact Function.update_of_ne hvn ..

/-- The nodes without users are ready from the start. -/
theorem seed_spec (users : Users f) (returnValue : Option ℕ) :
    ∃ s, seed users returnValue = some s ∧ Sorting users [] s := by
  obtain ⟨starts, hstarts⟩ : ∃ l, l = (List.range f.nodes.length).filter
      fun n => (users.users n).isEmpty := ⟨_, rfl⟩
  have hnodup : starts.Nodup := hstarts ▸ List.nodup_range.filter _
  obtain ⟨p₁, hfold₁, hp₁⟩ := foldlM_seedReady (s := ⟨fun _ => none, []⟩)
    (hnodup.filter fun n => decide (returnValue ≠ some n)) fun n _ => rfl
  obtain ⟨p₂, hfold₂, hp₂⟩ := foldlM_seedReady
    (s := ⟨p₁, (starts.filter fun n => decide (returnValue ≠ some n)).reverse ++ []⟩)
    (hnodup.filter fun n => decide (returnValue = some n)) fun n hn => by
      refine (hp₁ n).trans (if_neg ?_)
      rw [List.mem_filter, decide_eq_true_eq] at hn ⊢
      exact fun h => h.2 hn.2
  refine ⟨⟨p₂, (starts.filter fun n => decide (returnValue = some n)).reverse ++
    ((starts.filter fun n => decide (returnValue ≠ some n)).reverse ++ [])⟩, ?_, ?_⟩
  · unfold seed
    rw [← hstarts]
    show Option.bind (List.foldlM seedReady _ _) _ = _
    rw [hfold₁]
    exact hfold₂
  · have hmem : ∀ v, v ∈ (starts.filter fun n => decide (returnValue = some n)).reverse ++
        ((starts.filter fun n => decide (returnValue ≠ some n)).reverse ++ []) ↔ v ∈ starts := by
      intro v
      simp only [List.mem_append, List.mem_reverse, List.mem_filter, decide_eq_true_eq]
      tauto
    have hpending : ∀ v, p₂ v = if v ∈ starts then some (-1) else none := by
      intro v
      rw [hp₂ v]
      simp only [hp₁ v, List.mem_filter, decide_eq_true_eq]
      split_ifs <;> tauto
    have hstart : ∀ v, v ∈ starts ↔ v ∈ List.range f.nodes.length ∧ users.users v = [] := by
      intro v
      rw [hstarts, List.mem_filter, List.isEmpty_iff]
    refine ⟨Kahn.Progress.start ?_ (fun v => (hmem v).trans (hstart v)) fun v hv => ?_, fun v hv => ?_⟩
    · rw [List.append_nil, List.nodup_append]
      refine ⟨List.nodup_reverse.mpr (hnodup.filter _), List.nodup_reverse.mpr (hnodup.filter _), ?_⟩
      rintro v hv w hw rfl
      rw [List.mem_reverse, List.mem_filter, decide_eq_true_eq] at hv hw
      exact hw.2 hv.2
    · simp only [remaining, hpending v]
      split
      · rename_i hmem
        rw [((hstart v).mp hmem).2]
        rfl
      · simp
    · rw [List.nil_append, hmem v] at hv
      simp only
      rw [hpending v, if_pos hv]

/-- The order of a function without cycles has every node once, behind its users. -/
theorem reverseTopoSort_spec (users : Users f) (returnValue : Option ℕ)
    (hclosed : ∀ u n, Uses f u n → n < f.nodes.length)
    (hacyclic : ∀ n, ¬ Relation.TransGen (Uses f) n n) :
    ∃ order, reverseTopoSort users returnValue = some order ∧
      order.Perm (List.range f.nodes.length) ∧
      ∀ before n after, order = before ++ n :: after → ∀ u ∈ users.users n, u ∈ before := by
  obtain ⟨s, hseed, hstart⟩ := seed_spec users returnValue
  obtain ⟨order, final, hloop, hdone, hready⟩ :=
    orderLoop_spec hclosed f.nodes.length hstart (by rw [List.length_nil, Nat.zero_add])
  have hprogress := hdone.progress
  rw [hready] at hprogress
  have hlength : order.length = (List.range f.nodes.length).length :=
    (hprogress.finish (isGraph users hclosed)).mpr hacyclic
  have hnodup : order.Nodup := by simpa using hprogress.nodup
  refine ⟨order, ?_, ?_, hprogress.ordered⟩
  · unfold reverseTopoSort
    rw [hseed]
    show (orderLoop users f.nodes.length s []).bind _ = _
    rw [hloop, Option.bind_some, if_neg]
    rw [hlength, List.length_range]
    exact Nat.lt_irrefl _
  · exact (hnodup.subperm fun v hv => hprogress.mem v (List.mem_append_left _ hv)).perm_of_length_le
      hlength.ge

end NodeIterator

end Xls
