/-
# Sound abstractions with a state

An evaluator with a state abstracts the boolean one when its primitives are sound for a relation
between elements and booleans which survives the growth of the state
(`StatefulEvaluator.Abstracts`).  Then so are its operations: on elements which describe the bits
of concrete vectors, an operation which returns describes the result of the boolean operation.

The masks of the selects are absorbed as in the case without a state: they are computed over
every case whose selector is not known to be zero, and the concrete selector has a set element.
-/
import Xls.Ir.EvaluatorSoundness
import Xls.Ir.StatefulEvaluator
import Xls.Lib.Growing

namespace Xls
namespace StatefulEvaluator

open Evaluator (bool Picks bool_bitwiseOr_masks BitsLE Chooses)

/-- `E` abstracts the boolean evaluator: `describes s a b` says that in the state `s` the element
`a` admits the bit `b`. -/
structure Abstracts {S α : Type} (E : StatefulEvaluator S α) (W : World S)
    (describes : S → α → Bool → Prop) : Prop where
  stable : W.Stable describes
  one : ∀ {s}, W.Inv s → describes s E.one true
  zero : ∀ {s}, W.Inv s → describes s E.zero false
  zero_only : ∀ {s}, W.Inv s → ¬ describes s E.zero true
  not : ∀ {s a x}, W.Inv s → describes s a x →
    W.Ensures s (E.not a) fun t b => describes t b (bool.not x)
  and : ∀ {s a b x y}, W.Inv s → describes s a x → describes s b y →
    W.Ensures s (E.and a b) fun t c => describes t c (bool.and x y)
  or : ∀ {s a b x y}, W.Inv s → describes s a x → describes s b y →
    W.Ensures s (E.or a b) fun t c => describes t c (bool.or x y)

namespace Abstracts

variable {S α : Type} {E : StatefulEvaluator S α} {W : World S} {describes : S → α → Bool → Prop}
  {s : S}

variable (h : E.Abstracts W describes) (hs : W.Inv s)

include h hs

/-! ## Elements -/

section Elements

variable {a b c : α} {x y z : Bool}

section

variable (ha : describes s a x)

include ha

/-- The exclusive or. -/
theorem xor (hb : describes s b y) :
    W.Ensures s (E.xor a b) fun t c => describes t c (bool.xor x y) := by
  refine (h.or hs ha hb).bind fun t either ht hst heither => ?_
  refine (h.and ht (h.stable.grow hst ha) (h.stable.grow hst hb)).bind fun u both hu htu hboth => ?_
  refine (h.not hu hboth).bind fun v neg hv huv hneg => ?_
  exact h.and hv (h.stable.grow (W.trans htu huv) heither) hneg

/-- One step of `Equals`. -/
theorem equalsStep (hb : describes s b y) (hc : describes s c z) :
    W.Ensures s (E.equalsStep c (a, b)) fun t d => describes t d
      (bool.and z (bool.or (bool.and x y) (bool.and (bool.not x) (bool.not y)))) := by
  refine (h.and hs ha hb).bind fun t both ht hst hboth => ?_
  refine (h.not ht (h.stable.grow hst ha)).bind fun u na hu htu hna => ?_
  have hsu := W.trans hst htu
  refine (h.not hu (h.stable.grow hsu hb)).bind fun v nb hv huv hnb => ?_
  refine (h.and hv (h.stable.grow huv hna) hnb).bind fun w neither hw hvw hneither => ?_
  have huw := W.trans huv hvw
  refine (h.or hw (h.stable.grow (W.trans htu huw) hboth) hneither).bind fun r same hr hwr hsame => ?_
  exact h.and hr (h.stable.grow (W.trans (W.trans hsu huw) hwr) hc) hsame

/-- One step of `ULessThan`. -/
theorem uLessThanStep
    (hb : describes s b y) {p : α × α} {q : Bool × Bool} (hp : describes s p.1 q.1)
    (hq : describes s p.2 q.2) :
    W.Ensures s (E.uLessThanStep (a, b) p) fun t r =>
      describes t r.1 (bool.uLessThanStep (x, y) q).1 ∧
        describes t r.2 (bool.uLessThanStep (x, y) q).2 := by
  refine (h.not hs ha).bind fun t na ht hst hna => ?_
  refine (h.and ht hna (h.stable.grow hst hb)).bind fun u nab hu htu hnab => ?_
  have hsu := W.trans hst htu
  refine (h.and hu (h.stable.grow hsu hq) hnab).bind fun v less hv huv hless => ?_
  have hsv := W.trans hsu huv
  refine (h.or hv (h.stable.grow hsv hp) hless).bind fun w result hw hvw hresult => ?_
  have hsw := W.trans hsv hvw
  refine (h.not hw (h.stable.grow hsw ha)).bind fun r na' hr hwr hna' => ?_
  have hsr := W.trans hsw hwr
  refine (h.or hr hna' (h.stable.grow hsr hb)).bind fun k lte hk hrk hlte => ?_
  refine (h.and hk (h.stable.grow (W.trans hsr hrk) hq) hlte).bind fun l upper hl hkl hupper => ?_
  exact .pure hl ⟨h.stable.grow (W.trans hwr (W.trans hrk hkl)) hresult, hupper⟩

/-- One step of `XorReduce`. -/
theorem xorReduceStep (hb : describes s b y) :
    W.Ensures s (E.xorReduceStep a b) fun t c =>
      describes t c (bool.or (bool.and (bool.not x) y) (bool.and x (bool.not y))) := by
  refine (h.not hs ha).bind fun t na ht hst hna => ?_
  refine (h.and ht hna (h.stable.grow hst hb)).bind fun u fromZero hu htu hzero => ?_
  have hsu := W.trans hst htu
  refine (h.not hu (h.stable.grow hsu hb)).bind fun v nb hv huv hnb => ?_
  refine (h.and hv (h.stable.grow (W.trans hsu huv) ha) hnb).bind fun w fromOne hw hvw hone => ?_
  exact h.or hw (h.stable.grow (W.trans huv hvw) hzero) hone

/-- One step of the one-hot select. -/
theorem oneHotStep (hb : describes s b y) (hc : describes s c z) :
    W.Ensures s (E.oneHotStep a b c) fun t d => describes t d (bool.or y (bool.and z x)) := by
  refine (h.and hs hc ha).bind fun t masked ht hst hmasked => ?_
  exact h.or ht (h.stable.grow hst hb) hmasked

/-- One step of the priority select. -/
theorem priorityStep (hb : describes s b y) (hc : describes s c z) :
    W.Ensures s (E.priorityStep a b c) fun t d =>
      describes t d (bool.or (bool.and z x) (bool.and y (bool.not x))) := by
  refine (h.and hs hc ha).bind fun t fromCase ht hst hcase => ?_
  refine (h.not ht (h.stable.grow hst ha)).bind fun u na hu htu hna => ?_
  have hsu := W.trans hst htu
  refine (h.and hu (h.stable.grow hsu hb) hna).bind fun v fromLater hv huv hlater => ?_
  exact h.or hv (h.stable.grow (W.trans htu huv) hcase) hlater

end

end Elements

/-! ## Vectors -/

/-- Vectors, element by element. -/
abbrev Vector (describes : S → α → Bool → Prop) (s : S) : List α → List Bool → Prop :=
  List.Forall₂ (describes s)

section Vectors

variable {v w : List α} {x y : List Bool} {vs : List (List α)} {xs : List (List Bool)}

omit hs in
/-- A vector keeps its meaning while the state grows. -/
theorem stable_vector : W.Stable (Vector describes) :=
  World.Stable.list h.stable

/-- A constant. -/
theorem bitsToVector (bits : Bits) :
    Vector describes s (E.bitsToVector bits) (bool.bitsToVector bits) := by
  refine Relational.forall₂_map_same _ fun i => ?_
  split
  · exact h.one hs
  · exact h.zero hs

/-- A constant number, where it fits. -/
theorem uBitsVector (n width : ℕ) {v : List α} (hv : E.uBitsVector n width = some v) :
    ∃ x, bool.uBitsVector n width = some x ∧ Vector describes s v x := by
  obtain ⟨bits, hbits, rfl⟩ := Option.map_eq_some_iff.mp hv
  exact ⟨bool.bitsToVector bits, by rw [Evaluator.uBitsVector, hbits, Option.map_some],
    h.bitsToVector hs bits⟩

variable (hv : Vector describes s v x) (hw : Vector describes s w y)

include hv in
/-- All elements inverted. -/
theorem bitwiseNot :
    W.Ensures s (E.bitwiseNot v) fun t w => Vector describes t w (bool.bitwiseNot x) :=
  World.ensures_mapM h.stable h.stable (fun hs ha => h.not hs ha) hs hv

omit hs in
/-- An operation on two vectors. -/
theorem zipWithM {f : α → α → StateT S Option α} {g : Bool → Bool → Bool}
    (hf : ∀ {s a b x y}, W.Inv s → describes s a x → describes s b y →
      W.Ensures s (f a b) fun t c => describes t c (g x y)) (hs : W.Inv s)
    (hv : Vector describes s v x) (hw : Vector describes s w y) :
    W.Ensures s (v.zipWithM' f w) fun t r => Vector describes t r (x.zipWith g y) :=
  World.ensures_zipWithM h.stable h.stable h.stable hf hs hv hw

omit hs in
/-- An operation on many vectors. -/
theorem naryOp {f : α → α → StateT S Option α} {g : Bool → Bool → Bool}
    (hf : ∀ {s a b x y}, W.Inv s → describes s a x → describes s b y →
      W.Ensures s (f a b) fun t c => describes t c (g x y)) (hs : W.Inv s)
    (hvs : List.Forall₂ (Vector describes s) vs xs) :
    W.Ensures s (StatefulEvaluator.naryOp f vs)
      (World.Meets (Vector describes) (Evaluator.naryOp g xs)) := by
  rcases hvs with _ | ⟨hfront, hrest⟩
  · exact .failure
  refine .ite (fun hle => ?_) fun _ => .failure
  rw [hfront.length_eq, Evaluator.Abstracts.forall_le_length_iff hrest] at hle
  refine (World.ensures_foldlM h.stable_vector (fun hs hc ha => h.zipWithM hf hs hc ha) hs hrest
    hfront).mono fun t r _ _ hr => ?_
  exact ⟨_, if_pos hle, hr⟩

variable (hvs : List.Forall₂ (Vector describes s) vs xs)

section

include hvs

/-- The conjunction of vectors. -/
theorem bitwiseAnd :
    W.Ensures s (E.bitwiseAnd vs) (World.Meets (Vector describes) (bool.bitwiseAnd xs)) :=
  h.naryOp (fun hs ha hb => h.and hs ha hb) hs hvs

/-- The disjunction of vectors. -/
theorem bitwiseOr :
    W.Ensures s (E.bitwiseOr vs) (World.Meets (Vector describes) (bool.bitwiseOr xs)) :=
  h.naryOp (fun hs ha hb => h.or hs ha hb) hs hvs

/-- The exclusive or of vectors. -/
theorem bitwiseXor :
    W.Ensures s (E.bitwiseXor vs) (World.Meets (Vector describes) (bool.bitwiseXor xs)) :=
  h.naryOp (fun hs ha hb => h.xor hs ha hb) hs hvs

end

omit hs in
/-- Pairs of elements. -/
theorem stable_pair :
    W.Stable fun s (p : α × α) (q : Bool × Bool) => describes s p.1 q.1 ∧ describes s p.2 q.2 :=
  ⟨fun hst hp => ⟨h.stable.grow hst hp.1, h.stable.grow hst hp.2⟩⟩

section

include hv

/-! ## Comparisons and reductions -/

include hw in
/-- Equality. -/
theorem equals :
    W.Ensures s (E.equals v w) (World.Meets describes (bool.equals x y)) := by
  refine .ite (fun hlen => ?_) fun _ => .failure
  rw [hv.length_eq, hw.length_eq] at hlen
  refine (World.ensures_foldlM h.stable_pair (fun hs hc hp => h.equalsStep hs hp.1 hp.2 hc) hs
    (Relational.forall₂_zip hv hw) (h.one hs)).mono fun t r _ _ hr => ?_
  exact ⟨_, if_pos hlen, hr⟩

include hw in
/-- The unsigned comparison. -/
theorem uLessThan :
    W.Ensures s (E.uLessThan v w) (World.Meets describes (bool.uLessThan x y)) := by
  refine .ite (fun hlen => ?_) fun _ => .failure
  rw [hv.length_eq, hw.length_eq] at hlen
  have hloop := World.ensures_foldrM (T := fun s (p : α × α) (q : Bool × Bool) =>
    describes s p.1 q.1 ∧ describes s p.2 q.2) h.stable_pair
    (fun hs hc hp => h.uLessThanStep hs hp.1 hp.2 hc.1 hc.2) hs (Relational.forall₂_zip hv hw)
    (c := (E.zero, E.one)) (d := (false, true)) ⟨h.zero hs, h.one hs⟩
  refine hloop.bind fun t r ht _ hr => .pure ht ⟨_, if_pos hlen, hr.1⟩

omit hv in
/-- Zeros on top. -/
theorem zeroExtend (n : ℕ)
    (hv : Vector describes s v x) {r : List α} (hr : E.zeroExtend v n = some r) :
    ∃ z, bool.zeroExtend x n = some z ∧ Vector describes s r z := by
  unfold StatefulEvaluator.zeroExtend at hr
  split at hr
  · rename_i hle
    cases hr
    rw [hv.length_eq] at hle ⊢
    refine ⟨_, if_pos hle, ?_⟩
    exact Evaluator.Abstracts.concat
      (.cons (Relational.forall₂_replicate (h.zero hs) _) (.cons hv .nil))
  · cases hr

/-- The conjunction of the elements. -/
theorem andReduce :
    W.Ensures s (E.andReduce v) fun t r => Vector describes t r (bool.andReduce x) := by
  refine (World.ensures_foldlM h.stable (fun hs hc ha => h.and hs hc ha) hs hv
    (h.one hs)).bind fun t r ht _ hr => .pure ht (.cons hr .nil)

/-- The disjunction of the elements. -/
theorem orReduce :
    W.Ensures s (E.orReduce v) fun t r => Vector describes t r (bool.orReduce x) := by
  refine (World.ensures_foldlM h.stable (fun hs hc ha => h.or hs hc ha) hs hv
    (h.zero hs)).bind fun t r ht _ hr => .pure ht (.cons hr .nil)

/-- The parity of the elements. -/
theorem xorReduce :
    W.Ensures s (E.xorReduce v) fun t r => Vector describes t r (bool.xorReduce x) := by
  refine (World.ensures_foldlM h.stable (fun hs hc ha => h.xorReduceStep hs hc ha) hs hv
    (h.zero hs)).bind fun t r ht _ hr => .pure ht (.cons hr .nil)

omit hv in
/-- The first set element, and whether there is none. -/
theorem oneHotLoop {a b : α} {p q : Bool}
    (ha : describes s a p) (hb : describes s b q) (hv : Vector describes s v x) :
    W.Ensures s (E.oneHotLoop a b v) fun t r =>
      Vector describes t r.1 (bool.oneHotLoop p x).1 ∧ describes t r.2 (bool.oneHotLoop p x).2 := by
  induction v generalizing s a b p q x with
  | nil =>
    rcases hv with _ | _
    exact .pure hs ⟨.nil, ha⟩
  | cons e v ih =>
    rcases hv with _ | ⟨he, hv⟩
    refine (h.and hs ha he).bind fun t pushed ht hst hpushed => ?_
    refine (h.not ht (h.stable.grow hst he)).bind fun u ne hu htu hne => ?_
    have hsu := W.trans hst htu
    refine (h.and hu (h.stable.grow hsu ha) hne).bind fun k allZero hk huk hall => ?_
    have hsk := W.trans hsu huk
    refine (h.or hk (h.stable.grow hsk hb) (h.stable.grow hsk he)).bind fun l anyOne hl hkl hany => ?_
    have hsl := W.trans hsk hkl
    refine (ih hl (h.stable.grow hkl hall) hany (h.stable_vector.grow hsl hv)).bind
      fun m tail hm hlm htail => ?_
    refine .pure hm ⟨.cons (h.stable.grow ?_ hpushed) htail.1, htail.2⟩
    exact W.trans (W.trans htu huk) (W.trans hkl hlm)

/-- One-hot from the least significant element on. -/
theorem oneHotLsbToMsb :
    W.Ensures s (E.oneHotLsbToMsb v) fun t r => Vector describes t r (bool.oneHotLsbToMsb x) := by
  refine (h.oneHotLoop hs (h.one hs) (h.zero hs) hv).bind fun t r ht _ hr => ?_
  exact .pure ht (Relational.forall₂_append hr.1 (.cons hr.2 .nil))

/-- One-hot from the most significant element on. -/
theorem oneHotMsbToLsb :
    W.Ensures s (E.oneHotMsbToLsb v) fun t r => Vector describes t r (bool.oneHotMsbToLsb x) := by
  refine (h.oneHotLoop hs (h.one hs) (h.zero hs) (List.rel_reverse hv)).bind fun t r ht _ hr => ?_
  exact .pure ht (Relational.forall₂_append (List.rel_reverse hr.1) (.cons hr.2 .nil))

end

end Vectors

/-! ## Selects -/

section Selects

variable {v w : List α} {x y : List Bool} {vs : List (List α)} {xs : List (List Bool)}

omit hs in
/-- An element of the selector with its case. -/
theorem stable_case : W.Stable fun s (p : α × List α) (q : Bool × List Bool) =>
      describes s p.1 q.1 ∧ Vector describes s p.2 q.2 :=
  ⟨fun hst hp => ⟨h.stable.grow hst hp.1, h.stable_vector.grow hst hp.2⟩⟩

/-- The conjunction of the cases which are kept. -/
theorem andReduction (keep : List Bool) (width : ℕ)
    (hvs : List.Forall₂ (Vector describes s) vs xs) :
    W.Ensures s (E.andReduction keep vs width) fun t r =>
      Vector describes t r (bool.andReduction keep xs width) := by
  have hkeep : List.Forall₂ (fun k k' : Bool => k = k') keep keep :=
    List.forall₂_same.mpr fun _ _ => rfl
  refine World.ensures_foldlM (R := fun s (p : Bool × List α) (q : Bool × List Bool) =>
      p.1 = q.1 ∧ Vector describes s p.2 q.2)
    ⟨fun hst hp => ⟨hp.1, h.stable_vector.grow hst hp.2⟩⟩ ?_ hs (Relational.forall₂_zip hkeep hvs)
    (Relational.forall₂_replicate (h.one hs) width)
  rintro s c d ⟨k, u⟩ ⟨k', z⟩ hs hc ⟨hk, hu⟩
  cases hk
  rcases k with _ | _
  · exact .pure hs hc
  · exact h.zipWithM (fun hs ha hb => h.and hs ha hb) hs hc hu

/-- The elements of a selector which are not zero include those which are set. -/
theorem le_keep [DecidableEq α] (hv : Vector describes s v x) :
    List.Forall₂ (· ≤ ·) x (v.map fun e => decide (e ≠ E.zero)) := by
  induction hv with
  | nil => exact .nil
  | @cons a b _ _ hab _ ih =>
    refine .cons ?_ ih
    intro hb
    refine decide_eq_true fun ha => h.zero_only hs ?_
    rw [← ha, ← hb]
    exact hab

variable (hv : Vector describes s v x) (hvs : List.Forall₂ (Vector describes s) vs xs)

section

include hv hvs

/-- The disjunction of the selected cases. -/
theorem oneHotResult (width : ℕ) :
    W.Ensures s (E.oneHotResult v vs width) fun t r =>
      Vector describes t r (bool.oneHotResult x xs width) := by
  refine World.ensures_foldlM h.stable_case ?_ hs (Relational.forall₂_zip hv hvs)
    (Relational.forall₂_replicate (h.zero hs) width)
  intro s c d p q hs hc hp
  refine World.ensures_zipWithM (R := fun t a x => describes t a x ∧ describes t p.1 q.1)
    ⟨fun hst hr => ⟨h.stable.grow hst hr.1, h.stable.grow hst hr.2⟩⟩ h.stable h.stable
    (fun hs hr he => h.oneHotStep hs hr.2 hr.1 he) hs (hc.imp fun _ _ ha => ⟨ha, hp.1⟩) hp.2

/-- The first selected case. -/
theorem priorityResult (width : ℕ) :
    W.Ensures s (E.priorityResult v vs width) fun t r =>
      Vector describes t r (bool.priorityResult x xs width) := by
  refine World.ensures_foldrM h.stable_case ?_ hs (Relational.forall₂_zip hv hvs)
    (Relational.forall₂_replicate (h.zero hs) width)
  intro s c d p q hs hc hp
  refine World.ensures_zipWithM (R := fun t a x => describes t a x ∧ describes t p.1 q.1)
    ⟨fun hst hr => ⟨h.stable.grow hst hr.1, h.stable.grow hst hr.2⟩⟩ h.stable h.stable
    (fun hs hr he => h.priorityStep hs hr.2 hr.1 he) hs (hc.imp fun _ _ ha => ⟨ha, hp.1⟩) hp.2

variable [DecidableEq α]

/-- A select is sound when it need not be masked or its concrete selector is not zero. -/
theorem selectInternal {resultE : List α → List (List α) → ℕ → StateT S Option (List α)}
    {resultB : List Bool → List (List Bool) → ℕ → List Bool}
    (hpicks : Picks resultB)
    (hresult : ∀ {s v x vs xs} (n : ℕ), W.Inv s → Vector describes s v x →
      List.Forall₂ (Vector describes s) vs xs →
        W.Ensures s (resultE v vs n) fun t r => Vector describes t r (resultB x xs n))
    (canBeZero : Bool) (hzero : canBeZero = true ∨ true ∈ x) :
    W.Ensures s (E.selectInternal resultE v vs canBeZero)
      (World.Meets (Vector describes) (bool.selectInternal resultB x xs canBeZero)) := by
  rcases hvs with _ | @⟨front, front', rest, rest', hfront, hrest⟩
  · exact .failure
  have hall : List.Forall₂ (Vector describes s) (front :: rest) (front' :: rest') :=
    .cons hfront hrest
  have hspans : List.Forall₂ (Vector describes s) ((front :: rest).map (List.take front.length))
      ((front' :: rest').map (List.take front'.length)) := by
    rw [hfront.length_eq]
    exact List.rel_map (fun _ _ hab => List.forall₂_take _ hab) hall
  refine .ite (fun hcheck => ?_) fun _ => .failure
  rw [hfront.length_eq, Evaluator.Abstracts.forall_le_length_iff hall, hall.length_eq,
    hv.length_eq] at hcheck
  rw [hfront.length_eq] at hspans ⊢
  refine (hresult _ hs hv hspans).bind fun t selected ht hst hselected => ?_
  rcases canBeZero with _ | _
  · have htrue : true ∈ x := by simpa using hzero
    have hmasks := bool_bitwiseOr_masks hpicks hcheck (h.le_keep hs hv) htrue
    refine (h.andReduction ht _ _ (hspans.imp fun _ _ hc => h.stable_vector.grow hst hc)).bind
      fun u mask hu htu hmask => ?_
    refine (h.bitwiseOr hu (.cons hmask (.cons (h.stable_vector.grow htu hselected) .nil))).mono
      fun k r _ _ hr => ?_
    rw [hmasks _ (.inl rfl)] at hr
    obtain ⟨_, ⟨⟩, hr⟩ := hr
    refine ⟨_, ?_, hr⟩
    rw [Evaluator.selectInternal, if_pos hcheck]
    exact hmasks _ (.inr rfl)
  · refine .pure ht ⟨_, ?_, hselected⟩
    rw [Evaluator.selectInternal, if_pos hcheck, if_pos rfl]

/-- A one-hot select whose selector is as it says. -/
theorem oneHotSelect (canBeZero : Bool) (hzero : canBeZero = true ∨ true ∈ x) :
    W.Ensures s (E.oneHotSelect v vs canBeZero)
      (World.Meets (Vector describes) (bool.oneHotSelect x xs canBeZero)) :=
  h.selectInternal hs hv hvs Evaluator.picks_oneHotResult
    (fun n hs hv hvs => h.oneHotResult hs hv hvs n) canBeZero hzero

/-- A priority select whose selector is as it says. -/
theorem prioritySelect (canBeZero : Bool) (hzero : canBeZero = true ∨ true ∈ x) :
    W.Ensures s (E.prioritySelect v vs canBeZero)
      (World.Meets (Vector describes) (bool.prioritySelect x xs canBeZero)) :=
  h.selectInternal hs hv hvs Evaluator.picks_priorityResult
    (fun n hs hv hvs => h.priorityResult hs hv hvs n) canBeZero hzero

end

include hv in
/-- Equality with a constant. -/
theorem equalsConstant (i : ℕ) :
    W.Ensures s (E.equalsConstant v i) (World.Meets describes (bool.equalsConstant x i)) := by
  unfold StatefulEvaluator.equalsConstant
  rw [hv.length_eq]
  refine (World.Ensures.lift (Q := fun _ c => E.uBitsVector i x.length = some c) hs
    fun _ hc => hc).bind fun t constant ht hst hconstant => ?_
  obtain ⟨z, hz, hvec⟩ := h.uBitsVector ht i x.length hconstant
  refine (h.equals ht (h.stable_vector.grow hst hv) hvec).mono fun u r _ _ hr => ?_
  rw [Evaluator.equalsConstant, hz]
  exact hr

include hv in
/-- The comparisons with the constants of a list. -/
theorem mapM_equalsConstant (l : List ℕ) :
    W.Ensures s (l.mapM (E.equalsConstant v))
      (World.Meets (Vector describes) (l.mapM (bool.equalsConstant x))) := by
  induction l generalizing s with
  | nil => exact .pure hs ⟨[], rfl, .nil⟩
  | cons i l ih =>
    rw [List.mapM_cons, List.mapM_cons]
    refine (h.equalsConstant hs hv i).bind fun t r ht hst hr => ?_
    refine (ih ht (h.stable_vector.grow hst hv)).bind fun u rs hu htu hrs => ?_
    obtain ⟨b, hb, hr⟩ := hr
    obtain ⟨bs, hbs, hrs⟩ := hrs
    refine .pure hu ⟨b :: bs, ?_, .cons (h.stable.grow htu hr) hrs⟩
    rw [hb, hbs]
    rfl

include hv hvs in
/-- A select is sound when its concrete selector chooses a case or the default. -/
theorem select [DecidableEq α] {d : Option (List α)} {e : Option (List Bool)}
    (hd : Option.Rel (Vector describes s) d e) (hchoose : Chooses x xs.length e.isSome) :
    W.Ensures s (E.select v vs d) (World.Meets (Vector describes) (bool.select x xs e)) := by
  unfold StatefulEvaluator.select
  rw [hvs.length_eq]
  refine (h.mapM_equalsConstant hs hv _).bind fun t oneHot ht hst honeHot => ?_
  obtain ⟨oneHot', hmap, honeHot⟩ := honeHot
  have hvs' : List.Forall₂ (Vector describes t) vs xs :=
    hvs.imp fun _ _ hc => h.stable_vector.grow hst hc
  have hcase : BoolList.value x < xs.length → true ∈ oneHot' := fun hlt =>
    Evaluator.true_mem_of_mapM hmap (List.mem_range.mpr hlt)
  rcases hd with @⟨d, e, hde⟩ | _
  · refine (World.Ensures.lift (Q := fun _ c => E.uBitsVector _ _ = some c) ht
      fun _ hc => hc).bind fun u last hu htu hlast => ?_
    rw [hv.length_eq] at hlast
    obtain ⟨last', hlast', hvec⟩ := h.uBitsVector hu _ _ hlast
    have hsu := W.trans hst htu
    refine (h.uLessThan hu hvec (h.stable_vector.grow hsu hv)).bind fun k above hk huk habove => ?_
    obtain ⟨above', habove', habove⟩ := habove
    have htk := W.trans htu huk
    have hsome : true ∈ oneHot' ++ [above'] := by
      rcases hchoose with hlt | ⟨_, hle⟩
      · exact List.mem_append_left _ (hcase hlt)
      · -- the selector is past the last case
        obtain ⟨hl, hn⟩ := Evaluator.bool_uBitsVector_inv hlast'
        rw [Evaluator.bool_uLessThan hl, hn, decide_eq_true hle] at habove'
        cases habove'
        exact List.mem_append_right _ List.mem_cons_self
    refine (h.oneHotSelect hk
      (Relational.forall₂_append (h.stable_vector.grow htk honeHot) (.cons habove .nil))
      (Relational.forall₂_append (hvs'.imp fun _ _ hc => h.stable_vector.grow htk hc)
        (.cons (h.stable_vector.grow (W.trans hst htk) hde) .nil)) false (.inr hsome)).mono
      fun l r _ _ hr => ?_
    obtain ⟨b, hb, hr⟩ := hr
    refine ⟨b, ?_, hr⟩
    unfold Evaluator.select
    simp only [hmap, hlast', habove', Option.bind_eq_bind, Option.bind_some]
    exact hb
  · refine (h.oneHotSelect ht honeHot hvs' false (.inr (hcase ?_))).mono fun l r _ _ hr => ?_
    · rcases hchoose with hlt | ⟨hnone, _⟩
      · exact hlt
      · cases hnone
    · obtain ⟨b, hb, hr⟩ := hr
      refine ⟨b, ?_, hr⟩
      unfold Evaluator.select
      simp only [hmap]
      exact hb

/-! ## Codings -/

include hv in
/-- A number as a one-hot vector. -/
theorem decode (width : ℕ) :
    W.Ensures s (E.decode v width) (World.Meets (Vector describes) (bool.decode x width)) :=
  h.mapM_equalsConstant hs hv _

omit hs in
/-- An element with its index. -/
theorem stable_indexed :
    W.Stable fun s (p : α × ℕ) (q : Bool × ℕ) => describes s p.1 q.1 ∧ p.2 = q.2 :=
  ⟨fun hst hp => ⟨h.stable.grow hst hp.1, hp.2⟩⟩

include hv in
/-- The disjunction of the indices which are set. -/
theorem encode :
    W.Ensures s (E.encode v) fun t r => Vector describes t r (bool.encode x) := by
  unfold StatefulEvaluator.encode
  rw [hv.length_eq]
  refine World.ensures_foldlM h.stable_indexed ?_ hs (Relational.forall₂_zipIdx hv 0)
    (Relational.forall₂_replicate (h.zero hs) _)
  rintro s c d ⟨a, i⟩ ⟨b, i'⟩ hs hc ⟨hab, hi⟩
  cases hi
  refine World.ensures_mapM (R := fun t (p : α × ℕ) (q : Bool × ℕ) =>
      (describes t p.1 q.1 ∧ p.2 = q.2) ∧ describes t a b)
    ⟨fun hst hp => ⟨h.stable_indexed.grow hst hp.1, h.stable.grow hst hp.2⟩⟩ h.stable ?_ hs
    ((Relational.forall₂_zipIdx hc 0).imp fun _ _ hp => ⟨hp, hab⟩)
  rintro t ⟨p, j⟩ ⟨q, j'⟩ ht ⟨⟨hpq, hj⟩, hab⟩
  cases hj
  show W.Ensures t (if i.testBit j then E.or p a else Pure.pure p)
    fun t c => describes t c (if i.testBit j then bool.or q b else q)
  split
  · exact h.or ht hpq hab
  · exact .pure ht hpq

end Selects

end Abstracts

end StatefulEvaluator
end Xls
