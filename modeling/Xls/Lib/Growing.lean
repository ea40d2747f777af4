/-
# Programs on a state which only grows

A program which may fail and which changes a state on its way: a table which gets entries, say,
and whose entries stay.  `World.Ensures` says what holds when the program returns.  What is known
of the values found so far must survive the growth of the state (`World.Stable`); then a program
can be followed step by step next to a pure one, each list loop by one rule.

* `World.Ensures.bind` : one step after the other;
* `World.ensures_foldlM`, `ensures_foldrM`, `ensures_mapM`, `ensures_zipWithM` : the loops.
-/
import Mathlib.Data.List.Forall2
import Mathlib.Data.List.Basic

/-- States with an invariant, and an order in which they grow. -/
structure World (S : Type*) where
  Inv : S → Prop
  Le : S → S → Prop
  refl : ∀ s, Le s s
  trans : ∀ {s t u}, Le s t → Le t u → Le s u

namespace World

universe u

variable {S : Type u} {W : World S} {α β γ δ ε ζ : Type u}

/-- When the program returns, the state keeps its invariant and has grown, and the result is as
described. -/
def Ensures (W : World S) (s : S) (x : StateT S Option α) (Q : S → α → Prop) : Prop :=
  ∀ a s', x s = some (a, s') → W.Inv s' ∧ W.Le s s' ∧ Q s' a

/-- A relation which survives the growth of the state. -/
structure Stable (W : World S) (R : S → α → β → Prop) : Prop where
  grow : ∀ {s t a b}, W.Le s t → R s a b → R t a b

/-- The result is related to that of a pure program, which succeeds as well. -/
def Meets (R : S → α → β → Prop) (y : Option β) : S → α → Prop :=
  fun s a => ∃ b, y = some b ∧ R s a b

variable {s : S} {Q : S → α → Prop} {x : StateT S Option α}

theorem Ensures.pure {a : α} (hs : W.Inv s) (ha : Q s a) : W.Ensures s (Pure.pure a) Q := by
  rintro b t ⟨⟩
  exact ⟨hs, W.refl s, ha⟩

theorem Ensures.bind {f : α → StateT S Option β} {R : S → β → Prop} (hx : W.Ensures s x Q)
    (hf : ∀ t a, W.Inv t → W.Le s t → Q t a → W.Ensures t (f a) R) : W.Ensures s (x >>= f) R := by
  intro b u hrun
  obtain ⟨⟨a, t⟩, hxt, hfu⟩ := Option.bind_eq_some_iff.mp hrun
  obtain ⟨ht, hst, ha⟩ := hx a t hxt
  obtain ⟨hu, htu, hb⟩ := hf t a ht hst ha b u hfu
  exact ⟨hu, W.trans hst htu, hb⟩

theorem Ensures.mono {R : S → α → Prop} (hx : W.Ensures s x Q)
    (h : ∀ t a, W.Inv t → W.Le s t → Q t a → R t a) : W.Ensures s x R := by
  intro a t hrun
  obtain ⟨ht, hst, ha⟩ := hx a t hrun
  exact ⟨ht, hst, h t a ht hst ha⟩

theorem Ensures.failure : W.Ensures s (Alternative.failure : StateT S Option α) Q := by
  intro a t hrun
  cases hrun

/-- A step which does not touch the state. -/
theorem Ensures.lift {o : Option α} (hs : W.Inv s) (h : ∀ a, o = some a → Q s a) :
    W.Ensures s (StateT.lift o) Q := by
  intro b t hrun
  obtain ⟨a, ha, heq⟩ := Option.bind_eq_some_iff.mp hrun
  cases heq
  exact ⟨hs, W.refl s, h _ ha⟩

theorem Ensures.ite {p : Prop} [Decidable p] {y : StateT S Option α} (hx : p → W.Ensures s x Q)
    (hy : ¬ p → W.Ensures s y Q) : W.Ensures s (if p then x else y) Q := by
  by_cases hp : p
  · rw [if_pos hp]
    exact hx hp
  · rw [if_neg hp]
    exact hy hp

/-- A program which meets a pure one whose result is known. -/
theorem Ensures.of_meets {R : S → α → β → Prop} {y : Option β} {c : β}
    (hx : W.Ensures s x (Meets R y)) (hy : ∀ b, y = some b → b = c) :
    W.Ensures s x fun t a => R t a c := by
  refine hx.mono fun t a _ _ ha => ?_
  obtain ⟨b, hb, hab⟩ := ha
  rw [← hy b hb]
  exact hab

/-- Related lists stay related. -/
theorem Stable.list {R : S → α → β → Prop} (hR : W.Stable R) :
    W.Stable fun s => List.Forall₂ (R s) :=
  ⟨fun hst has => has.imp fun _ _ => hR.grow hst⟩

section Loops

variable {R : S → α → β → Prop} {T : S → γ → δ → Prop} {V : S → ε → ζ → Prop}

variable {as : List α} {bs : List β}

theorem ensures_foldlM (hR : W.Stable R) {f : γ → α → StateT S Option γ} {g : δ → β → δ}
    (hf : ∀ {s c d a b}, W.Inv s → T s c d → R s a b →
      W.Ensures s (f c a) fun t c' => T t c' (g d b)) {s : S} (hs : W.Inv s)
    (has : List.Forall₂ (R s) as bs) {c : γ} {d : δ} (hcd : T s c d) :
    W.Ensures s (as.foldlM f c) fun t c' => T t c' (bs.foldl g d) := by
  induction as generalizing s bs c d with
  | nil =>
    rcases has with _ | _
    exact .pure hs hcd
  | cons a as ih =>
    rcases has with _ | ⟨hab, has⟩
    refine (hf hs hcd hab).bind fun t c' ht hst hc => ?_
    exact ih ht (hR.list.grow hst has) hc

theorem ensures_foldrM (hR : W.Stable R) {f : α → γ → StateT S Option γ} {g : β → δ → δ}
    (hf : ∀ {s c d a b}, W.Inv s → T s c d → R s a b →
      W.Ensures s (f a c) fun t c' => T t c' (g b d)) {s : S} (hs : W.Inv s)
    (has : List.Forall₂ (R s) as bs) {c : γ} {d : δ} (hcd : T s c d) :
    W.Ensures s (as.foldrM f c) fun t c' => T t c' (bs.foldr g d) := by
  induction as generalizing s bs with
  | nil =>
    rcases has with _ | _
    exact .pure hs hcd
  | cons a as ih =>
    rcases has with _ | ⟨hab, has⟩
    rw [List.foldrM_cons]
    exact (ih hs has hcd).bind fun t c' ht hst hc => hf ht hc (hR.grow hst hab)

theorem ensures_mapM (hR : W.Stable R) (hT : W.Stable T) {f : α → StateT S Option γ} {g : β → δ}
    (hf : ∀ {s a b}, W.Inv s → R s a b → W.Ensures s (f a) fun t c => T t c (g b)) {s : S}
    (hs : W.Inv s) (has : List.Forall₂ (R s) as bs) :
    W.Ensures s (as.mapM f) fun t cs => List.Forall₂ (T t) cs (bs.map g) := by
  induction as generalizing s bs with
  | nil =>
    rcases has with _ | _
    exact .pure hs .nil
  | cons a as ih =>
    rcases has with _ | ⟨hab, has⟩
    rw [List.mapM_cons]
    refine (hf hs hab).bind fun t c ht hst hc => ?_
    refine (ih ht (hR.list.grow hst has)).bind fun u cs hu htu hcs => ?_
    exact .pure hu (.cons (hT.grow htu hc) hcs)

theorem ensures_zipWithM (hR : W.Stable R) (hT : W.Stable T) (hV : W.Stable V)
    {f : α → γ → StateT S Option ε} {g : β → δ → ζ}
    (hf : ∀ {s a b c d}, W.Inv s → R s a b → T s c d →
      W.Ensures s (f a c) fun t e => V t e (g b d)) {s : S} (hs : W.Inv s)
    (has : List.Forall₂ (R s) as bs) {cs : List γ} {ds : List δ} (hcs : List.Forall₂ (T s) cs ds) :
    W.Ensures s (as.zipWithM' f cs) fun t es => List.Forall₂ (V t) es (bs.zipWith g ds) := by
  induction as generalizing s bs cs ds with
  | nil =>
    rcases has with _ | _
    exact .pure hs .nil
  | cons a as ih =>
    rcases has with _ | ⟨hab, has⟩
    rcases hcs with _ | ⟨hcd, hcs⟩
    · exact .pure hs .nil
    · refine (hf hs hab hcd).bind fun t e ht hst he => ?_
      refine (ih ht (hR.list.grow hst has) (hT.list.grow hst hcs)).bind fun u es hu htu hes => ?_
      exact .pure hu (.cons (hV.grow htu he) hes)

end Loops

end World
