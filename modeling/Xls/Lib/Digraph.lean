/-
# Finite directed graphs

Searches and closures of finite directed graphs on natural numbers, against
`Relation.TransGen` and `Relation.ReflTransGen`.

* `mem_search` : a depth-first search with an explicit stack finds what is reachable;
* `mem_closure` : Warshall's algorithm computes the transitive closure;
* `exists_rank` : a finite graph without cycles has a topological rank;
* `transGen_insert_iff` : reachability after an edge has been added;
* `transGen_or_last` : the last edge of one kind on a path.
-/
import Mathlib.Logic.Relation
import Mathlib.Data.Finset.Card
import Mathlib.Data.List.Nodup
import Mathlib.Data.List.ProdSigma
import Mathlib.Algebra.BigOperators.Group.Finset.Basic

namespace Digraph

open Relation

/-! ## Paths -/

section Paths

variable {α : Type*} {R S : α → α → Prop} {a b x y : α}

/-- A path which uses a new edge goes to its start and on from its end. -/
theorem transGen_insert_iff : TransGen (fun u v => R u v ∨ (u = a ∧ v = b)) x y ↔
      TransGen R x y ∨ (ReflTransGen R x a ∧ ReflTransGen R b y) := by
  constructor
  · intro h
    induction h with
    | single h =>
      rcases h with h | ⟨rfl, rfl⟩
      · exact .inl (.single h)
      · exact .inr ⟨.refl, .refl⟩
    | tail _ h ih =>
      rcases ih with hxc | ⟨hxa, hbc⟩ <;> rcases h with h | ⟨rfl, rfl⟩
      · exact .inl (hxc.tail h)
      · exact .inr ⟨hxc.to_reflTransGen, .refl⟩
      · exact .inr ⟨hxa, hbc.tail h⟩
      · exact .inr ⟨hxa, .refl⟩
  · have hsub : ∀ u v, R u v → R u v ∨ (u = a ∧ v = b) := fun _ _ => .inl
    rintro (h | ⟨hxa, hby⟩)
    · exact TransGen.mono hsub _ _ h
    · have hxa' := ReflTransGen.mono hsub _ _ hxa
      have hby' := ReflTransGen.mono hsub _ _ hby
      exact (TransGen.tail' hxa' (.inr ⟨rfl, rfl⟩)).trans_left hby'

/-- A path over two kinds of edges has a last edge of the second kind, if any. -/
theorem transGen_or_last (h : TransGen (fun u v => R u v ∨ S u v) x y) :
    TransGen R x y ∨ ∃ u v, S u v ∧ ReflTransGen (fun u v => R u v ∨ S u v) x u ∧
      ReflTransGen R v y := by
  induction h with
  | single h =>
    rcases h with h | h
    · exact .inl (.single h)
    · exact .inr ⟨x, _, h, .refl, .refl⟩
  | tail hxb h ih =>
    rcases h with h | h
    · rcases ih with hR | ⟨u, v, huv, hxu, hvb⟩
      · exact .inl (hR.tail h)
      · exact .inr ⟨u, v, huv, hxu, hvb.tail h⟩
    · exact .inr ⟨_, _, h, hxb.to_reflTransGen, .refl⟩

end Paths

/-! ## Ranks -/

/-- A finite graph without cycles has a rank which grows along its edges. -/
theorem exists_rank {α : Type*} {R : α → α → Prop} (V : Finset α) (hV : ∀ {a b}, R a b → a ∈ V)
    (hacyclic : ∀ x, ¬ TransGen R x x) :
    ∃ rank : α → ℕ, (∀ {a b}, R a b → rank a < rank b) ∧ ∀ {a}, a ∈ V → rank a < V.card := by
  classical
  refine ⟨fun x => (V.filter fun a => TransGen R a x).card, ?_, ?_⟩
  · intro a b hab
    refine Finset.card_lt_card ⟨?_, ?_⟩
    · intro x hx
      rw [Finset.mem_filter] at hx ⊢
      exact ⟨hx.1, hx.2.tail hab⟩
    · intro hsub
      have ha : a ∈ V.filter fun x => TransGen R x b :=
        Finset.mem_filter.mpr ⟨hV hab, .single hab⟩
      exact hacyclic a (Finset.mem_filter.mp (hsub ha)).2
  · intro a ha
    refine Finset.card_lt_card ⟨Finset.filter_subset _ _, fun hsub => ?_⟩
    exact hacyclic a (Finset.mem_filter.mp (hsub ha)).2

/-- A rank which grows along the edges excludes cycles. -/
theorem acyclic_of_rank {α : Type*} {R : α → α → Prop} (rank : α → ℕ)
    (h : ∀ {a b}, R a b → rank a < rank b) (x : α) : ¬ TransGen R x x := by
  have hlt : ∀ {a b}, TransGen R a b → rank a < rank b := by
    intro a b hab
    induction hab with
    | single hab => exact h hab
    | tail _ hbc ih => exact ih.trans (h hbc)
  intro hx
  exact absurd (hlt hx) (lt_irrefl _)

/-! ## Depth-first search -/

section Search

variable (succ : ℕ → List ℕ)

/-- The search pops the stack, skips what has been discovered and pushes the successors
of what has not. -/
def searchFrom : ℕ → List ℕ → List ℕ → List ℕ
  | 0, _, discovered => discovered
  | _ + 1, [], discovered => discovered
  | fuel + 1, popped :: stack, discovered =>
    if popped ∈ discovered then searchFrom fuel stack discovered
    else searchFrom fuel (succ popped ++ stack) (popped :: discovered)

/-- The pops still to come: the stack and the successors of all nodes which have not been
discovered. -/
def pending (n : ℕ) (stack discovered : List ℕ) : ℕ :=
  stack.length + ∑ x ∈ Finset.range n, if x ∈ discovered then 0 else (succ x).length

/-- The search from a root, with enough fuel for `n` nodes. -/
def search (n : ℕ) (root : ℕ) : List ℕ := searchFrom succ (pending succ n [root] [] + 1) [root] []

variable {succ} {n : ℕ}

theorem pending_discover {x : ℕ} (stack : List ℕ) {discovered : List ℕ} (hn : ∀ x, n ≤ x → succ x = [])
    (hx : x ∉ discovered) :
    pending succ n (succ x ++ stack) (x :: discovered) + 1 =
      pending succ n (x :: stack) discovered := by
  unfold pending
  rw [List.length_append, List.length_cons]
  by_cases hlt : x < n
  · have hmem : x ∈ Finset.range n := Finset.mem_range.mpr hlt
    rw [← Finset.add_sum_erase _ _ hmem, ← Finset.add_sum_erase _ (fun y =>
      if y ∈ discovered then 0 else (succ y).length) hmem]
    have hrest : ∑ y ∈ (Finset.range n).erase x, (if y ∈ x :: discovered then 0
        else (succ y).length) =
        ∑ y ∈ (Finset.range n).erase x, if y ∈ discovered then 0 else (succ y).length := by
      refine Finset.sum_congr rfl fun y hy => ?_
      simp [(Finset.mem_erase.mp hy).1]
    rw [if_pos List.mem_cons_self, if_neg hx]
    omega
  · have hrest : ∑ y ∈ Finset.range n, (if y ∈ x :: discovered then 0 else (succ y).length) =
        ∑ y ∈ Finset.range n, if y ∈ discovered then 0 else (succ y).length := by
      refine Finset.sum_congr rfl fun y hy => ?_
      have hne : y ≠ x := by
        rintro rfl
        exact hlt (Finset.mem_range.mp hy)
      simp [hne]
    rw [hn x (by omega), List.length_nil]
    omega

/-- The result contains what has been discovered and what is on the stack, and is closed
under successors as far as the state is. -/
theorem searchFrom_closed (hn : ∀ x, n ≤ x → succ x = []) (fuel : ℕ) :
    ∀ (stack discovered : List ℕ), pending succ n stack discovered < fuel →
      (∀ x ∈ discovered, ∀ y ∈ succ x, y ∈ discovered ∨ y ∈ stack) →
      (∀ x, x ∈ discovered ∨ x ∈ stack → x ∈ searchFrom succ fuel stack discovered) ∧
      ∀ x ∈ searchFrom succ fuel stack discovered, ∀ y ∈ succ x,
        y ∈ searchFrom succ fuel stack discovered := by
  induction fuel with
  | zero => intro stack discovered h; omega
  | succ fuel ih =>
    intro stack discovered hfuel hclosed
    rcases stack with _ | ⟨popped, stack⟩
    · constructor
      · rintro x (hx | hx)
        · exact hx
        · cases hx
      · intro x hx y hy
        rcases hclosed x hx y hy with h | h
        · exact h
        · cases h
    · rw [searchFrom]
      split
      · rename_i hmem
        have hless : pending succ n stack discovered < fuel := by
          unfold pending at hfuel ⊢
          rw [List.length_cons] at hfuel
          omega
        obtain ⟨hin, hout⟩ := ih stack discovered hless fun x hx y hy => by
          rcases hclosed x hx y hy with h | h
          · exact .inl h
          · rcases List.mem_cons.mp h with rfl | h
            · exact .inl hmem
            · exact .inr h
        refine ⟨?_, hout⟩
        rintro x (hx | hx)
        · exact hin x (.inl hx)
        · rcases List.mem_cons.mp hx with rfl | hx
          · exact hin x (.inl hmem)
          · exact hin x (.inr hx)
      · rename_i hmem
        have hless := pending_discover stack hn hmem
        obtain ⟨hin, hout⟩ := ih (succ popped ++ stack) (popped :: discovered) (by omega)
          fun x hx y hy => by
            rcases List.mem_cons.mp hx with rfl | hx
            · exact .inr (List.mem_append_left _ hy)
            · rcases hclosed x hx y hy with h | h
              · exact .inl (List.mem_cons_of_mem _ h)
              · rcases List.mem_cons.mp h with rfl | h
                · exact .inl List.mem_cons_self
                · exact .inr (List.mem_append_right _ h)
        refine ⟨?_, hout⟩
        rintro x (hx | hx)
        · exact hin x (.inl (List.mem_cons_of_mem _ hx))
        · rcases List.mem_cons.mp hx with rfl | hx
          · exact hin x (.inl List.mem_cons_self)
          · exact hin x (.inr (List.mem_append_right _ hx))

/-- The search finds only what is reachable. -/
theorem searchFrom_sound (P : ℕ → Prop) (hP : ∀ x, P x → ∀ y ∈ succ x, P y) (fuel : ℕ) :
    ∀ (stack discovered : List ℕ), (∀ x ∈ stack, P x) → (∀ x ∈ discovered, P x) →
      ∀ x ∈ searchFrom succ fuel stack discovered, P x := by
  induction fuel with
  | zero => intro stack discovered _ hd; exact hd
  | succ fuel ih =>
    intro stack discovered hs hd
    rcases stack with _ | ⟨popped, stack⟩
    · exact hd
    · rw [searchFrom]
      have hpopped := hs popped List.mem_cons_self
      split
      · exact ih stack discovered (fun x hx => hs x (List.mem_cons_of_mem _ hx)) hd
      · refine ih _ _ ?_ ?_
        · intro x hx
          rcases List.mem_append.mp hx with hx | hx
          · exact hP popped hpopped x hx
          · exact hs x (List.mem_cons_of_mem _ hx)
        · intro x hx
          rcases List.mem_cons.mp hx with rfl | hx
          · exact hpopped
          · exact hd x hx

/-- The search finds exactly what is reachable from the root. -/
theorem mem_search (hn : ∀ x, n ≤ x → succ x = []) {root x : ℕ} :
    x ∈ search succ n root ↔ ReflTransGen (fun a b => b ∈ succ a) root x := by
  obtain ⟨hin, hclosed⟩ := searchFrom_closed hn (pending succ n [root] [] + 1) [root] []
    (Nat.lt_succ_self _) (by simp)
  constructor
  · refine searchFrom_sound (fun x => ReflTransGen (fun a b => b ∈ succ a) root x)
      (fun x hx y hy => hx.tail hy) _ [root] [] ?_ (by simp) x
    intro y hy
    rw [List.mem_singleton.mp hy]
  · intro h
    induction h with
    | refl => exact hin root (.inr List.mem_cons_self)
    | tail _ hbc ih => exact hclosed _ ih _ hbc

end Search

/-! ## Warshall's algorithm -/

section Warshall

/-- A relation as the list of its pairs. -/
abbrev Pairs := List (ℕ × ℕ)

/-- The nodes of a relation. -/
def nodes (relation : Pairs) : List ℕ := (relation.flatMap fun p => [p.1, p.2]).dedup

/-- One round: the pairs already there and those which are connected by way of `k`. -/
def warshallRound (ordered : List ℕ) (lag : Pairs) (k : ℕ) : Pairs :=
  (ordered.product ordered).filter fun p =>
    lag.contains (p.1, p.2) || (lag.contains (p.1, k) && lag.contains (k, p.2))

/-- Warshall's algorithm, in any order of the nodes. -/
def warshall (ordered : List ℕ) (relation : Pairs) : Pairs :=
  ordered.foldl (warshallRound ordered) relation

/-- The transitive closure. -/
def closure (relation : Pairs) : Pairs :=
  if relation.isEmpty then [] else warshall (nodes relation) relation

/-- Paths with all inner nodes in a set. -/
inductive Via (R : ℕ → ℕ → Prop) (inner : ℕ → Prop) : ℕ → ℕ → Prop
  | edge {x y} : R x y → Via R inner x y
  | join {x k y} : Via R inner x k → inner k → Via R inner k y → Via R inner x y

theorem Via.mono {R : ℕ → ℕ → Prop} {P Q : ℕ → Prop} (hPQ : ∀ k, P k → Q k) {x y : ℕ}
    (h : Via R P x y) : Via R Q x y := by
  induction h with
  | edge h => exact .edge h
  | join _ hk _ ih₁ ih₂ => exact .join ih₁ (hPQ _ hk) ih₂

/-- With one more inner node, a path passes it at most once. -/
theorem via_insert {R : ℕ → ℕ → Prop} {P : ℕ → Prop} {k x y : ℕ}
    (h : Via R (fun m => P m ∨ m = k) x y) : Via R P x y ∨ (Via R P x k ∧ Via R P k y) := by
  induction h with
  | edge h => exact .inl (.edge h)
  | join _ hm _ ih₁ ih₂ =>
    rcases hm with hm | rfl
    · rcases ih₁ with h₁ | ⟨h₁, h₁'⟩ <;> rcases ih₂ with h₂ | ⟨h₂, h₂'⟩
      · exact .inl (h₁.join hm h₂)
      · exact .inr ⟨h₁.join hm h₂, h₂'⟩
      · exact .inr ⟨h₁, h₁'.join hm h₂⟩
      · exact .inr ⟨h₁, h₂'⟩
    · rcases ih₁ with h₁ | ⟨h₁, -⟩ <;> rcases ih₂ with h₂ | ⟨-, h₂⟩ <;> exact .inr ⟨h₁, h₂⟩

theorem mem_warshallRound {ordered : List ℕ} {lag : Pairs} {k x y : ℕ} :
    (x, y) ∈ warshallRound ordered lag k ↔ (x ∈ ordered ∧ y ∈ ordered) ∧
      ((x, y) ∈ lag ∨ ((x, k) ∈ lag ∧ (k, y) ∈ lag)) := by
  rw [warshallRound]
  simp

/-- After the rounds for some nodes, the pairs are the paths through these nodes. -/
theorem mem_foldl_warshallRound {R : ℕ → ℕ → Prop} {ordered : List ℕ}
    (hR : ∀ {x y}, R x y → x ∈ ordered ∧ y ∈ ordered) (ks : List ℕ) :
    ∀ (P : ℕ → Prop) (lag : Pairs), (∀ x y, (x, y) ∈ lag ↔ Via R P x y) →
      ∀ x y, (x, y) ∈ ks.foldl (warshallRound ordered) lag ↔ Via R (fun m => P m ∨ m ∈ ks) x y := by
  have hends : ∀ {P : ℕ → Prop} {x y}, Via R P x y → x ∈ ordered ∧ y ∈ ordered := by
    intro P x y h
    induction h with
    | edge h => exact hR h
    | join _ _ _ ih₁ ih₂ => exact ⟨ih₁.1, ih₂.2⟩
  induction ks with
  | nil => intro P lag hlag x y; simpa using hlag x y
  | cons k ks ih =>
    intro P lag hlag x y
    rw [List.foldl_cons, ih (fun m => P m ∨ m = k) _ ?_ x y]
    · constructor <;> refine Via.mono fun m hm => ?_
      · rcases hm with (hm | rfl) | hm
        · exact .inl hm
        · exact .inr List.mem_cons_self
        · exact .inr (List.mem_cons_of_mem _ hm)
      · rcases hm with hm | hm
        · exact .inl (.inl hm)
        · rcases List.mem_cons.mp hm with rfl | hm
          · exact .inl (.inr rfl)
          · exact .inr hm
    · intro u v
      rw [mem_warshallRound, hlag, hlag, hlag]
      constructor
      · rintro ⟨-, h | ⟨h₁, h₂⟩⟩
        · exact h.mono fun _ => .inl
        · exact (h₁.mono fun _ => .inl).join (.inr rfl) (h₂.mono fun _ => .inl)
      · intro h
        exact ⟨hends h, via_insert h⟩

theorem mem_nodes {relation : Pairs} {x y : ℕ} (h : (x, y) ∈ relation) :
    x ∈ nodes relation ∧ y ∈ nodes relation := by
  unfold nodes
  rw [List.mem_dedup, List.mem_dedup]
  constructor <;> exact List.mem_flatMap.mpr ⟨(x, y), h, by simp⟩

/-- The pairs of the closure are the paths of the relation. -/
theorem mem_closure {relation : Pairs} {x y : ℕ} :
    (x, y) ∈ closure relation ↔ TransGen (fun a b => (a, b) ∈ relation) x y := by
  have hvia : ∀ x y, (x, y) ∈ warshall (nodes relation) relation ↔
      Via (fun a b => (a, b) ∈ relation) (fun m => False ∨ m ∈ nodes relation) x y := by
    refine mem_foldl_warshallRound (fun h => mem_nodes h) (nodes relation) (fun _ => False)
      relation fun u v => ⟨fun h => .edge h, fun h => ?_⟩
    induction h with
    | edge h => exact h
    | join _ hk _ _ _ => exact hk.elim
  have hclosure : (x, y) ∈ closure relation ↔ (x, y) ∈ warshall (nodes relation) relation := by
    unfold closure
    split
    · rename_i hempty
      rw [List.isEmpty_iff.mp hempty]
      simp [warshall, nodes]
    · exact Iff.rfl
  rw [hclosure, hvia]
  clear hclosure hvia
  constructor
  · intro h
    induction h with
    | edge h => exact .single h
    | join _ _ _ ih₁ ih₂ => exact ih₁.trans ih₂
  · intro h
    induction h with
    | single h => exact .edge h
    | tail hab hbc ih => exact ih.join (.inr (mem_nodes hbc).1) (.edge hbc)

end Warshall

end Digraph
