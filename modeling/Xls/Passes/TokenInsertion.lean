/-
# Inserting a token edge

One step of the token dependency pass: a tuple index takes the token of a receive, an
`after_all` joins it with an input of an effect, and the effect waits for the `after_all`.

* `Inserted` : what the step does to the nodes;
* `Proc.Extends` : what later passes may rely on: the old nodes keep their operations, types
  and data dependencies, there are no cycles, and the tokens are ordered by the old
  dependencies and the new edges;
* `Inserted.extends`, `Proc.Extends.insert` : one step, and one more step.
-/
import Xls.Passes.TokenDependencyPass

namespace Xls
namespace TokenGraph

open Verifier Relation Digraph

/-! ## The nodes after the step -/

/-- What an insertion does to the nodes. -/
structure Inserted (p q : Proc) (io receive input : ℕ) : Prop where
  length_eq : q.nodes.length = p.nodes.length + 2
  old : ∀ n, n < p.nodes.length → n ≠ io → q.nodes[n]? = p.nodes[n]?
  rewired : q.nodes[io]? = p.nodes[io]?.map fun node =>
    node.replaceOperand input (p.nodes.length + 1)
  receiveToken : q.nodes[p.nodes.length]? =
    some { op := .tupleIndex 0, type := .token, operands := [receive] }
  newToken : q.nodes[p.nodes.length + 1]? =
    some { op := .afterAll, type := .token, operands := [p.nodes.length, input] }

variable {p q : Proc} {io receive input : ℕ}

theorem exists_inserted (input : ℕ) {types : List Ty} (hio : io < p.nodes.length)
    (hreceive : p.typeOf receive = some (.tuple (.token :: types))) :
    ∃ q, p.makeReceiveToken receive input = some q ∧
      Inserted p (q.replaceOperand io input (p.nodes.length + 1)).2 io receive input := by
  have hmake : p.makeTupleIndex receive 0 = some (p.makeNode
      { op := .tupleIndex 0, type := .token, operands := [receive] }) := by
    rw [Proc.makeTupleIndex, hreceive]
    rfl
  refine ⟨_, by rw [Proc.makeReceiveToken, hmake]; rfl, ?_⟩
  constructor
  · simp [Proc.replaceOperand, Proc.makeNode]
  · intro n hn hne
    have hne' : ¬ io = n := fun h => hne h.symm
    simp [Proc.replaceOperand, Proc.makeNode, hne', List.getElem?_append_left hn]
  · simp [Proc.replaceOperand, Proc.makeNode, List.getElem?_append_left hio]
  · have hne : ¬ io = p.nodes.length := by omega
    simp [Proc.replaceOperand, Proc.makeNode, hne]
  · have hne : ¬ io = p.nodes.length + 1 := by omega
    simp [Proc.replaceOperand, Proc.makeNode, hne]

namespace Inserted

variable (h : Inserted p q io receive input)
include h

variable {n : ℕ} {types : List Ty}

theorem opOf (hn : n < p.nodes.length) : q.opOf n = p.opOf n := by
  rw [Proc.opOf, Proc.opOf]
  by_cases hne : n = io
  · rw [hne, h.rewired, Option.map_map]
    rfl
  · rw [h.old n hn hne]

theorem typeOf (hn : n < p.nodes.length) : q.typeOf n = p.typeOf n := by
  rw [Proc.typeOf, Proc.typeOf]
  by_cases hne : n = io
  · rw [hne, h.rewired, Option.map_map]
    rfl
  · rw [h.old n hn hne]

theorem operands_io : q.operands io =
    (p.operands io).map fun c => if c = input then p.nodes.length + 1 else c := by
  rw [Proc.operands, Proc.operands, h.rewired]
  rcases p.nodes[io]? with _ | node
  · rfl
  · rfl

theorem operands_old (hn : n < p.nodes.length) (hne : n ≠ io) : q.operands n = p.operands n := by
  rw [Proc.operands, Proc.operands, h.old n hn hne]

theorem operands_receiveToken : q.operands p.nodes.length = [receive] := by
  rw [Proc.operands, h.receiveToken]
  rfl

theorem operands_newToken : q.operands (p.nodes.length + 1) = [p.nodes.length, input] := by
  rw [Proc.operands, h.newToken]
  rfl

variable (hp : p.Acyclic) (hops : p.OperandsExist) (hinput : p.DataDep input io)
  (hdep : TransGen p.DataDep receive io)

include hops hinput in
/-- The edges of the graph after an insertion. -/
theorem dataDep_iff {a b : ℕ} :
    q.DataDep a b ↔ (p.DataDep a b ∧ ¬ (a = input ∧ b = io)) ∨
      (a = receive ∧ b = p.nodes.length) ∨ (a = p.nodes.length ∧ b = p.nodes.length + 1) ∨
      (a = input ∧ b = p.nodes.length + 1) ∨ (a = p.nodes.length + 1 ∧ b = io) := by
  have hio := Proc.lt_length_of_dataDep hinput
  have hold : ∀ {b}, p.DataDep a b → a < p.nodes.length ∧ b < p.nodes.length := fun hab =>
    ⟨hops _ _ hab, Proc.lt_length_of_dataDep hab⟩
  rcases Nat.lt_trichotomy b p.nodes.length with hb | rfl | hb
  · by_cases hne : b = io
    · subst hne
      rw [Proc.DataDep, h.operands_io, List.mem_map]
      constructor
      · rintro ⟨c, hc, rfl⟩
        split
        · exact .inr (.inr (.inr (.inr ⟨rfl, rfl⟩)))
        · rename_i hci
          exact .inl ⟨hc, fun hand => hci hand.1⟩
      · rintro (⟨hab, hni⟩ | ⟨-, hb'⟩ | ⟨-, hb'⟩ | ⟨-, hb'⟩ | ⟨rfl, -⟩)
        · exact ⟨a, hab, if_neg fun ha => hni ⟨ha, rfl⟩⟩
        · omega
        · omega
        · omega
        · exact ⟨input, hinput, if_pos rfl⟩
    · rw [Proc.DataDep, h.operands_old hb hne]
      constructor
      · intro hab
        exact .inl ⟨hab, fun hand => hne hand.2⟩
      · rintro (⟨hab, -⟩ | ⟨-, hb'⟩ | ⟨-, hb'⟩ | ⟨-, hb'⟩ | ⟨-, hb'⟩)
        · exact hab
        · omega
        · omega
        · omega
        · exact absurd hb' hne
  · rw [Proc.DataDep, h.operands_receiveToken, List.mem_singleton]
    constructor
    · intro ha
      exact .inr (.inl ⟨ha, rfl⟩)
    · rintro (⟨hab, -⟩ | ⟨ha, -⟩ | ⟨-, hb'⟩ | ⟨-, hb'⟩ | ⟨-, hb'⟩)
      · exact absurd (hold hab).2 (lt_irrefl _)
      · exact ha
      · omega
      · omega
      · omega
  · have hnone : ¬ p.DataDep a b := fun hab => by
      have := (hold hab).2
      omega
    by_cases hb' : b = p.nodes.length + 1
    · subst hb'
      rw [Proc.DataDep, h.operands_newToken]
      constructor
      · intro ha
        rcases List.mem_cons.mp ha with rfl | ha
        · exact .inr (.inr (.inl ⟨rfl, rfl⟩))
        · exact .inr (.inr (.inr (.inl ⟨List.mem_singleton.mp ha, rfl⟩)))
      · rintro (⟨hab, -⟩ | ⟨-, hb''⟩ | ⟨rfl, -⟩ | ⟨rfl, -⟩ | ⟨-, hb''⟩)
        · exact absurd hab hnone
        · omega
        · exact List.mem_cons_self
        · exact List.mem_cons_of_mem _ List.mem_cons_self
        · omega
    · have hlen := h.length_eq
      constructor
      · intro hab
        have := Proc.lt_length_of_dataDep hab
        omega
      · rintro (⟨hab, -⟩ | ⟨-, hb''⟩ | ⟨-, hb''⟩ | ⟨-, hb''⟩ | ⟨-, hb''⟩)
        · exact absurd hab hnone
        all_goals omega

/-! ## Cycles and data dependencies -/

include hp hops hinput hdep in
/-- The new edges fit into the order of the graph. -/
theorem acyclic : q.Acyclic := by
  obtain ⟨rank, hrank, -⟩ := exists_rank hp hops
  have hpath : ∀ {a b}, TransGen p.DataDep a b → rank a < rank b := by
    intro a b hab
    induction hab with
    | single hab => exact hrank hab
    | tail _ hbc ih => exact ih.trans (hrank hbc)
  have hlt := hpath hdep
  have hlt' := hrank hinput
  have hio := Proc.lt_length_of_dataDep hinput
  have hin := hops _ _ hinput
  have hre : receive < p.nodes.length := by
    obtain ⟨c, hc, -⟩ := TransGen.head'_iff.mp hdep
    exact hops _ _ hc
  refine acyclic_of_rank (fun n =>
    if n = p.nodes.length then 3 * rank receive + 1
    else if n = p.nodes.length + 1 then max (3 * rank receive + 2) (3 * rank input + 1)
    else 3 * rank n) ?_
  intro a b hab
  rcases (h.dataDep_iff hops hinput).mp hab with
    ⟨hab, -⟩ | ⟨rfl, rfl⟩ | ⟨rfl, rfl⟩ | ⟨rfl, rfl⟩ | ⟨rfl, rfl⟩
  · have ha := hops _ _ hab
    have hb := Proc.lt_length_of_dataDep hab
    have := hrank hab
    rw [if_neg (by omega), if_neg (by omega), if_neg (by omega), if_neg (by omega)]
    omega
  · rw [if_neg (by omega), if_neg (by omega), if_pos rfl]
    omega
  · rw [if_pos rfl, if_neg (by omega), if_pos rfl]
    omega
  · rw [if_neg (by omega), if_neg (by omega), if_neg (by omega), if_pos rfl]
    omega
  · rw [if_neg (by omega), if_pos rfl, if_neg (by omega), if_neg (by omega)]
    omega

include hops hinput in
theorem operandsExist (hreceive : receive < p.nodes.length) : q.OperandsExist := by
  intro a b hab
  have hlen := h.length_eq
  have hin := hops _ _ hinput
  rcases (h.dataDep_iff hops hinput).mp hab with
    ⟨hab, -⟩ | ⟨rfl, rfl⟩ | ⟨rfl, rfl⟩ | ⟨rfl, rfl⟩ | ⟨rfl, rfl⟩
  · have := hops _ _ hab
    omega
  all_goals omega

include hops hinput hdep in
/-- The old nodes have the data dependencies they had. -/
theorem transGen_dataDep_iff {a b : ℕ} (ha : a < p.nodes.length) (hb : b < p.nodes.length) :
    TransGen q.DataDep a b ↔ TransGen p.DataDep a b := by
  have hio := Proc.lt_length_of_dataDep hinput
  constructor
  · intro hab
    -- on the way, the new nodes stand for the receive and for `io`
    have hall : ∀ x, TransGen q.DataDep a x → (x < p.nodes.length → TransGen p.DataDep a x) ∧
        (x = p.nodes.length → ReflTransGen p.DataDep a receive) ∧
        (x = p.nodes.length + 1 → TransGen p.DataDep a io) := by
      intro x hax
      have hstep : ∀ {x y}, (x < p.nodes.length → ReflTransGen p.DataDep a x) →
          (x = p.nodes.length → ReflTransGen p.DataDep a receive) →
          (x = p.nodes.length + 1 → TransGen p.DataDep a io) → q.DataDep x y →
          (y < p.nodes.length → TransGen p.DataDep a y) ∧
          (y = p.nodes.length → ReflTransGen p.DataDep a receive) ∧
          (y = p.nodes.length + 1 → TransGen p.DataDep a io) := by
        intro x y hx hx' hx'' hxy
        rcases (h.dataDep_iff hops hinput).mp hxy with
          ⟨hxy, -⟩ | ⟨rfl, rfl⟩ | ⟨rfl, rfl⟩ | ⟨rfl, rfl⟩ | ⟨rfl, rfl⟩
        · have hy := Proc.lt_length_of_dataDep hxy
          exact ⟨fun _ => TransGen.tail' (hx (hops _ _ hxy)) hxy, fun hy' => by omega,
            fun hy' => by omega⟩
        · obtain ⟨c, hc, -⟩ := TransGen.head'_iff.mp hdep
          exact ⟨fun hy => by omega, fun _ => hx (hops _ _ hc), fun hy => by omega⟩
        · exact ⟨fun hy => by omega, fun hy => by omega,
            fun _ => TransGen.trans_right (hx' rfl) hdep⟩
        · exact ⟨fun hy => by omega, fun hy => by omega,
            fun _ => TransGen.tail' (hx (hops _ _ hinput)) hinput⟩
        · exact ⟨fun _ => hx'' rfl, fun hy => by omega, fun hy => by omega⟩
      induction hax with
      | single hax =>
        exact hstep (fun _ => .refl) (fun ha' => by omega) (fun ha' => by omega) hax
      | tail _ hxy ih =>
        exact hstep (fun hx => (ih.1 hx).to_reflTransGen) ih.2.1 ih.2.2 hxy
    exact (hall b hab).1 hb
  · have hsub : ∀ u v, p.DataDep u v → TransGen q.DataDep u v := by
      intro u v huv
      by_cases hand : u = input ∧ v = io
      · obtain ⟨rfl, rfl⟩ := hand
        have h₁ : q.DataDep u (p.nodes.length + 1) :=
          (h.dataDep_iff hops hinput).mpr (.inr (.inr (.inr (.inl ⟨rfl, rfl⟩))))
        have h₂ : q.DataDep (p.nodes.length + 1) v :=
          (h.dataDep_iff hops hinput).mpr (.inr (.inr (.inr (.inr ⟨rfl, rfl⟩))))
        exact (TransGen.single h₁).tail h₂
      · exact .single ((h.dataDep_iff hops hinput).mpr (.inl ⟨huv, hand⟩))
    exact fun hab => TransGen.closed hsub _ _ hab

/-! ## Producers and token dependencies -/

include hp hops hinput hdep in
/-- The old nodes have the producers they had; `io` produces its token itself. -/
theorem provenance_old (hself : ∀ op, p.opOf io = some op → op.hasTokenProvenance = true)
    (hn : n < p.nodes.length) :
    q.provenance n = p.provenance n := by
  have hre : receive < p.nodes.length := by
    obtain ⟨c, hc, -⟩ := TransGen.head'_iff.mp hdep
    exact hops _ _ hc
  have hq := h.acyclic hp hops hinput hdep
  have hops' := h.operandsExist hops hinput hre
  induction n using operands_induction hp hops with
  | step n ih =>
    have hnode : p.nodes[n]? = some p.nodes[n] := List.getElem?_eq_getElem hn
    by_cases hne : n = io
    · subst hne
      have hop := hself p.nodes[n].op (by rw [Proc.opOf, hnode]; rfl)
      have hnode' := h.rewired
      rw [hnode] at hnode'
      rw [provenance_of_hasTokenProvenance hnode' hop, provenance_of_hasTokenProvenance hnode hop]
      rfl
    · have hnode' : q.nodes[n]? = some p.nodes[n] := by rw [h.old n hn hne, hnode]
      rw [provenance_eq hq hops' hnode', provenance_eq hp hops hnode]
      refine handle_congr fun c hc => ?_
      have hcn : p.DataDep c n := by rwa [Proc.DataDep, Proc.operands_eq hnode]
      exact ih c hcn (hops _ _ hcn)

theorem producers_newToken {e : ℕ} :
    e ∈ q.producers (p.nodes.length + 1) ↔ e = p.nodes.length + 1 :=
  mem_producers_self h.newToken rfl (List.mem_singleton.mpr rfl)

theorem producers_receiveToken (hq : q.Acyclic) (hops' : q.OperandsExist) {op : Op}
    (hre : receive < p.nodes.length) (htype : p.typeOf receive = some (.tuple (.token :: types)))
    (hop : p.opOf receive = some op) (hself : op.hasTokenProvenance = true) {e : ℕ} :
    e ∈ q.producers p.nodes.length ↔ e = receive := by
  rw [← h.typeOf hre] at htype
  rw [← h.opOf hre] at hop
  obtain ⟨node, hnode, hty⟩ := Option.map_eq_some_iff.mp htype
  have hop' : node.op = op := by
    rw [Proc.opOf, hnode] at hop
    exact Option.some.inj hop
  rw [mem_producers, provenance_eq hq hops' h.receiveToken]
  have hprov := provenance_of_hasTokenProvenance hnode (by rw [hop']; exact hself)
  have htree : handle q.provenance p.nodes.length
      { op := .tupleIndex 0, type := .token, operands := [receive] } =
      some (LeafTypeTree.ofLeafTypes .token fun _ => some receive) := by
    rw [handle]
    simp only [Option.bind_eq_bind, List.getElem?_cons_zero, Option.bind_some, hprov, hty]
    rfl
  rw [htree]
  constructor
  · rintro ⟨tree, htree, he⟩
    cases htree
    obtain ⟨leaf, -, hleaf⟩ := List.mem_map.mp he
    cases hleaf
    rfl
  · rintro rfl
    exact ⟨_, rfl, List.mem_map.mpr ⟨.token, by decide, rfl⟩⟩

section

include hp hops hinput hdep

/-- The token dependencies after an insertion. -/
theorem tokenDep_iff (hself : ∀ op, p.opOf io = some op → op.hasTokenProvenance = true) {op : Op}
    (htype : p.typeOf receive = some (.tuple (.token :: types))) (hop : p.opOf receive = some op)
    (hopself : op.hasTokenProvenance = true) {e : ℕ} :
    q.TokenDep e n ↔ (∃ c, p.DataDep c n ∧ ¬ (c = input ∧ n = io) ∧ e ∈ p.producers c) ∨
      (e = receive ∧ n = p.nodes.length) ∨ (e = receive ∧ n = p.nodes.length + 1) ∨
      (e ∈ p.producers input ∧ n = p.nodes.length + 1) ∨
      (e = p.nodes.length + 1 ∧ n = io) := by
  have hre : receive < p.nodes.length := lt_length_of_typeOf htype
  have hin := hops _ _ hinput
  have hq := h.acyclic hp hops hinput hdep
  have hops' := h.operandsExist hops hinput hre
  have hold : ∀ {c}, c < p.nodes.length → (e ∈ q.producers c ↔ e ∈ p.producers c) := by
    intro c hc
    rw [mem_producers, mem_producers, h.provenance_old hp hops hinput hdep hself hc]
  have hself' : e ∈ p.producers receive ↔ e = receive := by
    obtain ⟨node, hnode, hty⟩ := Option.map_eq_some_iff.mp htype
    have hnop : node.op = op := by
      rw [Proc.opOf, hnode] at hop
      exact Option.some.inj hop
    refine mem_producers_self hnode (by rw [hnop]; exact hopself) ?_
    rw [hty]
    exact List.mem_cons_self
  have hti := h.producers_receiveToken hq hops' hre htype hop hopself (e := e)
  have haa := h.producers_newToken (e := e)
  constructor
  · rintro ⟨c, hc, he⟩
    rcases (h.dataDep_iff hops hinput).mp hc with
      ⟨hcn, hni⟩ | ⟨rfl, rfl⟩ | ⟨rfl, rfl⟩ | ⟨rfl, rfl⟩ | ⟨rfl, rfl⟩
    · exact .inl ⟨c, hcn, hni, (hold (hops _ _ hcn)).mp he⟩
    · exact .inr (.inl ⟨hself'.mp ((hold hre).mp he), rfl⟩)
    · exact .inr (.inr (.inl ⟨hti.mp he, rfl⟩))
    · exact .inr (.inr (.inr (.inl ⟨(hold hin).mp he, rfl⟩)))
    · exact .inr (.inr (.inr (.inr ⟨haa.mp he, rfl⟩)))
  · have hdata : ∀ {a b}, _ → q.DataDep a b := fun hab => (h.dataDep_iff hops hinput).mpr hab
    rintro (⟨c, hcn, hni, he⟩ | ⟨rfl, rfl⟩ | ⟨rfl, rfl⟩ | ⟨he, rfl⟩ | ⟨rfl, rfl⟩)
    · exact ⟨c, hdata (.inl ⟨hcn, hni⟩), (hold (hops _ _ hcn)).mpr he⟩
    · exact ⟨e, hdata (.inr (.inl ⟨rfl, rfl⟩)), (hold hre).mpr (hself'.mpr rfl)⟩
    · exact ⟨_, hdata (.inr (.inr (.inl ⟨rfl, rfl⟩))), hti.mpr rfl⟩
    · exact ⟨input, hdata (.inr (.inr (.inr (.inl ⟨rfl, rfl⟩)))), (hold hin).mpr he⟩
    · exact ⟨_, hdata (.inr (.inr (.inr (.inr ⟨rfl, rfl⟩)))), haa.mpr rfl⟩

/-- The old nodes are ordered by the old token dependencies and the new edge. -/
theorem transGen_tokenDep_iff (hself : ∀ op, p.opOf io = some op → op.hasTokenProvenance = true)
    {op : Op} (htype : p.typeOf receive = some (.tuple (.token :: types)))
    (hop : p.opOf receive = some op) (hopself : op.hasTokenProvenance = true) {a b : ℕ}
    (ha : a < p.nodes.length) (hb : b < p.nodes.length) :
    TransGen q.TokenDep a b ↔
      TransGen (fun u v => p.TokenDep u v ∨ (u = receive ∧ v = io)) a b := by
  have hre : receive < p.nodes.length := lt_length_of_typeOf htype
  have hio := Proc.lt_length_of_dataDep hinput
  have hiff := fun e n => h.tokenDep_iff hp hops hinput hdep hself htype hop hopself
    (e := e) (n := n)
  -- producers are old nodes
  have hlt : ∀ {c e n}, p.DataDep c n → e ∈ p.producers c → e < p.nodes.length := by
    intro c e n hcn he
    rcases (of_mem_producers hp hops he).1.cases_head with rfl | ⟨d, hd, -⟩
    · exact hops _ _ hcn
    · exact hops _ _ hd
  set S : ℕ → ℕ → Prop := fun u v => p.TokenDep u v ∨ (u = receive ∧ v = io) with hS
  constructor
  · intro hab
    -- on the way, the `after_all` stands for `io`; the tuple index leads nowhere
    have hstep : ∀ {x y}, x ≠ p.nodes.length → (x < p.nodes.length → ReflTransGen S a x) →
        (x = p.nodes.length + 1 → TransGen S a io) → q.TokenDep x y →
        (y < p.nodes.length → TransGen S a y) ∧ (y = p.nodes.length + 1 → TransGen S a io) := by
      intro x y hne hx hx' hxy
      rcases (hiff x y).mp hxy with
        ⟨c, hcn, -, he⟩ | ⟨rfl, rfl⟩ | ⟨rfl, rfl⟩ | ⟨he, rfl⟩ | ⟨rfl, rfl⟩
      · have hxlt := hlt hcn he
        have hylt := Proc.lt_length_of_dataDep hcn
        exact ⟨fun _ => TransGen.tail' (hx hxlt) (.inl ⟨c, hcn, he⟩), fun hy => by omega⟩
      · exact ⟨fun hy => by omega, fun hy => by omega⟩
      · exact ⟨fun hy => by omega, fun _ => TransGen.tail' (hx hre) (.inr ⟨rfl, rfl⟩)⟩
      · have hxlt := hlt hinput he
        exact ⟨fun hy => by omega, fun _ => TransGen.tail' (hx hxlt) (.inl ⟨input, hinput, he⟩)⟩
      · exact ⟨fun _ => hx' rfl, fun hy => by omega⟩
    have hdead : ∀ {y}, ¬ q.TokenDep p.nodes.length y := by
      intro y hy
      rcases (hiff _ y).mp hy with ⟨c, hcn, -, he⟩ | ⟨he, -⟩ | ⟨he, -⟩ | ⟨he, -⟩ | ⟨he, -⟩
      · exact absurd (hlt hcn he) (lt_irrefl _)
      · omega
      · omega
      · exact absurd (hlt hinput he) (lt_irrefl _)
      · omega
    have hall : ∀ x, TransGen q.TokenDep a x → (x < p.nodes.length → TransGen S a x) ∧
        (x = p.nodes.length + 1 → TransGen S a io) := by
      intro x hax
      induction hax with
      | single hax => exact hstep (by omega) (fun _ => .refl) (fun ha' => by omega) hax
      | @tail x y _ hxy ih =>
        refine hstep ?_ (fun hx => (ih.1 hx).to_reflTransGen) ih.2 hxy
        rintro rfl
        exact hdead hxy
    exact (hall b hab).1 hb
  · have hjoin : q.TokenDep (p.nodes.length + 1) io :=
      (hiff _ _).mpr (.inr (.inr (.inr (.inr ⟨rfl, rfl⟩))))
    have hsub : ∀ u v, S u v → TransGen q.TokenDep u v := by
      rintro u v (⟨c, hcv, hu⟩ | ⟨rfl, rfl⟩)
      · by_cases hand : c = input ∧ v = io
        · obtain ⟨rfl, rfl⟩ := hand
          exact .tail (.single ((hiff _ _).mpr (.inr (.inr (.inr (.inl ⟨hu, rfl⟩)))))) hjoin
        · exact .single ((hiff _ _).mpr (.inl ⟨c, hcv, hand, hu⟩))
      · exact .tail (.single ((hiff _ _).mpr (.inr (.inr (.inl ⟨rfl, rfl⟩))))) hjoin
    exact fun hab => TransGen.closed hsub _ _ hab

end

end Inserted

/-! ## Several insertions -/

/-- The first operand is a token. -/
def Proc.FirstToken (p : Proc) (n : ℕ) : Prop :=
  ∃ c, (p.operands n)[0]? = some c ∧ p.isToken c = true

/-- `q` is `p` with more nodes, and with its tokens ordered along more edges. -/
structure Proc.Extends (p q : Proc) (edges : ℕ → ℕ → Prop) : Prop where
  length_le : p.nodes.length ≤ q.nodes.length
  opOf : ∀ n, n < p.nodes.length → q.opOf n = p.opOf n
  typeOf : ∀ n, n < p.nodes.length → q.typeOf n = p.typeOf n
  fresh : ∀ n, p.nodes.length ≤ n → q.isSideEffecting n = false
  firstToken : ∀ n, n < p.nodes.length → p.FirstToken n → q.FirstToken n
  acyclic : q.Acyclic
  operandsExist : q.OperandsExist
  dataDep : ∀ {a b}, a < p.nodes.length → b < p.nodes.length →
    (TransGen q.DataDep a b ↔ TransGen p.DataDep a b)
  tokenDep : ∀ {a b}, a < p.nodes.length → b < p.nodes.length →
    (TransGen q.TokenDep a b ↔ TransGen (fun u v => p.TokenDep u v ∨ edges u v) a b)

/-- What the pass knows of a receive and an effect before it orders them. -/
structure Proc.Orderable (p : Proc) (receive io : ℕ) : Prop where
  dep : TransGen p.DataDep receive io
  self : ∀ op, p.opOf io = some op → op.hasTokenProvenance = true
  receiveOp : ∃ op, p.opOf receive = some op ∧ op.hasTokenProvenance = true
  receiveType : ∃ types, p.typeOf receive = some (.tuple (.token :: types))
  firstToken : p.FirstToken io

namespace Proc.Orderable

variable (h : p.Orderable receive io)
include h

theorem receive_lt : receive < p.nodes.length := by
  obtain ⟨types, htypes⟩ := h.receiveType
  exact lt_length_of_typeOf htypes

theorem io_lt : io < p.nodes.length := by
  obtain ⟨c, -, hc⟩ := TransGen.tail'_iff.mp h.dep
  exact Proc.lt_length_of_dataDep hc

end Proc.Orderable

/-- One insertion. -/
theorem Inserted.extends (h : Inserted p q io receive input) (hp : p.Acyclic)
    (hops : p.OperandsExist) (hinput : p.DataDep input io) (ho : p.Orderable receive io) :
    p.Extends q fun u v => u = receive ∧ v = io := by
  obtain ⟨types, htype⟩ := ho.receiveType
  obtain ⟨op, hop, hself⟩ := ho.receiveOp
  constructor
  · have := h.length_eq
    omega
  · intro n hn
    exact h.opOf hn
  · intro n hn
    exact h.typeOf hn
  · intro n hn
    have hlen := h.length_eq
    rcases Nat.lt_trichotomy n (p.nodes.length + 1) with hn' | rfl | hn'
    · obtain rfl : n = p.nodes.length := by omega
      rw [Proc.isSideEffecting, Proc.opOf, h.receiveToken]
      rfl
    · rw [Proc.isSideEffecting, Proc.opOf, h.newToken]
      rfl
    · rw [Proc.isSideEffecting, Proc.opOf, List.getElem?_eq_none (by omega)]
      rfl
  · rintro n hn ⟨c, hc, htoken⟩
    have hcn : p.DataDep c n := List.mem_of_getElem? hc
    have hctoken : q.isToken c = true := by
      rw [Proc.isToken, h.typeOf (hops _ _ hcn)]
      exact htoken
    by_cases hne : n = io
    · subst hne
      refine ⟨if c = input then p.nodes.length + 1 else c, ?_, ?_⟩
      · rw [h.operands_io, List.getElem?_map, hc]
        rfl
      · split
        · rw [Proc.isToken, Proc.typeOf, h.newToken]
          rfl
        · exact hctoken
    · exact ⟨c, by rw [h.operands_old hn hne]; exact hc, hctoken⟩
  · exact h.acyclic hp hops hinput ho.dep
  · exact h.operandsExist hops hinput ho.receive_lt
  · exact h.transGen_dataDep_iff hops hinput ho.dep
  · exact h.transGen_tokenDep_iff hp hops hinput ho.dep ho.self htype hop hself

namespace Proc.Extends

variable {edges : ℕ → ℕ → Prop}

theorem refl (hp : p.Acyclic) (hops : p.OperandsExist) : p.Extends p fun _ _ => False := by
  constructor
  · exact le_rfl
  · exact fun _ _ => rfl
  · exact fun _ _ => rfl
  · intro n hn
    rw [Proc.isSideEffecting, Proc.opOf, List.getElem?_eq_none hn]
    rfl
  · exact fun _ _ h => h
  · exact hp
  · exact hops
  · exact fun _ _ => Iff.rfl
  · intro a b _ _
    simp only [or_false]

/-- Edges may be listed in another way. -/
theorem congr {edges' : ℕ → ℕ → Prop} (h : p.Extends q edges)
    (hedges : ∀ u v, edges u v ↔ edges' u v) : p.Extends q edges' := by
  have : edges = edges' := funext fun u => funext fun v => propext (hedges u v)
  rwa [this] at h

/-- One more edge. -/
theorem insert {r : Proc} (h : p.Extends q edges)
    (h' : q.Extends r fun u v => u = receive ∧ v = io) (hre : receive < p.nodes.length)
    (hio : io < p.nodes.length) :
    p.Extends r fun u v => edges u v ∨ (u = receive ∧ v = io) := by
  have hle := h.length_le
  constructor
  · exact hle.trans h'.length_le
  · intro n hn
    rw [h'.opOf n (by omega), h.opOf n hn]
  · intro n hn
    rw [h'.typeOf n (by omega), h.typeOf n hn]
  · intro n hn
    by_cases hn' : n < q.nodes.length
    · have := h.fresh n hn
      rwa [Proc.isSideEffecting, ← h'.opOf n hn'] at this
    · exact h'.fresh n (by omega)
  · intro n hn hfirst
    exact h'.firstToken n (by omega) (h.firstToken n hn hfirst)
  · exact h'.acyclic
  · exact h'.operandsExist
  · intro a b ha hb
    rw [h'.dataDep (by omega) (by omega), h.dataDep ha hb]
  · intro a b ha hb
    have hrefl : ∀ {a b}, a < p.nodes.length → b < p.nodes.length → (ReflTransGen q.TokenDep a b ↔
          ReflTransGen (fun u v => p.TokenDep u v ∨ edges u v) a b) := by
      intro a b ha hb
      rw [reflTransGen_iff_eq_or_transGen, reflTransGen_iff_eq_or_transGen, h.tokenDep ha hb]
    rw [h'.tokenDep (by omega) (by omega), transGen_insert_iff, h.tokenDep ha hb, hrefl ha hre,
      hrefl hio hb, ← transGen_insert_iff]
    simp only [or_assoc]

/-- What the pass knows of a receive and an effect stays true. -/
theorem orderable (h : p.Extends q edges) (ho : p.Orderable receive io) :
    q.Orderable receive io := by
  have hre := ho.receive_lt
  have hio := ho.io_lt
  constructor
  · exact (h.dataDep hre hio).mpr ho.dep
  · rw [h.opOf io hio]
    exact ho.self
  · rw [h.opOf receive hre]
    exact ho.receiveOp
  · rw [h.typeOf receive hre]
    exact ho.receiveType
  · exact h.firstToken io hio ho.firstToken

/-! ## The loops -/

/-- The body of the innermost loop adds the edge, if the operand is a token. -/
theorem orderAfter_spec (h : p.Extends q edges) (ho : p.Orderable receive io) (changed : Bool)
    (position : ℕ) :
    ∃ changed' r, Proc.orderAfter io receive (changed, q) position = some (changed', r) ∧
      (p.Extends r (fun u v => edges u v ∨ (u = receive ∧ v = io)) ∨
        (p.Extends r edges ∧ position ≠ 0)) := by
  have hoq := h.orderable ho
  rcases hpos : (q.operands io)[position]? with _ | input
  · refine ⟨changed, q, ?_, .inr ⟨h, ?_⟩⟩
    · simp only [Proc.orderAfter, hpos]
    · rintro rfl
      obtain ⟨c, hc, -⟩ := hoq.firstToken
      rw [hpos] at hc
      cases hc
  · by_cases htoken : q.isToken input = true
    · obtain ⟨types, htype⟩ := hoq.receiveType
      obtain ⟨r, hmake, hins⟩ := exists_inserted input hoq.io_lt htype
      have hinput : q.DataDep input io := List.mem_of_getElem? hpos
      have hext := hins.extends h.acyclic h.operandsExist hinput hoq
      refine ⟨changed || (r.replaceOperand io input (q.nodes.length + 1)).1, _, ?_,
        .inl (h.insert hext ho.receive_lt ho.io_lt)⟩
      · simp only [Proc.orderAfter, hpos, htoken, if_true, hmake, Option.map_some]
    · refine ⟨changed, q, ?_, .inr ⟨h, ?_⟩⟩
      · simp only [Proc.orderAfter, hpos, htoken, if_false, Bool.false_eq_true]
      · rintro rfl
        obtain ⟨c, hc, hctoken⟩ := hoq.firstToken
        rw [hpos] at hc
        cases hc
        exact htoken hctoken

/-- Further operands add the edge again. -/
theorem foldlM_orderAfter_spec (positions : List ℕ) :
    ∀ {q : Proc} (changed : Bool), p.Extends q edges → p.Orderable receive io → edges receive io →
      ∃ changed' r, positions.foldlM (Proc.orderAfter io receive) (changed, q) =
        some (changed', r) ∧ p.Extends r edges := by
  induction positions with
  | nil =>
    intro q changed h _ _
    exact ⟨changed, q, rfl, h⟩
  | cons position positions ih =>
    intro q changed h ho hedge
    obtain ⟨changed', r, hstep, hext⟩ := h.orderAfter_spec ho changed position
    have hext' : p.Extends r edges := by
      rcases hext with hext | ⟨hext, -⟩
      · refine hext.congr fun u v => ⟨?_, .inl⟩
        rintro (huv | ⟨rfl, rfl⟩)
        · exact huv
        · exact hedge
      · exact hext
    obtain ⟨changed'', r', hrest, hr'⟩ := ih changed' hext' ho hedge
    refine ⟨changed'', r', ?_, hr'⟩
    rw [List.foldlM_cons, hstep]
    exact hrest

/-- The loop over the operands of an effect adds the edge: the first operand is a token. -/
theorem orderInputs_spec (h : p.Extends q edges) (ho : p.Orderable receive io) (changed : Bool) :
    ∃ changed' r, Proc.orderInputs (changed, q) (io, receive) = some (changed', r) ∧
      p.Extends r fun u v => edges u v ∨ (u = receive ∧ v = io) := by
  obtain ⟨c, hc, -⟩ := (h.orderable ho).firstToken
  obtain ⟨n, hn⟩ : ∃ n, (q.operands io).length = n + 1 := by
    have := (List.getElem?_eq_some_iff.mp hc).1
    exact ⟨(q.operands io).length - 1, by omega⟩
  obtain ⟨changed', r, hstep, hext⟩ := h.orderAfter_spec ho changed 0
  have hext' : p.Extends r fun u v => edges u v ∨ (u = receive ∧ v = io) := by
    rcases hext with hext | ⟨-, hne⟩
    · exact hext
    · exact absurd rfl hne
  obtain ⟨changed'', r', hrest, hr'⟩ :=
    foldlM_orderAfter_spec ((List.range n).map Nat.succ) changed' hext' ho (.inr ⟨rfl, rfl⟩)
  refine ⟨changed'', r', ?_, hr'⟩
  show (List.range (q.operands io).length).foldlM _ _ = _
  rw [hn, List.range_succ_eq_map, List.foldlM_cons, hstep]
  exact hrest

/-- The outer loops add all the edges. -/
theorem foldlM_orderInputs_spec (pairs : Pairs) :
    ∀ {q : Proc} {edges : ℕ → ℕ → Prop} (changed : Bool), p.Extends q edges →
      (∀ pair ∈ pairs, p.Orderable pair.2 pair.1) →
      ∃ changed' r, pairs.foldlM Proc.orderInputs (changed, q) = some (changed', r) ∧
        p.Extends r fun u v => edges u v ∨ (v, u) ∈ pairs := by
  induction pairs with
  | nil =>
    intro q edges changed h _
    refine ⟨changed, q, rfl, h.congr fun u v => ?_⟩
    simp
  | cons pair pairs ih =>
    intro q edges changed h ho
    obtain ⟨changed', r, hstep, hext⟩ := h.orderInputs_spec (ho pair List.mem_cons_self) changed
    obtain ⟨changed'', r', hrest, hr'⟩ := ih changed' hext fun pair' hpair' =>
      ho pair' (List.mem_cons_of_mem _ hpair')
    refine ⟨changed'', r', ?_, hr'.congr fun u v => ?_⟩
    · rw [List.foldlM_cons, hstep]
      exact hrest
    · rw [List.mem_cons, or_assoc]
      simp only [Prod.ext_iff, and_comm]

end Proc.Extends

end TokenGraph
end Xls
