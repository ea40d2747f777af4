/-
# What the token dependency pass achieves

An effect which depends on the data of a receive, but not on its token, is uncovered.  The
pass adds a token edge to the earliest uncovered effects only, and there only from the
receives which these effects depend on themselves.

* `exists_ioToReceive` : the map from the effects to the receives holds the uncovered pairs;
* `exists_minimalIoToReceive` : the pruning keeps the earliest effects;
* `exists_runTokenDependencyPass` : the resulting proc, by its token edges;
* `tokensFollowData_iff` : when every effect ends up after the receives it depends on.
-/
import Xls.Passes.TokenInsertion
import Xls.Lib.FoldM

namespace Xls
namespace TokenGraph

open Verifier Relation Digraph

variable {p : Proc} {channels : ℕ → Option Channel}

/-! ## Effects of a verified proc -/

variable {n b : ℕ}

theorem mem_users {u : ℕ} : u ∈ p.users n ↔ p.DataDep n u := by
  rw [Proc.users, List.mem_filter, List.mem_range, decide_eq_true_iff]
  constructor
  · exact And.right
  · intro h
    exact ⟨Proc.lt_length_of_dataDep h, h⟩

theorem hasToken_of_le (h : p.nodes.length ≤ n) : p.hasToken n = false := by
  rw [Proc.hasToken, Proc.typeOf, List.getElem?_eq_none h]
  rfl

/-- An effect is the token parameter or has an operand. -/
theorem exists_operand_of_connectedToSource (h : n ∈ p.connectedToSource) :
    n = p.tokenParam ∨ ∃ c, p.DataDep c n := by
  rw [Proc.connectedToSource, mem_search fun x hx => by simp [hasToken_of_le hx]] at h
  rcases h.cases_tail with h | ⟨c, -, hc⟩
  · exact .inl h
  · split at hc
    · exact .inr ⟨c, mem_users.mp hc⟩
    · cases hc

/-- What the operation of an effect is. -/
structure Effect (p : Proc) (b : ℕ) : Prop where
  self : ∃ node, p.nodes[b]? = some node ∧ node.op.hasTokenProvenance = true ∧
    Ty.token ∈ node.type.leafTypes
  firstToken : ∀ c, p.DataDep c b → p.FirstToken b
  isReceive : p.isToken b = false → p.isReceive b = true

/-- The receives of a verified proc. -/
theorem receive_type (h : p.Verified channels) {r : ℕ} (hr : p.isReceive r = true) :
    ∃ node types, p.nodes[r]? = some node ∧ node.op.hasTokenProvenance = true ∧
      node.type = .tuple (.token :: types) ∧ p.isSideEffectingTokenOp r = true ∧
      p.isToken r = false := by
  rcases hnode : p.nodes[r]? with _ | node
  · rw [Proc.isReceive, Proc.opOf, hnode] at hr
    cases hr
  · have hcheck := h.nodes node (List.mem_of_getElem? hnode)
    rw [Proc.isReceive, Proc.opOf, hnode] at hr
    rcases hop : node.op with _ | _ | _ | _ | _ | ⟨channelId, blocking⟩ | _ | _ | _ | _ | _ | _ | _
    all_goals rw [Option.map_some, hop] at hr
    all_goals try cases hr
    rw [Proc.checkNode, hop] at hcheck
    obtain ⟨channel, -, -, htype, -⟩ := hcheck
    obtain ⟨types, htypes⟩ : ∃ types, node.type = .tuple (.token :: types) := by
      rw [htype, Proc.receiveType]
      split
      · exact ⟨_, rfl⟩
      · exact ⟨_, rfl⟩
    refine ⟨node, types, rfl, by rw [hop]; rfl, htypes, ?_, ?_⟩
    · rw [Proc.isSideEffectingTokenOp, Proc.isSideEffecting, Proc.hasToken, Proc.opOf, Proc.typeOf,
        hnode, Option.map_some, Option.map_some, Option.map_some, hop, htypes]
      rfl
    · rw [Proc.isToken, Proc.typeOf, hnode, Option.map_some, htypes]
      rfl

theorem firstToken_of_operandTypes {node : Node} (hnode : p.nodes[b]? = some node)
    {rest : List (Option Ty)} (h : p.operandTypes node = some .token :: rest) : p.FirstToken b := by
  rw [Proc.operandTypes, List.map_eq_cons_iff] at h
  obtain ⟨c, cs, hcs, hc, -⟩ := h
  refine ⟨c, ?_, ?_⟩
  · rw [Proc.operands_eq hnode, hcs]
    rfl
  · rw [Proc.isToken, hc]
    rfl

/-- A node of the token type. -/
theorem effect_of_token {node : Node} (hnode : p.nodes[b]? = some node)
    (hop : node.op.hasTokenProvenance = true) (htype : node.type = .token)
    (hfirst : ∀ c, p.DataDep c b → p.FirstToken b) : Effect p b := by
  refine ⟨⟨node, hnode, hop, by rw [htype]; exact List.mem_cons_self⟩, hfirst, ?_⟩
  intro htoken
  rw [Proc.isToken, Proc.typeOf, hnode, Option.map_some, htype] at htoken
  cases htoken

theorem effect_of_isSideEffectingTokenOp (h : p.Verified channels) (ht : p.TokensTracked)
    (hb : p.isSideEffectingTokenOp b = true) : Effect p b := by
  have hconnected := (h.connected b hb).1
  rw [Proc.isSideEffectingTokenOp, Bool.and_eq_true] at hb
  obtain ⟨hside, htoken⟩ := hb
  rcases hnode : p.nodes[b]? with _ | node
  · rw [Proc.hasToken, Proc.typeOf, hnode] at htoken
    cases htoken
  · have hmem := List.mem_of_getElem? hnode
    have hcheck := h.nodes node hmem
    rw [Proc.isSideEffecting, Proc.opOf, hnode, Option.map_some, Option.map_some] at hside
    rw [Proc.hasToken, Proc.typeOf, hnode, Option.map_some, Option.map_some] at htoken
    rcases hop : node.op with _ | _ | _ | _ | _ | ⟨channelId, blocking⟩ | channelId | _ | _ | _ |
      _ | _ | _
    all_goals rw [hop] at hside
    all_goals try cases hside
    all_goals rw [Proc.checkNode, hop] at hcheck
    · -- a parameter has no operands, so that it can only be the token parameter
      have hnone : ∀ c, ¬ p.DataDep c b := by
        intro c hc
        rw [Proc.DataDep, Proc.operands_eq hnode, hcheck] at hc
        cases hc
      rcases exists_operand_of_connectedToSource hconnected with rfl | ⟨c, hc⟩
      · have htype := h.tokenParam.2
        rw [Proc.isToken, Proc.typeOf, hnode, decide_eq_true_iff] at htype
        exact effect_of_token hnode (by rw [hop]; rfl) (Option.some.inj htype) fun c hc =>
          absurd hc (hnone c)
      · exact absurd hc (hnone c)
    · exact effect_of_token hnode (by rw [hop]; rfl) hcheck.1 fun _ _ =>
        firstToken_of_operandTypes hnode hcheck.2
    · exact effect_of_token hnode (by rw [hop]; rfl) hcheck.1 fun _ _ =>
        firstToken_of_operandTypes hnode hcheck.2
    · obtain ⟨htype, args, hargs, -⟩ := hcheck
      exact effect_of_token hnode (by rw [hop]; rfl) htype fun _ _ =>
        firstToken_of_operandTypes hnode hargs
    · have hr : p.isReceive b = true := by
        rw [Proc.isReceive, Proc.opOf, hnode, Option.map_some, hop]
        rfl
      obtain ⟨node', types, hnode', hself, htype, -, -⟩ := receive_type h hr
      obtain ⟨channel, -, -, -, htypes⟩ := hcheck
      refine ⟨⟨node', hnode', hself, by rw [htype]; exact List.mem_cons_self⟩, ?_, fun _ => hr⟩
      intro c _
      rcases htypes with htypes | htypes <;> exact firstToken_of_operandTypes hnode htypes
    · obtain ⟨channel, -, -, htype, htypes⟩ := hcheck
      refine effect_of_token hnode (by rw [hop]; rfl) htype ?_
      intro c _
      rcases htypes with htypes | htypes <;> exact firstToken_of_operandTypes hnode htypes
    · rw [ht node hmem true hop] at htoken
      cases htoken

/-- An effect with a user orders its users. -/
theorem Effect.transGen_tokenDep_iff (hb : Effect p b) (hp : p.Acyclic) (hops : p.OperandsExist) :
    (∃ y, TransGen p.TokenDep b y) ↔ ∃ u, p.DataDep b u := by
  obtain ⟨node, hnode, hself, htoken⟩ := hb.self
  constructor
  · rintro ⟨y, hy⟩
    obtain ⟨u, hu, -⟩ := TransGen.head'_iff.mp hy
    obtain ⟨v, hv, -⟩ := TransGen.head'_iff.mp (dataDep_of_tokenDep hp hops hu)
    exact ⟨v, hv⟩
  · rintro ⟨u, hu⟩
    exact ⟨u, .single ⟨b, hu, (mem_producers_self hnode hself htoken).mpr rfl⟩⟩

/-! ## The relations of the pass -/

theorem mem_tokenDeps {e : ℕ} : (e, n) ∈ p.tokenDeps ↔ p.TokenDep e n := by
  simp only [Proc.tokenDeps, List.mem_flatMap, List.mem_map, List.mem_range, Prod.mk.injEq]
  constructor
  · rintro ⟨node, -, child, hchild, element, helement, rfl, rfl⟩
    exact ⟨child, hchild, helement⟩
  · rintro ⟨c, hc, he⟩
    exact ⟨n, Proc.lt_length_of_dataDep hc, c, hc, e, he, rfl, rfl⟩

theorem mem_tokenDepsClosure {a : ℕ} : (a, b) ∈ p.tokenDepsClosure ↔ TransGen p.TokenDep a b := by
  have hrel : (fun a b => (a, b) ∈ p.tokenDeps) = p.TokenDep :=
    funext fun a => funext fun b => propext mem_tokenDeps
  rw [Proc.tokenDepsClosure, mem_closure, hrel]

theorem exists_relationAt {relation : Pairs} {key y : ℕ} (h : (key, y) ∈ relation) :
    ∃ l, relationAt relation key = some l ∧ ∀ x, x ∈ l ↔ (key, x) ∈ relation := by
  refine ⟨_, if_pos (List.any_eq_true.mpr ⟨(key, y), h, by simp⟩), fun x => ?_⟩
  simp only [List.mem_map, List.mem_filter, beq_iff_eq]
  constructor
  · rintro ⟨⟨a, b⟩, ⟨hmem, rfl⟩, rfl⟩
    exact hmem
  · intro hmem
    exact ⟨(key, x), ⟨hmem, rfl⟩, rfl⟩

theorem exists_of_relationAt {relation : Pairs} {key : ℕ} {l : List ℕ}
    (h : relationAt relation key = some l) : ∃ y, (key, y) ∈ relation := by
  unfold relationAt at h
  split at h
  · rename_i hany
    obtain ⟨⟨a, b⟩, hmem, hkey⟩ := List.any_eq_true.mp hany
    obtain rfl : a = key := by simpa using hkey
    exact ⟨b, hmem⟩
  · cases h

theorem mem_dataDependents (hops : p.OperandsExist) {a : ℕ} :
    b ∈ p.dataDependents a ↔ ReflTransGen p.DataDep a b := by
  have hnil : ∀ x, p.nodes.length ≤ x → p.users x = [] := by
    intro x hx
    rw [List.eq_nil_iff_forall_not_mem]
    intro u hu
    have := hops _ _ (mem_users.mp hu)
    omega
  have hrel : (fun a b => b ∈ p.users a) = p.DataDep :=
    funext fun a => funext fun b => propext mem_users
  rw [Proc.dataDependents, mem_search hnil, hrel]

/-- An effect which depends on the data of a receive, but not on its token. -/
structure Proc.Uncovered (p : Proc) (receive io : ℕ) : Prop where
  isReceive : p.isReceive receive = true
  isEffect : p.isSideEffectingTokenOp io = true
  data : TransGen p.DataDep receive io
  token : ¬ TransGen p.TokenDep receive io

section Run

variable (h : p.Verified channels) (ht : p.TokensTracked)
include h ht

/-- The loop over the dependents of a receive does not fail. -/
theorem exists_uncoveredBy {a : ℕ} (ha : p.isReceive a = true) :
    ∃ pairs, p.uncoveredBy a = some pairs ∧ ∀ io r, (io, r) ∈ pairs ↔ r = a ∧ p.Uncovered r io := by
  obtain ⟨-, -, -, -, -, heffect, -⟩ := receive_type h ha
  have hops := h.operandsExist
  have haEffect := effect_of_isSideEffectingTokenOp h ht heffect
  obtain ⟨pairs, hpairs, hall, hany⟩ := exists_mapM (f := fun b =>
    if b = a then some none
    else if !p.isSideEffectingTokenOp b then some none
    else (relationAt p.tokenDepsClosure a).map fun covered =>
      if b ∈ covered then none else some (b, a))
    (P := fun b pair => ∀ io r, pair = some (io, r) ↔ io = b ∧ r = a ∧ p.Uncovered a b)
    (p.dataDependents a) (by
      intro b hb
      have hpath := (mem_dataDependents hops).mp hb
      by_cases hba : b = a
      · subst hba
        refine ⟨none, if_pos rfl, fun io r => ⟨by simp, ?_⟩⟩
        rintro ⟨-, -, hunc⟩
        exact absurd hunc.data (h.acyclic b)
      · have hdata : TransGen p.DataDep a b := by
          rcases reflTransGen_iff_eq_or_transGen.mp hpath with rfl | hdata
          · exact absurd rfl hba
          · exact hdata
        by_cases hbe : p.isSideEffectingTokenOp b = true
        · obtain ⟨u, hu, -⟩ := TransGen.head'_iff.mp hdata
          obtain ⟨y, hy⟩ := (haEffect.transGen_tokenDep_iff h.acyclic hops).mpr ⟨u, hu⟩
          obtain ⟨covered, hcovered, hmem⟩ := exists_relationAt (mem_tokenDepsClosure.mpr hy)
          refine ⟨_, by rw [if_neg hba, hbe, hcovered]; rfl, fun io r => ?_⟩
          have hiff : b ∈ covered ↔ TransGen p.TokenDep a b := by
            rw [hmem, mem_tokenDepsClosure]
          show (if b ∈ covered then none else some (b, a)) = some (io, r) ↔ _
          split
          · rename_i hin
            refine ⟨by simp, ?_⟩
            rintro ⟨-, -, hunc⟩
            exact absurd (hiff.mp hin) hunc.token
          · rename_i hin
            rw [Option.some.injEq, Prod.mk.injEq]
            constructor
            · rintro ⟨rfl, rfl⟩
              exact ⟨rfl, rfl, ha, hbe, hdata, fun hT => hin (hiff.mpr hT)⟩
            · rintro ⟨rfl, rfl, -⟩
              exact ⟨rfl, rfl⟩
        · refine ⟨none, by simp [hbe], fun io r => ⟨by simp, ?_⟩⟩
          rintro ⟨-, -, hunc⟩
          exact absurd hunc.isEffect hbe)
  refine ⟨pairs.reduceOption, by rw [Proc.uncoveredBy, hpairs]; rfl, fun io r => ?_⟩
  rw [List.reduceOption_mem_iff]
  constructor
  · intro hmem
    obtain ⟨b, -, hb⟩ := hall _ hmem
    obtain ⟨rfl, rfl, hunc⟩ := (hb io r).mp rfl
    exact ⟨rfl, hunc⟩
  · rintro ⟨rfl, hunc⟩
    obtain ⟨pair, hmem, hpair⟩ := hany io ((mem_dataDependents hops).mpr hunc.data.to_reflTransGen)
    rwa [(hpair io r).mpr ⟨rfl, rfl, hunc⟩] at hmem

/-- `io_to_receive` holds the uncovered pairs. -/
theorem exists_ioToReceive :
    ∃ pairs, p.ioToReceive = some pairs ∧ ∀ io r, (io, r) ∈ pairs ↔ p.Uncovered r io := by
  obtain ⟨pairs, hpairs, hall, hany⟩ := exists_mapM (f := fun a =>
    if !p.isSideEffectingTokenOp a then some []
    else if p.isToken a then some []
    else if !p.isReceive a then none
    else p.uncoveredBy a)
    (P := fun a pairs => ∀ io r, (io, r) ∈ pairs ↔ r = a ∧ p.Uncovered r io)
    (List.range p.nodes.length) (by
      intro a _
      by_cases ha : p.isReceive a = true
      · obtain ⟨-, -, -, -, -, heffect, htoken⟩ := receive_type h ha
        obtain ⟨pairs, hpairs, hmem⟩ := exists_uncoveredBy h ht ha
        exact ⟨pairs, by simp [heffect, htoken, ha, hpairs], hmem⟩
      · refine ⟨[], ?_, fun io r => ⟨by simp, ?_⟩⟩
        · by_cases heffect : p.isSideEffectingTokenOp a = true
          · by_cases htoken : p.isToken a = true
            · simp [htoken]
            · have hE := effect_of_isSideEffectingTokenOp h ht heffect
              exact absurd (hE.isReceive (by simpa using htoken)) ha
          · simp [heffect]
        · rintro ⟨rfl, hunc⟩
          exact absurd hunc.isReceive ha)
  refine ⟨pairs.flatten, by rw [Proc.ioToReceive, hpairs]; rfl, fun io r => ?_⟩
  rw [List.mem_flatten]
  constructor
  · rintro ⟨l, hl, hmem⟩
    obtain ⟨a, -, ha⟩ := hall l hl
    exact ((ha io r).mp hmem).2
  · intro hunc
    obtain ⟨c, hc, -⟩ := TransGen.head'_iff.mp hunc.data
    obtain ⟨l, hl, hmem⟩ := hany r (List.mem_range.mpr (h.operandsExist _ _ hc))
    exact ⟨l, hl, (hmem io r).mpr ⟨rfl, hunc⟩⟩

end Run

/-! ## The pruning -/

/-- An uncovered effect with no uncovered effect before it in the order of the tokens. -/
structure Proc.EarliestUncovered (p : Proc) (io : ℕ) : Prop where
  uncovered : ∃ receive, p.Uncovered receive io
  earliest : ∀ receive io', p.Uncovered receive io' → ¬ TransGen p.TokenDep io' io

/-- The loop erases what is downstream of a key. -/
theorem exists_foldlM_erase (hp : p.Acyclic) (hops : p.OperandsExist) (keys : List ℕ) :
    ∀ minimal : Pairs, (∀ io ∈ keys, ∃ y, TransGen p.TokenDep io y) →
      ∃ minimal', keys.foldlM (fun minimal io => do
          let downstream ← relationAt p.tokenDepsClosure io
          return minimal.filter fun pair => !(decide (pair.1 ∈ downstream) && pair.1 != io))
          minimal = some minimal' ∧
        ∀ pair, pair ∈ minimal' ↔ pair ∈ minimal ∧ ∀ io ∈ keys, ¬ TransGen p.TokenDep io pair.1 := by
  induction keys with
  | nil =>
    intro minimal _
    exact ⟨minimal, rfl, by simp⟩
  | cons io keys ih =>
    intro minimal hkeys
    obtain ⟨y, hy⟩ := hkeys io List.mem_cons_self
    obtain ⟨downstream, hdown, hmem⟩ := exists_relationAt (mem_tokenDepsClosure.mpr hy)
    obtain ⟨minimal', hrest, hmem'⟩ := ih (minimal.filter fun pair =>
      !(decide (pair.1 ∈ downstream) && pair.1 != io)) fun io' hio' =>
        hkeys io' (List.mem_cons_of_mem _ hio')
    refine ⟨minimal', ?_, fun pair => ?_⟩
    · rw [List.foldlM_cons]
      simp only [hdown]
      exact hrest
    · have hkeep : (!(decide (pair.1 ∈ downstream) && pair.1 != io)) = true ↔
          ¬ TransGen p.TokenDep io pair.1 := by
        rw [Bool.not_eq_true', Bool.and_eq_false_iff, decide_eq_false_iff_not, hmem,
          mem_tokenDepsClosure, bne_eq_false_iff_eq]
        constructor
        · rintro (hnot | heq)
          · exact hnot
          · rw [heq]
            exact fun hcycle =>
              hp io (TransGen.closed (fun _ _ h => dataDep_of_tokenDep hp hops h) _ _ hcycle)
        · exact .inl
      rw [hmem', List.mem_filter, hkeep, and_assoc, List.forall_mem_cons]

theorem exists_transGen_of_foldlM_erase (keys : List ℕ) :
    ∀ minimal minimal' : Pairs, keys.foldlM (fun minimal io => do
        let downstream ← relationAt p.tokenDepsClosure io
        return minimal.filter fun pair => !(decide (pair.1 ∈ downstream) && pair.1 != io))
        minimal = some minimal' →
      ∀ io ∈ keys, ∃ y, TransGen p.TokenDep io y := by
  induction keys with
  | nil => simp
  | cons io keys ih =>
    intro minimal minimal' h io' hio'
    obtain ⟨minimal₁, h₁, h⟩ := Option.bind_eq_some_iff.mp h
    obtain ⟨downstream, hdown, -⟩ := Option.bind_eq_some_iff.mp h₁
    rcases List.mem_cons.mp hio' with rfl | hio'
    · obtain ⟨y, hy⟩ := exists_of_relationAt hdown
      exact ⟨y, mem_tokenDepsClosure.mp hy⟩
    · exact ih _ _ h io' hio'

theorem mem_keys {pairs : Pairs} (hpairs : ∀ io r, (io, r) ∈ pairs ↔ p.Uncovered r io) {io : ℕ} :
    io ∈ (pairs.map Prod.fst).dedup ↔ ∃ r, p.Uncovered r io := by
  rw [List.mem_dedup, List.mem_map]
  constructor
  · rintro ⟨⟨io', r⟩, hmem, rfl⟩
    exact ⟨r, (hpairs io' r).mp hmem⟩
  · rintro ⟨r, hunc⟩
    exact ⟨(io, r), (hpairs io r).mpr hunc, rfl⟩

section Pruning

variable (h : p.Verified channels) (ht : p.TokensTracked) {pairs : Pairs}
  (hpairs : ∀ io r, (io, r) ∈ pairs ↔ p.Uncovered r io)
include h ht hpairs

/-- The pruning succeeds where every uncovered effect has a user. -/
theorem exists_minimalIoToReceive (husers : ∀ r io, p.Uncovered r io → ∃ u, p.DataDep io u) :
    ∃ minimal, p.minimalIoToReceive pairs = some minimal ∧
      ∀ io r, (io, r) ∈ minimal ↔ p.Uncovered r io ∧ p.EarliestUncovered io := by
  have hops := h.operandsExist
  obtain ⟨minimal, hminimal, hmem⟩ := exists_foldlM_erase h.acyclic hops
    (pairs.map Prod.fst).dedup pairs (by
      intro io hio
      obtain ⟨r, hunc⟩ := (mem_keys hpairs).mp hio
      exact ((effect_of_isSideEffectingTokenOp h ht hunc.isEffect).transGen_tokenDep_iff h.acyclic
        hops).mpr (husers r io hunc))
  refine ⟨minimal, hminimal, fun io r => ?_⟩
  rw [hmem, hpairs]
  constructor
  · rintro ⟨hunc, hearly⟩
    exact ⟨hunc, ⟨r, hunc⟩, fun r' io' hunc' =>
      hearly io' ((mem_keys hpairs).mpr ⟨r', hunc'⟩)⟩
  · rintro ⟨hunc, hearly⟩
    refine ⟨hunc, fun io' hio' => ?_⟩
    obtain ⟨r', hunc'⟩ := (mem_keys hpairs).mp hio'
    exact hearly.earliest r' io' hunc'

/-- Where the pruning succeeds, every uncovered effect has a user. -/
theorem exists_user_of_minimalIoToReceive {minimal : Pairs}
    (hminimal : p.minimalIoToReceive pairs = some minimal) {r io : ℕ} (hunc : p.Uncovered r io) :
    ∃ u, p.DataDep io u :=
  ((effect_of_isSideEffectingTokenOp h ht hunc.isEffect).transGen_tokenDep_iff h.acyclic
    h.operandsExist).mp (exists_transGen_of_foldlM_erase _ _ _ hminimal io
      ((mem_keys hpairs).mpr ⟨r, hunc⟩))

end Pruning

/-! ## The whole pass -/

theorem mem_sortedPairs {relation : Pairs} {io r : ℕ} : (io, r) ∈ p.sortedPairs relation ↔
      (io, r) ∈ relation ∧ io < p.nodes.length ∧ r < p.nodes.length := by
  simp only [Proc.sortedPairs, List.mem_flatMap, List.mem_filterMap, List.mem_range]
  constructor
  · rintro ⟨io', hio', r', hr', heq⟩
    split at heq
    · rename_i hmem
      cases heq
      exact ⟨hmem, hio', hr'⟩
    · cases heq
  · rintro ⟨hmem, hio, hr⟩
    exact ⟨io, hio, r, hr, if_pos hmem⟩

section Whole

variable (h : p.Verified channels) (ht : p.TokensTracked)
include h ht

theorem Proc.Uncovered.orderable {r io : ℕ} (hunc : p.Uncovered r io) : p.Orderable r io := by
  have hio := effect_of_isSideEffectingTokenOp h ht hunc.isEffect
  obtain ⟨node, types, hnode, hself, htype, -, -⟩ := receive_type h hunc.isReceive
  obtain ⟨node', hnode', hself', -⟩ := hio.self
  constructor
  · exact hunc.data
  · intro op hop
    rw [Proc.opOf, hnode', Option.map_some, Option.some.injEq] at hop
    rw [← hop]
    exact hself'
  · exact ⟨node.op, by rw [Proc.opOf, hnode]; rfl, hself⟩
  · exact ⟨types, by rw [Proc.typeOf, hnode, Option.map_some, htype]⟩
  · obtain ⟨c, -, hc⟩ := TransGen.tail'_iff.mp hunc.data
    exact hio.firstToken c hc

/-- Where every uncovered effect has a user, the pass succeeds.  It orders the earliest
uncovered effects after the receives which these depend on. -/
theorem exists_runTokenDependencyPass (husers : ∀ r io, p.Uncovered r io → ∃ u, p.DataDep io u) :
    ∃ changed q, p.runTokenDependencyPass = some (changed, q) ∧
      p.Extends q fun r io => p.Uncovered r io ∧ p.EarliestUncovered io := by
  obtain ⟨trees, htrees⟩ := Option.isSome_iff_exists.mp
    ((isSome_tokenProvenanceAnalysis_iff h).mpr ht)
  obtain ⟨pairs, hpairs, hmem⟩ := exists_ioToReceive h ht
  obtain ⟨minimal, hminimal, hmem'⟩ := exists_minimalIoToReceive h ht hmem husers
  obtain ⟨changed, q, hloop, hext⟩ := Proc.Extends.foldlM_orderInputs_spec
    (p.sortedPairs minimal) false (Proc.Extends.refl h.acyclic h.operandsExist) (by
      rintro ⟨io, r⟩ hpair
      exact ((hmem' io r).mp (mem_sortedPairs.mp hpair).1).1.orderable h ht)
  refine ⟨changed, q, ?_, hext.congr fun r io => ?_⟩
  · rw [Proc.runTokenDependencyPass, htrees]
    simp only [Option.bind_eq_bind, Option.bind_some, hpairs, hminimal]
    exact hloop
  · rw [mem_sortedPairs, hmem', false_or]
    constructor
    · exact And.left
    · intro hunc
      have ho := hunc.1.orderable h ht
      exact ⟨hunc, ho.io_lt, ho.receive_lt⟩

/-- Where the pass succeeds, every uncovered effect has a user. -/
theorem exists_user_of_runTokenDependencyPass {state : Bool × Proc}
    (hrun : p.runTokenDependencyPass = some state) {r io : ℕ} (hunc : p.Uncovered r io) :
    ∃ u, p.DataDep io u := by
  obtain ⟨pairs, hpairs, hmem⟩ := exists_ioToReceive h ht
  obtain ⟨-, -, hrun⟩ := Option.bind_eq_some_iff.mp hrun
  obtain ⟨pairs', hpairs', hrun⟩ := Option.bind_eq_some_iff.mp hrun
  obtain ⟨minimal, hminimal, -⟩ := Option.bind_eq_some_iff.mp hrun
  rw [hpairs] at hpairs'
  cases hpairs'
  exact exists_user_of_minimalIoToReceive h ht hmem hminimal hunc

end Whole

/-- The analysis of the tokens succeeds where the pass does. -/
theorem tokensTracked_of_runTokenDependencyPass (h : p.Verified channels) {state : Bool × Proc}
    (hrun : p.runTokenDependencyPass = some state) : p.TokensTracked := by
  obtain ⟨trees, htrees, -⟩ := Option.bind_eq_some_iff.mp hrun
  rw [← isSome_tokenProvenanceAnalysis_iff h, htrees]
  rfl

/-! ## Completeness -/

/-- Every effect which depends on the data of a receive depends on its token. -/
def Proc.TokensFollowData (p : Proc) : Prop :=
  ∀ r b, p.isReceive r = true → p.isSideEffectingTokenOp b = true → TransGen p.DataDep r b →
    TransGen p.TokenDep r b

/-- The effects of an extension are the old ones. -/
theorem Proc.Extends.isSideEffecting_iff {q : Proc} {edges : ℕ → ℕ → Prop}
    (hext : p.Extends q edges) {n : ℕ} :
    q.isSideEffecting n = true ↔ n < p.nodes.length ∧ p.isSideEffecting n = true := by
  by_cases hn : n < p.nodes.length
  · rw [Proc.isSideEffecting, Proc.isSideEffecting, hext.opOf n hn]
    simp [hn]
  · rw [hext.fresh n (by omega)]
    simp [hn]

theorem Proc.isSideEffecting_of_isReceive {n : ℕ} (h : p.isReceive n = true) :
    p.isSideEffecting n = true := by
  rw [Proc.isReceive] at h
  rw [Proc.isSideEffecting]
  rcases hop : p.opOf n with _ | op <;> rw [hop] at h
  · cases h
  · rcases op with _ | _ | _ | _ | _ | _ | _ | _ | _ | _ | _ | _ | _
    all_goals try cases h
    rfl

theorem Proc.lt_length_of_isSideEffecting {n : ℕ} (h : p.isSideEffecting n = true) :
    n < p.nodes.length := by
  by_contra hn
  rw [Proc.isSideEffecting, Proc.opOf, List.getElem?_eq_none (by omega)] at h
  cases h

/-- After the pass an uncovered effect is ordered by way of an earliest one. -/
theorem tokensFollowData_iff (h : p.Verified channels) {q : Proc}
    (hext : p.Extends q fun r io => p.Uncovered r io ∧ p.EarliestUncovered io) :
    q.TokensFollowData ↔ ∀ r io, p.Uncovered r io →
      ∃ m, p.EarliestUncovered m ∧ ReflTransGen p.TokenDep m io ∧ TransGen p.DataDep r m := by
  have hp := h.acyclic
  have hops := h.operandsExist
  constructor
  · intro hq r io hunc
    have hrside := Proc.isSideEffecting_of_isReceive hunc.isReceive
    have hr := Proc.lt_length_of_isSideEffecting hrside
    have hioside : p.isSideEffecting io = true := (Bool.and_eq_true_iff.mp hunc.isEffect).1
    have hio := Proc.lt_length_of_isSideEffecting hioside
    have hpath : TransGen q.TokenDep r io := by
      apply hq r io
      · rw [Proc.isReceive, hext.opOf r hr]
        exact hunc.isReceive
      · rw [Proc.isSideEffectingTokenOp, Proc.isSideEffecting, Proc.hasToken, hext.opOf io hio,
          hext.typeOf io hio]
        exact hunc.isEffect
      · exact (hext.dataDep hr hio).mpr hunc.data
    rw [hext.tokenDep hr hio] at hpath
    -- the last new edge of the path ends in the earliest effect
    rcases transGen_or_last hpath with hpath | ⟨r', m, ⟨hunc', hearly⟩, hrr', hm⟩
    · exact absurd hpath hunc.token
    · refine ⟨m, hearly, hm, TransGen.trans_right ?_ hunc'.data⟩
      have hsub : ∀ u v, p.TokenDep u v ∨ (p.Uncovered u v ∧ p.EarliestUncovered v) →
          ReflTransGen p.DataDep u v := by
        rintro u v (huv | ⟨huv, -⟩)
        · exact (dataDep_of_tokenDep hp hops huv).to_reflTransGen
        · exact huv.data.to_reflTransGen
      exact reflTransGen_closed hsub _ _ hrr'
  · intro hcond r b hr hb hdata
    obtain ⟨hrlt, -⟩ := hext.isSideEffecting_iff.mp (Proc.isSideEffecting_of_isReceive hr)
    obtain ⟨hblt, -⟩ := hext.isSideEffecting_iff.mp (Bool.and_eq_true_iff.mp hb).1
    have hr' : p.isReceive r = true := by
      rwa [Proc.isReceive, hext.opOf r hrlt] at hr
    have hb' : p.isSideEffectingTokenOp b = true := by
      rwa [Proc.isSideEffectingTokenOp, Proc.isSideEffecting, Proc.hasToken, hext.opOf b hblt,
        hext.typeOf b hblt] at hb
    rw [hext.dataDep hrlt hblt] at hdata
    rw [hext.tokenDep hrlt hblt]
    by_cases htoken : TransGen p.TokenDep r b
    · exact TransGen.mono (fun _ _ => .inl) _ _ htoken
    · have hunc : p.Uncovered r b := ⟨hr', hb', hdata, htoken⟩
      obtain ⟨m, hearly, hm, hrm⟩ := hcond r b hunc
      obtain ⟨r', hr''⟩ := hearly.uncovered
      -- a token which reached the earliest effect would have reached the later one
      have huncm : p.Uncovered r m := ⟨hr', hr''.isEffect, hrm, fun hrm' =>
        htoken (hrm'.trans_left hm)⟩
      exact TransGen.head' (.inr ⟨huncm, hearly⟩) (ReflTransGen.mono (fun _ _ => .inl) _ _ hm)

/-- The pass finishes and orders all effects after the receives whose data they depend on
exactly when the tokens of the proc are tracked, every uncovered effect has a user, and
every uncovered effect is, or comes after, an earliest uncovered effect which depends on
the same receive. -/
theorem runTokenDependencyPass_complete_iff (h : p.Verified channels) :
    (∃ changed q, p.runTokenDependencyPass = some (changed, q) ∧ q.Acyclic ∧ q.TokensFollowData) ↔
      p.TokensTracked ∧ (∀ r io, p.Uncovered r io → ∃ u, p.DataDep io u) ∧
        ∀ r io, p.Uncovered r io →
          ∃ m, p.EarliestUncovered m ∧ ReflTransGen p.TokenDep m io ∧ TransGen p.DataDep r m := by
  constructor
  · rintro ⟨changed, q, hrun, -, hq⟩
    have ht := tokensTracked_of_runTokenDependencyPass h hrun
    have husers : ∀ r io, p.Uncovered r io → ∃ u, p.DataDep io u := fun r io hunc =>
      exists_user_of_runTokenDependencyPass h ht hrun hunc
    obtain ⟨changed', q', hrun', hext⟩ := exists_runTokenDependencyPass h ht husers
    rw [hrun] at hrun'
    cases hrun'
    exact ⟨ht, husers, (tokensFollowData_iff h hext).mp hq⟩
  · rintro ⟨ht, husers, hcond⟩
    obtain ⟨changed, q, hrun, hext⟩ := exists_runTokenDependencyPass h ht husers
    exact ⟨changed, q, hrun, hext.acyclic, (tokensFollowData_iff h hext).mpr hcond⟩

/-! ## A proc where an effect is not ordered -/

/-- Two channels to receive from and one to send on. -/
def joinChannels : ℕ → Option Channel
  | 0 | 1 => some { type := .bits 32, canReceive := true, canSend := false }
  | 2 => some { type := .bits 32, canReceive := false, canSend := true }
  | _ => none

/-- A send of what the first receive yields, and after it a send of what both receives
yield. -/
def joinProc : Proc where
  nodes := [
    { op := .param, type := .token, operands := [] },
    { op := .receive 0 true, type := .tuple [.token, .bits 32], operands := [0] },
    { op := .tupleIndex 0, type := .token, operands := [1] },
    { op := .tupleIndex 1, type := .bits 32, operands := [1] },
    { op := .receive 1 true, type := .tuple [.token, .bits 32], operands := [0] },
    { op := .tupleIndex 0, type := .token, operands := [4] },
    { op := .tupleIndex 1, type := .bits 32, operands := [4] },
    { op := .send 2, type := .token, operands := [0, 3] },
    { op := .other false, type := .bits 32, operands := [3, 6] },
    { op := .send 2, type := .token, operands := [7, 8] },
    { op := .afterAll, type := .token, operands := [2, 5, 9] }]
  tokenParam := 0
  nextToken := 10

theorem joinProc_verified : joinProc.Verified joinChannels := by
  constructor
  · have hlt : ∀ b ∈ List.range 11, ∀ a ∈ joinProc.operands b, a < b := by decide
    exact acyclic_of_rank id fun {a b} hab =>
      hlt b (List.mem_range.mpr (Proc.lt_length_of_dataDep hab)) a hab
  · intro n hn
    simp only [joinProc, List.mem_cons, List.not_mem_nil, or_false] at hn
    rcases hn with rfl | rfl | rfl | rfl | rfl | rfl | rfl | rfl | rfl | rfl | rfl
    · rfl
    · exact ⟨_, rfl, rfl, rfl, .inl rfl⟩
    · exact ⟨_, rfl, rfl⟩
    · exact ⟨_, rfl, rfl⟩
    · exact ⟨_, rfl, rfl, rfl, .inl rfl⟩
    · exact ⟨_, rfl, rfl⟩
    · exact ⟨_, rfl, rfl⟩
    · exact ⟨_, rfl, rfl, rfl, .inl rfl⟩
    · show ∀ type ∈ joinProc.operandTypes _, type ≠ none
      decide
    · exact ⟨_, rfl, rfl, rfl, .inl rfl⟩
    · refine ⟨rfl, ?_⟩
      decide
  · exact ⟨rfl, rfl⟩
  · rfl
  · intro n hn
    have hall : ∀ n ∈ List.range 11, joinProc.isSideEffectingTokenOp n = true →
        n ∈ joinProc.connectedToSource ∧ n ∈ joinProc.connectedToSink := by
      decide +kernel
    exact hall n (List.mem_range.mpr (Proc.lt_length_of_isSideEffecting
      (Bool.and_eq_true_iff.mp hn).1)) hn
  · decide +kernel

theorem runTokenDependencyPass_complete_iff_join :
    (∃ changed q, joinProc.runTokenDependencyPass = some (changed, q) ∧ q.Acyclic ∧
        q.TokensFollowData) ↔
      joinProc.TokensTracked ∧ (∀ r io, joinProc.Uncovered r io → ∃ u, joinProc.DataDep io u) ∧
        ∀ r io, joinProc.Uncovered r io → ∃ m, joinProc.EarliestUncovered m ∧
          ReflTransGen joinProc.TokenDep m io ∧ TransGen joinProc.DataDep r m :=
  runTokenDependencyPass_complete_iff joinProc_verified

/-- A set which no token leaves. -/
theorem not_transGen_tokenDep_of_closed {q : Proc} (D : List ℕ)
    (hD : ∀ pair ∈ q.tokenDeps, pair.1 ∈ D → pair.2 ∈ D) {a b : ℕ} (ha : a ∈ D) (hb : b ∉ D) :
    ¬ TransGen q.TokenDep a b := by
  intro h
  have hmem : ∀ x, TransGen q.TokenDep a x → x ∈ D := by
    intro x hx
    induction hx with
    | single hx => exact hD _ (mem_tokenDeps.mpr hx) ha
    | tail _ hxy ih => exact hD _ (mem_tokenDeps.mpr hxy) ih
  exact hb (hmem b h)

/-- The pass runs through, but the second send is not ordered after the second receive. -/
theorem not_tokensFollowData_join : joinProc.Verified joinChannels ∧
    ¬ ∃ changed q, joinProc.runTokenDependencyPass = some (changed, q) ∧ q.Acyclic ∧
      q.TokensFollowData := by
  refine ⟨joinProc_verified, ?_⟩
  rintro ⟨changed, q, hrun, -, hq⟩
  have hall : ∀ state ∈ joinProc.runTokenDependencyPass,
      state.2.isReceive 4 = true ∧ state.2.isSideEffectingTokenOp 9 = true ∧
      (state.2.DataDep 4 6 ∧ state.2.DataDep 6 8 ∧ state.2.DataDep 8 9) ∧
      ∀ pair ∈ state.2.tokenDeps, pair.1 ∈ [4, 5, 6, 10] → pair.2 ∈ [4, 5, 6, 10] := by
    decide +kernel
  obtain ⟨hr, hb, ⟨h₁, h₂, h₃⟩, hclosed⟩ := hall _ hrun
  exact not_transGen_tokenDep_of_closed [4, 5, 6, 10] hclosed (by decide) (by decide)
    (hq 4 9 hr hb ((TransGen.single h₁).tail h₂ |>.tail h₃))

end TokenGraph
end Xls
