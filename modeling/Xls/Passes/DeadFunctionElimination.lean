/-
# Dead function elimination

`DeadFunctionEliminationPass` (`xls/passes/dfe_pass.cc`).  The functions which the top calls, however
far, are marked.  When the top is a proc, so are the procs which share channels with it, by way of a
union-find on the channel ids of operations; then the union-find is asked for each channel of the
package, and its `Find` fails for a channel which no operation uses.

* `unionProcs_spec` : the classes of the union-find;
* `exists_markFromTop` : what is marked is what is reachable;
* `exists_reached` : the pass up to the loop over the channels;
* `runInternal_eliminates_iff` : when the pass does what it is for.
-/
import Xls.DataStructures.UnionFind
import Xls.Lib.MarkReachable

namespace Xls

namespace DeadFunctionElimination

open Relation

/-- The operations of nodes which refer to functions or channels. -/
inductive Node where
  | countedFor (body : ℕ)
  | dynamicCountedFor (body : ℕ)
  | invoke (toApply : ℕ)
  | map (toApply : ℕ)
  | send (channelId : ℕ)
  | receive (channelId : ℕ)
  /-- Any other operation. -/
  | other
  deriving DecidableEq, Repr

/-- The function which a node refers to. -/
def Node.callee : Node → Option ℕ
  | .countedFor body => some body
  | .dynamicCountedFor body => some body
  | .invoke toApply => some toApply
  | .map toApply => some toApply
  | _ => none

/-- The channel of a node for which `IsChannelNode` holds. -/
def Node.channelId : Node → Option ℕ
  | .send channelId => some channelId
  | .receive channelId => some channelId
  | _ => none

/-- `Instantiation`. -/
inductive Instantiation where
  | block (instantiatedBlock : ℕ)
  /-- A FIFO or an external module. -/
  | other
  deriving DecidableEq, Repr

def Instantiation.instantiatedBlock : Instantiation → Option ℕ
  | .block instantiatedBlock => some instantiatedBlock
  | .other => none

inductive Kind where
  | function | proc | block
  deriving DecidableEq, Repr

/-- `FunctionBase`; the id plays the part of the pointer. -/
structure FunctionBase where
  id : ℕ
  kind : Kind
  nodes : List Node
  instantiations : List Instantiation
  deriving DecidableEq, Repr

namespace FunctionBase

/-- What `MarkReachedFunctions` goes on with: the functions which the nodes refer to, and for a block
the blocks which are instantiated. -/
def callees (f : FunctionBase) : List ℕ :=
  f.nodes.filterMap Node.callee ++
    if f.kind = .block then f.instantiations.filterMap Instantiation.instantiatedBlock else []

/-- The channels of the operations. -/
def channelIds (f : FunctionBase) : List ℕ := f.nodes.filterMap Node.channelId

end FunctionBase

/-- `Package`: the functions, procs and blocks in the order of `GetFunctionBases`, the ids of the
channels, and the top. -/
structure Package where
  functionBases : List FunctionBase
  channels : List ℕ
  top : Option ℕ
  deriving DecidableEq, Repr

namespace Package

/-- `procs`. -/
def procs (p : Package) : List FunctionBase := p.functionBases.filter fun f => f.kind = .proc

/-- The functions and blocks which one refers to. -/
def callees (p : Package) (id : ℕ) : List ℕ :=
  ((p.functionBases.find? fun f => f.id = id).map FunctionBase.callees).getD []

/-- `MarkReachedFunctions`.  Each call which does not return at once marks another function. -/
def markReachedFunctions (p : Package) (id : ℕ) (reached : List ℕ) : Option (List ℕ) :=
  MarkReachable.mark p.callees (p.functionBases.length + 1) id reached

/-- `RemoveFunctionBase`. -/
def removeFunctionBase (p : Package) (id : ℕ) : Option Package :=
  if p.top = some id then none
  else if id ∈ p.functionBases.map FunctionBase.id then
    some { p with functionBases := p.functionBases.filter fun f => f.id ≠ id }
  else none

/-- `GetChannel` and `RemoveChannel`. -/
def removeChannel (p : Package) (channelId : ℕ) : Option Package :=
  if channelId ∈ p.channels ∧ ∀ proc ∈ p.procs, channelId ∉ proc.channelIds then
    some { p with channels := p.channels.erase channelId }
  else none

end Package

/-- The loop over the nodes of a proc, with `representative_proc_channel_id`. -/
def unionChannels : Option ℕ → List ℕ → UnionFind ℕ → Option (UnionFind ℕ)
  | _, [], u => some u
  | none, channelId :: rest, u =>
    match UnionFind.insert u channelId with
    | none => none
    | some u => unionChannels (some channelId) rest u
  | some representative, channelId :: rest, u =>
    match UnionFind.insert u channelId with
    | none => none
    | some u =>
      match UnionFind.union u representative channelId with
      | none => none
      | some u => unionChannels (some representative) rest u

/-- The loop over the procs. -/
def unionProcs (procs : List FunctionBase) (u : UnionFind ℕ) : Option (UnionFind ℕ) :=
  procs.foldlM (fun u proc => unionChannels none proc.channelIds u) u

/-- `representative_channel_ids`: the first channel of each proc which has one. -/
def representativeChannelIds (procs : List FunctionBase) : List (ℕ × ℕ) :=
  procs.filterMap fun proc => proc.channelIds.head?.map fun channelId => (proc.id, channelId)

/-- The loop over `representative_channel_ids`. -/
def markConnected (p : Package) (topRepresentative : ℕ) :
    List (ℕ × ℕ) → UnionFind ℕ → List ℕ → Option (UnionFind ℕ × List ℕ)
  | [], u, reached => some (u, reached)
  | (proc, channelId) :: rest, u, reached =>
    match UnionFind.find u channelId with
    | none => none
    | some (representative, u) =>
      if representative = topRepresentative then
        match p.markReachedFunctions proc reached with
        | none => none
        | some reached => markConnected p topRepresentative rest u reached
      else markConnected p topRepresentative rest u reached

/-- The part for a proc as top: `top_proc_representative_channel_id`, and what is reached. -/
def markFromTop (p : Package) (top : ℕ) (u : UnionFind ℕ) (reached : List ℕ) :
    Option (Option ℕ × UnionFind ℕ × List ℕ) :=
  match (representativeChannelIds p.procs).lookup top with
  | none => some (none, u, reached)
  | some channelId =>
    match UnionFind.find u channelId with
    | none => none
    | some (representative, u) =>
      (markConnected p representative (representativeChannelIds p.procs) u reached).map
        fun result => (some representative, result)

/-- The loop which collects `channel_ids_to_remove`. -/
def channelIdsToRemove (topRepresentative : Option ℕ) : List ℕ → UnionFind ℕ → Option (List ℕ)
  | [], _ => some []
  | channelId :: rest, u =>
    match topRepresentative with
    | none => (channelIdsToRemove none rest u).map fun ids => channelId :: ids
    | some representative =>
      match UnionFind.find u channelId with
      | none => none
      | some (found, u) =>
        (channelIdsToRemove (some representative) rest u).map fun ids =>
          if found ≠ representative then channelId :: ids else ids

/-- The loop over the function bases. -/
def removeUnreached (reached : List ℕ) (functionBases : List FunctionBase) (p : Package) :
    Option Package :=
  functionBases.foldlM
    (fun p f => if f.id ∈ reached then some p else p.removeFunctionBase f.id) p

/-- `RunInternal`: the package and whether it changed.  `none` is an error or a failed check. -/
def runInternal (p : Package) : Option (Package × Bool) :=
  match p.top with
  | none => some (p, false)
  | some top =>
    (unionProcs p.procs UnionFindMap.empty).bind fun u =>
    (p.markReachedFunctions top []).bind fun reached =>
    (markFromTop p top u reached).bind fun result =>
    (removeUnreached result.2.2 p.functionBases p).bind fun p' =>
    (channelIdsToRemove result.1 p'.channels result.2.1).bind fun ids =>
    (ids.foldlM Package.removeChannel p').map fun p'' =>
      (p'', p.functionBases.any (fun f => decide (f.id ∉ result.2.2)) || !ids.isEmpty)

/-! ## What the pass is for -/

namespace Package

/-- What holds of a package in memory: pointers lead to function bases of the package of the right
kind, blocks alone have instantiations, and procs alone have operations on channels, which exist. -/
structure Valid (p : Package) : Prop where
  ids_nodup : (p.functionBases.map FunctionBase.id).Nodup
  top_mem : ∀ top, p.top = some top → ∃ f ∈ p.functionBases, f.id = top
  callee_mem : ∀ f ∈ p.functionBases, ∀ n ∈ f.nodes, ∀ id, n.callee = some id →
    ∃ g ∈ p.functionBases, g.id = id ∧ g.kind = .function
  instantiated_mem : ∀ f ∈ p.functionBases, ∀ i ∈ f.instantiations, ∀ id,
    i.instantiatedBlock = some id → ∃ g ∈ p.functionBases, g.id = id ∧ g.kind = .block
  instantiations_eq_nil : ∀ f ∈ p.functionBases, f.kind ≠ .block → f.instantiations = []
  channelIds_eq_nil : ∀ f ∈ p.functionBases, f.kind ≠ .proc → f.channelIds = []
  channels_nodup : p.channels.Nodup
  channel_mem : ∀ f ∈ p.functionBases, ∀ c ∈ f.channelIds, c ∈ p.channels

/-- One refers to the other. -/
def Calls (p : Package) (a b : ℕ) : Prop := b ∈ p.callees a

/-- Two procs have operations on one channel. -/
def SharesChannel (p : Package) (f g : FunctionBase) : Prop :=
  f ∈ p.procs ∧ g ∈ p.procs ∧ ∃ c, c ∈ f.channelIds ∧ c ∈ g.channelIds

/-- Reachable from the top: through calls and, from a proc as top, through procs each of which shares
a channel with the next. -/
def Reachable (p : Package) (id : ℕ) : Prop :=
  ∃ top, p.top = some top ∧ (ReflTransGen p.Calls top id ∨
    ∃ f ∈ p.procs, f.id = top ∧ ∃ g, ReflTransGen p.SharesChannel f g ∧
      ReflTransGen p.Calls g.id id)

/-- What dead function elimination is for. -/
def Eliminated (p : Package) : Prop :=
  ∃ p' changed, runInternal p = some (p', changed) ∧
    (∀ f, f ∈ p'.functionBases ↔ f ∈ p.functionBases ∧ p.Reachable f.id) ∧
    (∀ c, c ∈ p'.channels ↔ c ∈ p.channels ∧ ∃ proc ∈ p'.procs, c ∈ proc.channelIds) ∧
    p'.top = p.top ∧ p'.Valid

/-- Each channel is used by an operation, unless the top is no proc or a proc without operations on
channels. -/
def ChannelsUsed (p : Package) : Prop :=
  ∀ f ∈ p.procs, p.top = some f.id → f.channelIds ≠ [] →
    ∀ c ∈ p.channels, ∃ g ∈ p.procs, c ∈ g.channelIds

variable {p : Package} {f g : FunctionBase} {a b c id : ℕ}

theorem mem_procs : f ∈ p.procs ↔ f ∈ p.functionBases ∧ f.kind = .proc := by
  rw [procs, List.mem_filter, decide_eq_true_iff]

namespace Valid

theorem eq_of_id (h : p.Valid) (hf : f ∈ p.functionBases) (hg : g ∈ p.functionBases)
    (hid : f.id = g.id) : f = g :=
  List.inj_on_of_nodup_map h.ids_nodup hf hg hid

theorem callees_eq (h : p.Valid) (hf : f ∈ p.functionBases) : p.callees f.id = f.callees := by
  have hfind : (p.functionBases.find? fun g => g.id = f.id) = some f := by
    rcases hg : p.functionBases.find? fun g => g.id = f.id with - | g
    · have hnone := List.find?_eq_none.mp hg f hf
      exact absurd (decide_eq_true rfl) hnone
    · have hid := List.find?_some hg
      rw [decide_eq_true_iff] at hid
      rw [hg, h.eq_of_id (List.mem_of_find?_eq_some hg) hf hid]
  rw [Package.callees, hfind]
  rfl

/-- Calls lead to function bases of the package which are no procs. -/
theorem callee (h : p.Valid) (hcall : p.Calls a b) :
    ∃ g ∈ p.functionBases, g.id = b ∧ g.kind ≠ .proc := by
  rw [Calls, Package.callees] at hcall
  rcases hfind : p.functionBases.find? fun f => f.id = a with - | f
  · rw [hfind] at hcall
    cases hcall
  · rw [hfind] at hcall
    have hf := List.mem_of_find?_eq_some hfind
    rcases List.mem_append.mp hcall with hnode | hblock
    · obtain ⟨n, hn, hcallee⟩ := List.mem_filterMap.mp hnode
      obtain ⟨g, hg, hid, hkind⟩ := h.callee_mem f hf n hn b hcallee
      exact ⟨g, hg, hid, by rw [hkind]; decide⟩
    · split_ifs at hblock
      · obtain ⟨i, hi, hcallee⟩ := List.mem_filterMap.mp hblock
        obtain ⟨g, hg, hid, hkind⟩ := h.instantiated_mem f hf i hi b hcallee
        exact ⟨g, hg, hid, by rw [hkind]; decide⟩
      · cases hblock

/-- Calls never lead to a proc. -/
theorem eq_of_calls (h : p.Valid) (hf : f ∈ p.procs) (hcalls : ReflTransGen p.Calls a f.id) :
    a = f.id := by
  rcases hcalls.cases_tail with heq | ⟨b, -, hlast⟩
  · exact heq.symm
  · obtain ⟨g, hg, hid, hkind⟩ := h.callee hlast
    obtain ⟨hf, hproc⟩ := mem_procs.mp hf
    rw [h.eq_of_id hg hf hid] at hkind
    exact absurd hproc hkind

/-- The search from one function base, on top of a closed set. -/
theorem exists_marked (h : p.Valid) (hf : f ∈ p.functionBases) {reached : List ℕ}
    (hreached : ∀ a ∈ reached, ∀ b, p.Calls a b → b ∈ reached) :
    ∃ reached', p.markReachedFunctions f.id reached = some reached' ∧
      (∀ a ∈ reached', ∀ b, p.Calls a b → b ∈ reached') ∧
      ∀ a, a ∈ reached' ↔ a ∈ reached ∨ ReflTransGen p.Calls f.id a := by
  let ids := (p.functionBases.map FunctionBase.id).toFinset
  have hmem : ∀ g ∈ p.functionBases, g.id ∈ ids := fun g hg =>
    List.mem_toFinset.mpr (List.mem_map_of_mem hg)
  have hcard : ids.card < p.functionBases.length + 1 := by
    have hle := List.toFinset_card_le (p.functionBases.map FunctionBase.id)
    rw [List.length_map] at hle
    exact Nat.lt_succ_of_le hle
  refine MarkReachable.exists_mark (fun a _ b hb => ?_) (hmem f hf) hcard hreached
  obtain ⟨g, hg, rfl, -⟩ := h.callee hb
  exact hmem g hg

end Valid

end Package

/-! ## The union-find -/

open UnionFind (Partition)

/-- Two channels of one proc. -/
def Shared (procs : List FunctionBase) (a b : ℕ) : Prop :=
  ∃ f ∈ procs, a ∈ f.channelIds ∧ b ∈ f.channelIds

variable {p : Package} {f g : FunctionBase} {u : UnionFind ℕ} {rep : ℕ → Option ℕ}
  {R : ℕ → ℕ → Prop}

/-- The later channels of a proc are put to the first one. -/
theorem unionChannels_some {r : ℕ} (ids : List ℕ) (h : Partition u rep R) (hr : rep r ≠ none) :
    ∃ u' rep', unionChannels (some r) ids u = some u' ∧
      Partition u' rep' (fun a b => R a b ∨ a = r ∧ b ∈ ids) ∧
      ∀ c, rep' c ≠ none ↔ rep c ≠ none ∨ c ∈ ids := by
  induction ids generalizing u rep R with
  | nil =>
    refine ⟨u, rep, by rw [unionChannels], h.of_iff fun a b => ?_, fun c => ?_⟩
    · simp
    · simp
  | cons id ids ih =>
    obtain ⟨u₁, rep₁, hinsert, h₁, hrep₁⟩ := h.insert id
    obtain ⟨u₂, rep₂, hunion, h₂, hrep₂⟩ :=
      h₁.union ((hrep₁ r).mpr (Or.inr hr)) ((hrep₁ id).mpr (Or.inl rfl))
    obtain ⟨u₃, rep₃, hrest, h₃, hrep₃⟩ :=
      ih h₂ ((hrep₂ r).mpr ((hrep₁ r).mpr (Or.inr hr)))
    refine ⟨u₃, rep₃, ?_, h₃.of_iff fun a b => ?_, fun c => ?_⟩
    · rw [unionChannels, hinsert]
      simp only
      rw [hunion]
      exact hrest
    · rw [List.mem_cons, and_or_left, or_assoc]
    · rw [hrep₃, hrep₂, hrep₁, List.mem_cons]
      tauto

/-- The channels of a proc are put together. -/
theorem unionChannels_none (ids : List ℕ) (h : Partition u rep R) :
    ∃ u' rep', unionChannels none ids u = some u' ∧
      Partition u' rep' (fun a b => R a b ∨ a ∈ ids ∧ b ∈ ids) ∧
      ∀ c, rep' c ≠ none ↔ rep c ≠ none ∨ c ∈ ids := by
  cases ids with
  | nil =>
    refine ⟨u, rep, by rw [unionChannels], h.of_iff fun a b => ?_, fun c => ?_⟩
    · simp
    · simp
  | cons id ids =>
    obtain ⟨u₁, rep₁, hinsert, h₁, hrep₁⟩ := h.insert id
    obtain ⟨u₂, rep₂, hrest, h₂, hrep₂⟩ :=
      unionChannels_some ids h₁ ((hrep₁ id).mpr (Or.inl rfl))
    have hrep : ∀ c, rep₂ c ≠ none ↔ rep c ≠ none ∨ c ∈ id :: ids := by
      intro c
      rw [hrep₂, hrep₁, List.mem_cons]
      tauto
    refine ⟨u₂, rep₂, ?_, h₂.congr ?_ ?_ ?_, hrep⟩
    · rw [unionChannels, hinsert]
      exact hrest
    · rintro a b (hab | ⟨ha, hb⟩)
      · exact h₂.inserted a b (Or.inl hab)
      · exact ⟨(hrep a).mpr (Or.inr ha), (hrep b).mpr (Or.inr hb)⟩
    · rintro a b (hab | ⟨rfl, hb⟩)
      · exact .rel a b (Or.inl hab)
      · exact .rel a b (Or.inr ⟨List.mem_cons_self, List.mem_cons_of_mem _ hb⟩)
    · -- each channel is related to the first one
      have hfirst : ∀ c ∈ id :: ids, EqvGen (fun a b => R a b ∨ a = id ∧ b ∈ ids) id c := by
        intro c hc
        rcases List.mem_cons.mp hc with rfl | hc
        · exact .refl c
        · exact .rel id c (Or.inr ⟨rfl, hc⟩)
      rintro a b (hab | ⟨ha, hb⟩)
      · exact .rel a b (Or.inl hab)
      · exact .trans a id b (.symm id a (hfirst a ha)) (hfirst b hb)

/-- In the end two channels are in one class when a chain of procs leads from one to the other. -/
theorem unionProcs_spec (procs : List FunctionBase) (h : Partition u rep R) :
    ∃ u' rep', unionProcs procs u = some u' ∧
      Partition u' rep' (fun a b => R a b ∨ Shared procs a b) ∧
      ∀ c, rep' c ≠ none ↔ rep c ≠ none ∨ ∃ f ∈ procs, c ∈ f.channelIds := by
  induction procs generalizing u rep R with
  | nil =>
    refine ⟨u, rep, rfl, h.of_iff fun a b => ?_, fun c => ?_⟩
    · simp [Shared]
    · simp
  | cons f procs ih =>
    obtain ⟨u₁, rep₁, hchannels, h₁, hrep₁⟩ := unionChannels_none f.channelIds h
    obtain ⟨u₂, rep₂, hrest, h₂, hrep₂⟩ := ih h₁
    refine ⟨u₂, rep₂, ?_, h₂.of_iff fun a b => ?_, fun c => ?_⟩
    · rw [unionProcs, List.foldlM_cons, hchannels]
      exact hrest
    · simp only [Shared, List.mem_cons, exists_eq_or_imp, or_assoc]
    · rw [hrep₂, hrep₁]
      simp only [List.mem_cons, exists_eq_or_imp, or_assoc]

/-- The union-find after the loop over the procs of a package. -/
theorem exists_unionProcs (p : Package) : ∃ u rep, unionProcs p.procs UnionFindMap.empty = some u ∧
      Partition u rep (Shared p.procs) ∧
      ∀ c, rep c ≠ none ↔ ∃ f ∈ p.procs, c ∈ f.channelIds := by
  obtain ⟨u, rep, hu, h, hrep⟩ := unionProcs_spec p.procs UnionFind.partition_empty
  refine ⟨u, rep, hu, h.of_iff fun a b => ?_, fun c => ?_⟩
  · simp
  · rw [hrep]
    simp

/-! ## Chains of procs -/

/-- Procs which are connected have channels in one class. -/
theorem eqvGen_of_sharesChannel (hconn : ReflTransGen p.SharesChannel f g) {a b : ℕ}
    (hf : f ∈ p.procs) (ha : a ∈ f.channelIds) (hb : b ∈ g.channelIds) :
    EqvGen (Shared p.procs) a b := by
  induction hconn generalizing b with
  | refl => exact .rel a b ⟨f, hf, ha, hb⟩
  | tail _ hlast ih =>
    obtain ⟨-, hg, c, hc, hc'⟩ := hlast
    exact .trans a c b (ih hc) (.rel c b ⟨_, hg, hc', hb⟩)

/-- Procs with channels in one class are connected. -/
theorem sharesChannel_of_eqvGen {a b : ℕ} (hf : f ∈ p.procs) (ha : a ∈ f.channelIds)
    (hg : g ∈ p.procs) (hb : b ∈ g.channelIds) (hab : EqvGen (Shared p.procs) a b) :
    ReflTransGen p.SharesChannel f g := by
  -- the procs with one channel are connected when those with the other one are
  have hboth : ∀ {a b}, EqvGen (Shared p.procs) a b →
      ((∀ g ∈ p.procs, a ∈ g.channelIds → ReflTransGen p.SharesChannel f g) ↔
        ∀ g ∈ p.procs, b ∈ g.channelIds → ReflTransGen p.SharesChannel f g) := by
    intro a b hab
    induction hab with
    | rel a b hab =>
      obtain ⟨k, hk, hka, hkb⟩ := hab
      constructor
      · intro h g hg hgb
        exact (h k hk hka).tail ⟨hk, hg, b, hkb, hgb⟩
      · intro h g hg hga
        exact (h k hk hkb).tail ⟨hk, hg, a, hka, hga⟩
    | refl a => exact Iff.rfl
    | symm a b _ ih => exact ih.symm
    | trans a b c _ _ ihab ihbc => exact ihab.trans ihbc
  refine (hboth hab).mp (fun k hk hka => ?_) g hg hb
  exact .single ⟨hf, hk, a, ha, hka⟩

/-! ## What is reached -/

theorem mem_representativeChannelIds {procs : List FunctionBase} {id c : ℕ} :
    (id, c) ∈ representativeChannelIds procs ↔
      ∃ f ∈ procs, f.id = id ∧ f.channelIds.head? = some c := by
  rw [representativeChannelIds, List.mem_filterMap]
  refine exists_congr fun f => and_congr_right fun _ => ?_
  rcases f.channelIds.head? with - | c'
  · simp
  · simp

theorem mem_of_head? {l : List ℕ} {c : ℕ} (h : l.head? = some c) : c ∈ l :=
  List.mem_of_mem_head? h

theorem exists_head? {l : List ℕ} (h : l ≠ []) : ∃ c, l.head? = some c :=
  ⟨l.head h, List.head?_eq_some_head h⟩

/-- The loop over the procs marks what the procs of one class call. -/
theorem exists_markConnected (hp : p.Valid) {r : ℕ} (procs : List (ℕ × ℕ))
    (hprocs : ∀ e ∈ procs, (∃ f ∈ p.functionBases, f.id = e.1) ∧ rep e.2 ≠ none)
    {reached : List ℕ} (h : Partition u rep R)
    (hreached : ∀ a ∈ reached, ∀ b, p.Calls a b → b ∈ reached) :
    ∃ u' reached', markConnected p r procs u reached = some (u', reached') ∧
      Partition u' rep R ∧ ∀ a, a ∈ reached' ↔
        a ∈ reached ∨ ∃ e ∈ procs, rep e.2 = some r ∧ ReflTransGen p.Calls e.1 a := by
  induction procs generalizing u reached with
  | nil =>
    refine ⟨u, reached, by rw [markConnected], h, fun a => ?_⟩
    simp
  | cons e procs ih =>
    obtain ⟨id, c⟩ := e
    obtain ⟨⟨f, hf, hid⟩, hc⟩ := hprocs (id, c) List.mem_cons_self
    obtain rfl : f.id = id := hid
    obtain ⟨r', hr'⟩ := Option.ne_none_iff_exists'.mp hc
    obtain ⟨u₁, hfind, h₁⟩ := h.find hr'
    have hrest : ∀ e ∈ procs, (∃ f ∈ p.functionBases, f.id = e.1) ∧ rep e.2 ≠ none :=
      fun e he => hprocs e (List.mem_cons_of_mem _ he)
    rw [markConnected, hfind]
    simp only [List.mem_cons, exists_eq_or_imp, hr', Option.some.injEq]
    by_cases heq : r' = r
    · rw [if_pos heq]
      obtain ⟨reached₁, hmark, hclosed₁, hmem₁⟩ := hp.exists_marked hf hreached
      rw [hmark]
      obtain ⟨u', reached', hconn, h', hmem'⟩ := ih hrest h₁ hclosed₁
      refine ⟨u', reached', hconn, h', fun a => ?_⟩
      rw [hmem', hmem₁]
      simp only [heq, true_and, or_assoc]
    · rw [if_neg heq]
      obtain ⟨u', reached', hconn, h', hmem'⟩ := ih hrest h₁ hreached
      refine ⟨u', reached', hconn, h', fun a => ?_⟩
      rw [hmem']
      simp only [heq, false_and, false_or]

namespace Package

theorem Reachable.of_calls {a b : ℕ} (h : p.Reachable a) (hab : p.Calls a b) : p.Reachable b := by
  obtain ⟨top, htop, hcalls | ⟨f, hf, hid, g, hconn, hcalls⟩⟩ := h
  · exact ⟨top, htop, Or.inl (hcalls.tail hab)⟩
  · exact ⟨top, htop, Or.inr ⟨f, hf, hid, g, hconn, hcalls.tail hab⟩⟩

end Package

/-- A proc without operations on channels shares none. -/
theorem eq_of_sharesChannel (hf : f.channelIds = []) (hconn : ReflTransGen p.SharesChannel f g) :
    g = f := by
  rcases hconn.cases_head with heq | ⟨k, ⟨-, -, c, hc, -⟩, -⟩
  · exact heq.symm
  · rw [hf] at hc
    cases hc

/-- A proc connected to one with operations on channels has some. -/
theorem channelIds_ne_nil (hf : f.channelIds ≠ []) (hconn : ReflTransGen p.SharesChannel f g) :
    g.channelIds ≠ [] := by
  rcases hconn.cases_tail with heq | ⟨k, -, -, -, c, -, hc⟩
  · rw [heq]
    exact hf
  · exact List.ne_nil_of_mem hc

/-- What is known about the top: no proc with operations on channels, or one whose channels are in
the class of `topRepresentative`. -/
def TopClass (p : Package) (rep : ℕ → Option ℕ) (top : ℕ) : Option ℕ → Prop
  | none => ∀ f ∈ p.procs, f.id = top → f.channelIds = []
  | some r => ∃ f ∈ p.procs, f.id = top ∧ ∃ c ∈ f.channelIds, rep c = some r

/-- What is marked from the top is what is reachable. -/
theorem exists_markFromTop (hp : p.Valid) {top : ℕ} (htop : p.top = some top) {reached : List ℕ}
    (h : Partition u rep (Shared p.procs))
    (hrep : ∀ c, rep c ≠ none ↔ ∃ f ∈ p.procs, c ∈ f.channelIds)
    (hclosed : ∀ a ∈ reached, ∀ b, p.Calls a b → b ∈ reached)
    (hreached : ∀ a, a ∈ reached ↔ ReflTransGen p.Calls top a) :
    ∃ topRepresentative u' reached',
      markFromTop p top u reached = some (topRepresentative, u', reached') ∧
      Partition u' rep (Shared p.procs) ∧ TopClass p rep top topRepresentative ∧
      ∀ a, a ∈ reached' ↔ p.Reachable a := by
  have hbase : ∀ a, a ∈ reached → p.Reachable a := fun a ha =>
    ⟨top, htop, Or.inl ((hreached a).mp ha)⟩
  rw [markFromTop]
  rcases hlookup : (representativeChannelIds p.procs).lookup top with - | c
  · -- no proc, or one without operations on channels
    have hnil : ∀ f ∈ p.procs, f.id = top → f.channelIds = [] := by
      intro f hf hid
      by_contra hne
      obtain ⟨c, hc⟩ := exists_head? hne
      have hmem : (top, c) ∈ representativeChannelIds p.procs :=
        mem_representativeChannelIds.mpr ⟨f, hf, hid, hc⟩
      have hnone := List.lookup_eq_none_iff.mp hlookup (top, c) hmem
      simp at hnone
    refine ⟨none, u, reached, rfl, h, hnil, fun a => ⟨hbase a, ?_⟩⟩
    rintro ⟨top', htop', hcalls | ⟨f, hf, hid, g, hconn, hcalls⟩⟩
    · obtain rfl : top' = top := Option.some.inj (htop'.symm.trans htop)
      exact (hreached a).mpr hcalls
    · obtain rfl : top' = top := Option.some.inj (htop'.symm.trans htop)
      rw [eq_of_sharesChannel (hnil f hf hid) hconn, hid] at hcalls
      exact (hreached a).mpr hcalls
  · obtain ⟨before, after, hsplit, -⟩ := List.lookup_eq_some_iff.mp hlookup
    have hmem : (top, c) ∈ representativeChannelIds p.procs := by
      rw [hsplit]
      exact List.mem_append_right _ List.mem_cons_self
    obtain ⟨f, hf, hid, hhead⟩ := mem_representativeChannelIds.mp hmem
    have hc := mem_of_head? hhead
    obtain ⟨r, hr⟩ := Option.ne_none_iff_exists'.mp ((hrep c).mpr ⟨f, hf, hc⟩)
    obtain ⟨u₁, hfind, h₁⟩ := h.find hr
    obtain ⟨u', reached', hconn, h', hmem'⟩ := exists_markConnected (r := r) hp
      (representativeChannelIds p.procs) (fun e he => by
        obtain ⟨g, hg, hid, hhead⟩ := mem_representativeChannelIds.mp he
        exact ⟨⟨g, (Package.mem_procs.mp hg).1, hid⟩, (hrep e.2).mpr ⟨g, hg, mem_of_head? hhead⟩⟩)
      h₁ hclosed
    refine ⟨some r, u', reached', ?_, h', ⟨f, hf, hid, c, hc, hr⟩, fun a => ?_⟩
    · simp only
      rw [hfind]
      simp only
      rw [hconn]
      rfl
    · rw [hmem']
      constructor
      · rintro (ha | ⟨⟨id, c'⟩, he, hclass, hcalls⟩)
        · exact hbase a ha
        · obtain ⟨g, hg, rfl, hhead'⟩ := mem_representativeChannelIds.mp he
          have hc' := mem_of_head? hhead'
          have hsame : EqvGen (Shared p.procs) c c' :=
            (h.same_iff c c' ((hrep c).mpr ⟨f, hf, hc⟩) ((hrep c').mpr ⟨g, hg, hc'⟩)).mp
              (hr.trans hclass.symm)
          exact ⟨top, htop, Or.inr ⟨f, hf, hid, g, sharesChannel_of_eqvGen hf hc hg hc' hsame,
            hcalls⟩⟩
      · rintro ⟨top', htop', hcalls | ⟨f', hf', hid', g, hconn, hcalls⟩⟩
        · obtain rfl : top' = top := Option.some.inj (htop'.symm.trans htop)
          exact Or.inl ((hreached a).mpr hcalls)
        · obtain rfl : top' = top := Option.some.inj (htop'.symm.trans htop)
          obtain rfl : f' = f := hp.eq_of_id (Package.mem_procs.mp hf').1 (Package.mem_procs.mp hf).1
            (hid'.trans hid.symm)
          have hg : g ∈ p.procs := by
            rcases hconn.cases_tail with heq | ⟨k, -, -, hg, -⟩
            · rw [heq]
              exact hf
            · exact hg
          obtain ⟨c', hhead'⟩ := exists_head? (channelIds_ne_nil (List.ne_nil_of_mem hc) hconn)
          have hc' := mem_of_head? hhead'
          have hsame := eqvGen_of_sharesChannel hconn hf hc hc'
          refine Or.inr ⟨(g.id, c'), mem_representativeChannelIds.mpr ⟨g, hg, rfl, hhead'⟩, ?_, hcalls⟩
          rw [← hr]
          exact ((h.same_iff c c' ((hrep c).mpr ⟨f', hf, hc⟩) ((hrep c').mpr ⟨g, hg, hc'⟩)).mpr
            hsame).symm

/-! ## What is removed -/

/-- The package without the function bases of a list which were not reached. -/
def Package.without (p : Package) (reached : List ℕ) (l : List FunctionBase) : Package :=
  { p with functionBases := p.functionBases.filter fun f =>
      decide (f.id ∈ reached ∨ f.id ∉ l.map FunctionBase.id) }

/-- The loop over function bases leaves those which were reached. -/
theorem removeUnreached_eq {reached : List ℕ} (l : List FunctionBase)
    (hl : (l.map FunctionBase.id).Nodup) (hsub : ∀ f ∈ l, f ∈ p.functionBases)
    (htop : ∀ f ∈ l, f.id ∉ reached → p.top ≠ some f.id) :
    removeUnreached reached l p = some (p.without reached l) := by
  induction l generalizing p with
  | nil => simp [removeUnreached, Package.without]
  | cons f l ih =>
    rw [List.map_cons, List.nodup_cons] at hl
    have hrest : ∀ g ∈ l, g ∈ p.functionBases := fun g hg => hsub g (List.mem_cons_of_mem _ hg)
    rw [removeUnreached, List.foldlM_cons]
    by_cases hf : f.id ∈ reached
    · rw [if_pos hf]
      refine (ih hl.2 hrest fun g hg => htop g (List.mem_cons_of_mem _ hg)).trans ?_
      unfold Package.without
      congr 2
      apply List.filter_congr
      intro g _
      by_cases hid : g.id = f.id
      · simp [hid, hf]
      · simp [hid]
    · have hremove : p.removeFunctionBase f.id = some { p with
          functionBases := p.functionBases.filter fun g => g.id ≠ f.id } := by
        rw [Package.removeFunctionBase, if_neg (htop f List.mem_cons_self hf),
          if_pos (List.mem_map_of_mem (hsub f List.mem_cons_self))]
      rw [if_neg hf, hremove]
      refine (ih (p := { p with functionBases := p.functionBases.filter fun g => g.id ≠ f.id })
        hl.2 (fun g hg => ?_) fun g hg => htop g (List.mem_cons_of_mem _ hg)).trans ?_
      · refine List.mem_filter.mpr ⟨hrest g hg, decide_eq_true fun hid => hl.1 ?_⟩
        rw [← hid]
        exact List.mem_map_of_mem hg
      · unfold Package.without
        congr 2
        rw [List.filter_filter]
        apply List.filter_congr
        intro g _
        by_cases hid : g.id = f.id
        · simp [hid, hf]
        · simp [hid]

/-- Without a class of the top all channels are removed. -/
theorem channelIdsToRemove_none (l : List ℕ) : channelIdsToRemove none l u = some l := by
  induction l with
  | nil => rfl
  | cons c l ih => rw [channelIdsToRemove, ih, Option.map_some]

/-- The channels which are removed are those outside the class of the top. -/
theorem channelIdsToRemove_some {r : ℕ} (l : List ℕ) (h : Partition u rep R)
    (hl : ∀ c ∈ l, rep c ≠ none) :
    channelIdsToRemove (some r) l u = some (l.filter fun c => rep c ≠ some r) := by
  induction l generalizing u with
  | nil => rfl
  | cons c l ih =>
    obtain ⟨r', hr'⟩ := Option.ne_none_iff_exists'.mp (hl c List.mem_cons_self)
    obtain ⟨u₁, hfind, h₁⟩ := h.find hr'
    rw [channelIdsToRemove, hfind]
    simp only
    rw [ih h₁ fun c hc => hl c (List.mem_cons_of_mem _ hc)]
    by_cases heq : r' = r
    · simp [hr', heq]
    · simp [hr', heq]

/-- A channel which no operation uses makes `Find` fail. -/
theorem channelIdsToRemove_eq_none {r c : ℕ} (l : List ℕ) (h : Partition u rep R) (hc : c ∈ l)
    (hnone : rep c = none) : channelIdsToRemove (some r) l u = none := by
  induction l generalizing u with
  | nil => cases hc
  | cons c' l ih =>
    rw [channelIdsToRemove]
    rcases hr' : rep c' with - | r'
    · rw [h.find_eq_none hr']
    · obtain ⟨u₁, hfind, h₁⟩ := h.find hr'
      have hmem : c ∈ l := by
        rcases List.mem_cons.mp hc with rfl | hmem
        · rw [hnone] at hr'
          cases hr'
        · exact hmem
      rw [hfind]
      simp only
      rw [ih h₁ hmem]
      rfl

/-- Channels without operations are removed. -/
theorem exists_removeChannels (ids : List ℕ) (hids : ids.Nodup) (hchannels : p.channels.Nodup)
    (hmem : ∀ c ∈ ids, c ∈ p.channels)
    (hunused : ∀ c ∈ ids, ∀ proc ∈ p.procs, c ∉ proc.channelIds) :
    ∃ p', ids.foldlM Package.removeChannel p = some p' ∧
      p'.functionBases = p.functionBases ∧ p'.top = p.top ∧ p'.channels.Nodup ∧
      ∀ c, c ∈ p'.channels ↔ c ∈ p.channels ∧ c ∉ ids := by
  induction ids generalizing p with
  | nil => exact ⟨p, rfl, rfl, rfl, hchannels, fun c => by simp⟩
  | cons c ids ih =>
    rw [List.nodup_cons] at hids
    have hremove : p.removeChannel c = some { p with channels := p.channels.erase c } := by
      rw [Package.removeChannel, if_pos ⟨hmem c List.mem_cons_self, hunused c List.mem_cons_self⟩]
    have hne : ∀ d ∈ ids, d ≠ c := by
      rintro d hd rfl
      exact hids.1 hd
    obtain ⟨p', hfold, hfbs, htop, hnodup, hchannel⟩ :=
      ih (p := { p with channels := p.channels.erase c }) hids.2 (hchannels.erase c)
        (fun d hd => (List.mem_erase_of_ne (hne d hd)).mpr (hmem d (List.mem_cons_of_mem _ hd)))
        fun d hd => hunused d (List.mem_cons_of_mem _ hd)
    refine ⟨p', ?_, hfbs, htop, hnodup, fun d => ?_⟩
    · rw [List.foldlM_cons, hremove]
      exact hfold
    · rw [hchannel, hchannels.mem_erase_iff, List.mem_cons]
      tauto

/-! ## The pass -/

namespace Package

/-- The package without what is not reachable, when the channels which are left are those of the
procs which are left. -/
theorem Valid.of_reachable (h : p.Valid) {p' : Package} (htop' : p'.top = p.top)
    (hids : (p'.functionBases.map FunctionBase.id).Nodup)
    (hfbs : ∀ f, f ∈ p'.functionBases ↔ f ∈ p.functionBases ∧ p.Reachable f.id)
    (hnodup : p'.channels.Nodup)
    (hchannels : ∀ c, c ∈ p'.channels ↔ c ∈ p.channels ∧ ∃ proc ∈ p'.procs, c ∈ proc.channelIds) :
    p'.Valid where
  ids_nodup := hids
  top_mem t ht := by
    obtain ⟨f, hf, rfl⟩ := h.top_mem t (htop'.symm.trans ht)
    exact ⟨f, (hfbs f).mpr ⟨hf, f.id, htop'.symm.trans ht, Or.inl .refl⟩, rfl⟩
  callee_mem f hf n hn id hid := by
    obtain ⟨hf, hreach⟩ := (hfbs f).mp hf
    obtain ⟨g, hg, rfl, hkind⟩ := h.callee_mem f hf n hn id hid
    refine ⟨g, (hfbs g).mpr ⟨hg, hreach.of_calls ?_⟩, rfl, hkind⟩
    rw [Calls, h.callees_eq hf]
    exact List.mem_append_left _ (List.mem_filterMap.mpr ⟨n, hn, hid⟩)
  instantiated_mem f hf i hi id hid := by
    obtain ⟨hf, hreach⟩ := (hfbs f).mp hf
    obtain ⟨g, hg, rfl, hkind⟩ := h.instantiated_mem f hf i hi id hid
    refine ⟨g, (hfbs g).mpr ⟨hg, hreach.of_calls ?_⟩, rfl, hkind⟩
    have hblock : f.kind = .block := by
      by_contra hne
      rw [h.instantiations_eq_nil f hf hne] at hi
      cases hi
    rw [Calls, h.callees_eq hf]
    refine List.mem_append_right _ ?_
    rw [if_pos hblock]
    exact List.mem_filterMap.mpr ⟨i, hi, hid⟩
  instantiations_eq_nil f hf := h.instantiations_eq_nil f ((hfbs f).mp hf).1
  channelIds_eq_nil f hf := h.channelIds_eq_nil f ((hfbs f).mp hf).1
  channels_nodup := hnodup
  channel_mem f hf c hc := by
    refine (hchannels c).mpr ⟨h.channel_mem f ((hfbs f).mp hf).1 c hc, f, ?_, hc⟩
    refine mem_procs.mpr ⟨hf, ?_⟩
    by_contra hne
    rw [h.channelIds_eq_nil f ((hfbs f).mp hf).1 hne] at hc
    cases hc

end Package

/-- The pass up to the loop over the channels: the union-find knows the channels of all operations,
and the function bases which are left are the reachable ones. -/
theorem exists_reached (hp : p.Valid) {top : ℕ} (htop : p.top = some top) :
    ∃ (u : UnionFind ℕ) (rep : ℕ → Option ℕ) (topRepresentative : Option ℕ) (reached : List ℕ)
      (p' : Package), runInternal p =
        ((channelIdsToRemove topRepresentative p.channels u).bind fun ids =>
          (ids.foldlM Package.removeChannel p').map fun p'' =>
            (p'', p.functionBases.any (fun f => decide (f.id ∉ reached)) || !ids.isEmpty)) ∧
      Partition u rep (Shared p.procs) ∧ TopClass p rep top topRepresentative ∧
      (∀ c, rep c ≠ none ↔ ∃ f ∈ p.procs, c ∈ f.channelIds) ∧
      p'.channels = p.channels ∧ p'.top = p.top ∧
      (p'.functionBases.map FunctionBase.id).Nodup ∧
      ∀ f, f ∈ p'.functionBases ↔ f ∈ p.functionBases ∧ p.Reachable f.id := by
  obtain ⟨u, rep, hu, hpartition, hrep⟩ := exists_unionProcs p
  obtain ⟨f, hf, rfl⟩ := hp.top_mem top htop
  have hnil : ∀ a ∈ ([] : List ℕ), ∀ b, p.Calls a b → b ∈ ([] : List ℕ) :=
    fun a ha => absurd ha List.not_mem_nil
  obtain ⟨reached, hmark, hclosed, hreached⟩ := hp.exists_marked hf hnil
  obtain ⟨topRepresentative, u', reached', hfrom, hpartition', hclass, hmem⟩ :=
    exists_markFromTop hp htop hpartition hrep hclosed fun a => (hreached a).trans (by simp)
  have hremove : removeUnreached reached' p.functionBases p =
      some (p.without reached' p.functionBases) :=
    removeUnreached_eq p.functionBases hp.ids_nodup (fun g hg => hg)
      fun g _ hunreached htop' => hunreached ((hmem g.id).mpr ⟨g.id, htop', Or.inl .refl⟩)
  refine ⟨u', rep, topRepresentative, reached', p.without reached' p.functionBases, ?_, hpartition',
    hclass, hrep, rfl, rfl, ?_, fun g => ?_⟩
  · rw [runInternal, htop]
    simp only
    rw [hu, Option.bind_some, hmark, Option.bind_some, hfrom, Option.bind_some]
    rw [hremove]
    rfl
  · exact hp.ids_nodup.sublist (List.filter_sublist.map _)
  · rw [Package.without, List.mem_filter, decide_eq_true_iff, hmem]
    refine and_congr_right fun hg => ?_
    rw [or_iff_left]
    exact fun hnot => hnot (List.mem_map_of_mem hg)

/-- A proc which is left is the top or connected with it. -/
theorem Package.Valid.connected (hp : p.Valid) {top : ℕ} (htop : p.top = some top)
    (hg : g ∈ p.procs) (hreach : p.Reachable g.id) :
    ∃ f ∈ p.procs, f.id = top ∧ ReflTransGen p.SharesChannel f g := by
  obtain ⟨top', htop', hcalls | ⟨f, hf, hid, k, hconn, hcalls⟩⟩ := hreach
  · obtain rfl : top' = top := Option.some.inj (htop'.symm.trans htop)
    exact ⟨g, hg, (hp.eq_of_calls hg hcalls).symm, .refl⟩
  · obtain rfl : top' = top := Option.some.inj (htop'.symm.trans htop)
    have hk : k ∈ p.procs := by
      rcases hconn.cases_tail with heq | ⟨m, -, -, hk, -⟩
      · rw [heq]
        exact hf
      · exact hk
    obtain rfl : k = g := hp.eq_of_id (mem_procs.mp hk).1 (mem_procs.mp hg).1
      (hp.eq_of_calls hg hcalls)
    exact ⟨f, hf, hid, hconn⟩

/-- Dead function elimination does what it is for exactly when the top is no proc with operations on
channels, or every channel of the package is used by an operation. -/
theorem runInternal_eliminates_iff (p : Package) (hp : p.Valid) (htop : p.top ≠ none) :
    p.Eliminated ↔ p.ChannelsUsed := by
  obtain ⟨top, htop⟩ := Option.ne_none_iff_exists'.mp htop
  obtain ⟨u, rep, topRepresentative, reached, p', hrun, hpartition, hclass, hrep, hchannels', htop',
    hids, hfbs⟩ := exists_reached hp htop
  have hprocs : ∀ g, g ∈ p'.procs ↔ g ∈ p.procs ∧ p.Reachable g.id := by
    intro g
    rw [Package.mem_procs, Package.mem_procs, hfbs, and_right_comm]
  constructor
  · rintro ⟨p'', changed, heq, -⟩ f hf hftop hne c hc
    rw [hrun] at heq
    by_contra hunused
    have hnone : rep c = none := by
      by_contra hsome
      exact hunused ((hrep c).mp hsome)
    cases topRepresentative with
    | none => exact hne (hclass f hf (Option.some.inj (hftop.symm.trans htop)))
    | some r =>
      rw [channelIdsToRemove_eq_none p.channels hpartition hc hnone] at heq
      cases heq
  · intro hused
    -- the channels to remove are those which no proc that is left uses
    obtain ⟨ids, hidsEq, hidsNodup, hidsMem⟩ : ∃ ids,
        channelIdsToRemove topRepresentative p.channels u = some ids ∧ ids.Nodup ∧
        ∀ c, c ∈ ids ↔ c ∈ p.channels ∧ ¬ ∃ proc ∈ p'.procs, c ∈ proc.channelIds := by
      cases topRepresentative with
      | none =>
        refine ⟨p.channels, channelIdsToRemove_none p.channels, hp.channels_nodup, fun c => ?_⟩
        refine (and_iff_left ?_).symm
        rintro ⟨g, hg, hc⟩
        obtain ⟨hg, hreach⟩ := (hprocs g).mp hg
        obtain ⟨f, hf, hid, hconn⟩ := hp.connected htop hg hreach
        have hnil := hclass f hf hid
        rw [eq_of_sharesChannel hnil hconn, hnil] at hc
        cases hc
      | some r =>
        obtain ⟨f, hf, hid, ct, hct, hr⟩ := hclass
        have hinserted : ∀ c ∈ p.channels, rep c ≠ none := fun c hc =>
          (hrep c).mpr (hused f hf (htop.trans (congrArg some hid.symm)) (List.ne_nil_of_mem hct)
            c hc)
        refine ⟨_, channelIdsToRemove_some p.channels hpartition hinserted,
          hp.channels_nodup.filter _, fun c => ?_⟩
        rw [List.mem_filter, decide_eq_true_iff]
        refine and_congr_right fun hc => not_congr ?_
        have hcr := hinserted c hc
        have htr : rep ct ≠ none := by
          rw [hr]
          exact Option.some_ne_none r
        rw [← hr, eq_comm, hpartition.same_iff ct c htr hcr]
        constructor
        · intro hsame
          obtain ⟨g, hg, hcg⟩ := (hrep c).mp hcr
          refine ⟨g, (hprocs g).mpr ⟨hg, top, htop, Or.inr ⟨f, hf, hid, g, ?_, .refl⟩⟩, hcg⟩
          exact sharesChannel_of_eqvGen hf hct hg hcg hsame
        · rintro ⟨g, hg, hcg⟩
          obtain ⟨hg, hreach⟩ := (hprocs g).mp hg
          obtain ⟨f', hf', hid', hconn⟩ := hp.connected htop hg hreach
          obtain rfl : f' = f := hp.eq_of_id (Package.mem_procs.mp hf').1
            (Package.mem_procs.mp hf).1 (hid'.trans hid.symm)
          exact eqvGen_of_sharesChannel hconn hf hct hcg
    have hunused : ∀ c ∈ ids, ∀ proc ∈ p'.procs, c ∉ proc.channelIds := fun c hc proc hproc hmem =>
      ((hidsMem c).mp hc).2 ⟨proc, hproc, hmem⟩
    obtain ⟨p'', hfold, hfbs'', htop'', hnodup'', hchannels''⟩ := exists_removeChannels ids hidsNodup
      (by rw [hchannels']; exact hp.channels_nodup)
      (fun c hc => by rw [hchannels']; exact ((hidsMem c).mp hc).1) hunused
    have hprocs'' : p''.procs = p'.procs := by rw [Package.procs, Package.procs, hfbs'']
    have hleft : ∀ c, c ∈ p''.channels ↔
        c ∈ p.channels ∧ ∃ proc ∈ p''.procs, c ∈ proc.channelIds := by
      intro c
      rw [hchannels'', hidsMem, hchannels', hprocs'']
      by_cases hkept : ∃ proc ∈ p'.procs, c ∈ proc.channelIds
      · simp only [hkept, not_true, and_false, not_false_iff]
      · simp only [hkept, not_false_iff, and_true, and_not_self, and_false]
    have hfunctions : ∀ f, f ∈ p''.functionBases ↔ f ∈ p.functionBases ∧ p.Reachable f.id := by
      intro f
      rw [hfbs'']
      exact hfbs f
    refine ⟨p'', p.functionBases.any (fun f => decide (f.id ∉ reached)) || !ids.isEmpty, ?_,
      hfunctions, hleft, htop''.trans htop', ?_⟩
    · rw [hrun, hidsEq, Option.bind_some, hfold]
      rfl
    · refine hp.of_reachable (htop''.trans htop') ?_ hfunctions hnodup'' hleft
      rw [hfbs'']
      exact hids

/-- Two procs which share a channel, a function which one of them calls, and another function. -/
def sharingProcs : List FunctionBase :=
  [⟨0, .function, [.other], []⟩, ⟨1, .function, [.other], []⟩, ⟨2, .proc, [.send 5], []⟩,
    ⟨3, .proc, [.receive 5, .invoke 1], []⟩]

def sharing (channels : List ℕ) : Package := ⟨sharingProcs, channels, some 2⟩

theorem valid_sharing {channels : List ℕ} (hnodup : channels.Nodup) (hmem : 5 ∈ channels) :
    (sharing channels).Valid where
  ids_nodup := by
    show (sharingProcs.map FunctionBase.id).Nodup
    decide
  top_mem := by
    rintro top ⟨⟩
    exact ⟨⟨2, .proc, [.send 5], []⟩, List.mem_of_elem_eq_true rfl, rfl⟩
  callee_mem := by
    have hall : ∀ f ∈ sharingProcs, ∀ n ∈ f.nodes, ∀ id ∈ n.callee,
        ∃ g ∈ sharingProcs, g.id = id ∧ g.kind = .function := by decide
    exact hall
  instantiated_mem := by
    have hall : ∀ f ∈ sharingProcs, ∀ i ∈ f.instantiations, ∀ id ∈ i.instantiatedBlock,
        ∃ g ∈ sharingProcs, g.id = id ∧ g.kind = .block := by decide
    exact hall
  instantiations_eq_nil := by
    show ∀ f ∈ sharingProcs, f.kind ≠ .block → f.instantiations = []
    decide
  channelIds_eq_nil := by
    show ∀ f ∈ sharingProcs, f.kind ≠ .proc → f.channelIds = []
    decide
  channels_nodup := hnodup
  channel_mem := by
    have hall : ∀ f ∈ sharingProcs, ∀ c ∈ f.channelIds, c = 5 := by decide
    intro f hf c hc
    rw [hall f hf c hc]
    exact hmem

/-- Nothing goes wrong when all channels are used: the function that is not called goes. -/
theorem eliminated_sharing : (sharing [5]).Eliminated := by
  refine (runInternal_eliminates_iff (sharing [5]) (valid_sharing (by decide) (by decide))
    (by decide)).mpr ?_
  intro f _ _ _ c hc
  rw [show c = 5 from List.mem_singleton.mp hc]
  exact ⟨⟨2, .proc, [.send 5], []⟩, by decide, by decide⟩

/-- Another channel, which no operation uses. -/
theorem not_eliminated_sharing : (sharing [5, 6]).Valid ∧ (sharing [5, 6]).top = some 2 ∧
    runInternal (sharing [5, 6]) = none ∧ ¬ (sharing [5, 6]).Eliminated := by
  have hrun : runInternal (sharing [5, 6]) = none := by decide
  refine ⟨valid_sharing (by decide) (by decide), rfl, hrun, ?_⟩
  rintro ⟨p', changed, heq, -⟩
  rw [hrun] at heq
  cases heq

end DeadFunctionElimination

end Xls
