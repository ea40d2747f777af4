/-
# What the removal of sends and receives preserves

A run of the pass ends with procs which do what they did.  It fails for channels with a negative id,
whose sets are looked up in a vector, and for a receive which does not block and has a literal zero
as its predicate, unless it is the last one on its channel: the tuple in its place has no valid bit.

* `Invariant.visit` : one node is visited;
* `runInternal_exact_iff` : when the pass ends and preserves the behaviour.
-/
import Xls.Passes.UselessIORemovalEdits
import Xls.Passes.UselessIORemovalMaps

namespace Xls.UselessIORemoval

variable {α : Type} {package : Package α} {order : Proc α → List ℕ} {m k : NodeId} {id : ℤ}

/-! ## Packages -/

namespace Package

/-- The use a node of a package makes of a channel. -/
def channelUse (package : Package α) (m : NodeId) : Option ChannelUse :=
  (package.procs[m.1]?).bind fun P => P.channelUse m.2

/-- The predicate of a node of a package is a literal zero. -/
def hasZeroPredicate (package : Package α) (m : NodeId) : Bool :=
  (package.procs[m.1]?).any fun P => P.hasZeroPredicate m.2

/-- What the verifier checks of a package, and the order of its channels. -/
structure Verified (package : Package α) : Prop where
  procs : ∀ P ∈ package.procs, P.Verified package.channels
  sorted : ∀ last, package.channels.getLast? = some last →
    ∀ channel ∈ package.channels, channel.id ≤ last.id

/-- The order of a proc lists its nodes. -/
def IsListing (package : Package α) (order : Proc α → List ℕ) : Prop :=
  ∀ P ∈ package.procs, (order P).Nodup ∧ ∀ i, i ∈ order P ↔ (P.nodes.vertex i).isSome = true

theorem channelUse_eq_bind : package.channelUse m =
    (package.vertex m).bind fun n => n.label.op.channelUse := by
  rw [vertex, Option.bind_assoc]
  rfl

theorem sendId_eq_some_iff : package.sendId m = some id ↔
    package.channelUse m = some (.send id) := by
  rw [channelUse_eq_bind, sendId]
  rcases package.vertex m with - | ⟨⟨op, t⟩, os⟩
  · exact ⟨nofun, nofun⟩
  · cases op with
    | send id' =>
      change some id' = some id ↔ some (ChannelUse.send id') = some (ChannelUse.send id)
      rw [Option.some.injEq, Option.some.injEq, ChannelUse.send.injEq]
    | receive id' isBlocking => exact ⟨nofun, nofun⟩
    | literal value => exact ⟨nofun, nofun⟩
    | tuple => exact ⟨nofun, nofun⟩
    | other op => exact ⟨nofun, nofun⟩

theorem receiveId_eq_some_iff : package.receiveId m = some id ↔
    ∃ isBlocking, package.channelUse m = some (.receive id isBlocking) := by
  rw [channelUse_eq_bind, receiveId]
  rcases package.vertex m with - | ⟨⟨op, t⟩, os⟩
  · exact ⟨nofun, nofun⟩
  · cases op with
    | receive id' isBlocking =>
      change some id' = some id ↔ ∃ b, some (ChannelUse.receive id' isBlocking) =
        some (ChannelUse.receive id b)
      constructor
      · intro h
        exact ⟨isBlocking, by rw [Option.some.inj h]⟩
      · rintro ⟨b, h⟩
        rw [(ChannelUse.receive.inj (Option.some.inj h)).1]
    | send id' => exact ⟨nofun, nofun⟩
    | literal value => exact ⟨nofun, nofun⟩
    | tuple => exact ⟨nofun, nofun⟩
    | other op => exact ⟨nofun, nofun⟩

theorem channelUse_of_sendId (h : package.sendId m = some id) :
    (package.channelUse m).isSome = true := by
  rw [sendId_eq_some_iff.mp h]
  rfl

theorem channelUse_of_receiveId (h : package.receiveId m = some id) :
    (package.channelUse m).isSome = true := by
  obtain ⟨isBlocking, h⟩ := receiveId_eq_some_iff.mp h
  rw [h]
  rfl

theorem mem_listNodes : m ∈ package.listNodes order ↔
    ∃ P, package.procs[m.1]? = some P ∧ m.2 ∈ order P := by
  rw [listNodes, List.mem_flatMap]
  constructor
  · rintro ⟨p, -, hp⟩
    rcases hP : package.procs[p]? with - | P
    · rw [hP] at hp
      cases hp
    · rw [hP] at hp
      obtain ⟨i, hi, rfl⟩ := List.mem_map.mp hp
      exact ⟨P, hP, hi⟩
  · rintro ⟨P, hP, hi⟩
    refine ⟨m.1, List.mem_range.mpr (List.getElem?_eq_some_iff.mp hP).1, ?_⟩
    rw [hP]
    exact List.mem_map.mpr ⟨m.2, hi, rfl⟩

/-- The nodes which are listed for a proc are nodes of it. -/
theorem fst_of_mem_listed {r : ℕ} {m : NodeId} (hr : m ∈ (match package.procs[r]? with
      | some P => (order P).map fun i => (r, i)
      | none => [])) : m.1 = r := by
  rcases hP : package.procs[r]? with - | P
  · rw [hP] at hr
    cases hr
  · rw [hP] at hr
    obtain ⟨i, -, rfl⟩ := List.mem_map.mp hr
    rfl

theorem IsListing.nodup (h : package.IsListing order) : (package.listNodes order).Nodup := by
  rw [listNodes, List.nodup_flatMap]
  constructor
  · intro p _
    rcases hP : package.procs[p]? with - | P
    · exact List.nodup_nil
    · apply (h P (List.mem_of_getElem? hP)).1.map
      intro i j hij
      exact (Prod.mk.inj hij).2
  · apply List.nodup_range.imp
    intro p q hpq m hp hq
    -- the nodes of different procs differ
    exact hpq ((fst_of_mem_listed hp).symm.trans (fst_of_mem_listed hq))

theorem isListing_positions : package.IsListing Proc.positions := by
  intro P _
  refine ⟨List.nodup_range.filter _, ?_⟩
  intro i
  rw [Proc.positions, List.mem_filter, List.mem_range]
  constructor
  · exact fun h => h.2
  · intro h
    obtain ⟨n, hn⟩ := Option.isSome_iff_exists.mp h
    exact ⟨TermGraph.lt_length_of_vertex hn, h⟩

/-- The sends and receives are listed. -/
theorem IsListing.mem_of_channelUse (h : package.IsListing order)
    (hm : (package.channelUse m).isSome = true) : m ∈ package.listNodes order := by
  obtain ⟨u, hu⟩ := Option.isSome_iff_exists.mp hm
  obtain ⟨P, hP, hu⟩ := Option.bind_eq_some_iff.mp hu
  obtain ⟨n, hn, -⟩ := Option.bind_eq_some_iff.mp hu
  refine mem_listNodes.mpr ⟨P, hP, ((h P (List.mem_of_getElem? hP)).2 m.2).mpr ?_⟩
  rw [hn]
  rfl

/-- A send or a receive has a channel. -/
theorem Verified.exists_channel (h : package.Verified)
    (hm : package.sendId m = some id ∨ package.receiveId m = some id) :
    ∃ channel ∈ package.channels, channel.id = id := by
  have hfind : ∃ channel, package.channels.find? (fun channel => channel.id == id) =
      some channel := by
    rcases hm with hm | hm
    · obtain ⟨⟨⟨op, t⟩, os⟩, hn, hop⟩ := Option.bind_eq_some_iff.mp hm
      obtain ⟨P, hP, hn⟩ := Option.bind_eq_some_iff.mp hn
      have hnode := (h.procs P (List.mem_of_getElem? hP)).node m.2 _ hn
      cases op <;> cases hop
      exact hnode.1
    · obtain ⟨⟨⟨op, t⟩, os⟩, hn, hop⟩ := Option.bind_eq_some_iff.mp hm
      obtain ⟨P, hP, hn⟩ := Option.bind_eq_some_iff.mp hn
      have hnode := (h.procs P (List.mem_of_getElem? hP)).node m.2 _ hn
      cases op <;> cases hop
      obtain ⟨channel, hchannel, -⟩ := hnode
      exact ⟨channel, hchannel⟩
  obtain ⟨channel, hchannel⟩ := hfind
  have hid := List.find?_some hchannel
  exact ⟨channel, List.mem_of_find?_eq_some hchannel, beq_iff_eq.mp hid⟩

end Package

/-! ## The maps -/

/-- The channels fit into a vector: there may be one of its size, and no send or receive has a
negative id. -/
def IdsIndexable (maxSize : ℕ) (package : Package α) : Prop :=
  (∀ last, package.channels.getLast? = some last → 0 ≤ last.id + 1 ∧ last.id + 1 ≤ maxSize) ∧
    ∀ m id, package.sendId m = some id ∨ package.receiveId m = some id → 0 ≤ id

/-- The maps are computed exactly when the channels fit into a vector. -/
theorem computeChannelMaps_exact {maxSize : ℕ} (hv : package.Verified) :
    ((computeChannelMaps maxSize package).isSome = true ↔ IdsIndexable maxSize package) ∧
      ∀ maps, computeChannelMaps maxSize package = some maps →
        Tracks package.sendId package.hasZeroPredicate [] maps.toSend ∧
          Tracks package.receiveId package.hasZeroPredicate [] maps.toReceive := by
  rw [computeChannelMaps]
  rcases hlast : package.channels.getLast? with - | last
  · have hnil : package.channels = [] := List.getLast?_eq_none_iff.mp hlast
    have hnone : ∀ m id, ¬ (package.sendId m = some id ∨ package.receiveId m = some id) := by
      intro m id hm
      obtain ⟨channel, hchannel, -⟩ := hv.exists_channel hm
      rw [hnil] at hchannel
      cases hchannel
    have hat : ∀ id nodes, ChannelMap.at? [] id ≠ some nodes := by
      intro id nodes h
      cases (ChannelMap.at?_eq_some_iff.mp h).2
    have htracks : ∀ use : NodeId → Option ℤ, (∀ m id, use m ≠ some id) →
        Tracks use package.hasZeroPredicate [] [] := by
      intro use huse
      exact ⟨fun id nodes h => absurd h (hat id nodes), fun id nodes h => absurd h (hat id nodes),
        fun m id h => absurd h (huse m id), fun id nodes m h => absurd h (hat id nodes)⟩
    refine ⟨⟨fun _ => ⟨?_, fun m id hm => absurd hm (hnone m id)⟩, fun _ => rfl⟩, ?_⟩
    · intro last h
      rw [hlast] at h
      cases h
    · rintro maps ⟨⟩
      exact ⟨htracks _ fun m id h => hnone m id (Or.inl h),
        htracks _ fun m id h => hnone m id (Or.inr h)⟩
  · dsimp only
    split_ifs with hneg
    · refine ⟨⟨nofun, fun h => ?_⟩, nofun⟩
      have := h.1 last hlast
      omega
    · have hmem : ∀ m id, package.sendId m = some id ∨ package.receiveId m = some id →
          m ∈ package.listNodes Proc.positions := by
        intro m id hm
        apply Package.isListing_positions.mem_of_channelUse
        exact hm.elim Package.channelUse_of_sendId Package.channelUse_of_receiveId
      have hlt : ∀ m id, package.sendId m = some id ∨ package.receiveId m = some id → 0 ≤ id →
          id < (last.id + 1).toNat := by
        intro m id hm hid
        obtain ⟨channel, hchannel, rfl⟩ := hv.exists_channel hm
        have hle := hv.sorted last hlast channel hchannel
        omega
      obtain ⟨hsend, hsendTracks⟩ := foldlM_enter_tracks package.hasZeroPredicate
        (fun m id h => hmem m id (Or.inl h)) (fun m id h => hlt m id (Or.inl h))
      obtain ⟨hreceive, hreceiveTracks⟩ := foldlM_enter_tracks package.hasZeroPredicate
        (fun m id h => hmem m id (Or.inr h)) (fun m id h => hlt m id (Or.inr h))
      have hids : IdsIndexable maxSize package ↔ (∀ m id, package.sendId m = some id → 0 ≤ id) ∧
          ∀ m id, package.receiveId m = some id → 0 ≤ id := by
        constructor
        · intro h
          exact ⟨fun m id hm => h.2 m id (Or.inl hm), fun m id hm => h.2 m id (Or.inr hm)⟩
        · rintro ⟨hs, hr⟩
          refine ⟨?_, fun m id hm => hm.elim (hs m id) (hr m id)⟩
          intro last' hlast'
          rw [hlast, Option.some.injEq] at hlast'
          rw [← hlast']
          omega
      rw [hids, ← hsend, ← hreceive]
      rcases htoSend : (package.listNodes Proc.positions).foldlM (enter package.sendId) _ with
        - | toSend
      · exact ⟨⟨nofun, fun h => h.1⟩, nofun⟩
      · rcases htoReceive : (package.listNodes Proc.positions).foldlM (enter package.receiveId) _ with
          - | toReceive
        · exact ⟨⟨nofun, fun h => h.2⟩, nofun⟩
        · refine ⟨⟨fun _ => ⟨rfl, rfl⟩, fun _ => rfl⟩, ?_⟩
          rintro maps ⟨⟩
          exact ⟨hsendTracks toSend htoSend, hreceiveTracks toReceive htoReceive⟩

/-! ## Visits -/

/-- A map tracks the nodes of its channels, and each node in it is still there: another one may have
come into its place. -/
structure Kept (package : Package α) (use : NodeId → Option ℤ) (visited : List NodeId)
    (slot : ℕ → ℕ → ℕ) (procs : List (Proc α)) (table : ChannelMap) : Prop where
  tracks : Tracks use package.hasZeroPredicate visited table
  held : ∀ id nodes m, table.at? id = some nodes → m ∈ nodes → ∃ P l, procs[m.1]? = some P ∧
    slot m.1 l = m.2 ∧ P.channelUse l = package.channelUse m

/-- A run after some visits. -/
structure Invariant (package : Package α) (visited : List NodeId) (slot : ℕ → ℕ → ℕ)
    (s : State α) : Prop where
  length : s.procs.length = package.procs.length
  procs : ∀ p P P', package.procs[p]? = some P → s.procs[p]? = some P' →
    SameIO P P' (slot p) ∧ P'.Verified package.channels
  pending : ∀ p P P', package.procs[p]? = some P → s.procs[p]? = some P' →
    ∀ i < P.nodes.length, (p, i) ∉ visited →
      P'.channelUse i = P.channelUse i ∧ P'.hasZeroPredicate i = P.hasZeroPredicate i
  send : Kept package package.sendId visited slot s.procs s.maps.toSend
  receive : Kept package package.receiveId visited slot s.procs s.maps.toReceive

/-- Before the first visit. -/
theorem invariant_start (hv : package.Verified) {maps : ChannelMaps}
    (hsend : Tracks package.sendId package.hasZeroPredicate [] maps.toSend)
    (hreceive : Tracks package.receiveId package.hasZeroPredicate [] maps.toReceive) :
    Invariant package [] (fun _ i => i) ⟨package.procs, maps, false⟩ := by
  have hheld : ∀ m id, package.sendId m = some id ∨ package.receiveId m = some id →
      ∃ P, package.procs[m.1]? = some P ∧ P.channelUse m.2 = package.channelUse m := by
    intro m id hm
    obtain ⟨u, hu⟩ := Option.isSome_iff_exists.mp
      (hm.elim Package.channelUse_of_sendId Package.channelUse_of_receiveId)
    obtain ⟨P, hP, hPu⟩ := Option.bind_eq_some_iff.mp hu
    exact ⟨P, hP, by rw [hPu, hu]⟩
  refine ⟨rfl, ?_, ?_, ⟨hsend, ?_⟩, ⟨hreceive, ?_⟩⟩
  · intro p P P' hP hP'
    rw [hP, Option.some.injEq] at hP'
    rw [← hP']
    exact ⟨.refl P, hv.procs P (List.mem_of_getElem? hP)⟩
  · intro p P P' hP hP' i _ _
    rw [hP, Option.some.injEq] at hP'
    rw [hP']
    exact ⟨rfl, rfl⟩
  · intro id nodes m hnodes hm
    obtain ⟨P, hP, huse⟩ := hheld m id (Or.inl (hsend.sound id nodes hnodes m hm))
    exact ⟨P, m.2, hP, rfl, huse⟩
  · intro id nodes m hnodes hm
    obtain ⟨P, hP, huse⟩ := hheld m id (Or.inr (hreceive.sound id nodes hnodes m hm))
    exact ⟨P, m.2, hP, rfl, huse⟩

variable {use : NodeId → Option ℤ} {visited : List NodeId} {slot : ℕ → ℕ → ℕ} {slot' : ℕ → ℕ}
  {procs : List (Proc α)} {table table' : ChannelMap} {s s' : State α} {P P' P₀ : Proc α}

section

variable (h : Kept package use visited slot procs table)

include h

section

variable (huses : ∀ k id, use k = some id → (package.channelUse k).isSome = true)

include huses

/-- The map after the visit of a node whose proc was edited. -/
theorem Kept.edit
    (hP₀ : m.2 < P₀.nodes.length) (hP : procs[m.1]? = some P)
    (hsame : SameIO P₀ P (slot m.1)) (hedit : Edit package.channels P P' slot' m.2)
    (htracks : Tracks use package.hasZeroPredicate (visited ++ [m]) table')
    (hold : ∀ id nodes k, table'.at? id = some nodes → k ∈ nodes →
      (∃ nodes', table.at? id = some nodes' ∧ k ∈ nodes') ∧
        (k = m → ∃ l, slot' l = m.2 ∧ P'.channelUse l = P.channelUse m.2)) :
    Kept package use (visited ++ [m])
      (Function.update slot m.1 (slot m.1 ∘ slot')) (procs.set m.1 P') table' := by
  refine ⟨htracks, ?_⟩
  intro id nodes k hnodes hk
  obtain ⟨⟨nodes', hnodes', hk'⟩, hnew⟩ := hold id nodes k hnodes hk
  obtain ⟨Q, l, hQ, hl, huse⟩ := h.held id nodes' k hnodes' hk'
  by_cases hkm : k.1 = m.1
  · rw [hkm] at hQ hl ⊢
    rw [hP, Option.some.injEq] at hQ
    rw [← hQ] at huse
    have hset : (procs.set m.1 P')[m.1]? = some P' :=
      List.getElem?_set_self (List.getElem?_eq_some_iff.mp hP).1
    by_cases hli : l = m.2
    · -- the visited node itself, in whose place there is another one
      have hkey : k = m := by
        refine Prod.ext hkm ?_
        rw [← hl, hli, hsame.old m.2 hP₀]
      obtain ⟨l', hl', huse'⟩ := hnew hkey
      refine ⟨P', l', hset, ?_, ?_⟩
      · rw [Function.update_self, Function.comp_apply, hl', ← hl, hli]
      · rw [huse', ← huse, hli]
    · have hllt : l < P.nodes.length := by
        apply lt_length_of_channelUse
        rw [huse]
        exact huses k id (h.tracks.sound id nodes' hnodes' k hk')
      refine ⟨P', l, hset, ?_, ?_⟩
      · rw [Function.update_self, Function.comp_apply, hedit.sameIO.old l hllt, hl]
      · rw [hedit.channelUse l hllt hli, huse]
  · refine ⟨Q, l, ?_, ?_, huse⟩
    · rw [List.getElem?_set_ne (Ne.symm hkm), hQ]
    · rw [Function.update_of_ne hkm, hl]

/-- The map of the other operations. -/
theorem Kept.edit_of_none
    (hm : use m = none) (hP₀ : m.2 < P₀.nodes.length) (hP : procs[m.1]? = some P)
    (hsame : SameIO P₀ P (slot m.1)) (hedit : Edit package.channels P P' slot' m.2) :
    Kept package use (visited ++ [m])
      (Function.update slot m.1 (slot m.1 ∘ slot')) (procs.set m.1 P') table := by
  have hnot : ∀ id nodes, table.at? id = some nodes → m ∉ nodes := by
    intro id nodes hnodes hmem
    have huse := h.tracks.sound id nodes hnodes m hmem
    rw [hm] at huse
    cases huse
  apply h.edit huses hP₀ hP hsame hedit
  · apply h.tracks.keep
    intro id nodes hnodes hmem
    exact absurd hmem (hnot id nodes hnodes)
  · intro id nodes k hnodes hk
    refine ⟨⟨nodes, hnodes, hk⟩, ?_⟩
    rintro rfl
    exact absurd hk (hnot id nodes hnodes)

/-- A node which left its set was removed. -/
theorem Kept.edit_of_erase
    (hm : use m = some id) {nodes : List NodeId} (hid : table.at? id = some nodes)
    (hzero : package.hasZeroPredicate m = true) (htwo : 2 ≤ nodes.length)
    (hP₀ : m.2 < P₀.nodes.length) (hP : procs[m.1]? = some P)
    (hsame : SameIO P₀ P (slot m.1)) (hedit : Edit package.channels P P' slot' m.2) :
    Kept package use (visited ++ [m]) (Function.update slot m.1 (slot m.1 ∘ slot'))
      (procs.set m.1 P') (table.put id (nodes.erase m)) := by
  apply h.edit huses hP₀ hP hsame hedit (h.tracks.erase hid hm hzero htwo)
  intro id' nodes' k hnodes' hk
  rcases ChannelMap.at?_put hid hnodes' with ⟨rfl, rfl⟩ | ⟨hne, hold⟩
  · refine ⟨⟨nodes, hid, List.mem_of_mem_erase hk⟩, ?_⟩
    rintro rfl
    exact absurd hk (h.tracks.nodup id' nodes hid).not_mem_erase
  · refine ⟨⟨nodes', hold, hk⟩, ?_⟩
    rintro rfl
    have huse := h.tracks.sound id' nodes' hold k hk
    rw [hm, Option.some.injEq] at huse
    exact absurd huse.symm hne

/-- A node without predicate came into the place of the visited one. -/
theorem Kept.edit_of_renewed
    (hzero : package.hasZeroPredicate m = false)
    (hP₀ : m.2 < P₀.nodes.length) (hP : procs[m.1]? = some P)
    (hsame : SameIO P₀ P (slot m.1)) (hedit : Edit package.channels P P' slot' m.2)
    (hrenewed : ∃ l, slot' l = m.2 ∧ P'.channelUse l = P.channelUse m.2) :
    Kept package use (visited ++ [m])
      (Function.update slot m.1 (slot m.1 ∘ slot')) (procs.set m.1 P') table := by
  apply h.edit huses hP₀ hP hsame hedit
  · apply h.tracks.keep
    intro id nodes _ _ hm
    rw [hzero] at hm
    cases hm
  · intro id nodes k hnodes hk
    exact ⟨⟨nodes, hnodes, hk⟩, fun _ => hrenewed⟩

end

end

/-- A proc was edited. -/
theorem Invariant.edit (h : Invariant package visited slot s)
    (hP : s.procs[m.1]? = some P) (hedit : Edit package.channels P P' slot' m.2)
    {maps : ChannelMaps} {changed : Bool}
    (hsend : Kept package package.sendId (visited ++ [m])
      (Function.update slot m.1 (slot m.1 ∘ slot')) (s.procs.set m.1 P') maps.toSend)
    (hreceive : Kept package package.receiveId (visited ++ [m])
      (Function.update slot m.1 (slot m.1 ∘ slot')) (s.procs.set m.1 P') maps.toReceive) :
    Invariant package (visited ++ [m]) (Function.update slot m.1 (slot m.1 ∘ slot'))
      ⟨s.procs.set m.1 P', maps, changed⟩ := by
  refine ⟨by rw [List.length_set, h.length], ?_, ?_, hsend, hreceive⟩
  · intro p Q Q' hQ hQ'
    by_cases hp : p = m.1
    · rw [hp] at hQ hQ' ⊢
      rw [List.getElem?_set_self (List.getElem?_eq_some_iff.mp hP).1, Option.some.injEq] at hQ'
      rw [← hQ', Function.update_self]
      exact ⟨(h.procs m.1 Q P hQ hP).1.trans hedit.sameIO, hedit.verified⟩
    · rw [List.getElem?_set_ne (Ne.symm hp)] at hQ'
      rw [Function.update_of_ne hp]
      exact h.procs p Q Q' hQ hQ'
  · intro p Q Q' hQ hQ' i hi hvisited
    by_cases hp : p = m.1
    · rw [hp] at hQ hQ' hvisited
      rw [List.getElem?_set_self (List.getElem?_eq_some_iff.mp hP).1, Option.some.injEq] at hQ'
      have hne : i ≠ m.2 := by
        rintro rfl
        exact hvisited (by simp)
      have hlt := Nat.lt_of_lt_of_le hi (h.procs m.1 Q P hQ hP).1.length_le
      obtain ⟨huse, hzero⟩ := h.pending m.1 Q P hQ hP i hi fun hmem =>
        hvisited (List.mem_append_left _ hmem)
      rw [← hQ', hedit.channelUse i hlt hne, hedit.hasZeroPredicate i hlt hne]
      exact ⟨huse, hzero⟩
    · rw [List.getElem?_set_ne (Ne.symm hp)] at hQ'
      exact h.pending p Q Q' hQ hQ' i hi fun hmem => hvisited (List.mem_append_left _ hmem)

/-- Nothing was edited. -/
theorem Invariant.keep (h : Invariant package visited slot s)
    (hsend : ∀ id nodes, s.maps.toSend.at? id = some nodes → m ∈ nodes →
      package.hasZeroPredicate m = true → nodes.length ≤ 1)
    (hreceive : ∀ id nodes, s.maps.toReceive.at? id = some nodes → m ∈ nodes →
      package.hasZeroPredicate m = true → nodes.length ≤ 1) :
    Invariant package (visited ++ [m]) slot s := by
  refine ⟨h.length, h.procs, ?_, ⟨h.send.tracks.keep hsend, h.send.held⟩,
    ⟨h.receive.tracks.keep hreceive, h.receive.held⟩⟩
  intro p P P' hP hP' i hi hvisited
  exact h.pending p P P' hP hP' i hi fun hmem => hvisited (List.mem_append_left _ hmem)

/-- A receive which does not block and has a literal zero is the last one on its channel when it is
visited: the other ones came before, and had a literal zero. -/
def IsSafe (package : Package α) (visited : List NodeId) (m : NodeId) : Prop :=
  ∀ id, package.channelUse m = some (.receive id false) → package.hasZeroPredicate m = true →
    ∀ k, k ≠ m → package.receiveId k = some id →
      k ∈ visited ∧ package.hasZeroPredicate k = true

/-- What a visit has to do: it fails when the node is not safe, and keeps the invariant. -/
def VisitsTo (package : Package α) (visited : List NodeId) (m : NodeId)
    (result : Option (State α)) : Prop :=
  (result.isSome = true ↔ IsSafe package visited m) ∧
    ∀ s', result = some s' → ∃ slot, Invariant package (visited ++ [m]) slot s'

theorem visitsTo_some (slot : ℕ → ℕ → ℕ) (hsafe : IsSafe package visited m)
    (h : Invariant package (visited ++ [m]) slot s) : VisitsTo package visited m (some s) := by
  refine ⟨⟨fun _ => hsafe, fun _ => rfl⟩, ?_⟩
  rintro s' ⟨⟩
  exact ⟨slot, h⟩

theorem visitsTo_none (hnot : ¬ IsSafe package visited m) : VisitsTo package visited m none := by
  refine ⟨⟨fun h => ?_, fun hsafe => absurd hsafe hnot⟩, fun s' h => ?_⟩
  · cases h
  · cases h

/-- A node which is visited for the first time. -/
structure Visiting (package : Package α) (visited : List NodeId) (slot : ℕ → ℕ → ℕ) (s : State α)
    (m : NodeId) (P₀ P : Proc α) : Prop where
  invariant : Invariant package visited slot s
  fresh : m ∉ visited
  proc₀ : package.procs[m.1]? = some P₀
  lt : m.2 < P₀.nodes.length
  proc : s.procs[m.1]? = some P

namespace Visiting

variable {token data predicate : ℕ} {t : Ty} {isBlocking : Bool}

section

variable (h : Visiting package visited slot s m P₀ P)

include h

theorem sameIO : SameIO P₀ P (slot m.1) :=
  (h.invariant.procs m.1 P₀ P h.proc₀ h.proc).1

theorem verified : P.Verified package.channels :=
  (h.invariant.procs m.1 P₀ P h.proc₀ h.proc).2

theorem channelUse : package.channelUse m = P.channelUse m.2 := by
  rw [Package.channelUse, h.proc₀]
  exact (h.invariant.pending m.1 P₀ P h.proc₀ h.proc m.2 h.lt h.fresh).1.symm

theorem hasZeroPredicate : package.hasZeroPredicate m = P.hasZeroPredicate m.2 := by
  rw [Package.hasZeroPredicate, h.proc₀]
  exact (h.invariant.pending m.1 P₀ P h.proc₀ h.proc m.2 h.lt h.fresh).2.symm

/-- Nothing happens to a node without a literal zero. -/
theorem unchanged
    (hzero : package.hasZeroPredicate m = false) : VisitsTo package visited m (some s) := by
  apply visitsTo_some slot
  · intro id _ hm
    rw [hzero] at hm
    cases hm
  · apply h.invariant.keep
    · intro id nodes _ _ hm
      rw [hzero] at hm
      cases hm
    · intro id nodes _ _ hm
      rw [hzero] at hm
      cases hm

/-- The predicate of the node is a literal one. -/
theorem renewed (hzero : package.hasZeroPredicate m = false)
    (hedit : Edit package.channels P P' slot' m.2)
    (hrenewed : ∃ l, slot' l = m.2 ∧ P'.channelUse l = P.channelUse m.2) :
    VisitsTo package visited m (some (s.setProc m.1 P')) := by
  apply visitsTo_some (Function.update slot m.1 (slot m.1 ∘ slot'))
  · intro id _ hm
    rw [hzero] at hm
    cases hm
  · apply h.invariant.edit h.proc hedit
    · exact h.invariant.send.edit_of_renewed (fun k id => Package.channelUse_of_sendId) hzero
        h.lt h.proc h.sameIO hedit hrenewed
    · exact h.invariant.receive.edit_of_renewed (fun k id => Package.channelUse_of_receiveId) hzero
        h.lt h.proc h.sameIO hedit hrenewed

theorem visitSend (hn : P.nodes.vertex m.2 = some ⟨⟨.send id, t⟩, [token, data, predicate]⟩) :
    VisitsTo package visited m (s.visitSend m P id token data predicate) := by
  have huse : package.channelUse m = some (.send id) := by
    rw [h.channelUse, Proc.channelUse, hn]
    rfl
  have hpredicate : P.predicate m.2 = some predicate := by
    rw [Proc.predicate, hn]
    rfl
  have hzero : package.hasZeroPredicate m = P.isLiteralZero predicate := by
    rw [h.hasZeroPredicate, Proc.hasZeroPredicate, hpredicate, Option.any_some]
  have hsendId : package.sendId m = some id := Package.sendId_eq_some_iff.mpr huse
  have hreceiveId : package.receiveId m = none := by
    rw [Option.eq_none_iff_forall_ne_some]
    intro id' hid
    obtain ⟨isBlocking, hm⟩ := Package.receiveId_eq_some_iff.mp hid
    rw [huse] at hm
    cases hm
  have hsafe : IsSafe package visited m := by
    intro id' hm
    rw [huse] at hm
    cases hm
  rw [State.visitSend]
  split_ifs with hz hone
  · -- a literal zero
    rw [hz] at hzero
    obtain ⟨nodes, hnodes, -, -⟩ := h.invariant.send.tracks.present m id hsendId
    rw [hnodes]
    dsimp only
    split_ifs with htwo
    · obtain ⟨hreplace, hedit⟩ := edit_send h.verified hn hz
      rw [hreplace]
      apply visitsTo_some (Function.update slot m.1 (slot m.1 ∘ fun i => i)) hsafe
      apply h.invariant.edit h.proc hedit
      · exact h.invariant.send.edit_of_erase (fun k id => Package.channelUse_of_sendId) hsendId
          hnodes hzero htwo h.lt h.proc h.sameIO hedit
      · exact h.invariant.receive.edit_of_none (fun k id => Package.channelUse_of_receiveId)
          hreceiveId h.lt h.proc h.sameIO hedit
    · apply visitsTo_some slot hsafe
      apply h.invariant.keep
      · intro id' nodes' hnodes' hm _
        have hid := h.invariant.send.tracks.sound id' nodes' hnodes' m hm
        rw [hsendId, Option.some.injEq] at hid
        rw [← hid, hnodes, Option.some.injEq] at hnodes'
        rw [← hnodes']
        omega
      · intro id' nodes' hnodes' hm _
        have hid := h.invariant.receive.tracks.sound id' nodes' hnodes' m hm
        rw [hreceiveId] at hid
        cases hid
  · -- a literal one
    obtain ⟨hchannel, rfl, token', data', htoken, hos | ⟨predicate', hos, hbits⟩⟩ :=
      h.verified.node m.2 _ hn <;> cases hos
    have hedit := edit_unpredicated [token, data] h.verified rfl hn (by simp)
      ⟨hchannel, rfl, token, data, htoken, Or.inl rfl⟩ hpredicate hone ?_
    · rw [hedit.1]
      apply h.renewed (by rw [hzero]; exact Bool.eq_false_iff.mpr hz) hedit.2
      exact ⟨P.nodes.length, Function.update_self _ _ _, channelUse_unpredicated _ hn⟩
    · intro e val hactive
      constructor
      · change Option.filter _ (Option.map _ (isActive (some (val predicate)))) = _
        rw [hactive]
        rfl
      · change (if isActive (some (val predicate)) = some true then _ else none) = _
        rw [hactive]
        rfl
  · exact h.unchanged (by rw [hzero]; exact Bool.eq_false_iff.mpr hz)

theorem visitReceive
    (hn : P.nodes.vertex m.2 = some ⟨⟨.receive id isBlocking, t⟩, [token, predicate]⟩) :
    VisitsTo package visited m
      (s.visitReceive package.channels m P id isBlocking token predicate) := by
  have huse : package.channelUse m = some (.receive id isBlocking) := by
    rw [h.channelUse, Proc.channelUse, hn]
    rfl
  have hpredicate : P.predicate m.2 = some predicate := by
    rw [Proc.predicate, hn]
    rfl
  have hzero : package.hasZeroPredicate m = P.isLiteralZero predicate := by
    rw [h.hasZeroPredicate, Proc.hasZeroPredicate, hpredicate, Option.any_some]
  have hreceiveId : package.receiveId m = some id :=
    Package.receiveId_eq_some_iff.mpr ⟨isBlocking, huse⟩
  have hsendId : package.sendId m = none := by
    rw [Option.eq_none_iff_forall_ne_some]
    intro id' hid
    have hm := Package.sendId_eq_some_iff.mp hid
    rw [huse] at hm
    cases hm
  obtain ⟨⟨channel, hchannel, rfl⟩, htoken, hbits⟩ := h.verified.of_receive hn
  rw [State.visitReceive]
  split_ifs with hz hone
  · -- a literal zero
    rw [hz] at hzero
    obtain ⟨nodes, hnodes, -, -⟩ := h.invariant.receive.tracks.present m id hreceiveId
    have halone := h.invariant.receive.tracks.alone_iff hnodes hreceiveId h.fresh
    rw [hnodes]
    dsimp only
    split_ifs with htwo
    · rw [hchannel]
      dsimp only
      cases isBlocking with
      | true =>
        obtain ⟨hreplace, hedit⟩ := edit_receive h.verified hn hz
        rw [hreplace]
        apply visitsTo_some (Function.update slot m.1 (slot m.1 ∘ fun i => i))
        · intro id' hm
          rw [huse] at hm
          cases hm
        · apply h.invariant.edit h.proc hedit
          · exact h.invariant.send.edit_of_none (fun k id => Package.channelUse_of_sendId) hsendId
              h.lt h.proc h.sameIO hedit
          · exact h.invariant.receive.edit_of_erase
              (fun k id => Package.channelUse_of_receiveId) hreceiveId hnodes hzero htwo h.lt
              h.proc h.sameIO hedit
      | false =>
        -- the types differ, and the node is not the last one
        rw [not_replaceNode_receive hn]
        apply visitsTo_none
        intro hsafe
        exact absurd (halone.mpr (hsafe id huse hzero)) (Nat.not_lt.mpr htwo)
    · apply visitsTo_some slot
      · intro id' hm _
        rw [huse, Option.some.injEq, ChannelUse.receive.injEq] at hm
        rw [← hm.1]
        exact halone.mp (Nat.not_le.mp htwo)
      · apply h.invariant.keep
        · intro id' nodes' hnodes' hm _
          have hid := h.invariant.send.tracks.sound id' nodes' hnodes' m hm
          rw [hsendId] at hid
          cases hid
        · intro id' nodes' hnodes' hm _
          have hid := h.invariant.receive.tracks.sound id' nodes' hnodes' m hm
          rw [hreceiveId, Option.some.injEq] at hid
          rw [← hid, hnodes, Option.some.injEq] at hnodes'
          rw [← hnodes']
          omega
  · -- a literal one
    rw [hchannel]
    dsimp only
    have hedit := edit_unpredicated [token] h.verified rfl hn (by simp)
      ⟨channel, hchannel, rfl, token, htoken, Or.inl rfl⟩ hpredicate hone ?_
    · rw [hedit.1]
      apply h.renewed (by rw [hzero]; exact Bool.eq_false_iff.mpr hz) hedit.2
      exact ⟨P.nodes.length, Function.update_self _ _ _, channelUse_unpredicated _ hn⟩
    · intro e val hactive
      have hpred : Ir.predicate true [val token, val predicate][1]? = some true := hactive
      constructor
      · rw [sem, sem]
        dsimp only
        change Option.filter _ (Ir.evalReceive true _ _ _ [val token, val predicate]) = _
        rw [Ir.evalReceive.eq_def, hpred]
        rfl
      · change (if isActive (some (val predicate)) = some true then _ else none) = _
        rw [hactive]
        rfl
  · exact h.unchanged (by rw [hzero]; exact Bool.eq_false_iff.mpr hz)

/-- A visit, whatever the node is. -/
theorem visit : VisitsTo package visited m (s.visit package.channels m) := by
  rw [State.visit, h.proc]
  dsimp only
  split
  next id t token data predicate hn => exact h.visitSend hn
  next id isBlocking t token predicate hn => exact h.visitReceive hn
  next hsend hreceive =>
    -- there is no predicate
    apply h.unchanged
    rw [h.hasZeroPredicate, Proc.hasZeroPredicate]
    rcases hp : P.predicate m.2 with - | p
    · rfl
    · obtain ⟨⟨⟨op, t⟩, os⟩, hn, hp⟩ := Option.bind_eq_some_iff.mp hp
      have hnode := h.verified.node m.2 _ hn
      cases op with
      | send id =>
        obtain ⟨-, -, token, data, -, rfl | ⟨predicate, rfl, -⟩⟩ := hnode
        · cases hp
        · exact absurd hn (hsend _ _ _ _ _)
      | receive id isBlocking =>
        obtain ⟨channel, -, -, token, -, rfl | ⟨predicate, rfl, -⟩⟩ := hnode
        · cases hp
        · exact absurd hn (hreceive _ _ _ _ _)
      | literal value => cases hp
      | tuple => cases hp
      | other op => cases hp

end

end Visiting

/-! ## Runs -/

/-- Each visit is safe. -/
def AllSafe (order : Proc α → List ℕ) (package : Package α) : Prop :=
  ∀ visited m todo, package.listNodes order = visited ++ m :: todo → IsSafe package visited m

/-- The loop over all nodes. -/
theorem foldlM_visit (horder : package.IsListing order) (h : Invariant package [] slot s) :
    (((package.listNodes order).foldlM (State.visit package.channels) s).isSome = true ↔
        AllSafe order package) ∧
      ∀ s', (package.listNodes order).foldlM (State.visit package.channels) s = some s' →
        ∃ slot, Invariant package (package.listNodes order) slot s' := by
  apply foldlM_exact (I := fun visited s => ∃ slot, Invariant package visited slot s)
    (P := IsSafe package)
  · rintro visited m todo s hlist ⟨slot, hinv⟩
    obtain ⟨P₀, hP₀, hm⟩ := Package.mem_listNodes.mp (show m ∈ package.listNodes order by
      rw [hlist]
      simp)
    have hlive := ((horder P₀ (List.mem_of_getElem? hP₀)).2 m.2).mp hm
    obtain ⟨n, hn⟩ := Option.isSome_iff_exists.mp hlive
    have hlt : m.1 < s.procs.length := by
      rw [hinv.length]
      exact (List.getElem?_eq_some_iff.mp hP₀).1
    have hfresh : m ∉ visited := by
      have hnodup := horder.nodup
      rw [hlist, List.nodup_append] at hnodup
      intro hmem
      exact hnodup.2.2 m hmem m (by simp) rfl
    exact Visiting.visit ⟨hinv, hfresh, hP₀, TermGraph.lt_length_of_vertex hn,
      List.getElem?_eq_getElem hlt⟩
  · exact ⟨slot, h⟩

/-- What the pass has to preserve: the procs do what they did, and the channels which had a send or
a receive have one. -/
structure Preserves (package package' : Package α) : Prop where
  channels : package'.channels = package.channels
  procs : List.Forall₂ (fun P P' => ∃ slot, SameIO P P' slot) package.procs package'.procs
  send : ∀ id, (∃ m, package.channelUse m = some (.send id)) ↔
    ∃ m, package'.channelUse m = some (.send id)
  receive : ∀ id, (∃ m isBlocking, package.channelUse m = some (.receive id isBlocking)) ↔
    ∃ m isBlocking, package'.channelUse m = some (.receive id isBlocking)

/-- The nodes of the maps are still there in the end. -/
theorem Kept.exists_channelUse (h : Kept package use visited slot s.procs table)
    (hm : use m = some id) : ∃ k l, use k = some id ∧
      Package.channelUse ⟨s.procs, package.channels⟩ l = package.channelUse k := by
  obtain ⟨nodes, hnodes, hne, -⟩ := h.tracks.present m id hm
  obtain ⟨k, hk⟩ := List.exists_mem_of_ne_nil nodes hne
  obtain ⟨P, l, hP, -, huse⟩ := h.held id nodes k hnodes hk
  refine ⟨k, (k.1, l), h.tracks.sound id nodes hnodes k hk, ?_⟩
  rw [Package.channelUse, hP, Option.bind_some, huse]

/-- A run which ends preserves the behaviour. -/
theorem Invariant.preserves (h : Invariant package visited slot s) :
    Preserves package ⟨s.procs, package.channels⟩ := by
  -- what is there in the end was there before
  have hback : ∀ m u, Package.channelUse ⟨s.procs, package.channels⟩ m = some u →
      ∃ k, package.channelUse k = some u := by
    intro m u hu
    obtain ⟨P', hP', hu⟩ := Option.bind_eq_some_iff.mp hu
    have hlt : m.1 < package.procs.length := by
      rw [← h.length]
      exact (List.getElem?_eq_some_iff.mp hP').1
    have hP := List.getElem?_eq_getElem hlt
    refine ⟨(m.1, slot m.1 m.2), ?_⟩
    rw [Package.channelUse, hP]
    exact (h.procs m.1 _ P' hP hP').1.channelUse m.2 u hu
  refine ⟨rfl, ?_, ?_, ?_⟩
  · rw [List.forall₂_iff_get]
    refine ⟨h.length.symm, fun p hp hp' => ⟨slot p, ?_⟩⟩
    exact (h.procs p _ _ (List.getElem?_eq_getElem hp) (List.getElem?_eq_getElem hp')).1
  · intro id
    constructor
    · rintro ⟨m, hm⟩
      obtain ⟨k, l, hk, hl⟩ := h.send.exists_channelUse (Package.sendId_eq_some_iff.mpr hm)
      exact ⟨l, by rw [hl, Package.sendId_eq_some_iff.mp hk]⟩
    · rintro ⟨m, hm⟩
      exact hback m _ hm
  · intro id
    constructor
    · rintro ⟨m, isBlocking, hm⟩
      obtain ⟨k, l, hk, hl⟩ := h.receive.exists_channelUse
        (Package.receiveId_eq_some_iff.mpr ⟨isBlocking, hm⟩)
      obtain ⟨isBlocking', huse⟩ := Package.receiveId_eq_some_iff.mp hk
      exact ⟨l, isBlocking', by rw [hl, huse]⟩
    · rintro ⟨m, isBlocking, hm⟩
      obtain ⟨k, hk⟩ := hback m _ hm
      exact ⟨k, isBlocking, hk⟩

/-- The pass ends and preserves the behaviour exactly when the channels fit into a vector and each
visit is safe. -/
theorem runInternal_exact_iff {maxSize : ℕ} (hv : package.Verified)
    (horder : package.IsListing order) :
    (∃ package' changed, runInternal maxSize order package = some (package', changed) ∧
        Preserves package package') ↔
      IdsIndexable maxSize package ∧ AllSafe order package := by
  obtain ⟨hmaps, htracks⟩ := @computeChannelMaps_exact _ package maxSize hv
  rw [runInternal, ← hmaps]
  rcases hm : computeChannelMaps maxSize package with - | maps
  · constructor
    · rintro ⟨package', changed, h, -⟩
      cases h
    · rintro ⟨h, -⟩
      cases h
  · obtain ⟨hsend, hreceive⟩ := htracks maps hm
    obtain ⟨hsafe, hinv⟩ := foldlM_visit horder (invariant_start hv hsend hreceive)
    rw [← hsafe]
    dsimp only
    constructor
    · rintro ⟨package', changed, h, -⟩
      obtain ⟨s, hs, -⟩ := Option.map_eq_some_iff.mp h
      exact ⟨rfl, by rw [hs]; rfl⟩
    · rintro ⟨-, h⟩
      obtain ⟨s, hs⟩ := Option.isSome_iff_exists.mp h
      obtain ⟨slot, hend⟩ := hinv s hs
      exact ⟨⟨s.procs, package.channels⟩, s.changed, by rw [hs]; rfl, hend.preserves⟩

/-! ### Two receives on one channel -/

/-- A proc with two receives on a channel, of which the first has a literal zero. -/
def twoReceives (isBlocking : Bool) : Package Unit where
  procs := [⟨[some ⟨⟨.other (), .token⟩, []⟩, some ⟨⟨.literal (.bits (Bits.zero 1)), .bits 1⟩, []⟩,
    some ⟨⟨.receive 0 isBlocking, receiveType (.bits 32) isBlocking⟩, [0, 1]⟩,
    some ⟨⟨.receive 0 isBlocking, receiveType (.bits 32) isBlocking⟩, [0]⟩], 0, []⟩]
  channels := [⟨0, .bits 32⟩]

theorem twoReceives_verified (isBlocking : Bool) : (twoReceives isBlocking).Verified := by
  refine ⟨?_, ?_⟩
  · intro P hP
    rw [List.mem_singleton.mp hP]
    refine ⟨⟨?_, Nat.zero_lt_succ 3, List.forall_mem_nil _⟩, ⟨fun i => i, ?_⟩, ?_⟩
    · intro k n hn o ho
      rcases k with - | - | - | - | k <;> cases hn <;>
        simp at ho ⊢ <;> omega
    · intro k n hn i hi
      rcases k with - | - | - | - | k <;> cases hn <;>
        simp at hi ⊢ <;> omega
    · intro k n hn
      rcases k with - | - | - | - | k <;> cases hn
      · trivial
      · trivial
      · exact ⟨⟨0, .bits 32⟩, rfl, rfl, 0, rfl, Or.inr ⟨1, rfl, rfl⟩⟩
      · exact ⟨⟨0, .bits 32⟩, rfl, rfl, 0, rfl, Or.inl rfl⟩
  · intro last hlast channel hchannel
    rw [List.mem_singleton.mp hchannel]
    cases hlast
    exact le_refl _

theorem channelUse_twoReceives {isBlocking : Bool} {u : ChannelUse}
    (h : (twoReceives isBlocking).channelUse m = some u) : u = .receive 0 isBlocking := by
  obtain ⟨P, hP, hu⟩ := Option.bind_eq_some_iff.mp h
  rw [List.mem_singleton.mp (List.mem_of_getElem? hP)] at hu
  obtain ⟨n, hn, hu⟩ := Option.bind_eq_some_iff.mp hu
  rcases hk : m.2 with - | - | - | - | k <;> rw [hk] at hn <;> cases hn
  · cases hu
  · cases hu
  · exact (Option.some.inj hu).symm
  · exact (Option.some.inj hu).symm

/-- Receives which block are removed. -/
theorem preserves_twoReceives : ∃ package' changed,
    runInternal (2 ^ 58) Proc.positions (twoReceives true) = some (package', changed) ∧
      Preserves (twoReceives true) package' := by
  apply (runInternal_exact_iff (twoReceives_verified true) Package.isListing_positions).mpr
  refine ⟨⟨?_, ?_⟩, ?_⟩
  · intro last hlast
    cases hlast
    decide
  · rintro m id (hm | hm)
    · cases channelUse_twoReceives (Package.sendId_eq_some_iff.mp hm)
    · obtain ⟨isBlocking, hm⟩ := Package.receiveId_eq_some_iff.mp hm
      cases channelUse_twoReceives hm
      decide
  · intro visited m todo _ id hm
    cases channelUse_twoReceives hm

/-- For receives which do not block the pass fails. -/
theorem not_preserves_twoReceives : (twoReceives false).Verified ∧
    (twoReceives false).IsListing Proc.positions ∧ ¬ ∃ package' changed,
        runInternal (2 ^ 58) Proc.positions (twoReceives false) = some (package', changed) ∧
          Preserves (twoReceives false) package' := by
  refine ⟨twoReceives_verified false, Package.isListing_positions, ?_⟩
  rintro ⟨package', changed, h, -⟩
  have hnone : (runInternal (2 ^ 58) Proc.positions (twoReceives false)).isNone = true := by decide
  rw [h] at hnone
  cases hnone

end Xls.UselessIORemoval
