/-
# The channel maps of the removal of sends and receives

The maps hold the sends and the receives of each channel.  Those which are removed leave their set,
which keeps one node at least.

* `foldlM_enter_tracks` : when a map is filled, and what it holds;
* `Tracks.erase`, `Tracks.keep` : the maps after the visit of a node;
* `Tracks.alone_iff` : when a node is the last one on its channel.
-/
import Xls.Passes.UselessIORemoval
import Xls.Lib.FoldM
import Mathlib.Data.List.Nodup

namespace Xls.UselessIORemoval

variable {table table' : ChannelMap} {use : NodeId → Option ℤ} {isZero : NodeId → Bool}
  {seen visited nodes nodes' : List NodeId} {id id' : ℤ} {m : NodeId} {size : ℕ}

namespace ChannelMap

theorem at?_eq_some_iff : table.at? id = some nodes ↔ 0 ≤ id ∧ table[id.toNat]? = some nodes := by
  rw [at?]
  split_ifs with h
  · exact ⟨fun hnodes => ⟨h, hnodes⟩, fun hnodes => hnodes.2⟩
  · exact ⟨nofun, fun hnodes => absurd hnodes.1 h⟩

theorem at?_put_self (h : table.at? id = some nodes) :
    (table.put id nodes').at? id = some nodes' := by
  obtain ⟨hid, hnodes⟩ := at?_eq_some_iff.mp h
  obtain ⟨hlt, -⟩ := List.getElem?_eq_some_iff.mp hnodes
  rw [at?_eq_some_iff]
  exact ⟨hid, List.getElem?_set_self hlt⟩

theorem at?_put_of_ne (h : table.at? id = some nodes) (hne : id' ≠ id) :
    (table.put id nodes').at? id' = table.at? id' := by
  obtain ⟨hid, -⟩ := at?_eq_some_iff.mp h
  rw [at?, at?]
  split_ifs with hid'
  · rw [put, List.getElem?_set_ne]
    intro heq
    apply hne
    rw [← Int.toNat_of_nonneg hid', ← heq, Int.toNat_of_nonneg hid]
  · rfl

/-- The set of some id, when another one was put into the table. -/
theorem at?_put (h : table.at? id = some nodes) (h' : (table.put id nodes').at? id' = some seen) :
    id' = id ∧ seen = nodes' ∨ id' ≠ id ∧ table.at? id' = some seen := by
  by_cases hid : id' = id
  · rw [hid, at?_put_self h, Option.some.injEq] at h'
    exact Or.inl ⟨hid, h'.symm⟩
  · rw [at?_put_of_ne h hid] at h'
    exact Or.inr ⟨hid, h'⟩

/-- The ids with a set. -/
theorem at?_isSome_iff : (table.at? id).isSome = true ↔ 0 ≤ id ∧ id < table.length := by
  rw [at?]
  split_ifs with h
  · rw [isSome_getElem?]
    omega
  · exact ⟨nofun, fun hid => absurd hid.1 h⟩

end ChannelMap

/-! ## Filling the maps -/

/-- The map holds the nodes which were seen. -/
structure Fills (use : NodeId → Option ℤ) (size : ℕ) (seen : List NodeId) (table : ChannelMap) :
    Prop where
  length : table.length = size
  nodup : ∀ id nodes, table.at? id = some nodes → nodes.Nodup
  mem : ∀ id nodes, table.at? id = some nodes → ∀ m, m ∈ nodes ↔ m ∈ seen ∧ use m = some id

theorem fills_replicate : Fills use size [] (List.replicate size []) := by
  have hnil : ∀ id nodes, ChannelMap.at? (List.replicate size []) id = some nodes → nodes = [] := by
    intro id nodes h
    have hget := (ChannelMap.at?_eq_some_iff.mp h).2
    exact List.eq_of_mem_replicate (List.mem_of_getElem? hget)
  refine ⟨List.length_replicate, ?_, ?_⟩
  · intro id nodes h
    rw [hnil id nodes h]
    exact List.nodup_nil
  · intro id nodes h m
    rw [hnil id nodes h]
    simp

/-- A node of a channel needs a set for the id. -/
def HasSet (use : NodeId → Option ℤ) (size : ℕ) (m : NodeId) : Prop :=
  ∀ id, use m = some id → 0 ≤ id ∧ id < size

theorem Fills.enter (h : Fills use size seen table) :
    ((enter use table m).isSome = true ↔ HasSet use size m) ∧
      ∀ table', enter use table m = some table' → Fills use size (seen ++ [m]) table' := by
  rw [UselessIORemoval.enter]
  rcases hm : use m with - | id
  · refine ⟨⟨fun _ id hid => ?_, fun _ => rfl⟩, ?_⟩
    · rw [hm] at hid
      cases hid
    · rintro table' ⟨⟩
      refine ⟨h.length, h.nodup, ?_⟩
      intro id nodes hnodes k
      rw [h.mem id nodes hnodes, List.mem_append, List.mem_singleton]
      constructor
      · rintro ⟨hk, huse⟩
        exact ⟨Or.inl hk, huse⟩
      · rintro ⟨hk | rfl, huse⟩
        · exact ⟨hk, huse⟩
        · rw [hm] at huse
          cases huse
  · constructor
    · rw [Option.isSome_map, ChannelMap.at?_isSome_iff, h.length]
      constructor
      · intro hid id' hid'
        rw [hm, Option.some.injEq] at hid'
        rwa [← hid']
      · intro hall
        exact hall id hm
    · intro table' htable'
      obtain ⟨nodes, hnodes, rfl⟩ := Option.map_eq_some_iff.mp htable'
      refine ⟨?_, ?_, ?_⟩
      · rw [ChannelMap.put, List.length_set, h.length]
      · intro id' nodes' h'
        rcases ChannelMap.at?_put hnodes h' with ⟨-, rfl⟩ | ⟨-, hold⟩
        · exact (h.nodup id nodes hnodes).insert
        · exact h.nodup id' nodes' hold
      · intro id' nodes' h' k
        rw [List.mem_append, List.mem_singleton]
        rcases ChannelMap.at?_put hnodes h' with ⟨rfl, rfl⟩ | ⟨hne, hold⟩
        · rw [List.mem_insert_iff, h.mem id' nodes hnodes]
          constructor
          · rintro (rfl | ⟨hk, huse⟩)
            · exact ⟨Or.inr rfl, hm⟩
            · exact ⟨Or.inl hk, huse⟩
          · rintro ⟨hk | rfl, huse⟩
            · exact Or.inr ⟨hk, huse⟩
            · exact Or.inl rfl
        · rw [h.mem id' nodes' hold]
          constructor
          · rintro ⟨hk, huse⟩
            exact ⟨Or.inl hk, huse⟩
          · rintro ⟨hk | rfl, huse⟩
            · exact ⟨hk, huse⟩
            · rw [hm, Option.some.injEq] at huse
              exact absurd huse.symm hne

/-- All nodes enter the map. -/
theorem foldlM_enter (use : NodeId → Option ℤ) (size : ℕ) (l : List NodeId) :
    ((l.foldlM (enter use) (List.replicate size [])).isSome = true ↔ ∀ m ∈ l, HasSet use size m) ∧
      ∀ table, l.foldlM (enter use) (List.replicate size []) = some table →
        Fills use size l table := by
  obtain ⟨hsome, hfills⟩ := foldlM_exact (f := enter use) (I := Fills use size)
    (P := fun _ m => HasSet use size m) (l := l) (s := List.replicate size [])
    (fun _ _ _ _ _ h => h.enter) fills_replicate
  refine ⟨hsome.trans ?_, hfills⟩
  constructor
  · intro h m hm
    obtain ⟨visited, todo, heq⟩ := List.append_of_mem hm
    exact h visited m todo heq
  · rintro h visited m todo rfl
    exact h m (by simp)

/-! ## Counting down -/

/-- The map after some visits: a set is never empty, and only nodes with a literal zero have left
it; one of those is only left in a set of one node. -/
structure Tracks (use : NodeId → Option ℤ) (isZero : NodeId → Bool) (visited : List NodeId)
    (table : ChannelMap) : Prop where
  nodup : ∀ id nodes, table.at? id = some nodes → nodes.Nodup
  sound : ∀ id nodes, table.at? id = some nodes → ∀ m ∈ nodes, use m = some id
  present : ∀ m id, use m = some id → ∃ nodes, table.at? id = some nodes ∧ nodes ≠ [] ∧
    (m ∉ nodes → m ∈ visited ∧ isZero m = true)
  last : ∀ id nodes m, table.at? id = some nodes → m ∈ nodes → m ∈ visited → isZero m = true →
    nodes.length ≤ 1

/-- The map is full before the first visit. -/
theorem Fills.tracks (h : Fills use size seen table) (hseen : ∀ m id, use m = some id → m ∈ seen)
    (hset : ∀ m ∈ seen, HasSet use size m) : Tracks use isZero [] table := by
  refine ⟨h.nodup, fun id nodes hnodes m hm => ((h.mem id nodes hnodes m).mp hm).2, ?_, ?_⟩
  · intro m id hm
    have hid := hset m (hseen m id hm) id hm
    rw [← h.length, ← ChannelMap.at?_isSome_iff] at hid
    obtain ⟨nodes, hnodes⟩ := Option.isSome_iff_exists.mp hid
    have hmem := (h.mem id nodes hnodes m).mpr ⟨hseen m id hm, hm⟩
    exact ⟨nodes, hnodes, List.ne_nil_of_mem hmem, fun hm' => absurd hmem hm'⟩
  · intro id nodes m _ _ hm
    cases hm

/-- A map is filled when no id is negative. -/
theorem foldlM_enter_tracks (isZero : NodeId → Bool) {l : List NodeId}
    (hmem : ∀ m id, use m = some id → m ∈ l)
    (hlt : ∀ m id, use m = some id → 0 ≤ id → id < size) :
    ((l.foldlM (enter use) (List.replicate size [])).isSome = true ↔
        ∀ m id, use m = some id → 0 ≤ id) ∧
      ∀ table, l.foldlM (enter use) (List.replicate size []) = some table →
        Tracks use isZero [] table := by
  obtain ⟨hsome, hfills⟩ := foldlM_enter use size l
  refine ⟨hsome.trans ⟨?_, ?_⟩, ?_⟩
  · intro h m id hm
    exact (h m (hmem m id hm) id hm).1
  · intro h m _ id hm
    exact ⟨h m id hm, hlt m id hm (h m id hm)⟩
  · intro table htable
    apply (hfills table htable).tracks hmem
    apply hsome.mp
    rw [htable]
    rfl

namespace Tracks

/-- A visited node stays in its set, when it is not useless or the last one. -/
theorem keep (h : Tracks use isZero visited table)
    (hm : ∀ id nodes, table.at? id = some nodes → m ∈ nodes → isZero m = true →
      nodes.length ≤ 1) : Tracks use isZero (visited ++ [m]) table := by
  refine ⟨h.nodup, h.sound, ?_, ?_⟩
  · intro k id hk
    obtain ⟨nodes, hnodes, hne, hmissing⟩ := h.present k id hk
    refine ⟨nodes, hnodes, hne, fun hk' => ?_⟩
    obtain ⟨hvisited, hzero⟩ := hmissing hk'
    exact ⟨List.mem_append_left _ hvisited, hzero⟩
  · intro id nodes k hnodes hk hvisited hzero
    rcases List.mem_append.mp hvisited with hvisited | hvisited
    · exact h.last id nodes k hnodes hk hvisited hzero
    · rw [List.mem_singleton.mp hvisited] at hk hzero
      exact hm id nodes hnodes hk hzero

/-- A useless node leaves its set. -/
theorem erase (h : Tracks use isZero visited table) (hid : table.at? id = some nodes)
    (hm : use m = some id) (hzero : isZero m = true) (htwo : 2 ≤ nodes.length) :
    Tracks use isZero (visited ++ [m]) (table.put id (nodes.erase m)) := by
  refine ⟨?_, ?_, ?_, ?_⟩
  · intro id' nodes' h'
    rcases ChannelMap.at?_put hid h' with ⟨-, rfl⟩ | ⟨-, hold⟩
    · exact (h.nodup id nodes hid).erase m
    · exact h.nodup id' nodes' hold
  · intro id' nodes' h' k hk
    rcases ChannelMap.at?_put hid h' with ⟨rfl, rfl⟩ | ⟨-, hold⟩
    · exact h.sound id' nodes hid k (List.mem_of_mem_erase hk)
    · exact h.sound id' nodes' hold k hk
  · intro k id' hk
    obtain ⟨nodes', hnodes', hne, hmissing⟩ := h.present k id' hk
    by_cases hid' : id' = id
    · rw [hid', hid, Option.some.injEq] at hnodes'
      rw [hid']
      refine ⟨nodes.erase m, ChannelMap.at?_put_self hid, ?_, ?_⟩
      · -- one of the two nodes is left
        intro hnil
        have hlength : nodes.length - 1 ≤ (nodes.erase m).length := List.le_length_erase
        rw [hnil, List.length_nil] at hlength
        omega
      · intro hk'
        by_cases hkm : k = m
        · rw [hkm]
          exact ⟨by simp, hzero⟩
        · obtain ⟨hvisited, hz⟩ := hmissing fun hkn =>
            hk' ((List.mem_erase_of_ne hkm).mpr (by rwa [hnodes']))
          exact ⟨List.mem_append_left _ hvisited, hz⟩
    · refine ⟨nodes', ?_, hne, fun hk' => ?_⟩
      · rw [ChannelMap.at?_put_of_ne hid hid', hnodes']
      · obtain ⟨hvisited, hz⟩ := hmissing hk'
        exact ⟨List.mem_append_left _ hvisited, hz⟩
  · intro id' nodes' k h' hk hvisited hz
    rcases ChannelMap.at?_put hid h' with ⟨rfl, rfl⟩ | ⟨hne, hold⟩
    · -- a visited node with a literal zero was alone
      rcases List.mem_append.mp hvisited with hvisited | hvisited
      · have hlast := h.last id' nodes k hid (List.mem_of_mem_erase hk) hvisited hz
        omega
      · rw [List.mem_singleton.mp hvisited] at hk
        exact absurd hk (h.nodup id' nodes hid).not_mem_erase
    · rcases List.mem_append.mp hvisited with hvisited | hvisited
      · exact h.last id' nodes' k hold hk hvisited hz
      · have huse := h.sound id' nodes' hold k hk
        rw [List.mem_singleton.mp hvisited, hm, Option.some.injEq] at huse
        exact absurd huse.symm hne

/-- A node is the last one on its channel when all others have been visited, and had a literal
zero. -/
theorem alone_iff (h : Tracks use isZero visited table) (hid : table.at? id = some nodes)
    (hm : use m = some id) (hvisited : m ∉ visited) : nodes.length < 2 ↔
      ∀ k, k ≠ m → use k = some id → k ∈ visited ∧ isZero k = true := by
  have hmem : m ∈ nodes := by
    obtain ⟨nodes', hnodes', -, hmissing⟩ := h.present m id hm
    rw [hid, Option.some.injEq] at hnodes'
    by_contra hm'
    exact hvisited (hmissing (by rwa [← hnodes'])).1
  constructor
  · intro hlt k hk huse
    obtain ⟨nodes', hnodes', -, hmissing⟩ := h.present k id huse
    rw [hid, Option.some.injEq] at hnodes'
    apply hmissing
    rw [← hnodes']
    intro hk'
    obtain ⟨x, hx⟩ := List.length_eq_one_iff.mp
      (Nat.le_antisymm (Nat.le_of_lt_succ hlt) (List.length_pos_of_mem hmem))
    rw [hx, List.mem_singleton] at hk' hmem
    exact hk (hk'.trans hmem.symm)
  · intro hall
    by_contra hge
    -- another node of the set
    obtain ⟨k, hk, hkm⟩ : ∃ k ∈ nodes, k ≠ m := by
      by_contra hnone
      push Not at hnone
      have hle := (List.nodup_iff_count_le_one.mp (h.nodup id nodes hid)) m
      have hcount : nodes.count m = nodes.length := List.count_eq_length.mpr fun k hk =>
        (hnone k hk).symm
      omega
    obtain ⟨hkv, hkz⟩ := hall k hkm (h.sound id nodes hid k hk)
    exact hge (Nat.lt_succ_of_le (h.last id nodes k hid hk hkv hkz))

end Tracks

end Xls.UselessIORemoval
