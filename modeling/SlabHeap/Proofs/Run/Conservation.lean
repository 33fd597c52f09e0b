/-
  No block is lost along a run, and none has two owners.

  In every heap of a run, each block that was sliced is on one of the lists of the arena,
  once, and the numbers of blocks in use, without an owner, freed, sliced and handed over
  to caches add up.
-/
import SlabHeap.Proofs.Run.History

namespace SlabHeap

variable {tagging : Tagging} {past : List Step} {h : Heap} {a : Arena} {m : Memory} {b : Word}

/-- The lists of an arena: the blocks without an owner, and the two lists of each cache. -/
def Arena.lists (a : Arena) (m : Memory) : List (List Word) :=
  a.free.toList m :: a.caches.flatMap fun c => [c.available.toList m, c.full.toList m]

theorem Arena.flatten_lists : (a.lists m).flatten = a.free.toList m ++ a.owned m := by
  have hcaches : ∀ caches : List Cache,
      (caches.flatMap fun c => [c.available.toList m, c.full.toList m]).flatten =
        caches.flatMap (·.blocks m) := by
    intro caches
    induction caches with
    | nil => rfl
    | cons c caches ih =>
      rw [List.flatMap_cons, List.flatten_append, ih, List.flatMap_cons, Cache.blocks]
      simp
  rw [lists, List.flatten_cons, hcaches, owned]

/-- The number of blocks that were sliced from the megablocks of an arena. -/
def Directory.slicedCount (d : Directory) : Nat :=
  (d.megablocks.map (·.sliced)).sum

theorem Directory.length_blocks (d : Directory) : d.blocks.length = d.slicedCount := by
  rw [blocks, List.length_flatMap, slicedCount]
  simp [Megablock.blocks]

/-- The blocks that were sliced are accounted for, where caches took over `handed` blocks
    so far. -/
structure Heap.Conserved (h : Heap) (handed : Nat) : Prop where
  once : ∀ b ∈ h.arena.directory.blocks, (h.arena.lists h.memory).flatten.count b = 1
  sliced : ∀ list ∈ h.arena.lists h.memory, ∀ b ∈ list, b ∈ h.arena.directory.blocks
  free : ∀ b ∈ h.arena.directory.blocks,
    (h.memory.block b).free = true ↔ b ∈ h.arena.free.toList h.memory
  inUse : h.arena.blocksInUse = (h.arena.caches.map fun c => (c.blocks h.memory).length).sum
  total : h.arena.blocksInUse + h.arena.free.length h.memory = h.arena.directory.slicedCount
  handed : h.arena.blocksInUse + h.arena.counters.blocksFreed = handed

namespace Arena.Sound

variable (hs : a.Sound m [] 0)
include hs

theorem perm_lists : (a.lists m).flatten.Perm a.directory.blocks := by
  rw [flatten_lists]
  exact hs.blocks

/-- A block is free if no cache owns it. -/
theorem free_iff (hb : b ∈ a.directory.blocks) :
    (m.block b).free = true ↔ b ∈ a.free.toList m := by
  constructor
  · intro hfree
    rw [← hs.blocks.mem_iff, List.nil_append, List.mem_append] at hb
    rcases hb with hb | hb
    · exact hb
    · obtain ⟨s, ho⟩ := Arena.mem_owned_iff.1 hb
      rw [(ho.serves hs).free] at hfree
      cases hfree
  · intro hb
    exact (hs.idle b hb).1

end Arena.Sound

theorem Heap.Sound.conserved (hs : h.Sound [] 0) :
    h.Conserved (h.arena.blocksInUse + h.arena.counters.blocksFreed) where
  once b hb := by
    rw [hs.perm_lists.count_eq]
    exact List.count_eq_one_of_mem (Directory.nodup_blocks hs.directory hs.supply) hb
  sliced list hl b hb := hs.perm_lists.mem_iff.1 (List.mem_flatten.2 ⟨list, hl, hb⟩)
  free _ := hs.free_iff
  inUse := by rw [hs.inUse, Arena.owned, List.length_flatMap, Nat.add_zero]
  total := by
    have hlen := hs.blocks.length_eq
    rw [List.nil_append, List.length_append] at hlen
    rw [hs.inUse, ← Directory.length_blocks, ← hlen, BlockList.length]
    omega
  handed := rfl

theorem blocks_conserved (hr : Run tagging anySlots past h) : h.Conserved (handedOver past) := by
  rw [← hr.ledger]
  exact hr.sound.conserved

/-- A block serves one cache, is freed by a collection, and serves another cache. -/
theorem blocks_conserved_when_recycled : ∃ past h, Run .untagged anySlots past h ∧
    past.length = 3 ∧ h.arena.directory.slicedCount = 1 ∧ h.arena.counters.blocksFreed = 1 ∧
    handedOver past = 2 ∧ h.Conserved (handedOver past) := by
  have h₀ : Run .untagged anySlots [] (.fresh 1 .standard) :=
    .start (Heap.initial_fresh (by decide) (by decide))
  have h₁ := h₀.next (.allocateWords 100 1 []) (some 1048600) trivial (by decide +kernel)
  have h₂ := h₁.next (.collect []) none trivial (by decide +kernel)
  have h₃ := h₂.next (.allocateWords 50 0 []) (some 1048600) trivial (by decide +kernel)
  exact ⟨_, _, h₃, rfl, by decide +kernel, by decide +kernel, by decide +kernel,
    blocks_conserved h₃⟩

end SlabHeap
