/-
  Caches along a run.

  Whatever a program does, the blocks of a cache serve its shape.  After a collection or
  a sweep, and as long as no phase of a collection follows on its own, they are also on
  the lists that their counts of free slots ask for, and the cache passes its own test.
-/
import SlabHeap.Proofs.Run.History

namespace SlabHeap

variable {tagging : Tagging} {past : List Step} {h : Heap}

theorem blocks_in_service (hr : Run tagging anySlots past h) :
    (∀ c ∈ h.arena.caches, ∀ b ∈ c.blocks h.memory, (h.memory.block b).Serves c.shape) ∧
    (settled past = true → ∀ c ∈ h.arena.caches,
      c.Placed h.memory ∧ c.isConsistent h.memory = .ok true) := by
  have hs := hr.sound
  refine ⟨fun c hc => (hs.caches c hc).serves, fun hset c hc => ?_⟩
  have hp := hr.placed hset c hc
  exact ⟨hp, hp.isConsistent (hs.caches c hc)⟩

/-- An object is allocated, and a collection is run by its phases. -/
theorem blocks_in_service_after_phases : ∃ past h, Run .untagged anySlots past h ∧
    past.length = 4 ∧ settled past = true ∧ h.arena.blocksInUse = 1 ∧
    (∀ c ∈ h.arena.caches, ∀ b ∈ c.blocks h.memory, (h.memory.block b).Serves c.shape) ∧
    ∀ c ∈ h.arena.caches, c.Placed h.memory ∧ c.isConsistent h.memory = .ok true := by
  have h₀ : Run .untagged anySlots [] (.fresh 1 .standard) :=
    .start (Heap.initial_fresh (by decide) (by decide))
  have h₁ := h₀.next (.allocateWords 100 1 []) (some 1048600) trivial (by decide +kernel)
  have h₂ := h₁.next .clearUsed none trivial (by decide +kernel)
  have h₃ := h₂.next (.mark [1048600]) none trivial (by decide +kernel)
  have h₄ := h₃.next .sweep none trivial (by decide +kernel)
  obtain ⟨hserves, hplaced⟩ := blocks_in_service h₄
  exact ⟨_, _, h₄, rfl, rfl, by decide +kernel, hserves, hplaced rfl⟩

end SlabHeap
