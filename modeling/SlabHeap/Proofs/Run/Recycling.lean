/-
  Blocks that are taken over along a run.

  Wherever a run has come to, the blocks without an owner and the block that is acquired
  next are fit: a cache takes them over as if it cleared them, so that an allocation that
  skips the clearing is one that does not.
-/
import SlabHeap.Proofs.Heap.Takeover
import SlabHeap.Proofs.Run.History

namespace SlabHeap

variable {tagging : Tagging} {past : List Step} {h : Heap}

theorem clearing_is_spared (hr : Run tagging anySlots past h) :
    (∀ b ∈ h.arena.free.toList h.memory, h.memory.SparesClearing b) ∧
    ∀ (reading : Tagging) (roots : List Word),
      Meets (Heap.acquireBlock reading roots) h (fun b h' => h'.memory.SparesClearing b)
        (fun fault _ => fault.IsFatal) ∧
      ∀ index, Heap.allocate reading roots index h =
        Heap.allocateBy Block.adoptCleared reading roots index h := by
  have hs := hr.sound
  refine ⟨fun b hb => Memory.spares_of_fit (.inl (hs.idle b hb)), fun reading roots =>
    ⟨?_, fun index => Heap.allocate_eq_cleared hs⟩⟩
  refine (Heap.acquireBlock_meets reading.reads_any hs).mono ?_ fun _ _ => id
  rintro b h' ⟨-, hfit, -, -⟩
  exact Memory.spares_of_fit hfit

/-- A block served objects of `102` words and is clear for those of `120` words, of which
    it holds as many. -/
theorem clearing_is_spared_when_recycled : ∃ past h, Run .untagged anySlots past h ∧
    past.length = 2 ∧ h.arena.free.toList h.memory = [1048576] ∧
    (h.memory.block 1048576).layout.size = 102 ∧
    (h.memory.block 1048576).room = slotsIn 120 ∧ h.memory.SparesClearing 1048576 ∧
    Heap.allocate .untagged [] 0 h = Heap.allocateBy Block.adoptCleared .untagged [] 0 h := by
  have h₀ : Run .untagged anySlots [] (.fresh 1 .standard) :=
    .start (Heap.initial_fresh (by decide) (by decide))
  have h₁ := h₀.next (.allocateWords 102 0 []) (some 1048600) trivial (by decide +kernel)
  have h₂ := h₁.next (.collect []) none trivial (by decide +kernel)
  have hspares : ∀ {past h}, Run .untagged anySlots past h →
      h.arena.free.toList h.memory = [1048576] → h.memory.SparesClearing 1048576 ∧
        Heap.allocate .untagged [] 0 h =
          Heap.allocateBy Block.adoptCleared .untagged [] 0 h := by
    intro past h hr hfree
    obtain ⟨hlist, hacquired⟩ := clearing_is_spared hr
    refine ⟨hlist 1048576 ?_, (hacquired .untagged []).2 0⟩
    rw [hfree]
    exact List.mem_singleton_self _
  refine ⟨_, _, h₂, rfl, ?free, by decide +kernel, by decide +kernel, hspares h₂ ?free⟩
  decide +kernel

end SlabHeap
