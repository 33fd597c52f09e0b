/-
  The places of the blocks after a sweep.

  The cache that is swept need not be one of a heap in order.  Its lists must be linked, and
  apart from each other and from the blocks without an owner, and its blocks must count their
  free slots right.  On which of its lists a block was, and which blocks have no owner, does not
  matter.
-/
import SlabHeap.Proofs.Heap.Fullest
import SlabHeap.Proofs.Run.History

namespace SlabHeap

variable {h : Heap} {c : Cache} {index : Nat}

/-- A sweep puts every block of a cache on the list that the count of its free slots asks for,
    and the fullest of those with room in front of the others. -/
theorem sweep_sorts_blocks (hc : h.arena.caches[index]? = some c) (hk : c.Kept h.memory)
    (hnd : (c.blocks h.memory).Nodup) (hl : h.arena.free.Linked h.memory)
    (hidle : ∀ b ∈ c.blocks h.memory, b ∉ h.arena.free.toList h.memory) :
    Returns (Heap.sweepCache index) h fun freed h' => ∃ s,
      Sweep.Swept h.memory c h.arena.free s ∧
      s.available.first = Sweep.fullest? h.memory c (c.blocks h.memory) ∧
      ((s.result c).blocks s.memory ++ s.free.toList s.memory).Perm
        (c.blocks h.memory ++ h.arena.free.toList h.memory) ∧
      freed = s.freed ∧ h' = h.putSweep index c s := by
  obtain ⟨hblocks, hstart⟩ := Sweep.sorted_start hk hnd hl hidle
  rw [Heap.sweepCache]
  simp only [Returns, meets_bind, meets_get, hc, meets_zoom, hblocks, meets_pure]
  refine (Sweep.placeAll_fullest hk hnd hidle hstart rfl).mono ?_
  rintro - s ⟨hsw, hfirst⟩
  exact ⟨s, hsw, hfirst, hsw.blocks_perm, rfl, rfl⟩

/-- Seven objects in blocks of three slots, of which the roots reach two in the first block and
    one in the second: the third block loses its owner, and the first one, which is visited last,
    is put in front of the second. -/
theorem sweep_sorts_blocks_of_three : ∃ past h c, Run .untagged anySlots past h ∧
    past.length = 9 ∧ h.arena.caches[0]? = some c ∧
    (c.blocks h.memory).map (fun b => (b, (h.memory.block b).room)) =
      [(1056768, 3), (1052672, 2), (1048576, 1)] ∧
    Returns (Heap.sweepCache 0) h fun freed h' => ∃ s,
      Sweep.Swept h.memory c h.arena.free s ∧ s.available.first = some 1048576 ∧
      freed = s.freed ∧ h' = h.putSweep 0 c s := by
  suffices hrun : ∃ past h, Run .untagged anySlots past h ∧ past.length = 9 ∧
      (h.arena.caches[0]?).map (fun c =>
        ((c.blocks h.memory).map (fun b => (b, (h.memory.block b).room)),
          Sweep.fullest? h.memory c (c.blocks h.memory))) =
        some ([(1056768, 3), (1052672, 2), (1048576, 1)], some 1048576) by
    obtain ⟨past, h, hr, hlen, hcache⟩ := hrun
    obtain ⟨c, hc, hcache⟩ := Option.map_eq_some_iff.1 hcache
    obtain ⟨hrooms, hfullest⟩ := Prod.mk.inj hcache
    have hs := hr.sound
    have hmem := List.mem_of_getElem? hc
    refine ⟨past, h, c, hr, hlen, hc, hrooms, (sweep_sorts_blocks hc (hs.caches c hmem)
      ((List.nodup_flatMap.1 hs.nodup_owned).1 c hmem) hs.free fun b hb =>
        hs.not_mem_free (Arena.mem_owned.2 ⟨c, hmem, hb⟩)).mono ?_⟩
    rintro freed h' ⟨s, hsw, hfirst, -, hfreed, hend⟩
    exact ⟨s, hsw, hfirst.trans hfullest, hfreed, hend⟩
  have h₀ : Run .untagged anySlots [] (.fresh 1 .standard) :=
    .start (Heap.initial_fresh (by decide) (by decide))
  have h₁ := h₀.next (.allocateWords 120 0 []) (some 1048600) trivial (by decide +kernel)
  have h₂ := h₁.next (.allocateWords 120 0 []) (some 1049560) trivial (by decide +kernel)
  have h₃ := h₂.next (.allocateWords 120 0 []) (some 1050520) trivial (by decide +kernel)
  have h₄ := h₃.next (.allocateWords 120 0 []) (some 1052696) trivial (by decide +kernel)
  have h₅ := h₄.next (.allocateWords 120 0 []) (some 1053656) trivial (by decide +kernel)
  have h₆ := h₅.next (.allocateWords 120 0 []) (some 1054616) trivial (by decide +kernel)
  have h₇ := h₆.next (.allocateWords 120 0 []) (some 1056792) trivial (by decide +kernel)
  have h₈ := h₇.next .clearUsed none trivial (by decide +kernel)
  have h₉ := h₈.next (.mark [1048600, 1049560, 1052696]) none trivial (by decide +kernel)
  exact ⟨_, _, h₉, rfl, by decide +kernel⟩

end SlabHeap
