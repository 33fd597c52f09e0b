/-
  Programs that make nothing but garbage.

  While the roots of all allocations reach no object, the threshold stays what it was,
  and no block is sliced as long as there is one without an owner.  The collection that
  an allocation runs comes too late for that: the blocks that it frees are not looked at
  before the next block is sliced, so every collection costs the heap one block more, and
  the heap outgrows the threshold with the second (`garbage_growth`).
-/
import SlabHeap.Proofs.Heap.Growth
import SlabHeap.Proofs.Run.Stages

namespace SlabHeap

variable {tagging : Tagging} {may must : Word → Word → Prop} {past : List Step} {h h' : Heap}
  {op : Operation} {r : Option Word}

/-! ## Allocations -/

/-- Allocations whose roots reach no object. -/
def ofGarbage (may : Word → Word → Prop) : Discipline := fun _ h op =>
  op.IsAllocation ∧ Heap.Garbage may op.roots h

/-- The number of blocks that were sliced: those in use, and those without an owner. -/
def Heap.blockCount (h : Heap) : Nat :=
  h.arena.blocksInUse + h.arena.free.length h.memory

theorem Heap.Sound.blockCount_eq (hs : h.Sound [] 0) : h.blockCount = h.extent.sliced := by
  have hsliced := hs.sliced
  rw [List.length_nil] at hsliced
  rw [blockCount]
  omega

namespace Operation

/-- An allocation acquires one block at most. -/
theorem Ends.grows (he : op.Ends tagging h r h') (hT : tagging.Reads may must)
    (hs : h.Sound [] 0) (ha : op.IsAllocation) : Heap.Grows may op.roots h h' := by
  rcases he.allocation hs ha with ⟨-, hu⟩ | ⟨_, _, _, -, -, hs₁, hu, he⟩
  · exact .inl hu.extent
  · exact (Heap.allocate_grows hT hs₁ he).after hu.toSameObjects hu.extent

end Operation

/-! ## Runs -/

/-- A new arena has no blocks, and its threshold is the initial one. -/
theorem Heap.Initial.paced (hi : h.Initial) (ht : 2 ≤ h.extent.initial) : h.extent.Paced := by
  obtain ⟨options, harena⟩ := hi.eq_blank
  rw [Heap.extent, harena] at ht ⊢
  refine ⟨rfl, fun _ => ⟨rfl, ?_⟩, fun hpos => absurd hpos (Nat.lt_irrefl 0)⟩
  exact Nat.lt_of_lt_of_le Nat.two_pos ht

theorem Run.sound_ofGarbage (hr : Run tagging (ofGarbage may) past h) : h.Sound [] 0 := by
  have hr' : Run tagging anySlots past h := hr.mono fun _ _ _ ha => ha.1.fits
  exact hr'.sound

theorem Run.paced (hr : Run tagging (ofGarbage may) past h) (hT : tagging.Reads may must)
    (ht : 2 ≤ h.extent.initial) : h.extent.Paced := by
  induction hr with
  | start hi => exact hi.paced ht
  | step hr ha he ih =>
    have hgrows := he.grows hT hr.sound_ofGarbage ha.1
    have ht' := hgrows.initial ▸ ht
    exact hgrows.paced ha.2 (ih ht') ht'

/-- A step that finds a block without an owner slices none. -/
theorem Run.blockCount_eq (hr : Run tagging (ofGarbage may) past h)
    (hT : tagging.Reads may must) {s : Step} (hmem : s ∈ past)
    (hfree : 0 < s.before.arena.free.length s.before.memory) :
    s.after.blockCount = s.before.blockCount := by
  induction hr with
  | start hi => cases hmem
  | @step past h h' op r hr ha he ih =>
    rcases List.mem_cons.1 hmem with rfl | hmem
    · have hs := hr.sound_ofGarbage
      have hs' := (he.effect hT hs ha.1.fits).sound
      have hlt : h.extent.inUse < h.extent.sliced := by
        rw [← hs.blockCount_eq]
        exact Nat.lt_add_of_pos_right hfree
      show h'.blockCount = h.blockCount
      rw [hs.blockCount_eq, hs'.blockCount_eq, (he.grows hT hs ha.1).sliced hlt]
    · exact ih hmem

theorem garbage_growth (hr : Run tagging (ofGarbage may) past h) (hT : tagging.Reads may must)
    (ht : 2 ≤ h.arena.options.initialThreshold) :
    h.arena.threshold = h.arena.options.initialThreshold ∧
    (h.arena.counters.collections = 0 → h.blockCount < h.arena.threshold) ∧
    (0 < h.arena.counters.collections →
      h.blockCount + 1 = h.arena.threshold + h.arena.counters.collections) ∧
    (h.blockCount ≤ h.arena.threshold ↔ h.arena.counters.collections ≤ 1) ∧
    ∀ s ∈ past, 0 < s.before.arena.free.length s.before.memory →
      s.after.blockCount = s.before.blockCount := by
  obtain ⟨hthreshold, hbefore, hafter⟩ := hr.paced hT ht
  have hbefore' : h.arena.counters.collections = 0 → h.blockCount < h.arena.threshold := by
    rw [hr.sound_ofGarbage.blockCount_eq]
    exact fun hc => (hbefore hc).2
  have hafter' : 0 < h.arena.counters.collections →
      h.blockCount + 1 = h.arena.threshold + h.arena.counters.collections := by
    rw [hr.sound_ofGarbage.blockCount_eq]
    exact hafter
  refine ⟨hthreshold, hbefore', hafter', ?_, fun s hmem hfree => hr.blockCount_eq hT hmem hfree⟩
  rcases Nat.eq_zero_or_pos h.arena.counters.collections with hc | hc
  · have hlt := hbefore' hc
    omega
  · have heq := hafter' hc
    omega

/-- Objects of three sizes, of which each takes a block, in an arena with a threshold of
    two: the first collection costs the heap its second block, and the third object takes
    the one that was freed. -/
theorem garbage_growth_of_three : ∃ past h,
    Run (.ofWord Tagging.untaggedEdge) (ofGarbage (Resolves Tagging.untaggedEdge)) past h ∧
    past.length = 3 ∧ h.arena.options.initialThreshold = 2 ∧ h.arena.counters.collections = 1 ∧
    h.arena.threshold = 2 ∧ h.blockCount + 1 = 2 + 1 ∧
    ∀ s ∈ past, 0 < s.before.arena.free.length s.before.memory →
      s.after.blockCount = s.before.blockCount := by
  have h₀ : Run (.ofWord Tagging.untaggedEdge) (ofGarbage (Resolves Tagging.untaggedEdge)) []
      (.fresh 1 ⟨2, false⟩) := .start (Heap.initial_fresh (by decide) (by decide))
  have h₁ := h₀.next (.allocateWords 254 0 []) (some 1048600) ⟨trivial, Heap.garbage_nil⟩
    (by decide +kernel)
  have h₂ := h₁.next (.allocateWords 200 3 []) (some 1052696) ⟨trivial, Heap.garbage_nil⟩
    (by decide +kernel)
  have h₃ := h₂.next (.allocateBytes 2000 []) (some 1048600) ⟨trivial, Heap.garbage_nil⟩
    (by decide +kernel)
  -- The heap is a large term, so the theorem is applied to a name for it.
  have hgrowth : ∀ {past h}, Run (.ofWord Tagging.untaggedEdge)
        (ofGarbage (Resolves Tagging.untaggedEdge)) past h →
      h.arena.options.initialThreshold = 2 → h.arena.counters.collections = 1 →
      h.arena.threshold = 2 ∧ h.blockCount + 1 = 2 + 1 ∧
        ∀ s ∈ past, 0 < s.before.arena.free.length s.before.memory →
          s.after.blockCount = s.before.blockCount := by
    intro past h hr hinitial hcollections
    obtain ⟨hthreshold, -, hafter, -, hsteps⟩ :=
      garbage_growth hr (Tagging.reads_ofWord _) (by rw [hinitial])
    rw [hthreshold, hinitial, hcollections] at hafter
    exact ⟨hthreshold.trans hinitial, hafter Nat.one_pos, hsteps⟩
  obtain ⟨hthreshold, hcount, hsteps⟩ := hgrowth h₃ (by decide +kernel) (by decide +kernel)
  exact ⟨_, _, h₃, rfl, by decide +kernel, by decide +kernel, hthreshold, hcount, hsteps⟩

/-- Four objects of a block each, in an arena with a threshold of two: a third block is
    sliced although two were freed. -/
theorem garbage_outgrows_threshold : ∃ past h,
    Run (.ofWord Tagging.untaggedEdge) (ofGarbage (Resolves Tagging.untaggedEdge)) past h ∧
    past.length = 4 ∧ h.arena.options.initialThreshold = 2 ∧ h.arena.free.length h.memory = 2 ∧
    ¬ h.blockCount ≤ 2 := by
  have h₀ : Run (.ofWord Tagging.untaggedEdge) (ofGarbage (Resolves Tagging.untaggedEdge)) []
      (.fresh 1 ⟨2, false⟩) := .start (Heap.initial_fresh (by decide) (by decide))
  have h₁ := h₀.next (.allocateWords 254 0 []) (some 1048600) ⟨trivial, Heap.garbage_nil⟩
    (by decide +kernel)
  have h₂ := h₁.next (.allocateWords 254 0 []) (some 1052696) ⟨trivial, Heap.garbage_nil⟩
    (by decide +kernel)
  have h₃ := h₂.next (.allocateWords 254 0 []) (some 1048600) ⟨trivial, Heap.garbage_nil⟩
    (by decide +kernel)
  have h₄ := h₃.next (.allocateWords 254 0 []) (some 1056792) ⟨trivial, Heap.garbage_nil⟩
    (by decide +kernel)
  exact ⟨_, _, h₄, rfl, by decide +kernel, by decide +kernel, by decide +kernel⟩

end SlabHeap
