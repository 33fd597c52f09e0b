/-
  What a collection keeps, wherever a run has come to.

  With a tagging that depends on the word alone and leads to an end, the slots in use
  after a collection are those that the roots reached before it, and a block loses its
  owner exactly if none of its slots was reached.  A collection breaks off only where one of
  its totals leaves the range of a machine word, or a product of the report that a verbose
  arena makes.
-/
import SlabHeap.Proofs.Heap.Totals
import SlabHeap.Proofs.Run.History

namespace SlabHeap

variable {tagging : Tagging} {f : Word → Edge} {past : List Step} {h : Heap}

theorem collect_keeps_reached (hr : Run tagging anySlots past h) (hf : FiniteChains f)
    (roots : List Word) : Meets ((Operation.collect roots).run (.ofWord f)) h
      (fun _ h' => Heap.Collected (Reached (Resolves f) h.arena h.memory roots) h h' ∧
        ∀ c ∈ h.arena.caches, ∀ b ∈ c.blocks h.memory,
          (b ∈ h'.arena.free.toList h'.memory ↔ ∀ i < c.shape.slots,
            ¬ Reached (Resolves f) h.arena h.memory roots ((h.memory.block b).slotAddress b i)))
      fun fault t => (fault = .overflow .add ∧
          ∃ n, h.Tallies f roots n ∧ (h.arena.counters.collected n).Overflown) ∨
        fault = .overflow .multiply ∧ ∃ n, h.Tallies f roots n ∧ h.Unreported n t := by
  have hs := hr.sound
  simp only [Operation.run, meets_bind, meets_pure]
  refine ((Heap.collect_meets (Tagging.reads_ofWord f) hs).and (Heap.collect_counts hf hs)).mono ?_
    fun _ _ => And.right
  · rintro - h' ⟨⟨⟨R, hR, hcol⟩, -, -⟩, -⟩
    obtain rfl : R = Reached (Resolves f) h.arena h.memory roots :=
      funext fun x => propext hR.iff
    refine ⟨hcol, fun c hc b hb => ?_⟩
    have howned : b ∈ h.arena.owned h.memory := Arena.mem_owned.2 ⟨c, hc, hb⟩
    rw [hcol.free]
    constructor
    · rintro (hfree | ⟨d, hd, hb', hnone⟩)
      · exact absurd hfree (hs.not_mem_free howned)
      · have ho : h.arena.Owns h.memory c.shape b := ⟨c, hc, rfl, hb⟩
        rwa [ho.unique hs ⟨d, hd, rfl, hb'⟩]
    · intro hnone
      exact .inr ⟨c, hc, hb, hnone⟩

/-- The tagging in which `5` stands for the object at `1048600`. -/
def aliasEdge (w : Word) : Edge :=
  if w = 5 then .indirection 1048600 else Tagging.untaggedEdge w

theorem finiteChains_aliasEdge : FiniteChains aliasEdge := by
  have huntagged : ∀ w, w ≠ 5 → ∃ ws o, Trail aliasEdge w ws o := by
    intro w hw
    by_cases ha : Word.isObjectAddress w = true
    · exact ⟨_, _, .object (x := w) (by simp [aliasEdge, hw, Tagging.untaggedEdge, ha])⟩
    · exact ⟨_, _, .immediate (by simp [aliasEdge, hw, Tagging.untaggedEdge, ha])⟩
  intro w
  by_cases hw : w = 5
  · obtain ⟨ws, o, ht⟩ := huntagged 1048600 (by decide)
    exact ⟨_, _, .indirection (by simp [aliasEdge, hw]) ht⟩
  · exact huntagged w hw

/-- Of three objects in two blocks, the first is reached through an indirection, the
    second through a field of the first, and the third is not. -/
theorem collect_keeps_reached_of_three : ∃ past h h',
    Run (.ofWord aliasEdge) anySlots past h ∧ past.length = 4 ∧ h.arena.blocksInUse = 2 ∧
    (Operation.collect [5]).run (.ofWord aliasEdge) h = .ok none h' ∧
    h'.arena.blocksInUse = 1 ∧
    Heap.Collected (Reached (Resolves aliasEdge) h.arena h.memory [5]) h h' := by
  have h₀ : Run (.ofWord aliasEdge) anySlots [] (.fresh 1 .standard) :=
    .start (Heap.initial_fresh (by decide) (by decide))
  have h₁ := h₀.next (.allocateWords 100 1 []) (some 1048600) trivial (by decide +kernel)
  have h₂ := h₁.next (.allocateWords 100 1 []) (some 1049400) trivial (by decide +kernel)
  have h₃ := h₂.next (.allocateWords 50 0 []) (some 1052696) trivial (by decide +kernel)
  have h₄ := h₃.next (.write 1048600 0 1049400) none
    ⟨⟨100, 1, by decide, by decide, by decide⟩, 1048576, 0, by decide +kernel, by decide⟩
    (by decide +kernel)
  -- The heap is a large term, so the theorem is applied to a name for it.
  have hcollect : ∀ {past h}, Run (.ofWord aliasEdge) anySlots past h →
      Operation.returned? (.ofWord aliasEdge) (.collect [5]) h = some none →
      Heap.Collected (Reached (Resolves aliasEdge) h.arena h.memory [5]) h
        (Operation.after (.ofWord aliasEdge) (.collect [5]) h) := by
    intro past h hr hret
    have hmeets := collect_keeps_reached hr finiteChains_aliasEdge [5]
    exact (hmeets.of_ok (Operation.run_of_returned? hret)).1
  exact ⟨_, _, _, h₄, rfl, by decide +kernel, Operation.run_of_returned? (by decide +kernel),
    by decide +kernel, hcollect h₄ (by decide +kernel)⟩

end SlabHeap
