/-
  Markings end, wherever a program has come to.

  With a tagging that depends on the word alone and leads to an end, a marking ends with
  nothing pending, whichever slots are in use when it starts and whatever the roots and the
  fields hold.  At every moment of it the objects that became pending are different ones, so
  that it scans no object twice, and no more objects than there were slots to scan.
-/
import SlabHeap.Proofs.Heap.Worklist
import SlabHeap.Proofs.Run.Collection
import SlabHeap.Proofs.Run.Course

namespace SlabHeap

open Marking (Log)

variable {tagging : Tagging} {f : Word → Edge} {past : List Step} {h : Heap}

/-- A marking ends with nothing pending, and has a log of what it pushed and popped.  By such a
    log, at whatever moment, no object was pushed twice, and there were no more pops than slots
    to scan when it started.  As an operation, it fails for no reason but a counter. -/
theorem marking_scans_each_once (hc : Course tagging anySlots past h) (hf : FiniteChains f)
    (roots : List Word) :
    Returns (Marking.run h.arena (.ofWord f) roots) (Marking.start h.memory)
      (fun _ s => s.pending = [] ∧
        ∃ pushed popped, Log h.arena (.ofWord f) h.memory roots [] pushed popped s) ∧
    (∀ todo pushed popped s, Log h.arena (.ofWord f) h.memory roots todo pushed popped s →
      pushed.Nodup ∧ pushed.Perm (s.pending ++ popped) ∧
      pushed ⊆ h.arena.unscanned h.memory ∧
      popped.length ≤ (h.arena.unscanned h.memory).length) ∧
    Meets (Heap.mark (.ofWord f) roots) h (fun _ _ => True)
      fun fault _ => fault = .overflow .add := by
  obtain ⟨due, hs⟩ := hc.sound
  have hreads := Tagging.reads_ofWord f
  have hrun : Returns (Marking.run h.arena (.ofWord f) roots) (Marking.start h.memory)
      fun _ _ => True :=
    (Marking.run_meets hs hreads).mono (fun _ _ _ => trivial)
      fun _ _ => Fault.not_diverges hf
  refine ⟨?_, fun todo pushed popped s hlog => ?_, ?_⟩
  · exact (hrun.and Marking.run_log).mono (fun _ _ => And.right) fun _ _ => And.left
  · exact ⟨hlog.nodup hs hreads, hlog.perm, hlog.subset_unscanned hs hreads,
      hlog.length_popped_le hs hreads⟩
  · exact Heap.meets_mark (hrun.meets fun _ _ => id) fun _ => rfl

/-- Two objects that refer to themselves and to each other, one through the indirection `5`,
    in a block with four clear slots. -/
theorem marking_scans_each_once_of_two : ∃ past h,
    Course (.ofWord aliasEdge) anySlots past h ∧
    past.length = 7 ∧ (h.arena.unscanned h.memory).length = 4 ∧
    ∃ s pushed popped,
      Marking.run h.arena (.ofWord aliasEdge) [1049400, 1049400, 5] (Marking.start h.memory) =
        .ok ⟨⟩ s ∧
      s.pending = [] ∧
      Log h.arena (.ofWord aliasEdge) h.memory [1049400, 1049400, 5] [] pushed popped s ∧
      pushed.Nodup ∧ pushed.Perm popped ∧ popped.length ≤ 4 := by
  have h₀ : Run (.ofWord aliasEdge) anySlots [] (.fresh 1 .standard) :=
    .start (Heap.initial_fresh (by decide) (by decide))
  have h₁ := h₀.next (.allocateWords 100 2 []) (some 1048600) trivial (by decide +kernel)
  have h₂ := h₁.next (.allocateWords 100 2 []) (some 1049400) trivial (by decide +kernel)
  have h₃ := h₂.next (.write 1048600 0 5) none
    ⟨⟨100, 2, by decide, by decide, by decide⟩, 1048576, 0, by decide +kernel, by decide⟩
    (by decide +kernel)
  have h₄ := h₃.next (.write 1048600 1 1049400) none
    ⟨⟨100, 2, by decide, by decide, by decide⟩, 1048576, 0, by decide +kernel, by decide⟩
    (by decide +kernel)
  have h₅ := h₄.next (.write 1049400 0 1049400) none
    ⟨⟨100, 2, by decide, by decide, by decide⟩, 1048576, 1, by decide +kernel, by decide⟩
    (by decide +kernel)
  have h₆ := h₅.next (.write 1049400 1 5) none
    ⟨⟨100, 2, by decide, by decide, by decide⟩, 1048576, 1, by decide +kernel, by decide⟩
    (by decide +kernel)
  have h₇ := h₆.next .clearUsed none trivial (by decide +kernel)
  -- The heap is a large term, so the theorem is applied to a name for it.
  have hscans : ∀ {past h}, Course (.ofWord aliasEdge) anySlots past h →
      (h.arena.unscanned h.memory).length = 4 → (h.arena.unscanned h.memory).length = 4 ∧
      ∃ s pushed popped,
        Marking.run h.arena (.ofWord aliasEdge) [1049400, 1049400, 5] (Marking.start h.memory) =
          .ok ⟨⟩ s ∧
        s.pending = [] ∧
        Log h.arena (.ofWord aliasEdge) h.memory [1049400, 1049400, 5] [] pushed popped s ∧
        pushed.Nodup ∧ pushed.Perm popped ∧ popped.length ≤ 4 := by
    intro past h hc hclear
    obtain ⟨hreturns, hlogs, -⟩ :=
      marking_scans_each_once hc finiteChains_aliasEdge [1049400, 1049400, 5]
    obtain ⟨⟨⟩, s, he, hpend, pushed, popped, hlog⟩ := hreturns.exists_ok
    obtain ⟨hnodup, hperm, -, hle⟩ := hlogs _ _ _ _ hlog
    rw [hpend, List.nil_append] at hperm
    exact ⟨hclear, s, pushed, popped, he, hpend, hlog, hnodup, hperm, hclear ▸ hle⟩
  exact ⟨_, _, h₇.course, rfl, hscans h₇.course (by decide +kernel)⟩

end SlabHeap
