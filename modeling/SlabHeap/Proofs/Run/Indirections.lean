/-
  What marking does to memory.

  With a tagging that depends on the word alone and leads to an end, marking an arena
  without used slots replaces the pointer fields of all objects that the roots reach by
  the last words of their chains, changes no other word of an object, and counts the
  indirections in these chains.  What the roots reach stays the same.  A marking breaks off
  only where one of its totals leaves the range of a machine word.
-/
import SlabHeap.Proofs.Heap.Rewriting
import SlabHeap.Proofs.Run.Collection

namespace SlabHeap

variable {f : Word → Edge} {h : Heap} {roots : List Word}

theorem mark_collapses_chains (hs : h.Sound [] 0) (hclear : ∀ s x, ¬ h.arena.Holds h.memory s x)
    (hf : FiniteChains f) (roots : List Word) : Meets (Heap.mark (.ofWord f) roots) h
      (fun _ h' => ∃ fields : List (Word × Nat), fields.Nodup ∧
        (∀ x j, (x, j) ∈ fields ↔ ∃ s base i, h.arena.SlotAt h.memory s base i x ∧
          Reached (Resolves f) h.arena h.memory roots x ∧ j < s.pointers) ∧
        (∀ x j, (x, j) ∈ fields → h'.memory.field x j = lastWord f (h.memory.field x j) ∧
          ∀ t, f (h'.memory.field x j) ≠ .indirection t) ∧
        (∀ s base i x j, h.arena.SlotAt h.memory s base i x → j < s.size → (x, j) ∉ fields →
          h'.memory.field x j = h.memory.field x j) ∧
        (∀ b ∉ h.arena.owned h.memory, h'.memory.block b = h.memory.block b) ∧
        h'.arena.counters.indirectionsCollapsed = h.arena.counters.indirectionsCollapsed +
          (fields.map fun p => hops f (h.memory.field p.1 p.2)).sum ∧
        ∀ x, Reached (Resolves f) h'.arena h'.memory roots x ↔
          Reached (Resolves f) h.arena h.memory roots x)
      fun fault _ => h.Overmarks f roots fault := by
  have hnone : ∀ x, ¬ h.arena.Marked h.memory h.memory x := by
    rintro x ⟨s, hx⟩
    exact hclear s x hx
  refine ((Heap.mark_rewrites hs hnone).and (Heap.mark_counts hf hs hnone)).mono ?_
    fun _ _ => And.right
  · rintro - h' ⟨⟨fields, hw, harena⟩, -⟩
    refine ⟨fields, hw.nodup, hw.mem, fun x j hmem => ?_, fun s base i x j hx hj hmem => ?_,
      hw.preserved.changes.block, by rw [harena], fun x => ?_⟩
    · obtain ⟨s, base, i, hx, -, hj⟩ := (hw.mem x j).1 hmem
      obtain ⟨ws, o, ht⟩ := hw.trails _ hmem
      have hfield := hw.field hx (hj.trans_le s.pointers_le)
      rw [if_pos hmem] at hfield
      rw [hfield]
      exact ⟨rfl, fun t => ht.lastWord_ne_indirection⟩
    · rw [hw.field hx hj, if_neg hmem]
    · have hcaches : h'.arena.caches = h.arena.caches := by rw [harena]
      rw [← hw.reached hs]
      exact ⟨fun hx => hx.of_caches hcaches.symm, fun hx => hx.of_caches hcaches⟩

/-- After clearing, no object is in use. -/
theorem Run.holds_of_clearUsed {tagging : Tagging} {past : List Step} {h h' : Heap}
    {r : Option Word} (hr : Run tagging anySlots (⟨.clearUsed, h, r, h'⟩ :: past) h') :
    ∀ s x, ¬ h'.arena.Holds h'.memory s x := by
  cases hr with
  | step hr _ he =>
    have hrun : Returns (Operation.clearUsed.run tagging) h fun _ h' =>
        ∀ s x, ¬ h'.arena.Holds h'.memory s x := by
      simp only [Returns, Operation.run, meets_bind, meets_pure]
      refine (Heap.clearUsed_returns hr.sound).meets ?_
      rintro - _ ⟨m', rfl, hp, hclear⟩ s x hx
      exact Heap.not_marked_cleared hr.sound hp hclear ⟨s, hx⟩
    cases he with
    | returned he => exact hrun.of_ok he
    | failed he _ => exact (hrun.of_error he).elim

/-- Two objects refer to one of them, through the indirection `5` in a field of each.  Both
    fields hold the object itself after marking. -/
theorem mark_collapses_chains_of_two : ∃ past h h',
    Run (.ofWord aliasEdge) anySlots past h ∧ past.length = 5 ∧
    (∀ s x, ¬ h.arena.Holds h.memory s x) ∧
    h.memory.field 1048600 0 = 5 ∧ h.memory.field 1049400 0 = 5 ∧
    Heap.mark (.ofWord aliasEdge) [1049400] h = .ok () h' ∧
    h'.memory.field 1048600 0 = 1048600 ∧ h'.memory.field 1049400 0 = 1048600 ∧
    h'.arena.counters.indirectionsCollapsed = 2 ∧
    ∀ x, Reached (Resolves aliasEdge) h'.arena h'.memory [1049400] x ↔
      Reached (Resolves aliasEdge) h.arena h.memory [1049400] x := by
  have h₀ : Run (.ofWord aliasEdge) anySlots [] (.fresh 1 .standard) :=
    .start (Heap.initial_fresh (by decide) (by decide))
  have h₁ := h₀.next (.allocateWords 100 1 []) (some 1048600) trivial (by decide +kernel)
  have h₂ := h₁.next (.allocateWords 100 1 []) (some 1049400) trivial (by decide +kernel)
  have h₃ := h₂.next (.write 1048600 0 5) none
    ⟨⟨100, 1, by decide, by decide, by decide⟩, 1048576, 0, by decide +kernel, by decide⟩
    (by decide +kernel)
  have h₄ := h₃.next (.write 1049400 0 5) none
    ⟨⟨100, 1, by decide, by decide, by decide⟩, 1048576, 1, by decide +kernel, by decide⟩
    (by decide +kernel)
  have h₅ := h₄.next .clearUsed none trivial (by decide +kernel)
  have hcleared := h₅.holds_of_clearUsed
  -- The heap is a large term, so the theorem is applied to a name for it.
  have hreached : ∀ {past h}, Run (.ofWord aliasEdge) anySlots past h →
      (∀ s x, ¬ h.arena.Holds h.memory s x) →
      Operation.returned? (.ofWord aliasEdge) (.mark [1049400]) h = some none →
      let h' := Operation.after (.ofWord aliasEdge) (.mark [1049400]) h
      Heap.mark (.ofWord aliasEdge) [1049400] h = .ok () h' ∧
        ∀ x, Reached (Resolves aliasEdge) h'.arena h'.memory [1049400] x ↔
          Reached (Resolves aliasEdge) h.arena h.memory [1049400] x := by
    intro past h hr hclear hret
    have hmark : Meets ((Operation.mark [1049400]).run (.ofWord aliasEdge)) h
        (fun _ h' => Heap.mark (.ofWord aliasEdge) [1049400] h = .ok () h') fun _ _ => True := by
      simp only [Operation.run, meets_bind, meets_pure]
      exact meets_self.mono (fun _ _ => id) fun _ _ _ => trivial
    have he := hmark.of_ok (Operation.run_of_returned? hret)
    obtain ⟨fields, -, -, -, -, -, -, hiff⟩ :=
      (mark_collapses_chains hr.sound hclear finiteChains_aliasEdge [1049400]).of_ok he
    exact ⟨he, hiff⟩
  obtain ⟨he, hiff⟩ := hreached h₅ hcleared (by decide +kernel)
  exact ⟨_, _, _, h₅, rfl, hcleared, by decide +kernel, by decide +kernel, he,
    by decide +kernel, by decide +kernel, by decide +kernel, hiff⟩

end SlabHeap
