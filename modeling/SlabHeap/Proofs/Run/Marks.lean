/-
  What marking depends on.

  Markings in a row that start without used slots mark what all of their roots reach.  They
  end in the same blocks and the same counts whenever their roots are the same words, in
  whatever order, how often and in how many calls these are enumerated; the number of roots
  that were scanned is the number of them that was enumerated.  A sweep then sorts the
  blocks into the same lists.  Markings and sweeps break off only where a total leaves the
  range of a machine word.
-/
import SlabHeap.Proofs.Run.Indirections

namespace SlabHeap

variable {f : Word → Edge} {h : Heap} {due : Nat} {rss rss' : List (List Word)}

theorem marks_depend_on_words (hs : h.Sound [] due)
    (hclear : ∀ s x, ¬ h.arena.Holds h.memory s x) (hf : FiniteChains f)
    (hsame : ∀ w, w ∈ rss.flatten ↔ w ∈ rss'.flatten) :
    Meets (rss.forM (Heap.mark (.ofWord f))) h
      (fun _ t => t.arena.counters.rootsScanned =
          h.arena.counters.rootsScanned + rss.flatten.length ∧
        (∀ x, h.arena.Marked h.memory t.memory x ↔
          Reached (Resolves f) h.arena h.memory rss.flatten x) ∧
        Meets (rss'.forM (Heap.mark (.ofWord f))) h
          (fun _ t' => t'.arena.counters.rootsScanned =
              h.arena.counters.rootsScanned + rss'.flatten.length ∧
            t.SameMarks t' ∧
            Meets Heap.sweep t (fun _ _ => True) (fun fault _ => fault = .overflow .add ∧
              Word.count ≤ t.arena.counters.blocksFreed + (t.arena.dead t.memory).length) ∧
            Alike (fun u u' => u.SameMarks u' ∧
                (∀ c ∈ u.arena.caches, c.SameLists u.memory u'.memory) ∧
                u'.arena.free.toList u'.memory = u.arena.free.toList u.memory)
              Heap.sweep Heap.sweep t t')
          fun fault _ => ∃ past, past <+: rss' ∧ h.Overmarks f past.flatten fault)
      fun fault _ => ∃ past, past <+: rss ∧ h.Overmarks f past.flatten fault := by
  have hnone : ∀ x, ¬ h.arena.Marked h.memory h.memory x := by
    rintro x ⟨s, hx⟩
    exact hclear s x hx
  have hmarks := Heap.marks_count hf hs hnone
  refine (hmarks rss).mono ?_ fun _ _ => id
  rintro - t ⟨done, seen, ht⟩
  refine ⟨by rw [ht.arena], fun _ => ht.marked_iff hnone, (hmarks rss').mono ?_ fun _ _ => id⟩
  rintro - t' ⟨done', seen', ht'⟩
  have hsound := ht.sound hs
  have hmarked := Heap.MarkedBy.sameMarks hs hnone ht ht' hsame
  refine ⟨by rw [ht'.arena], hmarked, ?_, (hmarked.sweep hsound).mono fun u u' hu => ?_⟩
  · exact (Heap.sweep_counts hsound).mono (fun _ _ _ => trivial) fun _ _ => id
  · have hlink : ∀ w, (u'.memory.block w).link = (u.memory.block w).link := fun w => by
      rw [hu.block]
    have hcaches : u'.arena.free = u.arena.free := by rw [hu.arena]
    rw [hcaches]
    exact ⟨hu, fun _ _ => ⟨BlockList.toList_congr hlink, BlockList.toList_congr hlink⟩,
      BlockList.toList_congr hlink⟩

/-- Two objects, of which one refers to the other and that to itself, through the indirection
    `5`: markings that find them one after the other, and a marking that finds the second one
    twice and then the first one. -/
theorem marks_depend_on_words_of_two : ∃ past h t t' u u',
    Run (.ofWord aliasEdge) anySlots past h ∧ past.length = 5 ∧
    (∀ s x, ¬ h.arena.Holds h.memory s x) ∧
    [[1048600], [1049400]].forM (Heap.mark (.ofWord aliasEdge)) h = .ok () t ∧
    [[1049400, 1049400, 1048600]].forM (Heap.mark (.ofWord aliasEdge)) h = .ok () t' ∧
    t.arena.counters.rootsScanned = 2 ∧ t'.arena.counters.rootsScanned = 3 ∧ t.SameMarks t' ∧
    Heap.sweep t = .ok 0 u ∧ Heap.sweep t' = .ok 0 u' ∧ u.SameMarks u' := by
  have h₀ : Run (.ofWord aliasEdge) anySlots [] (.fresh 1 .standard) :=
    .start (Heap.initial_fresh (by decide) (by decide))
  have h₁ := h₀.next (.allocateWords 100 1 []) (some 1048600) trivial (by decide +kernel)
  have h₂ := h₁.next (.allocateWords 100 1 []) (some 1049400) trivial (by decide +kernel)
  have h₃ := h₂.next (.write 1048600 0 5) none
    ⟨⟨100, 1, by decide, by decide, by decide⟩, 1048576, 0, by decide +kernel, by decide⟩
    (by decide +kernel)
  have h₄ := h₃.next (.write 1049400 0 1048600) none
    ⟨⟨100, 1, by decide, by decide, by decide⟩, 1048576, 1, by decide +kernel, by decide⟩
    (by decide +kernel)
  have h₅ := h₄.next .clearUsed none trivial (by decide +kernel)
  have hcleared := h₅.holds_of_clearUsed
  -- The heap is a large term, so the theorem is applied to a name for it.
  have hmarks : ∀ {past h}, Run (.ofWord aliasEdge) anySlots past h →
      (∀ s x, ¬ h.arena.Holds h.memory s x) → h.arena.counters.rootsScanned = 0 →
      Returns ([[1048600], [1049400]].forM (Heap.mark (.ofWord aliasEdge))) h
        (fun _ t => Returns Heap.sweep t fun freed _ => freed = 0) →
      Returns ([[1049400, 1049400, 1048600]].forM (Heap.mark (.ofWord aliasEdge))) h
        (fun _ _ => True) →
      ∃ t t' u u',
        [[1048600], [1049400]].forM (Heap.mark (.ofWord aliasEdge)) h = .ok () t ∧
        [[1049400, 1049400, 1048600]].forM (Heap.mark (.ofWord aliasEdge)) h = .ok () t' ∧
        t.arena.counters.rootsScanned = 2 ∧ t'.arena.counters.rootsScanned = 3 ∧
        t.SameMarks t' ∧
        Heap.sweep t = .ok 0 u ∧ Heap.sweep t' = .ok 0 u' ∧ u.SameMarks u' := by
    intro past h hr hclear hzero hret hret'
    obtain ⟨⟨⟩, t, he, hsweep⟩ := hret.exists_ok
    obtain ⟨⟨⟩, t', he', -⟩ := hret'.exists_ok
    obtain ⟨_, u, hu, rfl⟩ := hsweep.exists_ok
    have hsame : ∀ w : Word, w ∈ [[1048600], [1049400]].flatten ↔
        w ∈ [[1049400, 1049400, 1048600]].flatten := by simp [or_comm]
    obtain ⟨hscanned, -, hrest⟩ :=
      (marks_depend_on_words hr.sound hclear finiteChains_aliasEdge hsame).of_ok he
    obtain ⟨hscanned', hmarks, -, halike⟩ := hrest.of_ok he'
    obtain ⟨u', hu', hmarks', -⟩ := halike.of_ok hu
    rw [hzero] at hscanned hscanned'
    exact ⟨t, t', u, u', he, he', hscanned, hscanned', hmarks, hu, hu', hmarks'⟩
  obtain ⟨t, t', u, u', hall⟩ :=
    hmarks h₅ hcleared (by decide +kernel) (by decide +kernel) (by decide +kernel)
  exact ⟨_, _, t, t', u, u', h₅, rfl, hcleared, hall⟩

end SlabHeap
