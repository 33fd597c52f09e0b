/-
  Collecting twice.

  A second collection with the same roots has nothing left to do, wherever a run had come to
  before the first.  It frees no block, replaces no indirection and follows as many pointers,
  and leaves the blocks, the objects and the lists as they are, but for the order on the lists
  of caches (`Heap.Reordered`).  It fails only if one of the totals, to which it adds, comes to
  leave the range of a machine word.
-/
import SlabHeap.Proofs.Heap.Recollecting
import SlabHeap.Proofs.Run.Collection

namespace SlabHeap

variable {tagging : Tagging} {f : Word → Edge} {past : List Step} {h : Heap}

theorem second_collection_reorders (hr : Run tagging anySlots past h) (hf : FiniteChains f)
    (hsilent : h.arena.options.verbose = false) (roots : List Word) :
    Meets ((Operation.collect roots).run (.ofWord f)) h
      (fun _ h₁ => ∃ n, h.Tallies f roots n ∧
        h₁.arena.counters = h.arena.counters.collected n ∧
        Meets ((Operation.collect roots).run (.ofWord f)) h₁
          (fun _ h₂ => h₂.arena.counters = h₁.arena.counters.collected n.again ∧
            h₁.Reordered h₂)
          fun fault _ => fault = .overflow .add ∧
            (h₁.arena.counters.collected n.again).Overflown)
      fun fault _ => fault = .overflow .add ∧
        ∃ n, h.Tallies f roots n ∧ (h.arena.counters.collected n).Overflown := by
  have hs := hr.sound
  simp only [Operation.run, meets_bind, meets_pure]
  refine ((Heap.collect_counts hf hs).and meets_self).mono ?_ ?_
  · rintro ⟨⟩ h₁ ⟨⟨⟨n, hn, hcounters⟩, -⟩, he⟩
    obtain ⟨-, -, hacc⟩ := (Heap.collect_ends (Tagging.reads_ofWord f) hs).of_ok he
    obtain ⟨hs₁, htidy, hagain⟩ := Heap.collect_tidy hf hs he
    refine ⟨n, hn, hcounters, ((Heap.collect_counts hf hs₁).and meets_self).mono ?_ ?_⟩
    · rintro ⟨⟩ h₂ ⟨⟨⟨n', hn', hcounters'⟩, -⟩, he'⟩
      obtain rfl := hagain n n' hn hn'
      exact ⟨hcounters', htidy.reordered hs₁ he' hn' hcounters'⟩
    · rintro fault t ⟨⟨rfl, n', hn', hover⟩ | ⟨-, _, -, hreport⟩, -⟩
      · obtain rfl := hagain n n' hn hn'
        exact ⟨rfl, hover⟩
      · have hverbose := hreport.verbose
        rw [hacc.options, hsilent] at hverbose
        cases hverbose
  · rintro fault t ⟨hadd | ⟨-, _, -, hreport⟩, -⟩
    · exact hadd
    · have hverbose := hreport.verbose
      rw [hsilent] at hverbose
      cases hverbose

/-- Of three objects in two blocks, two refer to one of them, through the indirection `5` in a
    field of each: the first collection replaces both and frees the block of the third, and
    the second one follows both again. -/
theorem second_collection_reorders_of_three : ∃ past h h₁ h₂,
    Run (.ofWord aliasEdge) anySlots past h ∧ past.length = 5 ∧
    h.arena.options.verbose = false ∧
    (Operation.collect [1049400]).run (.ofWord aliasEdge) h = .ok none h₁ ∧
    h₁.arena.counters = ⟨1, 3, 1, 2, 2, 1⟩ ∧
    (Operation.collect [1049400]).run (.ofWord aliasEdge) h₁ = .ok none h₂ ∧
    h₂.arena.counters = ⟨2, 3, 2, 4, 2, 1⟩ ∧ h₁.Reordered h₂ := by
  have h₀ : Run (.ofWord aliasEdge) anySlots [] (.fresh 1 .standard) :=
    .start (Heap.initial_fresh (by decide) (by decide))
  have h₁ := h₀.next (.allocateWords 100 1 []) (some 1048600) trivial (by decide +kernel)
  have h₂ := h₁.next (.allocateWords 100 1 []) (some 1049400) trivial (by decide +kernel)
  have h₃ := h₂.next (.allocateWords 50 0 []) (some 1052696) trivial (by decide +kernel)
  have h₄ := h₃.next (.write 1048600 0 5) none
    ⟨⟨100, 1, by decide, by decide, by decide⟩, 1048576, 0, by decide +kernel, by decide⟩
    (by decide +kernel)
  have h₅ := h₄.next (.write 1049400 0 5) none
    ⟨⟨100, 1, by decide, by decide, by decide⟩, 1048576, 1, by decide +kernel, by decide⟩
    (by decide +kernel)
  -- The heap is a large term, so the theorem is applied to a name for it.
  have htwice : ∀ {past h}, Run (.ofWord aliasEdge) anySlots past h →
      h.arena.options.verbose = false →
      Operation.returned? (.ofWord aliasEdge) (.collect [1049400]) h = some none →
      let h₁ := Operation.after (.ofWord aliasEdge) (.collect [1049400]) h
      Operation.returned? (.ofWord aliasEdge) (.collect [1049400]) h₁ = some none →
      h₁.Reordered (Operation.after (.ofWord aliasEdge) (.collect [1049400]) h₁) := by
    intro past h hr hsilent hret h₁ hret₁
    have hmeets := second_collection_reorders hr finiteChains_aliasEdge hsilent [1049400]
    obtain ⟨n, -, -, hsecond⟩ := hmeets.of_ok (Operation.run_of_returned? hret)
    exact (hsecond.of_ok (Operation.run_of_returned? hret₁)).2
  exact ⟨_, _, _, _, h₅, rfl, by decide +kernel,
    Operation.run_of_returned? (by decide +kernel), by decide +kernel,
    Operation.run_of_returned? (by decide +kernel), by decide +kernel,
    htwice h₅ (by decide +kernel) (by decide +kernel) (by decide +kernel)⟩

end SlabHeap
