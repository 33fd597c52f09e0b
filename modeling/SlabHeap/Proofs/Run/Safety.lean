/-
  No check fails on arbitrary words.

  Along a course of valid operations that write into live objects alone, an operation fails
  for lack of memory or because a count is out of range, and for no other reason, whatever
  the roots and the fields hold.  On an arena that does not report, the counts are sums: its
  products are out of range only if the number of blocks is close to that of words.
-/
import SlabHeap.Proofs.Run.Collection
import SlabHeap.Proofs.Run.Course

namespace SlabHeap

variable {f : Word → Edge} {past : List Step} {h : Heap} {op : Operation}

theorem Heap.Overflows.of_silent {fault : Fault} (hf : h.Overflows fault)
    (hsilent : h.arena.options.verbose = false) : fault = .overflow .add ∨
      fault = .overflow .multiply ∧ Word.count ≤ 10 * (h.arena.blocksInUse + 1) := by
  rcases hf with he | ⟨he, hverbose | hle⟩
  · exact .inl he
  · rw [hsilent] at hverbose
    cases hverbose
  · exact .inr ⟨he, hle⟩

/-- The next operation of a course, if it is a valid one, passes every check but for those of
    the supply of memory and of the range of counts. -/
theorem valid_operations_pass_checks (hc : Course (.ofWord f) (intoLive (Resolves f)) past h)
    (hf : FiniteChains f) (ha : intoLive (Resolves f) past h op) (hvalid : op.Valid h)
    (hsilent : h.arena.options.verbose = false) :
    Meets (op.run (.ofWord f)) h (fun _ _ => True) fun fault _ =>
      fault = .outOfMemory ∨ fault = .overflow .add ∨
        fault = .overflow .multiply ∧ Word.count ≤ 10 * (h.arena.blocksInUse + 1) := by
  have hT := Tagging.reads_ofWord f
  obtain ⟨⟨due, hs⟩, hplaced, hh⟩ := hc.holds hT
  refine (Operation.run_ends hT hs (hh.fits ha)).mono (fun _ _ _ => trivial) fun fault h' hno => ?_
  cases hno with
  | overflow hover => exact .inr (hover.of_silent hsilent)
  | diverges hdiverges => exact absurd hdiverges (Fault.not_diverges hf)
  | starved => exact .inl rfl
  | refused _ hrefused => exact absurd hplaced (hrefused hvalid)

/-- A field points into its own object, and the roots are null, a misaligned and a foreign word,
    a header, a field, a word behind the last slot, an alias of a slot in a block that was freed,
    a word in a part that was not sliced, and a slot that was never used. -/
theorem valid_operations_pass_checks_of_words : ∃ past h, ∃ op : Operation,
    Course (.ofWord aliasEdge) (intoLive (Resolves aliasEdge)) past h ∧ past.length = 4 ∧
    h.memory.field 1052696 0 = 1052704 ∧
    op = .collect [0, 1052697, 4096, 1052672, 1052704, 1055896, 5, 1056768, 1053496] ∧
    op.returned? (.ofWord aliasEdge) h = some none ∧
    Meets (op.run (.ofWord aliasEdge)) h (fun _ _ => True) fun fault _ =>
      fault = .outOfMemory ∨ fault = .overflow .add ∨
        fault = .overflow .multiply ∧ Word.count ≤ 10 * (h.arena.blocksInUse + 1) := by
  have h₀ : Run (.ofWord aliasEdge) (intoLive (Resolves aliasEdge)) [] (.fresh 1 .standard) :=
    .start (Heap.initial_fresh (by decide) (by decide))
  have h₁ := h₀.next (.allocateWords 102 0 []) (some 1048600) ⟨trivial, trivial⟩
    (by decide +kernel)
  have h₂ := h₁.next (.allocateWords 100 1 []) (some 1052696) ⟨trivial, trivial⟩
    (by decide +kernel)
  have h₃ := h₂.next (.write 1052696 0 1052704) none
    ⟨trivial, 100, .allocated rfl rfl, by decide⟩ (by decide +kernel)
  have h₄ := h₃.next (.collect [1052696]) none ⟨trivial, trivial⟩ (by decide +kernel)
  -- The heap is a large term, so the theorem is applied to a name for it.
  have hpasses : ∀ {past h} {op : Operation},
      Course (.ofWord aliasEdge) (intoLive (Resolves aliasEdge)) past h →
      h.arena.options.verbose = false → op.Valid h ∧ intoLive (Resolves aliasEdge) past h op →
      op.returned? (.ofWord aliasEdge) h = some none →
      op.returned? (.ofWord aliasEdge) h = some none ∧
      Meets (op.run (.ofWord aliasEdge)) h (fun _ _ => True) fun fault _ =>
        fault = .outOfMemory ∨ fault = .overflow .add ∨
          fault = .overflow .multiply ∧ Word.count ≤ 10 * (h.arena.blocksInUse + 1) := by
    intro past h op hc hsilent ⟨hvalid, ha⟩ hret
    exact ⟨hret, valid_operations_pass_checks hc finiteChains_aliasEdge ha hvalid hsilent⟩
  exact ⟨_, _, _, h₄.course, rfl, by decide +kernel, rfl,
    hpasses h₄.course (by decide +kernel) ⟨trivial, trivial, trivial⟩ (by decide +kernel)⟩

end SlabHeap
