/-
  Sizes in bytes.

  Statistics and the reports of a verbose arena show numbers of blocks and of megablocks as
  bytes, and fail where such a product leaves the range of a machine word.  What is mapped, and
  so what is in use, lies in the address space and does not fill it, so its bytes can be counted
  (`Heap.Sound.sizes_fit`).  A threshold is no number of blocks that exist: it is what the caller
  asked for, or was doubled from it.  So the threshold alone breaks reports, and a collection
  that it breaks has swept the blocks already, but is not counted
  (`threshold_alone_breaks_reports`).
-/
import SlabHeap.Proofs.Heap.Totals
import SlabHeap.Proofs.Run.Collection
import SlabHeap.Proofs.Run.Megablocks
import SlabHeap.Proofs.Run.Threshold

namespace SlabHeap

variable {tagging : Tagging} {f : Word → Edge} {roots : List Word} {past : List Step} {h : Heap}
  {due : Nat}

/-- The bytes of the threshold are no machine word. -/
def Arena.ThresholdOverflows (a : Arena) : Prop := Word.count ≤ a.threshold * blockBytes

instance (a : Arena) : Decidable a.ThresholdOverflows :=
  inferInstanceAs (Decidable (Word.count ≤ a.threshold * blockBytes))

/-! ## Statistics -/

/-- Where the bytes of what is mapped and of what is in use are machine words, those of the
    threshold decide about the text. -/
theorem Statistics.text_cases {s : Statistics} (hsize : s.megablocks * megablockBytes < Word.count)
    (hused : s.blocksInUse * blockBytes < Word.count) :
    (∃ text, s.text = .ok text) ∧ s.blockThreshold * blockBytes < Word.count ∨
      s.text = .error (.overflow .multiply) ∧ Word.count ≤ s.blockThreshold * blockBytes := by
  unfold text memoryInUse heapSize thresholdSize
  rw [Count.mul_eq_ok.2 ⟨hused, rfl⟩, Count.mul_eq_ok.2 ⟨hsize, rfl⟩]
  cases hthreshold : Count.mul s.blockThreshold blockBytes with
  | ok bytes => exact .inl ⟨⟨_, rfl⟩, (Count.mul_eq_ok.1 hthreshold).1⟩
  | error fault =>
    obtain ⟨rfl, hle⟩ := Count.mul_eq_error hthreshold
    exact .inr ⟨rfl, hle⟩

namespace Heap

/-! ## Blocks and megablocks -/

/-- The bytes of what is mapped are a machine word, and so are those of the blocks in use and of
    one block more. -/
structure SizesFit (h : Heap) : Prop where
  mapped : h.arena.directory.size * megablockBytes < Word.count
  used : (h.arena.blocksInUse + 1) * blockBytes < Word.count

theorem Sound.sizes_fit (hs : h.Sound [] 0) (ht : h.arena.InTurn)
    (hnull : ∀ mb ∈ h.arena.directory.megablocks, mb.base ≠ 0) : h.SizesFit := by
  have hmapped := Directory.size_mul_lt hs.directory hs.supply hnull
  have hsize := (hs.usedUp ht).size
  have hblocks : blocksPerMegablock = 256 := by decide
  have hbytes : megablockBytes = 256 * 4096 := by decide
  have hcount : Word.count = 2 ^ 64 := by decide
  refine ⟨hmapped, ?_⟩
  rw [hbytes, hcount] at hmapped
  rw [hblocks] at hsize
  rw [Nat.mul_comm, blockBytes, hcount]
  omega

/-! ## Collections -/

/-- A collection of the heap counts itself, unless a total comes to leave the range of a machine
    word, or the arena reports and the bytes of its threshold are no machine word.  Then the
    collection was made, and is part of the other totals. -/
def CollectsUnlessOverflow (f : Word → Edge) (roots : List Word) (h : Heap) : Prop :=
  Meets (collect (.ofWord f) roots) h
    (fun _ h' => (∃ n, h.Tallies f roots n ∧
        h'.arena.counters = h.arena.counters.collected n) ∧
      (h.arena.options.verbose = true → ¬ h.arena.ThresholdOverflows))
    fun fault h' =>
      (fault = .overflow .add ∧
        ∃ n, h.Tallies f roots n ∧ (h.arena.counters.collected n).Overflown) ∨
      fault = .overflow .multiply ∧ h.arena.options.verbose = true ∧ h.arena.ThresholdOverflows ∧
        ∃ n, h.Tallies f roots n ∧ h'.arena.blocksInUse + n.freed = h.arena.blocksInUse ∧
          h'.arena.counters =
            { h.arena.counters.collected n with collections := h.arena.counters.collections }

theorem Sound.collects (hf : FiniteChains f) (hs : h.Sound [] due)
    (hused : h.arena.blocksInUse * blockBytes < Word.count) :
    h.CollectsUnlessOverflow f roots := by
  refine ((collect_counts hf hs).and (collect_ends (Tagging.reads_ofWord f) hs)).mono ?_ ?_
  · rintro - h' ⟨⟨hcounted, hshown⟩, -, -, hacc⟩
    refine ⟨hcounted, fun hverbose hle => hshown hverbose (.inr (.inr ?_))⟩
    rw [hacc.threshold]
    exact hle
  · rintro fault t ⟨hadd | ⟨he, n, hn, hun⟩, -⟩
    · exact .inl hadd
    · refine .inr ⟨he, hun.verbose, ?_, n, hn, hun.inUse, hun.counters⟩
      have hafter := Nat.mul_le_mul_right blockBytes (Nat.le.intro hun.inUse)
      rcases hun.report with hle | hle | hle
      · exact absurd hle (Nat.not_le_of_lt hused)
      · exact absurd hle (Nat.not_le_of_lt (hafter.trans_lt hused))
      · rw [hun.threshold] at hle
        exact hle

end Heap

/-! ## Runs -/

/-- The bytes of what is mapped and of what is in use are machine words, if no megablock starts
    at the address zero.  So the statistics have a text, and a collection with a report is
    counted, exactly if the bytes of the threshold are a machine word: both the collection that
    a program asks for, and the one that an allocation runs, which counts its object and its
    block before.  If they are none, the initial threshold was as large, or nine twentieths of
    the address space were in use. -/
theorem threshold_alone_breaks_reports (hr : Run tagging anySlots past h)
    (hnull : ∀ mb ∈ h.arena.directory.megablocks, mb.base ≠ 0) :
    h.SizesFit ∧
    ((∃ text, (h.arena.statistics h.memory).text = .ok text) ↔ ¬ h.arena.ThresholdOverflows) ∧
    (h.arena.ThresholdOverflows →
      (h.arena.statistics h.memory).text = .error (.overflow .multiply)) ∧
    (∀ f, FiniteChains f → ∀ roots, h.CollectsUnlessOverflow f roots ∧
      h.countObject.countBlock.CollectsUnlessOverflow f roots) ∧
    (h.arena.ThresholdOverflows → Word.count ≤ h.arena.options.initialThreshold * blockBytes ∨
      9 * Word.count ≤ 20 * (peak past * blockBytes)) := by
  have hs := hr.sound
  have hfit := hs.sizes_fit hr.inTurn hnull
  have hused : h.arena.blocksInUse * blockBytes < Word.count :=
    (Nat.mul_le_mul_right blockBytes (Nat.le_succ _)).trans_lt hfit.used
  have htext := (h.arena.statistics h.memory).text_cases hfit.mapped hused
  refine ⟨hfit, ?_, fun hle => ?_, fun f hf roots => ⟨hs.collects hf hused, ?_⟩, fun hle => ?_⟩
  · rcases htext with ⟨hok, hlt⟩ | ⟨he, hle⟩
    · exact iff_of_true hok (Nat.not_le_of_lt hlt)
    · exact iff_of_false (fun ⟨text, hok⟩ => by rw [he] at hok; cases hok) (not_not_intro hle)
  · rcases htext with ⟨-, hlt⟩ | ⟨he, -⟩
    · exact absurd hle (Nat.not_le_of_lt hlt)
    · exact he
  · have hs₁ : h.countObject.countBlock.Sound [] 1 := hs.countObject.countBlock
    exact hs₁.collects hf hfit.used
  · obtain ⟨k, hk, hmost⟩ := hr.demanded
    rcases Nat.eq_zero_or_pos k with rfl | hpos
    · rw [Arena.ThresholdOverflows, hk, Nat.pow_zero, Nat.mul_one] at hle
      exact .inl hle
    · have hbytes := Nat.mul_le_mul_right blockBytes (hmost hpos)
      rw [Nat.mul_assoc, Nat.mul_assoc] at hbytes
      exact .inr ((Nat.mul_le_mul_left 9 hle).trans hbytes)

/-- An object in an arena that reports, with the largest threshold whose bytes are a machine
    word. -/
theorem threshold_alone_breaks_reports_at_limit : ∃ past h,
    Run (.ofWord aliasEdge) anySlots past h ∧ past.length = 1 ∧
    h.arena.options = ⟨2 ^ 52 - 1, true⟩ ∧ ¬ h.arena.ThresholdOverflows ∧
    (∀ mb ∈ h.arena.directory.megablocks, mb.base ≠ 0) ∧ h.SizesFit ∧
    (∃ text, (h.arena.statistics h.memory).text = .ok text) ∧
    (Operation.collect []).returned? (.ofWord aliasEdge) h = some none ∧
    h.CollectsUnlessOverflow aliasEdge [] := by
  suffices hrun : ∃ past h, Run (.ofWord aliasEdge) anySlots past h ∧ past.length = 1 ∧
      h.arena.options = ⟨2 ^ 52 - 1, true⟩ ∧ ¬ h.arena.ThresholdOverflows ∧
      (∀ mb ∈ h.arena.directory.megablocks, mb.base ≠ 0) ∧
      (Operation.collect []).returned? (.ofWord aliasEdge) h = some none by
    obtain ⟨past, h, hr, hlength, hoptions, hthreshold, hnull, hreturned⟩ := hrun
    obtain ⟨hfit, htext, -, hcollect, -⟩ := threshold_alone_breaks_reports hr hnull
    exact ⟨past, h, hr, hlength, hoptions, hthreshold, hnull, hfit, htext.2 hthreshold,
      hreturned, (hcollect aliasEdge finiteChains_aliasEdge []).1⟩
  have h₀ : Run (.ofWord aliasEdge) anySlots [] (.fresh 1 ⟨2 ^ 52 - 1, true⟩) :=
    .start (Heap.initial_fresh (by decide) (by decide))
  have h₁ := h₀.next (.allocateWords 254 0 []) (some 1048600) trivial (by decide +kernel)
  exact ⟨_, _, h₁, rfl, by decide +kernel, by decide +kernel, by decide +kernel,
    by decide +kernel⟩

/-- With a threshold of one block more, the statistics have no text, and the collection breaks
    off after it has freed the block. -/
theorem report_breaks_collection : ∃ past h h', Run .untagged anySlots past h ∧
    past.length = 1 ∧ h.arena.options = ⟨2 ^ 52, true⟩ ∧ h.arena.blocksInUse = 1 ∧
    (∀ mb ∈ h.arena.directory.megablocks, mb.base ≠ 0) ∧
    (h.arena.statistics h.memory).text = .error (.overflow .multiply) ∧
    (Operation.collect []).run .untagged h = .error (.overflow .multiply) h' ∧
    h'.arena.blocksInUse = 0 ∧ h'.arena.counters.collections = 0 := by
  have h₀ : Run .untagged anySlots [] (.fresh 1 ⟨2 ^ 52, true⟩) :=
    .start (Heap.initial_fresh (by decide) (by decide))
  have h₁ := h₀.next (.allocateWords 254 0 []) (some 1048600) trivial (by decide +kernel)
  exact ⟨_, _, _, h₁, rfl, by decide +kernel, by decide +kernel, by decide +kernel,
    by decide +kernel, Operation.run_of_fault? (by decide +kernel), by decide +kernel,
    by decide +kernel⟩

end SlabHeap
