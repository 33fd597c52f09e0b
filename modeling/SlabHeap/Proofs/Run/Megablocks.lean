/-
  Megablocks along a run.

  In every heap of a run, the megablocks are used in turn (`Run.inTurn`): at most one has
  blocks left, which is the current one, and their number is that of the sliced blocks, divided
  by the blocks of a megablock and rounded up (`Heap.UsedUp`).  So the loop that looks for a
  block to slice ends in its first round, and a step slices one block at most, which no step
  sliced before (`megablocks_are_used_up`).
-/
import SlabHeap.Proofs.Heap.Turns
import SlabHeap.Proofs.Run.Conservation
import SlabHeap.Proofs.Run.Stages

namespace SlabHeap

variable {tagging : Tagging} {past : List Step} {h h' : Heap} {op : Operation} {r : Option Word}
  {b : Word} {s : Step}

/-! ## Heaps -/

/-- At most one megablock has blocks left, which is the current one, and there are no more
    megablocks than the blocks need. -/
structure Heap.UsedUp (h : Heap) : Prop where
  unique : ∀ mb ∈ h.arena.directory.megablocks, ∀ mb' ∈ h.arena.directory.megablocks,
    mb.isExhausted = false → mb'.isExhausted = false → mb = mb'
  unfinished : ∀ mb ∈ h.arena.directory.megablocks, mb.isExhausted = false →
    h.arena.current = some mb.base
  none : h.arena.current = none ↔ ∀ mb ∈ h.arena.directory.megablocks, mb.isExhausted = true
  size : h.arena.directory.size =
    (h.arena.blocksInUse + h.arena.free.length h.memory + (blocksPerMegablock - 1)) /
      blocksPerMegablock

theorem Heap.Sound.usedUp (hs : h.Sound [] 0) (ht : h.arena.InTurn) : h.UsedUp where
  unique _ hm _ hm' := ht.unique hs.directory.ordered hm hm'
  unfinished := ht.unfinished
  none := ht.current_eq_none
  size := by
    rw [ht.size_eq hs.directory, Directory.length_blocks, hs.conserved.total]

/-- A block lies in one of the megablocks that the system mapped for the arena. -/
def Arena.Encloses (a : Arena) (b : Word) : Prop :=
  ∃ mb ∈ a.directory.megablocks, mb.mapping.size = megablockBytes ∧
    mb.base.toNat ≤ b.toNat ∧ b.toNat + blockBytes ≤ mb.base.toNat + mb.mapping.size

theorem Heap.Sound.encloses (hs : h.Sound [] 0) (hb : b ∈ h.arena.directory.blocks) :
    h.arena.Encloses b := by
  obtain ⟨mb, hm, hb⟩ := Directory.mem_blocks.1 hb
  obtain ⟨i, hi, rfl⟩ := Megablock.mem_blocks.1 hb
  have hmapped := hs.directory.megablocks mb hm
  have hlt : i < blocksPerMegablock := Nat.lt_of_lt_of_le hi hmapped.sliced
  refine ⟨mb, hm, hmapped.size, ?_⟩
  rw [Megablock.toNat_blockBase hmapped hs.supply hlt, hmapped.size]
  have hbytes : blocksPerMegablock * blockBytes = megablockBytes := by decide
  have hle : (i + 1) * blockBytes ≤ megablockBytes := hbytes ▸ Nat.mul_le_mul_right _ hlt
  rw [Nat.succ_mul] at hle
  omega

/-! ## Steps -/

/-- The blocks that were sliced in a step. -/
def Step.sliced (s : Step) : List Word :=
  s.after.arena.directory.blocks.filter (· ∉ s.before.arena.directory.blocks)

/-- The blocks that were sliced so far, the latest first. -/
def slicedAlong (past : List Step) : List Word := past.flatMap Step.sliced

/-- A step slices no block, or the one that its new object lies in. -/
def Step.SlicesOne (s : Step) : Prop :=
  s.sliced = [] ∨ ∃ w, s.result = some w ∧ s.sliced = [Block.baseOf w]

/-- The megablocks stay in turn.  The directory stays, or a block is sliced for the new
    object. -/
theorem Operation.Ends.turn (he : op.Ends tagging h r h') (hs : h.Sound [] 0)
    (ht : h.arena.InTurn) : h'.arena.InTurn ∧ (h'.arena.directory = h.arena.directory ∨
      ∃ w, r = some w ∧ h.Slices (Block.baseOf w) h') := by
  by_cases ha : op.IsAllocation
  · rcases he.allocation hs ha with ⟨-, hu⟩ | ⟨index, w, h₁, hr, -, hs₁, hu, hallocate⟩
    · exact ⟨ht.congr hu.directory hu.current, .inl hu.directory⟩
    · obtain ⟨ht', hdir⟩ := Heap.allocate_turn hs₁ (ht.congr hu.directory hu.current) hallocate
      exact ⟨ht', hdir.imp (·.trans hu.directory) fun hsl =>
        ⟨w, hr, hsl.of_eq hu.directory hu.current⟩⟩
  · have hframe := he.frame ha
    exact ⟨ht.of_frame hframe, .inl (congrArg Arena.Frame.directory hframe)⟩

theorem Step.sliced_eq_nil (hd : s.after.arena.directory = s.before.arena.directory) :
    s.sliced = [] := by
  rw [sliced, hd]
  exact List.filter_eq_nil_iff.2 fun b hb => by simpa using hb

theorem Step.sliced_eq_singleton (hsl : s.before.Slices b s.after)
    (hnd : s.after.arena.directory.blocks.Nodup) : s.sliced = [b] := by
  have hnew : b ∉ s.before.arena.directory.blocks :=
    (List.nodup_cons.1 (hsl.blocks.nodup_iff.1 hnd)).1
  have hperm : s.sliced.Perm _ := hsl.blocks.filter (· ∉ s.before.arena.directory.blocks)
  have hrest : s.before.arena.directory.blocks.filter
      (· ∉ s.before.arena.directory.blocks) = [] :=
    List.filter_eq_nil_iff.2 fun b hb => by simpa using hb
  rw [List.filter_cons_of_pos (by simpa using hnew), hrest] at hperm
  exact List.perm_singleton.1 hperm

/-! ## Runs -/

namespace Run

theorem inTurn (hr : Run tagging anySlots past h) : h.arena.InTurn := by
  induction hr with
  | start hi =>
    obtain ⟨options, harena⟩ := hi.eq_blank
    rw [harena]
    exact Directory.inTurn_empty
  | step hr _ he ih => exact (he.turn hr.sound ih).1

theorem nodup_sliced (hr : Run tagging anySlots past h) : h.arena.directory.blocks.Nodup :=
  Directory.nodup_blocks hr.sound.directory hr.sound.supply

/-- The heap after a step is one of a run. -/
theorem after (hr : Run tagging anySlots past h) (hmem : s ∈ past) :
    ∃ past', Run tagging anySlots past' s.after := by
  induction hr with
  | start hi => cases hmem
  | @step past h h' op r hr ha he ih =>
    rcases List.mem_cons.1 hmem with rfl | hmem
    · exact ⟨_, .step hr ha he⟩
    · exact ih hmem

theorem slicesOne (hr : Run tagging anySlots past h) (hmem : s ∈ past) : s.SlicesOne := by
  induction hr with
  | start hi => cases hmem
  | @step past h h' op r hr ha he ih =>
    rcases List.mem_cons.1 hmem with rfl | hmem
    · rcases (he.turn hr.sound hr.inTurn).2 with hd | ⟨w, hw, hsl⟩
      · exact .inl (Step.sliced_eq_nil hd)
      · exact .inr ⟨w, hw, Step.sliced_eq_singleton hsl (hr.step ha he).nodup_sliced⟩
    · exact ih hmem

/-- The blocks that were sliced along the run are those of the megablocks. -/
theorem slicedAlong_perm (hr : Run tagging anySlots past h) :
    (slicedAlong past).Perm h.arena.directory.blocks := by
  induction hr with
  | start hi =>
    obtain ⟨options, harena⟩ := hi.eq_blank
    rw [harena]
    exact .refl _
  | @step past h h' op r hr ha he ih =>
    rw [slicedAlong, List.flatMap_cons]
    rcases (he.turn hr.sound hr.inTurn).2 with hd | ⟨w, -, hsl⟩
    · rw [Step.sliced_eq_nil (s := ⟨op, h, r, h'⟩) hd, hd]
      exact ih
    · rw [Step.sliced_eq_singleton (s := ⟨op, h, r, h'⟩) hsl (hr.step ha he).nodup_sliced]
      exact (ih.cons _).trans hsl.blocks.symm

end Run

/-- Megablocks are used up before another is mapped.  Blocks are acquired as by a loop of any
    number of rounds, so it ends in the first, and at most one megablock is mapped for a block.
    An allocation counts its object before it acquires a block for it, and resolves a layout, if
    it has to, as an operation would. -/
theorem megablocks_are_used_up (hr : Run tagging anySlots past h) :
    h.UsedUp ∧
    (∀ roots rounds, 0 < rounds → Heap.acquireBlock tagging roots h.countObject =
      Heap.acquireBlockBy (Heap.sliceLoop rounds) tagging roots h.countObject) ∧
    (∀ roots b h', Heap.acquireBlock tagging roots h.countObject = .ok b h' →
      h'.arena.directory = h.arena.directory ∨ h.Slices b h') ∧
    (slicedAlong past).Perm h.arena.directory.blocks ∧ (slicedAlong past).Nodup ∧
    ∀ s ∈ past, s.SlicesOne ∧ ∀ b ∈ s.sliced, Block.StartsAt b ∧ s.after.arena.Encloses b := by
  have hs := hr.sound
  have ht := hr.inTurn
  have hs₁ := hs.countObject
  have hperm := hr.slicedAlong_perm
  refine ⟨hs.usedUp ht, fun roots rounds => Heap.acquireBlock_eq_loop hs₁ ht, ?_, hperm,
    hperm.nodup_iff.2 hr.nodup_sliced, fun s hmem => ⟨hr.slicesOne hmem, fun b hb => ?_⟩⟩
  · intro roots b h' he
    exact ((Heap.acquireBlock_turn hs₁ ht).of_ok he).2.imp id fun hsl => hsl.of_eq rfl rfl
  · obtain ⟨past', hr'⟩ := hr.after hmem
    have hb' : b ∈ s.after.arena.directory.blocks := List.mem_of_mem_filter hb
    exact ⟨Directory.startsAt_of_mem_blocks hr'.sound.directory hr'.sound.supply hb',
      hr'.sound.encloses hb'⟩

/-- Three objects that take a block each, in an arena with a threshold of two: the second block
    is sliced after a collection, and the third object takes the first one again. -/
theorem megablocks_are_used_up_by_three : ∃ past h, Run .untagged anySlots past h ∧
    past.length = 3 ∧ h.arena.counters.collections = 1 ∧
    slicedAlong past = [1052672, 1048576] ∧ h.arena.directory.size = 1 ∧ h.UsedUp ∧
    ∀ s ∈ past, s.SlicesOne := by
  suffices hrun : ∃ past h, Run .untagged anySlots past h ∧ past.length = 3 ∧
      h.arena.counters.collections = 1 ∧ slicedAlong past = [1052672, 1048576] ∧
      h.arena.directory.size = 1 by
    obtain ⟨past, h, hr, hlength, hcollections, hsliced, hsize⟩ := hrun
    obtain ⟨hused, -, -, -, -, hsteps⟩ := megablocks_are_used_up hr
    exact ⟨past, h, hr, hlength, hcollections, hsliced, hsize, hused, fun s hmem =>
      (hsteps s hmem).1⟩
  have h₀ : Run .untagged anySlots [] (.fresh 1 ⟨2, false⟩) :=
    .start (Heap.initial_fresh (by decide) (by decide))
  have h₁ := h₀.next (.allocateWords 254 0 []) (some 1048600) trivial (by decide +kernel)
  have h₂ := h₁.next (.allocateWords 200 3 []) (some 1052696) trivial (by decide +kernel)
  have h₃ := h₂.next (.allocateBytes 2000 []) (some 1048600) trivial (by decide +kernel)
  exact ⟨_, _, h₃, rfl, by decide +kernel, by decide +kernel, by decide +kernel⟩

end SlabHeap
