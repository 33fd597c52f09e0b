/-
  The words that an arena recognises as objects.

  `Arena.Rejects` lists the reasons for which a word is no object of an arena, one
  constructor for each kind of word.  In a sound arena a word is not recognised exactly if
  there is such a reason (`Arena.objectAt?_eq_none`).  On a course the recognised words are
  the starts of the slots of the blocks on the lists of caches, and the slot of a recognised
  word is computed from the word without a fault (`recognises_slots`).
-/
import SlabHeap.Proofs.Heap.Remarking
import SlabHeap.Proofs.Run.Course

namespace SlabHeap

variable {a : Arena} {m : Memory} {due : Nat} {s : Shape} {base w x : Word} {i j : Nat}

/-- An aligned word lies as many words behind the start of its block as `wordOf` tells. -/
theorem Block.eq_plus_wordOf (ha : w.toNat % Word.bytes = 0) :
    w = Word.plus (Block.baseOf w) (Block.wordOf w * Word.bytes) := by
  have hoff := Block.offsetOf_eq w
  have hbase := Block.toNat_baseOf w
  have hstart : Block.StartsAt (Block.baseOf w) := by
    simp only [Block.StartsAt, hbase, blockBytes]
    omega
  have hword : Block.wordOf w * Word.bytes = Block.offsetOf w := by
    rw [Block.wordOf, hoff]
    simp only [Word.bytes, blockBytes] at ha ⊢
    omega
  have hlt : Block.offsetOf w < blockBytes := by
    rw [hoff]
    exact Nat.mod_lt _ (by decide)
  rw [← UInt64.toNat_inj, hword, Block.toNat_plus hstart hlt, hbase, hoff]
  have := Nat.mod_le w.toNat blockBytes
  omega

namespace Arena

/-- The words that start no slot of a block with an owner. -/
inductive Rejects (a : Arena) (m : Memory) (w : Word) : Prop
  | null : w = 0 → Rejects a m w
  | misaligned : w.toNat % Word.bytes ≠ 0 → Rejects a m w
  | foreign : a.contains w = false → Rejects a m w
  | unsliced : a.contains w = true → a.isSliced w = false → Rejects a m w
  | unowned : Block.baseOf w ∈ a.free.toList m → Rejects a m w
  /-- A word of the header or of the bitmap. -/
  | margin {s : Shape} : a.Owns m s (Block.baseOf w) →
    Block.wordOf w < headerWords + Bitmap.wordsFor s.slots → Rejects a m w
  | interior {s : Shape} {base x : Word} {i j : Nat} : a.SlotAt m s base i x →
    0 < j → j < s.size → w = Memory.fieldAddress x j → Rejects a m w
  /-- A word behind the last slot. -/
  | tail {s : Shape} : a.Owns m s (Block.baseOf w) →
    s.layout.slotWord s.slots ≤ Block.wordOf w → Rejects a m w

theorem contains_of_isSliced (hw : a.isSliced w = true) : a.contains w = true := by
  obtain ⟨hmb, -⟩ := (Option.any_eq_true_iff_get ..).1 hw
  exact hmb

variable (h : a.Sound m [] due)
include h

/-- The start of a slot is rejected for no reason. -/
theorem SlotAt.not_rejects (hx : a.SlotAt m s base i w) : ¬ a.Rejects m w := by
  have hsliced : a.isSliced w = true :=
    (isSliced_iff h).2 (.inr ⟨s, hx.baseOf_eq h ▸ hx.owner⟩)
  have hword : Block.wordOf w = s.layout.slotWord i := by
    have := (hx.inside h (j := 0) s.one_le_size).2
    rwa [Block.fieldAddress_zero] at this
  have howner : ∀ {s'}, a.Owns m s' (Block.baseOf w) → s' = s := fun ho =>
    ho.unique h (hx.baseOf_eq h ▸ hx.owner)
  intro hrej
  cases hrej with
  | null h0 => exact hx.ne_zero h h0
  | misaligned hmod =>
    have hobj := Block.isObjectAddress_slotAddress (hx.owner.startsAt h)
      (hx.owner.serves h).layout hx.lt
    rw [← hx.address] at hobj
    simp only [Word.isObjectAddress, Bool.and_eq_true, beq_iff_eq] at hobj
    exact hmod hobj.2
  | foreign hno => rw [contains_of_isSliced hsliced] at hno; cases hno
  | unsliced _ hno => rw [hsliced] at hno; cases hno
  | unowned hfree => exact h.not_mem_free hx.owner.mem_owned (hx.baseOf_eq h ▸ hfree)
  | margin ho hlt =>
    have hle := s.color_le_slotWord (i := i)
    rw [howner ho, ← Shape.color_eq] at hlt
    omega
  | interior hy hj0 hj hw =>
    have hin := hy.inside h hj
    rw [← hw, hx.baseOf_eq h, hword] at hin
    obtain ⟨rfl, hin⟩ := hin
    obtain rfl := hy.owner.unique h hx.owner
    have hzero := (Shape.slotWord_inj (j := 0) (Shape.one_le_size _) hj hin).2
    omega
  | tail ho hle =>
    have hlt := Shape.slotWord_add_lt_end hx.lt (j := 0) s.one_le_size
    rw [howner ho] at hle
    omega

/-- An aligned word of a block with an owner starts a slot, or lies in front of the slots, in
    one of them or behind them. -/
theorem slotAt_or_rejects (ho : a.Owns m s (Block.baseOf w)) (ha : w.toNat % Word.bytes = 0) :
    (∃ i, a.SlotAt m s (Block.baseOf w) i w) ∨ a.Rejects m w := by
  by_cases hmargin : Block.wordOf w < colorFor s.size
  · exact .inr (.margin ho hmargin)
  rcases Shape.slotWord_cases (Nat.not_lt.1 hmargin) with ⟨i, hi, j, hj, hword⟩ | htail
  · have hw : w =
        Memory.fieldAddress ((m.block (Block.baseOf w)).slotAddress (Block.baseOf w) i) j := by
      rw [Block.fieldAddress_eq (ho.serves h).layout, ← hword]
      exact Block.eq_plus_wordOf ha
    rcases Nat.eq_zero_or_pos j with rfl | hpos
    · rw [Block.fieldAddress_zero] at hw
      exact .inl ⟨i, ho, hi, hw⟩
    · exact .inr (.interior ⟨ho, hi, rfl⟩ hpos hj hw)
  · exact .inr (.tail ho htail)

/-- A word is recognised unless there is a reason to reject it. -/
theorem objectAt?_eq_none : a.objectAt? m w = none ↔ a.Rejects m w := by
  constructor
  · intro hnone
    have hno : ∀ s base i, ¬ a.SlotAt m s base i w := by
      intro s base i hx
      have := (objectAt?_eq_some h).2 ⟨s, hx⟩
      rw [hnone] at this
      cases this
    by_cases ha : w.toNat % Word.bytes = 0
    case neg => exact .misaligned ha
    by_cases hc : a.contains w = true
    case neg => exact .foreign (Bool.not_eq_true _ ▸ hc)
    by_cases hsl : a.isSliced w = true
    case neg => exact .unsliced hc (Bool.not_eq_true _ ▸ hsl)
    rcases (isSliced_iff h).1 hsl with hfree | ⟨s, ho⟩
    · exact .unowned hfree
    · rcases slotAt_or_rejects h ho ha with ⟨i, hx⟩ | hrej
      · exact (hno s _ i hx).elim
      · exact hrej
  · intro hrej
    by_contra hsome
    obtain ⟨⟨base, i⟩, hp⟩ := Option.ne_none_iff_exists'.1 hsome
    obtain ⟨s, hx⟩ := (objectAt?_eq_some h).1 hp
    exact hx.not_rejects h hrej

end Arena

/-! ## Courses -/

variable {tagging : Tagging} {past : List Step} {h : Heap}

/-- The words that are recognised are the starts of the slots of blocks on the lists of caches,
    and every other word is of one of the kinds to reject.  Of a word that is recognised, the
    block that it is taken for is its block, and the checks on its slot pass. -/
theorem recognises_slots (hc : Course tagging anySlots past h) (w : Word) :
    (∀ base i, h.arena.objectAt? h.memory w = some (base, i) ↔
      ∃ c ∈ h.arena.caches,
        (base ∈ c.available.toList h.memory ∨ base ∈ c.full.toList h.memory) ∧
        i < c.shape.slots ∧ w = (h.memory.block base).slotAddress base i) ∧
    (h.arena.objectAt? h.memory w = none ↔ h.arena.Rejects h.memory w) ∧
    ∀ base i, h.arena.objectAt? h.memory w = some (base, i) →
      Block.baseOf w = base ∧ (h.memory.block base).slotIndex base w = .ok i := by
  obtain ⟨due, hs⟩ := hc.sound
  refine ⟨fun base i => ?_, Arena.objectAt?_eq_none hs, fun base i hw => ?_⟩
  · rw [Arena.objectAt?_eq_some hs]
    constructor
    · rintro ⟨_, ⟨c, hc, rfl, hb⟩, hi, hw⟩
      exact ⟨c, hc, Cache.mem_blocks.1 hb, hi, hw⟩
    · rintro ⟨c, hc, hb, hi, hw⟩
      exact ⟨c.shape, ⟨c, hc, rfl, Cache.mem_blocks.2 hb⟩, hi, hw⟩
  · obtain ⟨s, hx⟩ := (Arena.objectAt?_eq_some hs).1 hw
    refine ⟨hx.baseOf_eq hs, ?_⟩
    rw [hx.address]
    exact Block.slotIndex_slotAddress (hx.owner.startsAt hs) (hx.owner.serves hs).layout hx.lt

/-- A slot that was never used is recognised.  Words of every other kind are rejected: null, a
    misaligned and a foreign one, one in a part that was not sliced, one in a block that a
    collection freed, a header, a bitmap, a field and a tail. -/
theorem recognises_slots_of_two_blocks : ∃ past h, Course .untagged anySlots past h ∧
    past.length = 3 ∧ h.arena.objectAt? h.memory 1049400 = some (1048576, 1) ∧
    Block.baseOf 1049400 = 1048576 ∧ (h.memory.block 1048576).slotIndex 1048576 1049400 = .ok 1 ∧
    ∀ w ∈ [0, 1049401, 4096, 1056768, 1052696, 1048576, 1048592, 1048608, 1051800],
      h.arena.Rejects h.memory w := by
  have h₀ : Run .untagged anySlots [] (.fresh 1 .standard) :=
    .start (Heap.initial_fresh (by decide) (by decide))
  have h₁ := h₀.next (.allocateWords 100 0 []) (some 1048600) trivial (by decide +kernel)
  have h₂ := h₁.next (.allocateWords 102 0 []) (some 1052696) trivial (by decide +kernel)
  have h₃ := h₂.next (.collect [1048600]) none trivial (by decide +kernel)
  -- The test of all words of a list is `all`, since a test for each `w` in it may run through
  -- the words of the machine instead.
  have hwords : ∀ {past h}, Course .untagged anySlots past h →
      h.arena.objectAt? h.memory 1049400 = some (1048576, 1) →
      [0, 1049401, 4096, 1056768, 1052696, 1048576, 1048592, 1048608, 1051800].all
        (fun w => (h.arena.objectAt? h.memory w).isNone) = true →
      h.arena.objectAt? h.memory 1049400 = some (1048576, 1) ∧
      Block.baseOf 1049400 = 1048576 ∧
      (h.memory.block 1048576).slotIndex 1048576 1049400 = .ok 1 ∧
      ∀ w ∈ [0, 1049401, 4096, 1056768, 1052696, 1048576, 1048592, 1048608, 1051800],
        h.arena.Rejects h.memory w := by
    intro past h hc hslot hnone
    obtain ⟨hbase, hindex⟩ := (recognises_slots hc 1049400).2.2 1048576 1 hslot
    refine ⟨hslot, hbase, hindex, fun w hw => (recognises_slots hc w).2.1.1 ?_⟩
    exact Option.isNone_iff_eq_none.1 (List.all_eq_true.1 hnone w hw)
  exact ⟨_, _, h₃.course, rfl, hwords h₃.course (by decide +kernel) (by decide +kernel)⟩

end SlabHeap
