/-
  Slots: where the objects of a block lie.

  The slots of a shape follow each other from the word after the bitmap on and
  end in the block (`slotWord_add_lt`), and no word belongs to two of them
  (`slotWord_inj`).  So the words of a slot lie in its block behind the bitmap
  (`wordOf_field`), fields of different slots have different addresses
  (`field_inj`), and `objectSlot?` accepts exactly the addresses at which slots
  start (`objectSlot?_eq_some`).
-/
import Mathlib.Tactic.Ring
import SlabHeap.Proofs.Block.Address
import SlabHeap.Memory.Basic

namespace SlabHeap

namespace Shape
variable (s : Shape)

theorem slots_pos : 0 < s.slots := slotsIn_pos s.size_le

theorem slots_le : s.slots ≤ 501 := slotsIn_le s.one_le_size

theorem headerWords_le_color : headerWords ≤ colorFor s.size := by
  simp only [colorFor]; omega

theorem bitmapWords_layout : s.layout.bitmapWords = Bitmap.wordsFor s.slots := by
  simp only [Layout.bitmapWords, toNat_layout_color, colorFor, slots]; omega

theorem color_eq : colorFor s.size = headerWords + Bitmap.wordsFor s.slots := rfl

/-- The slots of a block end in it. -/
theorem color_add_le : colorFor s.size + s.slots * s.size ≤ blockWords := by
  have hpos := s.one_le_size
  have hdiv : (s.slots + 1) * (64 * s.size + 1) ≤ 32640 := by
    have h : s.slots + 1 = 32640 / (64 * s.size + 1) := by
      have := s.slots_pos
      simp only [slots, slotsIn, capacity, blockBytes, SlabHeap.headerBytes, Word.bytes,
        show 8 * (4096 - 16) = 32640 from rfl, show 8 * 8 = 64 from rfl] at this ⊢
      omega
    rw [h]; exact Nat.div_mul_le_self _ _
  have hexp : (s.slots + 1) * (64 * s.size + 1) =
      64 * (s.slots * s.size) + s.slots + 64 * s.size + 1 := by ring
  rw [color_eq]
  simp only [Bitmap.wordsFor, Word.bits, headerWords, SlabHeap.headerBytes, Word.bytes, blockWords,
    blockBytes]
  omega

theorem slotWord_layout (i : Nat) : s.layout.slotWord i = colorFor s.size + i * s.size := by
  simp [Layout.slotWord]

variable {s} {i j i' j' : Nat}

theorem slotWord_add_lt (hi : i < s.slots) (hj : j < s.size) :
    s.layout.slotWord i + j < blockWords := by
  have h := s.color_add_le
  have : i * s.size + s.size ≤ s.slots * s.size := by
    rw [← Nat.succ_mul]; exact Nat.mul_le_mul_right _ hi
  rw [slotWord_layout]; omega

/-- The words of a slot are in front of the end of the last one. -/
theorem slotWord_add_lt_end (hi : i < s.slots) (hj : j < s.size) :
    s.layout.slotWord i + j < s.layout.slotWord s.slots := by
  have hle := Nat.mul_le_mul_right s.size (Nat.succ_le_of_lt hi)
  rw [Nat.succ_mul] at hle
  rw [slotWord_layout, slotWord_layout]
  omega

theorem color_le_slotWord : colorFor s.size ≤ s.layout.slotWord i := by
  rw [slotWord_layout]; omega

theorem slotWord_inj (hj : j < s.size) (hj' : j' < s.size)
    (h : s.layout.slotWord i + j = s.layout.slotWord i' + j') : i = i' ∧ j = j' := by
  simp only [slotWord_layout] at h
  have h' : s.size * i + j = s.size * i' + j' := by
    rw [Nat.mul_comm s.size, Nat.mul_comm s.size]; omega
  have hdiv := congrArg (· / s.size) h'
  have hmod := congrArg (· % s.size) h'
  have hpos := s.one_le_size
  simp only [Nat.mul_add_div (by omega : 0 < s.size), Nat.mul_add_mod, Nat.div_eq_of_lt hj,
    Nat.div_eq_of_lt hj', Nat.mod_eq_of_lt hj, Nat.mod_eq_of_lt hj'] at hdiv hmod
  exact ⟨by omega, hmod⟩

end Shape

namespace Block

variable {s s' : Shape} {b b' : Block} {base base' w : Word} {i i' j j' : Nat}

theorem slotAddress_eq (hl : b.layout = s.layout) :
    b.slotAddress base i = Word.plus base (s.layout.slotWord i * Word.bytes) := by
  rw [slotAddress, hl]

theorem fieldAddress_eq (hl : b.layout = s.layout) :
    Memory.fieldAddress (b.slotAddress base i) j =
      Word.plus base ((s.layout.slotWord i + j) * Word.bytes) := by
  rw [Memory.fieldAddress, slotAddress_eq hl, plus_plus, Nat.add_mul]

theorem word_bytes_lt {n : Nat} (h : n < blockWords) : n * Word.bytes < blockBytes := by
  simp only [blockWords, Word.bytes] at h ⊢; omega

/-- The words of a slot lie in its block. -/
theorem baseOf_field (hb : StartsAt base) (hl : b.layout = s.layout) (hi : i < s.slots)
    (hj : j < s.size) : baseOf (Memory.fieldAddress (b.slotAddress base i) j) = base := by
  rw [fieldAddress_eq hl, baseOf_plus hb (word_bytes_lt (Shape.slotWord_add_lt hi hj))]

theorem wordOf_field (hb : StartsAt base) (hl : b.layout = s.layout) (hi : i < s.slots)
    (hj : j < s.size) :
    wordOf (Memory.fieldAddress (b.slotAddress base i) j) = s.layout.slotWord i + j := by
  rw [wordOf, fieldAddress_eq hl, offsetOf_plus hb (word_bytes_lt (Shape.slotWord_add_lt hi hj))]
  exact Nat.mul_div_cancel _ (by decide)

theorem fieldAddress_zero (a : Word) : Memory.fieldAddress a 0 = a := by
  simp [Memory.fieldAddress, Word.plus]

theorem baseOf_slotAddress (hb : StartsAt base) (hl : b.layout = s.layout) (hi : i < s.slots) :
    baseOf (b.slotAddress base i) = base := by
  have := baseOf_field hb hl hi (j := 0) s.one_le_size
  rwa [fieldAddress_zero] at this

/-- Words of slots have different addresses, unless they are the same word. -/
theorem field_inj (hb : StartsAt base) (hb' : StartsAt base') (hl : b.layout = s.layout)
    (hl' : b'.layout = s'.layout) (hi : i < s.slots) (hi' : i' < s'.slots) (hj : j < s.size)
    (hj' : j' < s'.size)
    (h : Memory.fieldAddress (b.slotAddress base i) j =
      Memory.fieldAddress (b'.slotAddress base' i') j') :
    base = base' ∧ s.layout.slotWord i + j = s'.layout.slotWord i' + j' := by
  have h1 := congrArg baseOf h
  have h2 := congrArg wordOf h
  rw [baseOf_field hb hl hi hj, baseOf_field hb' hl' hi' hj'] at h1
  rw [wordOf_field hb hl hi hj, wordOf_field hb' hl' hi' hj'] at h2
  exact ⟨h1, h2⟩

theorem slotAddress_inj (hb : StartsAt base) (hl : b.layout = s.layout) (hi : i < s.slots)
    (hi' : i' < s.slots) (h : b.slotAddress base i = b.slotAddress base i') : i = i' := by
  have h' := (field_inj hb hb hl hl hi hi' s.one_le_size s.one_le_size
    (by rw [fieldAddress_zero, fieldAddress_zero]; exact h)).2
  exact (Shape.slotWord_inj s.one_le_size s.one_le_size h').1

theorem toNat_slotAddress (hb : StartsAt base) (hl : b.layout = s.layout) (hi : i < s.slots) :
    (b.slotAddress base i).toNat = base.toNat + s.layout.slotWord i * Word.bytes := by
  rw [slotAddress_eq hl]
  exact toNat_plus hb (word_bytes_lt (Shape.slotWord_add_lt hi s.one_le_size))

theorem isObjectAddress_slotAddress (hb : StartsAt base) (hl : b.layout = s.layout)
    (hi : i < s.slots) : Word.isObjectAddress (b.slotAddress base i) = true := by
  have h := toNat_slotAddress hb hl hi
  have hc := Shape.color_le_slotWord (s := s) (i := i)
  rw [Shape.color_eq] at hc
  simp only [headerWords, headerBytes, Word.bytes] at h hc
  simp only [StartsAt, blockBytes] at hb
  have hne : b.slotAddress base i ≠ 0 := by
    rw [Ne, ← UInt64.toNat_inj, h, UInt64.toNat_zero]; omega
  simp only [Word.isObjectAddress, Word.bytes, bne_iff_ne, ne_eq, hne, not_false_eq_true, h,
    Bool.and_eq_true, beq_iff_eq, true_and]
  omega

/-- The distance of a slot from the start of its block. -/
theorem toNat_slotAddress_sub (hb : StartsAt base) (hl : b.layout = s.layout) (hi : i < s.slots) :
    (b.slotAddress base i - base).toNat = s.layout.slotWord i * Word.bytes := by
  have h := toNat_slotAddress hb hl hi
  have hle : base ≤ b.slotAddress base i := by rw [UInt64.le_iff_toNat_le, h]; omega
  rw [UInt64.toNat_sub_of_le _ _ hle, h]; omega

/-- Of a block in use, the addresses at which slots start are recognised. -/
theorem objectSlot?_eq_some (hb : StartsAt base) (hl : b.layout = s.layout) (hf : b.free = false) :
    b.objectSlot? base w = some i ↔ i < s.slots ∧ w = b.slotAddress base i := by
  have hsize := s.one_le_size
  simp only [objectSlot?, hf, hl, Shape.toNat_layout_size, Shape.toNat_layout_color]
  constructor
  · intro h
    split at h
    · simp at h
    next h1 =>
    split at h
    · simp at h
    next h2 =>
    split at h
    next h3 =>
      simp only [Option.some.injEq] at h
      subst h
      simp only [Bool.false_eq_true, false_or, not_or, UInt64.not_lt, Nat.not_le, ne_eq,
        Nat.not_lt, Decidable.not_not] at h1 h2
      obtain ⟨hle, hlt⟩ := h1
      obtain ⟨-, hmod, hc, hz⟩ := h2
      refine ⟨h3, ?_⟩
      have hsub := UInt64.toNat_sub_of_le _ _ hle
      have hle' := UInt64.le_iff_toNat_le.1 hle
      have hslot := toNat_slotAddress hb hl h3
      rw [← UInt64.toNat_inj, hslot, Shape.slotWord_layout,
        Nat.div_mul_cancel (Nat.dvd_of_mod_eq_zero hz)]
      simp only [StartsAt, blockBytes, Word.bytes] at *
      omega
    · simp at h
  · rintro ⟨hi, rfl⟩
    have hlt := Shape.slotWord_add_lt hi s.one_le_size
    have hsub := toNat_slotAddress_sub hb hl hi
    have hn := toNat_slotAddress hb hl hi
    have hlt' := word_bytes_lt hlt
    have hle : ¬ b.slotAddress base i < base := by
      rw [UInt64.not_lt, UInt64.le_iff_toNat_le, hn]; omega
    have hd : s.layout.slotWord i * Word.bytes / Word.bytes = s.layout.slotWord i :=
      Nat.mul_div_cancel _ (by decide)
    have ha : (b.slotAddress base i).toNat % Word.bytes = 0 := by
      simp only [StartsAt, blockBytes, Word.bytes] at *; omega
    have hs : s.layout.slotWord i - colorFor s.size = i * s.size := by
      rw [Shape.slotWord_layout]; omega
    have hc : ¬ s.layout.slotWord i < colorFor s.size := by
      rw [Shape.slotWord_layout]; omega
    have hb' : ¬ blockBytes ≤ s.layout.slotWord i * Word.bytes := by
      rw [Nat.add_mul] at hlt'; omega
    have hd' : i * s.size / s.size = i := Nat.mul_div_cancel _ hsize
    have hi' : i < slotsIn s.size := hi
    have hz : s.size ≠ 0 := by omega
    simp only [hsub, hd, hs, hd', hle, hb', hc, ha, hz, hi', Nat.mul_mod_left, Bool.false_eq_true,
      or_self, not_true, ne_eq, if_true, if_false]

/-- The slot of an object is found again. -/
theorem slotIndex_slotAddress (hb : StartsAt base) (hl : b.layout = s.layout) (hi : i < s.slots) :
    b.slotIndex base (b.slotAddress base i) = .ok i := by
  have hd : s.layout.slotWord i * Word.bytes / Word.bytes = s.layout.slotWord i :=
    Nat.mul_div_cancel _ (by decide)
  have hs : s.layout.slotWord i - colorFor s.size = i * s.size := by
    rw [Shape.slotWord_layout]; omega
  have hc : ¬ s.layout.slotWord i < colorFor s.size := by
    rw [Shape.slotWord_layout]; omega
  have hd' : i * s.size / s.size = i := Nat.mul_div_cancel _ s.one_le_size
  have hle : ¬ b.slotAddress base i < base := by
    rw [UInt64.lt_iff_toNat_lt, toNat_slotAddress hb hl hi]
    omega
  simp only [slotIndex, toNat_slotAddress_sub hb hl hi, hl, hd, Shape.toNat_layout_size,
    Shape.toNat_layout_color, hs, hc, hle, hd', Nat.mul_mod_left, if_false, ne_eq, not_true]

end Block

end SlabHeap
