/-
  Blocks in the service of a shape.

  `Serves b s` is what a cache of the shape `s` relies on: the layout of `s`, a
  count of free slots that agrees with the bitmap, sentinels behind the last slot
  and a hint that lies in the bitmap.  A block that lost its owner is `Idle`: it
  served some shape to the end and is clear for it.

  The operations of the owner return on such blocks and keep them in service
  (`clearUsed_returns`, `takeSlot_returns`, `mark_returns`); a block is taken into
  service when it is idle or counts no free slot (`adopt_returns`).  None of them
  changes a word behind the bitmap (`SameSlots`).
-/
import SlabHeap.Proofs.Action
import SlabHeap.Proofs.Block.Bitmap
import SlabHeap.Proofs.Block.Slot

namespace SlabHeap.Block

variable {b b' b'' : Block} {s s' : Shape} {base w : Word} {i j : Nat}

/-! ## Bitmap and words -/

theorem length_bitmap (b : Block) : b.bitmap.length = b.layout.bitmapWords := by
  simp [bitmap, Bitmap.length]

/-- Words of the body are replaced in the body. -/
theorem setWords_eq (b : Block) (i : Nat) (ws : List Word) :
    ∃ body, b.setWords i ws = { b with body } := by
  induction ws generalizing b i with
  | nil => exact ⟨b.body, rfl⟩
  | cons w ws ih =>
    obtain ⟨body, h⟩ := ih (b.setWord i w) (i + 1)
    refine ⟨body, ?_⟩
    rw [setWords, h]
    unfold setWord
    split <;> rfl

theorem setBitmap_eq (b : Block) (m : Bitmap) : ∃ body, b.setBitmap m = { b with body } :=
  setWords_eq ..

theorem word_setBitmap (b : Block) {m : Bitmap} (h : m.length = b.layout.bitmapWords)
    (hj : headerWords + b.layout.bitmapWords ≤ j) : (b.setBitmap m).word j = b.word j := by
  have hc := UInt8.toNat_lt b.layout.color
  have hlen : m.words.length = b.layout.bitmapWords := h
  have hs : headerWords + m.words.length ≤ blockWords := by
    rw [hlen]
    simp only [Layout.bitmapWords, blockWords, blockBytes, Word.bytes, headerWords, headerBytes]
    omega
  rw [setBitmap, word_setWords _ _ _ _ le_rfl hs, if_pos (by omega),
    List.getElem?_eq_none_iff.2 (by omega)]
  rfl

/-- `b'` has the place, the layout and the slots of `b`, with the words in them. -/
structure SameSlots (b b' : Block) : Prop where
  link : b'.link = b.link
  layout : b'.layout = b.layout
  free : b'.free = b.free
  words : ∀ j, headerWords + b.layout.bitmapWords ≤ j → b'.word j = b.word j

theorem SameSlots.refl (b : Block) : SameSlots b b := ⟨rfl, rfl, rfl, fun _ _ => rfl⟩

theorem SameSlots.trans (h : SameSlots b b') (h' : SameSlots b' b'') : SameSlots b b'' where
  link := h'.link.trans h.link
  layout := h'.layout.trans h.layout
  free := h'.free.trans h.free
  words j hj := (h'.words j (h.layout ▸ hj)).trans (h.words j hj)

theorem sameSlots_setBitmap (b : Block) {m : Bitmap} (h : m.length = b.layout.bitmapWords) :
    SameSlots b (b.setBitmap m) := by
  have hw := fun j => word_setBitmap (j := j) b h
  obtain ⟨body, he⟩ := setBitmap_eq b m
  rw [he] at hw ⊢
  exact ⟨rfl, rfl, rfl, hw⟩

/-- `b'` has the place and the hint of `b`, which holds objects of the shape `s`, and the
    words behind its last slot. -/
structure SameMargins (s : Shape) (b b' : Block) : Prop where
  link : b'.link = b.link
  hint : b'.hint = b.hint
  words : ∀ k, s.layout.slotWord s.slots ≤ k → b'.word k = b.word k

theorem SameMargins.refl (s : Shape) (b : Block) : SameMargins s b b := ⟨rfl, rfl, fun _ _ => rfl⟩

theorem SameMargins.trans (h : SameMargins s b b') (h' : SameMargins s b' b'') :
    SameMargins s b b'' where
  link := h'.link.trans h.link
  hint := h'.hint.trans h.hint
  words k hk := (h'.words k hk).trans (h.words k hk)

/-- The words behind the last slot are behind the bitmap. -/
theorem SameSlots.margins (h : SameSlots b b') (hl : b.layout = s.layout)
    (hhint : b'.hint = b.hint) : SameMargins s b b' where
  link := h.link
  hint := hhint
  words k hk := by
    refine h.words k ?_
    rw [hl, s.bitmapWords_layout, ← Shape.color_eq]
    exact Shape.color_le_slotWord.trans hk

/-! ## Service -/

/-- A block as the caches of a shape keep it. -/
structure Serves (b : Block) (s : Shape) : Prop where
  layout : b.layout = s.layout
  free : b.free = false
  room : b.room = b.bitmap.vacant s.slots
  sentinels : ∀ i, s.slots ≤ i → i / Word.bits < b.bitmap.length → b.bitmap.bit i = true
  hint : b.hint < b.layout.bitmapWords

/-- A block without an owner, clear for the shape that it served last. -/
def Idle (b : Block) : Prop :=
  b.free = true ∧
    ∃ s : Shape, b.layout = s.layout ∧ b.room = s.slots ∧ b.bitmap = Bitmap.cleared s.slots

/-- The bitmap of a block in service fills the words between its header and its slots, so that
    `Layout.bitmapWords` is a proper difference. -/
theorem Serves.header_add_bitmapWords (h : b.Serves s) :
    headerWords + b.layout.bitmapWords = b.layout.color.toNat := by
  rw [h.layout, Layout.bitmapWords, Shape.toNat_layout_color]
  exact Nat.add_sub_of_le s.headerWords_le_color

theorem Serves.length_bitmap (h : b.Serves s) : b.bitmap.length = Bitmap.wordsFor s.slots := by
  rw [Block.length_bitmap, h.layout, s.bitmapWords_layout]

theorem Serves.room_le (h : b.Serves s) : b.room ≤ s.slots := by
  rw [h.room]; exact Bitmap.vacant_le _ _

/-- A clear bit of a block in service is that of a slot. -/
theorem Serves.lt_slots (h : b.Serves s) (hi : i / Word.bits < b.bitmap.length)
    (hb : b.bitmap.bit i = false) : i < s.slots := by
  by_contra hn
  have := h.sentinels i (by omega) hi
  rw [hb] at this
  simp at this

theorem Serves.div_lt (h : b.Serves s) (hi : i < s.slots) : i / Word.bits < b.bitmap.length := by
  rw [h.length_bitmap]; exact Bitmap.div_lt_wordsFor hi

/-- The place of a block on a list does not matter for its service. -/
theorem Serves.relink (h : b.Serves s) (link : Option Word) : Serves { b with link } s :=
  ⟨h.layout, h.free, h.room, h.sentinels, h.hint⟩

theorem Idle.relink (h : b.Idle) (link : Option Word) : Idle { b with link } := h

/-- A block in service that counts all slots as free is clear. -/
theorem Serves.bitmap_eq_cleared (h : b.Serves s) (hr : b.room = s.slots) :
    b.bitmap = Bitmap.cleared s.slots := by
  have hl := h.length_bitmap
  refine Bitmap.ext_bits (by rw [hl, Bitmap.length_cleared s.slots_pos]) fun i hi => ?_
  rw [Bitmap.bit_cleared s.slots_pos (hl ▸ hi)]
  by_cases hlt : i < s.slots
  · rw [Bitmap.vacant_eq_self.1 (h.room.symm.trans hr) i hlt]
    simpa using hlt
  · rw [h.sentinels i (by omega) hi]
    simpa using hlt

/-- No slot is in use if the block counts all of them as free. -/
theorem Serves.room_eq_slots (h : b.Serves s) :
    b.room = s.slots ↔ ∀ i < s.slots, b.bitmap.bit i = false := by
  rw [h.room, Bitmap.vacant_eq_self]

/-- The count of free slots and the bitmap pass the check of a cache. -/
theorem Serves.isConsistent (h : b.Serves s) : b.isConsistent s.slots = .ok true := by
  have hl := h.length_bitmap
  have hn : s.slots ≤ b.bitmap.length * Word.bits := by
    rw [hl]; simp only [Bitmap.wordsFor, Word.bits]; omega
  have hs := (Bitmap.sentinelsIntact_eq_ok s.slots_pos hl).2 h.sentinels
  rw [Block.isConsistent, Bitmap.countClear_eq_ok hn]
  simp [bind, Except.bind, ← h.room, hs]

/-- Where a slot is taken from a block in service, the block stays in service. -/
theorem Serves.set (h : b.Serves s) {old : Bool} (hi : i < s.slots)
    (hset : b.bitmap.set i = .ok (old, b'.bitmap)) (hslots : SameSlots b b')
    (hhint : b'.hint < b.layout.bitmapWords) (hroom : b'.room = b.room - (if old then 0 else 1)) :
    b'.Serves s where
  layout := hslots.layout.trans h.layout
  free := hslots.free.trans h.free
  room := by
    have hv := Bitmap.vacant_set hset hi
    rw [hroom, h.room]
    cases old <;> simp at hv ⊢ <;> omega
  sentinels j hj hlt := by
    rw [Bitmap.bit_set hset, h.sentinels j hj (Bitmap.length_set hset ▸ hlt)]
    rfl
  hint := by rw [hslots.layout]; exact hhint

/-! ## Operations of the owner -/

theorem clearAll_bitmap (hl : b.layout = s.layout) :
    b.bitmap.clearAll s.slots = .ok (Bitmap.cleared s.slots) := by
  have hle := s.slots_le
  refine Bitmap.clearAll_eq_ok s.slots_pos ?_
    (by rw [Block.length_bitmap, hl, s.bitmapWords_layout])
  simp only [Word.bits, Word.count]; omega

/-- A block of a layout is cleared for its shape. -/
theorem clearUsed_returns (hl : b.layout = s.layout) :
    Returns (clearUsed s.slots) b fun _ b' => SameSlots b b' ∧ b'.hint = b.hint ∧
      b'.room = s.slots ∧ b'.bitmap = Bitmap.cleared s.slots := by
  have hlen : (Bitmap.cleared s.slots).length = b.layout.bitmapWords := by
    rw [Bitmap.length_cleared s.slots_pos, hl, s.bitmapWords_layout]
  have hclear : ({ b with room := s.slots } : Block).bitmap.clearAll s.slots =
    .ok (Bitmap.cleared s.slots) := clearAll_bitmap hl
  simp only [Returns, clearUsed, meets_bind, meets_modify, meets_get, meets_lift, meets_set, hclear,
    Except.ok.injEq, forall_eq', reduceCtorEq, false_imp_iff, implies_true, and_true]
  have hslots := sameSlots_setBitmap { b with room := s.slots } hlen
  have hbits := bitmap_setBitmap { b with room := s.slots } _ hlen
  obtain ⟨body, he⟩ := setBitmap_eq { b with room := s.slots } (Bitmap.cleared s.slots)
  rw [he] at hslots hbits ⊢
  exact ⟨⟨hslots.link, hslots.layout, hslots.free, hslots.words⟩, rfl, rfl, hbits⟩

theorem setUsed_returns (hi : i / Word.bits < b.bitmap.length) :
    Returns (setUsed i) b fun old b' => SameSlots b b' ∧ b'.hint = b.hint ∧ b'.room = b.room ∧
      old = b.bitmap.bit i ∧ b.bitmap.set i = .ok (old, b'.bitmap) := by
  obtain ⟨m, hm⟩ := Bitmap.exists_set hi
  have hlen : m.length = b.layout.bitmapWords := by
    rw [Bitmap.length_set hm, Block.length_bitmap]
  simp only [Returns, setUsed, meets_bind, meets_get, meets_lift, meets_set, meets_pure, hm,
    Except.ok.injEq, forall_eq', reduceCtorEq, false_imp_iff, implies_true, and_true, true_and]
  have hslots := sameSlots_setBitmap b hlen
  have hbits := bitmap_setBitmap b m hlen
  obtain ⟨body, he⟩ := setBitmap_eq b m
  rw [he] at hslots hbits ⊢
  exact ⟨hslots, rfl, rfl, by rw [hbits]⟩

/-- A cleared block of a layout serves its shape. -/
theorem serves_of_cleared (hl : b.layout = s.layout) (hf : b.free = false) (hr : b.room = s.slots)
    (hb : b.bitmap = Bitmap.cleared s.slots) (hh : b.hint < b.layout.bitmapWords) : b.Serves s where
  layout := hl
  free := hf
  room := by rw [hb, hr, Bitmap.vacant_cleared s.slots_pos]
  sentinels i hi hlt := by
    rw [hb] at hlt ⊢
    rw [Bitmap.length_cleared s.slots_pos] at hlt
    simpa [Bitmap.bit_cleared s.slots_pos hlt] using hi
  hint := hh

theorem takeSlot_full (h : b.room = 0) : takeSlot b = .error .fullBlockAvailable b := by
  have : Meets takeSlot b (fun _ _ => False) fun f t => f = .fullBlockAvailable ∧ t = b := by
    simp only [takeSlot, meets_bind, meets_get, meets_ite, meets_throw, h]
    simp
  unfold Meets at this
  cases ht : takeSlot b with
  | ok a t => rw [ht] at this; exact this.elim
  | error f t => rw [ht] at this; rw [this.1, this.2]

/-- A block with room gives a free slot, the one that the search finds. -/
theorem takeSlot_returns (h : b.Serves s) (hr : b.room ≠ 0) :
    Returns takeSlot b fun i b' => (i < s.slots ∧ b.bitmap.bit i = false ∧ SameSlots b b' ∧
      b'.Serves s ∧ b'.room = b.room - 1 ∧
      ∀ j, b'.bitmap.bit j = (b.bitmap.bit j || decide (i = j))) ∧
      b.bitmap.find b.hint = .ok i ∧ b'.hint = Bitmap.hintOf i := by
  obtain ⟨k, hk, hkb⟩ := Bitmap.exists_of_vacant_pos (b := b.bitmap) (n := s.slots)
    (by rw [← h.room]; omega)
  obtain ⟨i, hfind, hlt, hbit⟩ := Bitmap.exists_find
    (by rw [Block.length_bitmap]; exact h.hint) (h.div_lt hk) hkb
  have hfind' : ({ b with room := b.room - 1 } : Block).bitmap.find b.hint = .ok i := hfind
  have hi := h.lt_slots hlt hbit
  simp only [Returns, takeSlot, meets_bind, meets_get, meets_ite, meets_modify, meets_lift, hr,
    hfind', Except.ok.injEq, forall_eq', reduceCtorEq, false_imp_iff, implies_true, and_true,
    not_false_eq_true, true_imp_iff, true_and, meets_pure]
  refine (setUsed_returns (b := { b with room := b.room - 1 }) hlt).meets ?_
  rintro old b' ⟨hslots, -, hroom, hold, hset⟩
  have hset' : b.bitmap.set i = .ok (old, b'.bitmap) := hset
  have hold' : old = false := hold.trans hbit
  have hslots' : SameSlots b b' := ⟨hslots.link, hslots.layout, hslots.free, hslots.words⟩
  refine ⟨⟨hi, hbit, ⟨hslots'.link, hslots'.layout, hslots'.free, hslots'.words⟩,
    h.set hi hset' ⟨hslots'.link, hslots'.layout, hslots'.free, hslots'.words⟩ ?_ ?_, hroom,
    Bitmap.bit_set hset'⟩, hfind⟩
  · rw [← Block.length_bitmap]; exact hlt
  · rw [hold']; exact hroom

/-- An object of a block in service is marked. -/
theorem mark_returns (h : b.Serves s) (hb : StartsAt base) (hi : i < s.slots) :
    Returns (mark base (b.slotAddress base i)) b fun scan b' => SameSlots b b' ∧ b'.hint = b.hint ∧
      b'.Serves s ∧ (∀ j, b'.bitmap.bit j = (b.bitmap.bit j || decide (i = j))) ∧
      (scan = true ↔ b.bitmap.bit i = false ∧ s.pointers ≠ 0) := by
  have hidx := slotIndex_slotAddress hb h.layout hi
  simp only [Returns, mark, meets_bind, meets_get, meets_ite, meets_lift, hidx, h.free,
    Except.ok.injEq, forall_eq', reduceCtorEq, false_imp_iff, implies_true, and_true, true_and,
    Bool.false_eq_true, not_false_eq_true, true_imp_iff]
  refine (setUsed_returns (h.div_lt hi)).meets ?_
  rintro old b' ⟨hslots, hhint, hroom, hold, hset⟩
  have hvac := Bitmap.vacant_set hset hi
  simp only [meets_pure, meets_throw, meets_modify]
  refine ⟨fun ho => ?_, fun ho => ⟨fun h0 => ?_, fun h0 => ?_⟩⟩
  · refine ⟨hslots, hhint, h.set hi hset hslots (by rw [hhint]; exact h.hint)
      (by simpa [ho] using hroom), Bitmap.bit_set hset, ?_⟩
    rw [← hold, ho]; simp
  · rw [hroom, h.room] at h0
    simp only [ho, Bool.false_eq_true, if_false] at hvac
    omega
  · have hslots' : SameSlots b { b' with room := b'.room - 1 } :=
      ⟨hslots.link, hslots.layout, hslots.free, hslots.words⟩
    refine ⟨hslots', hhint, h.set hi hset hslots' (by rw [hhint]; exact h.hint)
      (by simp [ho, hroom]), Bitmap.bit_set hset, ?_⟩
    rw [← hold, bne_iff_ne, ne_eq, ← UInt8.toNat_inj, h.layout, Shape.toNat_layout_pointers]
    simp [ho]

/-- A block under a new layout of the same extent keeps its bitmap. -/
theorem bitmap_stamp (h : b.layout.bitmapWords = s.layout.bitmapWords) :
    (b.stamp s.layout).bitmap = b.bitmap := by
  simp only [bitmap, stamp, ← h]
  rfl

/-- An idle block that counts as many free slots as a shape has is clear for it. -/
theorem Idle.bitmap_stamp (h : b.Idle) (hr : b.room = s.slots) :
    (b.stamp s.layout).bitmap = Bitmap.cleared s.slots := by
  obtain ⟨-, s', hl, hr', hb⟩ := h
  have hs : s'.slots = s.slots := hr'.symm.trans hr
  rw [Block.bitmap_stamp (by rw [hl, s'.bitmapWords_layout, s.bitmapWords_layout, hs]), hb, hs]

/-- What taking a block into the service of a shape makes of it: the slot `0` is in
    use, and the words of the slots are those that the block held there. -/
structure Adopted (s : Shape) (b b' : Block) : Prop where
  serves : b'.Serves s
  room : b'.room = s.slots - 1
  hint : b'.hint = 0
  bits : ∀ i < s.slots, b'.bitmap.bit i = decide (i = 0)
  words : ∀ j, colorFor s.size ≤ j → b'.word j = b.word j

theorem Adopted.relink (h : Adopted s b b') (link : Option Word) : Adopted s b { b' with link } :=
  ⟨h.serves.relink link, h.room, h.hint, h.bits, h.words⟩

/-- A cleared block is taken into service. -/
theorem takeFirst_returns (hslots : SameSlots (b.stamp s.layout) b') (hhint : b'.hint = 0)
    (hroom : b'.room = s.slots) (hbits : b'.bitmap = Bitmap.cleared s.slots) :
    Returns (setUsed 0) b' fun _ b'' => Adopted s b { b'' with room := s.slots - 1 } := by
  have hpos := s.slots_pos
  have hl : b'.layout = s.layout := hslots.layout
  have hserves : b'.Serves s := serves_of_cleared hl hslots.free hroom hbits (by
    rw [hhint, hl, s.bitmapWords_layout]; exact Bitmap.wordsFor_pos hpos)
  refine (setUsed_returns (hserves.div_lt hpos)).mono ?_
  rintro old b₂ ⟨hslots₂, hhint₂, -, hold, hset⟩
  have hslots₂' : SameSlots b' { b₂ with room := s.slots - 1 } :=
    ⟨hslots₂.link, hslots₂.layout, hslots₂.free, hslots₂.words⟩
  have hold' : old = false := by
    rw [hold, hbits, Bitmap.bit_cleared hpos (Bitmap.div_lt_wordsFor hpos)]
    simpa using hpos.ne'
  have hcolor : headerWords + s.layout.bitmapWords = colorFor s.size := by
    rw [s.bitmapWords_layout, Shape.color_eq]
  refine ⟨hserves.set hpos hset hslots₂' (by simpa [hhint₂] using hserves.hint)
    (by simp [hold', hroom]), rfl, hhint₂.trans hhint, fun i hi => ?_, fun j hj => ?_⟩
  · have hbit := Bitmap.bit_set hset i
    rw [hbits, Bitmap.bit_cleared hpos (Bitmap.div_lt_wordsFor hi)] at hbit
    have hi' : ¬ s.slots ≤ i := by omega
    rw [show ({ b₂ with room := s.slots - 1 } : Block).bitmap = b₂.bitmap from rfl, hbit]
    simp [hi', eq_comm]
  · exact (hslots.trans hslots₂').words j (by
      rw [show (b.stamp s.layout).layout = s.layout from rfl, hcolor]; exact hj)

/-- An idle block, or one that counts no free slot, is taken into service. -/
theorem adopt_returns (h : b.Idle ∨ b.room = 0) :
    Returns (adopt s) b fun _ b' => Adopted s b b' := by
  have hpos := s.slots_pos
  simp only [Returns, adopt, meets_bind, meets_modify, meets_get, meets_ite]
  refine ⟨fun hr => ?_, fun hr => ?_⟩
  · refine (clearUsed_returns (s := s) (b := b.stamp s.layout) rfl).meets ?_
    rintro - b₁ ⟨hslots, hhint, hroom, hbits⟩
    exact takeFirst_returns hslots hhint hroom hbits
  · have hr' : b.room = s.slots := Decidable.not_not.1 hr
    have hidle : b.Idle := h.resolve_right (by omega)
    exact takeFirst_returns (SameSlots.refl _) rfl hr' (hidle.bitmap_stamp hr')

/-! ## Writes into slots -/

/-- `b'` has the header and the bitmap of `b`. -/
structure SameHeader (b b' : Block) : Prop where
  link : b'.link = b.link
  layout : b'.layout = b.layout
  free : b'.free = b.free
  room : b'.room = b.room
  hint : b'.hint = b.hint
  bitmap : b'.bitmap = b.bitmap

theorem SameHeader.refl (b : Block) : SameHeader b b := ⟨rfl, rfl, rfl, rfl, rfl, rfl⟩

/-- A write behind the bitmap changes one word of the slots. -/
theorem sameHeader_setWord (hi : headerWords + b.layout.bitmapWords ≤ i) :
    SameHeader b (b.setWord i w) := by
  have hl : (b.setWord i w).layout = b.layout := layout_setWords b i [w]
  have hb : (b.setWord i w).bitmap = b.bitmap := by
    simp only [bitmap, hl, Bitmap.mk.injEq]
    refine List.map_congr_left fun k hk => ?_
    have : i ≠ headerWords + k := by have := List.mem_range.1 hk; omega
    rw [word_setWord]
    simp [this]
  obtain ⟨body, he⟩ := setWords_eq b i [w]
  have he' : b.setWord i w = { b with body } := he
  rw [he'] at hb ⊢
  exact ⟨rfl, rfl, rfl, rfl, rfl, hb⟩

/-- A block in service stays in service when a slot is written. -/
theorem Serves.setWord (h : b.Serves s) (hi : colorFor s.size ≤ i) : (b.setWord i w).Serves s := by
  have hi' : headerWords + b.layout.bitmapWords ≤ i := by
    rw [h.layout, s.bitmapWords_layout, ← Shape.color_eq]; exact hi
  obtain ⟨-, hl, hf, hr, hh, hb⟩ := sameHeader_setWord (w := w) hi'
  exact ⟨hl.trans h.layout, hf.trans h.free, by rw [hr, hb]; exact h.room,
    by rw [hb]; exact h.sentinels, by rw [hh, hl]; exact h.hint⟩

end SlabHeap.Block
