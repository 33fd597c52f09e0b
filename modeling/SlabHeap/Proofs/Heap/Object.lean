/-
  The objects of an arena.

  `Arena.SlotAt` says that a slot of a block with an owner starts at an address, and
  `Arena.Holds` that this slot is in use.  In a sound arena an address starts one slot
  at most (`SlotAt.unique`), the slots are what `objectAt?` recognises
  (`objectAt?_eq_some`), and the words of different slots are different words
  (`SlotAt.place_ne`).  A field of an object is a word of its block (`SlotAt.field_eq`,
  `SlotAt.setField_eq`).

  What changes blocks from inside and leaves them in service, is `Preserved`: the arena
  stays sound and keeps its slots (`Preserved.sound`, `Preserved.slotAt`).
-/
import SlabHeap.Proofs.Heap.Sound

namespace SlabHeap

open Block (StartsAt)

variable {m m' : Memory} {a a' : Arena} {loose : List Word} {due : Nat} {s s' : Shape}
  {b base base' x x' w : Word} {i i' j j' : Nat}

/-- The block that holds the word at an address, and the position of the word in it. -/
def Memory.place (address : Word) : Word × Nat :=
  (Block.baseOf address, Block.wordOf address)

/-- The layout of a shape tells the shape. -/
theorem Shape.layout_inj (h : s.layout = s'.layout) : s = s' := by
  have hs := congrArg (fun l => l.size.toNat) h
  have hp := congrArg (fun l => l.pointers.toNat) h
  simp only [Shape.toNat_layout_size, Shape.toNat_layout_pointers] at hs hp
  obtain ⟨n, p, h₁, h₂, h₃⟩ := s
  obtain ⟨n', p', h₁', h₂', h₃'⟩ := s'
  simp only at hs hp
  subst hs hp
  rfl

namespace Arena

/-- A cache for objects of shape `s` owns the block at `b`. -/
def Owns (a : Arena) (m : Memory) (s : Shape) (b : Word) : Prop :=
  ∃ c ∈ a.caches, c.shape = s ∧ b ∈ c.blocks m

/-- The slot `i` of the block at `base`, which a cache for objects of shape `s` owns,
    starts at `x`. -/
structure SlotAt (a : Arena) (m : Memory) (s : Shape) (base : Word) (i : Nat) (x : Word) :
    Prop where
  owner : a.Owns m s base
  lt : i < s.slots
  address : x = (m.block base).slotAddress base i

instance : Decidable (a.Owns m s b) :=
  inferInstanceAs (Decidable (∃ c ∈ a.caches, c.shape = s ∧ b ∈ c.blocks m))

instance : Decidable (a.SlotAt m s base i x) :=
  decidable_of_iff (a.Owns m s base ∧ i < s.slots ∧ x = (m.block base).slotAddress base i)
    ⟨fun ⟨h₁, h₂, h₃⟩ => ⟨h₁, h₂, h₃⟩, fun h => ⟨h.owner, h.lt, h.address⟩⟩

/-- An object of shape `s` is in use at `x`. -/
def Holds (a : Arena) (m : Memory) (s : Shape) (x : Word) : Prop :=
  ∃ base i, a.SlotAt m s base i x ∧ (m.block base).bitmap.bit i = true

theorem Owns.mem_owned (h : a.Owns m s b) : b ∈ a.owned m := by
  obtain ⟨c, hc, -, hb⟩ := h
  exact Arena.mem_owned.2 ⟨c, hc, hb⟩

theorem mem_owned_iff : b ∈ a.owned m ↔ ∃ s, a.Owns m s b := by
  refine ⟨fun h => ?_, fun ⟨_, h⟩ => h.mem_owned⟩
  obtain ⟨c, hc, hb⟩ := mem_owned.1 h
  exact ⟨c.shape, c, hc, rfl, hb⟩

/-- The same owners keep the same slots, as long as layouts do not change. -/
theorem SlotAt.congr (h : a.SlotAt m s base i x) (ho : a'.Owns m' s base)
    (hl : (m'.block base).layout = (m.block base).layout) : a'.SlotAt m' s base i x :=
  ⟨ho, h.lt, by rw [h.address, Block.slotAddress, Block.slotAddress, hl]⟩

/-- The same owners of the same blocks hold the same objects. -/
theorem holds_congr (ho : ∀ s b, a'.Owns m' s b ↔ a.Owns m s b)
    (hb : ∀ b ∈ a.owned m, m'.block b = m.block b) : a'.Holds m' s x ↔ a.Holds m s x := by
  constructor
  · rintro ⟨base, i, hx, hbit⟩
    have howner := (ho s base).1 hx.owner
    rw [hb base howner.mem_owned] at hbit
    exact ⟨base, i, hx.congr howner (by rw [hb base howner.mem_owned]), hbit⟩
  · rintro ⟨base, i, hx, hbit⟩
    rw [← hb base hx.owner.mem_owned] at hbit
    exact ⟨base, i, hx.congr ((ho s base).2 hx.owner) (by rw [hb base hx.owner.mem_owned]), hbit⟩

variable (h : a.Sound m loose due)
include h

theorem Owns.serves (ho : a.Owns m s b) : (m.block b).Serves s := by
  obtain ⟨c, hc, rfl, hb⟩ := ho
  exact (h.caches c hc).serves b hb

theorem Owns.startsAt (ho : a.Owns m s b) : StartsAt b := h.startsAt ho.mem_owned

theorem Owns.unique (ho : a.Owns m s b) (ho' : a.Owns m s' b) : s = s' :=
  Shape.layout_inj ((ho.serves h).layout.symm.trans (ho'.serves h).layout)

namespace SlotAt

theorem baseOf_eq (hx : a.SlotAt m s base i x) : Block.baseOf x = base := by
  rw [hx.address]
  exact Block.baseOf_slotAddress (hx.owner.startsAt h) (hx.owner.serves h).layout hx.lt

/-- An address starts one slot at most. -/
theorem unique (hx : a.SlotAt m s base i x) (hx' : a.SlotAt m s' base' i' x) :
    s = s' ∧ base = base' ∧ i = i' := by
  obtain rfl : base = base' := (hx.baseOf_eq h).symm.trans (hx'.baseOf_eq h)
  obtain rfl := hx.owner.unique h hx'.owner
  exact ⟨rfl, rfl, Block.slotAddress_inj (hx.owner.startsAt h) (hx.owner.serves h).layout hx.lt
    hx'.lt (hx.address.symm.trans hx'.address)⟩

theorem ne_zero (hx : a.SlotAt m s base i x) : x ≠ 0 := by
  have := Block.isObjectAddress_slotAddress (hx.owner.startsAt h) (hx.owner.serves h).layout hx.lt
  rw [← hx.address] at this
  intro h0
  rw [h0] at this
  exact absurd this (by decide)

/-- The words of a slot lie in its block, behind the bitmap. -/
theorem inside (hx : a.SlotAt m s base i x) (hj : j < s.size) :
    Block.baseOf (Memory.fieldAddress x j) = base ∧
      Block.wordOf (Memory.fieldAddress x j) = s.layout.slotWord i + j := by
  have hb := hx.owner.startsAt h
  have hl := (hx.owner.serves h).layout
  rw [hx.address]
  exact ⟨Block.baseOf_field hb hl hx.lt hj, Block.wordOf_field hb hl hx.lt hj⟩

/-- Different slots share no word. -/
theorem place_ne (hx : a.SlotAt m s base i x) (hx' : a.SlotAt m s' base' i' x') (hne : x ≠ x')
    (hj : j < s.size) (hj' : j' < s'.size) :
    Memory.place (Memory.fieldAddress x j) ≠ Memory.place (Memory.fieldAddress x' j') := by
  intro he
  obtain ⟨heb, hew⟩ := Prod.mk.inj he
  obtain ⟨hb, hw⟩ := hx.inside h hj
  obtain ⟨hb', hw'⟩ := hx'.inside h hj'
  obtain rfl : base = base' := hb.symm.trans (heb.trans hb')
  obtain rfl := hx.owner.unique h hx'.owner
  obtain ⟨rfl, -⟩ := Shape.slotWord_inj hj hj' (hw.symm.trans (hew.trans hw'))
  exact hne (hx.address.trans hx'.address.symm)

/-- A field of an object is a word of its block. -/
theorem field_eq (hx : a.SlotAt m s base i x) (hj : j < s.size) :
    m'.field x j = (m'.block base).word (s.layout.slotWord i + j) := by
  obtain ⟨hb, hw⟩ := hx.inside h hj
  rw [Memory.field, Memory.load, hb, hw]

theorem setField_eq (hx : a.SlotAt m s base i x) (hj : j < s.size) :
    m'.setField x j w =
      m'.setBlock base ((m'.block base).setWord (s.layout.slotWord i + j) w) := by
  obtain ⟨hb, hw⟩ := hx.inside h hj
  rw [Memory.setField, Memory.store, hb, hw, Memory.modifyBlock]

/-- Fields do not change where the words behind the bitmap do not. -/
theorem field_congr {m'' : Memory} (hx : a.SlotAt m s base i x) (hj : j < s.size)
    (hw : ∀ k, colorFor s.size ≤ k → (m''.block base).word k = (m'.block base).word k) :
    m''.field x j = m'.field x j := by
  rw [hx.field_eq h hj, hx.field_eq h hj, hw]
  exact Shape.color_le_slotWord.trans (Nat.le_add_right _ _)

end SlotAt

omit h in
/-- The sliced words are those of the blocks without an owner and of those with one. -/
theorem isSliced_iff (h : a.Sound m [] due) : a.isSliced w = true ↔
    Block.baseOf w ∈ a.free.toList m ∨ ∃ s, a.Owns m s (Block.baseOf w) := by
  rw [isSliced, Directory.isSliced_iff h.directory h.supply, ← h.blocks.mem_iff, List.nil_append,
    List.mem_append, mem_owned_iff]

omit h in
/-- An arena recognises the slots of its caches, and no other word. -/
theorem objectAt?_eq_some (h : a.Sound m [] due) :
    a.objectAt? m x = some (base, i) ↔ ∃ s, a.SlotAt m s base i x := by
  constructor
  · intro he
    rw [objectAt?] at he
    split at he
    next hc =>
      obtain ⟨k, hk, hp⟩ := Option.map_eq_some_iff.1 he
      obtain ⟨rfl, rfl⟩ := Prod.mk.inj hp
      rcases (isSliced_iff h).1 (Bool.and_eq_true_iff.1 hc).1 with hmem | ⟨s, ho⟩
      · have hfree := (h.idle _ hmem).1
        simp [Block.objectSlot?, hfree] at hk
      · have hs := ho.serves h
        obtain ⟨hlt, haddr⟩ := (Block.objectSlot?_eq_some (ho.startsAt h) hs.layout hs.free).1 hk
        exact ⟨s, ho, hlt, haddr⟩
    · simp at he
  · rintro ⟨s, hx⟩
    have hb := hx.owner.startsAt h
    have hs := hx.owner.serves h
    have hbase := hx.baseOf_eq h
    have hsl : a.isSliced x = true := (isSliced_iff h).2 (.inr ⟨s, hbase ▸ hx.owner⟩)
    have hobj : Word.isObjectAddress x = true := by
      rw [hx.address]; exact Block.isObjectAddress_slotAddress hb hs.layout hx.lt
    have hslot := (Block.objectSlot?_eq_some hb hs.layout hs.free).2 ⟨hx.lt, hx.address⟩
    rw [objectAt?, hsl, hobj, hbase]
    simp [hslot]

end Arena

/-! ## Changes inside blocks -/

/-- `m'` differs from `m` inside blocks that the caches of `a` own, and these stay in
    service where they are. -/
structure Arena.Preserved (a : Arena) (m m' : Memory) : Prop where
  changes : m.Changes m' (a.owned m)
  margins : ∀ {s b}, a.Owns m s b → Block.SameMargins s (m.block b) (m'.block b)
  serves : ∀ {s b}, a.Owns m s b → (m'.block b).Serves s

namespace Arena.Preserved

theorem refl (h : a.Sound m loose due) : a.Preserved m m :=
  ⟨.refl .., fun _ => .refl .., fun ho => ho.serves h⟩

theorem setBlock {b' : Block} (hp : a.Preserved m m') (ho : a.Owns m s base)
    (hmargins : Block.SameMargins s (m'.block base) b') (hs : b'.Serves s)
    (h : a.Sound m loose due) : a.Preserved m (m'.setBlock base b') where
  changes := hp.changes.trans ((Memory.changes_setBlock ..).mono (by simpa using ho.mem_owned))
  margins {s' b} ho' := by
    rw [Memory.block_setBlock]
    split
    next he =>
      subst he
      rw [ho'.unique h ho]
      exact (hp.margins ho).trans hmargins
    next => exact hp.margins ho'
  serves {s' b} ho' := by
    rw [Memory.block_setBlock]
    split
    next he => subst he; rw [ho'.unique h ho]; exact hs
    next => exact hp.serves ho'

/-- No block changes its place on a list. -/
theorem link (hp : a.Preserved m m') (b : Word) : (m'.block b).link = (m.block b).link := by
  by_cases hb : b ∈ a.owned m
  · obtain ⟨s, ho⟩ := mem_owned_iff.1 hb
    exact (hp.margins ho).link
  · rw [hp.changes.block b hb]

variable (hp : a.Preserved m m') (h : a.Sound m loose due)
include hp h

theorem sound : a.Sound m' loose due :=
  (h.content hp.changes hp.link fun c hc _ hb => hp.serves ⟨c, hc, rfl, hb⟩).1

theorem sameLists {c : Cache} (hc : c ∈ a.caches) : c.SameLists m m' :=
  (h.content hp.changes hp.link fun c hc _ hb => hp.serves ⟨c, hc, rfl, hb⟩).2 c hc

theorem owned : a.owned m' = a.owned m := owned_congr fun _ hc => hp.sameLists h hc

theorem owns : a.Owns m' s b ↔ a.Owns m s b := by
  refine exists_congr fun c => and_congr_right fun hc => ?_
  rw [(hp.sameLists h hc).blocks]

theorem layout (ho : a.Owns m s b) : (m'.block b).layout = (m.block b).layout :=
  (hp.serves ho).layout.trans (ho.serves h).layout.symm

theorem slotAt : a.SlotAt m' s base i x ↔ a.SlotAt m s base i x :=
  ⟨fun hx =>
    have ho := (hp.owns h).1 hx.owner
    hx.congr ho (hp.layout h ho).symm,
  fun hx => hx.congr ((hp.owns h).2 hx.owner) (hp.layout h hx.owner)⟩

/-- A field of an object is written. -/
theorem setField (hx : a.SlotAt m s base i x) (hj : j < s.size) :
    a.Preserved m (m'.setField x j w) ∧
      (∀ b, Block.SameHeader (m'.block b) ((m'.setField x j w).block b)) ∧
      ∀ {s' base' i' x' j'}, a.SlotAt m s' base' i' x' → j' < s'.size →
        (m'.setField x j w).field x' j' = if x = x' ∧ j = j' then w else m'.field x' j' := by
  have hs := hp.serves hx.owner
  have hk : colorFor s.size ≤ s.layout.slotWord i + j :=
    Shape.color_le_slotWord.trans (Nat.le_add_right _ _)
  have hk' : headerWords + (m'.block base).layout.bitmapWords ≤ s.layout.slotWord i + j := by
    rw [hs.layout, s.bitmapWords_layout, ← Shape.color_eq]; exact hk
  have hheader := Block.sameHeader_setWord (w := w) hk'
  have hmargins : Block.SameMargins s (m'.block base)
      ((m'.block base).setWord (s.layout.slotWord i + j) w) := by
    refine ⟨hheader.link, hheader.hint, fun k hk => ?_⟩
    have hlt := Shape.slotWord_add_lt_end hx.lt hj
    rw [Block.word_setWord, if_neg (by omega)]
  rw [hx.setField_eq h hj]
  refine ⟨hp.setBlock hx.owner hmargins (hs.setWord hk) h, fun b => ?_, ?_⟩
  · rw [Memory.block_setBlock]
    split
    next he => subst he; exact hheader
    next => exact .refl _
  · intro s' base' i' x' j' hx' hj'
    rw [hx'.field_eq h hj', hx'.field_eq h hj', Memory.block_setBlock]
    by_cases he : base = base'
    · subst he
      obtain rfl := hx.owner.unique h hx'.owner
      have hlt := Shape.slotWord_add_lt hx.lt hj
      have hle := s.headerWords_le_color
      rw [if_pos rfl, Block.word_setWord]
      have hiff : (s.layout.slotWord i + j = s.layout.slotWord i' + j' ∧
          headerWords ≤ s.layout.slotWord i + j ∧ s.layout.slotWord i + j < blockWords) ↔
          x = x' ∧ j = j' := by
        constructor
        · rintro ⟨hw, -⟩
          obtain ⟨rfl, rfl⟩ := Shape.slotWord_inj hj hj' hw
          exact ⟨hx.address.trans hx'.address.symm, rfl⟩
        · rintro ⟨rfl, rfl⟩
          obtain ⟨-, -, rfl⟩ := hx.unique h hx'
          exact ⟨rfl, by omega, hlt⟩
      simp only [hiff]
    · have hne : ¬ (x = x' ∧ j = j') := by
        rintro ⟨rfl, -⟩
        exact he (hx.unique h hx').2.1
      rw [if_neg he, if_neg hne]

theorem trans {m'' : Memory} (hp' : a.Preserved m' m'') : a.Preserved m m'' :=
  ⟨hp.changes.trans (by rw [← hp.owned h]; exact hp'.changes),
    fun ho => (hp.margins ho).trans (hp'.margins ((hp.owns h).2 ho)),
    fun ho => hp'.serves ((hp.owns h).2 ho)⟩

end Arena.Preserved

end SlabHeap
