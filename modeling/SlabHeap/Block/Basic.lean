/-
  Blocks: a header, a bitmap of used slots, and slots of one layout.

  Addresses into a block are words, so most operations take the address `base`
  at which the block starts beside the block.

  * `word` and `setWord` read and write the words of the body, which the bitmap
    and the slots share (`word_setWord`, `bitmap_setBitmap`);
  * `objectSlot?` accepts any word and tells the slot that starts there, while
    `slotIndex` is for words that are known to be objects, and fails on others;
  * `adopt`, `clearUsed`, `takeSlot` and `mark` are the operations of a cache on
    its blocks, each with the checks it makes.
-/
import SlabHeap.Action
import SlabHeap.Block.Layout

namespace SlabHeap

/-- A block of memory.  `link` is the next block of the list the block is on,
    `free` tells that no cache owns the block, `room` counts the free slots, and
    `hint` is the bitmap word at which the next search for one starts. -/
structure Block where
  link : Option Word
  layout : Layout
  free : Bool
  room : Nat
  hint : Nat
  body : Vector Word bodyWords
deriving DecidableEq

namespace Block

/-- Memory that was never used. -/
def blank : Block where
  link := none
  layout := .blank
  free := false
  room := 0
  hint := 0
  body := Vector.replicate bodyWords 0

/-! ## Addresses -/

/-- The start of the block that holds an address. -/
def baseOf (address : Word) : Word :=
  Word.alignDown address (UInt64.ofNat blockBytes)

/-- The distance in bytes of an address from the start of its block. -/
def offsetOf (address : Word) : Nat :=
  (address - baseOf address).toNat

/-- The word of its block that holds an address. -/
def wordOf (address : Word) : Nat :=
  offsetOf address / Word.bytes

/-! ## The body -/

/-- The word `i` of a block; the words of the header read as zero. -/
def word (b : Block) (i : Nat) : Word :=
  if headerWords ≤ i then (b.body[i - headerWords]?).getD 0 else 0

/-- The block with the word `i` replaced, if it lies in the body. -/
def setWord (b : Block) (i : Nat) (w : Word) : Block :=
  if headerWords ≤ i then { b with body := b.body.setIfInBounds (i - headerWords) w } else b

/-- The block with the words from `i` on replaced by those of a list. -/
def setWords : Block → Nat → List Word → Block
  | b, _, [] => b
  | b, i, w :: ws => setWords (b.setWord i w) (i + 1) ws

theorem word_setWord (b : Block) (i j : Nat) (w : Word) :
    (b.setWord i w).word j =
      if i = j ∧ headerWords ≤ i ∧ i < blockWords then w else b.word j := by
  unfold setWord
  by_cases hi : headerWords ≤ i
  · rw [if_pos hi]
    unfold word
    by_cases hj : headerWords ≤ j
    · have hsize : i - headerWords < bodyWords ↔ i < blockWords := by
        unfold bodyWords; have : headerWords ≤ blockWords := by decide
        omega
      simp only [if_pos hj, Vector.getElem?_setIfInBounds, hi, true_and]
      by_cases hij : i = j
      · subst hij
        by_cases hb : i < blockWords
        · simp [hb, hsize.2 hb]
        · have := mt hsize.1 hb
          simp [hb, this]
      · have : i - headerWords ≠ j - headerWords := by omega
        simp [hij, this]
    · have : i ≠ j := by omega
      simp [hj, this]
  · simp [hi]

theorem layout_setWords (b : Block) (i : Nat) (ws : List Word) :
    (b.setWords i ws).layout = b.layout := by
  induction ws generalizing b i with
  | nil => rfl
  | cons w ws ih => rw [setWords, ih]; unfold setWord; split <;> rfl

theorem word_setWords (b : Block) (i j : Nat) (ws : List Word) (hi : headerWords ≤ i)
    (hs : i + ws.length ≤ blockWords) :
    (b.setWords i ws).word j = if i ≤ j then (ws[j - i]?).getD (b.word j) else b.word j := by
  induction ws generalizing b i with
  | nil => simp [setWords]
  | cons w ws ih =>
    rw [List.length_cons] at hs
    rw [setWords, ih _ _ (by omega) (by omega), word_setWord]
    by_cases hij : i = j
    · subst hij
      have : i < blockWords := by omega
      have : ¬ i + 1 ≤ i := by omega
      simp [*]
    · by_cases hle : i ≤ j
      · obtain ⟨k, rfl⟩ : ∃ k, j = i + 1 + k := ⟨j - (i + 1), by omega⟩
        have : i ≤ i + 1 + k := by omega
        have : i + 1 + k - i = k + 1 := by omega
        simp [*]
      · have : ¬ i + 1 ≤ j := by omega
        simp [hij, hle, this]

/-- The bitmap of used slots. -/
def bitmap (b : Block) : Bitmap where
  words := (List.range b.layout.bitmapWords).map fun i => b.word (headerWords + i)

/-- The block with another bitmap. -/
def setBitmap (b : Block) (m : Bitmap) : Block :=
  b.setWords headerWords m.words

theorem bitmap_setBitmap (b : Block) (m : Bitmap) (h : m.length = b.layout.bitmapWords) :
    (b.setBitmap m).bitmap = m := by
  have hc := UInt8.toNat_lt b.layout.color
  have hs : headerWords + m.words.length ≤ blockWords := by
    rw [show m.words.length = b.layout.bitmapWords from h]
    simp only [Layout.bitmapWords, blockWords, blockBytes, Word.bytes, headerWords, headerBytes]
    omega
  have hw : (b.setBitmap m).bitmap.words = m.words := by
    apply List.ext_getElem?
    intro k
    have hl : b.layout.bitmapWords = m.words.length := h.symm
    simp only [bitmap, setBitmap, layout_setWords, hl, List.getElem?_map]
    by_cases hk : k < m.words.length
    · rw [List.getElem?_range hk, Option.map_some, word_setWords _ _ _ _ (by omega) hs]
      simp [hk]
    · rw [List.getElem?_eq_none_iff.2 (by simpa using hk), List.getElem?_eq_none_iff.2 (by omega)]
      rfl
  exact congrArg Bitmap.mk hw

/-! ## Slots -/

/-- The address of a slot. -/
def slotAddress (b : Block) (base : Word) (slot : Nat) : Word :=
  Word.plus base (b.layout.slotWord slot * Word.bytes)

/-- The slot that starts at an address, if the address is the start of a slot
    and a cache owns the block. -/
def objectSlot? (b : Block) (base address : Word) : Option Nat :=
  let size := b.layout.size.toNat
  let color := b.layout.color.toNat
  if b.free ∨ address < base ∨ blockBytes ≤ (address - base).toNat then none
  else
    let words := (address - base).toNat / Word.bytes
    if size = 0 ∨ address.toNat % Word.bytes ≠ 0 ∨ words < color ∨ (words - color) % size ≠ 0 then
      none
    else if (words - color) / size < slotsIn size then some ((words - color) / size)
    else none

/-- The slot that starts at the address of an object. -/
def slotIndex (b : Block) (base object : Word) : Except Fault Nat :=
  let size := b.layout.size.toNat
  let color := b.layout.color.toNat
  let words := (object - base).toNat / Word.bytes
  if object < base then .error (.overflow .subtract)
  else if words < color then .error (.headerPointer object base)
  else if (words - color) % size ≠ 0 then .error (.interiorPointer object ((words - color) % size))
  else .ok ((words - color) / size)

/-- Tests that the slot of an object is in use. -/
def isUsed (b : Block) (base object : Word) : Except Fault Bool := do
  b.bitmap.test (← b.slotIndex base object)

/-- Tests that the block counts its free slots right and has its sentinels. -/
def isConsistent (b : Block) (slots : Nat) : Except Fault Bool := do
  let clear ← b.bitmap.countClear slots
  if clear = b.room then b.bitmap.sentinelsIntact slots else return false

/-! ## Operations of the owner -/

/-- The block under a new layout, its body and its count of free slots as they
    were. -/
def stamp (b : Block) (layout : Layout) : Block :=
  { b with layout, free := false, hint := 0, link := none }

/-- Frees all `slots` slots. -/
def clearUsed (slots : Nat) : Action Block Unit := do
  modify fun b => { b with room := slots }
  let b ← get
  let cleared ← b.bitmap.clearAll slots
  set (b.setBitmap cleared)

/-- Takes the bit of a slot and returns whether the slot was in use before. -/
def setUsed (slot : Nat) : Action Block Bool := do
  let b ← get
  let (used, bitmap) ← b.bitmap.set slot
  set (b.setBitmap bitmap)
  return used

/-- Puts the block under a cache of a shape and takes its slot `0`.  A block that
    counts as many free slots as the cache asks for is taken as it is: a block
    that was freed is clear, and one that was never used counts none. -/
def adopt (shape : Shape) : Action Block Unit := do
  modify (·.stamp shape.layout)
  if (← get).room ≠ shape.slots then
    clearUsed shape.slots
  let _ ← setUsed 0
  modify fun b => { b with room := shape.slots - 1 }

/-- Takes a free slot of a block that counts one. -/
def takeSlot : Action Block Nat := do
  if (← get).room = 0 then
    throw .fullBlockAvailable
  modify fun b => { b with room := b.room - 1 }
  let b ← get
  let slot ← b.bitmap.find b.hint
  let _ ← setUsed slot
  modify fun b => { b with hint := Bitmap.hintOf slot }
  return slot

/-- Takes the slot of an object.  The answer tells whether the slot was free and
    objects of the block hold pointers, so that its fields are to be scanned. -/
def mark (base object : Word) : Action Block Bool := do
  let b ← get
  if b.free then
    throw (.freeBlock object)
  let slot ← b.slotIndex base object
  if ← setUsed slot then
    return false
  if (← get).room = 0 then
    throw .noFreeSlot
  modify fun b => { b with room := b.room - 1 }
  return b.layout.pointers != 0

end Block

end SlabHeap
