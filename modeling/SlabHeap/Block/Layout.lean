/-
  Block layouts: how the slots of one block are arranged.

  A block is 512 words: a header of two words, a bitmap with one bit per slot,
  and the slots, all of one size.  The colour of a block is the word at which
  the slots start.

  * `slotsIn size` and `colorFor size` divide a block into slots of `size`
    words, with one slot at least for the sizes of objects (`slotsIn_pos`);
    `divide` is the same for a size of any magnitude, with the checks of its
    arithmetic, which the sizes of objects pass (`divide_eq_ok`);
  * `Layout` is the part of a block header that describes this, one byte for
    each number, and `Layout.bytes` is its form in memory;
  * `Shape` is what objects are asked for by: a size and a number of leading
    pointer fields that a block can hold.  `Shape.check` accepts exactly the
    valid pairs (`check_eq_ok`), and the bytes of `Shape.layout` lose nothing
    (`toNat_layout_size` and the lemmas after it).
-/
import SlabHeap.Block.Bitmap

namespace SlabHeap

/-! ## The division of a block -/

/-- The bytes of a block, at whose multiples blocks start. -/
def blockBytes : Nat := 4096

/-- The words of a block. -/
def blockWords : Nat := blockBytes / Word.bytes

/-- The bytes of a block header. -/
def headerBytes : Nat := 16

/-- The words of a block header. -/
def headerWords : Nat := headerBytes / Word.bytes

/-- The bytes of a block behind its header. -/
def capacity : Nat := blockBytes - headerBytes

/-- The words of a block behind its header. -/
def bodyWords : Nat := blockWords - headerWords

/-- The size in words of the largest object. -/
def maxObjectWords : Nat := 254

/-- The number of slots of `size` words in a block: one less than the number of
    slots for which the bits of the body suffice, a slot taking one bit of the
    bitmap besides its words. -/
def slotsIn (size : Nat) : Nat :=
  8 * capacity / (8 * Word.bytes * size + 1) - 1

/-- The word at which the slots of `size` words start. -/
def colorFor (size : Nat) : Nat :=
  headerWords + Bitmap.wordsFor (slotsIn size)

/-- The number of slots of `size` words and the word at which they start, where
    a size that leaves no room for one slot beside the bitmap is a fault. -/
def divide (size : Nat) : Except Fault (Nat × Nat) := do
  let slotBits ← Count.mul (8 * Word.bytes) size
  let slots ← Count.sub (8 * capacity / (slotBits + 1)) 1
  return (slots, headerWords + Bitmap.wordsFor slots)

theorem slotsIn_le {size : Nat} (h : 1 ≤ size) : slotsIn size ≤ 501 := by
  have hd : 8 * capacity / (8 * Word.bytes * size + 1) ≤ 8 * capacity / (8 * Word.bytes + 1) :=
    Nat.div_le_div_left (by simp only [Word.bytes]; omega) (by omega)
  have : 8 * capacity / (8 * Word.bytes + 1) = 502 := by decide
  unfold slotsIn
  omega

theorem colorFor_le {size : Nat} (h : 1 ≤ size) : colorFor size ≤ 10 := by
  have hs := slotsIn_le h
  have : Bitmap.wordsFor (slotsIn size) ≤ 8 := by
    simp only [Bitmap.wordsFor, Word.bits]; omega
  simp only [colorFor, headerWords, headerBytes, Word.bytes]; omega

theorem slotsIn_pos {size : Nat} (h : size ≤ maxObjectWords) : 1 ≤ slotsIn size := by
  have hd : 8 * capacity / (8 * Word.bytes * maxObjectWords + 1) ≤
      8 * capacity / (8 * Word.bytes * size + 1) :=
    Nat.div_le_div_left (by simp only [Word.bytes]; omega) (by omega)
  have : 8 * capacity / (8 * Word.bytes * maxObjectWords + 1) = 2 := by decide
  unfold slotsIn
  omega

/-- The arithmetic of the sizes of objects stays in range. -/
theorem divide_eq_ok {size : Nat} (h : size ≤ maxObjectWords) :
    divide size = .ok (slotsIn size, colorFor size) := by
  have hbits : Count.mul (8 * Word.bytes) size = .ok (8 * Word.bytes * size) := by
    refine Count.mul_eq_ok.2 ⟨?_, rfl⟩
    simp only [maxObjectWords, Word.bytes, Word.count] at h ⊢
    omega
  have hslots : Count.sub (8 * capacity / (8 * Word.bytes * size + 1)) 1 = .ok (slotsIn size) := by
    refine Count.sub_eq_ok.2 ⟨?_, rfl⟩
    have hpos := slotsIn_pos h
    unfold slotsIn at hpos
    omega
  simp only [divide, hbits, hslots, bind, Except.bind]
  rfl

/-! ## Layouts -/

/-- The arrangement of the slots of a block: the word at which they start, the
    words of a slot, and how many of these, from the first on, hold pointers. -/
structure Layout where
  color : UInt8
  size : UInt8
  pointers : UInt8
deriving DecidableEq, Repr

namespace Layout

/-- The layout of memory that was never used. -/
def blank : Layout := ⟨0, 0, 0⟩

/-- The four bytes of a layout in memory; the last one tells a block that no
    cache owns. -/
def bytes (l : Layout) (free : Bool) : List Nat :=
  [l.color.toNat, l.size.toNat, l.pointers.toNat, free.toNat]

/-- The number of bitmap words between the header and the slots, where these start
    behind the header: the layouts of shapes do. -/
def bitmapWords (l : Layout) : Nat :=
  l.color.toNat - headerWords

/-- The word of a block at which the slot `slot` starts. -/
def slotWord (l : Layout) (slot : Nat) : Nat :=
  l.color.toNat + slot * l.size.toNat

end Layout

/-! ## Shapes -/

/-- The size in words of an object and the number of its leading pointer fields. -/
structure Shape where
  size : Nat
  pointers : Nat
  one_le_size : 1 ≤ size
  size_le : size ≤ maxObjectWords
  pointers_le : pointers ≤ size
deriving DecidableEq

namespace Shape

/-- The shape of objects of `size` words with `pointers` pointer fields. -/
def check (size pointers : Nat) : Except Fault Shape :=
  if hs : 1 ≤ size ∧ size ≤ maxObjectWords then
    if hp : pointers ≤ size then .ok ⟨size, pointers, hs.1, hs.2, hp⟩
    else .error (.pointerFields pointers size)
  else .error (.objectSize size maxObjectWords)

theorem check_eq_ok {size pointers : Nat} {s : Shape} :
    check size pointers = .ok s ↔ s.size = size ∧ s.pointers = pointers := by
  obtain ⟨n, p, h₁, h₂, h₃⟩ := s
  unfold check
  constructor
  · intro h
    split at h
    · split at h
      · simp_all
      · simp at h
    · simp at h
  · rintro ⟨rfl, rfl⟩
    simp_all

/-- The number of slots in a block. -/
def slots (s : Shape) : Nat :=
  slotsIn s.size

/-- The layout of the blocks that hold objects of this shape. -/
def layout (s : Shape) : Layout where
  color := UInt8.ofNat (colorFor s.size)
  size := UInt8.ofNat s.size
  pointers := UInt8.ofNat s.pointers

@[simp] theorem toNat_layout_size (s : Shape) : s.layout.size.toNat = s.size := by
  have := s.size_le
  simp only [maxObjectWords] at this
  exact UInt8.toNat_ofNat_of_lt (by simp only [UInt8.size]; omega)

@[simp] theorem toNat_layout_pointers (s : Shape) : s.layout.pointers.toNat = s.pointers := by
  have h₁ := s.size_le
  have h₂ := s.pointers_le
  simp only [maxObjectWords] at h₁
  exact UInt8.toNat_ofNat_of_lt (by simp only [UInt8.size]; omega)

@[simp] theorem toNat_layout_color (s : Shape) : s.layout.color.toNat = colorFor s.size := by
  have := colorFor_le s.one_le_size
  exact UInt8.toNat_ofNat_of_lt (by simp only [UInt8.size]; omega)

/-- The bytes of the header and the bitmap of a block. -/
def headerBytes (s : Shape) : Nat :=
  SlabHeap.headerBytes + Bitmap.wordsFor s.slots * Word.bytes

end Shape

end SlabHeap
