/-
  Bitmaps of used slots.

  A bitmap has one bit per slot of a block, packed into words; a set bit is a
  slot in use.  The bits behind the last slot are kept set, as sentinels, so that
  a search for a clear bit never leaves the block.

  * `wordsFor` and `sentinelMask` are the extent of a bitmap and the sentinels
    of its last word; `cleared n` is the bitmap of `n` free slots;
  * `test` and `set` read and set one bit, `bit` is the view of a bitmap as a row
    of bits without an end: setting a bit changes no other (`bit_set`);
  * `firstClear?` is the search: the lowest clear bit of the first word, in
    cyclic order from a hint, that has one.  It finds a clear bit of the bitmap
    (`bit_of_firstClear?`), and none only if the bitmap is full
    (`firstClear?_eq_none`); `find` checks the hint and reports a full bitmap;
  * `countClear` and `sentinelsIntact` check a bitmap against its slots;
  * `take` finds and sets any number of clear bits, one after the other.
-/
import SlabHeap.Action
import SlabHeap.Word.Count

namespace SlabHeap

/-- A row of words that holds one bit per slot. -/
structure Bitmap where
  words : List Word
deriving DecidableEq, Repr

namespace Bitmap

/-! ## Extent -/

/-- The number of words that hold `slots` bits. -/
def wordsFor (slots : Nat) : Nat :=
  (slots + (Word.bits - 1)) / Word.bits

/-- `wordsFor`, where the sum must fit a word. -/
def checkedWordsFor (slots : Nat) : Except Fault Nat := do
  let sum ← Count.add slots Word.bits
  return (sum - 1) / Word.bits

/-- The number of bytes that hold `slots` bits in whole words. -/
def checkedBytesFor (slots : Nat) : Except Fault Nat := do
  Count.mul (← checkedWordsFor slots) Word.bytes

/-- The sentinels in the last word of a bitmap of `slots` slots. -/
def sentinelMask (slots : Nat) : Word :=
  if slots % Word.bits = 0 then 0 else Word.onesFrom (slots % Word.bits)

/-- The bitmap of `slots` free slots with its sentinels. -/
def cleared (slots : Nat) : Bitmap where
  words := List.replicate (wordsFor slots - 1) 0 ++ [sentinelMask slots]

/-! ## Single bits -/

/-- The number of words. -/
def length (b : Bitmap) : Nat :=
  b.words.length

/-- The bit `i`; the bits behind the last word are clear. -/
def bit (b : Bitmap) (i : Nat) : Bool :=
  match b.words[i / Word.bits]? with
  | some word => Word.bit word (i % Word.bits)
  | none => false

/-- The bit `i`, which must lie in the bitmap. -/
def test (b : Bitmap) (i : Nat) : Except Fault Bool :=
  match b.words[i / Word.bits]? with
  | some word => .ok (Word.bit word (i % Word.bits))
  | none => .error (.indexOutOfBounds b.length (i / Word.bits))

/-- The bit `i`, which must lie in the bitmap, and the bitmap with it set. -/
def set (b : Bitmap) (i : Nat) : Except Fault (Bool × Bitmap) :=
  match b.words[i / Word.bits]? with
  | some word =>
    .ok (Word.bit word (i % Word.bits),
      ⟨b.words.set (i / Word.bits) (Word.withBit word (i % Word.bits))⟩)
  | none => .error (.indexOutOfBounds b.length (i / Word.bits))

theorem bit_of_getElem? {b : Bitmap} {i : Nat} {w : Word} (h : b.words[i / Word.bits]? = some w) :
    b.bit i = Word.bit w (i % Word.bits) := by
  simp [bit, h]

theorem test_eq_ok {b : Bitmap} {i : Nat} {v : Bool} :
    b.test i = .ok v ↔ i / Word.bits < b.length ∧ b.bit i = v := by
  unfold test bit length
  cases h : b.words[i / Word.bits]? with
  | none =>
    have hle := List.getElem?_eq_none_iff.1 h
    simp only [reduceCtorEq, false_iff, not_and]
    exact fun hlt => absurd hlt (Nat.not_lt.2 hle)
  | some w => simp [(List.getElem?_eq_some_iff.1 h).1]

theorem length_set {b b' : Bitmap} {i : Nat} {old : Bool} (h : b.set i = .ok (old, b')) :
    b'.length = b.length := by
  unfold set at h
  split at h
  · simp only [Except.ok.injEq, Prod.mk.injEq] at h
    simp [length, ← h.2]
  · simp at h

theorem bit_set {b b' : Bitmap} {i : Nat} {old : Bool} (h : b.set i = .ok (old, b')) (j : Nat) :
    b'.bit j = (b.bit j || decide (i = j)) := by
  unfold set at h
  split at h
  next w hw =>
    obtain ⟨rfl, rfl⟩ : _ ∧ _ := by simpa using h
    have hlt := (List.getElem?_eq_some_iff.1 hw).1
    by_cases hj : i / Word.bits = j / Word.bits
    · have hs : (b.words.set (i / Word.bits) (Word.withBit w (i % Word.bits)))[j / Word.bits]? =
          some (Word.withBit w (i % Word.bits)) := by
        rw [← hj, List.getElem?_set_self hlt]
      rw [bit_of_getElem? hs, bit_of_getElem? (hj ▸ hw),
        Word.bit_withBit _ _ _ (Nat.mod_lt _ (by decide))]
      congr 1
      simp only [decide_eq_decide]
      constructor
      · intro h
        rw [← Nat.div_add_mod i Word.bits, ← Nat.div_add_mod j Word.bits, hj, h]
      · rintro rfl; rfl
    · have hne : i ≠ j := fun h => hj (by rw [h])
      simp [bit, List.getElem?_set_ne hj, hne]
  next => simp at h

/-! ## The search for a clear bit -/

/-- The words with their positions, in cyclic order from the word `hint` on. -/
def cyclicFrom (b : Bitmap) (hint : Nat) : List (Word × Nat) :=
  b.words.zipIdx.drop hint ++ b.words.zipIdx.take hint

/-- The lowest clear bit of the first word, in cyclic order from the word
    `hint` on, that has a clear bit. -/
def firstClear? (b : Bitmap) (hint : Nat) : Option Nat :=
  (b.cyclicFrom hint).findSome? fun (word, i) =>
    (Word.lowestClear? word).map (Word.bits * i + ·)

theorem mem_cyclicFrom {b : Bitmap} {hint : Nat} {p : Word × Nat} :
    p ∈ b.cyclicFrom hint ↔ b.words[p.2]? = some p.1 := by
  rw [cyclicFrom, List.mem_append, or_comm, ← List.mem_append, List.take_append_drop,
    List.mem_zipIdx_iff_getElem?]

theorem firstClear?_eq_none {b : Bitmap} {hint : Nat} :
    b.firstClear? hint = none ↔ ∀ w ∈ b.words, ∀ i < Word.bits, Word.bit w i = true := by
  simp only [firstClear?, List.findSome?_eq_none_iff, Option.map_eq_none_iff,
    Word.lowestClear?_eq_none, mem_cyclicFrom, Prod.forall]
  constructor
  · intro h w hw
    obtain ⟨k, hk⟩ := List.mem_iff_getElem?.1 hw
    exact h w k hk
  · intro h w k hk
    exact h w (List.mem_of_getElem? hk)

theorem bit_of_firstClear? {b : Bitmap} {hint i : Nat} (h : b.firstClear? hint = some i) :
    i / Word.bits < b.length ∧ b.bit i = false := by
  obtain ⟨⟨w, k⟩, hmem, hw⟩ := List.exists_of_findSome?_eq_some h
  obtain ⟨j, hj, rfl⟩ := Option.map_eq_some_iff.1 hw
  obtain ⟨hlt, hbit, -⟩ := Word.lowestClear?_eq_some.1 hj
  have hk := mem_cyclicFrom.1 hmem
  have hdiv : (Word.bits * k + j) / Word.bits = k := by
    rw [Nat.mul_add_div (by decide), Nat.div_eq_of_lt hlt, Nat.add_zero]
  have hmod : (Word.bits * k + j) % Word.bits = j := by
    rw [Nat.mul_add_mod, Nat.mod_eq_of_lt hlt]
  refine ⟨?_, ?_⟩
  · rw [hdiv]; exact (List.getElem?_eq_some_iff.1 hk).1
  · simp only [bit, hdiv, hmod, hk, hbit]

/-- The word of a bit, at which the next search starts. -/
def hintOf (i : Nat) : Nat :=
  i / Word.bits

/-- The result of `firstClear?`, for a hint that lies in the bitmap and a bitmap
    that is not full. -/
def find (b : Bitmap) (hint : Nat) : Except Fault Nat :=
  if b.length ≤ hint then .error (.hintOutOfRange hint b.length)
  else
    match b.firstClear? hint with
    | some i => .ok i
    | none => .error .noClearBit

/-- `take count hint` finds and sets `count` clear bits, each search starting at
    the word of the bit before, and returns the bits and the last hint. -/
def take : Nat → Nat → Action Bitmap (List Nat × Nat)
  | 0, hint => return ([], hint)
  | count + 1, hint => do
    let b ← get
    let i ← b.find hint
    let (_, next) ← b.set i
    MonadState.set next
    let (bits, last) ← take count (hintOf i)
    return (i :: bits, last)

/-! ## Whole bitmaps -/

/-- The number of clear bits among the first `slots` ones, all of which must lie
    in the bitmap. -/
def countClear (b : Bitmap) (slots : Nat) : Except Fault Nat := do
  let full := slots / Word.bits
  if b.length < full then
    throw (.rangeOutOfBounds full b.length)
  let clear := ((b.words.take full).map (Word.countClear · Word.bits)).foldr (· + ·) 0
  if slots % Word.bits = 0 then
    return clear
  match b.words[full]? with
  | some word => return clear + Word.countClear word (slots % Word.bits)
  | none => throw (.indexOutOfBounds b.length full)

/-- Tests that the last word holds the sentinels of `slots` slots. -/
def sentinelsIntact (b : Bitmap) (slots : Nat) : Except Fault Bool :=
  let mask := sentinelMask slots
  if mask = 0 then .ok true
  else
    match b.words.getLast? with
    | some word => .ok (word &&& mask == mask)
    | none => .error (.overflow .subtract)

/-- The bitmap of `slots` free slots, which must have the extent of `b`. -/
def clearAll (b : Bitmap) (slots : Nat) : Except Fault Bitmap := do
  let needed ← checkedWordsFor slots
  if b.length ≠ needed then
    throw (.bitmapLength b.length needed)
  if b.length = 0 then
    throw (.overflow .subtract)
  return cleared slots

/-- The words in hexadecimal digits, joined by points. -/
def hex (b : Bitmap) : String :=
  ".".intercalate (b.words.map Word.paddedHex)

end Bitmap

end SlabHeap
