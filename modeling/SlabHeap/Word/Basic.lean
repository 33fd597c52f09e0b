/-
  Machine words, which are also the addresses of the heap.

  A word has 64 bits; eight bytes make a word and addresses count bytes.

  * `alignDown`, `alignUp` and `isAligned` round an address to a multiple of a
    power of two by masking; sums wrap around at the top of the address space;
  * `bit`, `withBit`, `lowestClear?` and `countClear` read a word as a row of
    64 bits, bit `0` being the least significant one: `bit_withBit`,
    `lowestClear?_eq_some` and `lowestClear?_eq_none` describe them bit by bit;
  * `hex` and `paddedHex` write a word in lower-case hexadecimal digits, and
    `addressText` marks a text as that of an object address.
-/

namespace SlabHeap

/-- A machine word. -/
abbrev Word := UInt64

namespace Word

/-- The number of bytes of a word. -/
def bytes : Nat := 8

/-- The number of bits of a word. -/
def bits : Nat := 64

/-- The number of words, which bounds every walk that visits no word twice. -/
def count : Nat := 1 <<< 64

/-! ## Alignment -/

/-- The greatest multiple of `align` not above `address`, if `align` is a power
    of two. -/
def alignDown (address align : Word) : Word :=
  address &&& ~~~(align - 1)

/-- The least multiple of `align` not below `address`, if `align` is a power of
    two and that multiple is a word; the sum wraps around otherwise. -/
def alignUp (address align : Word) : Word :=
  alignDown (address + (align - 1)) align

/-- `isAligned address align` tests that `address` is a multiple of `align`, if
    `align` is a power of two. -/
def isAligned (address align : Word) : Bool :=
  address &&& (align - 1) == 0

/-- An object may start at any non-null multiple of the word size. -/
def isObjectAddress (word : Word) : Bool :=
  word != 0 && word.toNat % bytes == 0

/-- The words of a list that are object addresses, in rising order and each
    once. -/
def objectAddresses (words : List Word) : List Word :=
  ((words.filter isObjectAddress).mergeSort (· ≤ ·)).eraseDups

/-- The address `n` bytes after `address`. -/
def plus (address : Word) (n : Nat) : Word :=
  address + UInt64.ofNat n

/-! ## Bits -/

/-- The bit `i` of a word; words have no set bit from `64` on. -/
def bit (w : Word) (i : Nat) : Bool :=
  w.toBitVec.getLsbD i

/-- The word with the bit `i` set. -/
def withBit (w : Word) (i : Nat) : Word :=
  UInt64.ofBitVec (w.toBitVec ||| BitVec.twoPow 64 i)

/-- The position of the lowest clear bit. -/
def lowestClear? (w : Word) : Option Nat :=
  (List.range bits).find? fun i => !bit w i

/-- The number of clear bits among the lowest `n` ones. -/
def countClear (w : Word) (n : Nat) : Nat :=
  (List.range n).countP fun i => !bit w i

/-- The word whose bits from `n` on are set, for `n` below `64`. -/
def onesFrom (n : Nat) : Word :=
  ~~~((1 <<< UInt64.ofNat n) - 1)

theorem bit_withBit (w : Word) (i j : Nat) (hi : i < bits) :
    bit (withBit w i) j = (bit w j || decide (i = j)) := by
  have hi' : i < 64 := hi
  simp [bit, withBit, hi']

theorem lowestClear?_eq_some {w : Word} {i : Nat} :
    lowestClear? w = some i ↔ i < bits ∧ bit w i = false ∧ ∀ j < i, bit w j = true := by
  simp [lowestClear?, List.find?_range_eq_some, and_left_comm]

theorem lowestClear?_eq_none {w : Word} :
    lowestClear? w = none ↔ ∀ i < bits, bit w i = true := by
  simp [lowestClear?]

/-! ## Text -/

/-- The hexadecimal digits of a number, most significant first. -/
def hexDigits (n : Nat) : String :=
  String.ofList (Nat.toDigits 16 n)

/-- The word in hexadecimal digits after `0x`. -/
def hex (w : Word) : String :=
  "0x" ++ hexDigits w.toNat

/-- The text of an object address whose pointer has a text. -/
def addressText (pointer : String) : String :=
  "Address(" ++ pointer ++ ")"

/-- The word in exactly sixteen hexadecimal digits. -/
def paddedHex (w : Word) : String :=
  let digits := hexDigits w.toNat
  String.ofList (List.replicate (16 - digits.length) '0') ++ digits

end Word

end SlabHeap
