/-
  What can go wrong in the heap, by cause.

  Every check that an operation makes has one constructor of `Fault`, which
  carries what the report of the failure shows.  `Fault.message` is the text of
  the report; it takes the function that names an address, since only the
  program that mapped the memory knows what to call it.
-/
import SlabHeap.Word.Basic

namespace SlabHeap

/-- The checked operations on counts. -/
inductive CountOp where
  | add
  | subtract
  | multiply
deriving DecidableEq, Repr

/-- The cause of a failed operation. -/
inductive Fault where
  /-- A count left the range of a machine word. -/
  | overflow (op : CountOp)
  /-- An index past the end of a row of `length` elements. -/
  | indexOutOfBounds (length index : Nat)
  /-- A leading part of `stop` elements was asked of a row of `length`. -/
  | rangeOutOfBounds (stop length : Nat)
  /-- A bitmap of `words` words was to be cleared for slots that need `needed`. -/
  | bitmapLength (words needed : Nat)
  /-- A slot search was to start behind the last of `words` words. -/
  | hintOutOfRange (hint words : Nat)
  /-- A slot search found every bit set. -/
  | noClearBit
  /-- No block can hold an object of `size` words. -/
  | objectSize (size limit : Nat)
  /-- More pointer fields than words. -/
  | pointerFields (pointers size : Nat)
  /-- A block on the list of blocks with room has none. -/
  | fullBlockAvailable
  /-- A block was filled, and another one, or none, is the first of those with room. -/
  | otherBlockFull (first : Option Word) (block : Word)
  /-- An object was taken from a block and lies in another one. -/
  | strayObject (found block : Word)
  /-- An object in a block that no cache owns was to be marked. -/
  | freeBlock (object : Word)
  /-- An address in front of the first slot of its block. -/
  | headerPointer (object block : Word)
  /-- An address `excess` words behind the start of its slot. -/
  | interiorPointer (object : Word) (excess : Nat)
  /-- A slot was marked in a block that counts no free slot. -/
  | noFreeSlot
  /-- A block on the lists of a cache has another layout. -/
  | foreignLayout
  /-- A sweep freed more blocks than are in use. -/
  | freedTooMany
  /-- A call site remembers a cache of another layout. -/
  | rememberedCache
  /-- An arena needs a threshold of one block or more. -/
  | zeroThreshold
  /-- A frame was linked after frames had come or gone since it was made; the flags say
      whether the frame that it refers to, and the innermost one, are frames at all. -/
  | staleFrame (prev head : Bool)
  /-- A frame other than the innermost was released. -/
  | frameOrder
  /-- An index that is no cache of the heap. -/
  | unknownCache (index : Nat)
  /-- The system maps no more memory. -/
  | outOfMemory
  /-- A walk through memory that does not end. -/
  | endless
deriving DecidableEq, Repr

namespace CountOp

/-- The operation as a verb. -/
def verb : CountOp → String
  | add => "add"
  | subtract => "subtract"
  | multiply => "multiply"

end CountOp

namespace Fault

/-- How a text shows a pointer that lies outside the heap. -/
def foreignPointer : String := "<ptr>"

/-- How a text shows a pointer to a frame, or the lack of one. -/
def framePointer (isFrame : Bool) : String :=
  if isFrame then foreignPointer else "0x0"

/-- How a text shows a pointer to a block. -/
def blockText (pointer : String) : String :=
  "BlockRef(" ++ pointer ++ ")"

/-- How a text shows a pointer to a block, or the lack of one. -/
def optionalBlockText : Option String → String
  | none => "None"
  | some pointer => "Some(" ++ blockText pointer ++ ")"

/-- The report of two values that should have been equal. -/
def unequal (about left right : String) : String :=
  "assertion `left == right` failed" ++ about ++ "\n  left: " ++ left ++ "\n right: " ++ right

/-- The text of a fault, where `pointer` names the addresses in it. -/
def message (pointer : Word → String) : Fault → String
  | overflow op => s!"attempt to {op.verb} with overflow"
  | indexOutOfBounds length index =>
    s!"index out of bounds: the len is {length} but the index is {index}"
  | rangeOutOfBounds stop length =>
    s!"range end index {stop} out of range for slice of length {length}"
  | bitmapLength words needed => unequal "" (toString words) (toString needed)
  | hintOutOfRange hint words => s!"scan hint {hint} out of range ({words} words)"
  | noClearBit => "no clear bit in a block that reported free slots"
  | objectSize size limit => s!"object size {size} words is outside 1..={limit}"
  | pointerFields pointers size => s!"{pointers} pointer fields do not fit in {size} words"
  | fullBlockAvailable => "full block on the partial list"
  | otherBlockFull first block =>
    unequal "" (optionalBlockText (first.map pointer)) (optionalBlockText (some (pointer block)))
  | strayObject found block => unequal "" (blockText (pointer found)) (blockText (pointer block))
  | freeBlock object => Word.addressText (pointer object) ++ " lies in a free block"
  | headerPointer object block =>
    Word.addressText (pointer object) ++ " points into the header of block " ++ pointer block
  | interiorPointer object excess =>
    unequal (": interior pointer " ++ Word.addressText (pointer object)) (toString excess) "0"
  | noFreeSlot => "assertion failed: self.num_free > 0"
  | foreignLayout => "assertion failed: block.info().same_layout(&self.info)"
  | freedTooMany => "assertion failed: freed <= self.blocks_in_use"
  | rememberedCache => "cache slot used with a different layout or arena"
  | zeroThreshold => "block threshold must be at least one block"
  | staleFrame prev head => unequal "" (framePointer prev) (framePointer head)
  | frameOrder =>
    unequal ": frames must be released in LIFO order" foreignPointer foreignPointer
  | unknownCache index => s!"unknown cache {index}"
  | outOfMemory => "OutOfMemory"
  | endless => "the walk through memory does not end"

end Fault

end SlabHeap
