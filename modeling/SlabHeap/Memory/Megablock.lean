/-
  Megablocks: mappings of 256 blocks that are sliced from the first block on.

  * `slice` hands out the next block of a megablock, with a cleared header, and
    `slice?` stops when all are handed out;
  * `isSliced` tells whether an address lies in a block that was handed out.
-/
import SlabHeap.Memory.BlockList

namespace SlabHeap

/-- The bytes of a megablock. -/
def megablockBytes : Nat := 1 <<< 20

/-- The blocks of a megablock. -/
def blocksPerMegablock : Nat := megablockBytes / blockBytes

/-- A mapping, of which the first `sliced` blocks were handed out; `number`
    counts the megablocks of the arena that were mapped before it. -/
structure Megablock where
  mapping : Mapping
  number : Nat
  sliced : Nat
deriving DecidableEq, Repr

namespace Megablock

/-- The start of a megablock. -/
def base (mb : Megablock) : Word :=
  mb.mapping.start

/-- Tests that an address lies in a megablock. -/
def contains (mb : Megablock) (address : Word) : Bool :=
  mb.mapping.contains address

/-- Tests that all blocks were handed out. -/
def isExhausted (mb : Megablock) : Bool :=
  mb.sliced == blocksPerMegablock

/-- The position in the megablock of the block that holds an address. -/
def blockAt (mb : Megablock) (address : Word) : Nat :=
  (address - mb.base).toNat / blockBytes

/-- Tests that an address lies in a block that was handed out. -/
def isSliced (mb : Megablock) (address : Word) : Bool :=
  mb.contains address && mb.blockAt address < mb.sliced

/-- The start of the block at a position. -/
def blockBase (mb : Megablock) (i : Nat) : Word :=
  Word.plus mb.base (i * blockBytes)

/-- Hands out the next block. -/
def slice (mb : Megablock) (m : Memory) : Word × Megablock × Memory :=
  let block := mb.blockBase mb.sliced
  (block, { mb with sliced := mb.sliced + 1 },
    m.modifyBlock block ({ · with link := none, room := 0, hint := 0 }))

/-- Hands out the next block, if there is one. -/
def slice? (mb : Megablock) (m : Memory) : Option (Word × Megablock × Memory) :=
  if mb.isExhausted then none else some (mb.slice m)

/-- Hands out the next `count` blocks, or all that are left. -/
def sliceMany (mb : Megablock) (m : Memory) : Nat → List Word × Megablock × Memory
  | 0 => ([], mb, m)
  | count + 1 =>
    match mb.slice? m with
    | none => ([], mb, m)
    | some (block, mb, m) =>
      let (blocks, rest) := mb.sliceMany m count
      (block :: blocks, rest)

end Megablock

end SlabHeap
