/-
  Legends: names for the addresses of a program.

  A `Place` is an address told by the number of its arena, the number of its
  block in that arena and the offset in the block.  Blocks are numbered in the
  order in which they are sliced, 256 to a megablock.

  A `Legend` lists the arenas with their numbers: `place?` names an address,
  `address?` finds the address of a place, and `pointer` is the text for an
  address of any kind.
-/
import SlabHeap.Heap.Arena

namespace SlabHeap

/-- A byte of a block of an arena. -/
structure Place where
  arena : Nat
  block : Nat
  offset : Nat
deriving DecidableEq, Repr

namespace Place

/-- The text of a place, as in `a0.b2+24`. -/
def text (p : Place) : String :=
  s!"a{p.arena}.b{p.block}+{p.offset}"

end Place

/-- The arenas of a program with their numbers. -/
structure Legend where
  arenas : List (Nat × Arena)

namespace Legend

/-- The legend of a program without arenas. -/
def empty : Legend := ⟨[]⟩

/-- The number of the block that holds an address, in the arena of the address. -/
def blockNumber? (a : Arena) (address : Word) : Option Nat :=
  (a.directory.holding? address).map fun mb =>
    mb.number * blocksPerMegablock + mb.blockAt address

/-- The place of an address, if some arena mapped it. -/
def place? (legend : Legend) (address : Word) : Option Place :=
  legend.arenas.findSome? fun (arena, a) =>
    (blockNumber? a address).map fun block =>
      { arena, block, offset := Block.offsetOf address }

/-- The address of a place, if its megablock is mapped. -/
def address? (legend : Legend) (p : Place) : Option Word := do
  let a ← legend.arenas.lookup p.arena
  let mb ← a.directory.numbered? (p.block / blocksPerMegablock)
  return Word.plus (mb.blockBase (p.block % blocksPerMegablock)) p.offset

/-- Tests that an address lies in a block that some arena sliced. -/
def isSliced (legend : Legend) (address : Word) : Bool :=
  legend.arenas.any (·.2.isSliced address)

/-- The text for an address: its place, or the address itself if it is too small
    to be one outside the arenas. -/
def pointer (legend : Legend) (address : Word) : String :=
  match legend.place? address with
  | some place => place.text
  | none => if address.toNat < 1 <<< 32 then Word.hex address else Fault.foreignPointer

end Legend

end SlabHeap
