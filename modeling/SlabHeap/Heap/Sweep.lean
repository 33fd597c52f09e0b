/-
  Sweeping: sorting the blocks of a cache by the slots that were marked in them.

  A block without a marked slot loses its owner, one without a free slot is full,
  and the others are available, the one with the fewest free slots first so that
  it is filled before the emptier ones.  `Sweep.place` sorts one block and
  `Sweep.placeAll` all blocks of a cache.
-/
import SlabHeap.Heap.Cache

namespace SlabHeap

/-- The sorting of blocks by the slots that were marked in them.  `available`
    and `full` are the lists of the cache and `free` is the list of the blocks
    without an owner; `fullest` is the block to be put in front of the available
    ones, and `freed` counts the blocks that lost their owner. -/
structure Sweep where
  memory : Memory
  available : BlockList
  full : BlockList
  free : BlockList
  fullest : Option Word
  freed : Nat

namespace Sweep

/-- Puts a block in front of the available ones. -/
def keep (s : Sweep) (base : Word) : Sweep :=
  let (available, memory) := s.available.push s.memory base
  { s with available, memory }

/-- Puts a block in front of the full ones. -/
def keepFull (s : Sweep) (base : Word) : Sweep :=
  let (full, memory) := s.full.push s.memory base
  { s with full, memory }

/-- Puts a block in front of the blocks without an owner. -/
def release (s : Sweep) (base : Word) : Sweep :=
  let (free, memory) := s.free.push (s.memory.modifyBlock base ({ · with free := true })) base
  { s with free, memory, freed := s.freed + 1 }

/-- Keeps an available block, where the fullest one seen so far is held back; of
    two that are equally full, the first one is. -/
def keepAvailable (s : Sweep) (base : Word) : Sweep :=
  match s.fullest with
  | none => { s with fullest := some base }
  | some held =>
    if (s.memory.block base).room < (s.memory.block held).room then
      { s.keep held with fullest := some base }
    else s.keep base

/-- Puts the fullest available block in front of the others. -/
def finish (s : Sweep) : Sweep :=
  match s.fullest with
  | none => s
  | some held => { s.keep held with fullest := none }

/-- Sorts one block of a cache. -/
def place (shape : Shape) (base : Word) : Action Sweep Unit := do
  let s ← get
  let b := s.memory.block base
  if b.layout ≠ shape.layout then
    throw .foreignLayout
  if b.room = 0 then
    set (s.keepFull base)
  else if b.room = shape.slots then
    set (s.release base)
  else
    set (s.keepAvailable base)

/-- Sorts the blocks of a cache, in order. -/
def placeAll (shape : Shape) (blocks : List Word) : Action Sweep Unit := do
  blocks.forM (place shape)
  modify finish

/-- The sorting in front of the first block of a cache: its lists are empty, and
    its blocks, those with room first, are returned beside it.  The sorting ends
    the same if each block comes off its list right before it is sorted. -/
def start (c : Cache) (m : Memory) (free : BlockList) : Sweep × List Word :=
  let (available, m) := c.available.drain m
  let (full, m) := c.full.drain m
  (⟨m, .empty, .empty, free, none, 0⟩, available ++ full)

end Sweep

end SlabHeap
