/-
  Allocation: from the slots of the blocks in use to new megablocks.

  An object comes from the first available block of its cache; without one, the
  cache takes over a block (`acquireBlock`): one without an owner, or else one
  that is sliced from a megablock.  Slicing is where the heap would grow, so it
  is preceded by a collection once the threshold is reached, and the threshold
  is raised when most blocks survive that.
-/
import SlabHeap.Heap.Collection

namespace SlabHeap

/-- The factor by which a threshold is raised. -/
def thresholdGrowth : Nat := 2

/-- The tenths of the threshold that must survive a collection to raise it. -/
def growthTenths : Nat := 9

/-- The words of the smallest object that is asked for in bytes. -/
def minByteWords : Nat := 3

/-- The number of words that hold `bytes` bytes, and `least` at least. -/
def wordsForBytes (bytes least : Nat) : Except Fault Nat := do
  let sum ← Count.add bytes Word.bytes
  return max least ((sum - 1) / Word.bytes)

namespace Heap

/-- Takes the first block without an owner. -/
def takeFreeBlock : Action Heap (Option Word) := do
  let h ← get
  match h.arena.free.pop? h.memory with
  | none => return none
  | some (block, free, memory) =>
    set { h with memory, arena := { h.arena with free } }
    return some block

/-- Maps a megablock, from which blocks are sliced from now on. -/
def mapMegablock : Action Heap Megablock := do
  let h ← get
  match h.memory.map megablockBytes with
  | .error error =>
    tell (.mappingFailed error)
    throw .outOfMemory
  | .ok (mapping, memory) =>
    let megablock := ⟨mapping, h.arena.directory.size, 0⟩
    tell (.mappedMegablock megablock.number megablock.base)
    modify fun h => { h with memory }
    modifyArena fun a =>
      { a with directory := a.directory.insert megablock, current := some megablock.base }
    return megablock

/-- The megablock to slice the next block from. -/
def currentMegablock : Action Heap Megablock := do
  let a := (← get).arena
  match a.current.bind a.directory.startingAt? with
  | none => mapMegablock
  | some megablock => if megablock.isExhausted then mapMegablock else return megablock

/-- Slices the next block. -/
def sliceBlock : Action Heap Word := do
  let megablock ← currentMegablock
  let h ← get
  let (block, megablock, memory) := megablock.slice h.memory
  let current := if megablock.isExhausted then none else some megablock.base
  set { h with
    memory
    arena := { h.arena with directory := h.arena.directory.insert megablock, current } }
  return block

/-- Raises the threshold if at least nine tenths of it are in use. -/
def adjustThreshold : Action Heap Unit := do
  let a := (← get).arena
  let used ← Count.mul a.blocksInUse 10
  let limit ← Count.mul a.threshold growthTenths
  if limit ≤ used then
    let threshold ← Count.mul a.threshold thresholdGrowth
    modifyArena ({ · with threshold })
    tell (.thresholdRaised a.blocksInUse threshold)

variable (tagging : Tagging) (roots : List Word)

/-- Takes a block for a cache, which counts as in use from now on. -/
def acquireBlock : Action Heap Word := do
  let inUse ← Count.add (← get).arena.blocksInUse 1
  modifyArena ({ · with blocksInUse := inUse })
  match ← takeFreeBlock with
  | some block =>
    tell (.reusedBlock block)
    return block
  | none =>
    if (← get).arena.threshold ≤ inUse then
      collect tagging roots
      adjustThreshold
    sliceBlock

/-- Allocates an object in the cache at a position.  Its fields hold what the
    slot held before.  The roots matter only if a collection runs. -/
def allocate (index : Nat) : Action Heap Word := do
  let allocated ← Count.add (← get).arena.counters.objectsAllocated 1
  modifyCounters ({ · with objectsAllocated := allocated })
  match ← onCache index Cache.takeSlot with
  | some object => return object
  | none =>
    let block ← acquireBlock tagging roots
    onCache index (Cache.adopt block)

/-- Allocates an object of `size` words with `pointers` pointer fields. -/
def allocateWords (size pointers : Nat) : Action Heap Word := do
  let index ← resolveCache size pointers
  allocate tagging roots index

/-- Allocates an object without pointer fields that holds `bytes` bytes. -/
def allocateBytes (bytes : Nat) : Action Heap Word := do
  let words ← wordsForBytes bytes minByteWords
  allocateWords tagging roots words 0

end Heap

end SlabHeap
