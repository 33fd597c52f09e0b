/-
  Statistics of an arena, and the text that shows them.

  Sizes in bytes are products that must fit a word; `Statistics.text` is a fault
  if one of the three in it does not.
-/
import SlabHeap.Memory.Directory
import SlabHeap.Text.Size

namespace SlabHeap

/-- What an arena counts over its life. -/
structure Counters where
  collections : Nat
  objectsAllocated : Nat
  rootsScanned : Nat
  pointersFollowed : Nat
  indirectionsCollapsed : Nat
  blocksFreed : Nat
deriving DecidableEq, Repr

namespace Counters

/-- The counters of a new arena. -/
def zero : Counters := ⟨0, 0, 0, 0, 0, 0⟩

end Counters

/-- The state of an arena in numbers. -/
structure Statistics where
  megablocks : Nat
  caches : Nat
  blocksInUse : Nat
  freeBlocks : Nat
  blockThreshold : Nat
  counters : Counters
deriving DecidableEq, Repr

namespace Statistics

/-- The bytes of all megablocks. -/
def heapSize (s : Statistics) : Except Fault Nat :=
  Count.mul s.megablocks megablockBytes

/-- The bytes of the blocks in use. -/
def memoryInUse (s : Statistics) : Except Fault Nat :=
  Count.mul s.blocksInUse blockBytes

/-- The bytes of the blocks in use at which a collection runs. -/
def thresholdSize (s : Statistics) : Except Fault Nat :=
  Count.mul s.blockThreshold blockBytes

/-- The statistics, one number a line. -/
def text (s : Statistics) : Except Fault String := do
  let used := sizeText (← s.memoryInUse)
  let size := sizeText (← s.heapSize)
  let threshold := sizeText (← s.thresholdSize)
  let c := s.counters
  let lines := [
    "Heap statistics:",
    s!"  Memory in use: {used} of {size} ({s.megablocks} megablocks)",
    s!"  Caches: {s.caches}",
    s!"  Blocks in use: {s.blocksInUse}",
    s!"  Free blocks: {s.freeBlocks}",
    s!"  Block threshold: {s.blockThreshold} ({threshold})",
    s!"  Total GC cycles count: {c.collections}",
    s!"  Total objects allocated: {c.objectsAllocated}",
    s!"  Total roots scanned: {c.rootsScanned}",
    s!"  Total pointers followed: {c.pointersFollowed}",
    s!"  Total indirections collapsed: {c.indirectionsCollapsed}",
    s!"  Total blocks freed: {c.blocksFreed}"]
  return String.join (lines.map (· ++ "\n"))

end Statistics

end SlabHeap
