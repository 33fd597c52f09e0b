/-
  Arenas: heaps that share memory but neither blocks nor caches.

  * `Arena.new` checks the threshold of a new arena;
  * `contains`, `isSliced` and `objectAt?` tell what an arena knows about a word:
    whether it lies in a megablock of the arena, in a block handed out, and at
    the start of a slot of a block that a cache owns.
-/
import SlabHeap.Heap.Cache
import SlabHeap.Heap.Statistics

namespace SlabHeap

/-- What a caller may choose of an arena: the number of blocks in use, with the
    one that is being acquired, at which the first collection runs, and whether
    each pause is told. -/
structure ArenaOptions where
  initialThreshold : Nat
  verbose : Bool
deriving DecidableEq, Repr

namespace ArenaOptions

/-- The number of blocks at which an arena collects, unless told otherwise. -/
def defaultThreshold : Nat := 8

/-- The options of a caller without wishes. -/
def standard : ArenaOptions := ⟨defaultThreshold, false⟩

end ArenaOptions

/-- The megablocks, caches and blocks without an owner of one heap.  Blocks are
    sliced from the megablock that starts at `current`. -/
structure Arena where
  options : ArenaOptions
  directory : Directory
  current : Option Word
  free : BlockList
  blocksInUse : Nat
  threshold : Nat
  caches : List Cache
  counters : Counters
deriving DecidableEq

namespace Arena

/-- The arena without blocks. -/
def new (options : ArenaOptions) : Except Fault Arena :=
  if options.initialThreshold = 0 then .error .zeroThreshold
  else .ok {
    options
    directory := .empty
    current := none
    free := .empty
    blocksInUse := 0
    threshold := options.initialThreshold
    caches := []
    counters := .zero }

/-- Tests that an address lies in a megablock of the arena. -/
def contains (a : Arena) (address : Word) : Bool :=
  (a.directory.holding? address).isSome

/-- Tests that an address lies in a block that the arena sliced. -/
def isSliced (a : Arena) (address : Word) : Bool :=
  (a.directory.holding? address).any (·.isSliced address)

/-- The block and the slot that start at a word, if a cache of the arena owns
    the block. -/
def objectAt? (a : Arena) (m : Memory) (w : Word) : Option (Word × Nat) :=
  if a.isSliced w && Word.isObjectAddress w then
    let base := Block.baseOf w
    ((m.block base).objectSlot? base w).map (base, ·)
  else none

/-- The memory without the megablocks of the arena. -/
def unmap (a : Arena) (m : Memory) : Memory :=
  a.directory.megablocks.foldl (fun m mb => m.unmap mb.mapping) m

/-- The arena in numbers. -/
def statistics (a : Arena) (m : Memory) : Statistics where
  megablocks := a.directory.size
  caches := a.caches.length
  blocksInUse := a.blocksInUse
  freeBlocks := a.free.length m
  blockThreshold := a.threshold
  counters := a.counters

/-- The position of the cache for objects of `size` words with `pointers` pointer
    fields. -/
def cacheIndex? (a : Arena) (size pointers : Nat) : Option Nat :=
  a.caches.findIdx? (·.holds size pointers)

end Arena

end SlabHeap
