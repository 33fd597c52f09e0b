/-
  Handles: heaps for generated code.

  A handle is an arena with registered roots of its own; the frames are those of
  the calling program.  Generated code keeps a word per call site to remember
  the cache found there: zero before the first call, and the index of the cache
  plus one after it.
-/
import SlabHeap.Heap.Allocation
import SlabHeap.Report.Table
import SlabHeap.Mutator.Roots

namespace SlabHeap

/-- An arena and its registered roots. -/
structure Handle where
  arena : Arena
  extra : ExtraRoots

namespace Handle

/-- A new heap; the threshold zero stands for the default. -/
def new (threshold : Nat) (verbose : Bool) : Except Fault Handle := do
  let initialThreshold := if threshold = 0 then ArenaOptions.defaultThreshold else threshold
  return ⟨← Arena.new ⟨initialThreshold, verbose⟩, .empty⟩

/-- The root set of a heap, which has no frames of its own. -/
def extraRoots (h : Handle) : RootSet :=
  ⟨.empty, h.extra⟩

/-- The roots of a heap, given the frames of the caller. -/
def roots (h : Handle) (frames : ShadowStack) : List Word :=
  frames.words ++ h.extraRoots.words

/-- The index of the cache for objects of `size` words with `pointers` pointer
    fields, and the word remembered at the call site afterwards.  A call site
    that remembers an index gets it back. -/
def findCache (site : Option Nat) (size pointers : Nat) : Action Heap (Nat × Option Nat) := do
  match site with
  | none => return (← Heap.resolveCache size pointers, none)
  | some 0 =>
    let index ← Heap.resolveCache size pointers
    return (index, some (index + 1))
  | some (index + 1) => return (index, some (index + 1))

/-- Allocates an object in the cache at an index, which must be one of the heap. -/
def allocate (tagging : Tagging) (roots : List Word) (index : Nat) : Action Heap Word := do
  if (← get).arena.caches.length ≤ index then
    throw (.unknownCache index)
  Heap.allocate tagging roots index

/-- Marks an object and returns whether its fields are to be scanned; words that
    are no object address are ignored. -/
def setUsed (object : Word) : Action Memory Bool := do
  if Word.isObjectAddress object then
    Memory.onBlock (Block.baseOf object) (Block.mark (Block.baseOf object) object)
  else return false

/-- The statistics of a heap and the table of its caches. -/
def printout (h : Handle) (pointer : Word → String) (m : Memory) : Except Fault String := do
  return (← (h.arena.statistics m).text) ++ h.arena.dump pointer m

end Handle

end SlabHeap
