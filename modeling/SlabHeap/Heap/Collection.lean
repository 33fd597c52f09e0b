/-
  Collections: freeing what the roots do not reach.

  A collection clears the used slots of every block of every cache (`clearUsed`),
  marks those that the roots reach (`mark`), and sorts the blocks of every cache
  by what is left in them (`sweep`).  Blocks without a used slot lose their owner
  and can serve any cache.
-/
import SlabHeap.Heap.Marking
import SlabHeap.Heap.Sweep

namespace SlabHeap.Heap

/-- Frees every slot of every block that a cache owns. -/
def clearUsed : Action Heap Unit := do
  let h ← get
  (List.range h.arena.caches.length).forM fun index => onCache index Cache.clearUsed

/-- Marks the slots of the objects that the roots reach. -/
def mark (tagging : Tagging) (roots : List Word) : Action Heap Unit := do
  let arena := (← get).arena
  let (followed, collapsed) ←
    Action.zoom (fun h => Marking.start h.memory)
      (fun s h => { h with memory := s.memory })
      (do
        Marking.run arena tagging roots
        let s ← get
        return (s.followed, s.collapsed))
  tell (.marked roots.length followed collapsed)
  let scanned ← Count.add (← get).arena.counters.rootsScanned roots.length
  modifyCounters ({ · with rootsScanned := scanned })
  let followed ← Count.add (← get).arena.counters.pointersFollowed followed
  modifyCounters ({ · with pointersFollowed := followed })
  let collapsed ← Count.add (← get).arena.counters.indirectionsCollapsed collapsed
  modifyCounters ({ · with indirectionsCollapsed := collapsed })

/-- Sorts the blocks of the cache at a position and returns the number of those
    that lost their owner. -/
def sweepCache (index : Nat) : Action Heap Nat := do
  let h ← get
  match h.arena.caches[index]? with
  | none => throw (.indexOutOfBounds h.arena.caches.length index)
  | some cache =>
    let (start, blocks) := Sweep.start cache h.memory h.arena.free
    Action.zoom (fun _ => start)
      (fun s h =>
        { h with
          memory := s.memory
          arena := { h.arena with
            free := s.free
            caches := h.arena.caches.set index { cache with
              available := s.available
              full := s.full } } })
      (do
        Sweep.placeAll cache.shape blocks
        return (← get).freed)

/-- Sorts the blocks of every cache and returns the number of those that lost
    their owner. -/
def sweep : Action Heap Nat := do
  let indices := List.range (← get).arena.caches.length
  let freed ← indices.foldlM (fun freed index => return freed + (← sweepCache index)) 0
  if (← get).arena.blocksInUse < freed then
    throw .freedTooMany
  modifyArena fun a => { a with blocksInUse := a.blocksInUse - freed }
  let total ← Count.add (← get).arena.counters.blocksFreed freed
  modifyCounters ({ · with blocksFreed := total })
  return freed

/-- The event that tells a pause, `before` blocks having been in use.  Its sizes
    are computed as the line is written. -/
def pauseEvent (a : Arena) (before : Nat) : Except Fault Event := do
  let before ← Count.mul before blockBytes
  let after ← Count.mul a.blocksInUse blockBytes
  let threshold ← Count.mul a.threshold blockBytes
  return .paused a.counters.collections before after threshold

/-- Frees the slots of all objects that the roots do not reach.  A verbose arena
    tells the pause, and computes the sizes for that: the level of the log is
    taken to admit the line. -/
def collect (tagging : Tagging) (roots : List Word) : Action Heap Unit := do
  let before := (← get).arena.blocksInUse
  clearUsed
  mark tagging roots
  let freed ← sweep
  let a := (← get).arena
  tell (.swept a.counters.collections a.caches.length freed a.blocksInUse)
  if a.options.verbose then
    tell (← pauseEvent a before)
  let collections ← Count.add a.counters.collections 1
  modifyCounters ({ · with collections })

end SlabHeap.Heap
