/-
  Events: what an arena tells about its work.

  `Event.line` is the line of a journal that shows an event; it takes the
  function that names an address.  A pause has no length here, since a pure
  computation has no clock, and its line shows a placeholder instead.
-/
import SlabHeap.Memory.Mapping
import SlabHeap.Text.Size

namespace SlabHeap

/-- What happened in an arena. -/
inductive Event where
  /-- A cache was added after `index` others. -/
  | newCache (index : Nat) (shape : Shape)
  /-- A block without an owner was taken. -/
  | reusedBlock (block : Word)
  /-- The threshold was raised, since `inUse` blocks survived. -/
  | thresholdRaised (inUse threshold : Nat)
  /-- A megablock was mapped after `number` others. -/
  | mappedMegablock (number : Nat) (base : Word)
  /-- No megablock could be mapped. -/
  | mappingFailed (error : MapError)
  /-- Everything reachable was marked. -/
  | marked (roots followed collapsed : Nat)
  /-- The blocks were sorted after `collections` earlier collections. -/
  | swept (collections caches freed inUse : Nat)
  /-- A collection ended: the bytes in use before and after it, and the bytes at
      which the next one starts. -/
  | paused (collections before after threshold : Nat)
deriving DecidableEq

namespace Event

/-- The placeholder for the length of a pause. -/
def elapsed : String := "<t>ms"

/-- The level and the text of an event, where `pointer` names addresses. -/
def line (pointer : Word → String) : Event → String
  | newCache index shape =>
    s!"DEBUG [gc] new cache #{index}: size={shape.size} nptrs={shape.pointers}"
      ++ s!" num_entries={shape.slots} color={colorFor shape.size}"
  | reusedBlock block => "TRACE [gc] reusing free block " ++ pointer block
  | thresholdRaised inUse threshold =>
    s!"DEBUG [gc] {inUse} blocks in use after collection, threshold raised to {threshold}"
  | mappedMegablock number base =>
    s!"DEBUG [gc] mapped megablock #{number} at " ++ pointer base
  | mappingFailed error => "ERROR [gc] cannot map megablock: " ++ error.message
  | marked roots followed collapsed =>
    s!"TRACE [gc] mark: {roots} roots, {followed} pointers followed, "
      ++ s!"{collapsed} indirections collapsed"
  | swept collections caches freed inUse =>
    s!"DEBUG [gc] GC({collections}) swept {caches} caches, freed {freed} blocks, {inUse} in use"
  | paused collections before after threshold =>
    s!"INFO [gc] GC({collections}) Pause MarkSweep {sizeText before}->{sizeText after}"
      ++ s!"({sizeText threshold}) " ++ elapsed

end Event

end SlabHeap
