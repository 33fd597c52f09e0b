/-
  Heaps: arenas at work.

  * a `Heap` is an arena together with the memory it lives in and the journal of
    its events, the state in which the operations on arenas run; `onMemory` and
    `onCache` run operations on its parts;
  * `resolveCache` finds or adds the cache for a shape, and `findCache` is the
    same with the answer remembered at the call site.
-/
import SlabHeap.Heap.Arena
import SlabHeap.Heap.Event

namespace SlabHeap

/-- An arena at work: the memory it lives in and the events so far. -/
structure Heap where
  memory : Memory
  arena : Arena
  events : Array Event

namespace Heap

variable {α : Type}

/-- The arena in memory, before any event. -/
def of (memory : Memory) (arena : Arena) : Heap := ⟨memory, arena, #[]⟩

/-- Adds an event to the journal. -/
def tell (event : Event) : Action Heap Unit :=
  modify fun h => { h with events := h.events.push event }

/-- Changes the arena. -/
def modifyArena (f : Arena → Arena) : Action Heap Unit :=
  modify fun h => { h with arena := f h.arena }

/-- Changes the counters of the arena. -/
def modifyCounters (f : Counters → Counters) : Action Heap Unit :=
  modifyArena fun a => { a with counters := f a.counters }

/-- Runs an action on the memory. -/
def onMemory (act : Action Memory α) : Action Heap α :=
  Action.zoom (·.memory) (fun memory h => { h with memory }) act

/-- Runs an action on the cache at a position, beside the memory. -/
def onCache (index : Nat) (act : Action (Cache × Memory) α) : Action Heap α := do
  let h ← get
  match h.arena.caches[index]? with
  | none => throw (.indexOutOfBounds h.arena.caches.length index)
  | some cache =>
    Action.zoom (fun h => (cache, h.memory))
      (fun s h =>
        { h with memory := s.2, arena := { h.arena with caches := h.arena.caches.set index s.1 } })
      act

/-! ## Finding caches -/

/-- The position of the cache for objects of `size` words with `pointers` pointer
    fields, which is added if there is none. -/
def resolveCache (size pointers : Nat) : Action Heap Nat := do
  let a := (← get).arena
  match a.cacheIndex? size pointers with
  | some index => return index
  | none =>
    let cache ← Cache.check size pointers
    let index := a.caches.length
    tell (.newCache index cache.shape)
    modifyArena fun a => { a with caches := a.caches ++ [cache] }
    return index

/-- `resolveCache` for a call site that remembers the position it found first.
    A remembered position must be that of a cache for the same objects. -/
def findCache (remembered : Option Nat) (size pointers : Nat) : Action Heap Nat := do
  match remembered with
  | none => resolveCache size pointers
  | some index =>
    if ((← get).arena.caches[index]?).any (·.holds size pointers) then return index
    else throw .rememberedCache

end Heap

end SlabHeap
