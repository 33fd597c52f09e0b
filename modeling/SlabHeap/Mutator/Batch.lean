/-
  Mutators: programs that allocate objects, fill them and keep some.

  * `liveWords?` tells the size of the object at a word, if there is one in use;
    `readField?` and `writeField?` access its fields and nothing else;
  * a `Batch` allocates a number of objects of one kind and initialises each of
    them before the next: `Batch.run`;
  * `SlotRun.ofObjects` describes the objects of a batch as runs of neighbouring
    slots.
-/
import SlabHeap.Heap.Allocation
import SlabHeap.Mutator.Roots

namespace SlabHeap

namespace Memory

/-! ## Live objects -/

/-- The number of words of the object at a word, if the word is the start of a
    used slot of a block that a cache owns. -/
def liveWords? (m : Memory) (object : Word) : Option Nat :=
  let base := Block.baseOf object
  let b := m.block base
  match b.objectSlot? base object with
  | none => none
  | some slot => if b.bitmap.bit slot then some b.layout.size.toNat else none

/-- The contents of a field of a live object. -/
def readField? (m : Memory) (object : Word) (i : Nat) : Option Word :=
  if (m.liveWords? object).any (i < ·) then some (m.field object i) else none

/-- The memory with a field of a live object replaced. -/
def writeField? (m : Memory) (object : Word) (i : Nat) (w : Word) : Option Memory :=
  if (m.liveWords? object).any (i < ·) then some (m.setField object i w) else none

/-- The memory with all fields of an object replaced, by zero where the list of
    contents ends. -/
def fill (m : Memory) (object : Word) (contents : List Word) : Memory :=
  let base := Block.baseOf object
  let size := (m.block base).layout.size.toNat
  let words := (List.range size).map fun i => contents.getD i 0
  m.modifyBlock base (·.setWords (Block.wordOf object) words)

end Memory

/-! ## Batches -/

/-- The roots that a program shows to its heap. -/
inductive RootChoice where
  | all
  | frames
  | extra
  | words (ws : List Word)
deriving DecidableEq

/-- The roots of a choice. -/
def RootSet.choose (r : RootSet) : RootChoice → List Word
  | .all => r.words
  | .frames => r.stack.words
  | .extra => r.extra.words
  | .words ws => ws

/-- A program at work: its heap, its roots and the objects it allocated. -/
structure Mutator where
  heap : Heap
  roots : RootSet
  objects : Array Word

namespace Mutator

variable {α : Type}

/-- Runs an action on the heap. -/
def onHeap (act : Action Heap α) : Action Mutator α :=
  Action.zoom (·.heap) (fun heap s => { s with heap }) act

/-- Changes the memory. -/
def modifyMemory (f : Memory → Memory) : Action Mutator Unit :=
  modify fun s => { s with heap := { s.heap with memory := f s.heap.memory } }

end Mutator

/-- What is done with each object of a batch.  `fill` are the contents of the
    fields, `none` to leave them as they are; `link` is a field that gets the
    object in front, with the word for the first object; and `hold` is a slot of
    a frame that gets the object. -/
structure Batch where
  fill : Option (List Word)
  link : Option (Nat × Word)
  hold : Option (Nat × Nat)
  roots : RootChoice

namespace Batch

/-- Initialises an object, `before` being the word that a link gets. -/
def initialise (b : Batch) (object before : Word) : Action Mutator Unit := do
  if let some contents := b.fill then
    Mutator.modifyMemory (·.fill object contents)
  if let some (field, _) := b.link then
    let m := (← get).heap.memory
    if field < (m.block (Block.baseOf object)).layout.size.toNat then
      Mutator.modifyMemory (·.setField object field before)
  if let some (position, index) := b.hold then
    let s ← get
    let stack ← s.roots.stack.setSlot position index object
    set { s with roots := { s.roots with stack } }

/-- Allocates `count` objects, each by an action that takes the roots of the
    moment, and initialises them. -/
def runFrom (b : Batch) (allocate : List Word → Action Heap Word) :
    Nat → Word → Action Mutator Unit
  | 0, _ => pure ()
  | count + 1, before => do
    let object ← Mutator.onHeap (allocate ((← get).roots.choose b.roots))
    modify fun s => { s with objects := s.objects.push object }
    b.initialise object before
    runFrom b allocate count object

/-- `runFrom` with the word that the link of the first object gets. -/
def run (b : Batch) (allocate : List Word → Action Heap Word) (count : Nat) :
    Action Mutator Unit :=
  b.runFrom allocate count ((b.link.map (·.2)).getD 0)

end Batch

/-! ## Runs of neighbouring objects -/

/-- `count` objects in neighbouring slots of one block, from `first` on. -/
structure SlotRun where
  first : Word
  count : Nat
deriving DecidableEq, Repr

/-- Puts an object in front of runs, into the first of them if that starts in
    the next slot of the block. -/
def SlotRun.prepend (m : Memory) (object : Word) : List SlotRun → List SlotRun
  | [] => [⟨object, 1⟩]
  | r :: rest =>
    let stride := (m.block (Block.baseOf object)).layout.size.toNat * Word.bytes
    if Block.baseOf r.first = Block.baseOf object ∧ r.first = Word.plus object stride then
      ⟨object, r.count + 1⟩ :: rest
    else ⟨object, 1⟩ :: r :: rest

/-- The runs of neighbouring objects in a list of objects. -/
def SlotRun.ofObjects (m : Memory) (objects : List Word) : List SlotRun :=
  objects.foldr (SlotRun.prepend m) []

end SlabHeap
