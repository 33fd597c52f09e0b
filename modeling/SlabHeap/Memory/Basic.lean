/-
  Memory: every block, by the address at which it starts.

  Memory is shared by all heaps of a program.  A block that was never written is
  blank, so that `block` and the words read through `load` are total functions
  of the address; `block_setBlock` says what a write changes.
-/
import Std.Data.TreeMap
import SlabHeap.Block.Basic
import SlabHeap.Memory.Mapping

namespace SlabHeap

/-- The blocks that were written, and the mappings that the system hands out:
    the next one is the `mapped`-th place of the supply. -/
structure Memory where
  blocks : Std.TreeMap Word Block
  supply : Supply
  mapped : Nat

namespace Memory

/-- Memory in which nothing is mapped. -/
def new (supply : Supply) : Memory where
  blocks := ∅
  supply := supply
  mapped := 0

/-! ## Blocks -/

/-- The block at an address. -/
def block (m : Memory) (base : Word) : Block :=
  m.blocks.getD base .blank

/-- The memory with the block at an address replaced. -/
def setBlock (m : Memory) (base : Word) (b : Block) : Memory :=
  { m with blocks := m.blocks.insert base b }

/-- The memory with a function applied to the block at an address. -/
def modifyBlock (m : Memory) (base : Word) (f : Block → Block) : Memory :=
  m.setBlock base (f (m.block base))

/-- Runs an action on the block at an address. -/
def onBlock {α : Type} (base : Word) (act : Action Block α) : Action Memory α :=
  Action.zoom (·.block base) (fun b m => m.setBlock base b) act

@[simp] theorem block_setBlock (m : Memory) (base other : Word) (b : Block) :
    (m.setBlock base b).block other = if base = other then b else m.block other := by
  simp [block, setBlock, Std.TreeMap.getD_insert]

theorem block_modifyBlock (m : Memory) (base other : Word) (f : Block → Block) :
    (m.modifyBlock base f).block other =
      if base = other then f (m.block base) else m.block other :=
  block_setBlock ..

/-! ## Words -/

/-- The word at an address. -/
def load (m : Memory) (address : Word) : Word :=
  (m.block (Block.baseOf address)).word (Block.wordOf address)

/-- The memory with the word at an address replaced. -/
def store (m : Memory) (address w : Word) : Memory :=
  m.modifyBlock (Block.baseOf address) (·.setWord (Block.wordOf address) w)

/-- The address of a field of an object. -/
def fieldAddress (object : Word) (field : Nat) : Word :=
  Word.plus object (field * Word.bytes)

/-- The contents of a field of an object. -/
def field (m : Memory) (object : Word) (i : Nat) : Word :=
  m.load (fieldAddress object i)

/-- The memory with a field of an object replaced. -/
def setField (m : Memory) (object : Word) (i : Nat) (w : Word) : Memory :=
  m.store (fieldAddress object i) w

/-! ## Mappings -/

/-- Makes the next mapping of `size` bytes. -/
def map (m : Memory) (size : Nat) : Except MapError (Mapping × Memory) := do
  let mapping ← Mapping.place size (m.supply m.mapped)
  return (mapping, { m with mapped := m.mapped + 1 })

/-- The memory in which the blocks of a mapping are blank again. -/
def unmap (m : Memory) (mapping : Mapping) : Memory :=
  { m with blocks := m.blocks.filter fun base _ => !mapping.contains base }

end Memory

end SlabHeap
