/-
  Caches: all blocks that hold objects of one shape.

  The blocks with room are on the list `available`, and objects are allocated in
  the first of them; the blocks without are on the list `full`.

  * `takeSlot` allocates in the first available block, and `adopt` in a block
    that the cache takes over;
  * `clearUsed` frees all slots of all blocks.
-/
import SlabHeap.Memory.BlockList

namespace SlabHeap

/-- The blocks for objects of one shape. -/
structure Cache where
  shape : Shape
  available : BlockList
  full : BlockList
deriving DecidableEq

namespace Cache

/-- The cache without blocks. -/
def new (shape : Shape) : Cache where
  shape := shape
  available := .empty
  full := .empty

/-- The cache for objects of `size` words with `pointers` pointer fields. -/
def check (size pointers : Nat) : Except Fault Cache := do
  return new (← Shape.check size pointers)

/-- Tests that a cache is for objects of `size` words with `pointers` pointer
    fields. -/
def holds (c : Cache) (size pointers : Nat) : Bool :=
  c.shape.size == size && c.shape.pointers == pointers

/-- The text of the position of a cache. -/
def idText (index : Nat) : String :=
  s!"CacheId({index})"

/-- The blocks of a cache, those with room first. -/
def blocks (c : Cache) (m : Memory) : List Word :=
  c.available.toList m ++ c.full.toList m

/-- Tests that every block has the layout of the cache, counts its free slots
    right, and is on the list that this count asks for. -/
def isConsistent (c : Cache) (m : Memory) : Except Fault Bool := do
  let fits (roomy : Bool) (base : Word) : Except Fault Bool :=
    let b := m.block base
    if b.layout = c.shape.layout ∧ (b.room != 0) = roomy then b.isConsistent c.shape.slots
    else .ok false
  let available ← (c.available.toList m).mapM (fits true)
  let full ← (c.full.toList m).mapM (fits false)
  return (available ++ full).all id

/-! ## Allocation -/

/-- Runs an action on a block in memory, beside a cache. -/
def onBlock {α : Type} (base : Word) (act : Action Block α) : Action (Cache × Memory) α :=
  Action.zoom (·.2) (fun m s => (s.1, m)) (Memory.onBlock base act)

/-- Moves the first available block to the full ones. -/
def retireFirst (c : Cache) (m : Memory) : Cache × Memory :=
  match c.available.pop? m with
  | none => (c, m)
  | some (base, available, m) =>
    let (full, m) := c.full.push m base
    ({ c with available, full }, m)

/-- Allocates an object in the first available block, if there is one.  A block
    that this fills has to be the one that comes off the list, and the object has
    to lie in the block that it is taken from. -/
def takeSlot : Action (Cache × Memory) (Option Word) := do
  let (c, _) ← get
  match c.available.first with
  | none => return none
  | some base =>
    let slot ← onBlock base Block.takeSlot
    let (c, m) ← get
    let object := (m.block base).slotAddress base slot
    if (m.block base).room = 0 then
      let first := (c.available.pop? m).map (·.1)
      if first ≠ some base then
        throw (.otherBlockFull first base)
      set (c.retireFirst m)
    if Block.baseOf object ≠ base then
      throw (.strayObject (Block.baseOf object) base)
    return some object

/-- Takes over a block and allocates its first slot. -/
def adopt (base : Word) : Action (Cache × Memory) Word := do
  let (c, _) ← get
  onBlock base (Block.adopt c.shape)
  let (c, m) ← get
  if c.shape.slots = 1 then
    let (full, m) := c.full.push m base
    set ({ c with full }, m)
  else
    let (available, m) := c.available.push m base
    set ({ c with available }, m)
  return (m.block base).slotAddress base 0

/-! ## Collection -/

/-- Frees every slot of every block. -/
def clearUsed : Action (Cache × Memory) Unit := do
  let (c, m) ← get
  (c.blocks m).forM fun base => onBlock base (Block.clearUsed c.shape.slots)

end Cache

end SlabHeap
