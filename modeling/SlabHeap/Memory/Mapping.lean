/-
  Mappings: stretches of memory that the system hands out.

  Where the system puts a mapping is its own choice, so `Mapping.place` takes the
  place as an argument, `none` if the system has no room.  It refuses sizes that
  the system refuses and places that do not start on a block boundary;
  `MapError.message` is the text of a refusal.
-/
import SlabHeap.Block.Layout

namespace SlabHeap

/-- The places at which a system puts one mapping after the other. -/
abbrev Supply := Nat → Option Word

/-- Why a mapping could not be made. -/
inductive MapError where
  /-- A mapping holds at least one byte. -/
  | emptyMapping
  /-- There is no room for `size` bytes. -/
  | noRoom (size : Nat)
  /-- Blocks are found by rounding addresses down, so a mapping starts on a
      multiple of `align`. -/
  | misaligned (base align : Word)
deriving DecidableEq, Repr

namespace MapError

/-- The text of a refusal. -/
def message : MapError → String
  | emptyMapping => "unable to map 0 bytes: Invalid argument (os error 22)"
  | noRoom size => s!"unable to map {size} bytes: Cannot allocate memory (os error 12)"
  | misaligned base align =>
    "mapping at " ++ Word.hex base ++ s!" is not aligned to {align} bytes"

end MapError

/-- A stretch of `size` bytes from the address `start` on. -/
structure Mapping where
  start : Word
  size : Nat
deriving DecidableEq, Repr

namespace Mapping

/-- The bytes that one program can address. -/
def addressSpace : Nat := 1 <<< 47

/-- The mapping of `size` bytes that the system puts at `place`. -/
def place (size : Nat) (place : Option Word) : Except MapError Mapping :=
  if size = 0 then .error .emptyMapping
  else if addressSpace ≤ size then .error (.noRoom size)
  else
    match place with
    | none => .error (.noRoom size)
    | some start =>
      if Word.isAligned start (UInt64.ofNat blockBytes) then .ok ⟨start, size⟩
      else .error (.misaligned start (UInt64.ofNat blockBytes))

/-- The first address behind a mapping. -/
def stop (m : Mapping) : Nat :=
  m.start.toNat + m.size

/-- Tests that an address lies in a mapping. -/
def contains (m : Mapping) (address : Word) : Bool :=
  m.start ≤ address && address.toNat < m.stop

end Mapping

end SlabHeap
