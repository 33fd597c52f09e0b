/-
  Marking: everything that the roots of an arena reach.

  The state of a marking is the memory, in whose blocks the used slots are
  marked, and the objects that were marked and whose fields are still to be
  scanned.

  * `visit` marks an object of the arena, and ignores every other word;
  * `scanRoot` visits the object that a root settles to;
  * `scanField` does the same for a pointer field, and replaces an indirection
    in it, step by step, by the word that it stands for;
  * `run` scans the roots and then the pending objects, until none is left.
-/
import SlabHeap.Heap.Basic
import SlabHeap.Heap.Tagging

namespace SlabHeap

/-- The state of a marking: the memory, the marked objects whose fields were not
    scanned, the pointers found in fields and the indirections replaced. -/
structure Marking where
  memory : Memory
  pending : List Word
  followed : Nat
  collapsed : Nat

namespace Marking

variable (arena : Arena) (tagging : Tagging)

/-- The state before any root is scanned.  No object is pending between two
    markings, so an arena has no place for the pending ones. -/
def start (m : Memory) : Marking := ⟨m, [], 0, 0⟩

/-- Runs an action on a block in memory. -/
def onBlock {α : Type} (base : Word) (act : Action Block α) : Action Marking α :=
  Action.zoom (·.memory) (fun memory s => { s with memory }) (Memory.onBlock base act)

/-- Marks an object of the arena; an object that was not marked and has pointer
    fields becomes pending. -/
def visit (object : Word) : Action Marking Unit := do
  match arena.objectAt? (← get).memory object with
  | none => pure ()
  | some (base, _) =>
    if ← onBlock base (Block.mark base object) then
      modify fun s => { s with pending := object :: s.pending }

/-- Visits the object that a root settles to.  Roots are only read. -/
def scanRoot (root : Word) : Action Marking Unit := do
  match ← tagging.settle (← get).memory root with
  | none => pure ()
  | some object => visit arena object

/-- Replaces a field that holds `w` by the end of at most `fuel` indirections,
    one after the other, and returns the object found there. -/
def collapseWithin (object : Word) (field : Nat) : Nat → Word → Action Marking (Option Word)
  | 0, _ => throw .endless
  | fuel + 1, w => do
    match tagging.classify (← get).memory w with
    | .immediate => return none
    | .object address => return some address
    | .indirection target =>
      modify fun s =>
        { s with
          memory := s.memory.setField object field target
          collapsed := s.collapsed + 1 }
      collapseWithin object field fuel target

/-- Visits the object that a pointer field settles to. -/
def scanField (object : Word) (field : Nat) : Action Marking Unit := do
  let w := (← get).memory.field object field
  match ← collapseWithin tagging object field Word.count w with
  | none => pure ()
  | some child =>
    modify fun s => { s with followed := s.followed + 1 }
    visit arena child

/-- Scans the pointer fields of an object. -/
def scanObject (object : Word) : Action Marking Unit := do
  let b := (← get).memory.block (Block.baseOf object)
  (List.range b.layout.pointers.toNat).forM (scanField arena tagging object)

/-- Scans at most `fuel` pending objects, the last one found first, with those
    that become pending. -/
def scanPending : Nat → Action Marking Unit
  | 0 => throw .endless
  | fuel + 1 => do
    match (← get).pending with
    | [] => pure ()
    | object :: rest =>
      modify fun s => { s with pending := rest }
      scanObject arena tagging object
      scanPending fuel

/-- Marks everything that the roots reach.  No object becomes pending twice, so
    there are fewer than there are words. -/
def run (roots : List Word) : Action Marking Unit := do
  roots.forM (scanRoot arena tagging)
  scanPending arena tagging Word.count

end Marking

end SlabHeap
