/-
  Taggings: what the words in roots and pointer fields mean.

  A tagging sorts a word into an `Edge`: no pointer, an object, or an indirection
  that stands for another word.  Taggings may look at memory; one that does not
  is `ofWord f`.

  * `untagged`: every non-null aligned word is a candidate object;
  * `lazyCells`: an odd word marks a cell, which is an indirection to the word
    it stores once that is set;
  * `forwarding`: the words of a table are indirections to their entries.

  `settle` follows the indirections from a word to their end.
-/
import SlabHeap.Memory.Basic

namespace SlabHeap

/-- What a word means to the collector. -/
inductive Edge where
  /-- No pointer. -/
  | immediate
  /-- An object, if its address belongs to the arena that is collected. -/
  | object (address : Word)
  /-- A placeholder for the word `target`. -/
  | indirection (target : Word)
deriving DecidableEq, Repr

/-- A reading of words, which may depend on memory. -/
structure Tagging where
  classify : Memory → Word → Edge

namespace Tagging

/-- The tagging that depends on the word alone. -/
def ofWord (f : Word → Edge) : Tagging where
  classify _ := f

/-- Every word that is an object address is an object. -/
def untaggedEdge (w : Word) : Edge :=
  if Word.isObjectAddress w then .object w else .immediate

/-- The tagging that uses no tags. -/
def untagged : Tagging :=
  ofWord untaggedEdge

/-- The tagging in which an odd word other than `1` is a reference to the cell in
    front of it: to the cell itself while it stores `0`, and through it to the
    stored word later.  Other words carry no tag. -/
def lazyCells : Tagging where
  classify m w :=
    if w % 2 = 0 ∨ w = 1 then untaggedEdge w
    else
      let cell := w - 1
      let base := Block.baseOf cell
      match (m.block base).objectSlot? base cell with
      | none => .immediate
      | some _ =>
        let stored := m.load cell
        if stored = 0 then .object cell else .indirection stored

/-- The tagging in which the words of a table are indirections to the words beside
    them, and other words carry no tag. -/
def forwarding (table : List (Word × Word)) : Tagging :=
  ofWord fun w =>
    match table.lookup w with
    | some target => .indirection target
    | none => untaggedEdge w

/-- The object at the end of at most `fuel` indirections from a word, if there
    is one. -/
def settleWithin (tagging : Tagging) (m : Memory) : Nat → Word → Except Fault (Option Word)
  | 0, _ => .error .endless
  | fuel + 1, w =>
    match tagging.classify m w with
    | .immediate => .ok none
    | .object address => .ok (some address)
    | .indirection target => settleWithin tagging m fuel target

/-- The object at the end of the indirections from a word, if there is one.  A
    chain that visits no word twice is no longer than there are words. -/
def settle (tagging : Tagging) (m : Memory) (w : Word) : Except Fault (Option Word) :=
  settleWithin tagging m Word.count w

end Tagging

end SlabHeap
