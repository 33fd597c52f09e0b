/-
  Roots: the words from which everything in use is reached.

  A program keeps its roots in frames, one per activation, which are released in
  the reverse order of their creation, and registers further words one by one.

  * a `RawFrame` has its slots and the place of the frame outside it; a
    `ShadowStack` is the memory in which frames stand, and the place of the
    innermost one.  A new frame takes down the innermost one of the moment
    (`construct`) and then becomes the innermost itself (`link`);
  * `ShadowStack.places` walks from the innermost frame outwards, and
    `ShadowStack.words` are the words of the frames on the way, in slot order;
  * `ExtraRoots` are the registered words, without repetition;
  * a `RootSet` is both, and `RootSet.words` are its roots: those of the frames,
    and then the registered words.
-/
import Std.Data.TreeMap
import SlabHeap.Action

namespace SlabHeap

/-! ## Frames -/

/-- The words of a frame, and the place of the frame outside it. -/
structure RawFrame where
  prev : Option Nat
  slots : List Word
deriving DecidableEq, Repr

/-- The frames of a program by the place in memory at which they stand, and the place of
    the innermost one. -/
structure ShadowStack where
  memory : Std.TreeMap Nat RawFrame
  head : Option Nat

namespace ShadowStack

/-- The stack without frames. -/
def empty : ShadowStack := ⟨∅, none⟩

/-- The frame at a place. -/
def frame (s : ShadowStack) (place : Nat) : RawFrame :=
  s.memory.getD place ⟨none, []⟩

/-- The stack with the frame at a place replaced. -/
def setFrame (s : ShadowStack) (place : Nat) (frame : RawFrame) : ShadowStack :=
  { s with memory := s.memory.insert place frame }

/-- The stack without its innermost frame. -/
def pop (s : ShadowStack) : ShadowStack :=
  match s.head with
  | none => s
  | some place => ⟨s.memory.erase place, (s.frame place).prev⟩

/-- The places of the frames from `place` outwards, at most `fuel` of them. -/
def placesFrom (s : ShadowStack) : Nat → Option Nat → List Nat
  | 0, _ => []
  | _ + 1, none => []
  | fuel + 1, some place => place :: s.placesFrom fuel (s.frame place).prev

/-- The places of the frames, the innermost first.  No place comes twice in a walk that
    ends. -/
def places (s : ShadowStack) : List Nat :=
  s.placesFrom s.memory.size s.head

/-- The slots of the frames, the innermost first. -/
def frames (s : ShadowStack) : List (List Word) :=
  s.places.map fun place => (s.frame place).slots

/-- The number of frames. -/
def depth (s : ShadowStack) : Nat :=
  s.frames.length

/-- The words of all frames, the innermost first. -/
def words (s : ShadowStack) : List Word :=
  s.frames.flatten

/-! ### Steps of a program -/

/-- Makes a frame at a place.  It refers to the innermost frame, and is not linked yet. -/
def construct (place : Nat) (slots : List Word) : Action ShadowStack Unit :=
  modify fun s => s.setFrame place ⟨s.head, slots⟩

/-- Makes the frame at a place the innermost one, which must still be the frame that it
    refers to. -/
def link (place : Nat) : Action ShadowStack Unit := do
  let s ← get
  if (s.frame place).prev = s.head then
    set { s with head := some place }
  else throw (.staleFrame (s.frame place).prev.isSome s.head.isSome)

/-- Makes a frame at a place and links it. -/
def pushAt (place : Nat) (slots : List Word) : Action ShadowStack Unit := do
  construct place slots
  link place

/-- Releases the frame at a place, which must be the innermost one. -/
def releaseAt (place : Nat) : Action ShadowStack Unit := do
  let s ← get
  if s.head = some place then
    set s.pop
  else throw .frameOrder

/-- The word in a slot of the frame at a place. -/
def read (place index : Nat) : Action ShadowStack Word := do
  let slots := ((← get).frame place).slots
  match slots[index]? with
  | none => throw (.indexOutOfBounds slots.length index)
  | some w => return w

/-- Replaces the word in a slot of the frame at a place. -/
def write (place index : Nat) (w : Word) : Action ShadowStack Unit := do
  let s ← get
  let ⟨prev, slots⟩ := s.frame place
  if index < slots.length then
    set (s.setFrame place ⟨prev, slots.set index w⟩)
  else throw (.indexOutOfBounds slots.length index)

/-! ### Frames by position -/

/-- A place at which no frame stands. -/
def freePlace (s : ShadowStack) : Nat :=
  match s.memory.maxKey? with
  | none => 0
  | some place => place + 1

/-- The stack that an action leads to. -/
def after (s : ShadowStack) (act : Action ShadowStack Unit) : Except Fault ShadowStack :=
  match act s with
  | .ok _ s' => .ok s'
  | .error fault _ => .error fault

/-- The stack with a new innermost frame. -/
def push (s : ShadowStack) (slots : List Word) : ShadowStack :=
  (s.after (pushAt s.freePlace slots)).toOption.getD s

/-- The place of the frame at a position, counted from the outermost frame, which no later
    frame changes. -/
def place? (s : ShadowStack) (position : Nat) : Option Nat :=
  s.places.reverse[position]?

/-- Releases the frame at a position. -/
def release (s : ShadowStack) (position : Nat) : Except Fault ShadowStack :=
  match s.place? position with
  | none => .error .frameOrder
  | some place => s.after (releaseAt place)

/-- The word in a slot of the frame at a position. -/
def slot (s : ShadowStack) (position index : Nat) : Except Fault Word :=
  match s.place? position with
  | none => .error (.indexOutOfBounds s.depth position)
  | some place =>
    match read place index s with
    | .ok w _ => .ok w
    | .error fault _ => .error fault

/-- The stack with the word in a slot of the frame at a position replaced. -/
def setSlot (s : ShadowStack) (position index : Nat) (w : Word) : Except Fault ShadowStack :=
  match s.place? position with
  | none => .error (.indexOutOfBounds s.depth position)
  | some place => s.after (write place index w)

end ShadowStack

/-! ## Registered words -/

/-- The registered roots. -/
structure ExtraRoots where
  words : List Word
  nodup : words.Nodup
deriving DecidableEq

namespace ExtraRoots

/-- No registered root. -/
def empty : ExtraRoots := ⟨[], List.nodup_nil⟩

/-- The roots with a word registered; the word must not be registered yet. -/
def cons (r : ExtraRoots) (w : Word) (h : w ∉ r.words) : ExtraRoots :=
  ⟨w :: r.words, List.nodup_cons.2 ⟨h, r.nodup⟩⟩

/-- Registers a word, and returns whether it was not registered before. -/
def add (r : ExtraRoots) (w : Word) : Bool × ExtraRoots :=
  if h : w ∈ r.words then (false, r) else (true, r.cons w h)

/-- Removes a word, and returns whether it was registered. -/
def remove (r : ExtraRoots) (w : Word) : Bool × ExtraRoots :=
  (decide (w ∈ r.words), ⟨r.words.erase w, r.nodup.erase w⟩)

/-- The number of registered words. -/
def size (r : ExtraRoots) : Nat :=
  r.words.length

theorem mem_add (r : ExtraRoots) (w x : Word) :
    x ∈ (r.add w).2.words ↔ x = w ∨ x ∈ r.words := by
  unfold add
  split
  · next h => exact ⟨.inr, fun hx => hx.elim (· ▸ h) id⟩
  · simp [cons]

theorem mem_remove (r : ExtraRoots) (w x : Word) :
    x ∈ (r.remove w).2.words ↔ x ≠ w ∧ x ∈ r.words :=
  r.nodup.mem_erase_iff

end ExtraRoots

/-! ## Roots -/

/-- The roots of a program. -/
structure RootSet where
  stack : ShadowStack
  extra : ExtraRoots

namespace RootSet

/-- The program without roots. -/
def empty : RootSet := ⟨.empty, .empty⟩

/-- All roots. -/
def words (r : RootSet) : List Word :=
  r.stack.words ++ r.extra.words

/-- Runs an action on the frames. -/
def onStack {α : Type} (act : Action ShadowStack α) : Action RootSet α :=
  Action.zoom (·.stack) (fun stack r => { r with stack }) act

/-- Registers a word, and returns whether it was not registered before. -/
def addRoot (w : Word) : Action RootSet Bool := do
  let r ← get
  let (changed, extra) := r.extra.add w
  set { r with extra }
  return changed

/-- Removes a registered word, and returns whether it was registered. -/
def delRoot (w : Word) : Action RootSet Bool := do
  let r ← get
  let (changed, extra) := r.extra.remove w
  set { r with extra }
  return changed

end RootSet

end SlabHeap
