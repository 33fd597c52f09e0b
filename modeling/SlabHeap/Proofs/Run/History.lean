/-
  Runs: a new arena, and operations on it in any order.

  A run keeps its steps, the latest first, so that what it has done so far is a
  function of them.  The operations that a program may use next are a `Discipline`; a
  step that fails goes on from the heap that it left, unless the failure ends the
  program.

  As long as operations touch nothing but slots, every heap of a run is sound
  (`Run.sound`), has its blocks on the lists that they belong on unless a collection is
  under way (`Run.placed`), and counts the blocks that caches took over (`Run.ledger`).
-/
import SlabHeap.Proofs.Run.Operation

namespace SlabHeap

variable {tagging : Tagging} {h h' : Heap} {op : Operation} {r : Option Word}

/-! ## New arenas -/

/-- The heap of a new arena.  The system maps apart; memory and journal hold anything. -/
structure Heap.Initial (h : Heap) : Prop where
  supply : Supply.Disjoint h.memory.supply
  arena : ∃ options, Arena.new options = .ok h.arena

/-- The arena that `Arena.new` returns. -/
def Arena.blank (options : ArenaOptions) : Arena where
  options := options
  directory := .empty
  current := none
  free := .empty
  blocksInUse := 0
  threshold := options.initialThreshold
  caches := []
  counters := .zero

theorem Arena.new_eq_ok {options : ArenaOptions} {a : Arena} :
    Arena.new options = .ok a ↔ options.initialThreshold ≠ 0 ∧ a = blank options := by
  unfold Arena.new
  split
  next h0 => simp [h0]
  next h0 => simp [h0, blank, eq_comm]

theorem Arena.sound_blank {options : ArenaOptions} {m : Memory} (hs : Supply.Disjoint m.supply) :
    (blank options).Sound m [] 0 := by
  have howned : (blank options).owned m = [] := rfl
  refine ⟨hs, ⟨List.Pairwise.nil, fun _ hmb => absurd hmb List.not_mem_nil⟩,
    BlockList.linked_empty m, ?_, fun _ hc => absurd hc List.not_mem_nil, ?_, ?_⟩
  · intro b hb
    simp [blank] at hb
  · rw [howned]
    simp [blank, Directory.blocks, Directory.empty]
  · rw [howned]
    rfl

theorem Heap.Initial.eq_blank (hi : h.Initial) : ∃ options, h.arena = .blank options := by
  obtain ⟨options, hnew⟩ := hi.arena
  exact ⟨options, (Arena.new_eq_ok.1 hnew).2⟩

theorem Heap.Initial.sound (hi : h.Initial) : h.Sound [] 0 := by
  obtain ⟨options, harena⟩ := hi.eq_blank
  rw [Heap.Sound, harena]
  exact Arena.sound_blank hi.supply

/-- The system that maps `n` neighbouring megablocks and no more. -/
def Supply.row (n : Nat) : Supply := fun k =>
  if k < n then some (UInt64.ofNat ((k + 1) * megablockBytes)) else none

theorem Supply.disjoint_row {n : Nat} (hn : n < 2 ^ 40) : (row n).Disjoint := by
  have hplace : ∀ {k x}, row n k = some x → k < n ∧ x.toNat = (k + 1) * 2 ^ 20 := by
    intro k x hx
    unfold row at hx
    split at hx
    next hk =>
      rw [← Option.some.inj hx, UInt64.toNat_ofNat', megablockBytes]
      exact ⟨hk, Nat.mod_eq_of_lt (by omega)⟩
    next => cases hx
  constructor
  · intro k x hx
    obtain ⟨hk, hx⟩ := hplace hx
    simp only [hx, megablockBytes, Word.count]
    omega
  · intro i j x y hij hx hy
    obtain ⟨-, hx⟩ := hplace hx
    obtain ⟨-, hy⟩ := hplace hy
    simp only [hx, hy, megablockBytes]
    omega

/-- A new arena, in blank memory with room for `n` megablocks. -/
def Heap.fresh (n : Nat) (options : ArenaOptions) : Heap :=
  .of (.new (.row n)) (.blank options)

theorem Heap.initial_fresh {n : Nat} {options : ArenaOptions} (hn : n < 2 ^ 40)
    (ho : options.initialThreshold ≠ 0) : (fresh n options).Initial :=
  ⟨Supply.disjoint_row hn, options, Arena.new_eq_ok.2 ⟨ho, rfl⟩⟩

/-! ## Steps -/

/-- An operation on `h` returned `r` and left `h'`, or failed and left `h'` without ending
    the program. -/
inductive Operation.Ends (tagging : Tagging) (op : Operation) (h : Heap) :
    Option Word → Heap → Prop
  | returned {r : Option Word} {h' : Heap} : op.run tagging h = .ok r h' →
    Ends tagging op h r h'
  | failed {fault : Fault} {h' : Heap} : op.run tagging h = .error fault h' →
    ¬ fault.IsFatal → Ends tagging op h none h'

theorem Operation.Ends.effect {may must : Word → Word → Prop} (he : op.Ends tagging h r h')
    (hT : tagging.Reads may must) (hs : h.Sound [] 0) (hfit : op.Fits h) :
    op.Effect 0 0 may must h r h' := by
  cases he with
  | returned he => exact (run_meets hT hs hfit).of_ok he
  | failed he hf => exact ((run_meets hT hs hfit).of_error he).resolve_left hf

/-- What an operation returns, if it does. -/
def Operation.returned? (tagging : Tagging) (op : Operation) (h : Heap) : Option (Option Word) :=
  match op.run tagging h with
  | .ok r _ => some r
  | .error _ _ => none

/-- The heap that an operation leaves. -/
def Operation.after (tagging : Tagging) (op : Operation) (h : Heap) : Heap :=
  match op.run tagging h with
  | .ok _ h' => h'
  | .error _ h' => h'

theorem Operation.run_of_returned? (hret : op.returned? tagging h = some r) :
    op.run tagging h = .ok r (op.after tagging h) := by
  unfold returned? at hret
  unfold after
  cases hrun : op.run tagging h with
  | ok r' h' =>
    rw [hrun] at hret
    cases hret
    rfl
  | error fault h' =>
    rw [hrun] at hret
    cases hret

/-- The fault that an operation fails with, if it does. -/
def Operation.fault? (tagging : Tagging) (op : Operation) (h : Heap) : Option Fault :=
  match op.run tagging h with
  | .ok _ _ => none
  | .error fault _ => some fault

theorem Operation.run_of_fault? {fault : Fault} (hfault : op.fault? tagging h = some fault) :
    op.run tagging h = .error fault (op.after tagging h) := by
  unfold fault? at hfault
  unfold after
  cases hrun : op.run tagging h with
  | ok r' h' =>
    rw [hrun] at hfault
    cases hfault
  | error fault' h' =>
    rw [hrun] at hfault
    cases hfault
    rfl

/-- A step of a run: an operation, the heaps before and after it, and the address that it
    returned, if any. -/
structure Step where
  op : Operation
  before : Heap
  result : Option Word
  after : Heap

/-- The operations that a program may use, given its steps so far and its heap. -/
abbrev Discipline := List Step → Heap → Operation → Prop

/-- Any operation on slots. -/
def anySlots : Discipline := fun _ h op => op.Fits h

/-- A program that keeps to a discipline has come from a new arena, by some steps, to a
    heap. -/
inductive Run (tagging : Tagging) (allowed : Discipline) : List Step → Heap → Prop
  | start {h : Heap} : h.Initial → Run tagging allowed [] h
  | step {past : List Step} {h h' : Heap} {op : Operation} {r : Option Word} :
    Run tagging allowed past h → allowed past h op → op.Ends tagging h r h' →
    Run tagging allowed (⟨op, h, r, h'⟩ :: past) h'

variable {past : List Step} {allowed : Discipline}

/-- A program goes on with an operation that returns. -/
theorem Run.next (hr : Run tagging allowed past h) (op : Operation) (r : Option Word)
    (ha : allowed past h op) (hret : op.returned? tagging h = some r) :
    Run tagging allowed (⟨op, h, r, op.after tagging h⟩ :: past) (op.after tagging h) :=
  .step hr ha (.returned (Operation.run_of_returned? hret))

/-- A program that keeps to a discipline keeps to a wider one. -/
theorem Run.mono {wider : Discipline} (hr : Run tagging allowed past h)
    (hle : ∀ past h op, allowed past h op → wider past h op) : Run tagging wider past h := by
  induction hr with
  | start hi => exact .start hi
  | step _ ha he ih => exact .step ih (hle _ _ _ ha) he

/-- Tells whether no phase of a collection was used on its own since the last sweep. -/
def settled : List Step → Bool
  | [] => true
  | s :: past => s.op.settled (settled past)

/-- The number of blocks that caches took over so far: after a step they own them, and
    before it none did. -/
def handedOver : List Step → Nat
  | [] => 0
  | s :: past => handedOver past + s.before.gained s.after

/-! ## Runs -/

namespace Run

variable (hr : Run tagging anySlots past h)
include hr

theorem sound : h.Sound [] 0 := by
  induction hr with
  | start hi => exact hi.sound
  | step _ hfit he ih => exact (he.effect tagging.reads_any ih hfit).sound

theorem placed (hset : settled past = true) : ∀ c ∈ h.arena.caches, c.Placed h.memory := by
  induction hr with
  | start hi =>
    obtain ⟨options, harena⟩ := hi.eq_blank
    rw [harena]
    exact fun _ hc => absurd hc List.not_mem_nil
  | step hr hfit he ih => exact (he.effect tagging.reads_any hr.sound hfit).placed _ ih hset

theorem ledger : h.arena.blocksInUse + h.arena.counters.blocksFreed = handedOver past := by
  induction hr with
  | start hi =>
    obtain ⟨options, harena⟩ := hi.eq_blank
    rw [harena]
    rfl
  | step hr hfit he ih =>
    rw [handedOver, ← ih]
    exact (he.effect tagging.reads_any hr.sound hfit).ledger

end Run

end SlabHeap
