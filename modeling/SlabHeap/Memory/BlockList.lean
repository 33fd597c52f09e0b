/-
  Lists of blocks, threaded through the blocks themselves.

  A list is the address of its first block, and each block holds the address of
  the next one, so a block is on one list at most.  `push`, `pop?` and `drain`
  change the links; `toList` reads a list, and `Chain` is the relation between a
  first block, the links in memory and the list of blocks that they make up.

  A chain visits no block twice (`Chain.nodup`), and is what `toList` reads
  (`toList_eq`); `push` puts a block in front of it (`chain_push`), `pop?` takes
  the first one off (`chain_pop?`), and what happens to other blocks leaves it as
  it is (`Chain.congr`).
-/
import SlabHeap.Memory.Basic

namespace SlabHeap

/-- A list of blocks; the rest of it is in memory. -/
structure BlockList where
  first : Option Word
deriving DecidableEq, Repr

namespace BlockList

/-- The list without blocks. -/
def empty : BlockList := ⟨none⟩

/-- Tests that a list has no blocks. -/
def isEmpty (l : BlockList) : Bool :=
  l.first.isNone

/-- `Chain m first bs` holds if the links of the blocks `bs` lead from `first`
    through all of them, in order, to an end. -/
inductive Chain (m : Memory) : Option Word → List Word → Prop
  | nil : Chain m none []
  | cons {base : Word} {bs : List Word} :
    Chain m (m.block base).link bs → Chain m (some base) (base :: bs)

/-- The blocks that at most `fuel` links lead to. -/
def follow (m : Memory) : Nat → Option Word → List Word
  | 0, _ => []
  | _ + 1, none => []
  | fuel + 1, some base => base :: follow m fuel (m.block base).link

/-- The blocks of a list.  Blocks are words, so a list without a cycle has at
    most as many as there are words. -/
def toList (l : BlockList) (m : Memory) : List Word :=
  follow m Word.count l.first

/-- The number of blocks. -/
def length (l : BlockList) (m : Memory) : Nat :=
  (l.toList m).length

/-- Tests that a block is on a list. -/
def contains (l : BlockList) (m : Memory) (base : Word) : Bool :=
  (l.toList m).contains base

/-- Puts a block in front. -/
def push (l : BlockList) (m : Memory) (base : Word) : BlockList × Memory :=
  (⟨some base⟩, m.modifyBlock base ({ · with link := l.first }))

/-- Takes the first block off, and clears its link. -/
def pop? (l : BlockList) (m : Memory) : Option (Word × BlockList × Memory) :=
  l.first.map fun base =>
    (base, ⟨(m.block base).link⟩, m.modifyBlock base ({ · with link := none }))

/-- Takes at most `fuel` blocks off. -/
def popMany : Nat → BlockList → Memory → List Word × Memory
  | 0, _, m => ([], m)
  | fuel + 1, l, m =>
    match l.pop? m with
    | none => ([], m)
    | some (base, rest, m) =>
      let (bases, m) := popMany fuel rest m
      (base :: bases, m)

/-- Takes all blocks off, first to last. -/
def drain (l : BlockList) (m : Memory) : List Word × Memory :=
  popMany Word.count l m

/-! ## Chains -/

variable {m m' : Memory} {first : Option Word} {l : BlockList} {base : Word} {bs : List Word}

/-- Blocks that are not on a chain may change their links. -/
theorem Chain.congr (h : Chain m first bs)
    (hm : ∀ b ∈ bs, (m'.block b).link = (m.block b).link) : Chain m' first bs := by
  induction h with
  | nil => exact .nil
  | cons _ ih =>
    have hhead := hm _ (List.mem_cons_self ..)
    exact .cons (hhead ▸ ih fun b hb => hm b (List.mem_cons_of_mem _ hb))

/-- A chain is determined by its first block. -/
theorem Chain.unique {cs : List Word} (h : Chain m first bs) (h' : Chain m first cs) : bs = cs := by
  induction h generalizing cs with
  | nil => cases h'; rfl
  | cons _ ih =>
    cases h' with
    | cons h' => rw [ih h']

/-- A chain goes on from each of its blocks. -/
theorem Chain.from_mem (h : Chain m first bs) (hb : base ∈ bs) :
    ∃ cs, Chain m (some base) cs ∧ cs.length ≤ bs.length := by
  induction h with
  | nil => simp at hb
  | @cons head bs h ih =>
    rcases List.mem_cons.1 hb with rfl | hb
    · exact ⟨_, .cons h, Nat.le_refl _⟩
    · obtain ⟨cs, hcs, hl⟩ := ih hb
      exact ⟨cs, hcs, Nat.le_succ_of_le hl⟩

/-- A chain visits no block twice, since it would not end otherwise. -/
theorem Chain.nodup (h : Chain m first bs) : bs.Nodup := by
  induction h with
  | nil => exact List.nodup_nil
  | @cons head bs h ih =>
    refine List.nodup_cons.2 ⟨fun hmem => ?_, ih⟩
    obtain ⟨cs, hcs, hl⟩ := h.from_mem hmem
    have := hcs.unique (.cons h)
    rw [this, List.length_cons] at hl
    omega

theorem follow_eq (h : Chain m first bs) {fuel : Nat} (hf : bs.length ≤ fuel) :
    follow m fuel first = bs := by
  induction h generalizing fuel with
  | nil => cases fuel <;> rfl
  | cons _ ih =>
    cases fuel with
    | zero => simp at hf
    | succ fuel => rw [follow, ih (by simpa using hf)]

theorem toList_eq (h : Chain m l.first bs) (hl : bs.length ≤ Word.count) : l.toList m = bs :=
  follow_eq h hl

theorem chain_push (h : Chain m l.first bs) (hb : base ∉ bs) :
    Chain (l.push m base).2 (l.push m base).1.first (base :: bs) := by
  refine .cons ?_
  have hlink : ((l.push m base).2.block base).link = l.first := by
    simp [push, Memory.block_modifyBlock]
  rw [hlink]
  refine h.congr fun b hmem => ?_
  have : base ≠ b := fun e => hb (e ▸ hmem)
  simp [push, Memory.block_modifyBlock, this]

theorem pop?_eq_none : l.pop? m = none ↔ l.isEmpty := by
  simp [pop?, isEmpty]

/-- The first block of a chain comes off, and the others stay. -/
theorem chain_pop? (h : Chain m l.first (base :: bs)) :
    ∃ rest m', l.pop? m = some (base, rest, m') ∧ Chain m' rest.first bs ∧
      (m'.block base).link = none := by
  have hb := (List.nodup_cons.1 h.nodup).1
  obtain ⟨f⟩ := l
  cases h with
  | cons h =>
    refine ⟨_, _, rfl, h.congr fun b hmem => ?_, ?_⟩
    · have : base ≠ b := fun e => hb (e ▸ hmem)
      simp [Memory.block_modifyBlock, this]
    · simp [Memory.block_modifyBlock]

end BlockList

end SlabHeap
