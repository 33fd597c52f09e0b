/-
  Directories: the megablocks of an arena.

  The megablocks are kept by falling start address, so the first one that does
  not start behind an address is the only one that can hold it.  This is
  `holding?`, and `insert` keeps the order (`ordered_insert`).
-/
import SlabHeap.Memory.Megablock

namespace SlabHeap

/-- The megablocks of an arena, by falling start address. -/
structure Directory where
  megablocks : List Megablock
deriving DecidableEq, Repr

namespace Directory

/-- The directory without megablocks. -/
def empty : Directory := ⟨[]⟩

/-- The number of megablocks. -/
def size (d : Directory) : Nat :=
  d.megablocks.length

/-- Puts a megablock at its place, instead of one with the same start. -/
def insertInto (mb : Megablock) : List Megablock → List Megablock
  | [] => [mb]
  | other :: rest =>
    if other.base < mb.base then mb :: other :: rest
    else if other.base = mb.base then mb :: rest
    else other :: insertInto mb rest

/-- The directory with a megablock added, instead of one with the same start. -/
def insert (d : Directory) (mb : Megablock) : Directory :=
  ⟨insertInto mb d.megablocks⟩

/-- The megablock that starts at an address. -/
def startingAt? (d : Directory) (base : Word) : Option Megablock :=
  d.megablocks.find? (·.base == base)

/-- The megablock that holds an address. -/
def holding? (d : Directory) (address : Word) : Option Megablock :=
  (d.megablocks.find? (·.base ≤ address)).filter (·.contains address)

/-- The megablock that was mapped after `number` others. -/
def numbered? (d : Directory) (number : Nat) : Option Megablock :=
  d.megablocks.find? (·.number == number)

/-! ## The order of a directory -/

/-- A directory is ordered if its megablocks start at falling addresses. -/
def Ordered (d : Directory) : Prop :=
  d.megablocks.Pairwise fun a b => b.base < a.base

theorem mem_insertInto {mb other : Megablock} {l : List Megablock}
    (h : other ∈ insertInto mb l) : other = mb ∨ other ∈ l := by
  induction l with
  | nil => simpa [insertInto] using h
  | cons x l ih =>
    unfold insertInto at h
    split at h
    · simpa using h
    split at h
    · rcases List.mem_cons.1 h with h | h
      · exact .inl h
      · exact .inr (List.mem_cons_of_mem _ h)
    · rcases List.mem_cons.1 h with h | h
      · exact .inr (h ▸ List.mem_cons_self ..)
      · exact (ih h).imp_right (List.mem_cons_of_mem _)

theorem ordered_insert {d : Directory} (h : d.Ordered) (mb : Megablock) :
    (d.insert mb).Ordered := by
  obtain ⟨l⟩ := d
  simp only [Ordered, insert] at h ⊢
  induction l with
  | nil => simp [insertInto]
  | cons x l ih =>
    obtain ⟨hx, hl⟩ := List.pairwise_cons.1 h
    unfold insertInto
    split
    · next hlt =>
      refine List.pairwise_cons.2 ⟨fun y hy => ?_, h⟩
      rcases List.mem_cons.1 hy with rfl | hy
      · exact hlt
      · exact UInt64.lt_trans (hx y hy) hlt
    split
    · next heq =>
      exact List.pairwise_cons.2 ⟨fun y hy => heq ▸ hx y hy, hl⟩
    · next hlt heq =>
      refine List.pairwise_cons.2 ⟨fun y hy => ?_, ih hl⟩
      rcases mem_insertInto hy with rfl | hy
      · rcases UInt64.lt_or_lt_of_ne heq with h' | h'
        · exact absurd h' hlt
        · exact h'
      · exact hx y hy

end Directory

end SlabHeap
