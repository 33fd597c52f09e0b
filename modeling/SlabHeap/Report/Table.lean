/-
  Reports: texts that show the blocks of caches and arenas.

  `Arena.dump` is the table of all caches, one block a line, for people;
  `Cache.summary` and `Arena.freeSummary` are one line each, in which a block is
  its number, its count of free slots and its hint.
-/
import SlabHeap.Report.Legend

namespace SlabHeap

/-- A text in a column of a given width, at its right edge. -/
def rightAligned (width : Nat) (text : String) : String :=
  String.ofList (List.replicate (width - text.length) ' ') ++ text

namespace Cache

/-- The line of the table for a block; `mark` tells its list. -/
def row (block room hint mark : String) : String :=
  " ".intercalate [rightAligned 20 block, rightAligned 9 room, rightAligned 9 hint, mark] ++ "\n"

/-- The lines of the table for the blocks of a list. -/
def rows (pointer : Word → String) (m : Memory) (l : BlockList) (mark : String) : String :=
  String.join ((l.toList m).map fun base =>
    let b := m.block base
    row (pointer base) (toString b.room) (toString b.hint) mark)

/-- The table of the blocks of a cache. -/
def text (c : Cache) (pointer : Word → String) (m : Memory) : String :=
  s!"num_entries: {c.shape.slots}\n"
    ++ s!"  header: {c.shape.headerBytes} bytes\n"
    ++ s!"  size: {c.shape.size} words\n"
    ++ s!"  nptrs: {c.shape.pointers} words\n"
    ++ row "block" "num_free" "next_free" "status"
    ++ rows pointer m c.available "P"
    ++ "  full_blocks:\n"
    ++ rows pointer m c.full "F"

end Cache

namespace Arena

/-- The tables of all caches. -/
def dump (a : Arena) (pointer : Word → String) (m : Memory) : String :=
  String.join (a.caches.zipIdx.map fun (c, index) => s!"cache #{index} " ++ c.text pointer m)

/-- The blocks of a list with their numbers, counts and hints. -/
def listSummary (a : Arena) (m : Memory) (l : BlockList) : String :=
  " ".intercalate ((l.toList m).map fun base =>
    let b := m.block base
    let number := (Legend.blockNumber? a base).getD 0
    s!"{number}:{b.room}/{b.hint}")

/-- The shape of a cache and its blocks. -/
def cacheSummary (a : Arena) (m : Memory) (c : Cache) : String :=
  s!"{c.shape.size},{c.shape.pointers}"
    ++ " P[" ++ a.listSummary m c.available ++ "] F[" ++ a.listSummary m c.full ++ "]"

/-- The caches of an arena and its blocks without an owner, one line each. -/
def summary (a : Arena) (m : Memory) : List String :=
  a.caches.map (a.cacheSummary m) ++ ["free[" ++ a.listSummary m a.free ++ "]"]

end Arena

end SlabHeap
