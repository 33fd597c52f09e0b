/-
  Taking over a block whose slots are cleared in any case.

  A block that counts as many free slots as a cache asks for is taken over as it is.
  `Block.adoptCleared` is the plain way, in which every block is cleared, and `adoptBy`
  and `allocateBy` are the operations of caches and heaps that take over blocks in a way
  of choice.

  An idle block that counts as many free slots as a shape has was cleared for a shape with
  as many slots, whose bitmap extends as far, so clearing it again writes what is there
  (`clearUsed_of_cleared`).  Both ways end in the same block (`adopt_eq_adoptCleared`),
  and so in the same cache and memory (`Memory.spares_of_fit`).
-/
import SlabHeap.Proofs.Heap.Allocation

namespace SlabHeap

variable {m : Memory} {base : Word} {s : Shape}

namespace Block

variable {b : Block}

/-- `adopt` with the block cleared in any case. -/
def adoptCleared (shape : Shape) : Action Block Unit := do
  modify (·.stamp shape.layout)
  clearUsed shape.slots
  let _ ← setUsed 0
  modify fun b => { b with room := shape.slots - 1 }

theorem setWord_self (b : Block) (i : Nat) : b.setWord i (b.word i) = b := by
  unfold setWord word
  by_cases hi : headerWords ≤ i
  · have hbody : b.body.setIfInBounds (i - headerWords) ((b.body[i - headerWords]?).getD 0) =
        b.body := by
      ext k hk
      rw [Vector.getElem_setIfInBounds]
      split
      next he => subst he; simp [hk]
      next => rfl
    rw [if_pos hi, if_pos hi, hbody]
  · rw [if_neg hi]

/-- Words that are there already change nothing. -/
theorem setWords_self {b : Block} {ws : List Word} {i : Nat}
    (h : ∀ k (hk : k < ws.length), ws[k] = b.word (i + k)) : b.setWords i ws = b := by
  induction ws generalizing i with
  | nil => rfl
  | cons w ws ih =>
    have hw : w = b.word i := h 0 (by simp)
    rw [setWords, hw, setWord_self]
    refine ih fun k hk => ?_
    have := h (k + 1) (by simpa using hk)
    rwa [List.getElem_cons_succ, ← Nat.add_assoc, Nat.add_right_comm] at this

theorem setBitmap_self (b : Block) : b.setBitmap b.bitmap = b :=
  setWords_self fun k hk => by simp [bitmap]

/-- Clearing a clear block changes nothing. -/
theorem clearUsed_of_cleared (hl : b.layout = s.layout) (hr : b.room = s.slots)
    (hb : b.bitmap = Bitmap.cleared s.slots) : clearUsed s.slots b = .ok () b := by
  have hroom : ({ b with room := s.slots } : Block) = b := by rw [← hr]
  have hself : b.setBitmap (Bitmap.cleared s.slots) = b := by rw [← hb, setBitmap_self]
  have hend : Returns (clearUsed s.slots) b fun _ b' => b' = b := by
    simp only [Returns, clearUsed, meets_bind, meets_modify, meets_get, meets_lift, meets_set,
      hroom, clearAll_bitmap hl, Except.ok.injEq, forall_eq', reduceCtorEq, false_imp_iff,
      implies_true, and_true, hself]
  obtain ⟨⟨⟩, b', he, rfl⟩ := hend.exists_ok
  exact he

/-- A block that is fit is taken over alike in both ways. -/
theorem adopt_eq_adoptCleared (h : b.Fit) : adopt s b = adoptCleared s b := by
  rw [adopt, adoptCleared]
  refine Meets.bind_congr ?_
  rw [meets_modify]
  show (if b.room ≠ s.slots then _ else _ : Action Block Unit) (b.stamp s.layout) = _
  by_cases hr : b.room = s.slots
  · have hidle : b.Idle := by
      have hpos := s.slots_pos
      exact h.resolve_right (by omega)
    have hclear : clearUsed s.slots (b.stamp s.layout) = .ok () (b.stamp s.layout) :=
      clearUsed_of_cleared rfl hr (hidle.bitmap_stamp hr)
    rw [if_neg (not_not.2 hr)]
    simp only [bind, EStateM.bind, hclear]
  · rw [if_pos hr]

end Block

namespace Cache

variable {c : Cache} {take take' : Shape → Action Block Unit}

/-- `adopt` with a block that is put under the cache by `take`. -/
def adoptBy (take : Shape → Action Block Unit) (base : Word) : Action (Cache × Memory) Word := do
  let (c, _) ← get
  onBlock base (take c.shape)
  let (c, m) ← get
  if c.shape.slots = 1 then
    let (full, m) := c.full.push m base
    set ({ c with full }, m)
  else
    let (available, m) := c.available.push m base
    set ({ c with available }, m)
  return (m.block base).slotAddress base 0

theorem adopt_eq_adoptBy : adopt = adoptBy Block.adopt := rfl

/-- What is done to the block is all that matters. -/
theorem adoptBy_congr (h : take c.shape (m.block base) = take' c.shape (m.block base)) :
    adoptBy take base (c, m) = adoptBy take' base (c, m) := by
  have hblock : onBlock base (take c.shape) (c, m) = onBlock base (take' c.shape) (c, m) := by
    simp only [onBlock, Memory.onBlock, Action.zoom, h]
  rw [adoptBy, adoptBy]
  refine Meets.bind_congr (x := get) ?_
  rw [meets_get]
  simp only [bind, EStateM.bind, hblock]

end Cache

/-- Every cache that takes over the block at `b` ends the same, whether or not it clears
    the block. -/
def Memory.SparesClearing (m : Memory) (b : Word) : Prop :=
  ∀ c : Cache, ∃ w end', Cache.adopt b (c, m) = .ok w end' ∧
    Cache.adoptBy Block.adoptCleared b (c, m) = .ok w end'

theorem Memory.spares_of_fit (h : (m.block base).Fit) : m.SparesClearing base := by
  intro c
  have hret : Returns (Cache.adopt base) (c, m) fun _ _ => True := by
    rw [Cache.adopt]
    simp only [Returns, meets_bind, meets_get, Cache.meets_onBlock, meets_ite, meets_set,
      meets_pure]
    exact (Block.adopt_returns h).meets fun _ _ _ => ⟨fun _ => trivial, fun _ => trivial⟩
  obtain ⟨w, end', he, -⟩ := hret.exists_ok
  refine ⟨w, end', he, ?_⟩
  rw [← he, Cache.adopt_eq_adoptBy]
  exact Cache.adoptBy_congr (Block.adopt_eq_adoptCleared h).symm

namespace Heap

variable {h : Heap} {tagging : Tagging} {roots : List Word} {index : Nat}

/-- `allocate` with blocks that are put under the cache by `take`. -/
def allocateBy (take : Shape → Action Block Unit) (tagging : Tagging) (roots : List Word)
    (index : Nat) : Action Heap Word := do
  let allocated ← Count.add (← get).arena.counters.objectsAllocated 1
  modifyCounters ({ · with objectsAllocated := allocated })
  match ← onCache index Cache.takeSlot with
  | some object => return object
  | none =>
    let block ← acquireBlock tagging roots
    onCache index (Cache.adoptBy take block)

theorem allocate_eq_allocateBy : allocate = allocateBy Block.adopt := rfl

/-- A cache takes over a block that is fit alike in both ways. -/
theorem onCache_adoptBy {b : Word} (hfit : (h.memory.block b).Fit) :
    onCache index (Cache.adoptBy Block.adopt b) h =
      onCache index (Cache.adoptBy Block.adoptCleared b) h := by
  rw [onCache, onCache]
  refine Meets.bind_congr (x := get) ?_
  rw [meets_get]
  cases h.arena.caches[index]? with
  | none => rfl
  | some c =>
    have heq := Cache.adoptBy_congr (c := c)
      (Block.adopt_eq_adoptCleared (s := c.shape) hfit)
    simp only [Action.zoom, heq]

/-- In a sound heap, allocations of both kinds agree. -/
theorem allocate_eq_cleared (hs : h.Sound [] 0) :
    allocate tagging roots index h = allocateBy Block.adoptCleared tagging roots index h := by
  rw [allocate_eq_allocateBy, allocateBy, allocateBy]
  refine Meets.bind_congr (x := get) ?_
  rw [meets_get]
  refine Meets.bind_congr ?_
  rw [meets_lift]
  refine ⟨fun allocated _ => ?_, fun _ _ => trivial⟩
  refine Meets.bind_congr ?_
  simp only [modifyCounters, modifyArena, meets_modify]
  have hs₁ : Heap.Sound { h with arena := { h.arena with
      counters := { h.arena.counters with objectsAllocated := allocated } } } [] 0 :=
    hs.of_eq rfl rfl rfl rfl
  generalize ({ h with arena := { h.arena with
      counters := { h.arena.counters with objectsAllocated := allocated } } } : Heap) = h₁ at hs₁ ⊢
  refine Meets.bind_congr ?_
  cases hc : h₁.arena.caches[index]? with
  | none =>
    simp only [onCache, meets_bind, meets_get, hc, meets_throw]
  | some c =>
    refine (takeSlot_meets hs₁ hc).mono ?_ fun _ _ _ => trivial
    rintro r h₂ (⟨rfl, rfl⟩ | ⟨w, rfl, -⟩)
    · refine Meets.bind_congr ((acquireBlock_meets tagging.reads_any hs₁).mono ?_
        fun _ _ _ => trivial)
      rintro b h₃ ⟨-, hfit, -, -⟩
      exact onCache_adoptBy hfit
    · rfl

end Heap

end SlabHeap
