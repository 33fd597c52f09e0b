/-
  What operations do to the words of objects.

  The words of slots lie in the bodies of blocks, which lists, free flags and counts are
  no part of.  A collection therefore changes the words that its marking rewrites, and no
  other word of a slot that it started with (`collect_keeps`); acquiring a block changes
  no more (`acquireBlock_keeps`), and neither does an allocation, which hands out its slot
  with the words that were there (`allocate_keeps`).
-/
import SlabHeap.Proofs.Heap.Rewriting
import SlabHeap.Proofs.Heap.Allocation
import SlabHeap.Proofs.Heap.Stages

namespace SlabHeap

variable {f : Word → Edge} {roots : List Word} {m m' : Memory} {x w b : Word} {i j p : Nat}
  {due index : Nat}

/-- A word is a matter of the body of its block. -/
theorem Block.word_congr {b b' : Block} (h : b'.body = b.body) : b'.word j = b.word j := by
  rw [Block.word, Block.word, h]

theorem Memory.field_congr
    (h : (m'.block (Block.baseOf (fieldAddress x j))).body =
      (m.block (Block.baseOf (fieldAddress x j))).body) : m'.field x j = m.field x j :=
  Block.word_congr h

namespace Heap

variable {h h' h'' : Heap}

/-- What becomes of the word in the field `j` of the object `x`, which has `p` pointer
    fields, on the way from `h` to `h'`: a collection that reaches the object replaces the
    word in a pointer field by the last word of its chain, and nothing else happens. -/
structure Keeps (f : Word → Edge) (roots : List Word) (h h' : Heap) (x : Word) (p j : Nat) :
    Prop where
  same : h'.arena.counters.collections = h.arena.counters.collections ∨
    ¬ Reached (Resolves f) h.arena h.memory roots x ∨ p ≤ j →
    h'.memory.field x j = h.memory.field x j
  last : h'.arena.counters.collections ≠ h.arena.counters.collections →
    Reached (Resolves f) h.arena h.memory roots x → j < p →
    h'.memory.field x j = lastWord f (h.memory.field x j)

/-- What is done to other words does not matter. -/
theorem Keeps.congr (hk : Keeps f roots h h' x p j)
    (hfield : h''.memory.field x j = h'.memory.field x j)
    (hcount : h''.arena.counters.collections = h'.arena.counters.collections) :
    Keeps f roots h h'' x p j := by
  refine ⟨fun hc => ?_, fun hc => ?_⟩
  · rw [hfield]
    rw [hcount] at hc
    exact hk.same hc
  · rw [hfield]
    rw [hcount] at hc
    exact hk.last hc

theorem keeps_of_field (hfield : h'.memory.field x j = h.memory.field x j)
    (hcount : h'.arena.counters.collections = h.arena.counters.collections) :
    Keeps f roots h h' x p j :=
  ⟨fun _ => hfield, fun hc => absurd hcount hc⟩

/-- The words of the slots of `h` are kept, and so are the bodies of blocks without an
    owner. -/
structure KeepsWords (f : Word → Edge) (roots : List Word) (h h' : Heap) : Prop where
  slots : ∀ {s base i x j}, h.arena.SlotAt h.memory s base i x → j < s.size →
    Keeps f roots h h' x s.pointers j
  outside : ∀ b ∉ h.arena.owned h.memory, (h'.memory.block b).body = (h.memory.block b).body

/-- What changes no body changes no word. -/
theorem KeepsWords.body (hk : KeepsWords f roots h h')
    (hbody : ∀ b, (h''.memory.block b).body = (h'.memory.block b).body)
    (hcount : h''.arena.counters.collections = h'.arena.counters.collections) :
    KeepsWords f roots h h'' where
  slots hx hj := (hk.slots hx hj).congr (Memory.field_congr (hbody _)) hcount
  outside b hb := (hbody b).trans (hk.outside b hb)

theorem KeepsWords.refl (h : Heap) : KeepsWords f roots h h where
  slots _ _ := keeps_of_field rfl rfl
  outside _ _ := rfl

theorem KeepsWords.quiet (hk : KeepsWords f roots h h') (hq : h'.Quiet h'') :
    KeepsWords f roots h h'' :=
  hk.body hq.body (congrArg _ hq.counters)

/-- Objects that are the same keep the same words. -/
theorem Keeps.after (hk : Keeps f roots h' h'' x p j) (hso : h.SameObjects h')
    (hcount : h'.arena.counters.collections = h.arena.counters.collections) :
    Keeps f roots h h'' x p j := by
  obtain ⟨hsame, hlast⟩ := hk
  have hfield : h'.memory.field x j = h.memory.field x j :=
    Memory.field_congr (by rw [hso.block])
  rw [hfield, hcount, hso.reached] at hsame hlast
  exact ⟨hsame, hlast⟩

theorem KeepsWords.after (hk : KeepsWords f roots h' h'') (hso : h.SameObjects h')
    (hcount : h'.arena.counters.collections = h.arena.counters.collections) :
    KeepsWords f roots h h'' where
  slots hx hj := (hk.slots (hso.slotAt.2 hx) hj).after hso hcount
  outside b hb := by
    rw [hk.outside b fun hmem => hb (hso.mem_owned.1 hmem), hso.block]

/-! ## Collections -/

/-- A collection rewrites the pointer fields of what it reaches. -/
theorem collect_keeps (hs : h.Sound [] due) (he : collect (.ofWord f) roots h = .ok () h') :
    KeepsWords f roots h h' := by
  cases collect_stages.of_ok he with
  | @swept h₁ h₂ h₃ _ freed hclear hmark hsweep hjournal =>
    obtain ⟨hmemory, harena⟩ := hjournal
    obtain ⟨m₁, rfl, hp, hcleared⟩ := (clearUsed_returns hs).of_ok hclear
    have hs₁ : Heap.Sound { h with memory := m₁ } [] due := hp.sound hs
    obtain ⟨done, seen, hm⟩ := ((MarkedBy.start hs₁).mark hs₁).of_ok hmark
    have hw := hm.rewritten hs hp hcleared
    obtain ⟨hswept, -, -, hcount, -⟩ := (sweep_meets (hm.sound hs₁)).of_ok hsweep
    have hcount' : h'.arena.counters.collections = h.arena.counters.collections + 1 := by
      rw [harena]
      show h₃.arena.counters.collections + 1 = _
      rw [hcount, hm.arena]
    have hbody : ∀ b, (h'.memory.block b).body = (h₂.memory.block b).body := by
      intro b
      rw [hmemory]
      exact hswept.body b
    have hend : ∀ {s base i x j}, h.arena.SlotAt h.memory s base i x → j < s.size →
        h'.memory.field x j = if (x, j) ∈ Marking.pointerFields m₁ done then
          lastWord f (h.memory.field x j) else h.memory.field x j := fun hx hj =>
      (Memory.field_congr (hbody _)).trans (hw.field hx hj)
    refine ⟨fun hx hj => ⟨fun hc => ?_, fun _ hreach hptr => ?_⟩, fun b hb => ?_⟩
    · have hnot := hc.resolve_left (by omega)
      rw [hend hx hj, if_neg fun hin => ?_]
      obtain ⟨hreach, hptr⟩ := (hw.mem_slot hs hx).1 hin
      exact hnot.elim (fun hno => hno hreach) fun hle => absurd hptr (by omega)
    · rw [hend hx hj, if_pos ((hw.mem_slot hs hx).2 ⟨hreach, hptr⟩)]
    · rw [hbody, hw.preserved.changes.block b hb]

/-! ## Allocations -/

/-- Acquiring a block changes no word but by a collection. -/
theorem acquireBlock_keeps (hs : h.Sound [] 0)
    (he : acquireBlock (.ofWord f) roots h = .ok b h') : KeepsWords f roots h h' := by
  have hs₁ : h.countBlock.Sound [] 1 := hs.countBlock
  suffices KeepsWords f roots h.countBlock h' from
    this.after (sameObjects_of_eq rfl rfl) rfl
  cases acquireBlock_stages.of_ok he with
  | reused htake hjournal =>
    obtain ⟨-, -, hq, -⟩ := (takeFreeBlock_returns hs₁).of_ok htake
    refine ((KeepsWords.refl _).quiet hq).body (fun b => ?_) ?_
    · rw [hjournal.1]
    · rw [hjournal.2]
  | sliced _ _ hslice =>
    obtain ⟨-, -, hq, -⟩ := (sliceBlock_meets hs₁).of_ok hslice
    exact (KeepsWords.refl _).quiet hq
  | collected _ _ hcollect hadjust hslice =>
    obtain ⟨-, hs₂, -⟩ := (collect_meets (Tagging.reads_ofWord f) hs₁).of_ok hcollect
    obtain ⟨hs₃, hq, -⟩ := (adjustThreshold_meets hs₂).of_ok hadjust
    obtain ⟨-, -, hq', -⟩ := (sliceBlock_meets hs₃).of_ok hslice
    exact (collect_keeps hs₁ hcollect).quiet (hq.trans hq')

/-- The words of the slots of `h` that are slots of `h'` are kept, and an object that was
    allocated has the words that its slot held before. -/
structure KeepsObjects (f : Word → Edge) (roots : List Word) (h : Heap) (r : Option Word)
    (h' : Heap) : Prop where
  kept : ∀ {s base base' i i' x j}, h.arena.SlotAt h.memory s base i x →
    h'.arena.SlotAt h'.memory s base' i' x → j < s.size → Keeps f roots h h' x s.pointers j
  allocated : ∀ {w s base i j}, r = some w → h'.arena.SlotAt h'.memory s base i w → j < s.size →
    h'.memory.field w j = h.memory.field w j

theorem KeepsObjects.after {r : Option Word} (hk : KeepsObjects f roots h' r h'')
    (hso : h.SameObjects h')
    (hcount : h'.arena.counters.collections = h.arena.counters.collections) :
    KeepsObjects f roots h r h'' where
  kept hx hx' hj := (hk.kept (hso.slotAt.2 hx) hx' hj).after hso hcount
  allocated hr hx hj := (hk.allocated hr hx hj).trans (Memory.field_congr (by rw [hso.block]))

theorem keepsObjects_of_undisturbed (hu : h.Undisturbed h') : KeepsObjects f roots h none h' where
  kept _ _ _ := keeps_of_field (Memory.field_congr (by rw [hu.block])) hu.collections
  allocated hr := nomatch hr

theorem allocate_keeps (hs : h.Sound [] 0)
    (he : allocate (.ofWord f) roots index h = .ok w h') :
    KeepsObjects f roots h (some w) h' := by
  suffices KeepsObjects f roots h.countObject (some w) h' from
    this.after (sameObjects_of_eq rfl rfl) rfl
  obtain ⟨c, -, hprovides⟩ := allocate_provides hs he
  cases hprovides with
  | available _ _ hadds =>
    refine ⟨fun _ hx' hj => keeps_of_field (hadds.words hx' hj) (congrArg _ hadds.counters), ?_⟩
    rintro w s base i j hw hx' hj
    obtain rfl := Option.some.inj hw
    exact hadds.words hx' hj
  | acquired _ hacquire _ _ _ _ hs' hadds hbase =>
    have hk := acquireBlock_keeps hs.countObject hacquire
    obtain ⟨-, -, -, hnew⟩ :=
      (acquireBlock_meets (Tagging.reads_ofWord f) hs.countObject).of_ok hacquire
    refine ⟨fun hx hx' hj => (hk.slots hx hj).congr (hadds.words hx' hj)
      (congrArg _ hadds.counters), ?_⟩
    rintro w s base i j hw hx' hj
    obtain rfl := Option.some.inj hw
    rw [hadds.words hx' hj]
    refine Memory.field_congr (hk.outside _ ?_)
    rwa [(hx'.inside hs' hj).1, ← hx'.baseOf_eq hs', hbase]

theorem keepsObjects_of_keepsWords (hk : KeepsWords f roots h h') :
    KeepsObjects f roots h none h' where
  kept hx _ hj := hk.slots hx hj
  allocated hr := nomatch hr

end Heap

end SlabHeap
