/-
  The slots that a program draws from a cache.

  While no collection runs, a program finds the free slots of a cache first, each once, and
  the slots of new blocks from then on, in their order (`slots_are_drawn_in_order`), whatever
  it does beside with other caches.  So a cache takes over no block before all of its slots are
  in use, and no more blocks than its objects need.
-/
import SlabHeap.Proofs.Heap.Giving
import SlabHeap.Proofs.Run.Course
import SlabHeap.Proofs.Run.Stages

namespace SlabHeap

variable {tagging : Tagging} {past more : List Step} {start h h' : Heap} {op : Operation}
  {r : Option Word} {index : Nat} {c : Cache}

/-! ## Steps -/

theorem Cache.Gives.after {m m₁ m' : Memory} {c' : Cache} (hg : c.Gives m₁ r c' m')
    (hr : c.Rests m m₁) : c.Gives m r c' m' := by
  cases hg with
  | nothing hr' => exact .nothing (hr.trans hr')
  | available hr' hk ha => exact .available (hr.trans hr') hk ha
  | acquired hr' hk hnone ht => exact .acquired (hr.trans hr') hk hnone ht

/-- A step without a collection takes a slot from one cache at most, and leaves the others
    alone. -/
theorem Operation.Ends.gives (he : op.Ends tagging h r h') (hs : h.Sound [] 0)
    (hwhole : op.IsWhole) (hfit : op.Fits h) (hspared : ¬ Step.Collects ⟨op, h, r, h'⟩)
    (hc : h.arena.caches[index]? = some c) : ∃ c', h'.arena.caches[index]? = some c' ∧
      c.Gives h.memory (if op.cache? h = some index then r else none) c' h'.memory := by
  have hmem := List.mem_of_getElem? hc
  have hcount : h'.arena.counters.collections = h.arena.counters.collections :=
    Decidable.not_not.1 hspared
  cases he.stages hs hwhole with
  | idle _ hu =>
    refine ⟨c, hu.cache hc, ?_⟩
    rw [ite_self]
    exact .nothing (hu.rests hs hmem)
  | allocated _ hcache hs₁ hu hallocate =>
    obtain ⟨c', hc', hg⟩ := Heap.allocate_gives hs₁ (hu.cache hc) hallocate
      (hcount.trans hu.collections.symm)
    refine ⟨c', hc', ?_⟩
    simp only [hcache, Option.some.injEq]
    exact hg.after (hu.rests hs hmem)
  | collected _ hcollect =>
    obtain ⟨-, -, hacc⟩ := (Heap.collect_meets tagging.reads_any hs).of_ok hcollect
    have hmore := hacc.collections
    omega
  | @wrote object w field hop =>
    subst hop
    obtain ⟨s, base, i, hx, hfield⟩ := hfit
    obtain ⟨hp, hheader, -⟩ := (Arena.Preserved.refl hs).setField (w := w) hs hx hfield
    exact ⟨c, hc, .nothing ⟨hp.sameLists hs hmem, fun b _ => hheader b⟩⟩

/-- The slot that a cache gave in a step. -/
def Step.given? (index : Nat) (s : Step) : Option Word :=
  if s.op.cache? s.before = some index then s.result else none

/-- The slots that a cache gave along some steps, the first one first. -/
def drawnFrom (index : Nat) : List Step → List Word
  | [] => []
  | s :: more => drawnFrom index more ++ (s.given? index).toList

/-! ## Stretches -/

/-- A program came from `start`, by whole operations on slots and without a collection, to a
    heap. -/
inductive Stretch (tagging : Tagging) (start : Heap) : List Step → Heap → Prop
  | refl : Stretch tagging start [] start
  | step {more : List Step} {h h' : Heap} {op : Operation} {r : Option Word} :
    Stretch tagging start more h → op.IsWhole → op.Fits h → op.Ends tagging h r h' →
    ¬ Step.Collects ⟨op, h, r, h'⟩ → Stretch tagging start (⟨op, h, r, h'⟩ :: more) h'

/-- A stretch starts wherever a run has come to. -/
theorem Run.stretch (_ : Run tagging anySlots past h) : Stretch tagging h [] h := .refl

namespace Stretch

/-- A program goes on with an operation that returns and runs no collection. -/
theorem next (hst : Stretch tagging start more h) (op : Operation) (r : Option Word)
    (hwhole : op.IsWhole) (hfit : op.Fits h) (hret : op.returned? tagging h = some r)
    (hcount : (op.after tagging h).arena.counters.collections =
      h.arena.counters.collections) :
    Stretch tagging start (⟨op, h, r, op.after tagging h⟩ :: more) (op.after tagging h) :=
  hst.step hwhole hfit (.returned (Operation.run_of_returned? hret)) fun hno => hno hcount

theorem run (hst : Stretch tagging start more h) (hr : Run tagging anySlots past start) :
    Run tagging anySlots (more ++ past) h := by
  induction hst with
  | refl => exact hr
  | step _ _ hfit he _ ih => exact .step ih hfit he

theorem settled (hst : Stretch tagging start more h) (hset : SlabHeap.settled past = true) :
    SlabHeap.settled (more ++ past) = true := by
  induction hst with
  | refl => exact hset
  | step _ hwhole _ _ _ ih =>
    rw [List.cons_append, SlabHeap.settled, ih]
    exact hwhole.settled

/-- What a cache has given along a stretch of a run. -/
theorem drawn (hst : Stretch tagging start more h) (hr : Run tagging anySlots past start)
    (hset : SlabHeap.settled past = true) (hc : start.arena.caches[index]? = some c) :
    ∃ c' bs, h.arena.caches[index]? = some c' ∧
      c.Drawn start.memory c' h.memory (drawnFrom index more) bs := by
  induction hst with
  | refl => exact ⟨c, [], hc, .refl c _⟩
  | step hst hwhole hfit he hspared ih =>
    obtain ⟨c₁, bs, hc₁, hd⟩ := ih
    have hs := (hst.run hr).sound
    have hmem := List.mem_of_getElem? hc₁
    obtain ⟨c', hc', hg⟩ := he.gives hs hwhole hfit hspared hc₁
    obtain ⟨bs', hd'⟩ := hd.step ((hst.run hr).placed (hst.settled hset) c₁ hmem)
      ((List.nodup_flatMap.1 hs.nodup_owned).1 c₁ hmem) hg
    exact ⟨c', bs', hc', hd'⟩

end Stretch

/-- Every free slot is used once before a block is taken over.  Along a stretch without a
    collection, a cache gives its free slots, each once, and then those of new blocks in their
    order; the blocks that are full are on its list for these.  An allocation acquires a block
    just if all slots are in use, and returns an object without one otherwise. -/
theorem slots_are_drawn_in_order (hr : Run tagging anySlots past h) (hset : settled past = true)
    (hc : h.arena.caches[index]? = some c) (hst : Stretch tagging h more h') :
    (c.freeSlots h.memory).Nodup ∧ ∃ c' bs, h'.arena.caches[index]? = some c' ∧
      c.DrawnInOrder h.memory c' h'.memory (drawnFrom index more) bs ∧
      bs.Nodup ∧ (∀ b ∈ bs, b ∉ c.blocks h.memory) ∧
      (c.blocks h.memory = [] → (c'.blocks h'.memory).length =
        ((drawnFrom index more).length + (c.shape.slots - 1)) / c.shape.slots) ∧
      ∀ roots, h'.arena.counters.objectsAllocated + 1 < Word.count →
        if (c.freeSlots h.memory).length ≤ (drawnFrom index more).length ∧
          c.shape.slots ∣ (drawnFrom index more).length - (c.freeSlots h.memory).length then
          Heap.allocate tagging roots index h' = (Heap.acquireBlock tagging roots >>= fun b =>
            Heap.onCache index (Cache.adopt b)) h'.countObject
        else ∃ w h'', Heap.allocate tagging roots index h' = .ok w h'' ∧
          h''.arena.directory = h'.arena.directory ∧
          h''.arena.blocksInUse = h'.arena.blocksInUse := by
  obtain ⟨c', bs, hc', hd⟩ := hst.drawn hr hset hc
  have hs' := (hst.run hr).sound
  have hmem' := List.mem_of_getElem? hc'
  have hp' := (hst.run hr).placed (hst.settled hset) c' hmem'
  have horder := hd.inOrder
  have hnd := horder.blocks.nodup_iff.1 ((List.nodup_flatMap.1 hs'.nodup_owned).1 c' hmem')
  obtain ⟨hnd, -, hapart⟩ := List.nodup_append.1 hnd
  refine ⟨hr.sound.nodup_freeSlots (List.mem_of_getElem? hc), c', bs, hc', horder, hnd,
    fun b hb hb' => hapart b hb b hb' rfl, fun hempty => ?_, fun roots hcount => ?_⟩
  · have hfree : c.freeSlots h.memory = [] := by
      rw [Cache.freeSlots, hempty, List.flatMap_nil]
    have hlen := horder.count
    rw [hfree, List.length_nil, Nat.sub_zero] at hlen
    rw [horder.blocks.length_eq, hempty, List.append_nil, hlen]
  · have hiff := hd.available_eq_nil (hs'.caches c' hmem') hp'
    split
    next hall => exact Heap.allocate_acquires hs' hc' hp' (hiff.2 hall) hcount
    next hmore =>
      exact Heap.allocate_available hs' hc' hp' (fun hnone => hmore (hiff.1 hnone)) hcount

/-- Blocks of three slots each: one with a hole in front of a live object and one behind it, and
    a new one that follows, while another cache takes a block as well. -/
theorem slots_are_drawn_in_order_of_two : ∃ past more h h' c c' bs,
    Run .untagged anySlots past h ∧ settled past = true ∧ h.arena.caches[0]? = some c ∧
    Stretch .untagged h more h' ∧ c.freeSlots h.memory = [1048600, 1050520] ∧
    drawnFrom 0 more = [1048600, 1050520, 1056792] ∧ h'.arena.caches[0]? = some c' ∧
    c.DrawnInOrder h.memory c' h'.memory [1048600, 1050520, 1056792] bs ∧ bs.length = 1 := by
  suffices hrun : ∃ past more h h', Run .untagged anySlots past h ∧ settled past = true ∧
      Stretch .untagged h more h' ∧
      (h.arena.caches[0]?.map fun c => (c.freeSlots h.memory, c.shape.slots)) =
        some ([1048600, 1050520], 3) ∧
      drawnFrom 0 more = [1048600, 1050520, 1056792] by
    obtain ⟨past, more, h, h', hr, hset, hst, hfree, hdrawn⟩ := hrun
    obtain ⟨c, hc, heq⟩ := Option.map_eq_some_iff.1 hfree
    obtain ⟨hslots, hthree⟩ := Prod.mk.inj heq
    obtain ⟨-, c', bs, hc', horder, -⟩ := slots_are_drawn_in_order hr hset hc hst
    have hcount := horder.count
    rw [hdrawn] at horder hcount
    rw [hslots, hthree] at hcount
    exact ⟨past, more, h, h', c, c', bs, hr, hset, hc, hst, hslots, hdrawn, hc', horder, hcount⟩
  have h₀ : Run .untagged anySlots [] (.fresh 1 .standard) :=
    .start (Heap.initial_fresh (by decide) (by decide))
  have h₁ := h₀.next (.allocateWords 120 0 []) (some 1048600) trivial (by decide +kernel)
  have h₂ := h₁.next (.allocate 0 []) (some 1049560) trivial (by decide +kernel)
  have h₃ := h₂.next (.collect [1049560]) none trivial (by decide +kernel)
  have s₁ := h₃.stretch.next (.allocate 0 []) (some 1048600) trivial trivial
    (by decide +kernel) (by decide +kernel)
  have s₂ := s₁.next (.allocateWords 200 3 []) (some 1052696) trivial trivial
    (by decide +kernel) (by decide +kernel)
  have s₃ := s₂.next (.resolve 10 1) none trivial trivial (by decide +kernel) (by decide +kernel)
  have s₄ := s₃.next (.allocateWords 120 0 []) (some 1050520) trivial trivial
    (by decide +kernel) (by decide +kernel)
  have s₅ := s₄.next (.allocate 0 []) (some 1056792) trivial trivial
    (by decide +kernel) (by decide +kernel)
  exact ⟨_, _, _, _, h₃, rfl, s₅, by decide +kernel, by decide +kernel⟩

end SlabHeap
