/-
  What a collection adds to the totals of an arena.

  A `Tally` holds the numbers that a collection adds to the counters.  They are a matter of what
  its roots reach (`Heap.Tallies`): the pointer fields of what is reached and the chains of
  indirections in them, and the blocks in which nothing is.  Markings add the numbers that they
  find (`MarkedBy.tallies`), and fail where a total comes to leave the range of a machine word
  (`marks_count`).  So does a collection, which adds its tally, and where the arena is verbose
  also at a product of its report (`collect_counts`).
-/
import SlabHeap.Proofs.Heap.Remarking

namespace SlabHeap

variable {f : Word → Edge} {h h' t : Heap} {roots done : List Word} {seen : Set Word} {due : Nat}
  {m₁ : Memory} {n : Tally}

/-- What a collection counts: the roots scanned, the pointers followed, the indirections
    replaced and the blocks that lost their owner. -/
structure Tally where
  roots : Nat
  followed : Nat
  collapsed : Nat
  freed : Nat

/-- The counters after one more collection. -/
def Counters.collected (c : Counters) (n : Tally) : Counters where
  collections := c.collections + 1
  objectsAllocated := c.objectsAllocated
  rootsScanned := c.rootsScanned + n.roots
  pointersFollowed := c.pointersFollowed + n.followed
  indirectionsCollapsed := c.indirectionsCollapsed + n.collapsed
  blocksFreed := c.blocksFreed + n.freed

/-- The counters after markings that found what the tally says. -/
def Counters.marked (c : Counters) (n : Tally) : Counters :=
  { c with
    rootsScanned := c.rootsScanned + n.roots
    pointersFollowed := c.pointersFollowed + n.followed
    indirectionsCollapsed := c.indirectionsCollapsed + n.collapsed }

/-- The totals of a collection are those of its marking, and two more. -/
theorem Counters.Overmarked.overflown {c : Counters} (hover : (c.marked n).Overmarked) :
    (c.collected n).Overflown := by
  rcases hover with hroots | hfollowed | hcollapsed
  · exact .inr (.inl hroots)
  · exact .inr (.inr (.inl hfollowed))
  · exact .inr (.inr (.inr (.inl hcollapsed)))

namespace Heap

open Marking (pointerFields followedIn hopsIn)

/-- The tally is that of a collection of the heap with these roots. -/
structure Tallies (f : Word → Edge) (roots : List Word) (h : Heap) (n : Tally) : Prop where
  scanned : n.roots = roots.length
  fields : ∃ fields : List (Word × Nat), fields.Nodup ∧
    (∀ x j, (x, j) ∈ fields ↔ ∃ s base i, h.arena.SlotAt h.memory s base i x ∧
      Reached (Resolves f) h.arena h.memory roots x ∧ j < s.pointers) ∧
    n.followed = followedIn f h.memory fields ∧ n.collapsed = hopsIn f h.memory fields
  freed : ∃ blocks : List Word, blocks.Nodup ∧
    (∀ b, b ∈ blocks ↔ ∃ s, h.arena.Owns h.memory s b ∧ ∀ i < s.slots,
      ¬ Reached (Resolves f) h.arena h.memory roots ((h.memory.block b).slotAddress b i)) ∧
    n.freed = blocks.length

section
variable (hs : h.Sound [] due) (hp : h.arena.Preserved h.memory m₁)
  (hclear : ∀ c ∈ h.arena.caches, ∀ b ∈ c.blocks h.memory,
    Block.Cleared c.shape (h.memory.block b) (m₁.block b))
  (ht : MarkedBy f { h with memory := m₁ } roots done seen t)
include hs hp hclear ht

/-- A marking that follows a clearing counts what the collection does. -/
theorem MarkedBy.tallies : ∃ n, h.Tallies f roots n ∧
    n.freed = (t.arena.dead t.memory).length ∧
    t.arena = { h.arena with counters := h.arena.counters.marked n } := by
  have hs₁ : Heap.Sound { h with memory := m₁ } [] due := hp.sound hs
  have hw := ht.rewritten hs hp hclear
  have hfield : ∀ q ∈ pointerFields m₁ done, m₁.field q.1 q.2 = h.memory.field q.1 q.2 := by
    rintro ⟨x, j⟩ hq
    obtain ⟨s, base, i, hx, -, hj⟩ := (hw.mem x j).1 hq
    exact field_cleared hs hclear hx (hj.trans_le s.pointers_le)
  have hcaches : t.arena.caches = h.arena.caches := by rw [ht.arena]
  refine ⟨⟨roots.length, followedIn f m₁ (pointerFields m₁ done),
    hopsIn f m₁ (pointerFields m₁ done), (t.arena.dead t.memory).length⟩,
    ⟨rfl, ⟨pointerFields m₁ done, hw.nodup, hw.mem, ?_, ?_⟩,
      ⟨t.arena.dead t.memory, ?_, fun b => ?_, rfl⟩⟩, rfl, ht.arena⟩
  · exact List.countP_congr fun q hq => by rw [hfield q hq]
  · exact congrArg List.sum (List.map_congr_left fun q hq => by rw [hfield q hq])
  · exact (ht.sound hs₁).nodup_owned.sublist (Arena.dead_sublist ..)
  · rw [Arena.mem_dead, hcaches]
    constructor
    · rintro ⟨c, hc, hb, hdead⟩
      rw [(hw.preserved.sameLists hs hc).blocks] at hb
      have ho : h.arena.Owns h.memory c.shape b := ⟨c, hc, rfl, hb⟩
      exact ⟨c.shape, ho, (hw.preserved.isDead_iff ho (ht.bits hs hp hclear)).1 hdead⟩
    · rintro ⟨_, ⟨c, hc, rfl, hb⟩, hdead⟩
      refine ⟨c, hc, by rwa [(hw.preserved.sameLists hs hc).blocks], ?_⟩
      exact (hw.preserved.isDead_iff ⟨c, hc, rfl, hb⟩ (ht.bits hs hp hclear)).2 hdead

end

/-- How markings fail: a total of theirs comes to leave the range of a machine word. -/
def Overmarks (f : Word → Edge) (roots : List Word) (h : Heap) (fault : Fault) : Prop :=
  fault = .overflow .add ∧ ∃ n, h.Tallies f roots n ∧ (h.arena.counters.marked n).Overmarked

section
variable (hf : FiniteChains f) (hs : h.Sound [] due)
  (hnone : ∀ x, ¬ h.arena.Marked h.memory h.memory x)
include hs hnone

/-- Where no slot is in use, clearing would change nothing. -/
theorem Sound.cleared : ∀ c ∈ h.arena.caches, ∀ b ∈ c.blocks h.memory,
    Block.Cleared c.shape (h.memory.block b) (h.memory.block b) := by
  intro c hc b hb
  have hserves := (hs.caches c hc).serves b hb
  have hroom : (h.memory.block b).room = c.shape.slots := by
    refine hserves.room_eq_slots.2 fun i hi => Bool.eq_false_iff.2 fun hbit => ?_
    exact hnone _ ⟨c.shape, b, i, ⟨⟨c, hc, rfl, hb⟩, hi, rfl⟩, hbit⟩
  exact ⟨.refl _, rfl, hroom, hserves.bitmap_eq_cleared hroom⟩

theorem MarkedBy.overmarks (ht : MarkedBy f h roots done seen t)
    (hover : t.arena.counters.Overmarked) : h.Overmarks f roots (.overflow .add) := by
  obtain ⟨n, hn, -, harena⟩ := ht.tallies hs (.refl hs) (hs.cleared hnone)
  rw [harena] at hover
  exact ⟨rfl, n, hn, hover⟩

include hf

/-- Markings of a heap without used slots fail only if a total leaves the range of a machine
    word by what the roots of the first ones reach. -/
theorem marks_count (rss : List (List Word)) :
    Meets (rss.forM (mark (.ofWord f))) h
      (fun _ t => ∃ done seen, MarkedBy f h rss.flatten done seen t)
      fun fault _ => ∃ past, past <+: rss ∧ h.Overmarks f past.flatten fault := by
  refine (marks_counted hs rss).mono (fun _ _ => id) ?_
  rintro fault - (⟨rfl, past, hpast, t, ⟨done, seen, ht⟩, hover⟩ | hdiverges)
  · exact ⟨past, hpast, ht.overmarks hs hnone hover⟩
  · exact absurd hdiverges (Fault.not_diverges hf)

theorem mark_counts : Meets (mark (.ofWord f) roots) h (fun _ _ => True)
    fun fault _ => h.Overmarks f roots fault := by
  refine ((MarkedBy.start hs).mark_counted hs).mono (fun _ _ _ => trivial) ?_
  rintro fault - (⟨rfl, t, ⟨done, seen, ht⟩, hover⟩ | hdiverges)
  · exact ht.overmarks hs hnone hover
  · exact absurd hdiverges (Fault.not_diverges hf)

end

/-- A collection that could not be reported: its blocks are swept and its tally was added, but
    it does not count itself. -/
structure Unreported (h : Heap) (n : Tally) (t : Heap) : Prop where
  verbose : h.arena.options.verbose = true
  report : Unreportable t.arena h.arena.blocksInUse
  threshold : t.arena.threshold = h.arena.threshold
  inUse : t.arena.blocksInUse + n.freed = h.arena.blocksInUse
  counters : t.arena.counters =
    { h.arena.counters.collected n with collections := h.arena.counters.collections }

/-- A collection adds its tally to the counters, unless a total comes to leave the range of a
    machine word or the report that the arena asks for cannot be made. -/
theorem collect_counts (hf : FiniteChains f) (hs : h.Sound [] due) :
    Meets (collect (.ofWord f) roots) h
      (fun _ h' => (∃ n, h.Tallies f roots n ∧
          h'.arena.counters = h.arena.counters.collected n) ∧
        (h.arena.options.verbose = true → ¬ Unreportable h'.arena h.arena.blocksInUse))
      fun fault t => (fault = .overflow .add ∧
          ∃ n, h.Tallies f roots n ∧ (h.arena.counters.collected n).Overflown) ∨
        fault = .overflow .multiply ∧ ∃ n, h.Tallies f roots n ∧ h.Unreported n t := by
  rw [collect]
  simp only [meets_bind, meets_get]
  refine (clearUsed_returns hs).meets ?_
  rintro - _ ⟨m₁, rfl, hp, hclear⟩
  have hs₁ : Heap.Sound { h with memory := m₁ } [] due := hp.sound hs
  refine ((MarkedBy.start hs₁).mark_counted hs₁).mono ?_ ?_
  swap
  · rintro fault - (⟨rfl, t, ⟨done, seen, ht⟩, hover⟩ | hdiverges)
    · obtain ⟨n, hn, -, harena⟩ := ht.tallies hs hp hclear
      rw [harena] at hover
      exact .inl ⟨rfl, n, hn, hover.overflown⟩
    · exact absurd hdiverges (Fault.not_diverges hf)
  rintro - h₂ ⟨done, seen, ht⟩
  obtain ⟨n, hn, hfreed, harena⟩ := ht.tallies hs hp hclear
  refine (sweep_counts (ht.sound hs₁)).mono ?_ ?_
  swap
  · rintro fault - ⟨rfl, hover⟩
    rw [← hfreed, harena] at hover
    exact .inl ⟨rfl, n, hn, .inr (.inr (.inr (.inr hover)))⟩
  rintro freed h₃ ⟨hsw, hs₃, hsetup, hinUse, hcounters⟩
  rw [← hfreed, harena] at hinUse hcounters
  have hoptions : h₃.arena.options = h.arena.options := hsetup.options.trans (by rw [harena])
  have hthreshold : h₃.arena.threshold = h.arena.threshold :=
    hsetup.threshold.trans (by rw [harena])
  have hend : ∀ collections, Count.add h₃.arena.counters.collections 1 = .ok collections →
      ({ h₃.arena.counters with collections } : Counters) = h.arena.counters.collected n := by
    intro collections hadd
    obtain ⟨-, rfl⟩ := Count.add_eq_ok.1 hadd
    rw [hcounters]
    rfl
  have hcount : ∀ fault, Count.add h₃.arena.counters.collections 1 = .error fault →
      fault = .overflow .add ∧
        ∃ n, h.Tallies f roots n ∧ (h.arena.counters.collected n).Overflown := by
    intro fault he
    obtain ⟨rfl, hle⟩ := Count.add_eq_error he
    rw [hcounters] at hle
    exact ⟨rfl, n, hn, .inl hle⟩
  simp only [tell, modifyCounters, modifyArena, meets_bind, meets_modify, meets_ite, meets_lift]
  refine ⟨fun hverbose => ⟨fun event hevent => ⟨?_, ?_⟩, ?_⟩, fun hsilent => ⟨?_, ?_⟩⟩
  · intro collections hadd
    have hreport := pauseEvent_eq_ok hevent
    exact ⟨⟨n, hn, hend collections hadd⟩, fun _ => hreport⟩
  · intro fault he
    exact .inl (hcount fault he)
  · intro fault he
    obtain ⟨rfl, hle⟩ := pauseEvent_eq_error he
    refine .inr ⟨rfl, n, hn, hoptions ▸ hverbose, hle, hthreshold, hinUse, ?_⟩
    rw [hcounters]
    rfl
  · intro collections hadd
    exact ⟨⟨n, hn, hend collections hadd⟩, fun hverbose => absurd (hoptions ▸ hverbose) hsilent⟩
  · intro fault he
    exact .inl (hcount fault he)

end Heap

end SlabHeap
