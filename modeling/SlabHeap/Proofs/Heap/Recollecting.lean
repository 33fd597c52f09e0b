/-
  Collections with the same roots.

  What a collection leaves is `Tidy` (`collect_tidy`): the slots in use are those that the
  roots reach, the pointer fields of these hold no indirection, and every block is on the list
  that the count of its free slots asks for.  In a tidy heap, clearing and marking lead back to
  the same blocks (`Tidy.block_eq`), so that a sweep finds none to free and puts the others on
  the lists where they were (`Tidy.swept`).  The tally of such a collection is that of the one
  before it, but for the indirections and the blocks that are gone (`Tally.again`).
-/
import SlabHeap.Proofs.Heap.Totals
import SlabHeap.Proofs.Heap.Words

namespace SlabHeap

variable {f : Word → Edge} {h h' t : Heap} {roots : List Word} {due : Nat} {a : Arena}
  {m : Memory} {n n' : Tally} {c : Cache} {w x : Word}

/-! ## Words at the end of a chain -/

namespace FiniteChains

variable (hf : FiniteChains f)
include hf

/-- The last word of a chain is a chain of its own. -/
theorem lastWord_single (w : Word) : lastWord f (lastWord f w) = lastWord f w ∧
    hops f (lastWord f w) = 0 := by
  obtain ⟨ws, o, ht⟩ := hf w
  exact ht.at_end.lastWord_single

theorem endsAtObject_lastWord (w : Word) : endsAtObject f (lastWord f w) = endsAtObject f w := by
  obtain ⟨ws, o, ht⟩ := hf w
  rw [ht.endsAtObject_eq, ht.at_end.endsAtObject_eq]

theorem resolves_lastWord : Resolves f (lastWord f w) x ↔ Resolves f w x := by
  obtain ⟨ws, o, ht⟩ := hf w
  exact ht.resolves_lastWord

end FiniteChains

/-! ## Blocks on their lists -/

namespace Cache

theorem Placed.isDead (hp : c.Placed m) (hb : w ∈ c.blocks m) : Sweep.isDead m c w = false := by
  rw [Sweep.isDead, beq_eq_false_iff_ne]
  rcases mem_blocks.1 hb with ha | hfull
  · exact (hp.available w ha).2.ne
  · rw [hp.full w hfull]
    exact c.shape.slots_pos.ne

theorem Placed.filter_isFull (hp : c.Placed m) :
    (c.blocks m).filter (Sweep.isFull m) = c.full.toList m := by
  rw [blocks, List.filter_append, List.filter_eq_nil_iff.2, List.filter_eq_self.2, List.nil_append]
  · intro b hb
    simp only [Sweep.isFull, hp.full b hb, beq_self_eq_true]
  · intro b hb
    simp only [Sweep.isFull, beq_iff_eq, (hp.available b hb).1.ne', not_false_eq_true]

theorem Placed.filter_isPartial (hp : c.Placed m) :
    (c.blocks m).filter (Sweep.isPartial m c) = c.available.toList m := by
  have hdead : ∀ b ∈ c.blocks m, Sweep.isPartial m c b = !Sweep.isFull m b := fun b hb => by
    rw [Sweep.isPartial, hp.isDead hb, Bool.not_false, Bool.and_true]
  rw [List.filter_congr hdead, blocks, List.filter_append, List.filter_eq_self.2,
    List.filter_eq_nil_iff.2, List.append_nil]
  · intro b hb
    simp only [Sweep.isFull, hp.full b hb, beq_self_eq_true, Bool.not_true, Bool.false_eq_true,
      not_false_eq_true]
  · intro b hb
    simp only [Sweep.isFull, Bool.not_eq_true', beq_eq_false_iff_ne, (hp.available b hb).1.ne',
      ne_eq, not_false_eq_true]

end Cache

theorem Arena.dead_eq_nil (hp : ∀ c ∈ a.caches, c.Placed m) : a.dead m = [] := by
  rw [List.eq_nil_iff_forall_not_mem]
  intro b hb
  obtain ⟨c, hc, hmem, hdead⟩ := Arena.mem_dead.1 hb
  rw [(hp c hc).isDead hmem] at hdead
  cases hdead

/-- The tally of another collection: it finds as many pointers, and neither indirections nor
    blocks without an object. -/
def Tally.again (n : Tally) : Tally := { n with collapsed := 0, freed := 0 }

namespace Heap

/-! ## What a collection leaves -/

/-- A heap as a collection with these roots leaves it. -/
structure Tidy (f : Word → Edge) (roots : List Word) (h : Heap) : Prop where
  used : ∀ {s base i x}, h.arena.SlotAt h.memory s base i x →
    ((h.memory.block base).bitmap.bit i = true ↔ Reached (Resolves f) h.arena h.memory roots x)
  direct : ∀ {s base i x j}, h.arena.SlotAt h.memory s base i x →
    Reached (Resolves f) h.arena h.memory roots x → j < s.pointers →
    lastWord f (h.memory.field x j) = h.memory.field x j ∧ hops f (h.memory.field x j) = 0
  placed : ∀ c ∈ h.arena.caches, c.Placed h.memory

section
variable (hf : FiniteChains f) (hs : h.Sound [] due) (hs' : h'.Sound [] due)
  (hcol : Collected (Reached (Resolves f) h.arena h.memory roots) h h')
  (hfield : ∀ {s base i x j}, h.arena.SlotAt h.memory s base i x →
    Reached (Resolves f) h.arena h.memory roots x → j < s.pointers →
    h'.memory.field x j = lastWord f (h.memory.field x j))
include hf hs hs' hcol hfield

/-- After a collection that replaced the words in fields by the last ones of their chains, the
    roots reach what they reached. -/
theorem Collected.reached : Reached (Resolves f) h'.arena h'.memory roots x ↔
    Reached (Resolves f) h.arena h.memory roots x := by
  have hslot : ∀ {s base i x}, h'.arena.SlotAt h'.memory s base i x →
      h.arena.SlotAt h.memory s base i x := hcol.slotAt hs hs'
  constructor
  · intro hx
    induction hx with
    | root hr hres hx => exact .root hr hres (hslot hx)
    | field _ hx hj hres hy ih =>
      rw [hfield (hslot hx) ih hj, hf.resolves_lastWord] at hres
      exact .field ih (hslot hx) hj hres (hslot hy)
  · intro hx
    induction hx with
    | root hr hres hx => exact .root hr hres (hcol.slotAt_kept hs hs' hx (.root hr hres hx))
    | field hreach hx hj hres hy ih =>
      have hres' := hf.resolves_lastWord.2 hres
      rw [← hfield hx hreach hj] at hres'
      exact .field ih (hcol.slotAt_kept hs hs' hx hreach) hj hres'
        (hcol.slotAt_kept hs hs' hy (.field hreach hx hj hres hy))

theorem Collected.tidy : h'.Tidy f roots where
  used hx := (hcol.bits hx).trans (hcol.reached hf hs hs' hfield).symm
  direct hx hreach hj := by
    have hreach' := (hcol.reached hf hs hs' hfield).1 hreach
    rw [hfield (hcol.slotAt hs hs' hx) hreach' hj]
    exact hf.lastWord_single _
  placed := hcol.placed

/-- The collection follows as many pointers the next time. -/
theorem Collected.followed (hn : h.Tallies f roots n) (hn' : h'.Tallies f roots n') :
    n'.followed = n.followed := by
  obtain ⟨fields, hnd, hmem, hfollowed, -⟩ := hn.fields
  obtain ⟨fields', hnd', hmem', hfollowed', -⟩ := hn'.fields
  have hiff : ∀ p, p ∈ fields' ↔ p ∈ fields := by
    rintro ⟨x, j⟩
    rw [hmem, hmem']
    simp only [hcol.reached hf hs hs' hfield]
    constructor
    · rintro ⟨s, base, i, hx, hreach, hj⟩
      exact ⟨s, base, i, hcol.slotAt hs hs' hx, hreach, hj⟩
    · rintro ⟨s, base, i, hx, hreach, hj⟩
      exact ⟨s, base, i, hcol.slotAt_kept hs hs' hx hreach, hreach, hj⟩
  have hperm : fields'.Perm fields := (List.perm_ext_iff_of_nodup hnd' hnd).2 hiff
  rw [hfollowed, hfollowed']
  refine (hperm.countP_eq _).trans (List.countP_congr ?_)
  rintro ⟨x, j⟩ hp
  obtain ⟨s, base, i, hx, hreach, hj⟩ := (hmem x j).1 hp
  rw [hfield hx hreach hj, hf.endsAtObject_lastWord]

end

/-- In a tidy heap, a collection finds neither indirections nor blocks without an object. -/
theorem Tidy.tallies (ht : h.Tidy f roots) (hs : h.Sound [] due) (hn : h.Tallies f roots n) :
    n.collapsed = 0 ∧ n.freed = 0 := by
  obtain ⟨fields, -, hmem, -, hcollapsed⟩ := hn.fields
  obtain ⟨blocks, -, hmemb, hfreed⟩ := hn.freed
  constructor
  · rw [hcollapsed]
    refine List.sum_eq_zero fun k hk => ?_
    obtain ⟨⟨x, j⟩, hp, rfl⟩ := List.mem_map.1 hk
    obtain ⟨s, base, i, hx, hreach, hj⟩ := (hmem x j).1 hp
    exact (ht.direct hx hreach hj).2
  · rw [hfreed, List.length_eq_zero_iff, List.eq_nil_iff_forall_not_mem]
    intro b hb
    obtain ⟨s, ho, hnone⟩ := (hmemb b).1 hb
    obtain ⟨c, hc, rfl, hblock⟩ := ho
    have hdead := (ht.placed c hc).isDead hblock
    rw [Sweep.isDead, beq_eq_false_iff_ne, ne_eq,
      ((hs.caches c hc).serves b hblock).room_eq_slots] at hdead
    refine hdead fun i hi => ?_
    rw [← Bool.not_eq_true, ht.used ⟨⟨c, hc, rfl, hblock⟩, hi, rfl⟩]
    exact hnone i hi

/-- What a collection leaves is tidy, and another one has the same tally but for what is
    gone. -/
theorem collect_tidy (hf : FiniteChains f) (hs : h.Sound [] due)
    (he : collect (.ofWord f) roots h = .ok () h') : h'.Sound [] due ∧ h'.Tidy f roots ∧
      ∀ n n', h.Tallies f roots n → h'.Tallies f roots n' → n' = n.again := by
  obtain ⟨⟨R, hR, hcol⟩, hs', hacc⟩ := (collect_ends (Tagging.reads_ofWord f) hs).of_ok he
  obtain rfl : R = Reached (Resolves f) h.arena h.memory roots :=
    funext fun x => propext hR.iff
  have hcount : h'.arena.counters.collections ≠ h.arena.counters.collections := by
    rw [hacc.collections]
    exact Nat.succ_ne_self _
  have hfield : ∀ {s base i x j}, h.arena.SlotAt h.memory s base i x →
      Reached (Resolves f) h.arena h.memory roots x → j < s.pointers →
      h'.memory.field x j = lastWord f (h.memory.field x j) := fun {s} {_ _ _ _} hx hreach hj =>
    ((collect_keeps hs he).slots hx (hj.trans_le s.pointers_le)).last hcount hreach hj
  have htidy := hcol.tidy hf hs hs' hfield
  refine ⟨hs', htidy, fun n n' hn hn' => ?_⟩
  obtain ⟨hcollapsed, hfreed⟩ := htidy.tallies hs' hn'
  obtain ⟨r, p, k, d⟩ := n'
  obtain rfl : r = n.roots := hn'.scanned.trans hn.scanned.symm
  obtain rfl : p = n.followed := hcol.followed hf hs hs' hfield hn hn'
  obtain rfl : k = 0 := hcollapsed
  obtain rfl : d = 0 := hfreed
  rfl

/-! ## Another collection -/

/-- The heaps differ in what was counted, and in the order of blocks on the lists of caches. -/
structure Reordered (h h' : Heap) : Prop extends h.SameSetup h' where
  inUse : h'.arena.blocksInUse = h.arena.blocksInUse
  changes : h.memory.Changes h'.memory (h.arena.owned h.memory)
  block : ∀ b, ∃ link, h'.memory.block b = { h.memory.block b with link }
  free : h'.arena.free.toList h'.memory = h.arena.free.toList h.memory
  length : h'.arena.caches.length = h.arena.caches.length
  caches : ∀ (j : Nat) c, h.arena.caches[j]? = some c →
    ∃ c', h'.arena.caches[j]? = some c' ∧ c'.shape = c.shape ∧
      (c'.available.toList h'.memory).Perm (c.available.toList h.memory) ∧
      (c'.full.toList h'.memory).Perm (c.full.toList h.memory)

/-- Clearing and marking lead a tidy heap back to the same blocks. -/
theorem Tidy.block_eq {fields : List (Word × Nat)} (ht : h.Tidy f roots) (hs : h.Sound [] due)
    (hw : Rewritten f h.arena h.memory roots fields m)
    (hbits : ∀ {s base i x}, h.arena.SlotAt h.memory s base i x →
      ((m.block base).bitmap.bit i = true ↔ Reached (Resolves f) h.arena h.memory roots x)) :
    ∀ b, m.block b = h.memory.block b := by
  refine Arena.Preserved.block_eq hs (.refl hs) hw.preserved (fun x => ?_) fun hx hj => ?_
  · refine exists_congr fun s => exists_congr fun base => exists_congr fun i =>
      and_congr_right fun hx => ?_
    rw [hbits hx, ht.used hx]
  · rw [hw.field hx hj]
    split
    next hmem =>
      obtain ⟨s, base, i, hx', hreach, hj'⟩ := (hw.mem _ _).1 hmem
      exact (ht.direct hx' hreach hj').1
    next => rfl

/-- A sweep of the blocks of a tidy heap leaves each on its list. -/
theorem Tidy.swept (ht : h.Tidy f roots) (hs : h.Sound [] due)
    (hcaches : t.arena.caches = h.arena.caches) (hfree : t.arena.free = h.arena.free)
    (hmemory : h.memory.Changes t.memory (h.arena.owned h.memory))
    (hblock : ∀ b, t.memory.block b = h.memory.block b) (hsw : t.Swept h')
    (hsetup : h.SameSetup h') (hinUse : h'.arena.blocksInUse = h.arena.blocksInUse) :
    h.Reordered h' := by
  have hlink : ∀ b, (t.memory.block b).link = (h.memory.block b).link := fun b => by rw [hblock]
  have hlists : ∀ c : Cache, c.SameLists h.memory t.memory := fun c =>
    ⟨BlockList.toList_congr hlink, BlockList.toList_congr hlink⟩
  have hsorted : ∀ (j : Nat) c, h.arena.caches[j]? = some c → ∃ c', h'.arena.caches[j]? = some c' ∧
      Sweep.SortedTo c h.memory c' h'.memory := by
    intro j c hc
    obtain ⟨c', hc', hsorted⟩ := hsw.caches j c (hcaches ▸ hc)
    exact ⟨c', hc', hsorted.rebase (hlists c) fun b _ => hblock b⟩
  have hdead : t.arena.dead t.memory = [] := Arena.dead_eq_nil fun c hc =>
    (ht.placed c (hcaches ▸ hc)).congr (hlists c) fun b _ => by rw [hblock]
  have howned : t.arena.owned t.memory = h.arena.owned h.memory := by
    rw [Arena.owned, Arena.owned, hcaches]
    exact List.flatMap_congr fun c _ => (hlists c).blocks
  refine ⟨hsetup, hinUse, hmemory.trans (howned ▸ hsw.changes), fun b => ?_, ?_, ?_, ?_⟩
  · by_cases hb : b ∈ h.arena.owned h.memory
    · obtain ⟨c, hc, hmem⟩ := Arena.mem_owned.1 hb
      obtain ⟨j, hj, rfl⟩ := List.getElem_of_mem hc
      obtain ⟨c', -, hsort⟩ := hsorted j _ (List.getElem?_eq_getElem hj)
      obtain ⟨link, he⟩ := hsort.block b hmem
      rw [(ht.placed _ hc).isDead hmem, ← ((hs.caches _ hc).serves b hmem).free] at he
      exact ⟨link, he⟩
    · refine ⟨(h.memory.block b).link, ?_⟩
      rw [hsw.changes.block b (howned ▸ hb), hblock]
  · rw [hsw.released, hdead, hfree]
    exact BlockList.toList_congr hlink
  · rw [hsw.length, hcaches]
  · intro j c hc
    obtain ⟨c', hc', hsort⟩ := hsorted j c hc
    have hplaced := ht.placed c (List.mem_of_getElem? hc)
    refine ⟨c', hc', hsort.shape, ?_, ?_⟩
    · rw [← hplaced.filter_isPartial]
      exact hsort.available
    · rw [hsort.full, hplaced.filter_isFull]
      exact List.reverse_perm _

/-- A collection of a tidy heap with the same roots frees no block, and leaves all as it is but
    for the order on lists. -/
theorem Tidy.reordered (ht : h.Tidy f roots) (hs : h.Sound [] due)
    (he : collect (.ofWord f) roots h = .ok () h') (hn : h.Tallies f roots n)
    (hcounters : h'.arena.counters = h.arena.counters.collected n) : h.Reordered h' := by
  obtain ⟨-, -, hacc⟩ := (collect_ends (Tagging.reads_ofWord f) hs).of_ok he
  have hledger := hacc.ledger
  rw [hcounters, Counters.collected, (ht.tallies hs hn).2] at hledger
  cases collect_stages.of_ok he with
  | @swept h₁ h₂ h₃ _ freed hclear hmark hsweep hjournal =>
    obtain ⟨m₁, rfl, hp, hcleared⟩ := (clearUsed_returns hs).of_ok hclear
    have hs₁ : Heap.Sound { h with memory := m₁ } [] due := hp.sound hs
    obtain ⟨done, seen, hm⟩ := ((MarkedBy.start hs₁).mark hs₁).of_ok hmark
    have hw := hm.rewritten hs hp hcleared
    have hblock := ht.block_eq hs hw (hm.bits hs hp hcleared)
    obtain ⟨hsw, -⟩ := (sweep_counts (hm.sound hs₁)).of_ok hsweep
    obtain ⟨memory, arena, events⟩ := h'
    obtain ⟨rfl, rfl⟩ : memory = h₃.memory ∧ arena = h₃.countCollection.arena := hjournal
    have hsw' : h₂.Swept ⟨h₃.memory, h₃.countCollection.arena, events⟩ :=
      ⟨hsw.length, hsw.caches, hsw.released, hsw.changes, hsw.body⟩
    exact ht.swept hs (by rw [hm.arena]) (by rw [hm.arena]) hw.preserved.changes hblock hsw'
      hacc.toSameSetup (Nat.add_right_cancel hledger)

end Heap

end SlabHeap
