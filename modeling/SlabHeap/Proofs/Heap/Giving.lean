/-
  What allocations make of each cache.

  An allocation that runs no collection takes a slot from one cache and leaves the others alone
  (`allocate_gives`).  Which of its blocks a cache uses is a matter of its lists: a slot of an
  available block is given for sure (`allocate_available`), and a block is acquired if there is
  none (`allocate_acquires`).
-/
import SlabHeap.Proofs.Heap.Drawing
import SlabHeap.Proofs.Heap.Growth

namespace SlabHeap.Heap

variable {tagging : Tagging} {roots : List Word} {h h' : Heap} {c c' d : Cache}
  {loose : List Word} {due index index' : Nat} {b base w : Word}

/-! ## Rest -/

theorem Undisturbed.rests (hu : h.Undisturbed h') (hs : h.Sound loose due)
    (hc : c ∈ h.arena.caches) : c.Rests h.memory h'.memory :=
  Cache.rests_of_same ((hs.caches c hc).elsewhere fun b _ => hu.block b).2 fun b _ => hu.block b

theorem Quiet.rests (hq : h.Quiet h') (hc : c ∈ h.arena.caches) : c.Rests h.memory h'.memory :=
  Cache.rests_of_same (hq.lists c hc) fun b hb => hq.block b (Arena.mem_owned.2 ⟨c, hc, hb⟩)

theorem Replaced.rests (hr : h.Replaced index c base h' c') (hne : index' ≠ index)
    (hd : h.arena.caches[index']? = some d) : d.Rests h.memory h'.memory := by
  obtain ⟨hbase, hlists⟩ := hr.others index' d hne hd
  refine Cache.rests_of_same hlists fun b hb => hr.block_ne ?_
  rintro rfl
  exact hbase hb

/-- No slot of an arena is on two blocks, or twice on one. -/
theorem Sound.nodup_freeSlots (hs : h.Sound loose due) (hc : c ∈ h.arena.caches) :
    (c.freeSlots h.memory).Nodup := by
  have hinside : ∀ b ∈ c.blocks h.memory, ∀ i < c.shape.slots,
      Block.StartsAt b ∧ (h.memory.block b).layout = c.shape.layout ∧
        (h.memory.block b).slotAddress b i = c.shape.slotAt b i := by
    intro b hb i hi
    have ho : h.arena.Owns h.memory c.shape b := ⟨c, hc, rfl, hb⟩
    exact ⟨ho.startsAt hs, (ho.serves hs).layout, Block.slotAddress_eq (ho.serves hs).layout⟩
  refine List.nodup_flatMap.2 ⟨fun b hb => ?_, ?_⟩
  · refine List.Nodup.map_on (fun i hi j hj he => ?_) (List.nodup_range.filter _)
    have hi' : i < c.shape.slots := List.mem_range.1 (List.mem_of_mem_filter hi)
    have hj' : j < c.shape.slots := List.mem_range.1 (List.mem_of_mem_filter hj)
    obtain ⟨hstart, hlayout, hslot⟩ := hinside b hb i hi'
    rw [← hslot, ← (hinside b hb j hj').2.2] at he
    exact Block.slotAddress_inj hstart hlayout hi' hj' he
  · refine ((List.nodup_flatMap.1 hs.nodup_owned).1 c hc).imp_of_mem ?_
    intro b b' hb hb' hne x hx hx'
    obtain ⟨i, hi, rfl⟩ := List.mem_map.1 hx
    obtain ⟨j, hj, he⟩ := List.mem_map.1 hx'
    have hi' : i < c.shape.slots := List.mem_range.1 (List.mem_of_mem_filter hi)
    have hj' : j < c.shape.slots := List.mem_range.1 (List.mem_of_mem_filter hj)
    obtain ⟨hstart, hlayout, hslot⟩ := hinside b hb i hi'
    obtain ⟨hstart', hlayout', hslot'⟩ := hinside b' hb' j hj'
    have hbase := Block.baseOf_slotAddress hstart hlayout hi'
    have hbase' := Block.baseOf_slotAddress hstart' hlayout' hj'
    rw [hslot, ← he, ← hslot', hbase'] at hbase
    exact hne hbase.symm

/-! ## Allocations -/

/-- Without a collection, a block is acquired and the caches are left alone. -/
theorem acquireBlock_quiet (hs : h.Sound [] 0) (he : acquireBlock tagging roots h = .ok b h')
    (hcount : h'.arena.counters.collections = h.arena.counters.collections) :
    h.countBlock.Quiet h' := by
  have hs₁ : h.countBlock.Sound [] 1 := hs.countBlock
  cases acquireBlock_stages.of_ok he with
  | reused htake hjournal =>
    obtain ⟨-, -, hq, -⟩ := (takeFreeBlock_returns hs₁).of_ok htake
    exact hq.trans (quiet_of_eq hjournal.1 hjournal.2)
  | sliced _ _ hslice =>
    obtain ⟨-, -, hq, -⟩ := (sliceBlock_meets hs₁).of_ok hslice
    exact hq
  | collected _ _ hcollect hadjust hslice =>
    obtain ⟨-, hs₂, hacc⟩ := (collect_meets tagging.reads_any hs₁).of_ok hcollect
    obtain ⟨hs₃, hq₃, -⟩ := (adjustThreshold_meets hs₂).of_ok hadjust
    obtain ⟨-, -, hq₄, -⟩ := (sliceBlock_meets hs₃).of_ok hslice
    have hmore : h'.arena.counters.collections = h.arena.counters.collections + 1 := by
      rw [hq₄.counters, hq₃.counters]
      exact hacc.collections
    omega

/-- Without a collection, the cache at a position gives the object, and the others are left
    alone. -/
theorem allocate_gives (hs : h.Sound [] 0) (hc : h.arena.caches[index]? = some c)
    (he : allocate tagging roots index' h = .ok w h')
    (hcount : h'.arena.counters.collections = h.arena.counters.collections) :
    ∃ c', h'.arena.caches[index]? = some c' ∧
      c.Gives h.memory (if index' = index then some w else none) c' h'.memory := by
  have hs₁ := hs.countObject
  have hc₁ : h.countObject.arena.caches[index]? = some c := hc
  obtain ⟨d, hd, hprovides⟩ := allocate_provides hs he
  have hd₁ : h.countObject.arena.caches[index']? = some d := hd
  have hkept := hs.caches d (List.mem_of_getElem? hd)
  cases hprovides with
  | available htake =>
    rcases (takeSlot_replaces hs₁ hd₁).of_ok htake with
      ⟨hnone, -⟩ | ⟨base, i, d', m', hw, rfl, ha, -, hr⟩
    · cases hnone
    obtain rfl := Option.some.inj hw
    have hslot : (h.memory.block base).slotAddress base i = d.shape.slotAt base i :=
      Block.slotAddress_eq (hkept.serves base (hkept.first_mem ha.first)).layout
    by_cases hi : index' = index
    · subst hi
      obtain rfl := Option.some.inj (hc.symm.trans hd)
      refine ⟨d', hr.get_self, ?_⟩
      rw [if_pos rfl]
      exact hslot ▸ .available (.refl c h.memory) hkept ha
    · refine ⟨c, (hr.get_ne (Ne.symm hi)).trans hc₁, ?_⟩
      rw [if_neg hi]
      exact .nothing (hr.rests (Ne.symm hi) hc₁)
  | @acquired b _ h₂ _ d₂ htake hacquire hs₂ hfit hd₂ hadopt _ hadds =>
    have hfirst : d.available.first = none := by
      rcases (takeSlot_replaces hs₁ hd₁).of_ok htake with ⟨-, hfirst, -⟩ | ⟨_, _, _, _, hw, -⟩
      · exact hfirst
      · cases hw
    have hq := acquireBlock_quiet hs₁ hacquire (hadds.counters ▸ hcount)
    obtain rfl : d = d₂ := by
      rw [hq.caches] at hd₂
      exact Option.some.inj (hd₁.symm.trans hd₂)
    have hc₂ : h₂.arena.caches[index]? = some c := by
      rw [hq.caches]
      exact hc
    obtain ⟨-, d', m', rfl, rfl, ht, -, hr⟩ := (adopt_replaces hs₂ hfit hd₂).of_ok hadopt
    have hrests : c.Rests h.memory h₂.memory := hq.rests (List.mem_of_getElem? hc)
    have hslot : (m'.block b).slotAddress b 0 = d.shape.slotAt b 0 :=
      Block.slotAddress_eq ht.block.serves.layout
    by_cases hi : index' = index
    · subst hi
      obtain rfl := Option.some.inj (hc.symm.trans hd)
      refine ⟨d', hr.get_self, ?_⟩
      have hnone : c.available.toList h₂.memory = [] := by
        rw [hrests.lists.available]
        exact (BlockList.toList_eq_nil hkept.available).2 hfirst
      rw [if_pos rfl]
      exact hslot ▸ .acquired hrests (hs₂.caches c (List.mem_of_getElem? hc₂)) hnone ht
    · refine ⟨c, (hr.get_ne (Ne.symm hi)).trans hc₂, ?_⟩
      rw [if_neg hi]
      exact .nothing (hrests.trans (hr.rests (Ne.symm hi) hc₂))

/-- The objects that were allocated are counted, and then an available block is looked for. -/
theorem allocate_eq (hcount : h.arena.counters.objectsAllocated + 1 < Word.count) :
    allocate tagging roots index h =
      (onCache index Cache.takeSlot >>= fun r => match r with
        | some object => pure object
        | none => acquireBlock tagging roots >>= fun b => onCache index (Cache.adopt b))
      h.countObject := by
  have hadd : Count.add h.arena.counters.objectsAllocated 1 =
      .ok (h.arena.counters.objectsAllocated + 1) := Count.add_eq_ok.2 ⟨hcount, rfl⟩
  change ((liftM (Count.add h.arena.counters.objectsAllocated 1) : Action Heap Nat) >>=
    fun allocated => modifyCounters ({ · with objectsAllocated := allocated }) >>= fun _ =>
      onCache index Cache.takeSlot >>= fun r => match r with
        | some object => pure object
        | none => acquireBlock tagging roots >>= fun b => onCache index (Cache.adopt b)) h = _
  rw [hadd]
  rfl

/-- A slot of an available block is given, and no block is acquired. -/
theorem allocate_available (hs : h.Sound [] 0) (hc : h.arena.caches[index]? = some c)
    (hp : c.Placed h.memory) (hsome : c.available.toList h.memory ≠ [])
    (hcount : h.arena.counters.objectsAllocated + 1 < Word.count) :
    ∃ w h', allocate tagging roots index h = .ok w h' ∧
      h'.arena.directory = h.arena.directory ∧ h'.arena.blocksInUse = h.arena.blocksInUse := by
  have hs₁ := hs.countObject
  have hc₁ : h.countObject.arena.caches[index]? = some c := hc
  have hkept := hs.caches c (List.mem_of_getElem? hc)
  have htake : Returns (onCache index Cache.takeSlot) h.countObject fun r h' => ∃ w, r = some w ∧
      h'.arena.directory = h.arena.directory ∧ h'.arena.blocksInUse = h.arena.blocksInUse := by
    refine (takeSlot_replaces hs₁ hc₁).mono ?_ fun _ _ hf => hf.2.2.2 hp
    rintro r h' (⟨-, hfirst, -⟩ | ⟨base, i, c', m', rfl, rfl, -⟩)
    · exact absurd ((BlockList.toList_eq_nil hkept.available).2 hfirst) hsome
    · exact ⟨_, rfl, rfl, rfl⟩
  obtain ⟨_, h', he, w, rfl, hdirectory, hinUse⟩ := htake.exists_ok
  refine ⟨w, h', ?_, hdirectory, hinUse⟩
  rw [allocate_eq hcount]
  simp only [bind, EStateM.bind, he]
  rfl

/-- Without an available block, one is acquired, and its first slot is given. -/
theorem allocate_acquires (hs : h.Sound [] 0) (hc : h.arena.caches[index]? = some c)
    (hp : c.Placed h.memory) (hnone : c.available.toList h.memory = [])
    (hcount : h.arena.counters.objectsAllocated + 1 < Word.count) :
    allocate tagging roots index h =
      (acquireBlock tagging roots >>= fun b => onCache index (Cache.adopt b)) h.countObject := by
  have hs₁ := hs.countObject
  have hc₁ : h.countObject.arena.caches[index]? = some c := hc
  have hkept := hs.caches c (List.mem_of_getElem? hc)
  have htake : Returns (onCache index Cache.takeSlot) h.countObject fun r h' =>
      r = none ∧ h' = h.countObject := by
    refine (takeSlot_replaces hs₁ hc₁).mono ?_ fun _ _ hf => hf.2.2.2 hp
    rintro r h' (⟨rfl, -, rfl⟩ | ⟨base, i, c', m', rfl, rfl, ha, -⟩)
    · exact ⟨rfl, rfl⟩
    · obtain ⟨bs, hbs, -⟩ := hkept.available.toList_of_first ha.first
      rw [hnone] at hbs
      cases hbs
  obtain ⟨_, _, he, rfl, rfl⟩ := htake.exists_ok
  rw [allocate_eq hcount]
  simp only [bind, EStateM.bind, he]

end SlabHeap.Heap
