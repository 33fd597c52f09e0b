/-
  Heaps that differ in foreign blocks.

  Two heaps are `Like` each other if they are the same but for the foreign blocks of their
  memories, and no megablock of theirs holds one of these.  Every operation on the one ends
  as it does on the other, with the same answer and the same journal, and leaves heaps that
  are like each other: it neither reads nor writes what is foreign.  A new megablock holds
  nothing that is foreign (`mapMegablock_alike`); blocks from the lists of the arena, and
  those that are sliced, belong to the megablocks of the arena.
-/
import SlabHeap.Proofs.Heap.Likeness
import SlabHeap.Proofs.Heap.Allocation

namespace SlabHeap.Heap

variable {o : Foreign} {h h' : Heap} {m' : Memory} {c : Cache} {index due : Nat}
  {loose roots : List Word} {tagging : Tagging} {w : Word} {α : Type}

/-- The heaps differ in foreign blocks at most, and no megablock holds one of these. -/
def Like (o : Foreign) (h h' : Heap) : Prop :=
  ∃ m', Memory.Like o h.memory m' ∧ h.arena.directory.Avoids o ∧ h' = { h with memory := m' }

section
variable (hm : Memory.Like o h.memory m') (ho : h.arena.directory.Avoids o)
include hm ho

theorem like_of_memory : h.Like o { h with memory := m' } := ⟨m', hm, ho, rfl⟩

/-! ## Caches -/

omit hm in
/-- The blocks of a cache are not foreign. -/
theorem avoids_of_mem (hs : h.Sound loose due) (hc : c ∈ h.arena.caches) :
    c.Avoids o h.memory := fun _ hb =>
  ho.not_mem_blocks hs.directory hs.supply (hs.mem_sliced (Arena.mem_owned.2 ⟨c, hc, hb⟩))

theorem onCache_alike {act : Action (Cache × Memory) α}
    (hact : ∀ c, h.arena.caches[index]? = some c →
      Alike (fun p p' => ∃ c', Cache.Like o c' p p') act act (c, h.memory) (c, m')) :
    Alike (Like o) (onCache index act) (onCache index act) h { h with memory := m' } := by
  rw [onCache, alike_get]
  cases hc : h.arena.caches[index]? with
  | none => exact alike_throw (like_of_memory hm ho)
  | some c =>
    refine alike_zoom (hact c hc) ?_
    rintro _ _ ⟨c', m₁, m₁', rfl, rfl, hm₁⟩
    exact ⟨m₁', hm₁, ho, rfl⟩

theorem resolveCache_alike {size pointers : Nat} :
    Alike (Like o) (resolveCache size pointers) (resolveCache size pointers) h
      { h with memory := m' } := by
  have hl := like_of_memory hm ho
  rw [resolveCache, alike_get]
  cases hfind : h.arena.cacheIndex? size pointers with
  | some index =>
    simp only [hfind]
    exact alike_pure hl
  | none =>
    simp only [hfind]
    refine alike_lift hl fun c _ => ?_
    exact alike_modify.2 (alike_modify.2 (alike_pure ⟨m', hm, ho, rfl⟩))

theorem findCache_alike {remembered : Option Nat} {size pointers : Nat} :
    Alike (Like o) (findCache remembered size pointers) (findCache remembered size pointers) h
      { h with memory := m' } := by
  have hl := like_of_memory hm ho
  cases remembered with
  | none => exact resolveCache_alike hm ho
  | some index =>
    rw [findCache, alike_get]
    exact alike_ite (fun _ => alike_pure hl) fun _ => alike_throw hl

/-! ## Collections -/

theorem clearUsed_alike (hs : h.Sound loose due) :
    Alike (Like o) clearUsed clearUsed h { h with memory := m' } := by
  rw [clearUsed, alike_get]
  refine alike_forM_range (I := fun _ t => t.Sound loose due ∧
    t.arena.caches.length = h.arena.caches.length) ⟨hs, rfl⟩ (like_of_memory hm ho) ?_
  rintro i t _ hi ⟨hst, hlen⟩ ⟨t', ht, hot, rfl⟩
  refine ⟨onCache_alike ht hot fun c hc => ?_, ?_⟩
  · have hmem := List.mem_of_getElem? hc
    exact (Cache.clearUsed_alike ht (hst.caches c hmem) (avoids_of_mem hot hst hmem)).mono
      fun _ _ hp => ⟨c, hp⟩
  · refine (clearCache_returns hst (List.getElem?_eq_getElem (hlen ▸ hi))).meets ?_
    rintro - _ ⟨m₁, rfl, hp, -⟩
    exact ⟨hp.sound hst, hlen⟩

theorem mark_alike (hs : h.Sound [] due) (hT : tagging.Agrees o) :
    Alike (Like o) (mark tagging roots) (mark tagging roots) h { h with memory := m' } := by
  rw [mark, alike_get]
  refine alike_bind (alike_zoom (P := Marking.Like o) ?_ ?_) ?_
  · refine alike_bind (Marking.run_alike hs ho hT hm) ?_
    rintro ⟨⟩ t _ - ⟨t', ht, rfl⟩
    exact alike_get.2 (alike_pure ⟨t', ht, rfl⟩)
  · rintro t _ ⟨t', ht, rfl⟩
    exact ⟨t', ht, ho, rfl⟩
  rintro ⟨followed, collapsed⟩ t _ - ⟨t', ht, hot, rfl⟩
  refine alike_modify.2 (alike_get.2 (alike_lift ⟨t', ht, hot, rfl⟩ fun n _ => ?_))
  refine alike_modify.2 (alike_get.2 (alike_lift ⟨t', ht, hot, rfl⟩ fun n' _ => ?_))
  refine alike_modify.2 (alike_get.2 (alike_lift ⟨t', ht, hot, rfl⟩ fun n'' _ => ?_))
  exact alike_modify_last ⟨t', ht, hot, rfl⟩

theorem sweepCache_alike (hs : h.Sound [] due) :
    Alike (Like o) (sweepCache index) (sweepCache index) h { h with memory := m' } := by
  rw [sweepCache, alike_get]
  cases hc : h.arena.caches[index]? with
  | none => exact alike_throw (like_of_memory hm ho)
  | some c =>
    have hmem := List.mem_of_getElem? hc
    have hnd : (c.blocks h.memory).Nodup := (List.nodup_flatMap.1 hs.nodup_owned).1 c hmem
    have hout := avoids_of_mem ho hs hmem
    have hidle : ∀ b ∈ c.blocks h.memory, b ∉ h.arena.free.toList h.memory := fun b hb =>
      hs.not_mem_free (Arena.mem_owned.2 ⟨c, hmem, hb⟩)
    obtain ⟨hblocks, -⟩ := Sweep.sorted_start (hs.caches c hmem) hnd hs.free hidle
    obtain ⟨hsame, hstart⟩ := Sweep.start_like hm (hs.caches c hmem) hnd hout h.arena.free
    simp only [hsame, hblocks]
    refine alike_zoom (P := Sweep.Like o) ?_ ?_
    · refine alike_bind (Sweep.placeAll_alike hstart hout) ?_
      rintro ⟨⟩ t t' - ht
      rw [alike_get, ht.rest]
      exact alike_pure ⟨ht.memory, rfl, ht.held⟩
    · rintro t t' ht
      rw [ht.rest]
      exact ⟨t'.memory, ht.memory, ho, rfl⟩

theorem sweep_alike (hs : h.Sound [] due) :
    Alike (Like o) sweep sweep h { h with memory := m' } := by
  rw [sweep, alike_get]
  refine alike_bind (alike_foldlM_range (I := fun n freed t => h.SweptUpTo due n freed t)
    (.start hs) (like_of_memory hm ho) ?_) ?_
  · rintro n freed t _ hn ht ⟨t', hmt, hot, rfl⟩
    refine ⟨?_, (ht.sweepCache hs hn).meets fun _ _ => id⟩
    refine alike_bind (sweepCache_alike hmt hot ht.sound) ?_
    rintro k t₁ _ - hl
    exact alike_pure hl
  · rintro freed t _ - ⟨t', ht, hot, rfl⟩
    refine alike_get.2 (alike_ite (fun _ => alike_throw ⟨t', ht, hot, rfl⟩) fun _ => ?_)
    refine alike_modify.2 (alike_get.2 (alike_lift ⟨t', ht, hot, rfl⟩ fun n _ => ?_))
    exact alike_modify.2 (alike_pure ⟨t', ht, hot, rfl⟩)

theorem collect_alike (hs : h.Sound [] due) (hT : tagging.Agrees o) :
    Alike (Like o) (collect tagging roots) (collect tagging roots) h { h with memory := m' } := by
  rw [collect, alike_get]
  refine alike_bind (clearUsed_alike hm ho hs) ?_
  rintro ⟨⟩ h₁ _ hclear ⟨m₁, hm₁, ho₁, rfl⟩
  have hs₁ : h₁.Sound [] due := by
    obtain ⟨m, rfl, hp, -⟩ := (clearUsed_returns hs).of_ok hclear
    exact hp.sound hs
  refine alike_bind (mark_alike hm₁ ho₁ hs₁ hT) ?_
  rintro ⟨⟩ h₂ _ hmark ⟨m₂, hm₂, ho₂, rfl⟩
  have hs₂ : h₂.Sound [] due := by
    obtain ⟨hcompleted, counters, harena, -⟩ := (mark_meets tagging.reads_any hs₁).of_ok hmark
    rw [Heap.Sound, harena]
    exact (hcompleted.preserved.sound hs₁).of_eq rfl rfl rfl rfl
  refine alike_bind (sweep_alike hm₂ ho₂ hs₂) ?_
  rintro freed h₃ _ - ⟨m₃, hm₃, ho₃, rfl⟩
  refine alike_get.2 (alike_modify.2 (alike_ite (fun _ => ?_) fun _ => ?_))
  · refine alike_lift ⟨m₃, hm₃, ho₃, rfl⟩ fun event _ => ?_
    refine alike_modify.2 (alike_lift ⟨m₃, hm₃, ho₃, rfl⟩ fun n _ => ?_)
    exact alike_modify_last ⟨m₃, hm₃, ho₃, rfl⟩
  · refine alike_lift ⟨m₃, hm₃, ho₃, rfl⟩ fun n _ => ?_
    exact alike_modify_last ⟨m₃, hm₃, ho₃, rfl⟩

/-! ## Blocks -/

theorem takeFreeBlock_alike (hs : h.Sound [] due) :
    Alike (Like o) takeFreeBlock takeFreeBlock h { h with memory := m' } := by
  have hfirst : ∀ b, h.arena.free.first = some b → ¬ o.blocks b := by
    intro b hb
    obtain ⟨bs, hbs, -⟩ := hs.free.toList_of_first hb
    refine ho.not_mem_blocks hs.directory hs.supply (hs.blocks.subset ?_)
    simp [hbs]
  rw [takeFreeBlock, alike_get]
  rcases hm.pop? hfirst with ⟨hp, hp'⟩ | ⟨b, rest, m₁, m₁', -, hp, hp', hm₁⟩
  · simp only [hp, hp']
    exact alike_pure (like_of_memory hm ho)
  · simp only [hp, hp']
    exact alike_set.2 (alike_pure ⟨m₁', hm₁, ho, rfl⟩)

/-- No later mapping holds what is foreign. -/
theorem mapMegablock_alike :
    Alike (Like o) mapMegablock mapMegablock h { h with memory := m' } := by
  rw [mapMegablock, alike_get]
  rcases hm.map megablockBytes with ⟨e, hmap, hmap'⟩ | ⟨mapping, hmap, hmap'⟩
  · simp only [hmap, hmap']
    exact alike_modify.2 (alike_throw ⟨m', hm, ho, rfl⟩)
  · obtain ⟨start, hsup, -, rfl, -⟩ := Memory.map_eq_ok.1 hmap
    simp only [hmap, hmap']
    refine alike_modify.2 (alike_modify.2 (alike_modify.2 (alike_pure ?_)))
    refine ⟨_, hm.advance, ho.insert fun w hw hc => ?_, rfl⟩
    refine hm.ahead hm.later (hm.supply ▸ hsup) hw ?_
    rw [Megablock.contains, Mapping.contains, Bool.and_eq_true, decide_eq_true_eq,
      decide_eq_true_eq] at hc
    exact ⟨UInt64.le_iff_toNat_le.1 hc.1, hc.2⟩

theorem currentMegablock_alike :
    Alike (Like o) currentMegablock currentMegablock h { h with memory := m' } := by
  rw [currentMegablock, alike_get]
  cases hcur : h.arena.current.bind h.arena.directory.startingAt? with
  | none =>
    simp only [hcur]
    exact mapMegablock_alike hm ho
  | some mb =>
    simp only [hcur]
    exact alike_ite (fun _ => mapMegablock_alike hm ho)
      fun _ => alike_pure (like_of_memory hm ho)

theorem sliceBlock_alike (hs : h.Sound [] due) :
    Alike (Like o) sliceBlock sliceBlock h { h with memory := m' } := by
  rw [sliceBlock]
  refine alike_bind (currentMegablock_alike hm ho) ?_
  rintro mb h₁ _ hrun ⟨m₁, hm₁, ho₁, rfl⟩
  obtain ⟨hs₁, -, hmem, hlt, -⟩ := (currentMegablock_meets hs).of_ok hrun
  have hout := ho₁.not_blockBase hs₁.directory hs₁.supply hmem hlt
  refine alike_get.2 (alike_set.2 (alike_pure ⟨_, hm₁.slice hout, ?_, rfl⟩))
  exact ho₁.insert fun w hw hc => ho₁ mb hmem w hw hc

theorem adjustThreshold_alike :
    Alike (Like o) adjustThreshold adjustThreshold h { h with memory := m' } := by
  have hl := like_of_memory hm ho
  rw [adjustThreshold]
  refine alike_get.2 (alike_lift hl fun used _ => alike_lift hl fun limit _ => ?_)
  refine alike_ite (fun _ => alike_lift hl fun threshold _ => ?_) fun _ => alike_pure hl
  exact alike_modify.2 (alike_modify_last ⟨m', hm, ho, rfl⟩)

variable (hT : tagging.Agrees o)
include hT

theorem acquireBlock_alike (hs : h.Sound [] 0) :
    Alike (Like o) (acquireBlock tagging roots) (acquireBlock tagging roots) h
      { h with memory := m' } := by
  rw [acquireBlock]
  refine alike_get.2 (alike_lift (like_of_memory hm ho) fun inUse hinUse => alike_modify.2 ?_)
  obtain ⟨-, rfl⟩ := Count.add_eq_ok.1 hinUse
  have hs₁ : h.countBlock.Sound [] 1 := hs.countBlock
  refine alike_bind (takeFreeBlock_alike (h := h.countBlock) hm ho hs₁) ?_
  rintro r h₂ _ htake ⟨m₂, hm₂, ho₂, rfl⟩
  cases r with
  | some b => exact alike_modify.2 (alike_pure ⟨m₂, hm₂, ho₂, rfl⟩)
  | none =>
    obtain rfl := takeFreeBlock_none htake
    refine alike_get.2 (alike_ite (fun _ => ?_) fun _ => sliceBlock_alike hm₂ ho₂ hs₁)
    refine alike_bind (collect_alike hm₂ ho₂ hs₁ hT) ?_
    rintro ⟨⟩ h₃ _ hcollect ⟨m₃, hm₃, ho₃, rfl⟩
    obtain ⟨-, hs₃, -⟩ := (collect_meets tagging.reads_any hs₁).of_ok hcollect
    refine alike_bind (adjustThreshold_alike hm₃ ho₃) ?_
    rintro ⟨⟩ h₄ _ hadjust ⟨m₄, hm₄, ho₄, rfl⟩
    obtain ⟨hs₄, -⟩ := (adjustThreshold_meets hs₃).of_ok hadjust
    exact sliceBlock_alike hm₄ ho₄ hs₄

/-! ## Allocation -/

theorem allocate_alike (hs : h.Sound [] 0) :
    Alike (Like o) (allocate tagging roots index) (allocate tagging roots index) h
      { h with memory := m' } := by
  rw [allocate]
  refine alike_get.2 (alike_lift (like_of_memory hm ho) fun n hn => alike_modify.2 ?_)
  obtain ⟨-, rfl⟩ := Count.add_eq_ok.1 hn
  have hs₁ := hs.countObject
  refine alike_bind (onCache_alike (h := h.countObject) hm ho fun c hc => ?_) ?_
  · have hmem := List.mem_of_getElem? hc
    exact Cache.takeSlot_alike hm (hs₁.caches c hmem) (avoids_of_mem ho hs₁ hmem)
  rintro r h₂ _ htake ⟨m₂, hm₂, ho₂, rfl⟩
  cases r with
  | some object => exact alike_pure ⟨m₂, hm₂, ho₂, rfl⟩
  | none =>
    obtain rfl := takeSlot_none hs₁ htake
    refine alike_bind (acquireBlock_alike hm₂ ho₂ hT hs₁) ?_
    rintro b h₃ _ hacquire ⟨m₃, hm₃, ho₃, rfl⟩
    obtain ⟨hs₃, -⟩ := (acquireBlock_meets tagging.reads_any hs₁).of_ok hacquire
    have hb : ¬ o.blocks b :=
      ho₃.not_mem_blocks hs₃.directory hs₃.supply (hs₃.blocks.subset (by simp))
    exact onCache_alike hm₃ ho₃ fun c _ => Cache.adopt_alike hm₃ hb

theorem allocateWords_alike {size pointers : Nat} (hs : h.Sound [] 0) :
    Alike (Like o) (allocateWords tagging roots size pointers)
      (allocateWords tagging roots size pointers) h { h with memory := m' } := by
  rw [allocateWords]
  refine alike_bind (resolveCache_alike hm ho) ?_
  rintro index h₁ _ hresolve ⟨m₁, hm₁, ho₁, rfl⟩
  obtain ⟨hs₁, -⟩ := (resolveCache_meets hs).of_ok hresolve
  exact allocate_alike hm₁ ho₁ hT hs₁

theorem allocateBytes_alike {bytes : Nat} (hs : h.Sound [] 0) :
    Alike (Like o) (allocateBytes tagging roots bytes) (allocateBytes tagging roots bytes) h
      { h with memory := m' } := by
  rw [allocateBytes]
  exact alike_lift (like_of_memory hm ho) fun words _ => allocateWords_alike hm ho hT hs

end

end SlabHeap.Heap
