/-
  Where blocks come from.

  A block for a cache is the first one without an owner (`takeFreeBlock_returns`) or is
  sliced from a megablock, which is mapped if there is none (`sliceBlock_meets`).  Both
  leave the caches as they are (`Heap.Quiet`) and hand out a block that belongs to no
  list: it is loose, fit to be taken into service, and no cache owned it before.  Of the
  numbers in the `Extent` of a heap, slicing alone changes the first.
-/
import SlabHeap.Proofs.Heap.Collection
import SlabHeap.Heap.Allocation

namespace SlabHeap

open Block (StartsAt)

variable {due : Nat} {b x : Word} {s : Shape}

/-- A block that a cache can take over. -/
def Block.Fit (b : Block) : Prop := b.Idle ∨ b.room = 0

theorem Block.isAligned_iff {w : Word} :
    Word.isAligned w (UInt64.ofNat blockBytes) = true ↔ StartsAt w :=
  (Word.isAligned_iff ⟨12, rfl⟩).trans Nat.dvd_iff_mod_eq_zero

namespace Memory

variable {m m' : Memory}

/-- A megablock is mapped at the next place of the supply, if that starts a block. -/
theorem map_eq_ok {mapping : Mapping} : m.map megablockBytes = .ok (mapping, m') ↔
    ∃ start, m.supply m.mapped = some start ∧ StartsAt start ∧
      mapping = ⟨start, megablockBytes⟩ ∧ m' = { m with mapped := m.mapped + 1 } := by
  unfold map Mapping.place
  rw [if_neg (by decide), if_neg (by decide)]
  cases hsup : m.supply m.mapped with
  | none => simp [bind, Except.bind]
  | some start =>
    by_cases hal : Word.isAligned start (UInt64.ofNat blockBytes) = true
    · simp [hal, bind, Except.bind, pure, Except.pure, Block.isAligned_iff.1 hal, eq_comm]
    · have hstart : ¬ StartsAt start := fun h => hal (Block.isAligned_iff.2 h)
      simp [hal, bind, Except.bind, hstart]

/-- The system has no place for the next megablock. -/
def Refuses (m : Memory) : Prop := ∃ error, m.map megablockBytes = .error error

/-- Mappings are made whatever the blocks hold. -/
theorem Changes.refuses {bs : List Word} (hch : m.Changes m' bs) : m'.Refuses ↔ m.Refuses := by
  have hmap : ∀ error, m'.map megablockBytes = .error error ↔
      m.map megablockBytes = .error error := by
    intro error
    rw [Memory.map, Memory.map, hch.supply, hch.mapped]
    cases Mapping.place megablockBytes (m.supply m.mapped) with
    | ok mapping => exact ⟨nofun, nofun⟩
    | error e => exact Iff.rfl
  exact exists_congr hmap

end Memory

/-- How far a heap has grown, and what decides whether it grows: the number of blocks that
    were sliced and of those in use, the threshold and the one that it started from, and
    the number of collections. -/
structure Extent where
  sliced : Nat
  inUse : Nat
  threshold : Nat
  initial : Nat
  collections : Nat

/-- The threshold after a collection that left `inUse` blocks in use. -/
def Extent.adjusted (inUse threshold : Nat) : Nat :=
  if threshold * growthTenths ≤ inUse * 10 then threshold * thresholdGrowth else threshold

namespace Heap

variable {h h' h'' : Heap}

/-- The extent of a heap. -/
def extent (h : Heap) : Extent where
  sliced := h.arena.directory.blocks.length
  inUse := h.arena.blocksInUse
  threshold := h.arena.threshold
  initial := h.arena.options.initialThreshold
  collections := h.arena.counters.collections

/-- No block can be sliced: those of the current megablock were all handed out, if there is one,
    and the system has no place for another. -/
structure Dry (h : Heap) : Prop where
  current : (h.arena.current.bind h.arena.directory.startingAt?).all (·.isExhausted) = true
  refuses : h.memory.Refuses

/-- The contents of blocks do not matter. -/
theorem Dry.of_changes {bs : List Word} (hd : h'.Dry) (hch : h.memory.Changes h'.memory bs)
    (hdir : h'.arena.directory = h.arena.directory) (hcur : h'.arena.current = h.arena.current) :
    h.Dry where
  current := by
    rw [← hdir, ← hcur]
    exact hd.current
  refuses := hch.refuses.1 hd.refuses

theorem Dry.congr (hd : h'.Dry) (hmemory : h'.memory = h.memory)
    (hdir : h'.arena.directory = h.arena.directory)
    (hcur : h'.arena.current = h.arena.current) : h.Dry := by
  have hch : h.memory.Changes h'.memory [] := hmemory ▸ .refl _ _
  exact hd.of_changes hch hdir hcur

/-- The caches of `h` have the same blocks in `h'`, with the same contents, no block has
    another body, and nothing was counted. -/
structure Quiet (h h' : Heap) : Prop where
  caches : h'.arena.caches = h.arena.caches
  lists : ∀ c ∈ h.arena.caches, c.SameLists h.memory h'.memory
  block : ∀ b ∈ h.arena.owned h.memory, h'.memory.block b = h.memory.block b
  body : ∀ b, (h'.memory.block b).body = (h.memory.block b).body
  counters : h'.arena.counters = h.arena.counters
  inUse : h'.arena.blocksInUse = h.arena.blocksInUse

/-- Nothing happens to a heap but that it is reported on. -/
theorem quiet_of_eq (hm : h'.memory = h.memory) (ha : h'.arena = h.arena) : h.Quiet h' := by
  refine ⟨?_, fun _ _ => ⟨?_, ?_⟩, fun _ _ => ?_, fun _ => ?_, ?_, ?_⟩ <;>
    simp only [hm, ha]

namespace Quiet

theorem refl (h : Heap) : h.Quiet h := quiet_of_eq rfl rfl

variable (hq : h.Quiet h')
include hq

theorem owned : h'.arena.owned h'.memory = h.arena.owned h.memory := by
  rw [Arena.owned, hq.caches]
  exact List.flatMap_congr fun c hc => (hq.lists c hc).blocks

theorem trans (hq' : h'.Quiet h'') : h.Quiet h'' where
  caches := hq'.caches.trans hq.caches
  lists c hc := (hq.lists c hc).trans (hq'.lists c (hq.caches ▸ hc))
  block b hb := (hq'.block b (hq.owned ▸ hb)).trans (hq.block b hb)
  body b := (hq'.body b).trans (hq.body b)
  counters := hq'.counters.trans hq.counters
  inUse := hq'.inUse.trans hq.inUse

theorem owns : h'.arena.Owns h'.memory s b ↔ h.arena.Owns h.memory s b := by
  rw [Arena.Owns, hq.caches]
  refine exists_congr fun c => and_congr_right fun hc => ?_
  rw [(hq.lists c hc).blocks]

theorem holds : h'.arena.Holds h'.memory s x ↔ h.arena.Holds h.memory s x :=
  Arena.holds_congr (fun _ _ => hq.owns) hq.block

theorem placed (hp : ∀ c ∈ h.arena.caches, c.Placed h.memory) :
    ∀ c ∈ h'.arena.caches, c.Placed h'.memory := by
  intro c hc
  rw [hq.caches] at hc
  refine (hp c hc).congr (hq.lists c hc) fun b hb => ?_
  rw [hq.block b (Arena.mem_owned.2 ⟨c, hc, hb⟩)]

end Quiet

/-! ## Blocks without an owner -/

theorem takeFreeBlock_returns (hs : h.Sound [] due) :
    Returns takeFreeBlock h fun r h' => match r with
      | none => h' = h ∧ h.arena.free.toList h.memory = []
      | some b => h'.Sound [b] due ∧ (h'.memory.block b).Fit ∧ h.Quiet h' ∧
        b ∉ h.arena.owned h.memory ∧ h'.extent = h.extent := by
  rw [takeFreeBlock]
  simp only [Returns, meets_bind, meets_get]
  rcases BlockList.pop?_of_linked hs.free with ⟨-, hnone, hp⟩ |
    ⟨b, bs, rest, m', -, hl, hp, hrest, hrest', hch, hblock⟩
  · rw [hp]
    exact ⟨rfl, hnone⟩
  rw [hp]
  have hidle : ∀ b' ∈ h.arena.free.toList h.memory, (m'.block b').Idle := by
    intro b' hb'
    have := hs.idle b' hb'
    rw [hblock]
    split
    · exact this.relink none
    · exact this
  have hnone : ∀ c ∈ ([] : List Cache), c.Kept m' := by simp
  have hsplit : h.arena.caches = h.arena.caches ++ [] ++ [] := by simp
  have hmem : b ∈ h.arena.free.toList h.memory := by rw [hl]; exact List.mem_cons_self ..
  have hperm : ([b] ++ rest.toList m' ++ ([] : List Cache).flatMap (·.blocks m')).Perm
      ([] ++ h.arena.free.toList h.memory ++ ([] : List Cache).flatMap (·.blocks h.memory)) := by
    rw [hrest', hl]
    exact .refl _
  obtain ⟨hsound, hlists⟩ := hs.replace hsplit (hch.mono (by simpa using hmem)) hrest
    (fun b' hb' => hidle b' (by rw [hl, ← hrest']; exact List.mem_cons_of_mem _ hb')) hnone
    hperm rfl
  simp only [List.append_nil] at hsound hlists
  simp only [meets_bind, meets_set, meets_pure]
  have hbody : ∀ b', (m'.block b').body = (h.memory.block b').body := by
    intro b'
    rw [hblock]
    split
    next he => rw [← he]
    next => rfl
  refine ⟨hsound, .inl (hidle b hmem), ⟨rfl, hlists, fun b' hb' => ?_, hbody, rfl, rfl⟩, fun hb =>
    hs.not_mem_free hb hmem, rfl⟩
  have hne : b' ∉ [b] := by
    intro he
    rw [List.mem_singleton.1 he] at hb'
    exact hs.not_mem_free hb' hmem
  exact hch.block b' hne

/-! ## Megablocks -/

theorem mapMegablock_meets (hs : h.Sound [] due) :
    Meets mapMegablock h
      (fun mb h' => h'.Sound [] due ∧ h.Quiet h' ∧ mb ∈ h'.arena.directory.megablocks ∧
        mb.sliced < blocksPerMegablock ∧
        h'.arena.directory.blocks.Perm h.arena.directory.blocks ∧ h'.extent = h.extent)
      fun fault h' => fault = .outOfMemory ∧ h.memory.Refuses ∧ h'.Sound [] due ∧
        h.Quiet h' := by
  rw [mapMegablock]
  simp only [meets_bind, meets_get]
  cases hmap : h.memory.map megablockBytes with
  | error e =>
    simp only [tell, meets_bind, meets_modify, meets_throw]
    exact ⟨trivial, ⟨e, hmap⟩, hs.of_eq rfl rfl rfl rfl, quiet_of_eq rfl rfl⟩
  | ok r =>
    obtain ⟨mapping, memory⟩ := r
    obtain ⟨start, hsup, hstart, rfl, rfl⟩ := Memory.map_eq_ok.1 hmap
    have hmb : Megablock.Mapped ⟨⟨start, megablockBytes⟩, h.arena.directory.size, 0⟩
        { h.memory with mapped := h.memory.mapped + 1 } :=
      ⟨rfl, hstart, Nat.zero_le _, h.memory.mapped, Nat.lt_succ_self _, hsup⟩
    obtain ⟨hdir, hmem, hblocks⟩ := Directory.mapped_insert hs.directory hs.supply hmb rfl
      (Nat.le_succ _) hsup rfl
    have hnew : Directory.blocks _ |>.Perm ([] ++ h.arena.directory.blocks) := hblocks
    obtain ⟨hsound, hlists⟩ := hs.grow hdir hnew rfl fun _ _ => rfl
    simp only [tell, modifyArena, meets_bind, meets_modify, meets_pure]
    refine ⟨hsound.of_eq rfl rfl rfl rfl, ⟨rfl, hlists, fun _ _ => rfl, fun _ => rfl, rfl, rfl⟩,
      hmem, by decide, hblocks, ?_⟩
    simp only [extent, hblocks.length_eq]

theorem currentMegablock_meets (hs : h.Sound [] due) :
    Meets currentMegablock h
      (fun mb h' => h'.Sound [] due ∧ h.Quiet h' ∧ mb ∈ h'.arena.directory.megablocks ∧
        mb.sliced < blocksPerMegablock ∧
        h'.arena.directory.blocks.Perm h.arena.directory.blocks ∧ h'.extent = h.extent)
      fun fault h' => fault = .outOfMemory ∧ h.Dry ∧ h'.Sound [] due ∧
        h.Quiet h' := by
  rw [currentMegablock]
  simp only [meets_bind, meets_get]
  cases hcur : h.arena.current.bind h.arena.directory.startingAt? with
  | none =>
    refine (mapMegablock_meets hs).mono (fun _ _ => id) ?_
    rintro fault h' ⟨he, hrefuses, hend⟩
    exact ⟨he, ⟨by rw [hcur]; rfl, hrefuses⟩, hend⟩
  | some mb =>
    simp only [meets_ite, meets_pure]
    refine ⟨fun hex => ?_, fun hex => ⟨hs, .refl h, ?_, ?_, .refl _, trivial⟩⟩
    · refine (mapMegablock_meets hs).mono (fun _ _ => id) ?_
      rintro fault h' ⟨he, hrefuses, hend⟩
      exact ⟨he, ⟨by rw [hcur]; exact hex, hrefuses⟩, hend⟩
    · obtain ⟨start, -, hstart⟩ := Option.bind_eq_some_iff.1 hcur
      exact List.mem_of_find?_eq_some hstart
    · obtain ⟨start, -, hstart⟩ := Option.bind_eq_some_iff.1 hcur
      have hle := (hs.directory.megablocks mb (List.mem_of_find?_eq_some hstart)).sliced
      simp only [Megablock.isExhausted, beq_iff_eq] at hex
      omega

/-- The next block of a megablock is loose, and counts no free slot. -/
theorem sliceBlock_meets (hs : h.Sound [] due) :
    Meets sliceBlock h
      (fun b h' => h'.Sound [b] due ∧ (h'.memory.block b).Fit ∧ h.Quiet h' ∧
        b ∉ h.arena.directory.blocks ∧
        h'.extent = { h.extent with sliced := h.extent.sliced + 1 })
      fun fault h' => fault = .outOfMemory ∧ h.Dry ∧ h'.Sound [] due ∧
        h.Quiet h' := by
  rw [sliceBlock]
  simp only [meets_bind, meets_get]
  refine (currentMegablock_meets hs).mono ?_ fun _ _ hno => hno
  rintro mb h₁ ⟨hs₁, hq, hmem, hlt, hperm, hextent⟩
  obtain ⟨hdir, hblocks⟩ : (h₁.arena.directory.insert (mb.slice h₁.memory).2.1).Mapped
      (mb.slice h₁.memory).2.2 ∧ (h₁.arena.directory.insert (mb.slice h₁.memory).2.1).blocks.Perm
        ([mb.blockBase mb.sliced] ++ h₁.arena.directory.blocks) :=
    Directory.mapped_slice hs₁.directory hmem hlt rfl le_rfl
  have hnd := hblocks.nodup_iff.1 (Directory.nodup_blocks hdir hs₁.supply)
  have hnew : mb.blockBase mb.sliced ∉ h₁.arena.directory.blocks := (List.nodup_cons.1 hnd).1
  have hsame : ∀ b ∈ h₁.arena.directory.blocks,
      (mb.slice h₁.memory).2.2.block b = h₁.memory.block b := by
    intro b hb
    have hne : mb.blockBase mb.sliced ≠ b := fun he => hnew (he ▸ hb)
    rw [Megablock.slice, Memory.block_modifyBlock, if_neg hne]
  obtain ⟨hsound, hlists⟩ := hs₁.grow hdir hblocks rfl hsame
  have hbody : ∀ b, ((mb.slice h₁.memory).2.2.block b).body = (h₁.memory.block b).body := by
    intro b
    rw [Megablock.slice, Memory.block_modifyBlock]
    split
    next he => rw [← he]
    next => rfl
  simp only [meets_set, meets_pure]
  refine ⟨hsound.of_eq rfl rfl rfl rfl, .inr ?_, hq.trans
    ⟨rfl, hlists, fun b hb => hsame b (hs₁.mem_sliced hb), hbody, rfl, rfl⟩, fun hb =>
      hnew (hperm.mem_iff.2 hb), ?_⟩
  · show ((mb.slice h₁.memory).2.2.block (mb.blockBase mb.sliced)).room = 0
    rw [Megablock.slice, Memory.block_modifyBlock, if_pos rfl]
  · rw [← hextent]
    simp only [extent, hblocks.length_eq, List.singleton_append, List.length_cons]

end Heap

end SlabHeap
