/-
  How a heap grows.

  `Extent.acquire` says what acquiring a block makes of the extent of a heap
  (`acquireBlock_extent`).  A block without an owner is taken if there is one.  Otherwise a
  block is sliced, and this is so even after the collection that the threshold asks for,
  whatever it frees.  An allocation acquires one block at most (`allocate_grows`).

  Where the roots reach no object, a collection leaves no block in use but the one that is
  about to be sliced.  The threshold stays then, and the heap grows by one block with every
  collection (`Extent.Paced`).
-/
import SlabHeap.Proofs.Heap.Allocation
import SlabHeap.Proofs.Heap.Stages

namespace SlabHeap

/-! ## Extents -/

namespace Extent

variable {e : Extent} {left : Nat}

/-- The extent after a block was acquired, where a collection would leave an object in
    `left` blocks. -/
def acquire (e : Extent) (left : Nat) : Extent :=
  if e.inUse < e.sliced then { e with inUse := e.inUse + 1 }
  else if e.inUse + 1 < e.threshold then { e with sliced := e.sliced + 1, inUse := e.inUse + 1 }
  else { e with
    sliced := e.sliced + 1
    inUse := left + 1
    threshold := adjusted (left + 1) e.threshold
    collections := e.collections + 1 }

theorem acquire_initial : (e.acquire left).initial = e.initial := by
  unfold acquire
  split
  · rfl
  · split <;> rfl

/-- While there are blocks without an owner, none is sliced. -/
theorem acquire_sliced (h : e.inUse < e.sliced) : (e.acquire left).sliced = e.sliced := by
  rw [acquire, if_pos h]

/-- One block in use is too few to raise a threshold. -/
theorem adjusted_one {threshold : Nat} (h : 2 ≤ threshold) : adjusted 1 threshold = threshold := by
  rw [adjusted, growthTenths]
  exact if_neg (by omega)

/-- The threshold stays, blocks are sliced up to it, and then one for each collection. -/
structure Paced (e : Extent) : Prop where
  threshold : e.threshold = e.initial
  before : e.collections = 0 → e.inUse = e.sliced ∧ e.sliced < e.threshold
  after : 0 < e.collections → e.sliced + 1 = e.threshold + e.collections

theorem Paced.acquire (hp : e.Paced) (h : 2 ≤ e.initial) : (e.acquire 0).Paced := by
  obtain ⟨hthreshold, hbefore, hafter⟩ := hp
  have hadjusted : adjusted (0 + 1) e.threshold = e.initial := by
    rw [Nat.zero_add, adjusted_one (hthreshold ▸ h), hthreshold]
  unfold Extent.acquire
  split
  next hlt => exact ⟨hthreshold, fun hc => absurd (hbefore hc).1 (Nat.ne_of_lt hlt), hafter⟩
  next hge =>
    split
    next hlt =>
      rcases Nat.eq_zero_or_pos e.collections with hc | hc
      · obtain ⟨hall, hless⟩ := hbefore hc
        exact ⟨hthreshold, fun _ => ⟨by rw [← hall], by rwa [← hall]⟩,
          fun hpos => absurd hc (Nat.ne_of_gt hpos)⟩
      · have hsliced := hafter hc
        omega
    next hnlt =>
      refine ⟨hadjusted, nofun, fun _ => ?_⟩
      show e.sliced + 1 + 1 = adjusted (0 + 1) e.threshold + (e.collections + 1)
      rw [hadjusted, ← hthreshold]
      rcases Nat.eq_zero_or_pos e.collections with hc | hc
      · obtain ⟨hall, hless⟩ := hbefore hc
        omega
      · have hsliced := hafter hc
        omega

end Extent

namespace Heap

variable {tagging : Tagging} {may must : Word → Word → Prop} {roots : List Word}
  {h h' h'' : Heap} {loose : List Word} {due index : Nat} {b w : Word}

theorem extent_congr (ha : h'.arena = h.arena) : h'.extent = h.extent := by
  rw [extent, ha]
  rfl

/-- The blocks that were sliced are loose, without an owner, or in use. -/
theorem Sound.sliced (hs : h.Sound loose due) :
    loose.length + h.arena.free.length h.memory + h.arena.blocksInUse = h.extent.sliced + due := by
  have hlen := hs.blocks.length_eq
  have hin := hs.inUse
  simp only [List.length_append] at hlen
  rw [BlockList.length]
  show _ = h.arena.directory.blocks.length + due
  omega

/-- The roots reach no object. -/
def Garbage (may : Word → Word → Prop) (roots : List Word) (h : Heap) : Prop :=
  ∀ x, ¬ Reached may h.arena h.memory roots x

/-- Without roots, all is garbage. -/
theorem garbage_nil : Garbage may [] h := by
  intro x hx
  induction hx with
  | root hmem _ _ => cases hmem
  | field _ _ _ _ _ ih => exact ih

theorem Garbage.congr (hg : Garbage may roots h) (hso : h.SameObjects h') :
    Garbage may roots h' := fun x hx => hg x (hso.reached.1 hx)

/-! ## Acquisitions -/

/-- A collection leaves some of the blocks that are in use, and none if all is garbage. -/
theorem collect_extent (hr : tagging.Reads may must) (hs : h.Sound [] due) :
    Meets (collect tagging roots) h
      (fun _ h' => h'.Sound [] due ∧ ∃ left, left + due ≤ h.extent.inUse ∧
        (Garbage may roots h → left = 0) ∧ h'.extent =
          { h.extent with inUse := left + due, collections := h.extent.collections + 1 })
      fun _ _ => True := by
  refine (collect_meets hr hs).mono ?_ fun _ _ _ => trivial
  rintro - h' ⟨⟨R, hR, hcol⟩, hs', hacc⟩
  refine ⟨hs', (h'.arena.owned h'.memory).length, ?_, fun hg => ?_, ?_⟩
  · have hle := (hs'.nodup_owned.subperm hcol.owned).length_le
    show _ ≤ h.arena.blocksInUse
    rw [hs.inUse]
    omega
  · refine List.length_eq_zero_iff.2 (List.eq_nil_iff_forall_not_mem.2 fun b hb => ?_)
    obtain ⟨c', hc', hb'⟩ := Arena.mem_owned.1 hb
    obtain ⟨c, -, -, hblocks⟩ := hcol.origin hc'
    obtain ⟨-, i, -, hreached⟩ := (hblocks b).1 hb'
    exact hg _ (hR.may _ hreached)
  · simp only [extent, hacc.directory, hacc.threshold, hacc.options, hacc.collections, hs'.inUse]

theorem acquireBlock_extent (hr : tagging.Reads may must) (hs : h.Sound [] 0)
    (he : acquireBlock tagging roots h = .ok b h') : ∃ left ≤ h.extent.inUse,
      (Garbage may roots h → left = 0) ∧ h'.extent = h.extent.acquire left := by
  have hs₁ : h.countBlock.Sound [] 1 := hs.countBlock
  have hsliced := hs.sliced
  -- Without a block to take, all blocks are in use.
  have hall : takeFreeBlock h.countBlock = .ok none h.countBlock →
      ¬ h.extent.inUse < h.extent.sliced := by
    intro htake
    obtain ⟨-, hnone⟩ := (takeFreeBlock_returns hs₁).of_ok htake
    have hnone' : h.arena.free.toList h.memory = [] := hnone
    have hin : h.extent.inUse = h.arena.blocksInUse := rfl
    rw [BlockList.length, hnone', List.length_nil] at hsliced
    omega
  cases acquireBlock_stages.of_ok he with
  | @reused h₁ _ htake hjournal =>
    obtain ⟨hs₂, -, -, -, hextent⟩ := (takeFreeBlock_returns hs₁).of_ok htake
    have hlt : h.extent.inUse < h.extent.sliced := by
      have hsliced₁ := hs₂.sliced
      have hin : h₁.arena.blocksInUse = h.extent.inUse + 1 := congrArg Extent.inUse hextent
      have hblocks : h.countBlock.extent.sliced = h.extent.sliced := rfl
      rw [hin, hextent, hblocks, List.length_singleton] at hsliced₁
      omega
    refine ⟨0, Nat.zero_le _, fun _ => rfl, ?_⟩
    rw [Extent.acquire, if_pos hlt]
    exact (extent_congr hjournal.2).trans hextent
  | sliced htake hlt hslice =>
    obtain ⟨-, -, -, -, hextent⟩ := (sliceBlock_meets hs₁).of_ok hslice
    have hlt' : h.extent.inUse + 1 < h.extent.threshold := hlt
    refine ⟨0, Nat.zero_le _, fun _ => rfl, ?_⟩
    rw [Extent.acquire, if_neg (hall htake), if_pos hlt', hextent]
    rfl
  | @collected h₁ h₂ _ htake hle hcollect hadjust hslice =>
    obtain ⟨hs₂, left, hleft, hnone, hextent⟩ := (collect_extent hr hs₁).of_ok hcollect
    obtain ⟨hs₃, -, -, hextent₂⟩ := (adjustThreshold_meets hs₂).of_ok hadjust
    obtain ⟨-, -, -, -, hextent₃⟩ := (sliceBlock_meets hs₃).of_ok hslice
    have hge : ¬ h.extent.inUse + 1 < h.extent.threshold := Nat.not_lt_of_ge hle
    refine ⟨left, Nat.le_of_succ_le_succ hleft, fun hg => hnone (hg.congr
      (sameObjects_of_eq rfl rfl)), ?_⟩
    rw [Extent.acquire, if_neg (hall htake), if_neg hge, hextent₃, hextent₂, hextent]
    rfl

/-! ## Allocations -/

/-- The extent of `h'` is that of `h`, or what acquiring a block makes of it. -/
def Grows (may : Word → Word → Prop) (roots : List Word) (h h' : Heap) : Prop :=
  h'.extent = h.extent ∨ ∃ left ≤ h.extent.inUse, (Garbage may roots h → left = 0) ∧
    h'.extent = h.extent.acquire left

theorem Grows.after (hg : Grows may roots h' h'') (hso : h.SameObjects h')
    (he : h'.extent = h.extent) : Grows may roots h h'' := by
  unfold Grows at hg ⊢
  rw [he] at hg
  refine hg.imp_right ?_
  rintro ⟨left, hle, hnone, hextent⟩
  exact ⟨left, hle, fun hgarbage => hnone (hgarbage.congr hso), hextent⟩

theorem Grows.initial (hg : Grows may roots h h') : h'.extent.initial = h.extent.initial := by
  rcases hg with he | ⟨left, -, -, he⟩
  · rw [he]
  · rw [he, Extent.acquire_initial]

/-- While there are blocks without an owner, none is sliced. -/
theorem Grows.sliced (hg : Grows may roots h h') (hlt : h.extent.inUse < h.extent.sliced) :
    h'.extent.sliced = h.extent.sliced := by
  rcases hg with he | ⟨left, -, -, he⟩
  · rw [he]
  · rw [he, Extent.acquire_sliced hlt]

theorem Grows.paced (hg : Grows may roots h h') (hgarbage : Garbage may roots h)
    (hp : h.extent.Paced) (ht : 2 ≤ h.extent.initial) : h'.extent.Paced := by
  rcases hg with he | ⟨left, -, hnone, he⟩
  · rwa [he]
  · rw [he, hnone hgarbage]
    exact hp.acquire ht

theorem allocate_grows (hr : tagging.Reads may must) (hs : h.Sound [] 0)
    (he : allocate tagging roots index h = .ok w h') : Grows may roots h h' := by
  suffices Grows may roots h.countObject h' from this.after (sameObjects_of_eq rfl rfl) rfl
  obtain ⟨c, -, hprovides⟩ := allocate_provides hs he
  cases hprovides with
  | available _ _ hadds => exact .inl hadds.extent
  | acquired _ hacquire _ _ _ _ _ hadds =>
    obtain ⟨left, hle, hnone, hextent⟩ := acquireBlock_extent hr hs.countObject hacquire
    exact .inr ⟨left, hle, hnone, hadds.extent.trans hextent⟩

end Heap

end SlabHeap
