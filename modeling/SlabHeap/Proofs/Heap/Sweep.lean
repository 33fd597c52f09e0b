/-
  Sorting the blocks of a cache.

  A sweep changes the links of blocks and tells which ones have no owner, and nothing
  else in them (`Memory.Moved`).  While a cache is sorted, `Sorted` says where the
  blocks that are done are: by the count of their free slots they are full, without an
  owner, or available, where one available block is held back.  Sorting one block
  keeps this (`place_returns`), and so all blocks of a cache get their place
  (`sweep_returns`).
-/
import SlabHeap.Proofs.Heap.Sound
import SlabHeap.Heap.Sweep

namespace SlabHeap

variable {m m' : Memory} {b x : Word} {bs : List Word} {f g : Word → Bool}

namespace Memory

/-- `m'` differs from `m` in the links of the blocks `bs`, and in the flags `f` that
    tell which of them have no owner. -/
structure Moved (m m' : Memory) (bs : List Word) (f : Word → Bool) : Prop where
  changes : m.Changes m' bs
  block : ∀ b ∈ bs, ∃ link, m'.block b = { m.block b with link, free := f b }

theorem Moved.push (h : m.Moved m' bs f) (l : BlockList) (hx : x ∈ bs) :
    m.Moved (l.push m' x).2 bs f where
  changes := h.changes.trans ((BlockList.changes_push l m' x).mono (by simpa using hx))
  block b hb := by
    obtain ⟨link, hl⟩ := h.block b hb
    rw [BlockList.block_push, hl]
    split
    · exact ⟨l.first, rfl⟩
    · exact ⟨link, rfl⟩

theorem Moved.modifyFree (h : m.Moved m' bs f) (hx : x ∈ bs) (hgx : g x = true)
    (hg : ∀ b, x ≠ b → g b = f b) : m.Moved (m'.modifyBlock x ({ · with free := true })) bs g where
  changes := h.changes.trans ((changes_setBlock m' x _).mono (by simpa using hx))
  block b hb := by
    obtain ⟨link, hl⟩ := h.block b hb
    refine ⟨link, ?_⟩
    rw [block_modifyBlock]
    split
    next he => subst he; rw [hl, hgx]
    next he => rw [hl, hg b he]

theorem Moved.congr (h : m.Moved m' bs f) (hg : ∀ b ∈ bs, g b = f b) : m.Moved m' bs g where
  changes := h.changes
  block b hb := by rw [hg b hb]; exact h.block b hb

theorem Moved.room (h : m.Moved m' bs f) (hb : b ∈ bs) : (m'.block b).room = (m.block b).room := by
  obtain ⟨link, hl⟩ := h.block b hb
  rw [hl]

theorem Moved.layout (h : m.Moved m' bs f) (hb : b ∈ bs) :
    (m'.block b).layout = (m.block b).layout := by
  obtain ⟨link, hl⟩ := h.block b hb
  rw [hl]

end Memory

namespace Sweep

variable {s : Sweep} {c : Cache} {idle : BlockList} {done todo av fl fr : List Word}

/-! ## Lists -/

/-- The links of the three lists lead through these blocks. -/
structure Threads (s : Sweep) (av fl fr : List Word) : Prop where
  available : BlockList.Chain s.memory s.available.first av
  full : BlockList.Chain s.memory s.full.first fl
  free : BlockList.Chain s.memory s.free.first fr

/-- A chain without the block that is pushed stays as it is. -/
theorem chain_push_beside {first : Option Word} {l : BlockList} (h : BlockList.Chain m first bs)
    (hx : x ∉ bs) : BlockList.Chain (l.push m x).2 first bs :=
  h.congr fun b hb => by
    rw [(BlockList.changes_push l m x).block b fun he => hx (List.mem_singleton.1 he ▸ hb)]

theorem Threads.keep (h : s.Threads av fl fr) (ha : x ∉ av) (hf : x ∉ fl) (hr : x ∉ fr) :
    (s.keep x).Threads (x :: av) fl fr :=
  ⟨BlockList.chain_push h.available ha, chain_push_beside h.full hf, chain_push_beside h.free hr⟩

theorem Threads.keepFull (h : s.Threads av fl fr) (ha : x ∉ av) (hf : x ∉ fl) (hr : x ∉ fr) :
    (s.keepFull x).Threads av (x :: fl) fr :=
  ⟨chain_push_beside h.available ha, BlockList.chain_push h.full hf, chain_push_beside h.free hr⟩

theorem Threads.release (h : s.Threads av fl fr) (ha : x ∉ av) (hf : x ∉ fl) (hr : x ∉ fr) :
    (s.release x).Threads av fl (x :: fr) := by
  have hlink : ∀ b, ((s.memory.modifyBlock x ({ · with free := true })).block b).link =
      (s.memory.block b).link := by
    intro b
    rw [Memory.block_modifyBlock]
    split
    next he => rw [← he]
    next => rfl
  exact ⟨chain_push_beside (h.available.congr fun b _ => hlink b) ha,
    chain_push_beside (h.full.congr fun b _ => hlink b) hf,
    BlockList.chain_push (h.free.congr fun b _ => hlink b) hr⟩

/-! ## Places -/

variable (c m idle)

/-- Tests that no slot of a block is in use. -/
def isDead (b : Word) : Bool := (m.block b).room == c.shape.slots

/-- Tests that every slot of a block is in use. -/
def isFull (b : Word) : Bool := (m.block b).room == 0

/-- Tests that some slots of a block are in use and others are free. -/
def isPartial (b : Word) : Bool := !isFull m b && !isDead m c b

/-- The state of a sweep of the cache `c` in `m` when the blocks `done` are sorted,
    the available ones in the order `av`. -/
structure Sorted (done av : List Word) (s : Sweep) : Prop where
  threads : s.Threads av (done.filter (isFull m)).reverse
    ((done.filter (isDead m c)).reverse ++ idle.toList m)
  perm : (s.fullest.toList ++ av).Perm (done.filter (isPartial m c))
  freed : s.freed = (done.filter (isDead m c)).length
  moved : m.Moved s.memory (c.blocks m) fun b => done.contains b && isDead m c b

variable {c m idle}

theorem isDead_of_isFull (h : isFull m b = true) : isDead m c b = false := by
  have := c.shape.slots_pos
  simp only [isFull, isDead, beq_iff_eq, beq_eq_false_iff_ne] at h ⊢
  omega

/-- The block that is held back is done, and on no list. -/
theorem Sorted.held {held : Word} (h : Sorted m c idle done av s) (hnd : done.Nodup)
    (hidle : ∀ b ∈ done, b ∉ idle.toList m) (hf : s.fullest = some held) :
    held ∈ done ∧ held ∉ av ∧ held ∉ (done.filter (isFull m)).reverse ∧
      held ∉ (done.filter (isDead m c)).reverse ++ idle.toList m := by
  have hp := h.perm
  rw [hf, Option.toList_some, List.singleton_append] at hp
  obtain ⟨hmem, hpart⟩ := List.mem_filter.1 (hp.subset (List.mem_cons_self ..))
  have hav := (List.nodup_cons.1 (hp.nodup_iff.2 (hnd.filter _))).1
  simp only [isPartial, Bool.and_eq_true, Bool.not_eq_true'] at hpart
  refine ⟨hmem, hav, by simp [hpart.1], ?_⟩
  simp [hpart.2, hidle held hmem]

/-- A block that is to come is on no list. -/
theorem Sorted.next (h : Sorted m c idle done av s) (hx : x ∉ done) (hidle : x ∉ idle.toList m) :
    x ∉ av ∧ x ∉ (done.filter (isFull m)).reverse ∧
      x ∉ (done.filter (isDead m c)).reverse ++ idle.toList m := by
  refine ⟨fun hmem => hx ?_, by simp [hx], by simp [hx, hidle]⟩
  exact (List.mem_filter.1 (h.perm.subset (List.mem_append_right _ hmem))).1

/-- The block held back is put in front of the available ones. -/
theorem Sorted.keep_held {held : Word} (h : Sorted m c idle done av s) (hnd : done.Nodup)
    (hblocks : done ⊆ c.blocks m) (hidle : ∀ b ∈ done, b ∉ idle.toList m)
    (hf : s.fullest = some held) (next : Option Word) :
    ({ s.keep held with fullest := next } : Sweep).Threads (held :: av)
      (done.filter (isFull m)).reverse ((done.filter (isDead m c)).reverse ++ idle.toList m) ∧
    (held :: av).Perm (done.filter (isPartial m c)) ∧
    m.Moved (s.keep held).memory (c.blocks m) fun b => done.contains b && isDead m c b := by
  obtain ⟨hmem, h1, h2, h3⟩ := h.held hnd hidle hf
  have ht := h.threads.keep h1 h2 h3
  refine ⟨⟨ht.available, ht.full, ht.free⟩, ?_, h.moved.push _ (hblocks hmem)⟩
  have hp := h.perm
  rwa [hf, Option.toList_some, List.singleton_append] at hp

/-! ## Sorting -/

/-- A block with a used slot and a free one becomes available. -/
theorem Sorted.keepAvailable (h : Sorted m c idle done av s) (hnd : done.Nodup)
    (hblocks : done ++ [x] ⊆ c.blocks m) (hidle : ∀ b ∈ c.blocks m, b ∉ idle.toList m)
    (hx : x ∉ done) (hfull : isFull m x = false) (hdead : isDead m c x = false) :
    ∃ av', Sorted m c idle (done ++ [x]) av' (s.keepAvailable x) := by
  have hxb : x ∈ c.blocks m := hblocks (by simp)
  have hdone : done ⊆ c.blocks m := fun b hb => hblocks (List.mem_append_left _ hb)
  obtain ⟨n1, n2, n3⟩ := h.next hx (hidle x hxb)
  have hpart : isPartial m c x = true := by simp [isPartial, hfull, hdead]
  have hfl : (done ++ [x]).filter (isFull m) = done.filter (isFull m) := by simp [hfull]
  have hde : (done ++ [x]).filter (isDead m c) = done.filter (isDead m c) := by simp [hdead]
  have hpa : (done ++ [x]).filter (isPartial m c) = done.filter (isPartial m c) ++ [x] := by
    simp [hpart]
  have hflag : ∀ b ∈ c.blocks m, ((done ++ [x]).contains b && isDead m c b) =
      (done.contains b && isDead m c b) := by
    intro b _
    by_cases he : b = x
    · simp [he, hdead]
    · simp [he]
  have hperm {ys : List Word} (hp : ys.Perm (done.filter (isPartial m c))) :
      (x :: ys).Perm (done.filter (isPartial m c) ++ [x]) :=
    (hp.cons x).trans (List.perm_append_singleton x _).symm
  rw [Sweep.keepAvailable]
  cases hf : s.fullest with
  | none =>
    have hp := h.perm
    rw [hf] at hp
    refine ⟨av, ⟨?_, ?_, ?_, h.moved.congr hflag⟩⟩
    · rw [hfl, hde]; exact ⟨h.threads.available, h.threads.full, h.threads.free⟩
    · rw [hpa]; exact hperm hp
    · rw [hde]; exact h.freed
  | some held =>
    obtain ⟨ht, hp, hm⟩ := h.keep_held hnd hdone (fun b hb => hidle b (hdone hb)) hf (some x)
    simp only
    split
    · refine ⟨held :: av, ⟨?_, ?_, ?_, hm.congr hflag⟩⟩
      · rw [hfl, hde]; exact ht
      · rw [hpa]; exact hperm hp
      · rw [hde]; exact h.freed
    · refine ⟨x :: av, ⟨?_, ?_, ?_, (h.moved.push _ hxb).congr hflag⟩⟩
      · rw [hfl, hde]; exact h.threads.keep n1 n2 n3
      · rw [hpa, show (s.keep x).fullest = s.fullest from rfl, hf, Option.toList_some]
        exact (List.Perm.swap ..).trans (hperm hp)
      · rw [hde]; exact h.freed

/-- Every block of a cache that is kept gets a place. -/
theorem place_returns (hk : c.Kept m) (hl : done ++ x :: todo = c.blocks m)
    (hnd : (c.blocks m).Nodup) (hidle : ∀ b ∈ c.blocks m, b ∉ idle.toList m)
    (h : Sorted m c idle done av s) :
    Returns (place c.shape x) s fun _ s' => ∃ av', Sorted m c idle (done ++ [x]) av' s' := by
  have hxb : x ∈ c.blocks m := by rw [← hl]; simp
  have hblocks : done ++ [x] ⊆ c.blocks m := by rw [← hl]; simp
  rw [← hl, List.nodup_append, List.nodup_cons] at hnd
  have hx : x ∉ done := fun hmem => hnd.2.2 x hmem x (List.mem_cons_self ..) rfl
  obtain ⟨n1, n2, n3⟩ := h.next hx (hidle x hxb)
  simp only [Returns, place, meets_bind, meets_get, meets_ite, meets_throw, meets_set,
    h.moved.room hxb, h.moved.layout hxb, (hk.serves x hxb).layout, not_true, false_imp_iff,
    not_false_eq_true, true_imp_iff, true_and, ne_eq]
  refine ⟨fun hr => ⟨av, ?_⟩, fun hr => ⟨fun hr' => ⟨av, ?_⟩, fun hr' => ?_⟩⟩
  · have hfull : isFull m x = true := by simp [isFull, hr]
    have hdead := isDead_of_isFull (c := c) hfull
    refine ⟨?_, ?_, ?_, (h.moved.push _ hxb).congr fun b _ => ?_⟩
    · simpa [hfull, hdead] using h.threads.keepFull n1 n2 n3
    · simpa [hdead, hfull, isPartial, Sweep.keepFull] using h.perm
    · simpa [hdead, Sweep.keepFull] using h.freed
    · by_cases he : b = x
      · simp [he, hdead]
      · simp [he]
  · have hdead : isDead m c x = true := by simp [isDead, hr']
    have hfull : isFull m x = false := by simp [isFull, hr]
    refine ⟨?_, ?_, ?_, (h.moved.modifyFree hxb ?_ fun b hb => ?_).push _ hxb⟩
    · simpa [hfull, hdead] using h.threads.release n1 n2 n3
    · simpa [hdead, isPartial, Sweep.release] using h.perm
    · simpa [hdead, Sweep.release] using h.freed
    · simp [hdead]
    · simp [Ne.symm hb]
  · exact h.keepAvailable hnd.1 hblocks hidle hx (by simp [isFull, hr]) (by simp [isDead, hr'])

/-- `c'` in `m'` has the blocks of the cache `c` in `m` that are in use, sorted by the
    count of their free slots. -/
structure SortedTo (c : Cache) (m : Memory) (c' : Cache) (m' : Memory) : Prop where
  shape : c'.shape = c.shape
  available : (c'.available.toList m').Perm ((c.blocks m).filter (isPartial m c))
  full : c'.full.toList m' = ((c.blocks m).filter (isFull m)).reverse
  block : ∀ b ∈ c.blocks m, ∃ link, m'.block b = { m.block b with link, free := isDead m c b }

theorem SortedTo.blocks_perm {c' : Cache} (h : SortedTo c m c' m') :
    (c'.blocks m').Perm ((c.blocks m).filter fun b => !isDead m c b) := by
  have hsplit := List.filter_append_perm (isFull m) ((c.blocks m).filter fun b => !isDead m c b)
  rw [List.filter_filter, List.filter_filter] at hsplit
  have hfull : (c.blocks m).filter (fun b => isFull m b && !isDead m c b) =
      (c.blocks m).filter (isFull m) := by
    refine List.filter_congr fun b _ => ?_
    cases hf : isFull m b with
    | false => rfl
    | true => rw [isDead_of_isFull hf]; rfl
  rw [hfull] at hsplit
  rw [Cache.blocks, h.full]
  exact (h.available.append (List.reverse_perm _)).trans (List.perm_append_comm.trans hsplit)

/-- The blocks that a cache keeps are those with a used slot. -/
theorem SortedTo.mem_blocks {c' : Cache} (h : SortedTo c m c' m') :
    b ∈ c'.blocks m' ↔ b ∈ c.blocks m ∧ isDead m c b = false := by
  rw [h.blocks_perm.mem_iff, List.mem_filter, Bool.not_eq_true']

/-- What happens to other blocks afterwards does not matter. -/
theorem SortedTo.frame {c' : Cache} {m'' : Memory} (h : SortedTo c m c' m')
    (hl : c'.SameLists m' m'') (hb : ∀ b ∈ c.blocks m, m''.block b = m'.block b) :
    SortedTo c m c' m'' where
  shape := h.shape
  available := by rw [hl.available]; exact h.available
  full := by rw [hl.full]; exact h.full
  block b hmem := by rw [hb b hmem]; exact h.block b hmem

theorem isDead_congr (hb : m'.block b = m.block b) : isDead m' c b = isDead m c b := by
  rw [isDead, isDead, hb]

/-- What happened to other blocks before does not matter. -/
theorem SortedTo.rebase {c' : Cache} {m'' : Memory} (h : SortedTo c m' c' m'')
    (hl : c.SameLists m m') (hb : ∀ b ∈ c.blocks m, m'.block b = m.block b) :
    SortedTo c m c' m'' := by
  have hblocks := hl.blocks
  have hfull : ∀ b ∈ c.blocks m, isFull m' b = isFull m b := by
    intro b hmem
    rw [isFull, isFull, hb b hmem]
  have hdead : ∀ b ∈ c.blocks m, isDead m' c b = isDead m c b := fun b hmem =>
    isDead_congr (hb b hmem)
  refine ⟨h.shape, ?_, ?_, ?_⟩
  · have hp := h.available
    rw [hblocks] at hp
    refine hp.trans (.of_eq (List.filter_congr fun b hmem => ?_))
    rw [isPartial, isPartial, hfull b hmem, hdead b hmem]
  · rw [h.full, hblocks, List.filter_congr hfull]
  · intro b hmem
    obtain ⟨link, he⟩ := h.block b (by rw [hblocks]; exact hmem)
    rw [hdead b hmem, hb b hmem] at he
    exact ⟨link, he⟩

/-- The cache with the lists that a sweep made. -/
def result (s : Sweep) (c : Cache) : Cache :=
  { c with available := s.available, full := s.full }

/-- What sweeping the cache `c` in `m`, beside the list `idle` of the blocks without
    an owner, ends in. -/
structure Swept (m : Memory) (c : Cache) (idle : BlockList) (s : Sweep) : Prop where
  kept : (s.result c).Kept s.memory
  sorted : SortedTo c m (s.result c) s.memory
  free : s.free.Linked s.memory
  released : s.free.toList s.memory =
    ((c.blocks m).filter (isDead m c)).reverse ++ idle.toList m
  freed : s.freed = ((c.blocks m).filter (isDead m c)).length
  changes : m.Changes s.memory (c.blocks m)

theorem Sorted.swept (h : Sorted m c idle (c.blocks m) av s) (hk : c.Kept m)
    (hs : s.fullest = none) : Swept m c idle s := by
  have hp := h.perm
  rw [hs, Option.toList_none, List.nil_append] at hp
  have hmoved : m.Moved s.memory (c.blocks m) (isDead m c) :=
    h.moved.congr fun b hb => by simp [hb]
  have hsorted : SortedTo c m (s.result c) s.memory := by
    refine ⟨rfl, ?_, BlockList.Chain.toList h.threads.full, hmoved.block⟩
    rw [show (s.result c).available = s.available from rfl,
      BlockList.Chain.toList h.threads.available]
    exact hp
  refine ⟨⟨BlockList.Chain.linked h.threads.available, BlockList.Chain.linked h.threads.full, ?_⟩,
    hsorted, BlockList.Chain.linked h.threads.free, BlockList.Chain.toList h.threads.free,
    h.freed, hmoved.changes⟩
  intro b hb
  obtain ⟨hmem, hdead⟩ := hsorted.mem_blocks.1 hb
  obtain ⟨link, hl⟩ := hmoved.block b hmem
  have hserves := hk.serves b hmem
  rw [hl, hdead, ← hserves.free]
  exact hserves.relink link

/-- All blocks of a cache get their place. -/
theorem placeAll_returns (hk : c.Kept m) (hnd : (c.blocks m).Nodup)
    (hidle : ∀ b ∈ c.blocks m, b ∉ idle.toList m) (h : Sorted m c idle [] av s) :
    Returns (placeAll c.shape (c.blocks m)) s fun _ s' => Swept m c idle s' := by
  rw [placeAll]
  simp only [Returns, meets_bind, meets_modify]
  refine (meets_forM (I := fun done todo s =>
    done ++ todo = c.blocks m ∧ ∃ av, Sorted m c idle done av s) ⟨rfl, av, h⟩ ?_).mono ?_
    fun _ _ => id
  · rintro done x todo t ⟨hl, av, ht⟩
    exact (place_returns hk hl hnd hidle ht).mono fun _ t' ht' => ⟨by simpa using hl, ht'⟩
  · rintro - t ⟨-, av, ht⟩
    rw [finish]
    cases hf : t.fullest with
    | none => exact ht.swept hk hf
    | some held =>
      obtain ⟨h1, h2, h3⟩ := ht.keep_held hnd (List.Subset.refl _) hidle hf none
      exact Sorted.swept ⟨h1, h2, ht.freed, h3⟩ hk rfl

/-- The full blocks stay on their list while the available ones come off theirs. -/
theorem full_of_drained (hk : c.Kept m) (hnd : (c.blocks m).Nodup) :
    c.full.Linked (c.available.drain m).2 ∧
      c.full.toList (c.available.drain m).2 = c.full.toList m := by
  rw [Cache.blocks, List.nodup_append] at hnd
  obtain ⟨-, hch, -⟩ := BlockList.drain_of_linked hk.available
  refine hk.full.congr fun b hb => ?_
  rw [hch.block b fun hb' => hnd.2.2 b hb' b hb rfl]

/-- The lists of a cache are drained before its blocks are sorted, which clears the links of
    these. -/
theorem start_drains (hk : c.Kept m) (hnd : (c.blocks m).Nodup) (free : BlockList) :
    (start c m free).2 = c.blocks m ∧
      m.Changes (start c m free).1.memory (c.blocks m) ∧ ∀ b ∈ c.blocks m,
        (start c m free).1.memory.block b = { m.block b with link := none } := by
  obtain ⟨ha, hch, hblock⟩ := BlockList.drain_of_linked hk.available
  obtain ⟨hfl, hfl'⟩ := full_of_drained hk hnd
  obtain ⟨hf, hch', hblock'⟩ := BlockList.drain_of_linked hfl
  rw [hfl'] at hf hch' hblock'
  refine ⟨by simp only [start, ha, hf, Cache.blocks], (hch.mono (List.subset_append_left ..)).trans
    (hch'.mono (List.subset_append_right ..)), fun b hb => ?_⟩
  simp only [start]
  rw [hblock', hblock]
  by_cases hfull : b ∈ c.full.toList m
  · rw [if_pos hfull]
    split <;> rfl
  · rw [if_neg hfull, if_pos ((Cache.mem_blocks.1 hb).resolve_right hfull)]

/-- Before any block is sorted, the lists of a cache are empty. -/
theorem sorted_start (hk : c.Kept m) (hnd : (c.blocks m).Nodup) (hl : idle.Linked m)
    (hidle : ∀ b ∈ c.blocks m, b ∉ idle.toList m) :
    (start c m idle).2 = c.blocks m ∧ Sorted m c idle [] [] (start c m idle).1 := by
  obtain ⟨hblocks, hch, hblock⟩ := start_drains hk hnd idle
  have hmoved : m.Moved (start c m idle).1.memory (c.blocks m) fun _ => false := by
    refine ⟨hch, fun b hb => ⟨none, ?_⟩⟩
    rw [hblock b hb, ← (hk.serves b hb).free]
  have hfree := hl.congr fun b hb => by
    rw [hmoved.changes.block b fun hb' => hidle b hb' hb]
  refine ⟨hblocks, ⟨.nil, .nil, ?_⟩, .refl _, rfl, hmoved⟩
  have := hfree.1
  rw [BlockList.Linked, hfree.2] at this
  exact this

end Sweep

end SlabHeap
