/-
  Drawing slots from a cache.

  A step of a program is one of three to a cache (`Cache.Gives`): it leaves the blocks of the
  cache alone, or it takes a slot of an available block, or, as none is available, it takes
  over a block with its slot `0`.  As long as no collection runs, the slots come in two
  batches.  First come those that are free, in some order, and then those of the blocks that
  are taken over, block after block and in the order of their slots: such a block is filled to
  the end before the next one is taken over (`Drawn`, `Drawn.step`).
-/
import SlabHeap.Proofs.Block.Search
import SlabHeap.Proofs.Heap.Cache

namespace SlabHeap

/-! ## Slots -/

/-- The address of the slot `i` of a block. -/
def Shape.slotAt (s : Shape) (base : Word) (i : Nat) : Word :=
  Word.plus base (s.layout.slotWord i * Word.bytes)

/-- The slots of a block, in their order. -/
def Shape.slotsAt (s : Shape) (base : Word) : List Word :=
  (List.range s.slots).map (s.slotAt base)

/-- The free slots of a block. -/
def Shape.freeAt (s : Shape) (m : Memory) (base : Word) : List Word :=
  ((List.range s.slots).filter fun i => !(m.block base).bitmap.bit i).map (s.slotAt base)

/-- The free slots of the blocks of a cache. -/
def Cache.freeSlots (c : Cache) (m : Memory) : List Word :=
  (c.blocks m).flatMap (c.shape.freeAt m)

variable {s : Shape} {m m' m'' m₁ : Memory} {c c' c'' : Cache} {base b : Word} {i k : Nat}
  {drawn bs : List Word}

namespace Shape

theorem length_slotsAt : (s.slotsAt base).length = s.slots := by
  rw [slotsAt, List.length_map, List.length_range]

theorem length_flatMap_slotsAt {bs : List Word} :
    (bs.flatMap s.slotsAt).length = bs.length * s.slots := by
  induction bs with
  | nil => simp
  | cons b bs ih => rw [List.flatMap_cons, List.length_append, ih, length_slotsAt, List.length_cons,
      Nat.succ_mul, Nat.add_comm]

theorem take_succ_slotsAt (hi : i < s.slots) :
    (s.slotsAt base).take (i + 1) = (s.slotsAt base).take i ++ [s.slotAt base i] := by
  have hlt : i < (s.slotsAt base).length := by rwa [length_slotsAt]
  rw [List.take_succ_eq_append_getElem hlt]
  simp [slotsAt]

theorem freeAt_eq_nil (hs : (m.block base).Serves s) :
    s.freeAt m base = [] ↔ (m.block base).room = 0 := by
  rw [hs.room, Bitmap.vacant_eq_zero, freeAt, List.map_eq_nil_iff, List.filter_eq_nil_iff]
  simp

theorem freeAt_congr (h : (m'.block base).bitmap = (m.block base).bitmap) :
    s.freeAt m' base = s.freeAt m base := by
  rw [freeAt, freeAt, h]

/-- A slot that is taken is free no longer. -/
theorem freeAt_took (h : Block.Took s i (m.block base) (m'.block base)) :
    (s.slotAt base i :: s.freeAt m' base).Perm (s.freeAt m base) := by
  have hmem : i ∈ (List.range s.slots).filter fun j => !(m.block base).bitmap.bit j := by
    simp [h.lt, h.clear]
  have hnd : ((List.range s.slots).filter fun j => !(m.block base).bitmap.bit j).Nodup :=
    List.nodup_range.filter _
  have hrest : ((List.range s.slots).filter fun j => !(m'.block base).bitmap.bit j) =
      ((List.range s.slots).filter fun j => !(m.block base).bitmap.bit j).erase i := by
    rw [hnd.erase_eq_filter, List.filter_filter]
    refine List.filter_congr fun j _ => ?_
    rw [h.bits]
    by_cases hij : i = j
    · simp [hij]
    · simp [hij, Ne.symm hij]
  rw [freeAt, freeAt, hrest, ← List.map_cons]
  exact (List.perm_cons_erase hmem).symm.map _

end Shape

namespace Cache

/-! ## Rest -/

/-- The blocks of the cache are left alone, but for the words of their slots. -/
structure Rests (c : Cache) (m m' : Memory) : Prop where
  lists : c.SameLists m m'
  block : ∀ b ∈ c.blocks m, Block.SameHeader (m.block b) (m'.block b)

/-- Blocks that stay as they are are left alone. -/
theorem rests_of_same (hl : c.SameLists m m') (hb : ∀ b ∈ c.blocks m, m'.block b = m.block b) :
    c.Rests m m' :=
  ⟨hl, fun b hmem => hb b hmem ▸ .refl _⟩

theorem Rests.refl (c : Cache) (m : Memory) : c.Rests m m := rests_of_same ⟨rfl, rfl⟩ fun _ _ => rfl

theorem Rests.trans (hr : c.Rests m m') (hr' : c.Rests m' m'') : c.Rests m m'' := by
  refine ⟨hr.lists.trans hr'.lists, fun b hb => ?_⟩
  have h := hr.block b hb
  have h' := hr'.block b (hr.lists.blocks ▸ hb)
  exact ⟨h'.link.trans h.link, h'.layout.trans h.layout, h'.free.trans h.free,
    h'.room.trans h.room, h'.hint.trans h.hint, h'.bitmap.trans h.bitmap⟩

theorem Rests.placed (hr : c.Rests m m') (hp : c.Placed m) : c.Placed m' :=
  hp.congr hr.lists fun b hb => (hr.block b hb).room

theorem Rests.freeSlots (hr : c.Rests m m') : c.freeSlots m' = c.freeSlots m := by
  rw [Cache.freeSlots, Cache.freeSlots, hr.lists.blocks]
  exact List.flatMap_congr fun b hb => Shape.freeAt_congr (hr.block b hb).bitmap

/-! ## Free slots -/

/-- Where the blocks are on the lists that they belong on, a slot is free if a block is
    available. -/
theorem freeSlots_eq_nil (hk : c.Kept m) (hp : c.Placed m) :
    c.freeSlots m = [] ↔ c.available.toList m = [] := by
  rw [freeSlots, List.flatMap_eq_nil_iff]
  constructor
  · intro hnone
    refine List.eq_nil_iff_forall_not_mem.2 fun b hb => ?_
    have hmem : b ∈ c.blocks m := mem_blocks.2 (.inl hb)
    have hroom := (Shape.freeAt_eq_nil (hk.serves b hmem)).1 (hnone b hmem)
    exact absurd hroom (hp.available b hb).1.ne'
  · intro hnil b hb
    rw [Cache.blocks, hnil, List.nil_append] at hb
    exact (Shape.freeAt_eq_nil (hk.serves b (mem_blocks.2 (.inr hb)))).2 (hp.full b hb)

theorem Allocated.freeSlots (ha : c.Allocated m base i c' m') (hk : c.Kept m)
    (hnd : (c.blocks m).Nodup) :
    (c.shape.slotAt base i :: c'.freeSlots m').Perm (c.freeSlots m) := by
  have hsplit := List.perm_cons_erase (hk.first_mem ha.first)
  have hrest : ((c.blocks m).erase base).flatMap (c.shape.freeAt m') =
      ((c.blocks m).erase base).flatMap (c.shape.freeAt m) := by
    refine List.flatMap_congr fun b hb => Shape.freeAt_congr ?_
    have hne : b ≠ base := (hnd.mem_erase_iff.1 hb).1
    rw [ha.changes.block b (by simpa using hne)]
  have hafter : (c'.freeSlots m').Perm
      (c.shape.freeAt m' base ++ ((c.blocks m).erase base).flatMap (c.shape.freeAt m)) := by
    rw [← hrest, ← List.flatMap_cons, Cache.freeSlots, ha.shape]
    exact ((ha.blocks hk).trans hsplit).flatMap_right _
  refine (hafter.cons _).trans (((Shape.freeAt_took ha.block).append_right _).trans ?_)
  rw [← List.flatMap_cons]
  exact hsplit.symm.flatMap_right _

/-! ## Filling a block -/

/-- The block `b` is the only one of the cache that may be available, and the first `k` of its
    slots are in use. -/
structure Filling (c : Cache) (m : Memory) (b : Word) (k : Nat) : Prop where
  le : k ≤ c.shape.slots
  available : c.available.toList m = if k = c.shape.slots then [] else [b]
  full : k = c.shape.slots → b ∈ c.full.toList m
  room : (m.block b).room = c.shape.slots - k
  bits : ∀ i < c.shape.slots, (m.block b).bitmap.bit i = decide (i < k)
  hint : (m.block b).hint ≤ Bitmap.hintOf k

theorem Filling.mem (hf : c.Filling m b k) : b ∈ c.blocks m := by
  by_cases hk : k = c.shape.slots
  · exact mem_blocks.2 (.inr (hf.full hk))
  · refine mem_blocks.2 (.inl ?_)
    rw [hf.available, if_neg hk]
    exact List.mem_singleton_self b

theorem Filling.rests (hf : c.Filling m b k) (hr : c.Rests m m') : c.Filling m' b k := by
  have hb := hr.block b hf.mem
  refine ⟨hf.le, ?_, fun hk => ?_, ?_, fun i hi => ?_, ?_⟩
  · rw [hr.lists.available, hf.available]
  · rw [hr.lists.full]
    exact hf.full hk
  · rw [hb.room, hf.room]
  · rw [hb.bitmap, hf.bits i hi]
  · rw [hb.hint]
    exact hf.hint

/-- The next slot is the one behind those in use. -/
theorem Filling.allocated (hf : c.Filling m b k) (hk : c.Kept m)
    (ha : c.Allocated m base i c' m') :
    base = b ∧ i = k ∧ k < c.shape.slots ∧ c'.Filling m' b (k + 1) := by
  obtain ⟨bs, hbs, -⟩ := hk.available.toList_of_first ha.first
  have havailable := hf.available
  rw [hbs] at havailable
  have hne : k ≠ c.shape.slots := by
    rintro rfl
    simp at havailable
  have hlt : k < c.shape.slots := Nat.lt_of_le_of_ne hf.le hne
  rw [if_neg hne, List.cons.injEq] at havailable
  obtain ⟨rfl, rfl⟩ := havailable
  have hserves := hk.serves base hf.mem
  have hfound : (m.block base).bitmap.find (m.block base).hint = .ok k := by
    refine Bitmap.find_first (fun j hj => ?_) ?_ hf.hint (hserves.div_lt hlt)
    · rw [hf.bits j (hj.trans hlt)]
      exact decide_eq_true hj
    · rw [hf.bits k hlt]
      exact decide_eq_false (Nat.lt_irrefl k)
  obtain rfl : i = k := Except.ok.inj (ha.block.found.symm.trans hfound)
  have hroom := hf.room
  refine ⟨rfl, rfl, hlt, ⟨?_, ?_, fun hlast => ?_, ?_, fun j hj => ?_, ?_⟩⟩
  · rw [ha.shape]
    exact hlt
  · rw [ha.shape, ha.available, hbs]
    by_cases hlast : i + 1 = c.shape.slots
    · rw [if_pos hlast, if_pos (by omega), List.tail_cons]
    · rw [if_neg hlast, if_neg (by omega)]
  · rw [ha.shape] at hlast
    rw [ha.full, if_pos (by omega)]
    exact List.mem_cons_self ..
  · rw [ha.block.room, ha.shape]
    omega
  · rw [ha.shape] at hj
    rw [ha.block.bits, hf.bits j hj, ← Bool.decide_or, decide_eq_decide]
    omega
  · rw [ha.block.hint]
    exact Nat.div_le_div_right (Nat.le_succ i)

/-- Of a block that is taken over while none is available, one slot is in use. -/
theorem TookOver.filling (ht : c.TookOver m b c' m') (hnone : c.available.toList m = []) :
    c'.Filling m' b 1 := by
  refine ⟨?_, ?_, fun hone => ?_, ?_, fun i hi => ?_, ?_⟩
  · rw [ht.shape]
    exact c.shape.slots_pos
  · rw [ht.shape, ht.available, hnone]
    by_cases hone : c.shape.slots = 1
    · rw [if_pos hone, if_pos hone.symm]
    · rw [if_neg hone, if_neg (Ne.symm hone)]
  · rw [ht.shape] at hone
    rw [ht.full, if_pos hone.symm]
    exact List.mem_cons_self ..
  · rw [ht.block.room, ht.shape]
  · rw [ht.shape] at hi
    rw [ht.block.bits i hi, decide_eq_decide]
    omega
  · rw [ht.block.hint]
    exact Nat.zero_le _

/-! ## Drawing -/

/-- What a step of a program makes of a cache, and the slot that the cache gives in it, if any.
    What else happens in the step leaves the cache alone. -/
inductive Gives (c : Cache) (m : Memory) : Option Word → Cache → Memory → Prop
  | nothing {m' : Memory} : c.Rests m m' → Gives c m none c m'
  | available {m₁ m' : Memory} {c' : Cache} {base : Word} {i : Nat} : c.Rests m m₁ → c.Kept m₁ →
    c.Allocated m₁ base i c' m' → Gives c m (some (c.shape.slotAt base i)) c' m'
  | acquired {m₁ m' : Memory} {c' : Cache} {base : Word} : c.Rests m m₁ → c.Kept m₁ →
    c.available.toList m₁ = [] → c.TookOver m₁ base c' m' →
    Gives c m (some (c.shape.slotAt base 0)) c' m'

/-- The cache came from `c` to `c'`, gave the slots `drawn`, the first one first, and took over
    the blocks `acquired` for them. -/
inductive Drawn (c : Cache) (m : Memory) (c' : Cache) (m' : Memory) : List Word → List Word → Prop
  | early {drawn : List Word} : c'.shape = c.shape →
    (drawn ++ c'.freeSlots m').Perm (c.freeSlots m) → (c'.blocks m').Perm (c.blocks m) →
    Drawn c m c' m' drawn []
  | late {early filled : List Word} {b : Word} {k : Nat} : c'.shape = c.shape →
    early.Perm (c.freeSlots m) → 0 < k → c'.Filling m' b k →
    (∀ b' ∈ filled, b' ∈ c'.full.toList m') → (c'.blocks m').Perm (filled ++ [b] ++ c.blocks m) →
    Drawn c m c' m' (early ++ (filled.flatMap c.shape.slotsAt ++ (c.shape.slotsAt b).take k))
      (filled ++ [b])

theorem Drawn.refl (c : Cache) (m : Memory) : c.Drawn m c m [] [] := .early rfl (.refl _) (.refl _)

theorem Drawn.rests (hd : c.Drawn m c' m' drawn bs) (hr : c'.Rests m' m'') :
    c.Drawn m c' m'' drawn bs := by
  cases hd with
  | early hshape hdrawn hblocks =>
    exact .early hshape (hr.freeSlots ▸ hdrawn) (hr.lists.blocks ▸ hblocks)
  | late hshape hearly hk hf hfilled hblocks =>
    exact .late hshape hearly hk (hf.rests hr) (fun b' hb' => hr.lists.full ▸ hfilled b' hb')
      (hr.lists.blocks ▸ hblocks)

/-- A slot of an available block is free, or the next one of the block that is being filled. -/
theorem Drawn.available (hd : c.Drawn m c' m' drawn bs) (hk : c'.Kept m')
    (hnd : (c'.blocks m').Nodup) (ha : c'.Allocated m' base i c'' m'') :
    c.Drawn m c'' m'' (drawn ++ [c'.shape.slotAt base i]) bs := by
  cases hd with
  | early hshape hdrawn hblocks =>
    refine .early (ha.shape.trans hshape) ?_ ((ha.blocks hk).trans hblocks)
    rw [List.append_assoc]
    exact ((ha.freeSlots hk hnd).append_left _).trans hdrawn
  | @late early filled b k hshape hearly hpos hf hfilled hblocks =>
    obtain ⟨rfl, rfl, hlt, hf'⟩ := hf.allocated hk ha
    have hdrawn : (early ++ (filled.flatMap c.shape.slotsAt ++ (c.shape.slotsAt base).take i)) ++
        [c'.shape.slotAt base i] =
        early ++ (filled.flatMap c.shape.slotsAt ++ (c.shape.slotsAt base).take (i + 1)) := by
      rw [Shape.take_succ_slotsAt (hshape ▸ hlt), hshape]
      simp only [List.append_assoc]
    rw [hdrawn]
    refine .late (ha.shape.trans hshape) hearly (Nat.succ_pos _) hf' (fun b' hb' => ?_)
      ((ha.blocks hk).trans hblocks)
    rw [ha.full]
    split
    · exact List.mem_cons_of_mem _ (hfilled b' hb')
    · exact hfilled b' hb'

/-- A block is taken over once all slots are drawn that were free, and those of the blocks that
    were taken over before. -/
theorem Drawn.acquired (hd : c.Drawn m c' m' drawn bs) (hk : c'.Kept m') (hp : c'.Placed m')
    (hnone : c'.available.toList m' = []) (ht : c'.TookOver m' base c'' m'') :
    c.Drawn m c'' m'' (drawn ++ [c'.shape.slotAt base 0]) (bs ++ [base]) := by
  have hf := ht.filling hnone
  have hfirst : ∀ {sh : Shape}, (sh.slotsAt base).take 1 = [sh.slotAt base 0] := fun {sh} =>
    Shape.take_succ_slotsAt sh.slots_pos
  have hkeep : ∀ b' ∈ c'.full.toList m', b' ∈ c''.full.toList m'' := by
    intro b' hb'
    rw [ht.full]
    split
    · exact List.mem_cons_of_mem _ hb'
    · exact hb'
  cases hd with
  | early hshape hdrawn hblocks =>
    rw [(freeSlots_eq_nil hk hp).2 hnone, List.append_nil] at hdrawn
    have hlate : c.Drawn m c'' m'' (drawn ++ ([].flatMap c.shape.slotsAt ++
        (c.shape.slotsAt base).take 1)) ([] ++ [base]) :=
      .late (ht.shape.trans hshape) hdrawn Nat.one_pos hf nofun (ht.blocks.trans (hblocks.cons _))
    rwa [hfirst, ← hshape] at hlate
  | @late early filled b k hshape hearly hpos hf₀ hfilled hblocks =>
    have hlast : k = c'.shape.slots := by
      by_contra hne
      have havailable := hf₀.available
      rw [hnone, if_neg hne] at havailable
      cases havailable
    have htake : (c.shape.slotsAt b).take k = c.shape.slotsAt b :=
      List.take_of_length_le (by rw [Shape.length_slotsAt, hlast, hshape])
    have hlate : c.Drawn m c'' m'' (early ++ ((filled ++ [b]).flatMap c.shape.slotsAt ++
        (c.shape.slotsAt base).take 1)) (filled ++ [b] ++ [base]) := by
      refine .late (ht.shape.trans hshape) hearly Nat.one_pos hf (fun b' hb' => ?_) ?_
      · rcases List.mem_append.1 hb' with hb' | hb'
        · exact hkeep b' (hfilled b' hb')
        · obtain rfl := List.mem_singleton.1 hb'
          exact hkeep b' (hf₀.full hlast)
      · refine (ht.blocks.trans (hblocks.cons _)).trans ?_
        rw [List.append_assoc _ [base]]
        exact List.perm_middle.symm
    rw [List.flatMap_append, List.flatMap_singleton, hfirst] at hlate
    rw [htake, List.append_assoc, hshape]
    exact hlate

theorem Drawn.step {r : Option Word} (hd : c.Drawn m c' m' drawn bs) (hp : c'.Placed m')
    (hnd : (c'.blocks m').Nodup) (hg : c'.Gives m' r c'' m'') :
    ∃ bs', c.Drawn m c'' m'' (drawn ++ r.toList) bs' := by
  cases hg with
  | nothing hr => exact ⟨bs, by simpa using hd.rests hr⟩
  | available hr hk ha => exact ⟨bs, (hd.rests hr).available hk (hr.lists.blocks ▸ hnd) ha⟩
  | acquired hr hk hnone ht => exact ⟨_, (hd.rests hr).acquired hk (hr.placed hp) hnone ht⟩

/-- The slots `drawn` came in order: first the free slots of the cache `c`, each once, and then
    those of the blocks `bs`, which are no more than the slots need and were filled one after
    the other. -/
structure DrawnInOrder (c : Cache) (m : Memory) (c' : Cache) (m' : Memory) (drawn bs : List Word) :
    Prop where
  free : (drawn.take (c.freeSlots m).length).Subperm (c.freeSlots m)
  all : (c.freeSlots m).length ≤ drawn.length →
    (drawn.take (c.freeSlots m).length).Perm (c.freeSlots m)
  rest : drawn.drop (c.freeSlots m).length =
    (bs.flatMap c.shape.slotsAt).take (drawn.length - (c.freeSlots m).length)
  count : bs.length =
    (drawn.length - (c.freeSlots m).length + (c.shape.slots - 1)) / c.shape.slots
  blocks : (c'.blocks m').Perm (bs ++ c.blocks m)
  full : ∀ b ∈ bs.take ((drawn.length - (c.freeSlots m).length) / c.shape.slots),
    b ∈ c'.full.toList m'

theorem Drawn.length_late {early : List Word} (filled : List Word) (b : Word)
    (hearly : early.Perm (c.freeSlots m)) (hk : k ≤ c.shape.slots) :
    (early ++ (filled.flatMap c.shape.slotsAt ++ (c.shape.slotsAt b).take k)).length =
      (c.freeSlots m).length + (filled.length * c.shape.slots + k) := by
  rw [List.length_append, List.length_append, Shape.length_flatMap_slotsAt, List.length_take,
    Shape.length_slotsAt, Nat.min_eq_left hk, hearly.length_eq]

theorem Drawn.inOrder (hd : c.Drawn m c' m' drawn bs) : c.DrawnInOrder m c' m' drawn bs := by
  have hpos := c.shape.slots_pos
  cases hd with
  | early hshape hdrawn hblocks =>
    have hlen := hdrawn.length_eq
    rw [List.length_append] at hlen
    have hle : drawn.length ≤ (c.freeSlots m).length := by omega
    have hsub : drawn.Subperm (c.freeSlots m) :=
      (List.sublist_append_left _ _).subperm.trans hdrawn.subperm
    have hzero : drawn.length - (c.freeSlots m).length = 0 := by omega
    refine ⟨?_, fun hge => ?_, ?_, ?_, hblocks, fun b hb => ?_⟩
    · rwa [List.take_of_length_le hle]
    · rw [List.take_of_length_le hle]
      exact hsub.perm_of_length_le hge
    · rw [List.drop_of_length_le hle, List.flatMap_nil, List.take_nil]
    · rw [hzero, Nat.zero_add, Nat.div_eq_of_lt (Nat.sub_lt hpos Nat.one_pos), List.length_nil]
    · rw [List.take_nil] at hb
      exact absurd hb List.not_mem_nil
  | @late early filled b k hshape hearly hk hf hfilled hblocks =>
    have hle : k ≤ c.shape.slots := hshape ▸ hf.le
    have hlen := Drawn.length_late filled b hearly hle
    have hbehind : (early ++ (filled.flatMap c.shape.slotsAt ++
        (c.shape.slotsAt b).take k)).length - (c.freeSlots m).length =
          filled.length * c.shape.slots + k := by omega
    have hfree : (early ++ (filled.flatMap c.shape.slotsAt ++
        (c.shape.slotsAt b).take k)).take (c.freeSlots m).length = early :=
      List.take_left' hearly.length_eq
    refine ⟨?_, fun _ => ?_, ?_, ?_, hblocks, fun b' hb' => ?_⟩
    · rw [hfree]
      exact hearly.subperm
    · rw [hfree]
      exact hearly
    · rw [hbehind, List.drop_left' hearly.length_eq, List.flatMap_append, List.flatMap_singleton,
        ← Shape.length_flatMap_slotsAt (s := c.shape), List.take_length_add_append]
    · rw [hbehind, List.length_append, List.length_singleton]
      refine (Nat.div_eq_of_lt_le ?_ ?_).symm
      · rw [Nat.succ_mul]
        omega
      · rw [Nat.succ_mul, Nat.succ_mul]
        omega
    · rw [hbehind, Nat.add_comm, Nat.add_mul_div_right _ _ hpos] at hb'
      rcases Nat.lt_or_eq_of_le hle with hlt | hlast
      · rw [Nat.div_eq_of_lt hlt, Nat.zero_add, List.take_left' rfl] at hb'
        exact hfilled b' hb'
      · rcases List.mem_append.1 (List.mem_of_mem_take hb') with hb' | hb'
        · exact hfilled b' hb'
        · obtain rfl := List.mem_singleton.1 hb'
          exact hf.full (hlast.trans (congrArg Shape.slots hshape).symm)

/-- No block is available just where all free slots are drawn, and blocks to the end. -/
theorem Drawn.available_eq_nil (hd : c.Drawn m c' m' drawn bs) (hk : c'.Kept m')
    (hp : c'.Placed m') : c'.available.toList m' = [] ↔ (c.freeSlots m).length ≤ drawn.length ∧
      c.shape.slots ∣ drawn.length - (c.freeSlots m).length := by
  cases hd with
  | early hshape hdrawn hblocks =>
    have hlen := hdrawn.length_eq
    rw [List.length_append] at hlen
    rw [← freeSlots_eq_nil hk hp, ← List.length_eq_zero_iff]
    constructor
    · intro hnone
      refine ⟨by omega, ?_⟩
      rw [Nat.sub_eq_zero_of_le (by omega)]
      exact Nat.dvd_zero _
    · rintro ⟨hle, -⟩
      omega
  | @late early filled b k hshape hearly hpos hf hfilled hblocks =>
    have hle : k ≤ c.shape.slots := hshape ▸ hf.le
    rw [Drawn.length_late filled b hearly hle, Nat.add_sub_cancel_left,
      Nat.dvd_add_right (Nat.dvd_mul_left _ _), hf.available, hshape]
    constructor
    · intro hnil
      by_cases hlast : k = c.shape.slots
      · exact ⟨Nat.le_add_right _ _, hlast ▸ Nat.dvd_refl _⟩
      · rw [if_neg hlast] at hnil
        cases hnil
    · rintro ⟨-, hdvd⟩
      rw [if_pos (Nat.le_antisymm hle (Nat.le_of_dvd hpos hdvd))]

end Cache

end SlabHeap
