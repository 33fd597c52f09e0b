/-
  The operations of a cache on its blocks.

  Allocating in an available block takes a clear slot of it, and moves the block to
  the full ones if that was its last (`takeSlot_meets`); it fails if the block counts
  no free slot, and then changes nothing, and passes its other checks.  A block that
  is taken over joins one of the lists with its slot `0` in use (`adopt_returns`), and
  clearing a cache changes neither its lists nor a word of a slot
  (`clearUsed_returns`).
-/
import SlabHeap.Proofs.Heap.Sound

namespace SlabHeap

namespace Block

/-- What taking the slot `i` of `b` makes of it, in whatever list it ends.  The search found the
    slot, and starts from it the next time. -/
structure Took (s : Shape) (i : Nat) (b b' : Block) : Prop where
  lt : i < s.slots
  found : b.bitmap.find b.hint = .ok i
  hint : b'.hint = Bitmap.hintOf i
  clear : b.bitmap.bit i = false
  serves : b'.Serves s
  room : b'.room = b.room - 1
  bits : ∀ j, b'.bitmap.bit j = (b.bitmap.bit j || decide (i = j))
  words : ∀ j, colorFor s.size ≤ j → b'.word j = b.word j

theorem Took.relink {s : Shape} {i : Nat} {b b' : Block} (h : Took s i b b') (link : Option Word) :
    Took s i b { b' with link } :=
  ⟨h.lt, h.found, h.hint, h.clear, h.serves.relink link, h.room, h.bits, h.words⟩

/-- What freeing all slots of `b` makes of it. -/
structure Cleared (s : Shape) (b b' : Block) : Prop where
  slots : SameSlots b b'
  hint : b'.hint = b.hint
  room : b'.room = s.slots
  bitmap : b'.bitmap = Bitmap.cleared s.slots

theorem Cleared.serves {s : Shape} {b b' : Block} (h : Cleared s b b') (hb : b.Serves s) :
    b'.Serves s :=
  serves_of_cleared (h.slots.layout.trans hb.layout) (h.slots.free.trans hb.free) h.room h.bitmap
    (by rw [h.hint, h.slots.layout]; exact hb.hint)

end Block

namespace Cache

variable {α : Type} {c : Cache} {m m' : Memory} {base b : Word} {b' : Block}

/-- The check of a layout makes a cache for it. -/
theorem check_eq_ok {size pointers : Nat} : check size pointers = .ok c ↔
    ∃ s : Shape, s.size = size ∧ s.pointers = pointers ∧ c = new s := by
  constructor
  · intro h
    unfold check at h
    cases hs : Shape.check size pointers with
    | error fault =>
      rw [hs] at h
      cases h
    | ok s =>
      rw [hs] at h
      cases h
      obtain ⟨hsize, hpointers⟩ := Shape.check_eq_ok.1 hs
      exact ⟨s, hsize, hpointers, rfl⟩
  · rintro ⟨s, hsize, hpointers, rfl⟩
    rw [check, Shape.check_eq_ok.2 ⟨hsize, hpointers⟩]
    rfl

theorem meets_onBlock {act : Action Block α} {ok : α → Cache × Memory → Prop}
    {fail : Fault → Cache × Memory → Prop} :
    Meets (onBlock base act) (c, m) ok fail ↔
      Meets act (m.block base) (fun a b' => ok a (c, m.setBlock base b'))
        fun f b' => fail f (c, m.setBlock base b') := by
  simp only [onBlock, Memory.onBlock, meets_zoom]

theorem SameLists.trans {m'' : Memory} (h : c.SameLists m m') (h' : c.SameLists m' m'') :
    c.SameLists m m'' :=
  ⟨h'.available.trans h.available, h'.full.trans h.full⟩

/-- Every block of a cache is on the list that the count of its free slots asks for. -/
structure Placed (c : Cache) (m : Memory) : Prop where
  available : ∀ b ∈ c.available.toList m, 0 < (m.block b).room ∧ (m.block b).room < c.shape.slots
  full : ∀ b ∈ c.full.toList m, (m.block b).room = 0

/-- Placement is a matter of the lists and of the counts. -/
theorem Placed.congr (hp : c.Placed m) (hl : c.SameLists m m')
    (hroom : ∀ b ∈ c.blocks m, (m'.block b).room = (m.block b).room) : c.Placed m' := by
  constructor
  · intro b hb
    rw [hl.available] at hb
    rw [hroom b (mem_blocks.2 (.inl hb))]
    exact hp.available b hb
  · intro b hb
    rw [hl.full] at hb
    rw [hroom b (mem_blocks.2 (.inr hb))]
    exact hp.full b hb

theorem mapM_eq_ok {α β : Type} {f : α → Except Fault β} (g : α → β) (xs : List α)
    (h : ∀ x ∈ xs, f x = .ok (g x)) : xs.mapM f = .ok (xs.map g) := by
  induction xs with
  | nil => rfl
  | cons x xs ih =>
    have hx := h x (List.mem_cons_self ..)
    have hxs := ih fun y hy => h y (List.mem_cons_of_mem _ hy)
    rw [List.mapM_cons, hx, hxs]
    rfl

/-- A cache passes its own test if its blocks are on the lists that they belong on. -/
theorem Placed.isConsistent (hp : c.Placed m) (hk : c.Kept m) : c.isConsistent m = .ok true := by
  have havail : ∀ b ∈ c.available.toList m, (m.block b).layout = c.shape.layout ∧
      ((m.block b).room != 0) = true ∧ (m.block b).isConsistent c.shape.slots = .ok true := by
    intro b hb
    have hs := hk.serves b (mem_blocks.2 (.inl hb))
    have hroom := (hp.available b hb).1
    exact ⟨hs.layout, by simpa using Nat.ne_of_gt hroom, hs.isConsistent⟩
  have hfull : ∀ b ∈ c.full.toList m, (m.block b).layout = c.shape.layout ∧
      ((m.block b).room != 0) = false ∧ (m.block b).isConsistent c.shape.slots = .ok true := by
    intro b hb
    have hs := hk.serves b (mem_blocks.2 (.inr hb))
    exact ⟨hs.layout, by simpa using hp.full b hb, hs.isConsistent⟩
  dsimp only [Cache.isConsistent]
  rw [mapM_eq_ok (fun _ => true) (c.available.toList m),
    mapM_eq_ok (fun _ => true) (c.full.toList m)]
  · simp [bind, Except.bind, pure, Except.pure]
  · intro b hb
    obtain ⟨hl, hroom, hcons⟩ := hfull b hb
    simp only [hl, hroom, and_self, if_true, hcons]
  · intro b hb
    obtain ⟨hl, hroom, hcons⟩ := havail b hb
    simp only [hl, hroom, and_self, if_true, hcons]

/-! ## Allocation -/

/-- `c'` in `m'` is what allocating the slot `i` of the first available block makes
    of the cache `c` in `m`. -/
structure Allocated (c : Cache) (m : Memory) (base : Word) (i : Nat) (c' : Cache) (m' : Memory) :
    Prop where
  first : c.available.first = some base
  kept : c'.Kept m'
  shape : c'.shape = c.shape
  changes : m.Changes m' [base]
  block : Block.Took c.shape i (m.block base) (m'.block base)
  available : c'.available.toList m' =
    if (m.block base).room = 1 then (c.available.toList m).tail else c.available.toList m
  full : c'.full.toList m' =
    if (m.block base).room = 1 then base :: c.full.toList m else c.full.toList m

theorem Kept.first_mem (h : c.Kept m) (hf : c.available.first = some base) : base ∈ c.blocks m := by
  obtain ⟨bs, hbs, -⟩ := h.available.toList_of_first hf
  exact mem_blocks.2 (.inl (by rw [hbs]; exact List.mem_cons_self ..))

theorem Allocated.blocks {i : Nat} {c' : Cache} (h : c.Allocated m base i c' m') (hk : c.Kept m) :
    (c'.blocks m').Perm (c.blocks m) := by
  obtain ⟨bs, hbs, -⟩ := hk.available.toList_of_first h.first
  rw [Cache.blocks, Cache.blocks, h.available, h.full, hbs]
  split
  · exact List.perm_middle
  · exact .refl _

theorem Allocated.placed {i : Nat} {c' : Cache} (h : c.Allocated m base i c' m') (hk : c.Kept m)
    (hnd : (c.blocks m).Nodup) (hp : c.Placed m) : c'.Placed m' := by
  obtain ⟨bs, hbs, -⟩ := hk.available.toList_of_first h.first
  have hroom := hp.available base (by rw [hbs]; exact List.mem_cons_self ..)
  have hnd' := hnd
  rw [Cache.blocks, hbs, List.cons_append, List.nodup_cons, List.mem_append, not_or] at hnd'
  have hne : ∀ b, b ≠ base → m'.block b = m.block b := fun b hb =>
    h.changes.block b (by simpa using hb)
  refine ⟨fun b hb => ?_, fun b hb => ?_⟩
  · rw [h.shape]
    rw [h.available, hbs] at hb
    by_cases he : b = base
    · subst he
      split at hb
      · exact absurd hb hnd'.1.1
      · rw [h.block.room]
        omega
    · rw [hne b he]
      refine hp.available b ?_
      rw [hbs]
      split at hb
      · exact List.mem_cons_of_mem _ hb
      · exact hb
  · rw [h.full] at hb
    by_cases he : b = base
    · subst he
      split at hb
      next h1 => rw [h.block.room, h1]
      next => exact absurd hb hnd'.1.2
    · rw [hne b he]
      refine hp.full b ?_
      split at hb
      · exact (List.mem_cons.1 hb).resolve_left he
      · exact hb

/-- A block whose links stay is replaced by one in service. -/
theorem Kept.setBlock (h : c.Kept m) (hlink : b'.link = (m.block base).link)
    (hs : b'.Serves c.shape) :
    c.Kept (m.setBlock base b') ∧ c.SameLists m (m.setBlock base b') := by
  refine h.content (fun b => ?_) fun b hb => ?_
  · rw [Memory.block_setBlock]
    split
    next he => rw [← he, hlink]
    next => rfl
  · rw [Memory.block_setBlock]
    split
    · exact hs
    · exact h.serves b hb

/-- The first available block becomes the first full one. -/
theorem retireFirst_kept (h : c.Kept m) (hnd : (c.blocks m).Nodup)
    (hf : c.available.first = some base) :
    (c.retireFirst m).1.Kept (c.retireFirst m).2 ∧ (c.retireFirst m).1.shape = c.shape ∧
      m.Changes (c.retireFirst m).2 [base] ∧
      (c.retireFirst m).1.available.toList (c.retireFirst m).2 = (c.available.toList m).tail ∧
      (c.retireFirst m).1.full.toList (c.retireFirst m).2 = base :: c.full.toList m ∧
      ∃ link, (c.retireFirst m).2.block base = { m.block base with link } := by
  rcases BlockList.pop?_of_linked h.available with ⟨hnone, -, -⟩ |
    ⟨base', bs, rest, m₁, hf', hl, hp, hrest, hrest', hch, hblock⟩
  · rw [hf] at hnone; simp at hnone
  obtain rfl : base = base' := Option.some.inj (hf.symm.trans hf')
  rw [Cache.blocks, hl, List.cons_append, List.nodup_cons, List.mem_append, not_or] at hnd
  have hfull : c.full.Linked m₁ ∧ c.full.toList m₁ = c.full.toList m := by
    refine h.full.congr fun b hb => ?_
    have : base ≠ b := fun e => hnd.1.2 (e ▸ hb)
    rw [hblock, if_neg this]
  have hpush := BlockList.push_of_not_mem hfull.1 (by rw [hfull.2]; exact hnd.1.2)
  have hch' := BlockList.changes_push c.full m₁ base
  have hrest'' := hrest.push_beside (l := c.full) (by rw [hrest']; exact hnd.1.1)
  simp only [retireFirst, hp]
  have hch'' := hch.trans hch'
  refine ⟨⟨hrest''.1, hpush.1, fun b hb => ?_⟩, trivial, hch'', ?_, ?_, ?_⟩
  · have hb' : b ∈ c.blocks m := by
      rw [mem_blocks] at hb ⊢
      rw [hrest''.2, hrest', hpush.2, hfull.2] at hb
      rw [hl]
      rcases hb with hb | hb
      · exact .inl (List.mem_cons_of_mem _ hb)
      · rcases List.mem_cons.1 hb with rfl | hb
        · exact .inl (List.mem_cons_self ..)
        · exact .inr hb
    have hs := h.serves b hb'
    rw [BlockList.block_push, hblock]
    split
    · exact hs.relink _
    · exact hs
  · rw [hrest''.2, hrest', hl]; rfl
  · rw [hpush.2, hfull.2]
  · exact ⟨c.full.first, by rw [BlockList.block_push, if_pos rfl, hblock, if_pos rfl]⟩

/-- Allocation takes a slot of the first available block, if there is one with room.  That
    block is the one that retires, and the object lies in it. -/
theorem takeSlot_meets (h : c.Kept m) (hnd : (c.blocks m).Nodup)
    (hstarts : ∀ b ∈ c.blocks m, Block.StartsAt b) :
    Meets takeSlot (c, m)
      (fun r s => (r = none ∧ c.available.first = none ∧ s = (c, m)) ∨
        ∃ base i, r = some ((m.block base).slotAddress base i) ∧ c.Allocated m base i s.1 s.2)
      (fun f s => f = .fullBlockAvailable ∧ s.1 = c ∧ m.Changes s.2 [] ∧
        ∃ base, c.available.first = some base ∧ (m.block base).room = 0) := by
  rw [takeSlot]
  simp only [meets_bind, meets_get]
  cases hf : c.available.first with
  | none => simp [meets_pure]
  | some base =>
    have hserves := h.serves base (h.first_mem hf)
    simp only [meets_bind, meets_onBlock, meets_get, meets_ite, meets_set, meets_pure]
    by_cases hr : (m.block base).room = 0
    · rw [Meets, Block.takeSlot_full hr]
      refine ⟨rfl, trivial, ⟨rfl, rfl, fun b _ => ?_⟩, base, rfl, hr⟩
      rw [Memory.block_setBlock]
      split
      next he => rw [he]
      next => rfl
    refine (Block.takeSlot_returns hserves hr).meets fun i b' hb' => ?_
    obtain ⟨⟨hi, hclear, hslots, hs', hroom, hbits⟩, hfound, hhint⟩ := hb'
    obtain ⟨hkept, hlists⟩ := h.setBlock hslots.link hs'
    have hch := Memory.changes_setBlock m base b'
    have hself : (m.setBlock base b').block base = b' := by rw [Memory.block_setBlock, if_pos rfl]
    have haddr : b'.slotAddress base i = (m.block base).slotAddress base i := by
      rw [Block.slotAddress, Block.slotAddress, hslots.layout]
    have htook : Block.Took c.shape i (m.block base) b' :=
      ⟨hi, hfound, hhint, hclear, hs', hroom, hbits, fun j hj => hslots.words j (by
        rw [hserves.layout, c.shape.bitmapWords_layout, ← Shape.color_eq]; exact hj)⟩
    have hbase : Block.baseOf ((m.block base).slotAddress base i) = base :=
      Block.baseOf_slotAddress (hstarts base (h.first_mem hf)) hserves.layout hi
    have hpop : (c.available.pop? (m.setBlock base b')).map (·.1) = some base := by
      rw [BlockList.pop?, hf]
      rfl
    rw [hself, haddr, hbase, hpop]
    simp only [ne_eq, not_true, false_imp_iff, not_false_eq_true, true_imp_iff, true_and]
    refine ⟨fun h0 => ?_, fun h0 => ?_⟩
    · obtain ⟨hk, hsh, hch', ha, hfl, link, hbl⟩ :=
        retireFirst_kept hkept (by rw [hlists.blocks]; exact hnd) hf
      have h1 : (m.block base).room = 1 := by omega
      refine .inr ⟨base, i, rfl, hf, hk, hsh, hch.trans hch', ?_, ?_, ?_⟩
      · rw [hbl, hself]; exact htook.relink link
      · rw [ha, hlists.available, if_pos h1]
      · rw [hfl, hlists.full, if_pos h1]
    · have h1 : (m.block base).room ≠ 1 := by omega
      refine .inr ⟨base, i, rfl, hf, hkept, rfl, hch, ?_, ?_, ?_⟩
      · rw [hself]; exact htook
      · rw [hlists.available, if_neg h1]
      · rw [hlists.full, if_neg h1]

theorem serves_push {l : BlockList} {s : Shape} (h : (m.block b).Serves s) :
    ((l.push m base).2.block b).Serves s := by
  rw [BlockList.block_push]
  split
  · exact h.relink _
  · exact h

/-- `c'` in `m'` is what taking over the block at `base` makes of the cache `c` in
    `m`. -/
structure TookOver (c : Cache) (m : Memory) (base : Word) (c' : Cache) (m' : Memory) : Prop where
  kept : c'.Kept m'
  shape : c'.shape = c.shape
  changes : m.Changes m' [base]
  block : Block.Adopted c.shape (m.block base) (m'.block base)
  available : c'.available.toList m' =
    if c.shape.slots = 1 then c.available.toList m else base :: c.available.toList m
  full : c'.full.toList m' =
    if c.shape.slots = 1 then base :: c.full.toList m else c.full.toList m

theorem TookOver.blocks {c' : Cache} (h : c.TookOver m base c' m') :
    (c'.blocks m').Perm (base :: c.blocks m) := by
  rw [Cache.blocks, Cache.blocks, h.available, h.full]
  split
  · exact List.perm_middle
  · exact .refl _

theorem TookOver.placed {c' : Cache} (h : c.TookOver m base c' m') (hb : base ∉ c.blocks m)
    (hp : c.Placed m) : c'.Placed m' := by
  have hpos := c.shape.slots_pos
  rw [mem_blocks, not_or] at hb
  have hne : ∀ b, b ≠ base → m'.block b = m.block b := fun b hb =>
    h.changes.block b (by simpa using hb)
  refine ⟨fun b hmem => ?_, fun b hmem => ?_⟩
  · rw [h.shape]
    rw [h.available] at hmem
    by_cases he : b = base
    · subst he
      split at hmem
      · exact absurd hmem hb.1
      · rw [h.block.room]
        omega
    · rw [hne b he]
      refine hp.available b ?_
      split at hmem
      · exact hmem
      · exact (List.mem_cons.1 hmem).resolve_left he
  · rw [h.full] at hmem
    by_cases he : b = base
    · subst he
      split at hmem
      next h1 => rw [h.block.room, h1]
      next => exact absurd hmem hb.2
    · rw [hne b he]
      refine hp.full b ?_
      split at hmem
      · exact (List.mem_cons.1 hmem).resolve_left he
      · exact hmem

/-- An idle block, or one that counts no free slot, is taken over. -/
theorem adopt_returns (h : c.Kept m) (hb : base ∉ c.blocks m)
    (hi : (m.block base).Idle ∨ (m.block base).room = 0) :
    Returns (adopt base) (c, m) fun w s =>
      w = (s.2.block base).slotAddress base 0 ∧ c.TookOver m base s.1 s.2 := by
  rw [adopt]
  simp only [Returns, meets_bind, meets_get, meets_onBlock, meets_ite, meets_set, meets_pure]
  refine (Block.adopt_returns hi).meets fun _ b' hb' => ?_
  have hch := Memory.changes_setBlock m base b'
  have hself : (m.setBlock base b').block base = b' := by rw [Memory.block_setBlock, if_pos rfl]
  obtain ⟨hkept, hlists⟩ := h.elsewhere fun b hmem =>
    hch.block b fun he => hb (List.mem_singleton.1 he ▸ hmem)
  have hserves : ∀ b ∈ base :: c.blocks (m.setBlock base b'),
      ((m.setBlock base b').block b).Serves c.shape := by
    intro b hmem
    rcases List.mem_cons.1 hmem with rfl | hmem
    · rw [hself]; exact hb'.serves
    · exact hkept.serves b hmem
  have hb₁ : base ∉ c.blocks (m.setBlock base b') := by rw [hlists.blocks]; exact hb
  rw [← hself] at hb'
  rw [mem_blocks, not_or] at hb₁
  generalize m.setBlock base b' = m₁ at *
  have haddr : ∀ l : BlockList, (m₁.block base).slotAddress base 0 =
      ((l.push m₁ base).2.block base).slotAddress base 0 := by
    intro l
    rw [BlockList.block_push, if_pos rfl, Block.slotAddress, Block.slotAddress]
  refine ⟨fun h1 => ⟨haddr _, ?_⟩, fun h1 => ⟨haddr _, ?_⟩⟩
  · obtain ⟨hfull, hfull'⟩ := BlockList.push_of_not_mem hkept.full hb₁.2
    obtain ⟨hav, hav'⟩ := hkept.available.push_beside (l := c.full) hb₁.1
    refine ⟨⟨hav, hfull, fun b hmem => ?_⟩, rfl, hch.trans (BlockList.changes_push ..), ?_, ?_, ?_⟩
    · refine serves_push (hserves b ?_)
      simp only [mem_blocks, hav', hfull', List.mem_cons] at hmem ⊢
      tauto
    · rw [BlockList.block_push, if_pos rfl]; exact hb'.relink _
    · rw [hav', hlists.available, if_pos h1]
    · rw [hfull', hlists.full, if_pos h1]
  · obtain ⟨hav, hav'⟩ := BlockList.push_of_not_mem hkept.available hb₁.1
    obtain ⟨hfull, hfull'⟩ := hkept.full.push_beside (l := c.available) hb₁.2
    refine ⟨⟨hav, hfull, fun b hmem => ?_⟩, rfl, hch.trans (BlockList.changes_push ..), ?_, ?_, ?_⟩
    · refine serves_push (hserves b ?_)
      simp only [mem_blocks, hav', hfull', List.mem_cons] at hmem ⊢
      tauto
    · rw [BlockList.block_push, if_pos rfl]; exact hb'.relink _
    · rw [hav', hlists.available, if_neg h1]
    · rw [hfull', hlists.full, if_neg h1]

/-! ## Clearing -/

/-- Every slot of every block becomes free. -/
theorem clearUsed_returns (h : c.Kept m) (hnd : (c.blocks m).Nodup) :
    Returns clearUsed (c, m) fun _ s => s.1 = c ∧ m.Changes s.2 (c.blocks m) ∧
      ∀ b ∈ c.blocks m, Block.Cleared c.shape (m.block b) (s.2.block b) := by
  rw [clearUsed]
  simp only [Returns, meets_bind, meets_get]
  refine (meets_forM (I := fun done todo s =>
    done ++ todo = c.blocks m ∧ s.1 = c ∧ m.Changes s.2 done ∧
      ∀ b ∈ done, Block.Cleared c.shape (m.block b) (s.2.block b))
    ⟨rfl, rfl, .refl .., by simp⟩ ?_).mono (fun _ t ht => ht.2) fun _ _ => id
  rintro done base todo ⟨c', m₁⟩ ⟨hl, rfl, hch, hdone⟩
  have hbase : base ∈ c'.blocks m := by rw [← hl]; simp
  rw [← hl, List.nodup_append] at hnd
  have hnew : base ∉ done := fun hmem => hnd.2.2 base hmem base (List.mem_cons_self ..) rfl
  have hsame := hch.block base hnew
  rw [meets_onBlock]
  refine (Block.clearUsed_returns (s := c'.shape) ?_).mono fun _ b' hb' => ?_
  · rw [hsame]; exact (h.serves base hbase).layout
  rw [hsame] at hb'
  refine ⟨by simpa using hl, rfl, (hch.mono (by simp)).trans
    ((Memory.changes_setBlock m₁ base b').mono (by simp)), ?_⟩
  intro b hmem
  rw [Memory.block_setBlock]
  split
  next he => subst he; exact ⟨hb'.1, hb'.2.1, hb'.2.2.1, hb'.2.2.2⟩
  next he =>
    refine hdone b ?_
    simpa [Ne.symm he] using hmem

end Cache

end SlabHeap
