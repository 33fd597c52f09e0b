/-
  Sorting blocks as they come off their lists.

  `Sweep.start` takes all blocks of a cache off its lists before the first one is sorted.  They
  may as well come off one at a time, each right before it is sorted (`Sweep.placeLists`): a
  block that is still to come is on no list that the sorting makes, and its link, which leads to
  the blocks behind it, is not read but for that.  So the links of such blocks are all that the
  two memories differ in (`Sweep.toCome`), each block that comes off takes one such difference
  away (`Sweep.Like.comeOff`), and in the end there is none left (`Heap.placeLists_returns`).
-/
import SlabHeap.Proofs.Heap.Isolation

namespace SlabHeap

variable {m : Memory} {c : Cache} {shape : Shape} {base : Word} {bs more : List Word}
  {free l : BlockList} {fuel due index : Nat} {h : Heap}

namespace Sweep

/-- Sorts at most `fuel` blocks of a list, each as it comes off. -/
def placeList (shape : Shape) : Nat → BlockList → Action Sweep Unit
  | 0, _ => pure ()
  | fuel + 1, l => do
    match l.pop? (← get).memory with
    | none => pure ()
    | some (base, rest, memory) =>
      modify ({ · with memory })
      place shape base
      placeList shape fuel rest

/-- Sorts the blocks of a cache, each as it comes off its list, those with room first. -/
def placeLists (c : Cache) : Action Sweep Unit := do
  placeList c.shape Word.count c.available
  placeList c.shape Word.count c.full
  modify finish

/-- The sorting in front of the first block, which is still on its list. -/
def undrained (m : Memory) (free : BlockList) : Sweep := ⟨m, .empty, .empty, free, none, 0⟩

/-- The blocks `bs` are still to come: they have their links in one memory and none in the
    other. -/
def toCome (m : Memory) (bs : List Word) : Foreign where
  blocks b := b ∈ bs
  left := m.block
  right b := { m.block b with link := none }
  one := False
  supply := m.supply
  mapped := m.mapped

variable {s s' : Sweep}

/-- A block of the right layout finds its place. -/
theorem place_ends (hl : (s.memory.block base).layout = shape.layout) :
    Returns (place shape base) s fun _ _ => True := by
  simp only [Returns, place, meets_bind, meets_get, meets_ite, meets_throw, meets_set, hl,
    ne_eq, not_true, false_imp_iff, implies_true, and_self]

/-- A block that comes off its list is the same in both memories. -/
theorem Like.comeOff (hs : Like (toCome m (base :: bs)) s s') (hbase : base ∉ bs) :
    Like (toCome m bs) { s with memory := s.memory.modifyBlock base ({ · with link := none }) }
      s' := by
  have hm := hs.memory
  have hleft : s.memory.block base = m.block base := hm.left base (List.mem_cons_self ..)
  have hright : s'.memory.block base = { m.block base with link := none } :=
    hm.right base (List.mem_cons_self ..)
  refine ⟨⟨hm.supply, hm.supply', hm.mapped, hm.later, fun b hb => ?_, fun b hb => ?_,
    fun b hb => hm.right b (List.mem_cons_of_mem _ hb), False.elim,
    fun hk hstart hb => hm.ahead hk hstart (List.mem_cons_of_mem _ hb)⟩, hs.rest,
    fun b hb hmem => hs.held b hb (List.mem_cons_of_mem _ hmem)⟩
  · rw [Memory.block_modifyBlock]
    split
    next he => rw [← he, hright, hleft]
    next he =>
      refine hm.block b fun hmem => ?_
      exact (List.mem_cons.1 hmem).elim (fun hb' => he hb'.symm) hb
  · have hne : base ≠ b := fun he => hbase (he ▸ hb)
    rw [Memory.block_modifyBlock, if_neg hne]
    exact hm.left b (List.mem_cons_of_mem _ hb)

/-- The blocks of a list are sorted the same, whether they come off before or as they are
    sorted. -/
theorem placeList_returns {first : Option Word} (hchain : BlockList.Chain m first bs)
    (hle : bs.length ≤ fuel) (hnd : (bs ++ more).Nodup)
    (hlayout : ∀ b ∈ bs, (m.block b).layout = shape.layout)
    (hs : Like (toCome m (bs ++ more)) s s') :
    Returns (placeList shape fuel ⟨first⟩) s fun _ t =>
      Returns (bs.forM (place shape)) s' fun _ t' => Like (toCome m more) t t' := by
  -- A block to come is as it was in `m`, so the chain in `m` is the one that is followed.
  induction hchain generalizing fuel s s' with
  | nil =>
    cases fuel with
    | zero => exact hs
    | succ fuel => exact hs
  | @cons base bs hchain ih =>
    obtain _ | fuel := fuel
    · simp at hle
    obtain ⟨hbase, hnd'⟩ := List.nodup_cons.1 hnd
    have hleft : s.memory.block base = m.block base := hs.memory.left base (List.mem_cons_self ..)
    have hp : (BlockList.mk (some base)).pop? s.memory = some (base, ⟨(m.block base).link⟩,
        s.memory.modifyBlock base ({ · with link := none })) := by
      rw [← hleft]
      rfl
    have hs₁ := hs.comeOff hbase
    have hlayout₁ : ((s.memory.modifyBlock base ({ · with link := none })).block base).layout =
        shape.layout := by
      rw [Memory.block_modifyBlock, if_pos rfl, hleft]
      exact hlayout base (List.mem_cons_self ..)
    simp only [Returns, placeList, meets_bind, meets_get, hp, meets_modify]
    refine ((place_ends hlayout₁).and meets_self).mono ?_ fun _ _ hf => hf.1
    rintro ⟨⟩ t₁ ⟨-, he⟩
    obtain ⟨t₁', he', hs₂⟩ := (place_alike hs₁ hbase).of_ok he
    refine (ih (Nat.le_of_succ_le_succ hle) hnd'
      (fun b hb => hlayout b (List.mem_cons_of_mem _ hb)) hs₂).mono fun _ t ht => ?_
    rw [show (base :: bs).forM (place shape) = place shape base >>= fun _ => bs.forM (place shape)
      from rfl, meets_bind, Meets, he']
    exact ht

/-- Where nothing is to come, the sortings hold the same blocks. -/
theorem Like.arrived (hs : Like (toCome m []) s s') : Like (.nothing m) s s' := by
  have hm := hs.memory
  refine ⟨⟨hm.supply, hm.supply', hm.mapped, hm.later, fun b _ => hm.block b List.not_mem_nil,
    fun _ => False.elim, fun _ => False.elim, False.elim, fun _ _ => False.elim⟩, hs.rest,
    fun _ _ => id⟩

/-- In front of the first block, all are to come. -/
theorem undrained_like (hk : c.Kept m) (hnd : (c.blocks m).Nodup) (free : BlockList)
    (hlater : ∀ {k start b}, m.mapped ≤ k → m.supply k = some start → b ∈ c.blocks m →
      ¬ (start.toNat ≤ b.toNat ∧ b.toNat < start.toNat + megablockBytes)) :
    Like (toCome m (c.blocks m)) (undrained m free) (start c m free).1 := by
  obtain ⟨-, hch, hblock⟩ := start_drains hk hnd free
  exact ⟨⟨rfl, hch.supply, hch.mapped, le_rfl, hch.block, fun _ _ => rfl, hblock, False.elim,
    hlater⟩, rfl, nofun⟩

end Sweep

namespace Heap

/-- What is mapped later holds no block of a cache. -/
theorem Sound.owned_later (hs : h.Sound [] due) (hb : base ∈ h.arena.owned h.memory) {k : Nat}
    {start : Word} (hk : h.memory.mapped ≤ k) (hstart : h.memory.supply k = some start) :
    ¬ (start.toNat ≤ base.toNat ∧ base.toNat < start.toNat + megablockBytes) := by
  obtain ⟨mb, hmb, hb⟩ := Directory.mem_blocks.1 (hs.mem_sliced hb)
  obtain ⟨i, hi, rfl⟩ := Megablock.mem_blocks.1 hb
  have hmapped := hs.directory.megablocks mb hmb
  have hcontains := Megablock.contains_blockBase hmapped hs.supply (hi.trans_le hmapped.sliced)
  exact Megablock.contains_later hmapped hs.supply hcontains hk hstart

/-- The blocks of a cache are sorted the same, whether they come off its lists before the first
    one is sorted or each before it is. -/
theorem placeLists_returns (hs : h.Sound [] due) (hc : h.arena.caches[index]? = some c) :
    Returns (Sweep.placeLists c) (.undrained h.memory h.arena.free) fun _ s =>
      Returns (Sweep.placeAll c.shape (Sweep.start c h.memory h.arena.free).2)
        (Sweep.start c h.memory h.arena.free).1 fun _ s' => Sweep.Like (.nothing h.memory) s s' := by
  have hmem := List.mem_of_getElem? hc
  have hkept := hs.caches c hmem
  have hnd : (c.blocks h.memory).Nodup := (List.nodup_flatMap.1 hs.nodup_owned).1 c hmem
  have hlayout : ∀ b ∈ c.blocks h.memory, (h.memory.block b).layout = c.shape.layout :=
    fun b hb => (hkept.serves b hb).layout
  have hstart := Sweep.undrained_like hkept hnd h.arena.free fun hk hstart hb =>
    hs.owned_later (Arena.mem_owned.2 ⟨c, hmem, hb⟩) hk hstart
  rw [(Sweep.start_drains hkept hnd h.arena.free).1, Sweep.placeLists, Sweep.placeAll]
  simp only [Returns, meets_bind, meets_modify]
  -- The available blocks are sorted while the full ones are to come, and then these.
  refine (Sweep.placeList_returns hkept.available (length_le_count hkept.available.nodup) hnd
    (fun b hb => hlayout b (Cache.mem_blocks.2 (.inl hb))) hstart).mono fun _ t ht => ?_
  obtain ⟨⟨⟩, t', he, hs₁⟩ := ht.exists_ok
  rw [← List.append_nil (c.full.toList h.memory)] at hs₁
  refine (Sweep.placeList_returns hkept.full (length_le_count hkept.full.nodup)
    (by rw [List.append_nil]; exact hkept.full.nodup)
    (fun b hb => hlayout b (Cache.mem_blocks.2 (.inr hb))) hs₁).mono fun _ u hu => ?_
  obtain ⟨⟨⟩, u', he', hs₂⟩ := hu.exists_ok
  have hsplit : (c.blocks h.memory).forM (Sweep.place c.shape) =
      (c.available.toList h.memory).forM (Sweep.place c.shape) >>= fun _ =>
        (c.full.toList h.memory).forM (Sweep.place c.shape) := List.forM_append ..
  rw [hsplit, meets_bind, Meets, he]
  dsimp only
  rw [Meets, he']
  exact hs₂.arrived.finish

end Heap

end SlabHeap
