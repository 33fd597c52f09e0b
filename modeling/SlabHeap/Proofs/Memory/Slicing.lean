/-
  The blocks that were sliced from megablocks.

  The system is trusted in one thing: the mappings it hands out lie in the address
  space and share no address (`Supply.Disjoint`).  A directory is `Mapped` if its
  megablocks are such mappings.  Then the blocks handed out are pairwise different
  (`nodup_blocks`), start at block boundaries (`startsAt_of_mem_blocks`), and an
  address is recognised as sliced exactly if its block was handed out
  (`isSliced_iff`).  Mapping a megablock hands out no block (`mapped_insert`), and
  slicing one hands out one more (`mapped_slice`).
-/
import Mathlib.Data.List.Nodup
import Mathlib.Data.List.Perm.Subperm
import SlabHeap.Proofs.Block.Address
import SlabHeap.Memory.Directory

namespace SlabHeap

open Block (StartsAt)

/-- The mappings that a system hands out lie in the address space and share no
    address. -/
structure Supply.Disjoint (supply : Supply) : Prop where
  fits : ∀ {k x}, supply k = some x → x.toNat + megablockBytes ≤ Word.count
  apart : ∀ {i j x y}, i ≠ j → supply i = some x → supply j = some y →
    x.toNat + megablockBytes ≤ y.toNat ∨ y.toNat + megablockBytes ≤ x.toNat

/-! ## Megablocks -/

/-- The blocks handed out of a megablock. -/
def Megablock.blocks (mb : Megablock) : List Word :=
  (List.range mb.sliced).map mb.blockBase

/-- The blocks handed out of all megablocks. -/
def Directory.blocks (d : Directory) : List Word :=
  d.megablocks.flatMap Megablock.blocks

/-- A megablock is a mapping of `m`, of which at most all blocks are handed out. -/
structure Megablock.Mapped (mb : Megablock) (m : Memory) : Prop where
  size : mb.mapping.size = megablockBytes
  start : StartsAt mb.base
  sliced : mb.sliced ≤ blocksPerMegablock
  supplied : ∃ k < m.mapped, m.supply k = some mb.base

/-- The megablocks of a directory are mappings of `m`. -/
structure Directory.Mapped (d : Directory) (m : Memory) : Prop where
  ordered : d.Ordered
  megablocks : ∀ mb ∈ d.megablocks, mb.Mapped m

namespace Megablock

variable {mb : Megablock} {m : Memory} {w : Word} {i j : Nat}

theorem contains_iff (h : mb.Mapped m) :
    mb.contains w = true ↔ mb.base.toNat ≤ w.toNat ∧ w.toNat < mb.base.toNat + megablockBytes := by
  simp [contains, Mapping.contains, Mapping.stop, h.size, base, UInt64.le_iff_toNat_le]

theorem toNat_blockBase (h : mb.Mapped m) (hs : Supply.Disjoint m.supply)
    (hi : i < blocksPerMegablock) :
    (mb.blockBase i).toNat = mb.base.toNat + i * blockBytes := by
  obtain ⟨k, -, hk⟩ := h.supplied
  have hfit := hs.fits hk
  have := mb.base.toNat_lt
  simp only [megablockBytes, Word.count, blocksPerMegablock, blockBytes] at hfit hi ⊢
  rw [blockBase, Word.plus, UInt64.toNat_add, UInt64.toNat_ofNat', blockBytes,
    Nat.mod_eq_of_lt (a := i * 4096) (by omega), Nat.mod_eq_of_lt (by omega)]

theorem startsAt_blockBase (h : mb.Mapped m) (hs : Supply.Disjoint m.supply)
    (hi : i < blocksPerMegablock) : StartsAt (mb.blockBase i) := by
  have hb := h.start
  rw [StartsAt, toNat_blockBase h hs hi]
  simp only [StartsAt, blockBytes] at hb ⊢; omega

theorem blockBase_inj (h : mb.Mapped m) (hs : Supply.Disjoint m.supply)
    (hi : i < blocksPerMegablock) (hj : j < blocksPerMegablock)
    (he : mb.blockBase i = mb.blockBase j) : i = j := by
  have := congrArg UInt64.toNat he
  rw [toNat_blockBase h hs hi, toNat_blockBase h hs hj] at this
  simp only [blockBytes] at this; omega

theorem mem_blocks : w ∈ mb.blocks ↔ ∃ i < mb.sliced, mb.blockBase i = w := by
  simp [blocks]

theorem nodup_blocks (h : mb.Mapped m) (hs : Supply.Disjoint m.supply) : mb.blocks.Nodup := by
  refine List.Nodup.map_on (fun i hi j hj he => ?_) List.nodup_range
  have hle := h.sliced
  exact blockBase_inj h hs (by have := List.mem_range.1 hi; omega)
    (by have := List.mem_range.1 hj; omega) he

/-- An address in a megablock lies in the block at its position. -/
theorem baseOf_eq (h : mb.Mapped m) (hs : Supply.Disjoint m.supply) (hc : mb.contains w = true) :
    mb.blockAt w < blocksPerMegablock ∧ mb.blockBase (mb.blockAt w) = Block.baseOf w := by
  obtain ⟨hle, hlt⟩ := (contains_iff h).1 hc
  have hsub : (w - mb.base).toNat = w.toNat - mb.base.toNat :=
    UInt64.toNat_sub_of_le _ _ (UInt64.le_iff_toNat_le.2 hle)
  have hb := h.start
  have hat : mb.blockAt w < blocksPerMegablock := by
    rw [blockAt, hsub]
    simp only [megablockBytes, blocksPerMegablock, blockBytes] at hlt ⊢
    omega
  refine ⟨hat, ?_⟩
  rw [← UInt64.toNat_inj, toNat_blockBase h hs hat, Block.toNat_baseOf, blockAt, hsub]
  simp only [StartsAt, blockBytes] at hb ⊢
  omega

theorem contains_blockBase (h : mb.Mapped m) (hs : Supply.Disjoint m.supply)
    (hi : i < blocksPerMegablock) : mb.contains (mb.blockBase i) = true := by
  rw [contains_iff h, toNat_blockBase h hs hi]
  simp only [megablockBytes, blocksPerMegablock, blockBytes] at hi ⊢
  omega

/-- An address in a block of a megablock lies in the megablock. -/
theorem contains_of_baseOf (h : mb.Mapped m) (hs : Supply.Disjoint m.supply)
    (hi : i < blocksPerMegablock) (he : mb.blockBase i = Block.baseOf w) :
    mb.contains w = true ∧ mb.blockAt w = i := by
  have hn := congrArg UInt64.toNat he
  rw [toNat_blockBase h hs hi, Block.toNat_baseOf] at hn
  have hc : mb.contains w = true := by
    rw [contains_iff h]
    simp only [megablockBytes, blocksPerMegablock, blockBytes] at hn hi ⊢
    omega
  obtain ⟨hat, hb⟩ := baseOf_eq h hs hc
  exact ⟨hc, blockBase_inj h hs hat hi (hb.trans he.symm)⟩

/-- What is mapped later holds no address of a megablock. -/
theorem contains_later (h : mb.Mapped m) (hs : Supply.Disjoint m.supply)
    (hw : mb.contains w = true) {k : Nat} {start : Word} (hk : m.mapped ≤ k)
    (hstart : m.supply k = some start) :
    ¬ (start.toNat ≤ w.toNat ∧ w.toNat < start.toNat + megablockBytes) := by
  obtain ⟨i, hi, hbase⟩ := h.supplied
  have hik : i ≠ k := (hi.trans_le hk).ne
  have hin := (contains_iff h).1 hw
  rcases hs.apart hik hbase hstart with hle | hle <;> omega

end Megablock

/-! ## Directories -/

namespace Directory

variable {d : Directory} {mb mb' : Megablock} {m m' : Memory} {w : Word} {l : List Megablock}

theorem Ordered.nodup (h : d.Ordered) : d.megablocks.Nodup :=
  h.imp fun hlt he => by rw [he] at hlt; exact UInt64.lt_irrefl _ hlt

theorem base_ne (h : d.Ordered) (hm : mb ∈ d.megablocks) (hm' : mb' ∈ d.megablocks)
    (hne : mb ≠ mb') : mb.base ≠ mb'.base := by
  intro he
  refine hne (List.inj_on_of_nodup_map (f := Megablock.base) ?_ hm hm' he)
  exact List.pairwise_map.2 (h.imp fun hlt he => by rw [he] at hlt; exact UInt64.lt_irrefl _ hlt)

/-- Different megablocks share no address. -/
theorem apart (hd : d.Mapped m) (hs : Supply.Disjoint m.supply) (hm : mb ∈ d.megablocks)
    (hm' : mb' ∈ d.megablocks) (hne : mb ≠ mb') :
    mb.base.toNat + megablockBytes ≤ mb'.base.toNat ∨
      mb'.base.toNat + megablockBytes ≤ mb.base.toNat := by
  obtain ⟨i, -, hi⟩ := (hd.megablocks mb hm).supplied
  obtain ⟨j, -, hj⟩ := (hd.megablocks mb' hm').supplied
  refine hs.apart (fun hij => ?_) hi hj
  rw [hij, hj] at hi
  exact base_ne hd.ordered hm hm' hne (Option.some.inj hi).symm

/-- If no megablock reaches into one behind it, the one that holds an address is found. -/
theorem Ordered.holding?_eq_some (ho : d.Ordered)
    (hstop : ∀ mb ∈ d.megablocks, ∀ mb' ∈ d.megablocks, mb.base < mb'.base →
      mb.mapping.stop ≤ mb'.base.toNat) :
    d.holding? w = some mb ↔ mb ∈ d.megablocks ∧ mb.contains w = true := by
  simp only [holding?, Option.filter_eq_some_iff]
  constructor
  · rintro ⟨hf, hc⟩
    exact ⟨List.mem_of_find?_eq_some hf, hc⟩
  · rintro ⟨hm, hc⟩
    refine ⟨?_, hc⟩
    obtain ⟨hle, hlt⟩ : mb.base ≤ w ∧ w.toNat < mb.mapping.stop := by
      simpa [Megablock.contains, Mapping.contains, Megablock.base] using hc
    obtain ⟨before, after, hl⟩ := List.append_of_mem hm
    rw [List.find?_eq_some_iff_append]
    refine ⟨by simpa using hle, before, after, hl, fun mb' hmb' => ?_⟩
    have hord := ho
    rw [Ordered, hl, List.pairwise_append] at hord
    have hbase := hord.2.2 mb' hmb' mb (List.mem_cons_self ..)
    have hmem : mb' ∈ d.megablocks := by rw [hl]; exact List.mem_append_left _ hmb'
    have hreach := hstop mb hm mb' hmem hbase
    simp only [UInt64.le_iff_toNat_le, Bool.not_eq_true', decide_eq_false_iff_not]
    omega

/-- The megablock that holds an address is found. -/
theorem holding?_eq_some (hd : d.Mapped m) (hs : Supply.Disjoint m.supply) :
    d.holding? w = some mb ↔ mb ∈ d.megablocks ∧ mb.contains w = true := by
  refine hd.ordered.holding?_eq_some fun mb hm mb' hm' hlt => ?_
  have hne : mb ≠ mb' := fun e => by rw [e] at hlt; exact UInt64.lt_irrefl _ hlt
  have hapart := apart hd hs hm hm' hne
  have hsize := (hd.megablocks mb hm).size
  rw [UInt64.lt_iff_toNat_lt] at hlt
  rw [Mapping.stop, hsize]
  change mb.base.toNat + megablockBytes ≤ mb'.base.toNat
  omega

theorem mem_blocks : w ∈ d.blocks ↔ ∃ mb ∈ d.megablocks, w ∈ mb.blocks := by
  simp [blocks]

/-- An address is sliced if its block was handed out. -/
theorem isSliced_iff (hd : d.Mapped m) (hs : Supply.Disjoint m.supply) :
    (d.holding? w).any (·.isSliced w) = true ↔ Block.baseOf w ∈ d.blocks := by
  simp only [Option.any_eq_true, mem_blocks, Megablock.mem_blocks, holding?_eq_some hd hs,
    Megablock.isSliced, Bool.and_eq_true, decide_eq_true_eq]
  constructor
  · rintro ⟨mb, ⟨hm, hc⟩, -, hlt⟩
    exact ⟨mb, hm, _, hlt, (Megablock.baseOf_eq (hd.megablocks mb hm) hs hc).2⟩
  · rintro ⟨mb, hm, i, hi, he⟩
    have hmb := hd.megablocks mb hm
    obtain ⟨hc, hat⟩ := Megablock.contains_of_baseOf hmb hs (hi.trans_le hmb.sliced) he
    exact ⟨mb, ⟨hm, hc⟩, hc, hat ▸ hi⟩

theorem startsAt_of_mem_blocks (hd : d.Mapped m) (hs : Supply.Disjoint m.supply)
    (hw : w ∈ d.blocks) : StartsAt w := by
  obtain ⟨mb, hm, hw⟩ := mem_blocks.1 hw
  obtain ⟨i, hi, rfl⟩ := Megablock.mem_blocks.1 hw
  have hmb := hd.megablocks mb hm
  exact Megablock.startsAt_blockBase hmb hs (hi.trans_le hmb.sliced)

/-- No block is handed out twice. -/
theorem nodup_blocks (hd : d.Mapped m) (hs : Supply.Disjoint m.supply) : d.blocks.Nodup := by
  refine List.nodup_flatMap.2 ⟨fun mb hm => Megablock.nodup_blocks (hd.megablocks mb hm) hs, ?_⟩
  refine hd.ordered.nodup.imp_of_mem fun {mb mb'} hm hm' hne w hw hw' => ?_
  obtain ⟨i, hi, rfl⟩ := Megablock.mem_blocks.1 hw
  obtain ⟨j, hj, he⟩ := Megablock.mem_blocks.1 hw'
  have hmb := hd.megablocks mb hm
  have hmb' := hd.megablocks mb' hm'
  have hi' := hi.trans_le hmb.sliced
  have hj' := hj.trans_le hmb'.sliced
  have hn := congrArg UInt64.toNat he
  rw [Megablock.toNat_blockBase hmb hs hi', Megablock.toNat_blockBase hmb' hs hj'] at hn
  have := apart hd hs hm hm' hne
  simp only [megablockBytes, blocksPerMegablock, blockBytes] at *
  omega

/-- The blocks fit in the address space. -/
theorem length_blocks_le (hd : d.Mapped m) (hs : Supply.Disjoint m.supply) :
    d.blocks.length ≤ Word.count / blockBytes := by
  have hnd : (d.blocks.map fun b => b.toNat / blockBytes).Nodup := by
    refine List.Nodup.map_on (fun b hb b' hb' he => ?_) (nodup_blocks hd hs)
    have hstart := startsAt_of_mem_blocks hd hs hb
    have hstart' := startsAt_of_mem_blocks hd hs hb'
    simp only [StartsAt, blockBytes] at hstart hstart' he
    exact UInt64.toNat_inj.1 (by omega)
  have hsub : (d.blocks.map fun b => b.toNat / blockBytes) ⊆
      List.range (Word.count / blockBytes) := by
    intro n hn
    obtain ⟨b, -, rfl⟩ := List.mem_map.1 hn
    have hlt : b.toNat < 2 ^ 64 := b.toNat_lt
    have hcount : Word.count = 2 ^ 64 := by decide
    rw [List.mem_range, hcount, blockBytes]
    omega
  have hle := (hnd.subperm hsub).length_le
  rwa [List.length_map, List.length_range] at hle

/-- Megablocks behind the address zero do not fill the address space. -/
theorem size_mul_lt (hd : d.Mapped m) (hs : Supply.Disjoint m.supply)
    (hnull : ∀ mb ∈ d.megablocks, mb.base ≠ 0) : d.size * megablockBytes < Word.count := by
  have hbytes : megablockBytes = 2 ^ 20 := by decide
  have hcount : Word.count = 2 ^ 64 := by decide
  have hbase : ∀ mb ∈ d.megablocks, 0 < mb.base.toNat ∧ mb.base.toNat + 2 ^ 20 ≤ 2 ^ 64 := by
    intro mb hm
    obtain ⟨k, -, hk⟩ := (hd.megablocks mb hm).supplied
    refine ⟨Nat.pos_of_ne_zero fun he => hnull mb hm (UInt64.toNat_inj.1 he), ?_⟩
    rw [← hbytes, ← hcount]
    exact hs.fits hk
  -- Each megablock starts at a multiple of its size, or holds one.
  have hnd : (d.megablocks.map fun mb => (mb.base.toNat - 1) / 2 ^ 20).Nodup := by
    refine List.Nodup.map_on (fun mb hm mb' hm' he => ?_) hd.ordered.nodup
    by_contra hne
    have hapart := apart hd hs hm hm' hne
    have hpos := (hbase mb hm).1
    have hpos' := (hbase mb' hm').1
    omega
  have hsub : (d.megablocks.map fun mb => (mb.base.toNat - 1) / 2 ^ 20) ⊆
      List.range (2 ^ 44 - 1) := by
    intro n hn
    obtain ⟨mb, hm, rfl⟩ := List.mem_map.1 hn
    have hfits := (hbase mb hm).2
    rw [List.mem_range]
    omega
  have hle := (hnd.subperm hsub).length_le
  rw [List.length_map, List.length_range] at hle
  rw [size, hbytes, hcount]
  omega

/-! ## Growth -/

theorem insertInto_perm_of_new (h : ∀ other ∈ l, other.base ≠ mb.base) :
    (insertInto mb l).Perm (mb :: l) := by
  induction l with
  | nil => exact .refl _
  | cons x l ih =>
    unfold insertInto
    split
    · exact .refl _
    rw [if_neg (h x (List.mem_cons_self ..))]
    have := ih fun other ho => h other (List.mem_cons_of_mem _ ho)
    exact (this.cons x).trans (.swap ..)

theorem insertInto_perm_of_mem (h : l.Pairwise fun a b => b.base < a.base) (hm : mb ∈ l)
    (hb : mb'.base = mb.base) : (insertInto mb' l).Perm (mb' :: l.erase mb) := by
  induction l with
  | nil => simp at hm
  | cons x l ih =>
    obtain ⟨hx, hl⟩ := List.pairwise_cons.1 h
    unfold insertInto
    rcases List.mem_cons.1 hm with rfl | hm
    · rw [hb, if_neg (UInt64.lt_irrefl _), if_pos rfl, List.erase_cons_head]
    · have hlt := hx mb hm
      have hne : x ≠ mb := fun e => by rw [e] at hlt; exact UInt64.lt_irrefl _ hlt
      rw [hb, if_neg (UInt64.lt_asymm hlt), if_neg (UInt64.ne_of_lt hlt).symm,
        List.erase_cons_tail (by simpa using hne)]
      exact ((ih hl hm).cons x).trans (.swap ..)

theorem Mapped.mono (hd : d.Mapped m) (hsup : m'.supply = m.supply) (hle : m.mapped ≤ m'.mapped) :
    d.Mapped m' where
  ordered := hd.ordered
  megablocks mb hm :=
    have h := hd.megablocks mb hm
    ⟨h.size, h.start, h.sliced, by
      obtain ⟨k, hk, he⟩ := h.supplied
      exact ⟨k, by omega, hsup ▸ he⟩⟩

/-- A new megablock joins a directory, and no block is handed out. -/
theorem mapped_insert (hd : d.Mapped m) (hs : Supply.Disjoint m.supply) (hmb : mb.Mapped m')
    (hsup : m'.supply = m.supply) (hle : m.mapped ≤ m'.mapped)
    (hk : m.supply m.mapped = some mb.base) (h0 : mb.sliced = 0) :
    (d.insert mb).Mapped m' ∧ mb ∈ (d.insert mb).megablocks ∧
      (d.insert mb).blocks.Perm d.blocks := by
  have hnew : ∀ other ∈ d.megablocks, other.base ≠ mb.base := by
    intro other ho he
    obtain ⟨i, hi, hsup⟩ := (hd.megablocks other ho).supplied
    have := hs.apart (show i ≠ m.mapped by omega) hsup hk
    rw [he] at this
    simp only [megablockBytes] at this; omega
  have hperm := insertInto_perm_of_new hnew
  refine ⟨⟨ordered_insert hd.ordered mb, fun other ho => ?_⟩,
    hperm.symm.subset (List.mem_cons_self ..), ?_⟩
  · rcases mem_insertInto ho with rfl | ho
    · exact hmb
    · exact (hd.mono hsup hle).megablocks other ho
  · refine (hperm.flatMap_right _).trans ?_
    simp [Megablock.blocks, h0, blocks]

/-- A megablock hands out its next block. -/
theorem mapped_slice (hd : d.Mapped m) (hm : mb ∈ d.megablocks)
    (hlt : mb.sliced < blocksPerMegablock) (hsup : m'.supply = m.supply)
    (hle : m.mapped ≤ m'.mapped) :
    (d.insert { mb with sliced := mb.sliced + 1 }).Mapped m' ∧
      (d.insert { mb with sliced := mb.sliced + 1 }).blocks.Perm
        (mb.blockBase mb.sliced :: d.blocks) := by
  have hmb := hd.megablocks mb hm
  have hperm : (insertInto { mb with sliced := mb.sliced + 1 } d.megablocks).Perm _ :=
    insertInto_perm_of_mem hd.ordered hm rfl
  refine ⟨⟨ordered_insert hd.ordered _, fun other ho => ?_⟩, ?_⟩
  · rcases mem_insertInto ho with rfl | ho
    · obtain ⟨k, hk, he⟩ := hmb.supplied
      exact ⟨hmb.size, hmb.start, hlt, k, by omega, hsup ▸ he⟩
    · exact (hd.mono hsup hle).megablocks other ho
  · have hblocks : Megablock.blocks { mb with sliced := mb.sliced + 1 } =
        mb.blocks ++ [mb.blockBase mb.sliced] := by
      simp only [Megablock.blocks, List.range_succ, List.map_append, List.map_singleton]
      rfl
    have hold := (List.perm_cons_erase hm).flatMap_right Megablock.blocks
    refine (hperm.flatMap_right _).trans ?_
    rw [List.flatMap_cons, hblocks]
    rw [List.flatMap_cons] at hold
    refine List.Perm.trans ?_ (hold.symm.cons _)
    rw [List.append_assoc]
    exact List.perm_middle

end Directory

end SlabHeap
