/-
  Which slots a collection brings into use.

  A collection frees all slots before it marks what the roots reach, so it cannot tell a
  slot that held an object from one that never did: a word that stands for a free slot
  brings the slot into use (`collect_uses_free_slot`).  The words of a program are
  `Precise` if no root, and no pointer field of an object that is reached, stands for a
  free slot.  With such words, and only with these, every slot that is in use after a
  collection was in use before, and no block has more used slots
  (`collect_uses_no_free_slot`).
-/
import SlabHeap.Proofs.Run.Collection

namespace SlabHeap

variable {tagging : Tagging} {T may must : Word → Word → Prop} {R : Word → Prop} {past : List Step}
  {h h' : Heap} {roots : List Word} {b : Word}

/-! ## Used slots -/

/-- The number of slots of a block that are in use. -/
def Block.usedSlots (b : Block) : Nat :=
  (List.range (slotsIn b.layout.size.toNat)).countP fun i => b.bitmap.bit i

theorem Block.slotsIn_layout {b : Block} {s : Shape} (hl : b.layout = s.layout) :
    slotsIn b.layout.size.toNat = s.slots := by
  rw [hl, Shape.toNat_layout_size, Shape.slots]

theorem Block.Idle.usedSlots {b : Block} (hi : b.Idle) : b.usedSlots = 0 := by
  obtain ⟨-, s, hl, -, hbitmap⟩ := hi
  rw [Block.usedSlots, slotsIn_layout hl, List.countP_eq_zero]
  intro i hmem
  have hlt : i < s.slots := List.mem_range.1 hmem
  rw [hbitmap, Bitmap.bit_cleared s.slots_pos (Bitmap.div_lt_wordsFor hlt)]
  simpa using hlt

namespace Heap

/-- Every object that is in use in `h'` was in use in `h`. -/
def NoneNew (h h' : Heap) : Prop :=
  ∀ s x, h'.arena.Holds h'.memory s x → h.arena.Holds h.memory s x

/-- No root, and no pointer field of an object that is in use and that the roots reach,
    stands for a slot that is free. -/
structure Precise (T : Word → Word → Prop) (roots : List Word) (h : Heap) : Prop where
  ofRoot : ∀ {r s base i x}, r ∈ roots → T r x → h.arena.SlotAt h.memory s base i x →
    h.arena.Holds h.memory s x
  ofField : ∀ {s s' base i j x y}, h.arena.Holds h.memory s x →
    Reached T h.arena h.memory roots x → j < s.pointers → T (h.memory.field x j) y →
    h.arena.SlotAt h.memory s' base i y → h.arena.Holds h.memory s' y

/-- What precise words reach is in use. -/
theorem Precise.holds (hp : h.Precise T roots) (hs : h.Sound [] 0) {x : Word}
    (hx : Reached T h.arena h.memory roots x) : ∃ s, h.arena.Holds h.memory s x := by
  induction hx with
  | root hr hres hx => exact ⟨_, hp.ofRoot hr hres hx⟩
  | field hreach hx hj hres hy ih =>
    obtain ⟨s, hin⟩ := ih
    obtain ⟨base, i, hx', hbit⟩ := hin
    obtain ⟨rfl, -, -⟩ := hx'.unique hs hx
    exact ⟨_, hp.ofField ⟨base, i, hx', hbit⟩ hreach hj hres hy⟩

/-- Words are precise if what they stand for lies in a set of objects in use whose fields do
    not lead out of it. -/
theorem precise_of_closed {P : Word → Prop} (hs : h.Sound [] 0)
    (hroot : ∀ {r x}, r ∈ roots → T r x → P x)
    (hfield : ∀ {s base i j x y}, P x → h.arena.SlotAt h.memory s base i x → j < s.pointers →
      T (h.memory.field x j) y → P y)
    (hused : ∀ x, P x → ∃ s, h.arena.Holds h.memory s x) : h.Precise T roots := by
  have hreached : ∀ {x}, Reached T h.arena h.memory roots x → P x := by
    intro x hx
    induction hx with
    | root hr hres _ => exact hroot hr hres
    | field _ hx hj hres _ ih => exact hfield ih hx hj hres
  have hholds : ∀ {s base i x}, P x → h.arena.SlotAt h.memory s base i x →
      h.arena.Holds h.memory s x := by
    intro s base i x hx hslot
    obtain ⟨s', base', i', hslot', hbit⟩ := hused x hx
    obtain ⟨rfl, -, -⟩ := hslot'.unique hs hslot
    exact ⟨base', i', hslot', hbit⟩
  refine ⟨fun hr hres hx => hholds (hroot hr hres) hx, fun hin hreach hj hres hy => ?_⟩
  obtain ⟨base', i', hx, -⟩ := hin
  exact hholds (hfield (hreached hreach) hx hj hres) hy

/-! ## Collections -/

section
variable (hs : h.Sound [] 0) (hs' : h'.Sound [] 0) (hcol : Collected R h h')
include hs hs' hcol

/-- A collection with precise words brings no slot into use. -/
theorem Collected.noneNew (hR : Survivors may must roots h R) (hp : h.Precise may roots) :
    h.NoneNew h' := by
  intro s x hx
  obtain ⟨⟨base, i, hslot⟩, hkept⟩ := (hcol.holds hs hs').1 hx
  obtain ⟨s', base', i', hslot', hbit⟩ := hp.holds hs (hR.may x hkept)
  obtain ⟨rfl, -, -⟩ := hslot'.unique hs hslot
  exact ⟨base', i', hslot', hbit⟩

/-- A word that is not precise brings a slot into use. -/
theorem Collected.precise (hR : Survivors may must roots h R) (hnone : h.NoneNew h') :
    h.Precise must roots where
  ofRoot hr hres hx := hnone _ _ ((hcol.holds hs hs').2 ⟨⟨_, _, hx⟩, hR.must _ (.root hr hres hx)⟩)
  ofField {s s' base i j x y} hin hreach hj hres hy := by
    obtain ⟨base', i', hx, -⟩ := hin
    exact hnone _ _ ((hcol.holds hs hs').2 ⟨⟨_, _, hy⟩, hR.must _ (.field hreach hx hj hres hy)⟩)

/-- If a collection brings no slot into use, no block has more used slots. -/
theorem Collected.usedSlots_le (hd : h'.arena.directory = h.arena.directory)
    (hnone : h.NoneNew h') (hb : b ∈ h.arena.directory.blocks) :
    (h'.memory.block b).usedSlots ≤ (h.memory.block b).usedSlots := by
  rw [← hd, ← hs'.blocks.mem_iff, List.nil_append, List.mem_append] at hb
  rcases hb with hfree | howned
  · rw [(hs'.idle b hfree).usedSlots]
    exact Nat.zero_le _
  · obtain ⟨c', hc', hb'⟩ := Arena.mem_owned.1 howned
    obtain ⟨c, hc, hshape, hblocks⟩ := hcol.origin hc'
    have ho' : h'.arena.Owns h'.memory c'.shape b := ⟨c', hc', rfl, hb'⟩
    have ho : h.arena.Owns h.memory c'.shape b := ⟨c, hc, hshape.symm, ((hblocks b).1 hb').1⟩
    have hl' := (ho'.serves hs').layout
    have hl := (ho.serves hs).layout
    rw [Block.usedSlots, Block.usedSlots, Block.slotsIn_layout hl', Block.slotsIn_layout hl]
    refine List.countP_mono_left fun i hi hbit => ?_
    have hx' : h'.arena.SlotAt h'.memory c'.shape b i _ := ⟨ho', List.mem_range.1 hi, rfl⟩
    obtain ⟨base, k, hx, hbit'⟩ := hnone _ _ ⟨b, i, hx', hbit⟩
    obtain ⟨-, rfl, rfl⟩ := hx.unique hs (hx'.congr ho (hl.trans hl'.symm))
    exact hbit'

end

end Heap

theorem collect_uses_no_free_slot (hr : Run tagging anySlots past h)
    (hT : tagging.Reads may must) (roots : List Word) :
    Meets ((Operation.collect roots).run tagging) h
      (fun _ h' =>
        (∀ s x, h'.arena.Holds h'.memory s x → Reached may h.arena h.memory roots x) ∧
        (h.Precise may roots → h.NoneNew h' ∧ ∀ b ∈ h.arena.directory.blocks,
          (h'.memory.block b).usedSlots ≤ (h.memory.block b).usedSlots) ∧
        (h.NoneNew h' → h.Precise must roots))
      fun fault _ => fault.IsOverflow ∨ fault.Diverges tagging := by
  have hs := hr.sound
  simp only [Operation.run, meets_bind, meets_pure]
  refine (Heap.collect_meets hT hs).mono ?_ fun _ _ => id
  rintro - h' ⟨⟨R, hR, hcol⟩, hs', hacc⟩
  refine ⟨fun s x hx => hR.may x ((hcol.holds hs hs').1 hx).2, fun hp => ?_,
    hcol.precise hs hs' hR⟩
  have hnone := hcol.noneNew hs hs' hR hp
  exact ⟨hnone, fun b hb => hcol.usedSlots_le hs hs' hacc.directory hnone hb⟩

/-- An object that refers to itself stays the only one of its block in use. -/
theorem collect_uses_no_free_slot_of_cycle : ∃ past h h',
    Run (.ofWord Tagging.untaggedEdge) anySlots past h ∧ past.length = 2 ∧
    (Operation.collect [1048600]).run (.ofWord Tagging.untaggedEdge) h = .ok none h' ∧
    h.Precise (Resolves Tagging.untaggedEdge) [1048600] ∧ h.NoneNew h' ∧
    (h.memory.block 1048576).usedSlots = 1 ∧ (h'.memory.block 1048576).usedSlots ≤ 1 := by
  have h₀ : Run (.ofWord Tagging.untaggedEdge) anySlots [] (.fresh 1 .standard) :=
    .start (Heap.initial_fresh (by decide) (by decide))
  have h₁ := h₀.next (.allocateWords 100 1 []) (some 1048600) trivial (by decide +kernel)
  have h₂ := h₁.next (.write 1048600 0 1048600) none
    ⟨⟨100, 1, by decide, by decide, by decide⟩, 1048576, 0, by decide +kernel, by decide⟩
    (by decide +kernel)
  -- The heap is a large term, so the theorem is applied to a name for it.
  have hcollect : ∀ {past h}, Run (.ofWord Tagging.untaggedEdge) anySlots past h →
      h.memory.field 1048600 0 = 1048600 → 1048576 ∈ h.arena.directory.blocks →
      h.arena.SlotAt h.memory ⟨100, 1, by decide, by decide, by decide⟩ 1048576 0 1048600 →
      (h.memory.block 1048576).bitmap.bit 0 = true →
      Operation.returned? (.ofWord Tagging.untaggedEdge) (.collect [1048600]) h = some none →
      let h' := Operation.after (.ofWord Tagging.untaggedEdge) (.collect [1048600]) h
      h.Precise (Resolves Tagging.untaggedEdge) [1048600] ∧ h.NoneNew h' ∧
        (h'.memory.block 1048576).usedSlots ≤ (h.memory.block 1048576).usedSlots := by
    intro past h hr hfield hmem hslot hbit hret
    have hself : ∀ {x}, Resolves Tagging.untaggedEdge 1048600 x → x = 1048600 := by
      rintro x ⟨ws, ht⟩
      exact Option.some.inj (ht.unique (.object (by decide))).2
    have hp : h.Precise (Resolves Tagging.untaggedEdge) [1048600] := by
      refine Heap.precise_of_closed (P := (· = 1048600)) hr.sound ?_ ?_ ?_
      · intro r x hmem hres
        obtain rfl := List.mem_singleton.1 hmem
        exact hself hres
      · rintro s base i j x y rfl hx hj hres
        obtain ⟨rfl, -, -⟩ := hslot.unique hr.sound hx
        obtain rfl : j = 0 := Nat.lt_one_iff.1 hj
        exact hself (hfield ▸ hres)
      · rintro x rfl
        exact ⟨_, _, _, hslot, hbit⟩
    obtain ⟨-, hnone, -⟩ := (collect_uses_no_free_slot hr (Tagging.reads_ofWord _)
      [1048600]).of_ok (Operation.run_of_returned? hret)
    exact ⟨hp, (hnone hp).1, (hnone hp).2 _ hmem⟩
  obtain ⟨hp, hnone, hle⟩ := hcollect h₂ (by decide +kernel) (by decide +kernel)
    (by decide +kernel) (by decide +kernel) (by decide +kernel)
  exact ⟨_, _, _, h₂, rfl, Operation.run_of_returned? (by decide +kernel), hp, hnone,
    by decide +kernel, hle.trans_eq (by decide +kernel)⟩

/-- Roots that stand for an object and for the free slot after it: both are in use after the
    collection. -/
theorem collect_uses_free_slot : ∃ past h h',
    Run (.ofWord Tagging.untaggedEdge) anySlots past h ∧ past.length = 1 ∧
    (Operation.collect [1048600, 1049400]).run (.ofWord Tagging.untaggedEdge) h = .ok none h' ∧
    (¬ ∀ s x, h'.arena.Holds h'.memory s x → h.arena.Holds h.memory s x) ∧
    (h.memory.block 1048576).usedSlots = 1 ∧ (h'.memory.block 1048576).usedSlots = 2 := by
  have h₀ : Run (.ofWord Tagging.untaggedEdge) anySlots [] (.fresh 1 .standard) :=
    .start (Heap.initial_fresh (by decide) (by decide))
  have h₁ := h₀.next (.allocateWords 100 0 []) (some 1048600) trivial (by decide +kernel)
  -- The heap is a large term, so what follows is said about a name for it.
  have hfree : ∀ {past} {h h' : Heap}, Run (.ofWord Tagging.untaggedEdge) anySlots past h →
      h.arena.SlotAt h.memory ⟨100, 0, by decide, by decide, by decide⟩ 1048576 1 1049400 →
      (h.memory.block 1048576).bitmap.bit 1 = false →
      h'.arena.SlotAt h'.memory ⟨100, 0, by decide, by decide, by decide⟩ 1048576 1 1049400 →
      (h'.memory.block 1048576).bitmap.bit 1 = true →
      ¬ ∀ s x, h'.arena.Holds h'.memory s x → h.arena.Holds h.memory s x := by
    intro past h h' hr hslot hclear hslot' hset hall
    obtain ⟨base, i, hx, hbit⟩ := hall _ _ ⟨_, _, hslot', hset⟩
    obtain ⟨-, rfl, rfl⟩ := hslot.unique hr.sound hx
    exact absurd hbit (by rw [hclear]; exact Bool.false_ne_true)
  exact ⟨_, _, _, h₁, rfl, Operation.run_of_returned? (by decide +kernel),
    hfree h₁ (by decide +kernel) (by decide +kernel) (by decide +kernel) (by decide +kernel),
    by decide +kernel, by decide +kernel⟩

end SlabHeap
