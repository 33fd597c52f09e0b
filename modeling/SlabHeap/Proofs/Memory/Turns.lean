/-
  Megablocks that are used up one after the other.

  A directory is `InTurn` if all of its megablocks are exhausted but the current one, if there
  is one, and blocks were sliced from each.  Slicing the current megablock, or a new one where
  all are exhausted, keeps this (`inTurn_insert`).  So the number of megablocks is that of the
  sliced blocks, divided by the blocks of a megablock and rounded up (`InTurn.size_eq`).
-/
import SlabHeap.Proofs.Memory.Slicing

namespace SlabHeap.Directory

variable {d : Directory} {mb mb' : Megablock} {m : Memory} {current : Option Word} {base : Word}
  {l : List Megablock}

/-! ## Insertion -/

theorem base_ne_of_lt (h : ∀ other ∈ l, other.base < mb.base) (hm : mb' ∈ l) :
    mb'.base ≠ mb.base := by
  intro he
  have hlt := h mb' hm
  rw [he] at hlt
  exact UInt64.lt_irrefl _ hlt

theorem mem_insertInto_iff (h : l.Pairwise fun a b => b.base < a.base) :
    mb' ∈ insertInto mb l ↔ mb' = mb ∨ mb' ∈ l ∧ mb'.base ≠ mb.base := by
  induction l with
  | nil => simp [insertInto]
  | cons x l ih =>
    obtain ⟨hx, hl⟩ := List.pairwise_cons.1 h
    unfold insertInto
    split
    next hlt =>
      have hall : ∀ y ∈ x :: l, y.base < mb.base := by
        intro y hy
        rcases List.mem_cons.1 hy with rfl | hy
        · exact hlt
        · exact UInt64.lt_trans (hx y hy) hlt
      rw [List.mem_cons]
      exact or_congr_right ⟨fun hmem => ⟨hmem, base_ne_of_lt hall hmem⟩, And.left⟩
    next =>
      split
      next heq =>
        rw [List.mem_cons, List.mem_cons]
        refine or_congr_right ⟨fun hmem => ⟨.inr hmem, heq ▸ base_ne_of_lt hx hmem⟩, ?_⟩
        rintro ⟨rfl | hmem, hne⟩
        · exact absurd heq hne
        · exact hmem
      next heq =>
        rw [List.mem_cons, ih hl, List.mem_cons]
        constructor
        · rintro (rfl | rfl | ⟨hmem, hne⟩)
          · exact .inr ⟨.inl rfl, heq⟩
          · exact .inl rfl
          · exact .inr ⟨.inr hmem, hne⟩
        · rintro (rfl | ⟨rfl | hmem, hne⟩)
          · exact .inr (.inl rfl)
          · exact .inl rfl
          · exact .inr (.inr ⟨hmem, hne⟩)

theorem mem_insert (h : d.Ordered) :
    mb' ∈ (d.insert mb).megablocks ↔ mb' = mb ∨ mb' ∈ d.megablocks ∧ mb'.base ≠ mb.base :=
  mem_insertInto_iff h

/-- The megablock that starts at an address is the only one. -/
theorem startingAt?_eq_some (h : d.Ordered) :
    d.startingAt? base = some mb ↔ mb ∈ d.megablocks ∧ mb.base = base := by
  constructor
  · intro hf
    exact ⟨List.mem_of_find?_eq_some hf, by simpa using List.find?_some hf⟩
  · rintro ⟨hmem, rfl⟩
    cases hf : d.startingAt? mb.base with
    | none =>
      have hno := List.find?_eq_none.1 hf mb hmem
      simp at hno
    | some mb' =>
      have hbase : mb'.base = mb.base := by simpa using List.find?_some hf
      by_contra hne
      exact base_ne h (List.mem_of_find?_eq_some hf) hmem (fun he => hne (he ▸ rfl)) hbase

theorem size_insert_of_mem (h : d.Ordered) (hm : mb ∈ d.megablocks) (hb : mb'.base = mb.base) :
    (d.insert mb').size = d.size := by
  have hlen : (d.insert mb').megablocks.length = _ := (insertInto_perm_of_mem h hm hb).length_eq
  rw [List.length_cons, List.length_erase_of_mem hm] at hlen
  have hpos := List.length_pos_of_mem hm
  rw [size, size]
  omega

theorem size_insert_le : (d.insert mb).size ≤ d.size + 1 := by
  suffices ∀ l, (insertInto mb l).length ≤ l.length + 1 from this d.megablocks
  intro l
  induction l with
  | nil => exact le_rfl
  | cons x l ih =>
    unfold insertInto
    split
    · exact le_rfl
    · split
      · exact Nat.le_succ _
      · exact Nat.succ_le_succ ih

/-- Of the megablocks that were begun, those that are not exhausted lack at most all blocks but
    one. -/
theorem length_flatMap_blocks (hl : ∀ mb ∈ l, 0 < mb.sliced ∧ mb.sliced ≤ blocksPerMegablock) :
    (l.flatMap Megablock.blocks).length ≤ blocksPerMegablock * l.length ∧
    blocksPerMegablock * l.length ≤ (l.flatMap Megablock.blocks).length +
      (blocksPerMegablock - 1) * l.countP fun mb => !mb.isExhausted := by
  have hblocks : blocksPerMegablock = 256 := by decide
  rw [hblocks] at hl ⊢
  induction l with
  | nil => simp
  | cons mb l ih =>
    obtain ⟨hle, hge⟩ := ih fun mb' hm => hl mb' (List.mem_cons_of_mem _ hm)
    obtain ⟨hpos, hmost⟩ := hl mb (List.mem_cons_self ..)
    have hlen : mb.blocks.length = mb.sliced := by simp [Megablock.blocks]
    rw [List.flatMap_cons, List.length_append, hlen, List.length_cons, List.countP_cons,
      Megablock.isExhausted, hblocks]
    by_cases hfull : mb.sliced = 256
    · simp only [hfull, beq_self_eq_true, Bool.not_true, Bool.false_eq_true, if_false]
      omega
    · simp only [beq_eq_false_iff_ne.2 hfull, Bool.not_false, if_true]
      omega

/-! ## Turns -/

/-- Blocks were sliced from every megablock, and all of them from every one but the current
    one. -/
structure InTurn (d : Directory) (current : Option Word) : Prop where
  begun : ∀ mb ∈ d.megablocks, 0 < mb.sliced
  unfinished : ∀ mb ∈ d.megablocks, mb.isExhausted = false → current = some mb.base
  current : ∀ base, current = some base →
    ∃ mb ∈ d.megablocks, mb.base = base ∧ mb.isExhausted = false

theorem inTurn_empty : InTurn .empty none where
  begun _ hmb := absurd hmb List.not_mem_nil
  unfinished _ hmb := absurd hmb List.not_mem_nil
  current := nofun

/-- Where the others are exhausted, a megablock goes on as the current one, until it is
    exhausted itself. -/
theorem inTurn_insert (hd : d.Ordered)
    (hrest : ∀ other ∈ d.megablocks, other.base ≠ mb.base → 0 < other.sliced ∧ other.isExhausted)
    (hbegun : 0 < mb.sliced) :
    (d.insert mb).InTurn (if mb.isExhausted then none else some mb.base) := by
  refine ⟨fun other ho => ?_, fun other ho hun => ?_, fun base hbase => ?_⟩
  · rcases (mem_insert hd).1 ho with rfl | ⟨ho, hne⟩
    · exact hbegun
    · exact (hrest other ho hne).1
  · rcases (mem_insert hd).1 ho with rfl | ⟨ho, hne⟩
    · rw [hun]
      rfl
    · rw [(hrest other ho hne).2] at hun
      cases hun
  · cases hex : mb.isExhausted with
    | true =>
      rw [hex] at hbase
      cases hbase
    | false =>
      rw [hex] at hbase
      exact ⟨mb, (mem_insert hd).2 (.inl rfl), Option.some.inj hbase, hex⟩

namespace InTurn

variable (h : d.InTurn current)
include h

/-- Beside the current megablock, all are exhausted. -/
theorem exhausted (hm : mb ∈ d.megablocks) (hne : current ≠ some mb.base) :
    mb.isExhausted = true := by
  cases hex : mb.isExhausted with
  | true => rfl
  | false => exact absurd (h.unfinished mb hm hex) hne

/-- At most one megablock is not exhausted. -/
theorem unique (hd : d.Ordered) (hm : mb ∈ d.megablocks) (hm' : mb' ∈ d.megablocks)
    (hex : mb.isExhausted = false) (hex' : mb'.isExhausted = false) : mb = mb' := by
  by_contra hne
  have hbase := (h.unfinished mb hm hex).symm.trans (h.unfinished mb' hm' hex')
  exact base_ne hd hm hm' hne (Option.some.inj hbase)

/-- There is no current megablock if all are exhausted. -/
theorem current_eq_none : current = none ↔ ∀ mb ∈ d.megablocks, mb.isExhausted = true := by
  constructor
  · rintro rfl mb hm
    exact h.exhausted hm nofun
  · intro hall
    cases hc : current with
    | none => rfl
    | some base =>
      obtain ⟨mb, hm, -, hex⟩ := h.current base hc
      rw [hall mb hm] at hex
      cases hex

/-- The megablocks that are not exhausted are one or none. -/
theorem countP_le_one (hd : d.Ordered) :
    d.megablocks.countP (fun mb => !mb.isExhausted) ≤ 1 := by
  have hnd : (d.megablocks.filter fun mb => !mb.isExhausted).Nodup := by
    refine List.Nodup.filter _ (hd.imp fun hlt he => ?_)
    rw [he] at hlt
    exact UInt64.lt_irrefl _ hlt
  have hmem : ∀ mb ∈ d.megablocks.filter (fun mb => !mb.isExhausted),
      mb ∈ d.megablocks ∧ mb.isExhausted = false := by
    intro mb hm
    simpa using hm
  rw [List.countP_eq_length_filter]
  cases hl : d.megablocks.filter fun mb => !mb.isExhausted with
  | nil => simp
  | cons mb rest =>
    cases rest with
    | nil => simp
    | cons mb' rest =>
      rw [hl] at hnd hmem
      obtain ⟨hm, hex⟩ := hmem mb (by simp)
      obtain ⟨hm', hex'⟩ := hmem mb' (by simp)
      have hne : mb ≠ mb' := fun he => (List.nodup_cons.1 hnd).1 (he ▸ List.mem_cons_self ..)
      exact absurd (h.unique hd hm hm' hex hex') hne

/-- The megablocks are as many as the sliced blocks need. -/
theorem size_eq (hd : d.Mapped m) :
    d.size = (d.blocks.length + (blocksPerMegablock - 1)) / blocksPerMegablock := by
  obtain ⟨hle, hge⟩ := length_flatMap_blocks fun mb hm =>
    ⟨h.begun mb hm, (hd.megablocks mb hm).sliced⟩
  have hone := h.countP_le_one hd.ordered
  have hblocks : blocksPerMegablock = 256 := by decide
  rw [hblocks] at hle hge ⊢
  rw [size, blocks]
  omega

end InTurn

end SlabHeap.Directory
