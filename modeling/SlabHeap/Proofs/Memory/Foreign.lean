/-
  Blocks of others.

  A heap shares memory with others, whose blocks are `Foreign` to it.  `Memory.Like` relates
  two memories that differ in foreign blocks at most; it says what these hold on either
  side, so that an operation that leads to related memories has left them alone.  A block
  that is not foreign reads the same on both sides and may be replaced on both
  (`Like.setBlock`), and so lists of such blocks are the same and change alike
  (`Like.toList`, `Like.push`, `Like.drain`).  The mappings still to come hold no foreign
  block, and neither do the megablocks of a directory that avoids them.
-/
import SlabHeap.Proofs.Alike
import SlabHeap.Proofs.Memory.Links
import SlabHeap.Proofs.Memory.Slicing

namespace SlabHeap

/-- Blocks that belong to others, by all addresses in them, and what they hold in two
    memories; `one` says that the two memories are one.  The system had made the first
    `mapped` mappings of its supply. -/
structure Foreign where
  blocks : Word → Prop
  left : Word → Block
  right : Word → Block
  one : Prop
  supply : Supply
  mapped : Nat

/-- No block belongs to others. -/
def Foreign.nothing (m : Memory) : Foreign where
  blocks _ := False
  left := m.block
  right := m.block
  one := False
  supply := m.supply
  mapped := m.mapped

variable {o : Foreign} {m m' : Memory} {b base w : Word} {l : BlockList} {bs : List Word}
  {d : Directory} {mb : Megablock}

namespace Memory

/-- The memories differ in foreign blocks at most, which no later mapping holds. -/
structure Like (o : Foreign) (m m' : Memory) : Prop where
  supply : m.supply = o.supply
  supply' : m'.supply = o.supply
  mapped : m'.mapped = m.mapped
  later : o.mapped ≤ m.mapped
  block : ∀ b, ¬ o.blocks b → m'.block b = m.block b
  left : ∀ b, o.blocks b → m.block b = o.left b
  right : ∀ b, o.blocks b → m'.block b = o.right b
  one : o.one → m' = m
  ahead : ∀ {k start w}, o.mapped ≤ k → o.supply k = some start → o.blocks w →
    ¬ (start.toNat ≤ w.toNat ∧ w.toNat < start.toNat + megablockBytes)

namespace Like

variable (h : Memory.Like o m m')
include h

/-- A block that is not foreign is replaced. -/
theorem setBlock (hb : ¬ o.blocks b) (x : Block) :
    Memory.Like o (m.setBlock b x) (m'.setBlock b x) where
  supply := h.supply
  supply' := h.supply'
  mapped := h.mapped
  later := h.later
  block b' hb' := by rw [block_setBlock, block_setBlock, h.block b' hb']
  left b' hb' := by
    have hne : b ≠ b' := fun he => hb (he ▸ hb')
    rw [block_setBlock, if_neg hne, h.left b' hb']
  right b' hb' := by
    have hne : b ≠ b' := fun he => hb (he ▸ hb')
    rw [block_setBlock, if_neg hne, h.right b' hb']
  one ho := by rw [h.one ho]
  ahead := h.ahead

theorem modifyBlock (hb : ¬ o.blocks b) (f : Block → Block) :
    Memory.Like o (m.modifyBlock b f) (m'.modifyBlock b f) := by
  rw [Memory.modifyBlock, Memory.modifyBlock, h.block b hb]
  exact h.setBlock hb _

theorem onBlock {α : Type} (hb : ¬ o.blocks b) (act : Action Block α) :
    Alike (Memory.Like o) (Memory.onBlock b act) (Memory.onBlock b act) m m' := by
  have hsame : Alike Eq act act (m.block b) (m'.block b) := by
    rw [h.block b hb]
    exact alike_refl
  refine alike_zoom hsame ?_
  rintro x _ rfl
  exact h.setBlock hb x

/-! ## Lists -/

theorem toList (hl : l.Linked m) (hout : ∀ b ∈ l.toList m, ¬ o.blocks b) :
    l.toList m' = l.toList m :=
  (hl.congr fun b hb => by rw [h.block b (hout b hb)]).2

theorem push (hb : ¬ o.blocks base) :
    Memory.Like o (l.push m base).2 (l.push m' base).2 :=
  h.modifyBlock hb ({ · with link := l.first })

/-- The first block of a list comes off on both sides. -/
theorem pop? (hb : ∀ b, l.first = some b → ¬ o.blocks b) :
    (l.pop? m = none ∧ l.pop? m' = none) ∨
    ∃ base rest m₁ m₁', l.first = some base ∧ l.pop? m = some (base, rest, m₁) ∧
      l.pop? m' = some (base, rest, m₁') ∧ Memory.Like o m₁ m₁' := by
  cases hf : l.first with
  | none => exact .inl ⟨by simp [BlockList.pop?, hf], by simp [BlockList.pop?, hf]⟩
  | some base =>
    have hout := hb base hf
    refine .inr ⟨base, ⟨(m.block base).link⟩, _, _, rfl, by simp [BlockList.pop?, hf], ?_,
      h.modifyBlock hout ({ · with link := none })⟩
    simp [BlockList.pop?, hf, h.block base hout]

omit h in
theorem popMany : ∀ {fuel : Nat} {l : BlockList} {bs : List Word} {m m' : Memory},
    Memory.Like o m m' → BlockList.Chain m l.first bs → (∀ b ∈ bs, ¬ o.blocks b) →
    (BlockList.popMany fuel l m').1 = (BlockList.popMany fuel l m).1 ∧
      Memory.Like o (BlockList.popMany fuel l m).2 (BlockList.popMany fuel l m').2
  | 0, _, _, _, _, h, _, _ => ⟨rfl, h⟩
  | fuel + 1, l, bs, m, m', h, hchain, hout => by
    have hfirst : ∀ b, l.first = some b → ¬ o.blocks b := by
      intro b hb
      rw [hb] at hchain
      cases hchain with
      | cons _ => exact hout b (List.mem_cons_self ..)
    rcases h.pop? hfirst with ⟨hp, hp'⟩ | ⟨base, rest, m₁, m₁', hbase, hp, hp', h₁⟩
    · simp only [BlockList.popMany, hp, hp']
      exact ⟨trivial, h⟩
    · rcases BlockList.pop?_of_linked hchain.linked with ⟨hnone, -, -⟩ |
        ⟨base₂, rest', rest₂, m₂, hbase₂, hlist, hp₂, hrest, hrest', -, -⟩
      · rw [hbase] at hnone
        cases hnone
      · rw [hp] at hp₂
        cases hp₂
        rw [hchain.toList] at hlist
        have hchain' : BlockList.Chain m₁ rest.first rest' := by
          rw [← hrest']
          exact hrest
        have hrest : ∀ b ∈ rest', ¬ o.blocks b := fun b hb =>
          hout b (hlist ▸ List.mem_cons_of_mem _ hb)
        have hrec : (BlockList.popMany fuel rest m₁').1 = (BlockList.popMany fuel rest m₁).1 ∧
            Memory.Like o (BlockList.popMany fuel rest m₁).2 (BlockList.popMany fuel rest m₁').2 :=
          popMany h₁ hchain' hrest
        simp only [BlockList.popMany, hp, hp', hrec.1]
        exact ⟨trivial, hrec.2⟩

/-- All blocks of a list come off on both sides. -/
theorem drain (hl : l.Linked m) (hout : ∀ b ∈ l.toList m, ¬ o.blocks b) :
    (l.drain m').1 = (l.drain m).1 ∧ Memory.Like o (l.drain m).2 (l.drain m').2 :=
  popMany h hl hout

/-! ## Megablocks -/

/-- The next mapping is the same on both sides, or there is none on either. -/
theorem map (size : Nat) : (∃ e, m.map size = .error e ∧ m'.map size = .error e) ∨
    ∃ mapping, m.map size = .ok (mapping, { m with mapped := m.mapped + 1 }) ∧
      m'.map size = .ok (mapping, { m' with mapped := m'.mapped + 1 }) := by
  rw [Memory.map, Memory.map, h.supply, h.supply', h.mapped]
  cases Mapping.place size (o.supply m.mapped) with
  | error e => exact .inl ⟨e, rfl, rfl⟩
  | ok mapping => exact .inr ⟨mapping, rfl, rfl⟩

theorem advance :
    Memory.Like o { m with mapped := m.mapped + 1 } { m' with mapped := m'.mapped + 1 } where
  supply := h.supply
  supply' := h.supply'
  mapped := congrArg (· + 1) h.mapped
  later := h.later.trans (Nat.le_succ _)
  block := h.block
  left := h.left
  right := h.right
  one ho := by rw [h.one ho]
  ahead := h.ahead

theorem slice (hb : ¬ o.blocks (mb.blockBase mb.sliced)) :
    Memory.Like o (mb.slice m).2.2 (mb.slice m').2.2 :=
  h.modifyBlock hb ({ · with link := none, room := 0, hint := 0 })

end Like

/-- Memories of the same blocks differ in nothing. -/
theorem like_nothing (hsupply : m'.supply = m.supply) (hmapped : m'.mapped = m.mapped)
    (hblock : ∀ b, m'.block b = m.block b) : Memory.Like (.nothing m) m m' where
  supply := rfl
  supply' := hsupply
  mapped := hmapped
  later := le_rfl
  block b _ := hblock b
  left _ := False.elim
  right _ := False.elim
  one := False.elim
  ahead _ _ := False.elim

end Memory

/-! ## Directories -/

namespace Directory

/-- No foreign address lies in a megablock of the directory. -/
def Avoids (d : Directory) (o : Foreign) : Prop :=
  ∀ mb ∈ d.megablocks, ∀ w, o.blocks w → ¬ mb.contains w = true

theorem avoids_nothing : d.Avoids (.nothing m) := fun _ _ _ => False.elim

theorem Avoids.insert (h : d.Avoids o) (hmb : ∀ w, o.blocks w → ¬ mb.contains w = true) :
    (d.insert mb).Avoids o := by
  intro other hother
  rcases mem_insertInto hother with rfl | hother
  · exact hmb
  · exact h other hother

/-- The blocks of the megablocks are not foreign. -/
theorem Avoids.not_blockBase (h : d.Avoids o) (hd : d.Mapped m) (hs : Supply.Disjoint m.supply)
    (hmb : mb ∈ d.megablocks) {i : Nat} (hi : i < blocksPerMegablock) :
    ¬ o.blocks (mb.blockBase i) := by
  intro hout
  exact h mb hmb _ hout (Megablock.contains_blockBase (hd.megablocks mb hmb) hs hi)

theorem Avoids.not_mem_blocks (h : d.Avoids o) (hd : d.Mapped m) (hs : Supply.Disjoint m.supply)
    (hb : b ∈ d.blocks) : ¬ o.blocks b := by
  obtain ⟨mb, hmb, hb⟩ := mem_blocks.1 hb
  obtain ⟨i, hi, rfl⟩ := Megablock.mem_blocks.1 hb
  exact h.not_blockBase hd hs hmb (hi.trans_le (hd.megablocks mb hmb).sliced)

end Directory

end SlabHeap
