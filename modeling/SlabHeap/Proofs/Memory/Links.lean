/-
  Lists of blocks and the links they are threaded through.

  `Linked l m` says that the links of `l` come to an end; then `toList` reads all
  of its blocks, each once (`Chain.toList`, `Linked.nodup`).  A list depends on the
  links of its blocks alone (`Linked.congr`), so what is done to other blocks leaves
  it as it is; `push`, `pop?` and `drain` are the operations of a sequence, and
  change only the blocks they move.
-/
import Mathlib.Data.Finset.Card
import Mathlib.Data.List.Nodup
import SlabHeap.Memory.BlockList

namespace SlabHeap

/-- Distinct words are no more than there are words. -/
theorem length_le_count {ws : List Word} (h : ws.Nodup) : ws.length ≤ Word.count := by
  have hmap : (ws.map UInt64.toNat).Nodup := h.map fun _ _ => UInt64.toNat_inj.1
  have hsub : (ws.map UInt64.toNat).toFinset ⊆ Finset.range Word.count := by
    intro n hn
    obtain ⟨w, -, rfl⟩ := List.mem_map.1 (List.mem_toFinset.1 hn)
    exact Finset.mem_range.2 w.toNat_lt
  have := Finset.card_le_card hsub
  rwa [List.toFinset_card_of_nodup hmap, List.length_map, Finset.card_range] at this

namespace Memory

variable {m m' m'' : Memory} {bs cs : List Word} {base : Word}

/-- `m'` differs from `m` in no block but `bs`. -/
structure Changes (m m' : Memory) (bs : List Word) : Prop where
  supply : m'.supply = m.supply
  mapped : m'.mapped = m.mapped
  block : ∀ b ∉ bs, m'.block b = m.block b

theorem Changes.refl (m : Memory) (bs : List Word) : m.Changes m bs := ⟨rfl, rfl, fun _ _ => rfl⟩

theorem Changes.mono (h : m.Changes m' bs) (hsub : bs ⊆ cs) : m.Changes m' cs :=
  ⟨h.supply, h.mapped, fun b hb => h.block b fun hb' => hb (hsub hb')⟩

theorem Changes.trans (h : m.Changes m' bs) (h' : m'.Changes m'' bs) : m.Changes m'' bs :=
  ⟨h'.supply.trans h.supply, h'.mapped.trans h.mapped,
    fun b hb => (h'.block b hb).trans (h.block b hb)⟩

theorem changes_setBlock (m : Memory) (base : Word) (b : Block) :
    m.Changes (m.setBlock base b) [base] :=
  ⟨rfl, rfl, fun b' hb => by
    have : base ≠ b' := fun e => hb (by simp [e])
    rw [block_setBlock, if_neg this]⟩

end Memory

namespace BlockList

variable {m m' : Memory} {l : BlockList} {base b : Word} {bs : List Word}

/-- The links of a list come to an end. -/
def Linked (l : BlockList) (m : Memory) : Prop := Chain m l.first (l.toList m)

theorem Chain.toList (h : Chain m l.first bs) : l.toList m = bs :=
  toList_eq h (length_le_count h.nodup)

theorem Chain.linked (h : Chain m l.first bs) : l.Linked m := by
  rw [Linked, Chain.toList h]; exact h

theorem linked_empty (m : Memory) : empty.Linked m := by
  have h : Chain m empty.first [] := .nil
  exact h.linked

@[simp] theorem toList_empty (m : Memory) : empty.toList m = [] := Chain.toList (l := empty) .nil

theorem Linked.nodup (h : l.Linked m) : (l.toList m).Nodup := Chain.nodup h

/-- A list with linked blocks depends on their links alone. -/
theorem Linked.congr (h : l.Linked m)
    (hm : ∀ b ∈ l.toList m, (m'.block b).link = (m.block b).link) :
    l.Linked m' ∧ l.toList m' = l.toList m :=
  have h' := Chain.congr h hm
  ⟨Chain.linked h', Chain.toList h'⟩

/-- In memories with the same links, a list is the same. -/
theorem toList_congr (h : ∀ b, (m'.block b).link = (m.block b).link) :
    l.toList m' = l.toList m := by
  have hfollow : ∀ fuel first, follow m' fuel first = follow m fuel first := by
    intro fuel
    induction fuel with
    | zero => exact fun _ => rfl
    | succ fuel ih =>
      rintro (_ | b)
      · rfl
      · rw [follow, follow, h, ih]
  exact hfollow ..

theorem toList_eq_nil (h : l.Linked m) : l.toList m = [] ↔ l.first = none := by
  constructor
  · intro hn
    rw [Linked, hn] at h
    cases hf : l.first with
    | none => rfl
    | some base => rw [hf] at h; cases h
  · intro hf
    refine Chain.toList ?_
    rw [hf]; exact .nil

theorem Linked.toList_of_first (h : l.Linked m) (hf : l.first = some base) :
    ∃ bs, l.toList m = base :: bs ∧ Chain m (m.block base).link bs := by
  rw [Linked, hf] at h
  generalize hbs : l.toList m = cs at h
  cases h with
  | cons h => exact ⟨_, rfl, h⟩

/-! ## Operations -/

theorem block_push (l : BlockList) (m : Memory) (base b : Word) :
    (l.push m base).2.block b =
      if base = b then { m.block b with link := l.first } else m.block b := by
  rw [push, Memory.block_modifyBlock]
  split
  next h => subst h; rfl
  next => rfl

theorem changes_push (l : BlockList) (m : Memory) (base : Word) :
    m.Changes (l.push m base).2 [base] :=
  Memory.changes_setBlock ..

theorem push_of_not_mem (h : l.Linked m) (hb : base ∉ l.toList m) :
    (l.push m base).1.Linked (l.push m base).2 ∧
      (l.push m base).1.toList (l.push m base).2 = base :: l.toList m :=
  have h' := chain_push h hb
  ⟨Chain.linked h', Chain.toList h'⟩

/-- A list without the block that is pushed onto another one stays as it is. -/
theorem Linked.push_beside {other : BlockList} (h : other.Linked m)
    (hb : base ∉ other.toList m) :
    other.Linked (l.push m base).2 ∧ other.toList (l.push m base).2 = other.toList m :=
  h.congr fun b hmem => by
    rw [(changes_push l m base).block b fun he => hb (List.mem_singleton.1 he ▸ hmem)]

/-- The first block of a list comes off. -/
theorem pop?_of_linked (h : l.Linked m) :
    (l.first = none ∧ l.toList m = [] ∧ l.pop? m = none) ∨
    ∃ base bs rest m', l.first = some base ∧ l.toList m = base :: bs ∧
      l.pop? m = some (base, rest, m') ∧ rest.Linked m' ∧ rest.toList m' = bs ∧
      m.Changes m' [base] ∧
        ∀ b, m'.block b = if base = b then { m.block b with link := none } else m.block b := by
  cases hf : l.first with
  | none =>
    exact .inl ⟨rfl, (toList_eq_nil h).2 hf, by simp [pop?, hf]⟩
  | some base =>
    obtain ⟨bs, hbs, hchain⟩ := h.toList_of_first hf
    have hnd := h.nodup
    rw [hbs, List.nodup_cons] at hnd
    have hblock : ∀ b, (m.modifyBlock base ({ · with link := none })).block b =
        if base = b then { m.block b with link := none } else m.block b := by
      intro b
      rw [Memory.block_modifyBlock]
      split
      next h => subst h; rfl
      next => rfl
    have hchain' : Chain (m.modifyBlock base ({ · with link := none })) (m.block base).link bs :=
      hchain.congr fun b hb => by
        have : base ≠ b := fun e => hnd.1 (e ▸ hb)
        rw [hblock, if_neg this]
    have hlinked := Chain.linked (l := ⟨(m.block base).link⟩) hchain'
    exact .inr ⟨base, bs, ⟨(m.block base).link⟩, _, rfl, hbs, by simp [pop?, hf], hlinked,
      Chain.toList (l := ⟨(m.block base).link⟩) hchain', Memory.changes_setBlock .., hblock⟩

theorem popMany_of_chain : ∀ {bs : List Word} {fuel : Nat} {l : BlockList} {m : Memory},
    Chain m l.first bs → bs.length ≤ fuel → (popMany fuel l m).1 = bs ∧
      m.Changes (popMany fuel l m).2 bs ∧ ∀ b, (popMany fuel l m).2.block b =
        if b ∈ bs then { m.block b with link := none } else m.block b
  | [], fuel, l, m, h, _ => by
    have hf : l.first = none := by generalize hl : l.first = f at h; cases h; rfl
    have hp : l.pop? m = none := by simp [pop?, hf]
    cases fuel with
    | zero => simp [popMany, Memory.Changes.refl]
    | succ fuel => simp [popMany, hp, Memory.Changes.refl]
  | base :: bs, fuel + 1, l, m, h, hle => by
    have hlist := Chain.toList h
    rcases pop?_of_linked (Chain.linked h) with ⟨-, hnil, -⟩ |
      ⟨base', bs', rest, m', -, hl, hp, hlink, hrest, hch, hblock⟩
    · rw [hlist] at hnil; simp at hnil
    · rw [hlist] at hl
      obtain ⟨rfl, rfl⟩ : base = base' ∧ bs = bs' := by simpa using hl
      have hnd := List.nodup_cons.1 h.nodup
      have hchain : Chain m' rest.first bs := by rw [Linked, hrest] at hlink; exact hlink
      obtain ⟨h1, hch', h2⟩ := popMany_of_chain hchain (Nat.le_of_succ_le_succ hle)
      simp only [popMany, hp, h1, true_and]
      refine ⟨(hch.mono (by simp)).trans (hch'.mono (List.subset_cons_self ..)), fun b => ?_⟩
      rw [h2, hblock]
      by_cases hb : b ∈ bs
      · have : base ≠ b := fun e => hnd.1 (e ▸ hb)
        simp [hb, this]
      · by_cases hbb : base = b
        · simp [hbb]
        · simp [hb, hbb, Ne.symm hbb]

/-- All blocks of a list come off, and their links are cleared. -/
theorem drain_of_linked (h : l.Linked m) :
    (l.drain m).1 = l.toList m ∧ m.Changes (l.drain m).2 (l.toList m) ∧
      ∀ b, (l.drain m).2.block b =
      if b ∈ l.toList m then { m.block b with link := none } else m.block b :=
  popMany_of_chain h (length_le_count h.nodup)

end BlockList

end SlabHeap
