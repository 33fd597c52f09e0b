/-
  Parts of heaps that differ in foreign blocks.

  A cache, a sorting and a marking are `Like` each other if they are the same but for the
  foreign blocks of their memories.  What is done to one of two like parts is done to the
  other, with the same answer and to the same blocks, as long as the blocks of the part are
  not foreign.  For markings that is the check of every word against the directory
  (`Marking.visit_alike`), and that the fields of an object lie in its block
  (`Marking.scanField_alike`); taggings must read words the same on both sides
  (`Tagging.Agrees`).
-/
import SlabHeap.Proofs.Memory.Foreign
import SlabHeap.Proofs.Heap.Marking
import SlabHeap.Proofs.Heap.Cache
import SlabHeap.Proofs.Heap.Sweep

namespace SlabHeap

variable {o : Foreign} {m m' : Memory} {base x w : Word} {c : Cache} {α : Type}

/-! ## Caches -/

namespace Cache

/-- The cache is `c` on both sides, and the memories are alike. -/
def Like (o : Foreign) (c : Cache) (p p' : Cache × Memory) : Prop :=
  ∃ m m', p = (c, m) ∧ p' = (c, m') ∧ Memory.Like o m m'

theorem onBlock_alike (hm : Memory.Like o m m') (hb : ¬ o.blocks base) (act : Action Block α) :
    Alike (Like o c) (onBlock base act) (onBlock base act) (c, m) (c, m') :=
  alike_zoom (hm.onBlock hb act) fun _ _ hm => ⟨_, _, rfl, rfl, hm⟩

/-- No block of the cache is foreign. -/
def Avoids (c : Cache) (o : Foreign) (m : Memory) : Prop :=
  ∀ b ∈ c.blocks m, ¬ o.blocks b

variable (hm : Memory.Like o m m') (hk : c.Kept m) (ho : c.Avoids o m)
include hm hk ho

theorem blocks_alike : c.blocks m' = c.blocks m := by
  rw [blocks, blocks, hm.toList hk.available fun b hb => ho b (mem_blocks.2 (.inl hb)),
    hm.toList hk.full fun b hb => ho b (mem_blocks.2 (.inr hb))]

theorem clearUsed_alike : Alike (Like o c) clearUsed clearUsed (c, m) (c, m') := by
  rw [clearUsed, alike_get]
  show Alike _ ((c.blocks m).forM _) ((c.blocks m').forM _) _ _
  rw [blocks_alike hm hk ho]
  refine alike_forM_of_mem ⟨m, m', rfl, rfl, hm⟩ ?_
  rintro b hb _ _ ⟨m₁, m₁', rfl, rfl, hm₁⟩
  exact onBlock_alike hm₁ (ho b hb) _

omit hk ho in
/-- The first available block retires on both sides. -/
theorem retireFirst_alike (hb : ∀ b, c.available.first = some b → ¬ o.blocks b) :
    (c.retireFirst m').1 = (c.retireFirst m).1 ∧
      Memory.Like o (c.retireFirst m).2 (c.retireFirst m').2 := by
  rcases hm.pop? hb with ⟨hp, hp'⟩ | ⟨base, rest, m₁, m₁', hf, hp, hp', h₁⟩
  · simp only [retireFirst, hp, hp']
    exact ⟨trivial, hm⟩
  · simp only [retireFirst, hp, hp']
    exact ⟨rfl, h₁.push (hb base hf)⟩

theorem takeSlot_alike :
    Alike (fun p p' => ∃ c', Like o c' p p') takeSlot takeSlot (c, m) (c, m') := by
  rw [takeSlot, alike_get]
  cases hf : c.available.first with
  | none =>
    simp only [hf]
    exact alike_pure ⟨c, m, m', rfl, rfl, hm⟩
  | some base =>
    have hb := ho base (hk.first_mem hf)
    simp only [hf]
    refine alike_bind_of (onBlock_alike hm hb Block.takeSlot) (fun _ _ hp => ⟨c, hp⟩) ?_
    rintro slot _ _ - ⟨m₁, m₁', rfl, rfl, hm₁⟩
    rw [alike_get]
    simp only [hm₁.block base hb]
    have hfirst : ∀ b, c.available.first = some b → ¬ o.blocks b := by
      intro b hb'
      rw [hf] at hb'
      exact Option.some.inj hb' ▸ hb
    obtain ⟨hsame, hm₂⟩ := retireFirst_alike hm₁ hfirst
    have hpop : ∀ m, (c.available.pop? m).map (·.1) = c.available.first := by
      intro m
      rw [BlockList.pop?, Option.map_map]
      exact Option.map_id'
    simp only [hpop]
    have hkept : ∃ c', Like o c' (c, m₁) (c, m₁') := ⟨c, m₁, m₁', rfl, rfl, hm₁⟩
    have hretired : ∃ c', Like o c' (c.retireFirst m₁) (c.retireFirst m₁') :=
      ⟨_, (c.retireFirst m₁).2, (c.retireFirst m₁').2, rfl, Prod.ext hsame rfl, hm₂⟩
    refine alike_ite (fun _ => alike_ite (fun _ => alike_throw hkept) fun _ => ?_) fun _ => ?_
    · rw [alike_set]
      exact alike_ite (fun _ => alike_throw hretired) fun _ => alike_pure hretired
    · exact alike_ite (fun _ => alike_throw hkept) fun _ => alike_pure hkept

omit hk ho in
theorem adopt_alike (hb : ¬ o.blocks base) :
    Alike (fun p p' => ∃ c', Like o c' p p') (adopt base) (adopt base) (c, m) (c, m') := by
  rw [adopt, alike_get]
  refine alike_bind_of (onBlock_alike hm hb (Block.adopt c.shape)) (fun _ _ hp => ⟨c, hp⟩) ?_
  rintro - _ _ - ⟨m₁, m₁', rfl, rfl, hm₁⟩
  rw [alike_get]
  refine alike_ite (fun _ => ?_) fun _ => ?_
  · have hm₂ := hm₁.push (l := c.full) hb
    rw [alike_set, hm₁.block base hb]
    exact alike_pure ⟨_, _, _, rfl, rfl, hm₂⟩
  · have hm₂ := hm₁.push (l := c.available) hb
    rw [alike_set, hm₁.block base hb]
    exact alike_pure ⟨_, _, _, rfl, rfl, hm₂⟩

end Cache

/-! ## Sweeps -/

namespace Sweep

/-- The sortings differ in foreign blocks at most, and none of these is held back. -/
structure Like (o : Foreign) (s s' : Sweep) : Prop where
  memory : Memory.Like o s.memory s'.memory
  rest : s' = { s with memory := s'.memory }
  held : ∀ b, s.fullest = some b → ¬ o.blocks b

variable {s s' : Sweep} {shape : Shape} (hs : Like o s s') (hb : ¬ o.blocks base)
include hs

theorem Like.fullest : s'.fullest = s.fullest := by
  rw [hs.rest]

/-- Another block is held back, or none. -/
theorem Like.hold {next : Option Word} (hnext : ∀ b, next = some b → ¬ o.blocks b) :
    Like o { s with fullest := next } { s' with fullest := next } := by
  obtain ⟨hm, hrest, -⟩ := hs
  rw [hrest]
  exact ⟨hm, rfl, hnext⟩

include hb

theorem Like.keep : Like o (s.keep base) (s'.keep base) := by
  obtain ⟨hm, hrest, hheld⟩ := hs
  rw [hrest]
  exact ⟨hm.push hb, rfl, hheld⟩

theorem Like.keepFull : Like o (s.keepFull base) (s'.keepFull base) := by
  obtain ⟨hm, hrest, hheld⟩ := hs
  rw [hrest]
  exact ⟨hm.push hb, rfl, hheld⟩

theorem Like.release : Like o (s.release base) (s'.release base) := by
  obtain ⟨hm, hrest, hheld⟩ := hs
  rw [hrest]
  exact ⟨(hm.modifyBlock hb _).push hb, rfl, hheld⟩

theorem Like.keepAvailable : Like o (s.keepAvailable base) (s'.keepAvailable base) := by
  have hnext : ∀ b, some base = some b → ¬ o.blocks b := fun b he => Option.some.inj he ▸ hb
  rw [Sweep.keepAvailable, Sweep.keepAvailable, hs.fullest]
  cases hf : s.fullest with
  | none => exact hs.hold hnext
  | some held =>
    have hout := hs.held held hf
    simp only [hs.memory.block base hb, hs.memory.block held hout]
    split
    · exact (hs.keep hout).hold hnext
    · exact hs.keep hb

theorem place_alike : Alike (Like o) (place shape base) (place shape base) s s' := by
  rw [place, alike_get]
  simp only [hs.memory.block base hb]
  refine alike_ite (fun _ => alike_throw hs) fun _ => alike_ite (fun _ => ?_) fun _ => ?_
  · exact alike_set_last (hs.keepFull hb)
  · exact alike_ite (fun _ => alike_set_last (hs.release hb))
      fun _ => alike_set_last (hs.keepAvailable hb)

omit hb

theorem Like.finish : Like o s.finish s'.finish := by
  rw [Sweep.finish, Sweep.finish, hs.fullest]
  cases hf : s.fullest with
  | none => exact hs
  | some held => exact (hs.keep (hs.held held hf)).hold fun b hb => by cases hb

theorem placeAll_alike {bs : List Word} (hbs : ∀ b ∈ bs, ¬ o.blocks b) :
    Alike (Like o) (placeAll shape bs) (placeAll shape bs) s s' := by
  rw [placeAll]
  refine alike_bind (alike_forM_of_mem hs fun b hb t t' ht => place_alike ht (hbs b hb)) ?_
  rintro - t t' - ht
  exact alike_modify_last ht.finish

omit hs in
/-- The lists of a cache are drained on both sides. -/
theorem start_like (hm : Memory.Like o m m') (hk : c.Kept m) (hnd : (c.blocks m).Nodup)
    (ho : c.Avoids o m) (free : BlockList) :
    (start c m' free).2 = (start c m free).2 ∧ Like o (start c m free).1 (start c m' free).1 := by
  obtain ⟨hav, hm₁⟩ := hm.drain hk.available fun b hb => ho b (Cache.mem_blocks.2 (.inl hb))
  obtain ⟨hfl, hfl'⟩ := full_of_drained hk hnd
  obtain ⟨hfu, hm₂⟩ := hm₁.drain hfl fun b hb => by
    rw [hfl'] at hb
    exact ho b (Cache.mem_blocks.2 (.inr hb))
  exact ⟨congrArg₂ (· ++ ·) hav hfu, hm₂, rfl, nofun⟩

end Sweep

/-! ## Markings -/

/-- The slots of an arena lie in blocks that are not foreign. -/
theorem Arena.SlotAt.not_foreign {a : Arena} {loose : List Word} {due i : Nat} {sh : Shape}
    (hx : a.SlotAt m sh base i x) (h : a.Sound m loose due) (ho : a.directory.Avoids o) :
    ¬ o.blocks base :=
  ho.not_mem_blocks h.directory h.supply (h.mem_sliced hx.owner.mem_owned)

/-- The tagging reads words the same in memories that are alike: it does not look at
    memory, or these are one. -/
def Tagging.Agrees (tagging : Tagging) (o : Foreign) : Prop :=
  (∃ f, tagging = .ofWord f) ∨ o.one

variable {tagging : Tagging}

theorem Tagging.Agrees.classify (hT : tagging.Agrees o) (hm : Memory.Like o m m') (w : Word) :
    tagging.classify m' w = tagging.classify m w := by
  rcases hT with ⟨f, rfl⟩ | hone
  · rfl
  · rw [hm.one hone]

theorem Tagging.Agrees.settle (hT : tagging.Agrees o) (hm : Memory.Like o m m') (w : Word) :
    tagging.settle m' w = tagging.settle m w := by
  have hwithin : ∀ fuel w, tagging.settleWithin m' fuel w = tagging.settleWithin m fuel w := by
    intro fuel
    induction fuel with
    | zero => exact fun _ => rfl
    | succ fuel ih =>
      intro w
      rw [settleWithin, settleWithin, hT.classify hm w]
      split
      · rfl
      · rfl
      · exact ih _
  exact hwithin Word.count w

namespace Marking

/-- The markings differ in the foreign blocks of their memories at most. -/
def Like (o : Foreign) (s s' : Marking) : Prop :=
  ∃ m', Memory.Like o s.memory m' ∧ s' = { s with memory := m' }

variable {a : Arena} {s s' : Marking} {due : Nat} {sh : Shape} {i j : Nat} {roots : List Word}

theorem onBlock_alike (hs : Like o s s') (hb : ¬ o.blocks base) (act : Action Block α) :
    Alike (Like o) (onBlock base act) (onBlock base act) s s' := by
  obtain ⟨m', hm, rfl⟩ := hs
  exact alike_zoom (hm.onBlock hb act) fun t t' ht => ⟨t', ht, rfl⟩

section
variable (h : a.Sound m [] due) (ho : a.directory.Avoids o)
include h ho

/-- A word is checked against the directory before its block is looked at. -/
theorem objectAt?_alike {m₁ m₁' : Memory} (hm : Memory.Like o m₁ m₁') :
    a.objectAt? m₁' w = a.objectAt? m₁ w ∧
      ∀ base i, a.objectAt? m₁ w = some (base, i) → ¬ o.blocks base := by
  rw [Arena.objectAt?, Arena.objectAt?]
  by_cases hw : a.isSliced w = true
  · have hbase := (Directory.isSliced_iff h.directory h.supply).1 hw
    have hout := ho.not_mem_blocks h.directory h.supply hbase
    simp only [hm.block _ hout, true_and]
    intro base i hobj
    split at hobj
    · obtain ⟨k, -, he⟩ := Option.map_eq_some_iff.1 hobj
      exact (Prod.mk.inj he).1 ▸ hout
    · cases hobj
  · simp only [Bool.not_eq_true] at hw
    simp [hw]

theorem visit_alike (hs : Like o s s') : Alike (Like o) (visit a w) (visit a w) s s' := by
  have hs' := hs
  obtain ⟨m', hm, rfl⟩ := hs'
  obtain ⟨hsame, hout⟩ := objectAt?_alike h ho hm (w := w)
  rw [visit, alike_get]
  simp only [hsame]
  cases hobj : a.objectAt? s.memory w with
  | none => exact alike_pure hs
  | some slot =>
    refine alike_bind (onBlock_alike hs (hout _ _ hobj) _) ?_
    rintro scan t _ - ⟨t', ht, rfl⟩
    refine alike_ite (fun _ => ?_) fun _ => ?_
    · exact alike_modify_last ⟨t', ht, rfl⟩
    · exact alike_pure ⟨t', ht, rfl⟩

variable (hT : tagging.Agrees o)

include hT in
theorem scanRoot_alike (hs : Like o s s') :
    Alike (Like o) (scanRoot a tagging w) (scanRoot a tagging w) s s' := by
  have hs' := hs
  obtain ⟨m', hm, rfl⟩ := hs'
  rw [scanRoot, alike_get]
  simp only [hT.settle hm]
  refine alike_lift hs fun r _ => ?_
  cases r with
  | none => exact alike_pure hs
  | some object => exact visit_alike h ho hs

variable (hx : a.SlotAt m sh base i x)
include hx

/-- The fields of an object lie in a block that is not foreign. -/
theorem field_alike {m₁ m₁' : Memory} (hm : Memory.Like o m₁ m₁') (hj : j < sh.size) :
    m₁'.field x j = m₁.field x j ∧
      Memory.Like o (m₁.setField x j w) (m₁'.setField x j w) := by
  have hout := hx.not_foreign h ho
  rw [hx.field_eq h hj, hx.field_eq h hj, hx.setField_eq h hj, hx.setField_eq h hj,
    hm.block base hout]
  exact ⟨rfl, hm.setBlock hout _⟩

include hT

theorem collapseWithin_alike (hj : j < sh.size) {fuel : Nat} :
    ∀ {w : Word} {s s' : Marking}, Like o s s' → Alike (Like o)
      (collapseWithin tagging x j fuel w) (collapseWithin tagging x j fuel w) s s' := by
  induction fuel with
  | zero => exact fun hs => alike_throw hs
  | succ fuel ih =>
    intro w s s' hs
    have hs' := hs
    obtain ⟨m', hm, rfl⟩ := hs'
    rw [collapseWithin, alike_get]
    simp only [hT.classify hm]
    cases tagging.classify s.memory w with
    | immediate => exact alike_pure hs
    | object y => exact alike_pure hs
    | indirection t => exact alike_modify.2 (ih ⟨_, (field_alike h ho hx hm hj).2, rfl⟩)

theorem scanField_alike (hs : Like o s s') (hj : j < sh.size) :
    Alike (Like o) (scanField a tagging x j) (scanField a tagging x j) s s' := by
  have hs' := hs
  obtain ⟨m', hm, rfl⟩ := hs'
  rw [scanField, alike_get]
  simp only [(field_alike h ho hx hm hj (w := 0)).1]
  refine alike_bind (collapseWithin_alike h ho hT hx hj hs) ?_
  rintro r t _ - ⟨t', ht, rfl⟩
  cases r with
  | none => exact alike_pure ⟨t', ht, rfl⟩
  | some child => exact alike_modify.2 (visit_alike h ho ⟨t', ht, rfl⟩)

theorem scanObject_alike (hs : Like o s s') (hp : a.Preserved m s.memory) :
    Alike (Like o) (scanObject a tagging x) (scanObject a tagging x) s s' := by
  have hs' := hs
  obtain ⟨m', hm, rfl⟩ := hs'
  have hout := hx.not_foreign h ho
  rw [scanObject, alike_get]
  simp only [hx.baseOf_eq h, hm.block base hout, (hp.serves hx.owner).layout,
    Shape.toNat_layout_pointers]
  refine alike_forM_of_mem hs fun j hj t t' ht => ?_
  exact scanField_alike h ho hT hx ht ((List.mem_range.1 hj).trans_le sh.pointers_le)

end

variable {may must : Word → Word → Prop}

theorem scanPending_alike (h : a.Sound m [] due) (ho : a.directory.Avoids o)
    (hT : tagging.Agrees o) (hr : tagging.Reads may must) {fuel : Nat} :
    ∀ {done : List Word} {seen : Set Word} {s s' : Marking}, Like o s s' →
      Progress tagging may must a m roots done seen s →
      Alike (Like o) (scanPending a tagging fuel) (scanPending a tagging fuel) s s' := by
  induction fuel with
  | zero => exact fun hs _ => alike_throw hs
  | succ fuel ih =>
    intro done seen s s' hs hp
    have hs' := hs
    obtain ⟨m', hm, rfl⟩ := hs'
    rw [scanPending, alike_get]
    cases hpend : s.pending with
    | nil => exact alike_pure ⟨m', hm, by rw [hpend]⟩
    | cons x rest =>
      have hreach := (hp.queued x (by simp [hpend])).2
      obtain ⟨sh, base, i, hx⟩ := hreach.slotAt
      have hp' := hp.take hpend
      rw [alike_modify]
      have hrest : Like o { s with pending := rest } { s with memory := m', pending := rest } :=
        ⟨m', hm, rfl⟩
      refine alike_bind (scanObject_alike h ho hT hx hrest hp'.preserved) ?_
      rintro ⟨⟩ t t' hrun ht
      obtain ⟨seen', -, -, hp''⟩ := (scanObject_meets h hr hp' hx hreach).of_ok hrun
      exact ih ht hp''

/-- A marking marks the same in memories that are alike, and changes no foreign block. -/
theorem run_alike (h : a.Sound m [] due) (ho : a.directory.Avoids o) (hT : tagging.Agrees o)
    (hm : Memory.Like o m m') :
    Alike (Like o) (run a tagging roots) (run a tagging roots) (start m) (start m') := by
  have hr := tagging.reads_any
  have hs : Like o (start m) (start m') := ⟨m', hm, rfl⟩
  rw [run]
  refine alike_bind (alike_forM_of_mem hs fun r _ t t' ht => scanRoot_alike h ho hT ht) ?_
  rintro ⟨⟩ t t' hrun ht
  obtain ⟨-, seen, -, -, hp⟩ := (scanRoots_meets h hr (List.Subset.refl roots) (.start h)
    (I := fun _ _ => True) trivial fun _ _ => meets_trivial).of_ok hrun
  exact scanPending_alike h ho hT hr ht hp

end Marking

end SlabHeap
