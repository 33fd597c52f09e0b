/-
  Marking reaches everything that the roots reach.

  A marking of the arena `a` starts in the memory `m`; `Arena.Marked` tells the slots
  that are marked in the memory it has come to.  Visiting a word marks the slot that
  starts there (`visit_returns`), and scanning a field visits what it stands for
  (`scanField_meets`).

  `Progress` is the invariant: what was marked is reached, what was marked with pointer
  fields is pending or `done` and was not marked before, and what the words `seen` must
  stand for is marked.  No
  object is done twice, so the fuel of `scanPending` suffices.  A marking ends with nothing
  pending, and what its scans keep holds then (`run_ends`); all that the roots reach is
  marked, unless an indirection leads nowhere (`run_meets`).
-/
import SlabHeap.Proofs.Heap.Reach
import SlabHeap.Heap.Marking

namespace SlabHeap

variable {tagging : Tagging} {may must : Word → Word → Prop} {a : Arena} {m m' m'' : Memory}
  {loose : List Word} {due : Nat}
  {sh sh' : Shape} {base x y w : Word} {i j : Nat} {roots : List Word}

/-- A walk along indirections did not end, which those of a total tagging do. -/
def Fault.Diverges (tagging : Tagging) (fault : Fault) : Prop :=
  fault = .endless ∧ ¬ tagging.Total

theorem Fault.not_diverges {f : Word → Edge} {fault : Fault} (hf : FiniteChains f) :
    ¬ fault.Diverges (.ofWord f) := fun hdiverges => hdiverges.2 ⟨f, rfl, hf⟩

/-- The slot of the arena that starts at `x` is marked in `m'`. -/
def Arena.Marked (a : Arena) (m m' : Memory) (x : Word) : Prop :=
  ∃ s base i, a.SlotAt m s base i x ∧ (m'.block base).bitmap.bit i = true

/-- A slot with pointer fields starts at `x`, and is not marked. -/
def Arena.Unscanned (a : Arena) (m : Memory) (x : Word) : Prop :=
  ¬ a.Marked m m x ∧ ∃ s base i, a.SlotAt m s base i x ∧ s.pointers ≠ 0

namespace Arena

theorem marked_iff (h : a.Sound m loose due) (hx : a.SlotAt m sh base i x) :
    a.Marked m m' x ↔ (m'.block base).bitmap.bit i = true := by
  constructor
  · rintro ⟨s, base', i', hx', hbit⟩
    obtain ⟨-, rfl, rfl⟩ := hx.unique h hx'
    exact hbit
  · intro hbit
    exact ⟨sh, base, i, hx, hbit⟩

/-- Marks do not change where bitmaps do not. -/
theorem Marked.congr (hb : ∀ s base i x, a.SlotAt m s base i x →
    (m''.block base).bitmap = (m'.block base).bitmap) :
    a.Marked m m'' x ↔ a.Marked m m' x := by
  refine exists_congr fun s => exists_congr fun base => exists_congr fun i =>
    and_congr_right fun hx => ?_
  rw [hb s base i x hx]

/-- One more slot of a block is marked. -/
theorem marked_setBlock {b' : Block} (hx : a.SlotAt m sh base i x)
    (hbits : ∀ k, b'.bitmap.bit k = ((m'.block base).bitmap.bit k || decide (i = k))) :
    a.Marked m (m'.setBlock base b') y ↔ a.Marked m m' y ∨ y = x := by
  constructor
  · rintro ⟨s, base', k, hy, hbit⟩
    rw [Memory.block_setBlock] at hbit
    split at hbit
    next he =>
      subst he
      rw [hbits, Bool.or_eq_true, decide_eq_true_eq] at hbit
      rcases hbit with hbit | rfl
      · exact .inl ⟨s, base, k, hy, hbit⟩
      · exact .inr (hy.address.trans hx.address.symm)
    next => exact .inl ⟨s, base', k, hy, hbit⟩
  · rintro (⟨s, base', k, hy, hbit⟩ | rfl)
    · refine ⟨s, base', k, hy, ?_⟩
      rw [Memory.block_setBlock]
      split
      next he => subst he; rw [hbits, hbit]; rfl
      next => exact hbit
    · refine ⟨sh, base, i, hx, ?_⟩
      rw [Memory.block_setBlock, if_pos rfl, hbits]
      simp

end Arena

namespace Marking

variable {s s' : Marking} {done : List Word} {seen : Set Word} {α : Type}

theorem meets_onBlock {act : Action Block α} {ok : α → Marking → Prop}
    {fail : Fault → Marking → Prop} :
    Meets (onBlock base act) s ok fail ↔ Meets act (s.memory.block base)
      (fun a b' => ok a { s with memory := s.memory.setBlock base b' })
      fun f b' => fail f { s with memory := s.memory.setBlock base b' } := by
  simp only [onBlock, Memory.onBlock, meets_zoom]

/-! ## Visits -/

/-- What visiting the word `y` makes of the marking `s`. -/
structure Visited (a : Arena) (m : Memory) (y : Word) (s s' : Marking) : Prop where
  preserved : a.Preserved m s'.memory
  marked : ∀ x, a.Marked m s'.memory x ↔
    a.Marked m s.memory x ∨ x = y ∧ ∃ sh base i, a.SlotAt m sh base i y
  field : ∀ {sh base i x j}, a.SlotAt m sh base i x → j < sh.size →
    s'.memory.field x j = s.memory.field x j
  pending : (s'.pending = y :: s.pending ∧ ¬ a.Marked m s.memory y ∧
      ∃ sh base i, a.SlotAt m sh base i y ∧ sh.pointers ≠ 0) ∨
    s'.pending = s.pending ∧ ∀ sh base i, a.SlotAt m sh base i y →
      a.Marked m s.memory y ∨ sh.pointers = 0
  followed : s'.followed = s.followed
  collapsed : s'.collapsed = s.collapsed

/-- A visit marks the slot that starts at a word, if there is one. -/
theorem visit_returns (h : a.Sound m [] due) (hp : a.Preserved m s.memory) :
    Returns (visit a y) s fun _ s' => Visited a m y s s' := by
  rw [visit]
  simp only [Returns, meets_bind, meets_get]
  cases ho : a.objectAt? s.memory y with
  | none =>
    have hno : ∀ sh base i, ¬ a.SlotAt m sh base i y := by
      intro sh base i hy
      have := (Arena.objectAt?_eq_some (hp.sound h)).2 ⟨sh, (hp.slotAt h).2 hy⟩
      rw [ho] at this
      simp at this
    refine ⟨hp, fun x => ⟨.inl, ?_⟩, fun _ _ => rfl, .inr ⟨rfl, fun sh base i hy => ?_⟩, rfl, rfl⟩
    · rintro (hx | ⟨-, sh, base, i, hy⟩)
      · exact hx
      · exact (hno sh base i hy).elim
    · exact (hno sh base i hy).elim
  | some slot =>
    obtain ⟨base, i⟩ := slot
    obtain ⟨sh, hy'⟩ := (Arena.objectAt?_eq_some (hp.sound h)).1 ho
    have hy := (hp.slotAt h).1 hy'
    simp only [meets_bind, meets_onBlock]
    have hmark := Block.mark_returns (hp.serves hy.owner) (hy.owner.startsAt h) hy.lt
    rw [← hy'.address] at hmark
    refine hmark.meets ?_
    rintro scan b' ⟨hslots, hhint, hserves, hbits, hscan⟩
    have hmargins := hslots.margins (hp.serves hy.owner).layout hhint
    have hp' := hp.setBlock hy.owner hmargins hserves h
    have hmarked : ∀ x, a.Marked m (s.memory.setBlock base b') x ↔
        a.Marked m s.memory x ∨ x = y ∧ ∃ sh base i, a.SlotAt m sh base i y := by
      intro x
      rw [Arena.marked_setBlock hy hbits]
      exact or_congr_right ⟨fun he => ⟨he, sh, base, i, hy⟩, And.left⟩
    have hfield : ∀ {sh base₁ i x j}, a.SlotAt m sh base₁ i x → j < sh.size →
        (s.memory.setBlock base b').field x j = s.memory.field x j := by
      intro sh₁ base₁ i₁ x j hx hj
      refine hx.field_congr h hj fun k hk => ?_
      rw [Memory.block_setBlock]
      split
      next he =>
        subst he
        refine hslots.words k ?_
        rw [(hp.serves hx.owner).layout, sh₁.bitmapWords_layout, ← Shape.color_eq]
        exact hk
      next => rfl
    rw [← Bool.not_eq_true, ← Arena.marked_iff h hy] at hscan
    cases scan with
    | true =>
      simp only [if_true, meets_modify]
      obtain ⟨hnew, hptr⟩ := hscan.1 rfl
      exact ⟨hp', hmarked, hfield, .inl ⟨rfl, hnew, sh, base, i, hy, hptr⟩, rfl, rfl⟩
    | false =>
      refine ⟨hp', hmarked, hfield, .inr ⟨rfl, fun sh₁ base₁ i₁ hy₁ => ?_⟩, rfl, rfl⟩
      obtain ⟨rfl, -, -⟩ := hy.unique h hy₁
      by_contra hno
      rw [not_or] at hno
      exact absurd (hscan.2 hno) (by simp)

/-! ## Fields -/

/-- What replacing the indirections in the field `j` of `x`, where `w` is found, makes
    of the marking `s`. -/
structure Collapsed (tagging : Tagging) (a : Arena) (m : Memory) (x : Word) (j : Nat) (w : Word)
    (s s' : Marking) : Prop where
  preserved : a.Preserved m s'.memory
  marked : ∀ y, a.Marked m s'.memory y ↔ a.Marked m s.memory y
  field : ∀ {sh base i y k}, a.SlotAt m sh base i y → k < sh.size →
    s'.memory.field y k = s.memory.field y k ∨
      x = y ∧ j = k ∧ tagging.Leads w (s'.memory.field y k)
  pending : s'.pending = s.pending

/-- The indirections from a field are replaced to their end, if they have one. -/
theorem collapseWithin_meets (h : a.Sound m loose due) (hr : tagging.Reads may must)
    (hx : a.SlotAt m sh base i x) (hj : j < sh.size) {fuel : Nat} :
    ∀ {w : Word} {s : Marking}, a.Preserved m s.memory →
      Meets (collapseWithin tagging x j fuel w) s
        (fun o s' => (∀ y, o = some y → may w y) ∧ (∀ y, must w y → o = some y) ∧
          Collapsed tagging a m x j w s s')
        fun fault _ => fault = .endless := by
  induction fuel with
  | zero =>
    intro w s _
    rw [collapseWithin]
    simp only [meets_throw]
  | succ fuel ih =>
    intro w s hp
    have hrefl : Collapsed tagging a m x j w s s := ⟨hp, fun _ => Iff.rfl, fun _ _ => .inl rfl, rfl⟩
    rw [collapseWithin]
    simp only [meets_bind, meets_get]
    cases he : tagging.classify s.memory w with
    | immediate =>
      simp only [meets_pure]
      exact ⟨nofun, fun y hy => absurd hy (hr.immediate he y), hrefl⟩
    | object y =>
      obtain ⟨hmay, hmust⟩ := hr.object he
      simp only [meets_pure]
      exact ⟨fun z hz => Option.some.inj hz ▸ hmay, fun z hz => by rw [hmust z hz], hrefl⟩
    | indirection t =>
      obtain ⟨hmay, hmust⟩ := hr.indirection he
      simp only [meets_bind, meets_modify]
      obtain ⟨hp', hheader, hfield⟩ := hp.setField (w := t) h hx hj
      have hrec := ih (w := t) (s := { s with
        memory := s.memory.setField x j t
        collapsed := s.collapsed + 1 }) hp'
      refine hrec.mono (fun o s' ⟨h1, h2, hc⟩ => ?_) fun _ _ => id
      refine ⟨fun y hy => hmay y (h1 y hy), fun y hy => h2 y (hmust y hy), hc.preserved,
        fun y => (hc.marked y).trans (Arena.Marked.congr fun _ b _ _ _ => (hheader b).bitmap), ?_,
        hc.pending⟩
      intro sh' base' i' y k hy hk
      rcases hc.field hy hk with hsame | ⟨hxy, hjk, hlead⟩
      · rw [hfield hy hk] at hsame
        split at hsame
        next heq => exact .inr ⟨heq.1, heq.2, hsame ▸ .single ⟨_, he⟩⟩
        next => exact .inl hsame
      · exact .inr ⟨hxy, hjk, .head ⟨_, he⟩ hlead⟩

/-- Along a trail the replacing ends. -/
theorem collapseWithin_of_trail {f : Word → Edge} {ws : List Word} {o : Option Word}
    (ht : Trail f w ws o) : ∀ {fuel : Nat} {s : Marking}, ws.length ≤ fuel →
      Returns (collapseWithin (Tagging.ofWord f) x j fuel w) s fun _ _ => True := by
  induction ht with
  | immediate he =>
    rintro (_ | fuel) s hlen
    · simp at hlen
    rw [collapseWithin]
    simp only [Returns, meets_bind, meets_get, Tagging.ofWord, he, meets_pure]
  | object he =>
    rintro (_ | fuel) s hlen
    · simp at hlen
    rw [collapseWithin]
    simp only [Returns, meets_bind, meets_get, Tagging.ofWord, he, meets_pure]
  | indirection he _ ih =>
    rintro (_ | fuel) s hlen
    · simp at hlen
    rw [collapseWithin]
    simp only [Returns, meets_bind, meets_get, Tagging.ofWord, he, meets_modify]
    exact ih (Nat.le_of_succ_le_succ hlen)

/-! ## Progress -/

/-- A marking of `a` that started in `m`: the objects `done` were pending and are no
    more, and the words `seen`, which are roots and fields, were visited. -/
structure Progress (tagging : Tagging) (may must : Word → Word → Prop) (a : Arena) (m : Memory)
    (roots done : List Word) (seen : Set Word) (s : Marking) : Prop where
  preserved : a.Preserved m s.memory
  field : ∀ {sh base i x j}, a.SlotAt m sh base i x → j < sh.size →
    tagging.Leads (m.field x j) (s.memory.field x j)
  grows : ∀ x, a.Marked m m x → a.Marked m s.memory x
  reached : ∀ x, a.Marked m s.memory x → a.Marked m m x ∨ Reached may a m roots x
  queued : ∀ x ∈ s.pending ++ done, a.Marked m s.memory x ∧ Reached may a m roots x
  nodup : (s.pending ++ done).Nodup
  unscanned : ∀ x ∈ s.pending ++ done, a.Unscanned m x
  covered : ∀ {sh base i x}, a.SlotAt m sh base i x → a.Marked m s.memory x →
    a.Marked m m x ∨ sh.pointers = 0 ∨ x ∈ s.pending ++ done
  seen : ∀ w ∈ seen, ∀ y, must w y → (∃ sh base i, a.SlotAt m sh base i y) →
    a.Marked m s.memory y

theorem Progress.start (h : a.Sound m loose due) :
    Progress tagging may must a m roots [] ∅ (Marking.start m) where
  preserved := .refl h
  field _ _ := .refl
  grows _ hx := hx
  reached _ hx := .inl hx
  queued x hx := by simp [Marking.start] at hx
  nodup := List.nodup_nil
  unscanned x hx := by simp [Marking.start] at hx
  covered _ hx := .inl hx
  seen w hw := by simp at hw

/-- Every object that is done differs from `0` and from the others, so there are fewer
    than there are words. -/
theorem Progress.length_lt (h : a.Sound m loose due)
    (hp : Progress tagging may must a m roots done seen s) :
    s.pending.length + done.length < Word.count := by
  have hnd : (0 :: (s.pending ++ done)).Nodup := by
    refine List.nodup_cons.2 ⟨fun h0 => ?_, hp.nodup⟩
    obtain ⟨_, _, _, hx⟩ := (hp.queued _ h0).2.slotAt
    exact hx.ne_zero h rfl
  have := length_le_count hnd
  simp only [List.length_cons, List.length_append] at this
  omega

/-- A visit of a word that stands for nothing but reached objects is progress. -/
theorem Progress.visit (hp : Progress tagging may must a m roots done seen s)
    (hv : Visited a m y s s')
    (hy : ∀ sh base i, a.SlotAt m sh base i y → Reached may a m roots y) :
    Progress tagging may must a m roots done seen s' where
  preserved := hv.preserved
  field hx hj := by rw [hv.field hx hj]; exact hp.field hx hj
  grows x hx := (hv.marked x).2 (.inl (hp.grows x hx))
  reached x hx := by
    rcases (hv.marked x).1 hx with hx | ⟨rfl, sh, base, i, hslot⟩
    · exact hp.reached x hx
    · exact .inr (hy sh base i hslot)
  queued x hx := by
    have hold : x ∈ s.pending ++ done → a.Marked m s'.memory x ∧ Reached may a m roots x :=
      fun hx => (hp.queued x hx).imp_left fun hm => (hv.marked x).2 (.inl hm)
    rcases hv.pending with ⟨hpend, -, sh, base, i, hslot, -⟩ | ⟨hpend, -⟩
    · rw [hpend, List.cons_append] at hx
      rcases List.mem_cons.1 hx with rfl | hx
      · exact ⟨(hv.marked x).2 (.inr ⟨rfl, sh, base, i, hslot⟩), hy sh base i hslot⟩
      · exact hold hx
    · rw [hpend] at hx; exact hold hx
  nodup := by
    rcases hv.pending with ⟨hpend, hnew, -⟩ | ⟨hpend, -⟩
    · rw [hpend, List.cons_append]
      exact List.nodup_cons.2 ⟨fun hmem => hnew (hp.queued y hmem).1, hp.nodup⟩
    · rw [hpend]; exact hp.nodup
  unscanned x hx := by
    rcases hv.pending with ⟨hpend, hnew, hslot⟩ | ⟨hpend, -⟩
    · rw [hpend, List.cons_append] at hx
      rcases List.mem_cons.1 hx with rfl | hx
      · exact ⟨fun hold => hnew (hp.grows x hold), hslot⟩
      · exact hp.unscanned x hx
    · rw [hpend] at hx; exact hp.unscanned x hx
  covered {sh base i x} hx hm := by
    rcases hv.pending with ⟨hpend, -, -⟩ | ⟨hpend, hold⟩ <;> rw [hpend]
    · rcases (hv.marked x).1 hm with hm | ⟨rfl, -⟩
      · rcases hp.covered hx hm with hc | hc | hc
        · exact .inl hc
        · exact .inr (.inl hc)
        · exact .inr (.inr (List.mem_cons_of_mem _ hc))
      · exact .inr (.inr (List.mem_cons_self ..))
    · rcases (hv.marked x).1 hm with hm | ⟨rfl, -⟩
      · exact hp.covered hx hm
      · rcases hold sh base i hx with hm | h0
        · exact hp.covered hx hm
        · exact .inr (.inl h0)
  seen w hw x hres hx := (hv.marked x).2 (.inl (hp.seen w hw x hres hx))

/-- Replacing indirections in a field by what they stand for is progress. -/
theorem Progress.collapse (hp : Progress tagging may must a m roots done seen s)
    (hx : a.SlotAt m sh base i x) (hj : j < sh.size)
    (hc : Collapsed tagging a m x j (s.memory.field x j) s s') :
    Progress tagging may must a m roots done seen s' where
  preserved := hc.preserved
  field {sh' base' i' y k} hy hk := by
    rcases hc.field hy hk with hsame | ⟨rfl, rfl, hlead⟩
    · rw [hsame]; exact hp.field hy hk
    · exact (hp.field hx hj).trans hlead
  grows y hy := (hc.marked y).2 (hp.grows y hy)
  reached y hy := hp.reached y ((hc.marked y).1 hy)
  queued y hy := by
    rw [hc.pending] at hy
    exact (hp.queued y hy).imp_left (hc.marked y).2
  nodup := by rw [hc.pending]; exact hp.nodup
  unscanned := by rw [hc.pending]; exact hp.unscanned
  covered hy hm := by
    rw [hc.pending]
    exact hp.covered hy ((hc.marked _).1 hm)
  seen v hv y hres hy := (hc.marked y).2 (hp.seen v hv y hres hy)

/-- Counts do not matter. -/
theorem Progress.of_eq (hp : Progress tagging may must a m roots done seen s)
    (hm : s'.memory = s.memory)
    (hq : s'.pending = s.pending) : Progress tagging may must a m roots done seen s' := by
  obtain ⟨memory, pending, followed, collapsed⟩ := s
  obtain ⟨memory', pending', followed', collapsed'⟩ := s'
  obtain rfl : memory' = memory := hm
  obtain rfl : pending' = pending := hq
  exact ⟨hp.1, hp.2, hp.3, hp.4, hp.5, hp.6, hp.7, hp.8, hp.9⟩

theorem Progress.see (hp : Progress tagging may must a m roots done seen s)
    (hw : ∀ y, must w y → (∃ sh base i, a.SlotAt m sh base i y) → a.Marked m s.memory y) :
    Progress tagging may must a m roots done (insert w seen) s where
  preserved := hp.preserved
  field := hp.field
  grows := hp.grows
  reached := hp.reached
  queued := hp.queued
  nodup := hp.nodup
  unscanned := hp.unscanned
  covered := hp.covered
  seen := by
    intro v hv
    rcases Set.mem_insert_iff.1 hv with rfl | hv
    · exact hw
    · exact hp.seen v hv

/-! ## Scans -/

section
variable (h : a.Sound m [] due) (hr : tagging.Reads may must)
include h

/-- A word is seen once the object that it settles to is visited. -/
theorem Progress.visit_end (hp : Progress tagging may must a m roots done seen s)
    {o : Option Word} (hmust : ∀ y, must w y → o = some y)
    (hreach : ∀ y, o = some y → (∃ sh base i, a.SlotAt m sh base i y) →
      Reached may a m roots y) :
    Returns (match o with | none => pure () | some y => Marking.visit a y) s fun _ s' =>
      Progress tagging may must a m roots done (insert w seen) s' := by
  cases o with
  | none => exact hp.see fun y hy _ => absurd (hmust y hy) (by simp)
  | some y =>
    refine (visit_returns h hp.preserved).mono fun _ s' hv => ?_
    have hy : ∀ sh base i, a.SlotAt m sh base i y → Reached may a m roots y := by
      intro sh base i hy
      exact hreach y rfl ⟨sh, base, i, hy⟩
    refine (hp.visit hv hy).see fun x hx hslot => ?_
    obtain rfl : y = x := Option.some.inj (hmust x hx)
    exact (hv.marked y).2 (.inr ⟨rfl, hslot⟩)

include hr

theorem scanRoot_meets (hp : Progress tagging may must a m roots done seen s) (hw : w ∈ roots) :
    Meets (scanRoot a tagging w) s
      (fun _ s' => Progress tagging may must a m roots done (insert w seen) s')
      fun fault _ => fault.Diverges tagging := by
  rw [scanRoot]
  simp only [meets_bind, meets_get, meets_lift]
  refine ⟨fun o ho => ?_, fun fault he => ?_⟩
  · obtain ⟨hmay, hmust⟩ := hr.settleWithin ho
    have hend := hp.visit_end h hmust fun y hy ⟨_, _, _, hslot⟩ => .root hw (hmay y hy) hslot
    cases o with
    | none => exact hend.meets fun _ _ => id
    | some y => exact hend.meets fun _ _ => id
  · exact ⟨Tagging.settleWithin_error he, fun ht => ht.settle_ne he⟩

theorem scanField_meets (hp : Progress tagging may must a m roots done seen s)
    (hx : a.SlotAt m sh base i x) (hreach : Reached may a m roots x) (hj : j < sh.pointers) :
    Meets (scanField a tagging x j) s
      (fun _ s' => Progress tagging may must a m roots done (insert (m.field x j) seen) s')
      fun fault _ => fault.Diverges tagging := by
  have hj' : j < sh.size := hj.trans_le sh.pointers_le
  obtain ⟨hmay, hmust⟩ := hr.leads (hp.field hx hj')
  have htotal : tagging.Total → Returns
      (collapseWithin tagging x j Word.count (s.memory.field x j)) s fun _ _ => True := by
    rintro ⟨f, rfl, hf⟩
    obtain ⟨ws, o, ht⟩ := hf (s.memory.field x j)
    exact collapseWithin_of_trail ht ht.length_le
  rw [scanField]
  simp only [meets_bind, meets_get]
  refine ((collapseWithin_meets h hr hx hj' hp.preserved).and_not htotal).mono ?_ fun _ _ => id
  rintro o s' ⟨h1, h2, hc⟩
  have hp' : Progress tagging may must a m roots done seen
      { s' with followed := s'.followed + 1 } :=
    (hp.collapse hx hj' hc).of_eq rfl rfl
  have hmust' : ∀ y, must (m.field x j) y → o = some y := fun y hy => h2 y (hmust y hy)
  have hreach' : ∀ y, o = some y → (∃ sh base i, a.SlotAt m sh base i y) →
      Reached may a m roots y := by
    rintro y hy ⟨_, _, _, hslot⟩
    exact .field hreach hx hj (hmay y (h1 y hy)) hslot
  cases o with
  | none => exact ((hp.collapse hx hj' hc).visit_end h hmust' hreach').meets fun _ _ => id
  | some y => exact (hp'.visit_end h hmust' hreach').meets fun _ _ => id

/-- Every pointer field of an object is seen. -/
theorem scanObject_meets (hp : Progress tagging may must a m roots done seen s)
    (hx : a.SlotAt m sh base i x) (hreach : Reached may a m roots x) :
    Meets (scanObject a tagging x) s
      (fun _ s' => ∃ seen', seen ⊆ seen' ∧ (∀ j < sh.pointers, m.field x j ∈ seen') ∧
        Progress tagging may must a m roots done seen' s')
      fun fault _ => fault.Diverges tagging := by
  have hlayout : (s.memory.block (Block.baseOf x)).layout.pointers.toNat = sh.pointers := by
    rw [hx.baseOf_eq h, (hp.preserved.serves hx.owner).layout, Shape.toNat_layout_pointers]
  rw [scanObject]
  simp only [meets_bind, meets_get, hlayout]
  refine meets_forM_range (I := fun n t => ∃ seen', seen ⊆ seen' ∧
    (∀ j < n, m.field x j ∈ seen') ∧ Progress tagging may must a m roots done seen' t)
    ⟨seen, subset_rfl, by simp, hp⟩ ?_
  rintro n t hn ⟨seen', hsub, hfields, ht⟩
  refine (scanField_meets h hr ht hx hreach hn).mono (fun _ t' ht' => ?_) fun _ _ => id
  refine ⟨_, hsub.trans (Set.subset_insert ..), ?_, ht'⟩
  intro j hj
  rcases Nat.lt_succ_iff_lt_or_eq.1 hj with hj | rfl
  · exact Set.mem_insert_of_mem _ (hfields j hj)
  · exact Set.mem_insert ..

/-- The pointer fields of all objects that are done were seen. -/
def AllSeen (a : Arena) (m : Memory) (done : List Word) (seen : Set Word) : Prop :=
  ∀ x ∈ done, ∀ {sh base i j}, a.SlotAt m sh base i x → j < sh.pointers → m.field x j ∈ seen

omit h hr in
/-- A pending object is taken. -/
theorem Progress.take (hp : Progress tagging may must a m roots done seen s) {rest : List Word}
    (hpend : s.pending = x :: rest) :
    Progress tagging may must a m roots (x :: done) seen { s with pending := rest } := by
  have hmid : (s.pending ++ done).Perm (rest ++ x :: done) := by
    rw [hpend]
    exact List.perm_middle.symm
  refine ⟨hp.preserved, hp.field, hp.grows, hp.reached, ?_, hmid.nodup_iff.1 hp.nodup, ?_, ?_,
    hp.seen⟩
  · intro y hy
    exact hp.queued y (hmid.mem_iff.2 hy)
  · intro y hy
    exact hp.unscanned y (hmid.mem_iff.2 hy)
  · intro sh base i y hy hm
    rcases hp.covered hy hm with hc | hc | hc
    · exact .inl hc
    · exact .inr (.inl hc)
    · exact .inr (.inr (hmid.mem_iff.1 hc))

/-- What the scan of one object keeps, of the objects that are done and of the marking. -/
def KeptByScans (tagging : Tagging) (may must : Word → Word → Prop) (a : Arena) (m : Memory)
    (roots : List Word) (I : List Word → Marking → Prop) : Prop :=
  ∀ {done seen s x rest}, Progress tagging may must a m roots done seen s → s.pending = x :: rest →
    I done s → Meets (scanObject a tagging x) { s with pending := rest }
      (fun _ s' => I (x :: done) s') fun _ _ => True

/-- A marking without pending objects, which did the objects `done`. -/
structure Ended (tagging : Tagging) (may must : Word → Word → Prop) (a : Arena) (m : Memory)
    (roots done : List Word) (words : Set Word) (s : Marking) : Prop extends
    Progress tagging may must a m roots done words s where
  pending : s.pending = []
  all : AllSeen a m done words

/-- The objects that are pending, and those that become so, are scanned until none is
    left. -/
theorem scanPending_meets {I : List Word → Marking → Prop}
    (hI : KeptByScans tagging may must a m roots I) :
    ∀ {fuel : Nat} {done : List Word} {seen : Set Word} {s : Marking},
    Word.count ≤ fuel + done.length → AllSeen a m done seen →
    Progress tagging may must a m roots done seen s → I done s →
    Meets (scanPending a tagging fuel) s
      (fun _ s' => ∃ done' seen', seen ⊆ seen' ∧
        Ended tagging may must a m roots done' seen' s' ∧ I done' s')
      fun fault _ => fault.Diverges tagging := by
  intro fuel
  induction fuel with
  | zero =>
    intro done seen s hfuel _ hp _
    have := hp.length_lt h
    omega
  | succ fuel ih =>
    intro done seen s hfuel hall hp hi
    rw [scanPending]
    simp only [meets_bind, meets_get]
    cases hpend : s.pending with
    | nil => exact ⟨done, seen, subset_rfl, ⟨hp, hpend, hall⟩, hi⟩
    | cons x rest =>
      have hreach := (hp.queued x (by simp [hpend])).2
      obtain ⟨sh, base, i, hx⟩ := hreach.slotAt
      simp only [meets_bind, meets_modify]
      have hscan := (scanObject_meets h hr (hp.take hpend) hx hreach).and (hI hp hpend hi)
      refine hscan.mono ?_ fun _ _ hno => hno.1
      rintro - t ⟨⟨seen₁, hsub, hfields, ht⟩, hi'⟩
      have hall' : AllSeen a m (x :: done) seen₁ := by
        intro y hy sh' base' i' j hy' hj
        rcases List.mem_cons.1 hy with rfl | hy
        · obtain ⟨rfl, -, -⟩ := hx.unique h hy'
          exact hfields j hj
        · exact hsub (hall y hy hy' hj)
      have hfuel' : Word.count ≤ fuel + (x :: done).length := by
        rw [List.length_cons]
        omega
      refine (ih hfuel' hall' ht hi').mono ?_ fun _ _ => id
      rintro - t' ⟨done', seen₂, hsub', hrest⟩
      exact ⟨done', seen₂, hsub.trans hsub', hrest⟩

end

/-! ## Markings -/

/-- What a marking that started in `m` makes of the memory. -/
structure Completed (tagging : Tagging) (may must : Word → Word → Prop) (a : Arena) (m : Memory)
    (roots : List Word) (m' : Memory) : Prop where
  preserved : a.Preserved m m'
  field : ∀ {sh base i x j}, a.SlotAt m sh base i x → j < sh.size →
    tagging.Leads (m.field x j) (m'.field x j)
  grows : ∀ x, a.Marked m m x → a.Marked m m' x
  reached : ∀ x, a.Marked m m' x → a.Marked m m x ∨ Reached may a m roots x
  complete : (∀ x, ¬ a.Marked m m x) → ∀ x, Reached must a m roots x → a.Marked m m' x

/-- A marking that ended has ended with more roots as far as it went. -/
theorem Ended.widen {more : List Word} (he : Ended tagging may must a m roots done seen s)
    (hsub : roots ⊆ more) : Ended tagging may must a m more done seen s where
  preserved := he.preserved
  field := he.field
  grows := he.grows
  reached x hx := (he.reached x hx).imp_right fun hr => hr.widen hsub
  queued x hx := (he.queued x hx).imp_right fun hr => hr.widen hsub
  nodup := he.nodup
  unscanned := he.unscanned
  covered := he.covered
  seen := he.seen
  pending := he.pending
  all := he.all

/-- The next marking starts where one ended. -/
theorem Ended.restart (he : Ended tagging may must a m roots done seen s) :
    Ended tagging may must a m roots done seen (Marking.start s.memory) where
  toProgress := he.toProgress.of_eq rfl he.pending.symm
  pending := rfl
  all := he.all

/-- If no slot was marked before, nothing that is reached is missed: it is done, or it
    has no pointer fields. -/
theorem Ended.complete (he : Ended tagging may must a m roots done seen s)
    (hroots : ∀ r ∈ roots, r ∈ seen) (hclear : ∀ x, ¬ a.Marked m m x)
    (hx : Reached must a m roots x) : a.Marked m s.memory x := by
  induction hx with
  | root hr hres hx => exact he.seen _ (hroots _ hr) _ hres ⟨_, _, _, hx⟩
  | field _ hx hj hres hy ih =>
    rcases he.covered hx ih with hm | h0 | hmem
    · exact absurd hm (hclear _)
    · omega
    · rw [he.pending, List.nil_append] at hmem
      exact he.seen _ (he.all _ hmem hx hj) _ hres ⟨_, _, _, hy⟩

/-- More roots are scanned. -/
theorem scanRoots_meets (h : a.Sound m [] due) (hr : tagging.Reads may must)
    {I : List Word → Marking → Prop} {more : List Word} (hmore : more ⊆ roots)
    (hp : Progress tagging may must a m roots done seen s) (hi : I done s)
    (hroot : ∀ {r s}, a.Preserved m s.memory → I done s →
      Meets (scanRoot a tagging r) s (fun _ s' => I done s') fun _ _ => True) :
    Meets (more.forM (scanRoot a tagging)) s
      (fun _ s' => I done s' ∧ ∃ seen', seen ⊆ seen' ∧ (∀ r ∈ more, r ∈ seen') ∧
        Progress tagging may must a m roots done seen' s')
      fun fault _ => fault.Diverges tagging := by
  refine (meets_forM (I := fun past todo s' => past ++ todo = more ∧ I done s' ∧
    ∃ seen', seen ⊆ seen' ∧ (∀ r ∈ past, r ∈ seen') ∧
      Progress tagging may must a m roots done seen' s')
    ⟨rfl, hi, seen, subset_rfl, by simp, hp⟩ ?_).mono (fun _ _ ht => ht.2) fun _ _ => id
  rintro past r todo t ⟨hl, hi, seen', hsub, hpast, ht⟩
  have hmem : r ∈ roots := hmore (by rw [← hl]; simp)
  have hscan := (scanRoot_meets h hr ht hmem).and (hroot (r := r) ht.preserved hi)
  refine hscan.mono (fun _ t' ht' => ?_) fun _ _ hno => hno.1
  refine ⟨by simpa using hl, ht'.2, _, hsub.trans (Set.subset_insert ..), ?_, ht'.1⟩
  intro v hv
  rcases List.mem_append.1 hv with hv | hv
  · exact Set.mem_insert_of_mem _ (hpast v hv)
  · rw [List.mem_singleton.1 hv]
    exact Set.mem_insert ..

/-- A marking that ended goes on with more roots.  What a scan of a root and one of an
    object keep, it keeps. -/
theorem run_continues (h : a.Sound m [] due) (hr : tagging.Reads may must)
    {I : List Word → Marking → Prop} {more : List Word} (hmore : more ⊆ roots)
    (he : Ended tagging may must a m roots done seen s) (hi : I done s)
    (hroot : ∀ {r s}, a.Preserved m s.memory → I done s →
      Meets (scanRoot a tagging r) s (fun _ s' => I done s') fun _ _ => True)
    (hI : KeptByScans tagging may must a m roots I) :
    Meets (run a tagging more) s
      (fun _ s' => ∃ done' seen', seen ⊆ seen' ∧ (∀ r ∈ more, r ∈ seen') ∧
        Ended tagging may must a m roots done' seen' s' ∧ I done' s')
      fun fault _ => fault.Diverges tagging := by
  rw [run]
  simp only [meets_bind]
  refine (scanRoots_meets h hr hmore he.toProgress hi hroot).mono ?_ fun _ _ => id
  rintro - t ⟨hi', seen', hsub, hroots, ht⟩
  have hall : AllSeen a m done seen' := fun x hx _ _ _ _ hslot hj => hsub (he.all x hx hslot hj)
  refine (scanPending_meets h hr hI (Nat.le_add_right ..) hall ht hi').mono ?_ fun _ _ => id
  rintro - t' ⟨done', seen'', hsub', he', hi''⟩
  exact ⟨done', seen'', hsub.trans hsub', fun r hr => hsub' (hroots r hr), he', hi''⟩

/-- Before any root is scanned, nothing is pending. -/
theorem Ended.start (h : a.Sound m loose due) :
    Ended tagging may must a m roots [] ∅ (Marking.start m) where
  toProgress := .start h
  pending := rfl
  all x hx := by simp at hx

/-- The roots are scanned, and then all that is pending. -/
theorem run_ends (h : a.Sound m [] due) (hr : tagging.Reads may must)
    {I : List Word → Marking → Prop} (hstart : I [] (Marking.start m))
    (hroot : ∀ {r s}, a.Preserved m s.memory → I [] s →
      Meets (scanRoot a tagging r) s (fun _ s' => I [] s') fun _ _ => True)
    (hI : KeptByScans tagging may must a m roots I) :
    Meets (run a tagging roots) (Marking.start m)
      (fun _ s' => ∃ done seen, (∀ r ∈ roots, r ∈ seen) ∧
        Ended tagging may must a m roots done seen s' ∧ I done s')
      fun fault _ => fault.Diverges tagging := by
  refine (run_continues h hr (List.Subset.refl _) (.start h) hstart hroot hI).mono ?_ fun _ _ => id
  rintro - t ⟨done, seen, -, hroots, he, hi⟩
  exact ⟨done, seen, hroots, he, hi⟩

theorem Ended.completed (he : Ended tagging may must a m roots done seen s)
    (hroots : ∀ r ∈ roots, r ∈ seen) : Completed tagging may must a m roots s.memory :=
  ⟨he.preserved, he.field, he.grows, he.reached, fun hclear _ => he.complete hroots hclear⟩

/-- A marking marks what the roots reach. -/
theorem run_meets (h : a.Sound m [] due) (hr : tagging.Reads may must) :
    Meets (run a tagging roots) (Marking.start m)
      (fun _ s' => Completed tagging may must a m roots s'.memory)
      fun fault _ => fault.Diverges tagging := by
  refine (run_ends h hr (I := fun _ _ => True) trivial ?_ ?_).mono ?_ fun _ _ => id
  · intro r s _ _
    exact meets_trivial
  · intro done seen s x rest _ _ _
    exact meets_trivial
  · rintro - s' ⟨done, seen, hroots, he, -⟩
    exact he.completed hroots

end Marking

end SlabHeap
