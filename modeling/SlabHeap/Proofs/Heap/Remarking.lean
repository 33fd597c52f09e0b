/-
  Markings with the same roots.

  Where no slot is in use, the bits, the fields and the counts of free slots after markings
  are a matter of what their roots reach, and the words behind the last slot and the hints
  stay.  So the blocks are the same whichever markings with these roots led there
  (`MarkedBy.block_eq`), and so are the numbers of pointers and of indirections, since the
  same fields were scanned, each once (`MarkedBy.perm_pointerFields`).  Only the number of
  roots that were scanned tells such heaps apart (`MarkedBy.sameMarks`), and a sweep does not
  look at that (`SameMarks.sweep`).
-/
import SlabHeap.Proofs.Heap.Rewriting
import SlabHeap.Proofs.Heap.Isolation

namespace SlabHeap

variable {f : Word → Edge} {a : Arena} {m m₁ m₂ : Memory}
  {b b' : Block} {s : Shape} {loose roots : List Word} {due i : Nat} {x w : Word}

/-! ## Equal blocks -/

namespace Block

theorem ext_words (hlink : b'.link = b.link) (hlayout : b'.layout = b.layout)
    (hfree : b'.free = b.free) (hroom : b'.room = b.room) (hhint : b'.hint = b.hint)
    (hword : ∀ i, headerWords ≤ i → i < blockWords → b'.word i = b.word i) : b' = b := by
  obtain ⟨link, layout, free, room, hint, body⟩ := b
  obtain ⟨link', layout', free', room', hint', body'⟩ := b'
  obtain rfl : link' = link := hlink
  obtain rfl : layout' = layout := hlayout
  obtain rfl : free' = free := hfree
  obtain rfl : room' = room := hroom
  obtain rfl : hint' = hint := hhint
  congr
  refine Vector.ext fun i hi => ?_
  have := hword (headerWords + i) (Nat.le_add_right ..) (by unfold bodyWords at hi; omega)
  simpa [word, hi] using this

/-- The words behind the header are those of the bitmap. -/
theorem word_of_bitmap (hl : b'.layout = b.layout) (hb : b'.bitmap = b.bitmap)
    (hi : i < b.layout.bitmapWords) : b'.word (headerWords + i) = b.word (headerWords + i) := by
  have := congrArg (fun bm => bm.words[i]?) hb
  simpa [bitmap, hl, hi] using this

end Block

/-- A word behind the bitmap lies in a slot, or behind the last one. -/
theorem Shape.slotWord_cases {k : Nat} (hk : colorFor s.size ≤ k) :
    (∃ i < s.slots, ∃ j < s.size, k = s.layout.slotWord i + j) ∨
      s.layout.slotWord s.slots ≤ k := by
  have hpos := s.one_le_size
  by_cases hlt : (k - colorFor s.size) / s.size < s.slots
  · refine .inl ⟨_, hlt, (k - colorFor s.size) % s.size, Nat.mod_lt _ hpos, ?_⟩
    have := Nat.div_add_mod' (k - colorFor s.size) s.size
    rw [Shape.slotWord_layout]
    omega
  · refine .inr ?_
    have := (Nat.le_div_iff_mul_le hpos).1 (Nat.not_lt.1 hlt)
    rw [Shape.slotWord_layout]
    omega

/-- Changes inside blocks that lead to the same marks and the same fields lead to the same
    blocks. -/
theorem Arena.Preserved.block_eq (h : a.Sound m loose due) (hp₁ : a.Preserved m m₁)
    (hp₂ : a.Preserved m m₂) (hmarked : ∀ x, a.Marked m m₂ x ↔ a.Marked m m₁ x)
    (hfield : ∀ {s base i x j}, a.SlotAt m s base i x → j < s.size →
      m₂.field x j = m₁.field x j) (w : Word) : m₂.block w = m₁.block w := by
  by_cases hw : w ∈ a.owned m
  swap
  · rw [hp₁.changes.block w hw, hp₂.changes.block w hw]
  obtain ⟨s, ho⟩ := mem_owned_iff.1 hw
  have hs₁ := hp₁.serves ho
  have hs₂ := hp₂.serves ho
  have hmargins₁ := hp₁.margins ho
  have hmargins₂ := hp₂.margins ho
  have hslot : ∀ i < s.slots, a.SlotAt m s w i ((m.block w).slotAddress w i) :=
    fun i hi => ⟨ho, hi, rfl⟩
  have hlayout := hs₂.layout.trans hs₁.layout.symm
  have hbitmap : (m₂.block w).bitmap = (m₁.block w).bitmap := by
    have hlen := hs₂.length_bitmap.trans hs₁.length_bitmap.symm
    -- The bits of slots are marks, and the others are sentinels.
    refine Bitmap.ext_bits hlen fun i hi => ?_
    by_cases hlt : i < s.slots
    · have hx := hslot i hlt
      rw [Bool.eq_iff_iff, ← marked_iff h hx, ← marked_iff h hx]
      exact hmarked _
    · rw [hs₂.sentinels i (Nat.not_lt.1 hlt) hi,
        hs₁.sentinels i (Nat.not_lt.1 hlt) (hlen ▸ hi)]
  refine Block.ext_words (hmargins₂.link.trans hmargins₁.link.symm) hlayout
    (hs₂.free.trans hs₁.free.symm) (by rw [hs₂.room, hs₁.room, hbitmap])
    (hmargins₂.hint.trans hmargins₁.hint.symm) fun k hk _ => ?_
  by_cases hcolor : colorFor s.size ≤ k
  -- The words behind the bitmap are fields, but for those behind the last slot.
  · rcases Shape.slotWord_cases hcolor with ⟨i, hi, j, hj, rfl⟩ | hend
    · have := hfield (hslot i hi) hj
      rwa [(hslot i hi).field_eq h hj, (hslot i hi).field_eq h hj] at this
    · exact (hmargins₂.words k hend).trans (hmargins₁.words k hend).symm
  · obtain ⟨i, rfl⟩ := Nat.exists_eq_add_of_le hk
    refine Block.word_of_bitmap hlayout hbitmap ?_
    rw [hs₁.layout, s.bitmapWords_layout]
    rw [Shape.color_eq] at hcolor
    omega

/-! ## What the roots decide -/

namespace Heap

open Marking (pointerFields followedIn hopsIn)

variable {h t t' : Heap} {done : List Word} {seen : Set Word}

/-- The heaps hold the same blocks, and their arenas differ in the number of roots that were
    scanned at most. -/
structure SameMarks (t t' : Heap) : Prop where
  supply : t'.memory.supply = t.memory.supply
  mapped : t'.memory.mapped = t.memory.mapped
  block : ∀ w, t'.memory.block w = t.memory.block w
  arena : t'.arena = { t.arena with counters := { t.arena.counters with
    rootsScanned := t'.arena.counters.rootsScanned } }

namespace MarkedBy

section
variable {roots' done' : List Word} {seen' : Set Word} (hs : h.Sound [] due)
  (hclear : ∀ x, ¬ h.arena.Marked h.memory h.memory x) (ht : MarkedBy f h roots done seen t)
  (ht' : MarkedBy f h roots' done' seen' t') (hsame : ∀ r, r ∈ roots ↔ r ∈ roots')
include hs hclear ht ht' hsame

omit hs hclear ht ht' in
theorem reached_iff : Reached (Resolves f) h.arena h.memory roots' x ↔
    Reached (Resolves f) h.arena h.memory roots x :=
  ⟨fun hx => hx.widen fun r => (hsame r).2, fun hx => hx.widen fun r => (hsame r).1⟩

/-- The same fields were scanned, in one order or another. -/
theorem perm_pointerFields : (pointerFields h.memory done').Perm
    (pointerFields h.memory done) := by
  refine (List.perm_ext_iff_of_nodup ht'.ended.nodup_pointerFields
    ht.ended.nodup_pointerFields).2 ?_
  rintro ⟨x, j⟩
  rw [ht'.ended.mem_pointerFields hs ht'.scanned hclear,
    ht.ended.mem_pointerFields hs ht.scanned hclear]
  simp only [reached_iff hsame]

theorem block_eq (w : Word) : t'.memory.block w = t.memory.block w := by
  refine Arena.Preserved.block_eq hs ht.ended.preserved ht'.ended.preserved (fun x => ?_) ?_ w
  · exact (ht'.marked_iff hclear).trans
      ((reached_iff hsame).trans (ht.marked_iff hclear).symm)
  · intro s base i x j hx hj
    have hrewrote := ht'.rewrote.perm (perm_pointerFields hs hclear ht ht' hsame)
    exact (hrewrote.field hx hj).trans (ht.rewrote.field hx hj).symm

/-- Markings with the same roots end in the same marks. -/
theorem sameMarks : t.SameMarks t' where
  supply := ht'.ended.preserved.changes.supply.trans ht.ended.preserved.changes.supply.symm
  mapped := ht'.ended.preserved.changes.mapped.trans ht.ended.preserved.changes.mapped.symm
  block := block_eq hs hclear ht ht' hsame
  arena := by
    have hperm := perm_pointerFields hs hclear ht ht' hsame
    have hfollowed : followedIn f h.memory _ = followedIn f h.memory _ :=
      hperm.countP_eq _
    have hhops : hopsIn f h.memory _ = hopsIn f h.memory _ :=
      (hperm.map _).sum_eq
    rw [ht'.arena, ht.arena, hfollowed, hhops]

end

end MarkedBy

/-- Markings in a row, which fail where the totals of the first ones leave the range of a
    machine word. -/
theorem marks_counted (hs : h.Sound [] due) (rss : List (List Word)) :
    Meets (rss.forM (mark (.ofWord f))) h
      (fun _ t => ∃ done seen, MarkedBy f h rss.flatten done seen t)
      fun fault _ => (fault = .overflow .add ∧ ∃ past, past <+: rss ∧
          ∃ t, (∃ done seen, MarkedBy f h past.flatten done seen t) ∧
            t.arena.counters.Overmarked) ∨
        fault.Diverges (.ofWord f) := by
  refine (meets_forM (I := fun past todo t => past ++ todo = rss ∧
    ∃ done seen, MarkedBy f h past.flatten done seen t) ⟨rfl, _, _, .start hs⟩ ?_).mono
      (fun _ _ => And.right) fun _ _ => id
  rintro past roots todo t ⟨hsplit, done, seen, ht⟩
  have hsplit' : (past ++ [roots]) ++ todo = rss := (List.append_cons ..).symm.trans hsplit
  rw [List.flatten_append, List.flatten_singleton]
  refine (ht.mark_counted hs).mono (fun _ _ ht' => ⟨hsplit', ht'⟩) fun fault _ hf => ?_
  refine hf.imp_left fun ⟨he, t', ht', hover⟩ => ?_
  rw [← List.flatten_singleton (l := roots), ← List.flatten_append] at ht'
  exact ⟨he, past ++ [roots], ⟨todo, hsplit'⟩, t', ht', hover⟩

/-! ## Sweeps -/

/-- The heap with another number of scanned roots and another journal. -/
def recount (h : Heap) (n : Nat) (events : Array Event) : Heap where
  memory := h.memory
  arena := { h.arena with counters := { h.arena.counters with rootsScanned := n } }
  events := events

variable {n : Nat} {events : Array Event}

theorem sweepCache_recount : Alike (fun t t' => t' = t.recount n events)
    (sweepCache i) (sweepCache i) h (h.recount n events) := by
  rw [sweepCache, alike_get]
  have hcaches : (h.recount n events).arena.caches = h.arena.caches := rfl
  rw [hcaches]
  cases h.arena.caches[i]? with
  | none => exact alike_throw rfl
  | some c =>
    refine alike_zoom alike_refl ?_
    rintro s _ rfl
    rfl

/-- A sweep looks at neither. -/
theorem sweep_recount : Alike (fun t t' => t' = t.recount n events) sweep sweep h
    (h.recount n events) := by
  rw [sweep, alike_get]
  refine alike_bind (alike_foldlM_range (I := fun _ _ _ => True) trivial rfl ?_) ?_
  · rintro k freed t _ - - rfl
    refine ⟨alike_bind sweepCache_recount ?_, meets_trivial⟩
    rintro m t _ - rfl
    exact alike_pure rfl
  · rintro freed t _ - rfl
    refine alike_get.2 (alike_ite (fun _ => alike_throw rfl) fun _ => ?_)
    refine alike_modify.2 (alike_get.2 (alike_lift rfl fun total _ => ?_))
    exact alike_modify.2 (alike_pure rfl)

/-- A sweep leads heaps with the same marks to heaps with the same blocks. -/
theorem SameMarks.sweep (hs : t.Sound [] due) (h : t.SameMarks t') :
    Alike SameMarks Heap.sweep Heap.sweep t t' := by
  have hm := Memory.like_nothing h.supply h.mapped h.block
  have ht' : t' = ({ t with memory := t'.memory } : Heap).recount
      t'.arena.counters.rootsScanned t'.events := by
    rw [recount, ← h.arena]
  rw [ht']
  refine (sweep_alike hm Directory.avoids_nothing hs).trans sweep_recount ?_
  rintro u _ _ ⟨m, hm, -, rfl⟩ rfl
  exact ⟨hm.supply'.trans hm.supply.symm, hm.mapped, fun w => hm.block w id, rfl⟩

end Heap

end SlabHeap
