/-
  The words of live objects.

  `contents f p past x j` reads the word in the field `j` of the object `x`, which has `p`
  pointer fields, off the steps of a run: it is the word that was written there last, or
  the one that the slot held when it was allocated, where every collection since then has
  replaced an indirection in a pointer field by the last word of its chain.  The heap of
  the run holds this word (`live_words_kept`), whatever else the allocator did to the
  block of the object, and no write into a live object reaches a header or a bitmap.
-/
import SlabHeap.Proofs.Heap.Words
import SlabHeap.Proofs.Run.Collection
import SlabHeap.Proofs.Run.Live
import SlabHeap.Proofs.Run.Stages

namespace SlabHeap

variable {f : Word → Edge} {past : List Step} {h h' : Heap} {op : Operation} {r : Option Word}
  {x w : Word} {n i j p : Nat}

/-! ## Steps -/

instance (s : Step) : Decidable s.Collects :=
  inferInstanceAs (Decidable (_ ≠ _))

/-- The word that a step leaves in the field `j` of the object `x`, which has `p` pointer
    fields and is live before and after, where it finds the word `old`. -/
def Step.leaves (f : Word → Edge) (p : Nat) (s : Step) (x : Word) (j : Nat) (old : Word) : Word :=
  match s.op with
  | .write object field w => if object = x ∧ field = j then w else old
  | _ => if s.Collects ∧ j < p then lastWord f old else old

/-- The word that was put into the field `j` of the object `x`, which has `p` pointer
    fields, by the steps of a run. -/
def contents (f : Word → Edge) (p : Nat) : List Step → Word → Nat → Word
  | [], _, _ => 0
  | s :: past, x, j =>
    if s.result = some x then s.before.memory.field x j
    else s.leaves f p x j (contents f p past x j)

namespace Operation

/-- A write into a slot replaces one word, and no header or bitmap. -/
theorem write_changes {object : Word} {field : Nat} (hs : h.Sound [] 0)
    (hfit : (write object field w).Fits h) :
    (∀ b, Block.SameHeader (h.memory.block b) ((h.memory.setField object field w).block b)) ∧
      ∀ {s base i x j}, h.arena.SlotAt h.memory s base i x → j < s.size →
        (h.memory.setField object field w).field x j =
          if object = x ∧ field = j then w else h.memory.field x j := by
  obtain ⟨s, base, i, hx, hj⟩ := hfit
  exact ((Arena.Preserved.refl hs).setField hs hx hj).2

/-- A step that is no write keeps words, but for what its collection does. -/
theorem Stages.keeps (hst : op.Stages (.ofWord f) h r h') (hs : h.Sound [] 0)
    (hread : ∀ object field w, op ≠ .write object field w) :
    Heap.KeepsObjects f op.roots h r h' := by
  cases hst with
  | idle _ hu => exact Heap.keepsObjects_of_undisturbed hu
  | allocated _ _ hs₁ hu he =>
    exact (Heap.allocate_keeps hs₁ he).after hu.toSameObjects hu.collections
  | collected hop he =>
    subst hop
    exact Heap.keepsObjects_of_keepsWords (Heap.collect_keeps hs he)
  | wrote hop => exact absurd hop (hread _ _ _)

/-- An object that is there before and after a step, and that the step spares, has the
    words that the step leaves. -/
theorem Stages.leaves {s : Shape} {base base' : Word} {i' : Nat}
    (hst : op.Stages (.ofWord f) h r h') (hs : h.Sound [] 0) (hfit : op.Fits h)
    (hspared : Step.Spares (Resolves f) ⟨op, h, r, h'⟩ x)
    (hx : h.arena.SlotAt h.memory s base i x) (hx' : h'.arena.SlotAt h'.memory s base' i' x)
    (hj : j < s.size) :
    h'.memory.field x j = Step.leaves f s.pointers ⟨op, h, r, h'⟩ x j (h.memory.field x j) := by
  by_cases hwrite : ∃ object field w, op = .write object field w
  · obtain ⟨object, field, w, rfl⟩ := hwrite
    cases hst with
    | idle ha _ => exact ha.elim
    | allocated ha _ _ _ _ => exact ha.elim
    | collected hop _ => cases hop
    | wrote hop =>
      cases hop
      exact (write_changes hs hfit).2 hx hj
  · have hread : ∀ object field w, op ≠ .write object field w := fun object field w heq =>
      hwrite ⟨object, field, w, heq⟩
    have hk := (hst.keeps hs hread).kept hx hx' hj
    have hleaves : ∀ old, Step.leaves f s.pointers ⟨op, h, r, h'⟩ x j old =
        if Step.Collects ⟨op, h, r, h'⟩ ∧ j < s.pointers then lastWord f old else old := by
      intro old
      cases op with
      | write object field w => exact absurd rfl (hread object field w)
      | _ => rfl
    rw [hleaves]
    split
    next hc => exact hk.last hc.1 (hspared hc.1) hc.2
    next hc =>
      refine hk.same ?_
      by_cases hcount : h'.arena.counters.collections = h.arena.counters.collections
      · exact .inl hcount
      · exact .inr (.inr (Nat.le_of_not_lt fun hptr => hc ⟨hcount, hptr⟩))

/-- An allocation hands out its slot with the words that were there. -/
theorem Stages.field_eq {s : Shape} {base : Word} (hst : op.Stages (.ofWord f) h (some x) h')
    (hx : h'.arena.SlotAt h'.memory s base i x) (hj : j < s.size) :
    h'.memory.field x j = h.memory.field x j := by
  cases hst with
  | allocated _ _ hs₁ hu he =>
    have hk := (Heap.allocate_keeps hs₁ he).after hu.toSameObjects hu.collections
    exact hk.allocated rfl hx hj

end Operation

/-! ## Runs -/

/-- A live object holds the words that were put into it. -/
theorem Run.field_eq_contents (hr : Run (.ofWord f) (intoLive (Resolves f)) past h)
    (hlive : Live (Resolves f) past x n) : ∀ {s : Shape} {base : Word} {i j : Nat},
      h.arena.SlotAt h.memory s base i x → j < s.size →
      h.memory.field x j = contents f s.pointers past x j := by
  have hT := Tagging.reads_ofWord f
  induction hr generalizing n with
  | start hi => cases hlive
  | @step past h h' op r hr ha he ih =>
    obtain ⟨hs, hh⟩ := hr.holds hT
    have hfit := hh.fits ha
    have heffect := he.effect hT hs hfit
    intro s base i j hx hj
    rw [contents]
    cases hlive with
    | allocated hresult hsize =>
      obtain rfl : r = some x := hresult
      rw [if_pos rfl]
      exact (he.stages hs ha.1).field_eq hx hj
    | spared hlive hspared =>
      obtain ⟨sh, -, hheld⟩ := hh x n hlive
      obtain ⟨⟨base', i', hx', -⟩, hne⟩ := (heffect.objects ha.1).spared hspared hheld
      obtain ⟨base₀, i₀, hx₀, -⟩ := hheld
      obtain ⟨rfl, -, -⟩ := hx.unique heffect.sound hx'
      rw [if_neg hne, ← ih hlive hx₀ hj]
      exact (he.stages hs ha.1).leaves hs hfit hspared hx₀ hx hj

theorem live_words_kept (hr : Run (.ofWord f) (intoLive (Resolves f)) past h) :
    (∀ x n, Live (Resolves f) past x n → ∃ s : Shape, s.size = n ∧
      h.arena.Holds h.memory s x ∧
      ∀ j < n, h.memory.field x j = contents f s.pointers past x j) ∧
    ∀ object field w, intoLive (Resolves f) past h (.write object field w) →
      Returns ((Operation.write object field w).run (.ofWord f)) h fun _ h' =>
        ∀ b, Block.SameHeader (h.memory.block b) (h'.memory.block b) := by
  obtain ⟨hs, hh⟩ := hr.holds (Tagging.reads_ofWord f)
  refine ⟨fun x n hlive => ?_, fun object field w ha => ?_⟩
  · obtain ⟨s, rfl, hheld⟩ := hh x n hlive
    refine ⟨s, rfl, hheld, fun j hj => ?_⟩
    obtain ⟨base, i, hx, -⟩ := hheld
    exact hr.field_eq_contents hlive hx hj
  · simp only [Returns, Operation.run, meets_bind, meets_modify, meets_pure]
    exact (Operation.write_changes hs (hh.fits ha)).1

/-- An object holds what was written into it, of which a collection replaced the word in
    its pointer field, after the block of another was freed and serves a third size. -/
theorem live_words_kept_when_recycled : ∃ past h,
    Run (.ofWord aliasEdge) (intoLive (Resolves aliasEdge)) past h ∧ past.length = 6 ∧
    h.arena.counters.blocksFreed = 1 ∧ h.arena.blocksInUse = 2 ∧
    Live (Resolves aliasEdge) past 1048600 100 ∧
    contents aliasEdge 1 past 1048600 0 = 1048600 ∧ contents aliasEdge 1 past 1048600 1 = 5 ∧
    ∀ j < 100, h.memory.field 1048600 j = contents aliasEdge 1 past 1048600 j := by
  have h₀ : Run (.ofWord aliasEdge) (intoLive (Resolves aliasEdge)) [] (.fresh 1 .standard) :=
    .start (Heap.initial_fresh (by decide) (by decide))
  have hallocated : ∀ {s past h}, Run (.ofWord aliasEdge) (intoLive (Resolves aliasEdge))
      (s :: past) h → s.result = some 1048600 → s.op.size? s.before = some 100 →
      Live (Resolves aliasEdge) (s :: past) 1048600 100 := fun _ => .allocated
  have hspared : ∀ {s past h}, Run (.ofWord aliasEdge) (intoLive (Resolves aliasEdge))
      (s :: past) h → Live (Resolves aliasEdge) past 1048600 100 →
      s.Spares (Resolves aliasEdge) 1048600 →
      Live (Resolves aliasEdge) (s :: past) 1048600 100 := fun _ => .spared
  have h₁ := h₀.next (.allocateWords 100 1 []) (some 1048600) ⟨trivial, trivial⟩
    (by decide +kernel)
  have live₁ := hallocated h₁ rfl rfl
  have h₂ := h₁.next (.write 1048600 0 5) none ⟨trivial, 100, live₁, by decide⟩
    (by decide +kernel)
  have live₂ := hspared h₂ live₁ fun hcollects => absurd (by decide +kernel) hcollects
  have h₃ := h₂.next (.write 1048600 1 5) none ⟨trivial, 100, live₂, by decide⟩
    (by decide +kernel)
  have live₃ := hspared h₃ live₂ fun hcollects => absurd (by decide +kernel) hcollects
  have h₄ := h₃.next (.allocateWords 50 0 []) (some 1052696) ⟨trivial, trivial⟩
    (by decide +kernel)
  have live₄ := hspared h₄ live₃ fun hcollects => absurd (by decide +kernel) hcollects
  have h₅ := h₄.next (.collect [1048600]) none ⟨trivial, trivial⟩ (by decide +kernel)
  have hroot : ∀ {h : Heap} {s : Shape} {b i},
      h.arena.SlotAt h.memory s b i 1048600 →
      Reached (Resolves aliasEdge) h.arena h.memory [1048600] 1048600 := fun hx =>
    .root (List.mem_singleton_self _) ⟨_, .object rfl⟩ hx
  have live₅ := hspared h₅ live₄ fun _ =>
    hroot (s := ⟨100, 1, by decide, by decide, by decide⟩) (b := 1048576) (i := 0)
      (by decide +kernel)
  have h₆ := h₅.next (.allocateWords 60 0 []) (some 1052696) ⟨trivial, trivial⟩
    (by decide +kernel)
  have live₆ := hspared h₆ live₅ fun hcollects => absurd (by decide +kernel) hcollects
  -- The heap is a large term, so the theorem is applied to a name for it.
  have hkept : ∀ {past h}, Run (.ofWord aliasEdge) (intoLive (Resolves aliasEdge)) past h →
      Live (Resolves aliasEdge) past 1048600 100 →
      h.arena.SlotAt h.memory ⟨100, 1, by decide, by decide, by decide⟩ 1048576 0 1048600 →
      ∀ j < 100, h.memory.field 1048600 j = contents aliasEdge 1 past 1048600 j := by
    intro past h hr hlive hx
    obtain ⟨s, -, ⟨base, i, hx', -⟩, hfields⟩ := (live_words_kept hr).1 1048600 100 hlive
    obtain ⟨rfl, -, -⟩ := hx.unique (hr.holds (Tagging.reads_ofWord _)).1 hx'
    exact hfields
  exact ⟨_, _, h₆, rfl, by decide +kernel, by decide +kernel, live₆, by decide +kernel,
    by decide +kernel, hkept h₆ live₆ (by decide +kernel)⟩

end SlabHeap
