/-
  The block that a sweep puts first.

  Sweeping a cache holds one available block back until all blocks are sorted, and puts it in
  front of the others then.  It is `fullest?`: of the blocks with the fewest free slots the one
  that was visited first.  Sorting one block keeps this (`place_fullest`), so it holds when all are
  sorted (`placeAll_fullest`).
-/
import Mathlib.Data.List.MinMax
import SlabHeap.Proofs.Heap.Sweep

namespace SlabHeap

namespace Sweep

variable {m : Memory} {x : Word} {s : Sweep} {c : Cache} {idle : BlockList} {done todo av : List Word}

/-- The fullest one of those blocks that have used slots and free ones: the first of those with
    the fewest free slots. -/
def fullest? (m : Memory) (c : Cache) (blocks : List Word) : Option Word :=
  (blocks.filter (isPartial m c)).argmin fun b => (m.block b).room

/-- A block that is not partly used does not matter. -/
theorem fullest?_skip (hx : isPartial m c x = false) :
    fullest? m c (done ++ [x]) = fullest? m c done := by
  simp [fullest?, hx]

/-- The block that is held back gives way to one with fewer free slots. -/
theorem fullest?_next (hx : isPartial m c x = true) : fullest? m c (done ++ [x]) =
    match fullest? m c done with
    | none => some x
    | some held => if (m.block x).room < (m.block held).room then some x else some held := by
  have hfilter : (done ++ [x]).filter (isPartial m c) = done.filter (isPartial m c) ++ [x] := by
    simp [hx]
  rw [fullest?, hfilter, List.argmin_concat, fullest?]
  cases (done.filter (isPartial m c)).argmin fun b => (m.block b).room <;> rfl

theorem mem_of_fullest? (hx : fullest? m c done = some x) : x ∈ done :=
  (List.mem_filter.1 (List.argmin_mem hx)).1

/-- The block held back is the fullest of those that are done, also after one more. -/
theorem place_fullest (h : Sorted m c idle done av s) (hblocks : done ++ [x] ⊆ c.blocks m)
    (hf : s.fullest = fullest? m c done) :
    Meets (place c.shape x) s (fun _ s' => s'.fullest = fullest? m c (done ++ [x]))
      fun _ _ => True := by
  have hroom : ∀ b ∈ done ++ [x], (s.memory.block b).room = (m.block b).room := fun b hb =>
    h.moved.room (hblocks hb)
  have hx : (s.memory.block x).room = (m.block x).room := hroom x (by simp)
  simp only [place, meets_bind, meets_get, meets_ite, meets_throw, meets_set, implies_true,
    true_and, hx]
  refine fun _ => ⟨fun hfull => ?_, fun hfull => ⟨fun hdead => ?_, fun hdead => ?_⟩⟩
  · exact hf.trans (fullest?_skip (by simp [isPartial, isFull, hfull])).symm
  · exact hf.trans (fullest?_skip (by simp [isPartial, isDead, hdead])).symm
  · have hpart : isPartial m c x = true := by simp [isPartial, isFull, isDead, hfull, hdead]
    rw [keepAvailable, fullest?_next hpart, ← hf]
    cases hheld : s.fullest with
    | none => rfl
    | some held =>
      have hmem : held ∈ done := mem_of_fullest? (hf.symm.trans hheld)
      simp only [hx, hroom held (List.mem_append_left _ hmem)]
      split
      · rfl
      · exact hheld

/-- The fullest block is put in front of the others. -/
theorem finish_fullest (h : Sorted m c idle done av s) (hf : s.fullest = fullest? m c done) :
    s.finish.available.first = fullest? m c done := by
  rw [finish, ← hf]
  cases hheld : s.fullest with
  | some held => rfl
  | none =>
    -- Without a block that is held back, none is partly used.
    have hnone : done.filter (isPartial m c) = [] := List.argmin_eq_none.1 (hf.symm.trans hheld)
    have hperm := h.perm
    rw [hheld, hnone, Option.toList_none, List.nil_append] at hperm
    have hchain := h.threads.available
    rw [hperm.eq_nil] at hchain
    show s.available.first = none
    generalize s.available.first = first at hchain
    cases hchain
    rfl

theorem placeAll_fullest (hk : c.Kept m) (hnd : (c.blocks m).Nodup)
    (hidle : ∀ b ∈ c.blocks m, b ∉ idle.toList m) (h : Sorted m c idle [] av s)
    (hf : s.fullest = none) :
    Returns (placeAll c.shape (c.blocks m)) s fun _ s' =>
      Swept m c idle s' ∧ s'.available.first = fullest? m c (c.blocks m) := by
  have hfirst : Meets (placeAll c.shape (c.blocks m)) s
      (fun _ s' => s'.available.first = fullest? m c (c.blocks m)) fun _ _ => True := by
    rw [placeAll]
    simp only [meets_bind, meets_modify]
    refine (meets_forM (I := fun done todo s => done ++ todo = c.blocks m ∧
      (∃ av, Sorted m c idle done av s) ∧ s.fullest = fullest? m c done) ⟨rfl, ⟨av, h⟩, hf⟩
      ?_).mono ?_ fun _ _ => id
    · rintro done x todo t ⟨hl, ⟨av, ht⟩, hf⟩
      have hblocks : done ++ [x] ⊆ c.blocks m := by rw [← hl]; simp
      refine ((place_returns hk hl hnd hidle ht).and (place_fullest ht hblocks hf)).mono ?_
        fun _ _ _ => trivial
      rintro - t' ⟨ht', hf'⟩
      exact ⟨by simpa using hl, ht', hf'⟩
    · rintro - t ⟨-, ⟨av, ht⟩, hf⟩
      exact finish_fullest ht hf
  exact ((placeAll_returns hk hnd hidle h).and hfirst).mono (fun _ _ => id) fun _ _ hf => hf.1

/-- Every block is on one list afterwards, on which it is once. -/
theorem Swept.blocks_perm (h : Swept m c idle s) :
    ((s.result c).blocks s.memory ++ s.free.toList s.memory).Perm (c.blocks m ++ idle.toList m) := by
  have hsplit := List.filter_append_perm (isDead m c) (c.blocks m)
  have hkept := h.sorted.blocks_perm
  rw [h.released, List.perm_iff_count]
  intro b
  have h1 := hsplit.count_eq b
  have h2 := hkept.count_eq b
  simp only [List.count_append, List.count_reverse] at h1 h2 ⊢
  omega

end Sweep

end SlabHeap
