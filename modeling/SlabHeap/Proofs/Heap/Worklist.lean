/-
  What becomes pending in a marking, and what is taken.

  `Marking.Log` follows a marking scan by scan: a scan of a root or of an object puts
  objects in front of those that are pending, and a scan of an object takes the first one
  before.  Every marking that ends has such a log (`run_log`).

  At every moment of a log the objects that became pending are those that are pending and
  those that were taken (`Log.perm`).  They are different slots with pointer fields that were
  not in use when the marking started (`Log.nodup`, `Log.subset_unscanned`), so no more
  objects are taken than there are such slots (`Log.length_popped_le`).
-/
import SlabHeap.Proofs.Heap.Collection

namespace SlabHeap

variable {tagging : Tagging} {may must : Word → Word → Prop} {a : Arena} {m : Memory} {due : Nat}
  {x y w : Word} {j : Nat} {roots todo pushed popped : List Word}

/-! ## Slots to scan -/

/-- The slots with pointer fields that are not in use. -/
def Arena.unscanned (a : Arena) (m : Memory) : List Word :=
  (a.caches.filter (·.shape.pointers != 0)).flatMap fun c => (c.blocks m).flatMap fun b =>
    ((List.range c.shape.slots).filter fun i => !(m.block b).bitmap.bit i).map
      ((m.block b).slotAddress b)

theorem Arena.Unscanned.mem (h : a.Sound m [] due) (hx : a.Unscanned m x) :
    x ∈ a.unscanned m := by
  obtain ⟨hclear, s, base, i, hslot, hptr⟩ := hx
  obtain ⟨c, hc, rfl, hb⟩ := hslot.owner
  rw [marked_iff h hslot] at hclear
  simp only [unscanned, List.mem_flatMap, List.mem_filter, List.mem_map, List.mem_range]
  exact ⟨c, ⟨hc, by simpa using hptr⟩, base, hb, i, ⟨hslot.lt, by simpa using hclear⟩,
    hslot.address.symm⟩

namespace Marking

variable {s s' : Marking}

/-! ## Logs -/

/-- A marking that started in `m` has come to a state: the roots `todo` are still to be
    scanned, and of the objects `pushed`, which became pending, those of `popped` were
    taken.  Both lists have the latest object first. -/
inductive Log (a : Arena) (tagging : Tagging) (m : Memory) (roots : List Word) :
    List Word → List Word → List Word → Marking → Prop
  | start : Log a tagging m roots roots [] [] (start m)
  | root {r : Word} {todo pushed popped new : List Word} {s s' : Marking} :
    Log a tagging m roots (r :: todo) pushed popped s →
    scanRoot a tagging r s = .ok ⟨⟩ s' → s'.pending = new ++ s.pending →
    Log a tagging m roots todo (new ++ pushed) popped s'
  | object {x : Word} {pushed popped rest new : List Word} {s s' : Marking} :
    Log a tagging m roots [] pushed popped s → s.pending = x :: rest →
    scanObject a tagging x { s with pending := rest } = .ok ⟨⟩ s' → s'.pending = new ++ rest →
    Log a tagging m roots [] (new ++ pushed) (x :: popped) s'

/-! ### Scans put objects in front -/

theorem visit_pending : Meets (visit a y) s (fun _ s' => s.pending <:+ s'.pending)
    fun _ _ => True := by
  rw [visit]
  simp only [meets_bind, meets_get]
  cases a.objectAt? s.memory y with
  | none => exact List.suffix_rfl
  | some slot =>
    simp only [meets_bind, meets_onBlock]
    refine meets_trivial.mono (fun scan b' _ => ?_) fun _ _ => id
    cases scan with
    | true => exact List.suffix_cons ..
    | false => exact List.suffix_rfl

theorem scanRoot_pending : Meets (scanRoot a tagging w) s (fun _ s' => s.pending <:+ s'.pending)
    fun _ _ => True := by
  rw [scanRoot]
  simp only [meets_bind, meets_get, meets_lift]
  refine ⟨fun o _ => ?_, fun _ _ => trivial⟩
  cases o with
  | none => exact List.suffix_rfl
  | some y => exact visit_pending

theorem collapseWithin_pending {fuel : Nat} : ∀ {w : Word} {s : Marking},
    Meets (collapseWithin tagging x j fuel w) s (fun _ s' => s'.pending = s.pending)
      fun _ _ => True := by
  induction fuel with
  | zero => exact fun {_ _} => trivial
  | succ fuel ih =>
    intro w s
    rw [collapseWithin]
    simp only [meets_bind, meets_get]
    cases tagging.classify s.memory w with
    | immediate => rfl
    | object y => rfl
    | indirection t =>
      simp only [meets_bind, meets_modify]
      exact ih

theorem scanField_pending : Meets (scanField a tagging x j) s
    (fun _ s' => s.pending <:+ s'.pending) fun _ _ => True := by
  rw [scanField]
  simp only [meets_bind, meets_get]
  refine collapseWithin_pending.mono (fun o t ht => ?_) fun _ _ => id
  cases o with
  | none => exact ht ▸ List.suffix_rfl
  | some y =>
    simp only [meets_bind, meets_modify]
    exact visit_pending.mono (fun _ t' ht' => ht ▸ ht') fun _ _ => id

theorem scanObject_pending : Meets (scanObject a tagging x) s
    (fun _ s' => s.pending <:+ s'.pending) fun _ _ => True := by
  rw [scanObject]
  simp only [meets_bind, meets_get]
  refine meets_forM_range (I := fun _ (t : Marking) => s.pending <:+ t.pending) List.suffix_rfl ?_
  intro j t _ ht
  exact scanField_pending.mono (fun _ t' ht' => ht.trans ht') fun _ _ => id

/-! ### Every marking has a log -/

theorem scanPending_log : ∀ {fuel : Nat} {pushed popped : List Word} {s : Marking},
    Log a tagging m roots [] pushed popped s →
    Meets (scanPending a tagging fuel) s
      (fun _ s' => s'.pending = [] ∧ ∃ pushed popped, Log a tagging m roots [] pushed popped s')
      fun _ _ => True := by
  intro fuel
  induction fuel with
  | zero => exact fun _ => trivial
  | succ fuel ih =>
    intro pushed popped s hlog
    rw [scanPending]
    simp only [meets_bind, meets_get]
    cases hpend : s.pending with
    | nil => exact ⟨hpend, pushed, popped, hlog⟩
    | cons x rest =>
      simp only [meets_bind, meets_modify]
      refine (meets_self.and scanObject_pending).mono ?_ fun _ _ _ => trivial
      rintro ⟨⟩ t ⟨hscan, new, hnew⟩
      exact ih (hlog.object hpend hscan hnew.symm)

theorem run_log : Meets (run a tagging roots) (Marking.start m)
    (fun _ s' => s'.pending = [] ∧ ∃ pushed popped, Log a tagging m roots [] pushed popped s')
    fun _ _ => True := by
  rw [run]
  simp only [meets_bind]
  refine (meets_forM (I := fun _ todo s => ∃ pushed, Log a tagging m roots todo pushed [] s)
    ⟨[], .start⟩ ?_).mono ?_ fun _ _ => id
  · rintro - r todo s ⟨pushed, hlog⟩
    refine (meets_self.and scanRoot_pending).mono ?_ fun _ _ _ => trivial
    rintro ⟨⟩ t ⟨hscan, new, hnew⟩
    exact ⟨_, hlog.root hscan hnew.symm⟩
  · rintro - s ⟨pushed, hlog⟩
    exact scanPending_log hlog

/-! ### What a log tells -/

namespace Log

variable (hlog : Log a tagging m roots todo pushed popped s)
include hlog

theorem perm : pushed.Perm (s.pending ++ popped) := by
  induction hlog with
  | start => exact .refl _
  | root _ _ hpend ih =>
    rw [hpend, List.append_assoc]
    exact ih.append_left _
  | @object x pushed popped rest new _ _ _ htake _ hpend ih =>
    rw [htake] at ih
    rw [hpend, List.append_assoc]
    exact (ih.trans List.perm_middle.symm).append_left _

theorem todo_suffix : todo <:+ roots := by
  induction hlog with
  | start => exact List.suffix_rfl
  | root _ _ _ ih => exact (List.suffix_cons ..).trans ih
  | object _ _ _ _ ih => exact ih

variable (h : a.Sound m [] due) (hr : tagging.Reads may must)
include h hr

/-- The objects that were taken are those that are done. -/
theorem progress : ∃ seen, Progress tagging may must a m roots popped seen s := by
  induction hlog with
  | start => exact ⟨∅, .start h⟩
  | root hlog hscan _ ih =>
    obtain ⟨seen, hp⟩ := ih
    have hmem := hlog.todo_suffix.subset (List.mem_cons_self ..)
    exact ⟨_, (scanRoot_meets h hr hp hmem).of_ok hscan⟩
  | @object x _ _ _ _ _ _ _ htake hscan _ ih =>
    obtain ⟨seen, hp⟩ := ih
    have hreach := (hp.queued x (by simp [htake])).2
    obtain ⟨sh, base, i, hx⟩ := hreach.slotAt
    obtain ⟨seen', -, -, hp'⟩ := (scanObject_meets h hr (hp.take htake) hx hreach).of_ok hscan
    exact ⟨seen', hp'⟩

/-- No object becomes pending twice. -/
theorem nodup : pushed.Nodup := by
  obtain ⟨seen, hp⟩ := hlog.progress h hr
  exact hlog.perm.nodup_iff.2 hp.nodup

theorem subset_unscanned : pushed ⊆ a.unscanned m := by
  obtain ⟨seen, hp⟩ := hlog.progress h hr
  intro x hx
  exact (hp.unscanned x (hlog.perm.subset hx)).mem h

theorem length_popped_le : popped.length ≤ (a.unscanned m).length := by
  have hlen := hlog.perm.length_eq
  have hle := (hlog.nodup h hr).subperm (hlog.subset_unscanned h hr)
  have := hle.length_le
  rw [List.length_append] at hlen
  omega

end Log

end Marking

end SlabHeap
