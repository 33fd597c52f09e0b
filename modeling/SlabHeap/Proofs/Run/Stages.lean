/-
  What a step of a run can be.

  A whole operation that ended leaves blocks alone, or is a collection, a write, or an
  allocation in a cache of a heap whose blocks were left alone (`Ends.stages`).  What
  holds after every step is then a matter of these four.

  Operations that allocate nothing leave the frame of the arena as it is (`Ends.frame`), so
  that what holds of the frame is a matter of allocations alone (`Ends.allocation`).
-/
import SlabHeap.Proofs.Heap.Shapes
import SlabHeap.Proofs.Heap.Stages
import SlabHeap.Proofs.Run.History

namespace SlabHeap

variable {tagging : Tagging} {h h' : Heap} {op : Operation} {r : Option Word}

/-- The position of the cache for objects of `size` words with `pointers` pointer fields, which
    comes behind the others if it is still to be added. -/
def Arena.position (a : Arena) (size pointers : Nat) : Nat :=
  (a.cacheIndex? size pointers).getD a.caches.length

theorem Heap.resolveCache_position {size pointers : Nat} : Meets (resolveCache size pointers) h
    (fun index _ => index = h.arena.position size pointers) fun _ _ => True := by
  rw [resolveCache, Arena.position]
  simp only [meets_bind, meets_get]
  cases h.arena.cacheIndex? size pointers with
  | some index => rfl
  | none =>
    simp only [meets_lift, meets_bind, tell, modifyArena, meets_modify, meets_pure]
    exact ⟨fun _ _ => rfl, fun _ _ => trivial⟩

namespace Operation

/-- The position of the cache that an operation allocates in. -/
def cache? (h : Heap) : Operation → Option Nat
  | .allocate index _ => some index
  | .allocateWords size pointers _ => some (h.arena.position size pointers)
  | .allocateBytes bytes _ =>
    (wordsForBytes bytes minByteWords).toOption.map fun words => h.arena.position words 0
  | _ => none

/-- The operations that allocate, or find the cache to allocate in. -/
def IsAllocation : Operation → Prop
  | .resolve _ _ => True
  | .find _ _ _ => True
  | .allocate _ _ => True
  | .allocateWords _ _ _ => True
  | .allocateBytes _ _ => True
  | _ => False

theorem IsAllocation.fits (ha : op.IsAllocation) : op.Fits h := by
  cases op with
  | write object field w => exact ha.elim
  | setUsed object => exact ha.elim
  | _ => trivial

theorem IsAllocation.isWhole (ha : op.IsAllocation) : op.IsWhole := by
  cases op with
  | clearUsed => exact ha.elim
  | mark roots => exact ha.elim
  | sweep => exact ha.elim
  | setUsed object => exact ha.elim
  | _ => trivial

/-- The operation `op` went from `h` to `h'` and returned `r`, and this is what it did. -/
inductive Stages (tagging : Tagging) (op : Operation) (h : Heap) : Option Word → Heap → Prop
  | idle {h' : Heap} : op.IsAllocation → h.Undisturbed h' → Stages tagging op h none h'
  | allocated {index : Nat} {w : Word} {h₁ h' : Heap} : op.IsAllocation →
    op.cache? h = some index → h₁.Sound [] 0 → h.Undisturbed h₁ →
    Heap.allocate tagging op.roots index h₁ = .ok w h' → Stages tagging op h (some w) h'
  | collected {roots : List Word} {h' : Heap} : op = .collect roots →
    Heap.collect tagging roots h = .ok () h' → Stages tagging op h none h'
  | wrote {object w : Word} {field : Nat} : op = .write object field w →
    Stages tagging op h none { h with memory := h.memory.setField object field w }

theorem stages_of_allocateWords {size pointers : Nat} {w : Word} (hs : h.Sound [] 0)
    (ha : op.IsAllocation) (hcache : op.cache? h = some (h.arena.position size pointers))
    (he : Heap.allocateWords tagging op.roots size pointers h = .ok w h') :
    op.Stages tagging h (some w) h' := by
  obtain ⟨index, h₁, hresolve, hallocate⟩ := Heap.allocateWords_stages.of_ok he
  obtain ⟨hs₁, hu, -⟩ := (Heap.resolveCache_meets hs).of_ok hresolve
  obtain rfl := Heap.resolveCache_position.of_ok hresolve
  exact .allocated ha hcache hs₁ hu hallocate

theorem run_stages (hs : h.Sound [] 0) (hwhole : op.IsWhole) :
    Meets (op.run tagging) h (fun r h' => op.Stages tagging h r h')
      fun fault h' => fault.IsFatal ∨ op.Stages tagging h none h' := by
  have hT := tagging.reads_any
  cases op with
  | resolve size pointers =>
    simp only [run, meets_bind, meets_pure]
    refine (Heap.resolveCache_meets hs).mono (fun index h' hr => .idle trivial hr.2.1) ?_
    rintro fault h' rfl
    exact .inr (.idle trivial (.refl _))
  | find remembered size pointers =>
    simp only [run, meets_bind, meets_pure]
    refine (Heap.findCache_meets hs).mono (fun index h' hr => .idle trivial hr.2) ?_
    rintro fault h' rfl
    exact .inr (.idle trivial (.refl _))
  | allocate index roots =>
    simp only [run, meets_bind, meets_pure]
    refine (meets_self.and (Heap.allocate_meets hT hs)).mono ?_ ?_
    · exact fun w h' he => .allocated trivial rfl hs (.refl h) he.1
    · exact fun fault h' hf => hf.2.imp_right fun hu => .idle trivial hu.2.1
  | allocateWords size pointers roots =>
    simp only [run, meets_bind, meets_pure]
    refine (meets_self.and (Heap.allocateWords_meets hT hs)).mono ?_ ?_
    · exact fun w h' he => stages_of_allocateWords hs trivial rfl he.1
    · exact fun fault h' hf => hf.2.imp_right fun hu => .idle trivial hu.2
  | allocateBytes bytes roots =>
    simp only [run, meets_bind, meets_pure]
    refine (meets_self.and (Heap.allocateBytes_meets hT hs)).mono ?_ ?_
    · rintro w h' ⟨he, -⟩
      obtain ⟨words, hwords, he'⟩ := Heap.allocateBytes_stages.of_ok he
      exact stages_of_allocateWords hs trivial (by rw [cache?, hwords]; rfl) he'
    · exact fun fault h' hf => hf.2.imp_right fun hu => .idle trivial hu.2
  | collect roots =>
    simp only [run, meets_bind, meets_pure]
    refine (meets_self.and (Heap.collect_meets hT hs)).mono ?_ ?_
    · exact fun _ h' he => .collected rfl he.1
    · exact fun fault h' hf => .inl (Fault.isFatal_of_collect hf.2)
  | write object field w =>
    simp only [run, meets_bind, meets_modify, meets_pure]
    exact .wrote rfl
  | clearUsed => exact hwhole.elim
  | mark roots => exact hwhole.elim
  | sweep => exact hwhole.elim
  | setUsed object => exact hwhole.elim

theorem Ends.stages (he : op.Ends tagging h r h') (hs : h.Sound [] 0) (hwhole : op.IsWhole) :
    op.Stages tagging h r h' := by
  cases he with
  | returned he => exact (run_stages hs hwhole).of_ok he
  | failed he hf => exact ((run_stages hs hwhole).of_error he).resolve_left hf

/-- An allocation that ended found a cache at most, or allocated in one. -/
theorem Ends.allocation (he : op.Ends tagging h r h') (hs : h.Sound [] 0) (ha : op.IsAllocation) :
    (r = none ∧ h.Undisturbed h') ∨ ∃ index w h₁, r = some w ∧ op.cache? h = some index ∧
      h₁.Sound [] 0 ∧ h.Undisturbed h₁ ∧ Heap.allocate tagging op.roots index h₁ = .ok w h' := by
  cases he.stages hs ha.isWhole with
  | idle _ hu => exact .inl ⟨rfl, hu⟩
  | allocated _ hcache hs₁ hu he => exact .inr ⟨_, _, _, rfl, hcache, hs₁, hu, he⟩
  | collected hop _ =>
    subst hop
    exact ha.elim
  | wrote hop =>
    subst hop
    exact ha.elim

/-! ## The frame -/

theorem keepsFrame (ha : ¬ op.IsAllocation) : Heap.KeepsFrame (op.run tagging) h := by
  cases op with
  | collect roots => exact Heap.keepsFrame_collect.bind fun _ _ => rfl
  | clearUsed => exact Heap.keepsFrame_clearUsed.bind fun _ _ => rfl
  | mark roots => exact Heap.keepsFrame_mark.bind fun _ _ => rfl
  | sweep => exact Heap.keepsFrame_sweep.bind fun _ _ => rfl
  | setUsed object => exact Heap.keepsFrame_onMemory.bind fun _ _ => rfl
  | write object field w => rfl
  | resolve size pointers => exact absurd trivial ha
  | find remembered size pointers => exact absurd trivial ha
  | allocate index roots => exact absurd trivial ha
  | allocateWords size pointers roots => exact absurd trivial ha
  | allocateBytes bytes roots => exact absurd trivial ha

theorem Ends.frame (he : op.Ends tagging h r h') (ha : ¬ op.IsAllocation) :
    h'.arena.frame = h.arena.frame := by
  cases he with
  | returned he => exact (keepsFrame ha).of_ok he
  | failed he _ => exact (keepsFrame ha).of_error he

end Operation

end SlabHeap
