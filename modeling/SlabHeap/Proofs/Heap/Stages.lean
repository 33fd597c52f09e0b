/-
  The stages of operations that ended.

  `CollectStages`, `AcquireStages` and `AllocateStages` say which operations ran, one after
  the other and in which states, when a collection, an acquisition of a block or an
  allocation returned.  What these operations do is then a matter of what their stages do,
  without another look at the code that runs them.
-/
import SlabHeap.Proofs.Action
import SlabHeap.Heap.Allocation

namespace SlabHeap.Heap

variable {tagging : Tagging} {roots : List Word} {h h' : Heap} {index : Nat} {b w : Word}

/-- The heap `h'` is `h` but for its journal. -/
def SameButJournal (h h' : Heap) : Prop := h'.memory = h.memory ∧ h'.arena = h.arena

/-! ## Collections -/

/-- The heap with one collection more. -/
def countCollection (h : Heap) : Heap :=
  { h with arena := { h.arena with counters := { h.arena.counters with
      collections := h.arena.counters.collections + 1 } } }

/-- A collection of `h` clears, marks and sweeps, and is counted. -/
inductive CollectStages (tagging : Tagging) (roots : List Word) (h : Heap) : Heap → Prop
  | swept {h₁ h₂ h₃ h' : Heap} {freed : Nat} : clearUsed h = .ok () h₁ →
    mark tagging roots h₁ = .ok () h₂ → sweep h₂ = .ok freed h₃ →
    h₃.countCollection.SameButJournal h' → CollectStages tagging roots h h'

theorem collect_stages : Meets (collect tagging roots) h
    (fun _ h' => CollectStages tagging roots h h') fun _ _ => True := by
  rw [collect]
  simp only [meets_bind, meets_get]
  refine meets_self.mono (fun _ h₁ hclear => ?_) fun _ _ _ => trivial
  refine meets_self.mono (fun _ h₂ hmark => ?_) fun _ _ _ => trivial
  refine meets_self.mono (fun freed h₃ hsweep => ?_) fun _ _ _ => trivial
  have hend : ∀ events collections,
      Count.add h₃.arena.counters.collections 1 = .ok collections →
      CollectStages tagging roots h { h₃ with
        events := events
        arena := { h₃.arena with counters := { h₃.arena.counters with collections } } } := by
    intro events collections hadd
    obtain ⟨-, rfl⟩ := Count.add_eq_ok.1 hadd
    exact .swept hclear hmark hsweep ⟨rfl, rfl⟩
  simp only [tell, modifyCounters, modifyArena, meets_bind, meets_modify, meets_ite, meets_lift]
  refine ⟨fun _ => ⟨fun event _ => ⟨?_, fun _ _ => trivial⟩, fun _ _ => trivial⟩,
    fun _ => ⟨?_, fun _ _ => trivial⟩⟩
  · exact hend _
  · exact hend _

/-! ## Acquisitions -/

/-- The heap with one block more that counts as in use. -/
def countBlock (h : Heap) : Heap :=
  { h with arena := { h.arena with blocksInUse := h.arena.blocksInUse + 1 } }

/-- The ways in which a block is acquired from `h`, where it counts as in use already: it
    is one without an owner, or it is sliced, after a collection if the threshold is
    reached. -/
inductive AcquireStages (tagging : Tagging) (roots : List Word) (h : Heap) : Word → Heap → Prop
  | reused {b : Word} {h₁ h' : Heap} : takeFreeBlock h = .ok (some b) h₁ →
    h₁.SameButJournal h' → AcquireStages tagging roots h b h'
  | sliced {b : Word} {h' : Heap} : takeFreeBlock h = .ok none h →
    h.arena.blocksInUse < h.arena.threshold → sliceBlock h = .ok b h' →
    AcquireStages tagging roots h b h'
  | collected {b : Word} {h₁ h₂ h' : Heap} : takeFreeBlock h = .ok none h →
    h.arena.threshold ≤ h.arena.blocksInUse → collect tagging roots h = .ok () h₁ →
    adjustThreshold h₁ = .ok () h₂ → sliceBlock h₂ = .ok b h' →
    AcquireStages tagging roots h b h'

/-- Without a block to take, nothing changes. -/
theorem takeFreeBlock_none (he : takeFreeBlock h = .ok none h') : h' = h := by
  have htake : Meets takeFreeBlock h (fun r h' => r = none → h' = h) fun _ _ => True := by
    rw [takeFreeBlock]
    simp only [meets_bind, meets_get]
    cases h.arena.free.pop? h.memory with
    | none => exact fun _ => rfl
    | some popped =>
      simp only [meets_bind, meets_set, meets_pure]
      exact nofun
  exact htake.of_ok he rfl

theorem acquireBlock_stages : Meets (acquireBlock tagging roots) h
    (fun b h' => AcquireStages tagging roots h.countBlock b h') fun _ _ => True := by
  rw [acquireBlock]
  simp only [meets_bind, meets_get, meets_lift, modifyArena, meets_modify]
  refine ⟨fun inUse hinUse => ?_, fun _ _ => trivial⟩
  obtain ⟨-, rfl⟩ := Count.add_eq_ok.1 hinUse
  refine (meets_self (s := h.countBlock)).mono (fun r h₁ htake => ?_) fun _ _ _ => trivial
  cases r with
  | some b =>
    simp only [tell, meets_bind, meets_modify, meets_pure]
    exact .reused htake ⟨rfl, rfl⟩
  | none =>
    obtain rfl := takeFreeBlock_none htake
    simp only [meets_bind, meets_get, meets_ite]
    refine ⟨fun hle => ?_, fun hlt => ?_⟩
    · refine meets_self.mono (fun _ h₂ hcollect => ?_) fun _ _ _ => trivial
      refine meets_self.mono (fun _ h₃ hadjust => ?_) fun _ _ _ => trivial
      exact meets_self.mono (fun b h' => .collected htake hle hcollect hadjust) fun _ _ _ => trivial
    · exact meets_self.mono (fun b h' => .sliced htake (Nat.lt_of_not_le hlt)) fun _ _ _ => trivial

/-! ## Allocations -/

/-- The heap with one object more that counts as allocated. -/
def countObject (h : Heap) : Heap :=
  { h with arena := { h.arena with counters := { h.arena.counters with
      objectsAllocated := h.arena.counters.objectsAllocated + 1 } } }

/-- The ways in which the cache at `index` allocates in `h`, where the object counts
    already: in an available block, or in one that is acquired. -/
inductive AllocateStages (tagging : Tagging) (roots : List Word) (index : Nat) (h : Heap) :
    Word → Heap → Prop
  | available {w : Word} {h' : Heap} : onCache index Cache.takeSlot h = .ok (some w) h' →
    AllocateStages tagging roots index h w h'
  | acquired {b w : Word} {h₁ h₂ h' : Heap} : onCache index Cache.takeSlot h = .ok none h₁ →
    acquireBlock tagging roots h₁ = .ok b h₂ → onCache index (Cache.adopt b) h₂ = .ok w h' →
    AllocateStages tagging roots index h w h'

theorem allocate_stages : Meets (allocate tagging roots index) h
    (fun w h' => AllocateStages tagging roots index h.countObject w h') fun _ _ => True := by
  rw [allocate]
  simp only [meets_bind, meets_get, meets_lift, modifyCounters, modifyArena, meets_modify]
  refine ⟨fun allocated hallocated => ?_, fun _ _ => trivial⟩
  obtain ⟨-, rfl⟩ := Count.add_eq_ok.1 hallocated
  refine (meets_self (s := h.countObject)).mono (fun r h₁ htake => ?_) fun _ _ _ => trivial
  cases r with
  | some w => exact .available htake
  | none =>
    simp only [meets_bind]
    refine meets_self.mono (fun b h₂ hacquire => ?_) fun _ _ _ => trivial
    exact meets_self.mono (fun w h' => .acquired htake hacquire) fun _ _ _ => trivial

theorem allocateWords_stages {size pointers : Nat} :
    Meets (allocateWords tagging roots size pointers) h
      (fun w h' => ∃ index h₁, resolveCache size pointers h = .ok index h₁ ∧
        allocate tagging roots index h₁ = .ok w h') fun _ _ => True := by
  rw [allocateWords]
  simp only [meets_bind]
  refine meets_self.mono (fun index h₁ hresolve => ?_) fun _ _ _ => trivial
  exact meets_self.mono (fun w h' hallocate => ⟨index, h₁, hresolve, hallocate⟩)
    fun _ _ _ => trivial

theorem allocateBytes_stages {bytes : Nat} : Meets (allocateBytes tagging roots bytes) h
    (fun w h' => ∃ words, wordsForBytes bytes minByteWords = .ok words ∧
      allocateWords tagging roots words 0 h = .ok w h') fun _ _ => True := by
  rw [allocateBytes]
  simp only [meets_bind, meets_lift]
  refine ⟨fun words hwords => ?_, fun _ _ => trivial⟩
  exact meets_self.mono (fun w h' hallocate => ⟨words, hwords, hallocate⟩) fun _ _ _ => trivial

end SlabHeap.Heap
