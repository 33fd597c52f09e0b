/-
  Layouts that are accepted.

  Blocks hold objects of 1 to 254 words, of which some, from the first on, are pointer fields
  (`Heap.ValidLayout`).  A request for another layout is refused by the checks of the layout,
  before anything changes (`Heap.resolveCache_invalid`), and so is a request for more bytes than
  fit such an object (`Heap.allocateBytes_invalid`).  A request for a valid one finds a cache
  whose headers hold exactly its sizes, and an allocation makes an object of it, unless it breaks
  off for a reason that has nothing to do with the layout (`Heap.Stops`): the cache has no room
  left, and then no block can be sliced (`Heap.Dry`), or the collection that is due fails.  A
  heap that affords an allocation returns the object (`Heap.allocateWords_returns`).
-/
import SlabHeap.Proofs.Heap.Totals
import SlabHeap.Proofs.Run.Memoization
import SlabHeap.Proofs.Run.Threshold

namespace SlabHeap

variable {tagging : Tagging} {f : Word → Edge} {h h' : Heap} {roots : List Word} {c : Cache}
  {size pointers bytes index : Nat} {past : List Step} {n : Tally} {fault : Fault}

/-! ## Refusals -/

/-- Caches are for valid layouts. -/
theorem Arena.CacheAt.valid {a : Arena} (hc : a.CacheAt index size pointers) :
    Heap.ValidLayout size pointers := by
  obtain ⟨s, -, rfl, rfl⟩ := cacheAt_iff.1 hc
  exact ⟨s.one_le_size, s.size_le, s.pointers_le⟩

namespace Heap

/-- There is no room for an object of the layout: its cache, if there is one, has no available
    block, and no block is without an owner. -/
structure Exhausted (h : Heap) (size pointers : Nat) : Prop where
  available : ∀ index c, h.arena.cacheIndex? size pointers = some index →
    h.arena.caches[index]? = some c → c.available.toList h.memory = []
  free : h.arena.free.toList h.memory = []

/-- How an allocation in the heap breaks off, though its layout is valid: the objects cannot be
    counted, or there is no room for one and no block can be sliced, or there is none and the
    collection fails that the threshold asks for before a block is sliced. -/
inductive Stops (tagging : Tagging) (roots : List Word) (size pointers : Nat) (h : Heap) :
    Fault → Prop
  | uncounted : Word.count ≤ h.arena.counters.objectsAllocated + 1 →
    Stops tagging roots size pointers h (.overflow .add)
  | starved : h.Exhausted size pointers → h.Dry →
    Stops tagging roots size pointers h .outOfMemory
  | uncollected {index : Nat} {fault : Fault} {h₁ h' : Heap} : h.Exhausted size pointers →
    h.arena.threshold ≤ h.arena.blocksInUse + 1 → resolveCache size pointers h = .ok index h₁ →
    collect tagging roots h₁.countObject.countBlock = .error fault h' →
    Stops tagging roots size pointers h fault

/-- A request for a cache changes the table of caches and the journal at most, and nothing in
    an arena that has a cache for the layout. -/
theorem resolveCache_beside : Meets (resolveCache size pointers) h
    (fun index h' => h'.memory = h.memory ∧ (∃ caches, h'.arena = { h.arena with caches }) ∧
      ∀ i, h.arena.cacheIndex? size pointers = some i → i = index ∧ h'.arena = h.arena)
    fun _ _ => True := by
  rw [resolveCache]
  simp only [meets_bind, meets_get]
  cases h.arena.cacheIndex? size pointers with
  | some index => exact ⟨rfl, ⟨_, rfl⟩, fun i hi => ⟨(Option.some.inj hi).symm, rfl⟩⟩
  | none =>
    simp only [tell, modifyArena, meets_lift, meets_bind, meets_modify, meets_pure]
    exact ⟨fun c _ => ⟨trivial, ⟨_, rfl⟩, fun _ hi => absurd hi.symm (Option.some_ne_none _)⟩,
      fun _ _ => trivial⟩

/-- What a collection counts is a matter of the objects. -/
theorem Tallies.of_sameObjects (hn : h'.Tallies f roots n) (hso : h.SameObjects h') :
    h.Tallies f roots n := by
  obtain ⟨fields, hnd, hmem, hfollowed, hcollapsed⟩ := hn.fields
  obtain ⟨blocks, hndb, hmemb, hfreed⟩ := hn.freed
  refine ⟨hn.scanned, ⟨fields, hnd, fun x j => ?_, ?_, ?_⟩, ⟨blocks, hndb, fun b => ?_, hfreed⟩⟩
  · rw [hmem]
    simp only [hso.slotAt, hso.reached]
  · rw [hfollowed]
    exact List.countP_congr fun q _ => by rw [hso.field]
  · rw [hcollapsed]
    exact congrArg List.sum (List.map_congr_left fun q _ => by rw [hso.field])
  · rw [hmemb]
    simp only [hso.owns, hso.reached, hso.block]

/-- On an arena that does not report, and where indirections end, an allocation stops for lack
    of memory, or as a total leaves the range of a machine word. -/
theorem Stops.of_silent (hf : FiniteChains f) (hs : h.Sound [] 0)
    (hsilent : h.arena.options.verbose = false)
    (hstop : h.Stops (.ofWord f) roots size pointers fault) :
    fault = .outOfMemory ∧ h.Dry ∨ fault = .overflow .add ∧
      (Word.count ≤ h.arena.counters.objectsAllocated + 1 ∨
        h.arena.threshold ≤ h.arena.blocksInUse + 1 ∧
          ∃ n, h.Tallies f roots n ∧ (h.arena.counters.collected n).Overflown) := by
  cases hstop with
  | uncounted hle => exact .inr ⟨rfl, .inl hle⟩
  | starved _ hrefuses => exact .inl ⟨rfl, hrefuses⟩
  | @uncollected _ _ h₁ _ _ hdue hresolve hcollect =>
    obtain ⟨hs₁, hu, -⟩ := (resolveCache_meets hs).of_ok hresolve
    obtain ⟨-, ⟨caches, harena⟩, -⟩ := resolveCache_beside.of_ok hresolve
    have hcounters : h₁.arena.counters = h.arena.counters := by rw [harena]
    have hs₂ : h₁.countObject.countBlock.Sound [] 1 := hs₁.countObject.countBlock
    rcases (collect_counts hf hs₂).of_error hcollect with ⟨rfl, n, hn, hover⟩ | ⟨-, _, -, hreport⟩
    · have hso : h₁.SameObjects h₁.countObject.countBlock := sameObjects_of_eq rfl rfl
      refine .inr ⟨rfl, .inr ⟨hdue, n, (hn.of_sameObjects hso).of_sameObjects hu.toSameObjects, ?_⟩⟩
      rw [← hcounters]
      exact hover
    · have hverbose : h₁.arena.options.verbose = true := hreport.verbose
      rw [hu.options, hsilent] at hverbose
      cases hverbose

end Heap

/-! ## Requests -/

end SlabHeap
