/-
  The operations that a program runs on its heap.

  `Operation.run` is the operation as an action, which returns an address if it
  allocates.  Its `Effect` is all that runs rely on: the heap stays sound, the blocks
  that caches take over are counted, blocks are on the lists that they belong on unless
  a collection is under way, and objects come and go by allocations and collections
  alone.  Every operation has its effect (`Operation.run_meets`).

  Where the system maps no memory for a block, that block counts as in use nevertheless, and
  the operation has the effect of one that has done no more (`Operation.run_ends`).  Valid
  operations fail in no other way, but for counts out of range, indirections without an end
  and blocks on a list that they do not belong on.
-/
import SlabHeap.Proofs.Heap.Allocation
import SlabHeap.Mutator.Handle

namespace SlabHeap

/-- An operation on a heap.  `find` carries what its call site remembers. -/
inductive Operation where
  | resolve (size pointers : Nat)
  | find (remembered : Option Nat) (size pointers : Nat)
  | allocate (index : Nat) (roots : List Word)
  | allocateWords (size pointers : Nat) (roots : List Word)
  | allocateBytes (bytes : Nat) (roots : List Word)
  | collect (roots : List Word)
  | clearUsed
  | mark (roots : List Word)
  | sweep
  | setUsed (object : Word)
  | write (object : Word) (field : Nat) (w : Word)

variable {tagging : Tagging} {may must : Word → Word → Prop} {h h' : Heap} {r : Option Word}
  {due : Nat}

namespace Operation

/-- The operation as an action. -/
def run (tagging : Tagging) : Operation → Action Heap (Option Word)
  | resolve size pointers => do
    let _ ← Heap.resolveCache size pointers
    return none
  | find remembered size pointers => do
    let _ ← Heap.findCache remembered size pointers
    return none
  | allocate index roots => do
    return some (← Heap.allocate tagging roots index)
  | allocateWords size pointers roots => do
    return some (← Heap.allocateWords tagging roots size pointers)
  | allocateBytes bytes roots => do
    return some (← Heap.allocateBytes tagging roots bytes)
  | collect roots => do
    Heap.collect tagging roots
    return none
  | clearUsed => do
    Heap.clearUsed
    return none
  | mark roots => do
    Heap.mark tagging roots
    return none
  | sweep => do
    let _ ← Heap.sweep
    return none
  | setUsed object => do
    let _ ← Heap.onMemory (Handle.setUsed object)
    return none
  | write object field w => do
    modify fun h => { h with memory := h.memory.setField object field w }
    return none

/-- The roots that a collection uses, if the operation runs one. -/
def roots : Operation → List Word
  | allocate _ roots => roots
  | allocateWords _ _ roots => roots
  | allocateBytes _ roots => roots
  | collect roots => roots
  | mark roots => roots
  | _ => []

/-- The number of words that an allocation asks for. -/
def size? (h : Heap) : Operation → Option Nat
  | allocate index _ => (h.arena.caches[index]?).map (·.shape.size)
  | allocateWords size _ _ => some size
  | allocateBytes bytes _ => (wordsForBytes bytes minByteWords).toOption
  | _ => none

/-- An operation touches slots of the heap, and no other words. -/
def Fits (h : Heap) : Operation → Prop
  | setUsed object => ∃ s base i, h.arena.SlotAt h.memory s base i object
  | write object field _ => ∃ s base i, h.arena.SlotAt h.memory s base i object ∧ field < s.size
  | _ => True

/-- An operation asks for objects that blocks can hold, and for caches of the heap. -/
def Valid (h : Heap) : Operation → Prop
  | resolve size pointers => Heap.ValidLayout size pointers
  | find remembered size pointers => Heap.ValidLayout size pointers ∧
    ∀ index, remembered = some index →
      (h.arena.caches[index]?).any (·.holds size pointers) = true
  | allocate index _ => index < h.arena.caches.length
  | allocateWords size pointers _ => Heap.ValidLayout size pointers
  | allocateBytes bytes _ =>
    ∃ words, wordsForBytes bytes minByteWords = .ok words ∧ Heap.ValidLayout words 0
  | _ => True

/-- Tells whether the blocks of caches are on the lists that they belong on after an
    operation, given whether they are before it.  The phases of a collection leave that
    to the sweep. -/
def settled : Operation → Bool → Bool
  | collect _, _ => true
  | sweep, _ => true
  | clearUsed, _ => false
  | mark _, _ => false
  | setUsed _, _ => false
  | _, before => before

/-- The operations that are no phase of a collection. -/
def IsWhole : Operation → Prop
  | clearUsed => False
  | mark _ => False
  | sweep => False
  | setUsed _ => False
  | _ => True

/-- What an operation makes of the objects: a collection may take some of them, and an
    allocation adds one. -/
def Carries (may must : Word → Word → Prop) (op : Operation) (h : Heap) (r : Option Word)
    (h' : Heap) : Prop :=
  match r with
  | none => h.Passed may must op.roots h'
  | some w => ∃ s h₁, op.size? h = some s.size ∧ h.Passed may must op.roots h₁ ∧ h₁.Adds s w h'

/-- What an operation makes of a heap, if it returns `r`.  Of the blocks that count as in use,
    no cache owns `due` ones before and `due'` ones after it. -/
structure Effect (due due' : Nat) (may must : Word → Word → Prop) (op : Operation) (h : Heap)
    (r : Option Word) (h' : Heap) : Prop where
  sound : h'.Sound [] due'
  placed : ∀ before, (before = true → ∀ c ∈ h.arena.caches, c.Placed h.memory) →
    op.settled before = true → ∀ c ∈ h'.arena.caches, c.Placed h'.memory
  ledger : h'.arena.blocksInUse + h'.arena.counters.blocksFreed + due =
    h.arena.blocksInUse + h.arena.counters.blocksFreed + h.gained h' + due'
  objects : op.IsWhole → op.Carries may must h r h'

variable {op : Operation}

/-- Operations that leave all objects and lists alone. -/
theorem effect_of_undisturbed (hs : h'.Sound [] due) (hu : h.Undisturbed h')
    (hset : ∀ before, op.settled before = true → before = true) :
    op.Effect due due may must h none h' where
  sound := hs
  placed before hp hb := hu.placed (hp (hset before hb))
  ledger := by rw [hu.ledger, Heap.gained_eq_zero fun b => hu.mem_owned.1, Nat.add_zero]
  objects _ := .inl ⟨hu.collections, fun _ _ => hu.holds⟩

theorem effect_of_allocates {s : Shape} {w : Word} (hsize : op.size? h = some s.size)
    (ha : Heap.Allocates due may must op.roots h s w h')
    (hset : ∀ before, op.settled before = true → before = true) :
    op.Effect due due may must h (some w) h' where
  sound := ha.sound
  placed before hp hb := ha.placed (hp (hset before hb))
  ledger := congrArg (· + due) ha.ledger
  objects _ := by
    obtain ⟨h₁, hp, hadds⟩ := ha.object
    exact ⟨s, h₁, hsize, hp, hadds⟩

/-- Operations that change blocks from inside. -/
theorem effect_of_preserved {m' : Memory} (hs : h.Sound [] due)
    (hp : h.arena.Preserved h.memory m')
    (hset : ∀ before, op.settled before = true → before = true)
    (hbits : op.IsWhole ∨ op.settled true = true →
      ∀ b, (m'.block b).bitmap = (h.memory.block b).bitmap) :
    op.Effect due due may must h none { h with memory := m' } where
  sound := hp.sound hs
  placed before hplaced hb := by
    obtain rfl := hset before hb
    intro c hc
    refine (hplaced rfl c hc).congr (hp.sameLists hs hc) fun b hmem => ?_
    have ho : h.arena.Owns h.memory c.shape b := ⟨c, hc, rfl, hmem⟩
    rw [(hp.serves ho).room, hbits (.inr hb), (ho.serves hs).room]
  ledger := by
    rw [Heap.gained_eq_zero fun b hb => by rwa [hp.owned hs] at hb]
    rfl
  objects hwhole := by
    refine .inl ⟨rfl, fun s x => exists_congr fun base => exists_congr fun i => ?_⟩
    rw [hbits (.inl hwhole)]
    exact and_congr_left fun _ => hp.slotAt hs

/-- How an operation on `h` fails: a count overflows, an indirection leads nowhere, the system
    maps no memory, or the operation is not valid in a heap in order. -/
inductive Fails (tagging : Tagging) (may must : Word → Word → Prop) (due : Nat) (op : Operation)
    (h : Heap) : Fault → Heap → Prop
  | overflow {fault : Fault} {h' : Heap} : h.Overflows fault →
    Fails tagging may must due op h fault h'
  | diverges {fault : Fault} {h' : Heap} : fault.Diverges tagging →
    Fails tagging may must due op h fault h'
  | starved {h' : Heap} : op.Effect due (due + 1) may must h none h' →
    Fails tagging may must due op h .outOfMemory h'
  | refused {fault : Fault} {h' : Heap} : op.Effect due due may must h none h' →
    (op.Valid h → ¬ ∀ c ∈ h.arena.caches, c.Placed h.memory) →
    Fails tagging may must due op h fault h'

/-- An operation that broke off while it acquired a block. -/
theorem fails_of_halts {fault : Fault}
    (hf : Heap.Halts tagging may must due op.roots h fault h')
    (hset : ∀ before, op.settled before = true → before = true) :
    op.Fails tagging may must due h fault h' := by
  cases hf with
  | overflow hover => exact .overflow hover
  | diverges hdiverges => exact .diverges hdiverges
  | starved hs' ha =>
    refine .starved ⟨hs', fun before hp hb => ha.placed (hp (hset before hb)), ?_, fun _ =>
      ha.passed⟩
    rw [ha.ledger, Heap.gained_eq_zero ha.owned]
    omega

/-- An operation that was refused before it did anything. -/
theorem fails_of_undisturbed {fault : Fault} (hs : h'.Sound [] due) (hu : h.Undisturbed h')
    (hset : ∀ before, op.settled before = true → before = true)
    (hvalid : op.Valid h → ¬ ∀ c ∈ h.arena.caches, c.Placed h.memory) :
    op.Fails tagging may must due h fault h' :=
  .refused (effect_of_undisturbed hs hu hset) hvalid

/-! ## Phases -/

theorem clearUsed_returns (hs : h.Sound [] due) :
    Returns (run tagging clearUsed) h fun r h' => clearUsed.Effect due due may must h r h' := by
  simp only [Returns, run, meets_bind, meets_pure]
  refine (Heap.clearUsed_returns hs).meets ?_
  rintro - _ ⟨m', rfl, hp, -⟩
  refine effect_of_preserved hs hp (fun _ hset => absurd hset Bool.false_ne_true) ?_
  rintro (hwhole | hset)
  · exact hwhole.elim
  · exact absurd hset Bool.false_ne_true

theorem mark_ends {roots : List Word} (hs : h.Sound [] due) :
    Meets (run tagging (mark roots)) h (fun r h' => (mark roots).Effect due due may must h r h')
      fun fault h' => (mark roots).Fails tagging may must due h fault h' := by
  simp only [run, meets_bind, meets_pure]
  refine (Heap.mark_ends (Tagging.reads_any tagging) hs).mono ?_
    fun _ _ hf => hf.elim (fun he => .overflow (.inl he)) .diverges
  rintro - h' ⟨hmark, counters, harena, -, hfreed⟩
  have howned : h'.arena.owned h'.memory = h.arena.owned h.memory := by
    rw [← hmark.preserved.owned hs, harena]
    rfl
  refine ⟨?_, fun _ _ hset => absurd hset Bool.false_ne_true, ?_, False.elim⟩
  · have hs' := hmark.preserved.sound hs
    rw [Heap.Sound, harena]
    exact hs'.of_eq rfl rfl rfl rfl
  · rw [Heap.gained_eq_zero fun b hb => howned ▸ hb, harena]
    exact congrArg (h.arena.blocksInUse + · + due) hfreed

theorem sweep_ends (hs : h.Sound [] due) :
    Meets (run tagging sweep) h (fun r h' => sweep.Effect due due may must h r h')
      fun fault h' => sweep.Fails tagging may must due h fault h' := by
  simp only [run, meets_bind, meets_pure]
  refine (Heap.sweep_ends hs).mono ?_ fun _ _ he => .overflow (.inl he)
  rintro freed h' ⟨hsw, hs', -, -, hledger⟩
  refine ⟨hs', fun _ _ _ => hsw.placed hs, ?_, False.elim⟩
  rw [hledger, Heap.gained_eq_zero hsw.owned, Nat.add_zero]

theorem collect_ends {roots : List Word} (hT : tagging.Reads may must) (hs : h.Sound [] due) :
    Meets (run tagging (collect roots)) h
      (fun r h' => (collect roots).Effect due due may must h r h')
      fun fault h' => (collect roots).Fails tagging may must due h fault h' := by
  simp only [run, meets_bind, meets_pure]
  refine (Heap.collect_ends hT hs).mono ?_ fun fault h' hf => ?_
  · rintro - h' ⟨⟨R, hR, hcol⟩, hs', hacc⟩
    refine ⟨hs', fun _ _ _ => hcol.placed, ?_, fun _ =>
      .inr ⟨hacc.collections, R, hR, fun s x => hcol.holds hs hs'⟩⟩
    rw [hacc.ledger, Heap.gained_eq_zero hcol.owned, Nat.add_zero]
  · rcases hf with he | ⟨he, hverbose⟩ | hdiverges
    · exact .overflow (.inl he)
    · exact .overflow (.inr ⟨he, .inl hverbose⟩)
    · exact .diverges hdiverges

/-! ## Slots -/

theorem setUsed_returns {object : Word} (hs : h.Sound [] due) (hfit : (setUsed object).Fits h) :
    Returns (run tagging (setUsed object)) h fun r h' =>
      (setUsed object).Effect due due may must h r h' := by
  obtain ⟨s, base, i, hx⟩ := hfit
  have hstart := hx.owner.startsAt hs
  have hserves := hx.owner.serves hs
  have hobject : Word.isObjectAddress object = true := by
    rw [hx.address]
    exact Block.isObjectAddress_slotAddress hstart hserves.layout hx.lt
  simp only [Returns, run, Heap.onMemory, Handle.setUsed, hobject, if_true, hx.baseOf_eq hs,
    Memory.onBlock, meets_bind, meets_zoom, meets_pure]
  have hmark := Block.mark_returns hserves hstart hx.lt
  rw [← hx.address] at hmark
  refine hmark.meets ?_
  rintro scan b' ⟨hslots, hhint, hserves', -, -⟩
  have hp : h.arena.Preserved h.memory (h.memory.setBlock base b') :=
    (Arena.Preserved.refl hs).setBlock hx.owner (hslots.margins hserves.layout hhint) hserves' hs
  refine effect_of_preserved hs hp (fun _ hset => absurd hset Bool.false_ne_true) ?_
  rintro (hwhole | hset)
  · exact hwhole.elim
  · exact absurd hset Bool.false_ne_true

theorem write_returns {object w : Word} {field : Nat} (hs : h.Sound [] due)
    (hfit : (write object field w).Fits h) :
    Returns (run tagging (write object field w)) h fun r h' =>
      (write object field w).Effect due due may must h r h' := by
  obtain ⟨s, base, i, hx, hfield⟩ := hfit
  obtain ⟨hp, hheader, -⟩ := (Arena.Preserved.refl hs).setField (w := w) hs hx hfield
  simp only [Returns, run, meets_bind, meets_modify, meets_pure]
  exact effect_of_preserved hs hp (fun _ => id) fun _ b => (hheader b).bitmap

/-! ## Operations -/

/-- An operation on a sound heap has its effect, or fails in one of these ways. -/
theorem run_ends {op : Operation} (hT : tagging.Reads may must) (hs : h.Sound [] due)
    (hfit : op.Fits h) :
    Meets (op.run tagging) h (fun r h' => op.Effect due due may must h r h')
      fun fault h' => op.Fails tagging may must due h fault h' := by
  cases op with
  | resolve size pointers =>
    simp only [run, meets_bind, meets_pure]
    refine ((Heap.resolveCache_meets hs).and_not Heap.resolveCache_returns).mono ?_ ?_
    · rintro index h' ⟨hs', hu, -⟩
      exact effect_of_undisturbed hs' hu fun _ => id
    · rintro fault h' ⟨rfl, hinvalid⟩
      exact fails_of_undisturbed hs (.refl _) (fun _ => id) fun hvalid => absurd hvalid hinvalid
  | find remembered size pointers =>
    simp only [run, meets_bind, meets_pure]
    have hreturns : (find remembered size pointers).Valid h →
        Returns (Heap.findCache remembered size pointers) h fun _ _ => True :=
      fun hvalid => Heap.findCache_returns hvalid.1 hvalid.2
    refine ((Heap.findCache_meets hs).and_not hreturns).mono ?_ ?_
    · rintro index h' ⟨hs', hu⟩
      exact effect_of_undisturbed hs' hu fun _ => id
    · rintro fault h' ⟨rfl, hinvalid⟩
      exact fails_of_undisturbed hs (.refl _) (fun _ => id) fun hvalid => absurd hvalid hinvalid
  | allocate index roots =>
    simp only [run, meets_bind, meets_pure]
    refine (Heap.allocate_ends hT hs).mono ?_ ?_
    · rintro w h' ⟨c, hc, ha⟩
      exact effect_of_allocates (by rw [size?, hc]; rfl) ha fun _ => id
    · rintro fault h' (hf | ⟨hs', hu, hrefused⟩)
      · exact fails_of_halts hf fun _ => id
      · refine fails_of_undisturbed hs' hu (fun _ => id) fun hvalid hp => ?_
        rcases hrefused with ⟨hnone, -⟩ | ⟨c, hc, hplaced⟩
        · exact absurd hvalid (Nat.not_lt.2 (List.getElem?_eq_none_iff.1 hnone))
        · exact hplaced (hp c hc)
  | allocateWords size pointers roots =>
    simp only [run, meets_bind, meets_pure]
    refine (Heap.allocateWords_ends hT hs).mono ?_ ?_
    · rintro w h' ⟨s, hsize, -, ha⟩
      exact effect_of_allocates (by rw [size?, hsize]) ha fun _ => id
    · rintro fault h' (hf | ⟨hs', hu, hrefused⟩)
      · exact fails_of_halts hf fun _ => id
      · exact fails_of_undisturbed hs' hu (fun _ => id) hrefused
  | allocateBytes bytes roots =>
    simp only [run, meets_bind, meets_pure]
    refine (Heap.allocateBytes_ends hT hs).mono ?_ ?_
    · rintro w h' ⟨words, hwords, s, hsize, -, ha⟩
      exact effect_of_allocates (by rw [size?, hwords, hsize]; rfl) ha fun _ => id
    · rintro fault h' (hf | ⟨hs', hu, hrefused⟩)
      · exact fails_of_halts hf fun _ => id
      · refine fails_of_undisturbed hs' hu (fun _ => id) ?_
        rintro ⟨words, hwords, hvalid⟩
        exact hrefused words hwords hvalid
  | collect roots => exact collect_ends hT hs
  | clearUsed => exact (clearUsed_returns hs).meets fun _ _ => id
  | mark roots => exact mark_ends hs
  | sweep => exact sweep_ends hs
  | setUsed object => exact (setUsed_returns hs hfit).meets fun _ _ => id
  | write object field w => exact (write_returns hs hfit).meets fun _ _ => id

/-- An operation on a sound heap has its effect, or fails for good, or fails and leaves
    blocks alone. -/
theorem run_meets {op : Operation} (hT : tagging.Reads may must) (hs : h.Sound [] due)
    (hfit : op.Fits h) :
    Meets (op.run tagging) h (fun r h' => op.Effect due due may must h r h')
      fun fault h' => fault.IsFatal ∨ op.Effect due due may must h none h' := by
  refine (run_ends hT hs hfit).mono (fun _ _ => id) fun fault h' hf => ?_
  cases hf with
  | overflow hover => exact .inl (.inl hover.isOverflow)
  | diverges hdiverges => exact .inl (.inr (.inr hdiverges.1))
  | starved => exact .inl (.inr (.inl rfl))
  | refused heffect => exact .inr heffect

end Operation

end SlabHeap
