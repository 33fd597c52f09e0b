/-
  Allocation, with the collection that it may run.

  `Heap.Passed` says what happens to the objects of a heap before an allocation takes
  its slot: nothing, or a collection.  A block that is acquired is loose and fit to be
  taken into service (`acquireBlock_meets`), and an allocation adds one object, in a
  slot that holds none of those that are left (`allocate_meets`).
-/
import SlabHeap.Proofs.Heap.Stages
import SlabHeap.Proofs.Heap.Supply

namespace SlabHeap

variable {tagging : Tagging} {may must : Word → Word → Prop} {roots : List Word}
  {loose : List Word} {due index : Nat} {b x w : Word} {s : Shape}

/-- A failure that ends a program: a count left the range of a machine word, the system
    maps no memory, or an indirection leads nowhere. -/
def Fault.IsFatal (fault : Fault) : Prop :=
  fault.IsOverflow ∨ fault = .outOfMemory ∨ fault = .endless

theorem Fault.isFatal_of_collect {fault : Fault}
    (h : fault.IsOverflow ∨ fault.Diverges tagging) : fault.IsFatal := by
  rcases h with h | ⟨h, -⟩
  · exact .inl h
  · exact .inr (.inr h)

namespace Heap

variable {h h' h'' : Heap} {c : Cache}

/-! ## Objects before and after -/

/-- The heaps have the same blocks with the same owners and contents. -/
structure SameObjects (h h' : Heap) : Prop where
  block : ∀ b, h'.memory.block b = h.memory.block b
  owns : ∀ s b, h'.arena.Owns h'.memory s b ↔ h.arena.Owns h.memory s b

namespace SameObjects

variable (hso : h.SameObjects h')
include hso

theorem slotAt {base : Word} {i : Nat} :
    h'.arena.SlotAt h'.memory s base i x ↔ h.arena.SlotAt h.memory s base i x := by
  constructor
  · rintro ⟨ho, hlt, haddr⟩
    exact ⟨(hso.owns s base).1 ho, hlt, by rw [← hso.block]; exact haddr⟩
  · rintro ⟨ho, hlt, haddr⟩
    exact ⟨(hso.owns s base).2 ho, hlt, by rw [hso.block]; exact haddr⟩

theorem holds : h'.arena.Holds h'.memory s x ↔ h.arena.Holds h.memory s x :=
  Arena.holds_congr hso.owns fun b _ => hso.block b

theorem mem_owned : b ∈ h'.arena.owned h'.memory ↔ b ∈ h.arena.owned h.memory := by
  rw [Arena.mem_owned_iff, Arena.mem_owned_iff]
  exact exists_congr fun s => hso.owns s b

theorem field (x : Word) (j : Nat) : h'.memory.field x j = h.memory.field x j := by
  rw [Memory.field, Memory.field, Memory.load, Memory.load, hso.block]

theorem reached {T : Word → Word → Prop} :
    Reached T h'.arena h'.memory roots x ↔ Reached T h.arena h.memory roots x := by
  constructor
  · intro hx
    exact hx.congr hso.slotAt.1 fun _ _ _ => by rw [hso.field]; exact id
  · intro hx
    exact hx.congr hso.slotAt.2 fun _ _ _ => by rw [hso.field]; exact id

theorem survivors {R : Word → Prop} (hr : Survivors may must roots h' R) :
    Survivors may must roots h R :=
  ⟨fun x hx => hr.must x (hso.reached.2 hx), fun x hx => hso.reached.1 (hr.may x hx)⟩

end SameObjects

theorem sameObjects_of_eq (hm : h'.memory = h.memory) (hc : h'.arena.caches = h.arena.caches) :
    h.SameObjects h' :=
  ⟨fun _ => by rw [hm], fun _ _ => by rw [Arena.Owns, Arena.Owns, hm, hc]⟩

/-- The number of blocks that a cache owns in `h'` and none in `h`. -/
def gained (h h' : Heap) : Nat :=
  (h'.arena.owned h'.memory).countP fun b => b ∉ h.arena.owned h.memory

theorem gained_eq_zero (hsub : ∀ b ∈ h'.arena.owned h'.memory, b ∈ h.arena.owned h.memory) :
    h.gained h' = 0 := by
  refine List.countP_eq_zero.2 fun b hb => ?_
  simpa using hsub b hb

theorem gained_eq_one (hs' : h'.Sound loose due) (hb : b ∈ h'.arena.owned h'.memory)
    (hnew : b ∉ h.arena.owned h.memory)
    (hsub : ∀ b' ∈ h'.arena.owned h'.memory, b' ∈ h.arena.owned h.memory ∨ b' = b) :
    h.gained h' = 1 := by
  have hcount : h.gained h' = (h'.arena.owned h'.memory).count b := by
    refine List.countP_congr fun b' hb' => ?_
    simp only [decide_eq_true_eq, beq_iff_eq]
    constructor
    · exact (hsub b' hb').resolve_left
    · rintro rfl
      exact hnew
  rw [hcount]
  exact List.count_eq_one_of_mem hs'.nodup_owned hb

/-- Nothing happens to the blocks of `h` but that caches without blocks are added. -/
structure Undisturbed (h h' : Heap) : Prop extends h.SameObjects h' where
  placed : (∀ c ∈ h.arena.caches, c.Placed h.memory) → ∀ c ∈ h'.arena.caches, c.Placed h'.memory
  extent : h'.extent = h.extent
  options : h'.arena.options = h.arena.options
  freed : h'.arena.counters.blocksFreed = h.arena.counters.blocksFreed
  directory : h'.arena.directory = h.arena.directory
  current : h'.arena.current = h.arena.current
  caches : h.arena.caches <+: h'.arena.caches

theorem Undisturbed.collections (hu : h.Undisturbed h') :
    h'.arena.counters.collections = h.arena.counters.collections :=
  congrArg Extent.collections hu.extent

theorem Undisturbed.ledger (hu : h.Undisturbed h') :
    h'.arena.blocksInUse + h'.arena.counters.blocksFreed =
      h.arena.blocksInUse + h.arena.counters.blocksFreed :=
  congrArg₂ _ (congrArg Extent.inUse hu.extent) hu.freed

theorem Undisturbed.refl (h : Heap) : h.Undisturbed h :=
  ⟨sameObjects_of_eq rfl rfl, id, rfl, rfl, rfl, rfl, rfl, List.prefix_refl _⟩

theorem Undisturbed.trans (hu : h.Undisturbed h') (hu' : h'.Undisturbed h'') :
    h.Undisturbed h'' where
  block b := (hu'.block b).trans (hu.block b)
  owns s b := (hu'.owns s b).trans (hu.owns s b)
  placed hp := hu'.placed (hu.placed hp)
  extent := hu'.extent.trans hu.extent
  options := hu'.options.trans hu.options
  freed := hu'.freed.trans hu.freed
  directory := hu'.directory.trans hu.directory
  current := hu'.current.trans hu.current
  caches := hu.caches.trans hu'.caches

/-- A cache keeps its position and its lists. -/
theorem Undisturbed.cache (hu : h.Undisturbed h') (hc : h.arena.caches[index]? = some c) :
    h'.arena.caches[index]? = some c := by
  obtain ⟨hlt, rfl⟩ := List.getElem?_eq_some_iff.1 hc
  exact List.prefix_iff_getElem?.1 hu.caches index hlt

theorem Sound.countObject (hs : h.Sound loose due) : h.countObject.Sound loose due :=
  hs.of_eq rfl rfl rfl rfl

theorem undisturbed_countObject (h : Heap) : h.Undisturbed h.countObject :=
  ⟨sameObjects_of_eq rfl rfl, id, rfl, rfl, rfl, rfl, rfl, List.prefix_refl _⟩

/-- Nothing happens to the objects of `h`, or a collection with these roots does. -/
def Passed (may must : Word → Word → Prop) (roots : List Word) (h h' : Heap) : Prop :=
  (h'.arena.counters.collections = h.arena.counters.collections ∧
    ∀ s x, h'.arena.Holds h'.memory s x ↔ h.arena.Holds h.memory s x) ∨
  (h'.arena.counters.collections = h.arena.counters.collections + 1 ∧
    ∃ R, Survivors may must roots h R ∧ ∀ s x, h'.arena.Holds h'.memory s x ↔
      (∃ base i, h.arena.SlotAt h.memory s base i x) ∧ R x)

theorem Passed.after (hp : h'.Passed may must roots h'') (hso : h.SameObjects h')
    (hcol : h'.arena.counters.collections = h.arena.counters.collections) :
    h.Passed may must roots h'' := by
  rcases hp with ⟨hcount, hholds⟩ | ⟨hcount, R, hR, hholds⟩
  · refine .inl ⟨hcount.trans hcol, fun s x => ?_⟩
    rw [hholds, hso.holds]
  · refine .inr ⟨by rw [hcount, hcol], R, hso.survivors hR, fun s x => ?_⟩
    rw [hholds]
    simp only [hso.slotAt]

theorem Passed.quiet (hp : h.Passed may must roots h') (hq : h'.Quiet h'') :
    h.Passed may must roots h'' := by
  unfold Passed
  simp only [hq.counters, hq.holds]
  exact hp

/-! ## Acquiring a block -/

/-- A collection changes no block but those with an owner, and maps none. -/
theorem collect_changes (hs : h.Sound [] due) (he : collect tagging roots h = .ok () h') :
    h.memory.Changes h'.memory (h.arena.owned h.memory) := by
  cases collect_stages.of_ok he with
  | @swept _ h₂ _ _ freed hclear hmark hsweep hjournal =>
    obtain ⟨m₁, rfl, hp, -⟩ := (clearUsed_returns hs).of_ok hclear
    have hs₁ : Heap.Sound { h with memory := m₁ } [] due := hp.sound hs
    obtain ⟨hcompleted, counters, harena, -⟩ := (mark_ends tagging.reads_any hs₁).of_ok hmark
    have hp₂ : h.arena.Preserved h.memory h₂.memory := hp.trans hs hcompleted.preserved
    have hs₂ : h₂.Sound [] due := by
      rw [Heap.Sound, harena]
      exact (hp₂.sound hs).of_eq rfl rfl rfl rfl
    obtain ⟨hswept, -⟩ := (sweep_ends hs₂).of_ok hsweep
    have howned : h₂.arena.owned h₂.memory = h.arena.owned h.memory := by
      rw [harena]
      exact hp₂.owned hs
    rw [hjournal.1]
    exact hp₂.changes.trans (howned ▸ hswept.changes)

theorem adjustThreshold_beside :
    Maintains (fun h : Heap => (h.memory, h.arena.directory, h.arena.current)) adjustThreshold h := by
  simp only [Maintains, adjustThreshold, tell, modifyArena, meets_bind, meets_get, meets_modify,
    meets_lift, meets_ite, meets_pure, implies_true, and_self]

theorem adjustThreshold_ends (hs : h.Sound loose due) :
    Meets adjustThreshold h
      (fun _ h' => h'.Sound loose due ∧ h.Quiet h' ∧ h'.arena.directory = h.arena.directory ∧
        h'.extent =
          { h.extent with threshold := Extent.adjusted h.extent.inUse h.extent.threshold })
      fun fault _ => fault = .overflow .multiply ∧
        (Word.count ≤ 10 * h.arena.blocksInUse ∨ Word.count ≤ 10 * h.arena.threshold) := by
  have hquiet : ∀ threshold events, h.Quiet
      { h with arena := { h.arena with threshold }, events := events } := fun _ _ =>
    ⟨rfl, fun _ _ => ⟨rfl, rfl⟩, fun _ _ => rfl, fun _ => rfl, rfl, rfl⟩
  rw [adjustThreshold]
  simp only [meets_bind, meets_get, meets_lift, meets_ite, modifyArena, tell, meets_modify,
    meets_pure]
  refine ⟨fun used hused => ⟨fun limit hlimit => ⟨fun hle => ⟨fun threshold hthreshold => ?_, ?_⟩,
    fun hlt => ?_⟩, ?_⟩, ?_⟩
  · obtain ⟨-, rfl⟩ := Count.mul_eq_ok.1 hused
    obtain ⟨-, rfl⟩ := Count.mul_eq_ok.1 hlimit
    obtain ⟨-, rfl⟩ := Count.mul_eq_ok.1 hthreshold
    have hadjusted : Extent.adjusted h.extent.inUse h.extent.threshold =
      h.arena.threshold * thresholdGrowth := if_pos hle
    exact ⟨hs.of_eq rfl rfl rfl rfl, hquiet _ _, trivial, by rw [hadjusted]; rfl⟩
  · intro fault he
    obtain ⟨rfl, hle⟩ := Count.mul_eq_error he
    rw [thresholdGrowth] at hle
    exact ⟨rfl, .inr (by omega)⟩
  · obtain ⟨-, rfl⟩ := Count.mul_eq_ok.1 hused
    obtain ⟨-, rfl⟩ := Count.mul_eq_ok.1 hlimit
    have hadjusted : Extent.adjusted h.extent.inUse h.extent.threshold = h.extent.threshold :=
      if_neg hlt
    exact ⟨hs, .refl h, trivial, by rw [hadjusted]⟩
  · intro fault he
    obtain ⟨rfl, hle⟩ := Count.mul_eq_error he
    rw [growthTenths] at hle
    exact ⟨rfl, .inr (by omega)⟩
  · intro fault he
    obtain ⟨rfl, hle⟩ := Count.mul_eq_error he
    exact ⟨rfl, .inl (by omega)⟩

theorem adjustThreshold_meets (hs : h.Sound loose due) :
    Meets adjustThreshold h
      (fun _ h' => h'.Sound loose due ∧ h.Quiet h' ∧ h'.arena.directory = h.arena.directory ∧
        h'.extent =
          { h.extent with threshold := Extent.adjusted h.extent.inUse h.extent.threshold })
      fun fault _ => fault.IsOverflow :=
  (adjustThreshold_ends hs).mono (fun _ _ => id) fun _ _ he => ⟨_, he.1⟩

/-- What happens to the heap `h` while a block is acquired, which counts as in use
    from the start. -/
structure Acquiring (may must : Word → Word → Prop) (roots : List Word) (h h' : Heap) :
    Prop where
  passed : h.Passed may must roots h'
  owned : ∀ b ∈ h'.arena.owned h'.memory, b ∈ h.arena.owned h.memory
  placed : (∀ c ∈ h.arena.caches, c.Placed h.memory) → ∀ c ∈ h'.arena.caches, c.Placed h'.memory
  ledger : h'.arena.blocksInUse + h'.arena.counters.blocksFreed =
    h.arena.blocksInUse + h.arena.counters.blocksFreed + 1

theorem Acquiring.after (ha : Acquiring may must roots h' h'') (hu : h.Undisturbed h') :
    Acquiring may must roots h h'' where
  passed := ha.passed.after hu.toSameObjects hu.collections
  owned b hb := hu.mem_owned.1 (ha.owned b hb)
  placed hp := ha.placed (hu.placed hp)
  ledger := by rw [ha.ledger, hu.ledger]

/-- The same, where the caches stay at their positions. -/
structure Ready (may must : Word → Word → Prop) (roots : List Word) (h h' : Heap) : Prop
    extends Acquiring may must roots h h' where
  shapes : ∀ (j : Nat) c, h.arena.caches[j]? = some c →
    ∃ c', h'.arena.caches[j]? = some c' ∧ c'.shape = c.shape

theorem Ready.quiet (hr : Ready may must roots h h') (hq : h'.Quiet h'') :
    Ready may must roots h h'' where
  passed := hr.passed.quiet hq
  shapes j c hc := by rw [hq.caches]; exact hr.shapes j c hc
  owned b hb := hr.owned b (by rwa [hq.owned] at hb)
  placed hp := hq.placed (hr.placed hp)
  ledger := by rw [hq.inUse, hq.counters]; exact hr.ledger

theorem Ready.collected {R : Word → Prop} (hr : Ready may must roots h h') (hs' : h'.Sound [] due)
    (hso : h.SameObjects h') (hcount : h'.arena.counters.collections =
      h.arena.counters.collections) (hR : Survivors may must roots h' R) (hcol : Collected R h' h'')
    (hs'' : h''.Sound [] due) (hacc : h'.Accounted h'') : Ready may must roots h h'' where
  passed := by
    have hp : h'.Passed may must roots h'' :=
      .inr ⟨hacc.collections, R, hR, fun s x => hcol.holds hs' hs''⟩
    exact hp.after hso hcount
  shapes j c hc := by
    obtain ⟨c', hc', hshape⟩ := hr.shapes j c hc
    obtain ⟨c'', hc'', hshape', -⟩ := hcol.caches j c' hc'
    exact ⟨c'', hc'', hshape'.trans hshape⟩
  owned b hb := hr.owned b (hcol.owned b hb)
  placed _ := hcol.placed
  ledger := by rw [hacc.ledger, hr.ledger]

/-- A count of the heap left the range of a machine word: a sum, or a product that a report
    shows or that is ten times the number of blocks. -/
def Overflows (h : Heap) (fault : Fault) : Prop :=
  fault = .overflow .add ∨ fault = .overflow .multiply ∧
    (h.arena.options.verbose = true ∨ Word.count ≤ 10 * (h.arena.blocksInUse + 1))

theorem Overflows.isOverflow {fault : Fault} (hf : h.Overflows fault) : fault.IsOverflow := by
  rcases hf with he | ⟨he, -⟩
  · exact ⟨_, he⟩
  · exact ⟨_, he⟩

theorem Overflows.after {fault : Fault} (hf : h'.Overflows fault) (hu : h.Undisturbed h') :
    h.Overflows fault := by
  have hinUse : h'.arena.blocksInUse = h.arena.blocksInUse := congrArg Extent.inUse hu.extent
  unfold Overflows
  rw [← hu.options, ← hinUse]
  exact hf

/-- How an operation on `h` breaks off: a count overflows, an indirection leads nowhere, or the
    system maps no memory for a block, which counts as in use nevertheless. -/
inductive Halts (tagging : Tagging) (may must : Word → Word → Prop) (due : Nat)
    (roots : List Word) (h : Heap) : Fault → Heap → Prop
  | overflow {fault : Fault} {h' : Heap} : h.Overflows fault →
    Halts tagging may must due roots h fault h'
  | diverges {fault : Fault} {h' : Heap} : fault.Diverges tagging →
    Halts tagging may must due roots h fault h'
  | starved {h' : Heap} : h'.Sound [] (due + 1) → Acquiring may must roots h h' →
    Halts tagging may must due roots h .outOfMemory h'

namespace Halts

variable {fault : Fault}

theorem isFatal (hf : Halts tagging may must due roots h fault h') : fault.IsFatal := by
  cases hf with
  | overflow hover => exact .inl hover.isOverflow
  | diverges hdiverges => exact .inr (.inr hdiverges.1)
  | starved => exact .inr (.inl rfl)

theorem after (hf : Halts tagging may must due roots h' fault h'') (hu : h.Undisturbed h') :
    Halts tagging may must due roots h fault h'' := by
  cases hf with
  | overflow hover => exact .overflow (hover.after hu)
  | diverges hdiverges => exact .diverges hdiverges
  | starved hs ha => exact .starved hs (ha.after hu)

end Halts

/-- A block that counts as in use is due until a cache takes it over. -/
theorem Sound.countBlock (hs : h.Sound [] due) : h.countBlock.Sound [] (due + 1) :=
  hs.of_eq rfl rfl rfl (by
    show h.arena.blocksInUse + 1 + due = h.arena.blocksInUse + (due + 1)
    omega)

/-- A block is acquired, unless a count overflows, an indirection leads nowhere or the system
    maps no memory. -/
theorem acquireBlock_ends (hr : tagging.Reads may must) (hs : h.Sound [] due) :
    Meets (acquireBlock tagging roots) h
      (fun b h' => h'.Sound [b] (due + 1) ∧ (h'.memory.block b).Fit ∧
        Ready may must roots h h' ∧ b ∉ h.arena.owned h.memory)
      fun fault h' => Halts tagging may must due roots h fault h' := by
  rw [acquireBlock]
  simp only [meets_bind, meets_get, meets_lift, modifyArena, meets_modify]
  refine ⟨fun inUse hinUse => ?_, fun fault he => .overflow (.inl (Count.add_eq_error he).1)⟩
  obtain ⟨-, rfl⟩ := Count.add_eq_ok.1 hinUse
  have hs₁ := hs.countBlock
  have hso₁ : h.SameObjects h.countBlock := sameObjects_of_eq rfl rfl
  have hr₁ : Ready may must roots h h.countBlock :=
    ⟨⟨.inl ⟨rfl, fun s x => hso₁.holds⟩, fun _ => id, id, Nat.succ_add _ _⟩,
      fun j c hc => ⟨c, hc, rfl⟩⟩
  refine (takeFreeBlock_returns hs₁).meets fun r h₂ htake => ?_
  cases r with
  | some b =>
    obtain ⟨hs₂, hfit, hq, hnew, -⟩ := htake
    simp only [tell, meets_bind, meets_modify, meets_pure]
    exact ⟨hs₂.of_eq rfl rfl rfl rfl, hfit, hr₁.quiet (hq.trans (quiet_of_eq rfl rfl)),
      fun hb => hnew (hso₁.mem_owned.2 hb)⟩
  | none =>
    obtain ⟨rfl, -⟩ : h₂ = h.countBlock ∧ _ := htake
    simp only [meets_bind, meets_get, meets_ite]
    refine ⟨fun hthreshold => ?_, fun _ => ?_⟩
    · refine (collect_ends hr hs₁).mono ?_ fun fault _ hf => ?_
      · rintro - h₃ ⟨⟨R, hR, hcol⟩, hs₃, hacc⟩
        have hr₃ := hr₁.collected hs₁ hso₁ rfl hR hcol hs₃ hacc
        refine (adjustThreshold_ends hs₃).mono ?_ fun fault _ hf => ?_
        · rintro - h₄ ⟨hs₄, hq₄, hdir₄, -⟩
          refine (sliceBlock_meets hs₄).mono ?_ fun fault h₅ hf => ?_
          · rintro b h₅ ⟨hs₅, hfit, hq₅, hnew, -⟩
            rw [hdir₄, hacc.directory] at hnew
            exact ⟨hs₅, hfit, hr₃.quiet (hq₄.trans hq₅), fun hb =>
              hnew (hs₁.mem_sliced (hso₁.mem_owned.2 hb))⟩
          · obtain ⟨rfl, -, hs₅, hq₅⟩ := hf
            exact .starved hs₅ (hr₃.quiet (hq₄.trans hq₅)).toAcquiring
        · -- The threshold was reached, and the collection brought no block into use.
          have hle : h₃.arena.blocksInUse ≤ h.arena.blocksInUse + 1 := hcol.inUse_le hs₁ hs₃
          have hle' : h₃.arena.threshold ≤ h.arena.blocksInUse + 1 :=
            hacc.threshold.trans_le hthreshold
          exact .overflow (.inr ⟨hf.1, .inr (by omega)⟩)
      · rcases hf with he | ⟨he, hverbose⟩ | hdiverges
        · exact .overflow (.inl he)
        · exact .overflow (.inr ⟨he, .inl hverbose⟩)
        · exact .diverges hdiverges
    · refine (sliceBlock_meets hs₁).mono ?_ fun fault h₅ hf => ?_
      · rintro b h₅ ⟨hs₅, hfit, hq₅, hnew, -⟩
        exact ⟨hs₅, hfit, hr₁.quiet hq₅, fun hb => hnew (hs₁.mem_sliced (hso₁.mem_owned.2 hb))⟩
      · obtain ⟨rfl, -, hs₅, hq₅⟩ := hf
        exact .starved hs₅ (hr₁.quiet hq₅).toAcquiring

theorem acquireBlock_meets (hr : tagging.Reads may must) (hs : h.Sound [] due) :
    Meets (acquireBlock tagging roots) h
      (fun b h' => h'.Sound [b] (due + 1) ∧ (h'.memory.block b).Fit ∧
        Ready may must roots h h' ∧ b ∉ h.arena.owned h.memory)
      fun fault _ => fault.IsFatal :=
  (acquireBlock_ends hr hs).mono (fun _ _ => id) fun _ _ hf => hf.isFatal

/-! ## Adding an object -/

/-- A cache other than the one at `index` owns the block at `b`. -/
def OwnsBeside (h : Heap) (index : Nat) (s : Shape) (b : Word) : Prop :=
  ∃ j d, j ≠ index ∧ h.arena.caches[j]? = some d ∧ d.shape = s ∧ b ∈ d.blocks h.memory

theorem owns_iff (hc : h.arena.caches[index]? = some c) :
    h.arena.Owns h.memory s b ↔
      (c.shape = s ∧ b ∈ c.blocks h.memory) ∨ h.OwnsBeside index s b := by
  constructor
  · rintro ⟨d, hd, hshape, hb⟩
    obtain ⟨j, hj, rfl⟩ := List.getElem_of_mem hd
    have hget := List.getElem?_eq_getElem hj
    by_cases hji : j = index
    · subst hji
      obtain rfl := Option.some.inj (hc.symm.trans hget)
      exact .inl ⟨hshape, hb⟩
    · exact .inr ⟨j, _, hji, hget, hshape, hb⟩
  · rintro (⟨hshape, hb⟩ | ⟨j, d, -, hd, hshape, hb⟩)
    · exact ⟨c, List.mem_of_getElem? hc, hshape, hb⟩
    · exact ⟨d, List.mem_of_getElem? hd, hshape, hb⟩

/-- What an operation on the cache at `index` makes of the heap. -/
structure Replaced (h : Heap) (index : Nat) (c : Cache) (base : Word) (h' : Heap) (c' : Cache) :
    Prop where
  cache : h.arena.caches[index]? = some c
  cache' : h'.arena.caches = h.arena.caches.set index c'
  shape : c'.shape = c.shape
  changes : h.memory.Changes h'.memory [base]
  others : ∀ j d, j ≠ index → h.arena.caches[j]? = some d → base ∉ d.blocks h.memory ∧
    d.SameLists h.memory h'.memory

namespace Replaced

variable {c' : Cache} {base : Word} (hr : h.Replaced index c base h' c')
include hr

theorem get_self : h'.arena.caches[index]? = some c' := by
  rw [hr.cache', List.getElem?_set_self (List.getElem?_eq_some_iff.1 hr.cache).1]

theorem get_ne {j : Nat} (hj : j ≠ index) : h'.arena.caches[j]? = h.arena.caches[j]? := by
  rw [hr.cache', List.getElem?_set_ne (Ne.symm hj)]

theorem owns : h'.arena.Owns h'.memory s b ↔
    (c.shape = s ∧ b ∈ c'.blocks h'.memory) ∨ h.OwnsBeside index s b := by
  rw [owns_iff hr.get_self, hr.shape]
  refine or_congr_right ⟨?_, ?_⟩
  · rintro ⟨j, d, hj, hd, hshape, hb⟩
    rw [hr.get_ne hj] at hd
    rw [(hr.others j d hj hd).2.blocks] at hb
    exact ⟨j, d, hj, hd, hshape, hb⟩
  · rintro ⟨j, d, hj, hd, hshape, hb⟩
    refine ⟨j, d, hj, (hr.get_ne hj).trans hd, hshape, ?_⟩
    rw [(hr.others j d hj hd).2.blocks]
    exact hb

theorem mem_owned (hblocks : ∀ b, b ∈ c'.blocks h'.memory ↔ b ∈ c.blocks h.memory ∨ b = base) :
    b ∈ h'.arena.owned h'.memory ↔ b ∈ h.arena.owned h.memory ∨ b = base := by
  simp only [Arena.mem_owned_iff, hr.owns, owns_iff hr.cache, hblocks]
  constructor
  · rintro ⟨s, ⟨hshape, hb | rfl⟩ | hb⟩
    · exact .inl ⟨s, .inl ⟨hshape, hb⟩⟩
    · exact .inr rfl
    · exact .inl ⟨s, .inr hb⟩
  · rintro (⟨s, ⟨hshape, hb⟩ | hb⟩ | rfl)
    · exact ⟨s, .inl ⟨hshape, .inl hb⟩⟩
    · exact ⟨s, .inr hb⟩
    · exact ⟨c.shape, .inl ⟨rfl, .inr rfl⟩⟩

theorem block_ne (hb : b ≠ base) : h'.memory.block b = h.memory.block b :=
  hr.changes.block b (by simpa using hb)

theorem placed (hp : ∀ d ∈ h.arena.caches, d.Placed h.memory) (hp' : c'.Placed h'.memory) :
    ∀ d ∈ h'.arena.caches, d.Placed h'.memory := by
  intro d hd
  obtain ⟨j, hj, rfl⟩ := List.getElem_of_mem hd
  have hget := List.getElem?_eq_getElem hj
  by_cases hji : j = index
  · subst hji
    rw [hr.get_self] at hget
    rw [← Option.some.inj hget]
    exact hp'
  · rw [hr.get_ne hji] at hget
    obtain ⟨hbase, hl⟩ := hr.others j _ hji hget
    refine (hp _ (List.mem_of_getElem? hget)).congr hl fun b hb => ?_
    have hne : b ≠ base := fun he => hbase (he ▸ hb)
    rw [hr.block_ne hne]

/-- No word of a slot changes where the words of one block behind its bitmap do not. -/
theorem words {base' x : Word} {i j : Nat} (hs' : h'.Sound loose due)
    (ho : h'.arena.Owns h'.memory c.shape base)
    (hw : ∀ k, colorFor c.shape.size ≤ k →
      (h'.memory.block base).word k = (h.memory.block base).word k)
    (hx : h'.arena.SlotAt h'.memory s base' i x) (hj : j < s.size) :
    h'.memory.field x j = h.memory.field x j := by
  refine hx.field_congr hs' hj fun k hk => ?_
  by_cases hb : base' = base
  · subst hb
    rw [hx.owner.unique hs' ho] at hk
    exact hw k hk
  · rw [hr.block_ne hb]

/-- One slot more is in use, in a block that the cache owned before or owns from now
    on. -/
theorem holds {i : Nat} (hs : h.Sound loose due) {loose' : List Word} {due' : Nat}
    (hs' : h'.Sound loose' due')
    (hblocks : ∀ b, b ∈ c'.blocks h'.memory ↔ b ∈ c.blocks h.memory ∨ b = base)
    (hx : h'.arena.SlotAt h'.memory c.shape base i w)
    (hbits : ∀ k < c.shape.slots, (h'.memory.block base).bitmap.bit k = true ↔
      (base ∈ c.blocks h.memory ∧ (h.memory.block base).bitmap.bit k = true) ∨ k = i) :
    h'.arena.Holds h'.memory s x ↔ h.arena.Holds h.memory s x ∨ s = c.shape ∧ x = w := by
  have hc := List.mem_of_getElem? hr.cache
  have hmono : ∀ {s b}, h.arena.Owns h.memory s b → h'.arena.Owns h'.memory s b := by
    intro s b ho
    rw [hr.owns, hblocks]
    rcases (owns_iff hr.cache).1 ho with ⟨hshape, hb⟩ | hb
    · exact .inl ⟨hshape, .inl hb⟩
    · exact .inr hb
  constructor
  · rintro ⟨b, k, hy, hbit⟩
    by_cases hb : b = base
    · subst hb
      obtain rfl := hy.owner.unique hs' hx.owner
      rcases (hbits k hy.lt).1 hbit with ⟨hmem, hbit⟩ | rfl
      · have ho : h.arena.Owns h.memory c.shape b := ⟨c, hc, rfl, hmem⟩
        have hy' := hy.congr ho ((ho.serves hs).layout.trans (hy.owner.serves hs').layout.symm)
        exact .inl ⟨b, k, hy', hbit⟩
      · exact .inr ⟨rfl, hy.address.trans hx.address.symm⟩
    · have ho : h.arena.Owns h.memory s b := by
        rw [owns_iff hr.cache]
        rcases hr.owns.1 hy.owner with ⟨hshape, hmem⟩ | hmem
        · exact .inl ⟨hshape, ((hblocks b).1 hmem).resolve_right hb⟩
        · exact .inr hmem
      rw [hr.block_ne hb] at hbit
      exact .inl ⟨b, k, hy.congr ho (by rw [hr.block_ne hb]), hbit⟩
  · rintro (⟨b, k, hy, hbit⟩ | ⟨rfl, rfl⟩)
    · have ho := hmono hy.owner
      have hy' := hy.congr ho ((ho.serves hs').layout.trans (hy.owner.serves hs).layout.symm)
      refine ⟨b, k, hy', ?_⟩
      by_cases hb : b = base
      · subst hb
        obtain rfl := ho.unique hs' hx.owner
        refine (hbits k hy.lt).2 (.inl ⟨?_, hbit⟩)
        rcases (owns_iff hr.cache).1 hy.owner with ⟨-, hmem⟩ | ⟨j, d, hj, hd, -, hmem⟩
        · exact hmem
        · exact absurd hmem (hr.others j d hj hd).1
      · rw [hr.block_ne hb]
        exact hbit
    · exact ⟨base, i, hx, (hbits i hx.lt).2 (.inr rfl)⟩

end Replaced

/-- `h'` is `h` with one more object, of the shape `s`, at `w`, where none was. -/
structure Adds (h : Heap) (s : Shape) (w : Word) (h' : Heap) : Prop where
  fresh : ∀ s, ¬ h.arena.Holds h.memory s w
  holds : ∀ s' x, h'.arena.Holds h'.memory s' x ↔ h.arena.Holds h.memory s' x ∨ s' = s ∧ x = w
  owned : ∀ b, b ∈ h'.arena.owned h'.memory ↔ b ∈ h.arena.owned h.memory ∨ b = Block.baseOf w
  placed : (∀ c ∈ h.arena.caches, c.Placed h.memory) → ∀ c ∈ h'.arena.caches, c.Placed h'.memory
  counters : h'.arena.counters = h.arena.counters
  extent : h'.extent = h.extent
  words : ∀ {s base i x j}, h'.arena.SlotAt h'.memory s base i x → j < s.size →
    h'.memory.field x j = h.memory.field x j

theorem Adds.inUse (hadds : h.Adds s w h') : h'.arena.blocksInUse = h.arena.blocksInUse :=
  congrArg Extent.inUse hadds.extent

theorem sound_of_sameBlocks {m' : Memory} (hs : h.Sound loose due)
    (hch : h.memory.Changes m' []) : Heap.Sound { h with memory := m' } loose due := by
  have hb : ∀ b, m'.block b = h.memory.block b := fun b => hch.block b (by simp)
  refine (hs.content (hch.mono (by simp)) (fun b => by rw [hb]) fun c hc b hmem => ?_).1
  rw [hb]
  exact (hs.caches c hc).serves b hmem

theorem undisturbed_of_sameBlocks {m' : Memory} (hs : h.Sound loose due)
    (hch : h.memory.Changes m' []) : h.Undisturbed { h with memory := m' } := by
  have hb : ∀ b, m'.block b = h.memory.block b := fun b => hch.block b (by simp)
  have hlists : ∀ c ∈ h.arena.caches, c.SameLists h.memory m' := fun c hc =>
    ((hs.caches c hc).elsewhere fun b _ => hb b).2
  refine ⟨⟨hb, fun s b => ?_⟩, fun hp c hc => ?_, rfl, rfl, rfl, rfl, rfl, List.prefix_refl _⟩
  · refine exists_congr fun c => and_congr_right fun hc => ?_
    rw [(hlists c hc).blocks]
  · refine (hp c hc).congr (hlists c hc) fun b _ => ?_
    rw [hb]

/-- An available block of the cache gives a slot, unless it has none. -/
theorem takeSlot_replaces (hs : h.Sound [] due) (hc : h.arena.caches[index]? = some c) :
    Meets (onCache index Cache.takeSlot) h
      (fun r h' => (r = none ∧ c.available.first = none ∧ h' = h) ∨
        ∃ base i c' m', r = some ((h.memory.block base).slotAddress base i) ∧
          h' = h.putCache index (c', m') ∧ c.Allocated h.memory base i c' m' ∧ h'.Sound [] due ∧
          h.Replaced index c base h' c')
      fun fault h' => fault = .fullBlockAvailable ∧ h'.Sound [] due ∧ h.Undisturbed h' ∧
        ¬ c.Placed h.memory := by
  have hkept := hs.caches c (List.mem_of_getElem? hc)
  have hnd := (List.nodup_flatMap.1 hs.nodup_owned).1 c (List.mem_of_getElem? hc)
  rw [meets_onCache hc]
  have hstarts : ∀ b ∈ c.blocks h.memory, Block.StartsAt b := fun b hb =>
    hs.startsAt (Arena.mem_owned.2 ⟨c, List.mem_of_getElem? hc, hb⟩)
  refine (Cache.takeSlot_meets hkept hnd hstarts).mono ?_ ?_
  · rintro r ⟨c', m'⟩ (⟨rfl, hfirst, he⟩ | ⟨base, i, rfl, ha⟩)
    · obtain ⟨rfl, rfl⟩ := Prod.mk.inj he
      refine .inl ⟨rfl, hfirst, ?_⟩
      simp only [putCache, set_same hc]
    · have hperm := ha.blocks hkept
      obtain ⟨hsound, hothers⟩ := hs.replace_one hc ha.changes
        (by simpa using hkept.first_mem ha.first) ha.kept
        (show ([] ++ c'.blocks m').Perm _ from hperm) (by rw [hperm.length_eq])
      exact .inr ⟨base, i, c', m', rfl, rfl, ha, hsound, hc, rfl, ha.shape, ha.changes, hothers⟩
  · rintro fault ⟨c', m'⟩ ⟨rfl, rfl, hch, base, hfirst, hroom⟩
    have hput : h.putCache index (c', m') = { h with memory := m' } := by
      simp only [putCache, set_same hc]
    rw [hput]
    refine ⟨rfl, sound_of_sameBlocks hs hch, undisturbed_of_sameBlocks hs hch, fun hp => ?_⟩
    obtain ⟨bs, hbs, -⟩ := hkept.available.toList_of_first hfirst
    have := (hp.available base (by rw [hbs]; exact List.mem_cons_self ..)).1
    omega

/-- The slot that an available block gives is one object more. -/
theorem takeSlot_meets (hs : h.Sound [] due) (hc : h.arena.caches[index]? = some c) :
    Meets (onCache index Cache.takeSlot) h
      (fun r h' => (r = none ∧ h' = h) ∨
        ∃ w, r = some w ∧ h'.Sound [] due ∧ h.Adds c.shape w h' ∧
          Block.baseOf w ∈ h.arena.owned h.memory)
      fun fault h' => fault = .fullBlockAvailable ∧ h'.Sound [] due ∧ h.Undisturbed h' ∧
        ¬ c.Placed h.memory := by
  have hmem := List.mem_of_getElem? hc
  have hkept := hs.caches c hmem
  have hnd := (List.nodup_flatMap.1 hs.nodup_owned).1 c hmem
  refine (takeSlot_replaces hs hc).mono ?_ fun _ _ => id
  rintro r h' (⟨rfl, -, rfl⟩ | ⟨base, i, c', m', rfl, rfl, ha, hsound, hr⟩)
  · exact .inl ⟨rfl, rfl⟩
  · have hbase := hkept.first_mem ha.first
    have hblocks : ∀ b, b ∈ c'.blocks m' ↔ b ∈ c.blocks h.memory ∨ b = base := by
      intro b
      rw [(ha.blocks hkept).mem_iff]
      exact ⟨.inl, fun hb => hb.elim id fun he => he ▸ hbase⟩
    have ho : h.arena.Owns h.memory c.shape base := ⟨c, hmem, rfl, hbase⟩
    have hx : h.arena.SlotAt h.memory c.shape base i ((h.memory.block base).slotAddress base i) :=
      ⟨ho, ha.block.lt, rfl⟩
    have ho' : (h.putCache index (c', m')).arena.Owns m' c.shape base :=
      hr.owns.2 (.inl ⟨rfl, (hblocks base).2 (.inr rfl)⟩)
    have hx' := hx.congr ho' (ha.block.serves.layout.trans (ho.serves hs).layout.symm)
    have hbaseOf := hx.baseOf_eq hs
    refine .inr ⟨_, rfl, hsound, ⟨?_, ?_, ?_, ?_, rfl, rfl, hr.words hsound ho' ha.block.words⟩,
      by rw [hbaseOf]; exact ho.mem_owned⟩
    · rintro s ⟨b, k, hy, hbit⟩
      obtain ⟨-, rfl, rfl⟩ := hx.unique hs hy
      rw [ha.block.clear] at hbit
      simp at hbit
    · intro s x
      refine hr.holds hs hsound hblocks hx' fun k _ => ?_
      show (m'.block base).bitmap.bit k = true ↔ _
      rw [ha.block.bits, Bool.or_eq_true, decide_eq_true_eq, eq_comm (a := k)]
      exact or_congr_left (and_iff_right hbase).symm
    · intro b
      rw [hbaseOf]
      exact hr.mem_owned hblocks
    · intro hp
      exact hr.placed hp (ha.placed hkept hnd (hp c hmem))

theorem takeSlot_none (hs : h.Sound [] due) (he : onCache index Cache.takeSlot h = .ok none h') :
    h' = h := by
  have hmeets : Meets (onCache index Cache.takeSlot) h (fun r t => r = none → t = h)
      fun _ _ => True := by
    cases hc : h.arena.caches[index]? with
    | none => simp only [onCache, meets_bind, meets_get, hc, meets_throw]
    | some c =>
      refine (takeSlot_meets hs hc).mono ?_ fun _ _ _ => trivial
      rintro r t (⟨-, rfl⟩ | ⟨w, rfl, -⟩)
      · exact fun _ => rfl
      · exact fun he => absurd he (Option.some_ne_none w)
  exact hmeets.of_ok he rfl

/-- A block that is loose and fit is taken over by the cache. -/
theorem adopt_replaces (hs : h.Sound [b] (due + 1)) (hfit : (h.memory.block b).Fit)
    (hc : h.arena.caches[index]? = some c) :
    Returns (onCache index (Cache.adopt b)) h fun w h' => b ∉ h.arena.owned h.memory ∧
      ∃ c' m', w = (m'.block b).slotAddress b 0 ∧ h' = h.putCache index (c', m') ∧
        c.TookOver h.memory b c' m' ∧ h'.Sound [] due ∧ h.Replaced index c b h' c' := by
  have hmem := List.mem_of_getElem? hc
  have hkept := hs.caches c hmem
  have hloose : b ∉ h.arena.owned h.memory := fun ho =>
    (List.nodup_append.1 hs.nodup).2.2 b (by simp) b ho rfl
  have hout : b ∉ c.blocks h.memory := fun hb => hloose (Arena.mem_owned.2 ⟨c, hmem, hb⟩)
  rw [Returns, meets_onCache hc]
  refine (Cache.adopt_returns hkept hout hfit).mono ?_
  rintro w ⟨c', m'⟩ ⟨rfl, ht⟩
  have hperm := ht.blocks
  obtain ⟨hsound, hothers⟩ :=
    hs.replace_one hc ht.changes (List.mem_append_left _ (by simp)) ht.kept
    (show ([] ++ c'.blocks m').Perm _ from hperm)
    (show _ + due = _ by rw [hperm.length_eq, List.length_cons]; omega)
  exact ⟨hloose, c', m', rfl, rfl, ht, hsound, hc, rfl, ht.shape, ht.changes, hothers⟩

/-- The first slot of a block that is taken over is one object more. -/
theorem adopt_returns (hs : h.Sound [b] (due + 1)) (hfit : (h.memory.block b).Fit)
    (hc : h.arena.caches[index]? = some c) :
    Returns (onCache index (Cache.adopt b)) h fun w h' =>
      h'.Sound [] due ∧ h.Adds c.shape w h' ∧ Block.baseOf w = b := by
  have hmem := List.mem_of_getElem? hc
  refine (adopt_replaces hs hfit hc).mono ?_
  rintro w h' ⟨hloose, c', m', rfl, rfl, ht, hsound, hr⟩
  have hout : b ∉ c.blocks h.memory := fun hb => hloose (Arena.mem_owned.2 ⟨c, hmem, hb⟩)
  have hblocks : ∀ b', b' ∈ c'.blocks m' ↔ b' ∈ c.blocks h.memory ∨ b' = b := by
    intro b'
    rw [ht.blocks.mem_iff, List.mem_cons, or_comm]
  have hx : (h.putCache index (c', m')).arena.SlotAt m' c.shape b 0
      ((m'.block b).slotAddress b 0) :=
    ⟨hr.owns.2 (.inl ⟨rfl, (hblocks b).2 (.inr rfl)⟩), c.shape.slots_pos, rfl⟩
  have hbaseOf := hx.baseOf_eq hsound
  refine ⟨hsound, ⟨?_, ?_, ?_, ?_, rfl, rfl, hr.words hsound hx.owner ht.block.words⟩, hbaseOf⟩
  · rintro s ⟨base, k, hy, -⟩
    have hbase := hy.baseOf_eq hs
    rw [hbaseOf] at hbase
    exact hloose (hbase ▸ hy.owner.mem_owned)
  · intro s x
    refine hr.holds hs hsound hblocks hx fun k hk => ?_
    show (m'.block b).bitmap.bit k = true ↔ _
    rw [ht.block.bits k hk]
    simp [hout]
  · intro b'
    rw [hbaseOf]
    exact hr.mem_owned hblocks
  · intro hp
    exact hr.placed hp (ht.placed hout (hp c hmem))

/-! ## Allocation -/

/-- What allocating the object `w` of shape `s` makes of the heap `h`. -/
structure Allocates (due : Nat) (may must : Word → Word → Prop) (roots : List Word) (h : Heap)
    (s : Shape) (w : Word) (h' : Heap) : Prop where
  sound : h'.Sound [] due
  object : ∃ h₁, h.Passed may must roots h₁ ∧ h₁.Adds s w h'
  placed : (∀ c ∈ h.arena.caches, c.Placed h.memory) → ∀ c ∈ h'.arena.caches, c.Placed h'.memory
  ledger : h'.arena.blocksInUse + h'.arena.counters.blocksFreed =
    h.arena.blocksInUse + h.arena.counters.blocksFreed + h.gained h'

theorem Allocates.after (ha : Allocates due may must roots h' s w h'') (hu : h.Undisturbed h') :
    Allocates due may must roots h s w h'' where
  sound := ha.sound
  object := by
    obtain ⟨h₁, hp, hadds⟩ := ha.object
    exact ⟨h₁, hp.after hu.toSameObjects hu.collections, hadds⟩
  placed hp := ha.placed (hu.placed hp)
  ledger := by
    have hgained : h'.gained h'' = h.gained h'' := by simp only [gained, hu.mem_owned]
    rw [ha.ledger, hu.ledger, hgained]

/-- An object in a block that has an owner already. -/
theorem Adds.allocates (hadds : h.Adds s w h') (hs' : h'.Sound [] due)
    (hbase : Block.baseOf w ∈ h.arena.owned h.memory) :
    Allocates due may must roots h s w h' := by
  have hgained : h.gained h' = 0 := by
    refine gained_eq_zero fun b hb => ?_
    rcases (hadds.owned b).1 hb with hb | rfl
    · exact hb
    · exact hbase
  refine ⟨hs', ⟨h, .inl ⟨rfl, fun _ _ => .rfl⟩, hadds⟩, hadds.placed, ?_⟩
  rw [hadds.counters, hadds.inUse, hgained, Nat.add_zero]

/-- An object in a block that was acquired for it. -/
theorem Ready.allocates (hready : Ready may must roots h h') (hadds : h'.Adds s w h'')
    (hs'' : h''.Sound [] due) (hnew : Block.baseOf w ∉ h.arena.owned h.memory) :
    Allocates due may must roots h s w h'' := by
  have hgained : h.gained h'' = 1 := by
    refine gained_eq_one hs'' ((hadds.owned _).2 (.inr rfl)) hnew fun b hb => ?_
    exact ((hadds.owned b).1 hb).imp_left (hready.owned b)
  refine ⟨hs'', ⟨h', hready.passed, hadds⟩, fun hp => hadds.placed (hready.placed hp), ?_⟩
  rw [hadds.counters, hadds.inUse, hready.ledger, hgained]

/-- An object is allocated, or the operation breaks off, or it leaves the objects alone as there
    is no such cache or its blocks are not on the lists that they belong on. -/
theorem allocate_ends (hr : tagging.Reads may must) (hs : h.Sound [] due) :
    Meets (allocate tagging roots index) h
      (fun w h' => ∃ c, h.arena.caches[index]? = some c ∧
        Allocates due may must roots h c.shape w h')
      fun fault h' => Halts tagging may must due roots h fault h' ∨
        (h'.Sound [] due ∧ h.Undisturbed h' ∧
          (h.arena.caches[index]? = none ∧ fault ≠ .fullBlockAvailable ∨
            ∃ c ∈ h.arena.caches, ¬ c.Placed h.memory)) := by
  rw [allocate]
  simp only [meets_bind, meets_get, meets_lift, modifyCounters, modifyArena, meets_modify]
  refine ⟨fun allocated hallocated => ?_,
    fun fault he => .inl (.overflow (.inl (Count.add_eq_error he).1))⟩
  obtain ⟨-, rfl⟩ := Count.add_eq_ok.1 hallocated
  have hs₁ := hs.countObject
  have hu₁ : h.Undisturbed h.countObject := undisturbed_countObject h
  cases hc : h.arena.caches[index]? with
  | none =>
    simp only [onCache, meets_bind, meets_get, hc, meets_throw]
    exact .inr ⟨hs₁, hu₁, .inl ⟨trivial, Fault.noConfusion⟩⟩
  | some c =>
    have hc₁ : h.countObject.arena.caches[index]? = some c := hc
    refine (takeSlot_meets hs₁ hc₁).mono ?_ ?_
    · rintro r h₂ (⟨rfl, rfl⟩ | ⟨w, rfl, hs₂, hadds, hbase⟩)
      · simp only [meets_bind]
        refine (acquireBlock_ends hr hs₁).mono ?_ fun _ _ hf => .inl (hf.after hu₁)
        rintro b h₃ ⟨hs₃, hfit, hready, hnew⟩
        obtain ⟨c', hc₃, hshape⟩ := hready.shapes index c hc₁
        refine (adopt_returns hs₃ hfit hc₃).meets ?_
        rintro w h₄ ⟨hs₄, hadds, rfl⟩
        rw [hshape] at hadds
        exact ⟨c, rfl, (hready.allocates hadds hs₄ hnew).after hu₁⟩
      · exact ⟨c, rfl, (hadds.allocates hs₂ hbase).after hu₁⟩
    · rintro fault h₂ ⟨rfl, hs₂, hu₂, hplaced⟩
      exact .inr ⟨hs₂, hu₁.trans hu₂, .inr ⟨c, List.mem_of_getElem? hc, hplaced⟩⟩

theorem allocate_meets (hr : tagging.Reads may must) (hs : h.Sound [] due) :
    Meets (allocate tagging roots index) h
      (fun w h' => ∃ c, h.arena.caches[index]? = some c ∧
        Allocates due may must roots h c.shape w h')
      fun fault h' => fault.IsFatal ∨ (h'.Sound [] due ∧ h.Undisturbed h' ∧
        (fault = .fullBlockAvailable → ∃ c ∈ h.arena.caches, ¬ c.Placed h.memory)) := by
  refine (allocate_ends hr hs).mono (fun _ _ => id) ?_
  rintro fault h' (hf | ⟨hs', hu, hrefused⟩)
  · exact .inl hf.isFatal
  · exact .inr ⟨hs', hu, fun he => hrefused.resolve_left fun hnone => hnone.2 he⟩

/-- The ways in which the cache `c` at `index` comes to one object more in `h`, where the object
    counts already: in an available block, or in one that is acquired and taken over. -/
inductive Provides (tagging : Tagging) (roots : List Word) (index : Nat) (c : Cache) (h : Heap) :
    Word → Heap → Prop
  | available {w : Word} {h' : Heap} : onCache index Cache.takeSlot h = .ok (some w) h' →
    h'.Sound [] 0 → h.Adds c.shape w h' → Provides tagging roots index c h w h'
  | acquired {b w : Word} {h₁ h' : Heap} {c₁ : Cache} :
    onCache index Cache.takeSlot h = .ok none h → acquireBlock tagging roots h = .ok b h₁ →
    h₁.Sound [b] 1 → (h₁.memory.block b).Fit → h₁.arena.caches[index]? = some c₁ →
    onCache index (Cache.adopt b) h₁ = .ok w h' → h'.Sound [] 0 → h₁.Adds c.shape w h' →
    Block.baseOf w = b → Provides tagging roots index c h w h'

theorem allocate_provides (hs : h.Sound [] 0) (he : allocate tagging roots index h = .ok w h') :
    ∃ c, h.arena.caches[index]? = some c ∧ Provides tagging roots index c h.countObject w h' := by
  have hs₁ := hs.countObject
  obtain ⟨c, hc, -⟩ := (allocate_meets tagging.reads_any hs).of_ok he
  have hc₁ : h.countObject.arena.caches[index]? = some c := hc
  refine ⟨c, hc, ?_⟩
  cases allocate_stages.of_ok he with
  | available htake =>
    rcases (takeSlot_meets hs₁ hc₁).of_ok htake with ⟨hnone, -⟩ | ⟨w', hw, hs', hadds, -⟩
    · cases hnone
    · obtain rfl := Option.some.inj hw
      exact .available htake hs' hadds
  | acquired htake hacquire hadopt =>
    obtain rfl := takeSlot_none hs₁ htake
    obtain ⟨hs₂, hfit, hready, -⟩ := (acquireBlock_meets tagging.reads_any hs₁).of_ok hacquire
    obtain ⟨c₁, hc₂, hshape⟩ := hready.shapes index c hc₁
    obtain ⟨hs', hadds, hbase⟩ := (adopt_returns hs₂ hfit hc₂).of_ok hadopt
    exact .acquired htake hacquire hs₂ hfit hc₂ hadopt hs' (hshape ▸ hadds) hbase

/-! ## Caches -/

/-- A cache without blocks is added. -/
theorem sound_addCache (hs : h.Sound loose due) (s : Shape) (events : Array Event) :
    Heap.Sound { h with
      events, arena := { h.arena with caches := h.arena.caches ++ [.new s] } } loose due ∧
    h.Undisturbed { h with
      events, arena := { h.arena with caches := h.arena.caches ++ [.new s] } } := by
  have hmem : ∀ d, d ∈ h.arena.caches ++ [.new s] ↔ d ∈ h.arena.caches ∨ d = .new s := by simp
  have howned : ({ h.arena with caches := h.arena.caches ++ [.new s] } : Arena).owned h.memory =
      h.arena.owned h.memory := by
    simp [Arena.owned]
  refine ⟨⟨hs.supply, hs.directory, hs.free, hs.idle, fun d hd => ?_, ?_, ?_⟩,
    ⟨⟨fun _ => rfl, fun s' b => ?_⟩, fun hp d hd => ?_, rfl, rfl, rfl, rfl, rfl,
      List.prefix_append _ _⟩⟩
  · rcases (hmem d).1 hd with hd | rfl
    · exact hs.caches d hd
    · exact Cache.kept_new s _
  · rw [howned]
    exact hs.blocks
  · rw [howned]
    exact hs.inUse
  · constructor
    · rintro ⟨d, hd, hshape, hb⟩
      rcases (hmem d).1 hd with hd | rfl
      · exact ⟨d, hd, hshape, hb⟩
      · simp at hb
    · rintro ⟨d, hd, hshape, hb⟩
      exact ⟨d, (hmem d).2 (.inl hd), hshape, hb⟩
  · rcases (hmem d).1 hd with hd | rfl
    · exact hp d hd
    · exact ⟨fun b hb => by simp [Cache.new] at hb, fun b hb => by simp [Cache.new] at hb⟩

theorem resolveCache_meets {size pointers : Nat} (hs : h.Sound loose due) :
    Meets (resolveCache size pointers) h
      (fun index h' => h'.Sound loose due ∧ h.Undisturbed h' ∧
        ∃ c, h'.arena.caches[index]? = some c ∧ c.shape.size = size ∧ c.shape.pointers = pointers)
      fun _ h' => h' = h := by
  rw [resolveCache]
  simp only [meets_bind, meets_get]
  cases hfind : h.arena.cacheIndex? size pointers with
  | some index =>
    obtain ⟨hlt, hholds, -⟩ := List.findIdx?_eq_some_iff_getElem.1 hfind
    simp only [Cache.holds, Bool.and_eq_true, beq_iff_eq] at hholds
    simp only [meets_pure]
    exact ⟨hs, .refl h, _, List.getElem?_eq_getElem hlt, hholds⟩
  | none =>
    simp only [meets_lift, meets_bind, tell, modifyArena, meets_modify, meets_pure]
    refine ⟨fun c hc => ?_, fun _ _ => trivial⟩
    obtain ⟨s, hsize, hptr, rfl⟩ := Cache.check_eq_ok.1 hc
    obtain ⟨hsound, hu⟩ := sound_addCache hs s
      (h.events.push (Event.newCache h.arena.caches.length s))
    exact ⟨hsound, hu, .new s, List.getElem?_concat_length .., hsize, hptr⟩

/-- Blocks can hold objects of `size` words with `pointers` pointer fields. -/
def ValidLayout (size pointers : Nat) : Prop :=
  1 ≤ size ∧ size ≤ maxObjectWords ∧ pointers ≤ size

theorem resolveCache_returns {size pointers : Nat} (hv : ValidLayout size pointers) :
    Returns (resolveCache size pointers) h fun _ _ => True := by
  obtain ⟨h₁, h₂, h₃⟩ := hv
  have hcheck := Cache.check_eq_ok.2 ⟨⟨size, pointers, h₁, h₂, h₃⟩, rfl, rfl, rfl⟩
  rw [resolveCache]
  simp only [Returns, meets_bind, meets_get]
  cases h.arena.cacheIndex? size pointers with
  | some index => exact trivial
  | none =>
    simp only [hcheck, meets_lift, meets_bind, tell, modifyArena, meets_modify, meets_pure]
    exact ⟨fun _ _ => trivial, fun _ he => by cases he⟩

theorem findCache_returns {remembered : Option Nat} {size pointers : Nat}
    (hv : ValidLayout size pointers) (hrem : ∀ index, remembered = some index →
      (h.arena.caches[index]?).any (·.holds size pointers) = true) :
    Returns (findCache remembered size pointers) h fun _ _ => True := by
  cases remembered with
  | none => exact resolveCache_returns hv
  | some index =>
    rw [findCache]
    simp only [Returns, meets_bind, meets_get, meets_ite, meets_pure, meets_throw]
    exact ⟨fun _ => trivial, fun hno => hno (hrem index rfl)⟩

theorem findCache_meets {remembered : Option Nat} {size pointers : Nat} (hs : h.Sound loose due) :
    Meets (findCache remembered size pointers) h
      (fun _ h' => h'.Sound loose due ∧ h.Undisturbed h')
      fun _ h' => h' = h := by
  cases remembered with
  | none => exact (resolveCache_meets hs).mono (fun _ _ hr => ⟨hr.1, hr.2.1⟩) fun _ _ he => he
  | some index =>
    rw [findCache]
    simp only [meets_bind, meets_get, meets_ite, meets_pure, meets_throw]
    exact ⟨fun _ => ⟨hs, .refl h⟩, fun _ => trivial⟩

theorem allocateWords_ends {size pointers : Nat} (hr : tagging.Reads may must)
    (hs : h.Sound [] due) :
    Meets (allocateWords tagging roots size pointers) h
      (fun w h' => ∃ s : Shape, s.size = size ∧ s.pointers = pointers ∧
        Allocates due may must roots h s w h')
      fun fault h' => Halts tagging may must due roots h fault h' ∨
        (h'.Sound [] due ∧ h.Undisturbed h' ∧ (ValidLayout size pointers →
          ¬ ∀ c ∈ h.arena.caches, c.Placed h.memory)) := by
  rw [allocateWords]
  simp only [meets_bind]
  refine ((resolveCache_meets hs).and_not resolveCache_returns).mono ?_ ?_
  · rintro index h₁ ⟨hs₁, hu₁, c, hc, hsize, hptr⟩
    refine (allocate_ends hr hs₁).mono ?_ ?_
    · rintro w h₂ ⟨c', hc', ha⟩
      obtain rfl := Option.some.inj (hc.symm.trans hc')
      exact ⟨c.shape, hsize, hptr, ha.after hu₁⟩
    · rintro fault h₂ (hf | ⟨hs₂, hu₂, ⟨hnone, -⟩ | ⟨d, hd, hplaced⟩⟩)
      · exact .inl (hf.after hu₁)
      · rw [hc] at hnone
        cases hnone
      · exact .inr ⟨hs₂, hu₁.trans hu₂, fun _ hp => hplaced (hu₁.placed hp d hd)⟩
  · rintro fault h₁ ⟨he, hinvalid⟩
    rw [he]
    exact .inr ⟨hs, .refl h, fun hvalid => absurd hvalid hinvalid⟩

theorem allocateWords_meets {size pointers : Nat} (hr : tagging.Reads may must)
    (hs : h.Sound [] due) :
    Meets (allocateWords tagging roots size pointers) h
      (fun w h' => ∃ s : Shape, s.size = size ∧ s.pointers = pointers ∧
        Allocates due may must roots h s w h')
      fun fault h' => fault.IsFatal ∨ (h'.Sound [] due ∧ h.Undisturbed h') :=
  (allocateWords_ends hr hs).mono (fun _ _ => id) fun _ _ hf =>
    hf.imp (·.isFatal) fun hf => ⟨hf.1, hf.2.1⟩

theorem allocateBytes_ends {bytes : Nat} (hr : tagging.Reads may must) (hs : h.Sound [] due) :
    Meets (allocateBytes tagging roots bytes) h
      (fun w h' => ∃ words, wordsForBytes bytes minByteWords = .ok words ∧
        ∃ s : Shape, s.size = words ∧ s.pointers = 0 ∧
          Allocates due may must roots h s w h')
      fun fault h' => Halts tagging may must due roots h fault h' ∨
        (h'.Sound [] due ∧ h.Undisturbed h' ∧
          ∀ words, wordsForBytes bytes minByteWords = .ok words → ValidLayout words 0 →
            ¬ ∀ c ∈ h.arena.caches, c.Placed h.memory) := by
  rw [allocateBytes]
  simp only [meets_bind, meets_lift]
  refine ⟨fun words hw => ?_, fun fault he => .inr ⟨hs, .refl h, fun words hw => ?_⟩⟩
  · refine (allocateWords_ends hr hs).mono (fun _ _ ha => ⟨words, hw, ha⟩) ?_
    rintro fault h' (hf | ⟨hs', hu, hrefused⟩)
    · exact .inl hf
    · refine .inr ⟨hs', hu, fun words' hw' => ?_⟩
      rw [hw] at hw'
      cases hw'
      exact hrefused
  · rw [he] at hw
    cases hw

theorem allocateBytes_meets {bytes : Nat} (hr : tagging.Reads may must) (hs : h.Sound [] due) :
    Meets (allocateBytes tagging roots bytes) h
      (fun w h' => ∃ words, wordsForBytes bytes minByteWords = .ok words ∧
        ∃ s : Shape, s.size = words ∧ s.pointers = 0 ∧
          Allocates due may must roots h s w h')
      fun fault h' => fault.IsFatal ∨ (h'.Sound [] due ∧ h.Undisturbed h') :=
  (allocateBytes_ends hr hs).mono (fun _ _ => id) fun _ _ hf =>
    hf.imp (·.isFatal) fun hf => ⟨hf.1, hf.2.1⟩

end Heap

end SlabHeap
