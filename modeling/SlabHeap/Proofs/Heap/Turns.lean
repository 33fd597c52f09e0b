/-
  The search for a block to slice.

  In an arena whose megablocks are used in turn, `sliceBlock` takes the next block of the current
  megablock, and maps one only if all are exhausted (`sliceBlock_turn`).  Acquiring a block and
  allocating keep the turns (`acquireBlock_turn`, `allocate_turn`), whatever a collection does in
  between.

  `sliceLoop` is the plain form of the search: it tries the current megablock, or a new one, and
  starts again without a current one if that had no block left.  In an arena in turn, the first
  round finds a block, so the loop is `sliceBlock` (`sliceLoop_eq`).
-/
import SlabHeap.Proofs.Heap.Growth
import SlabHeap.Proofs.Heap.Shapes
import SlabHeap.Proofs.Memory.Turns

namespace SlabHeap

variable {tagging : Tagging} {roots : List Word}
  {due index rounds : Nat} {b w : Word}

/-- The megablocks of an arena are used in turn. -/
abbrev Arena.InTurn (a : Arena) : Prop := a.directory.InTurn a.current

theorem Arena.InTurn.congr {a a' : Arena} (ht : a.InTurn) (hd : a'.directory = a.directory)
    (hc : a'.current = a.current) : a'.InTurn := by
  rw [Arena.InTurn, hd, hc]
  exact ht

theorem Arena.InTurn.of_frame {a a' : Arena} (ht : a.InTurn) (hf : a'.frame = a.frame) :
    a'.InTurn :=
  ht.congr (congrArg Arena.Frame.directory hf) (congrArg Arena.Frame.current hf)

namespace Heap

variable {h h' h'' : Heap}

/-! ## Slicing -/

/-- The megablock `mb` of `h` is the current one, and all others are exhausted. -/
structure Current (h : Heap) (mb : Megablock) : Prop where
  mem : mb ∈ h.arena.directory.megablocks
  current : h.arena.current = some mb.base
  unfinished : mb.isExhausted = false
  others : ∀ other ∈ h.arena.directory.megablocks, other.base ≠ mb.base →
    0 < other.sliced ∧ other.isExhausted

/-- A megablock was mapped from `h` to `h'` only if there was no current one. -/
def MapsOne (h h' : Heap) : Prop :=
  if h.arena.current = none then h'.arena.directory.size ≤ h.arena.directory.size + 1
  else h'.arena.directory.size = h.arena.directory.size

theorem mapMegablock_stages : Meets mapMegablock h
    (fun mb h' => mb.isExhausted = false ∧ h'.arena.current = some mb.base ∧
      h'.arena.directory = h.arena.directory.insert mb) fun _ _ => True := by
  rw [mapMegablock]
  simp only [meets_bind, meets_get]
  cases h.memory.map megablockBytes with
  | error error => exact trivial
  | ok mapped =>
    simp only [tell, modifyArena, meets_bind, meets_modify, meets_pure]
    exact ⟨rfl, trivial, trivial⟩

theorem currentMegablock_turn (hs : h.Sound [] due) (ht : h.arena.InTurn) :
    Meets currentMegablock h
      (fun mb h' => h'.Sound [] due ∧ h'.Current mb ∧ h.MapsOne h' ∧
        h'.arena.directory.blocks.Perm h.arena.directory.blocks) fun _ _ => True := by
  have hordered := hs.directory.ordered
  rw [currentMegablock]
  simp only [meets_bind, meets_get]
  cases hcur : h.arena.current with
  | none =>
    refine ((mapMegablock_meets hs).and mapMegablock_stages).mono ?_ fun _ _ _ => trivial
    rintro mb h' ⟨⟨hs', -, hmem, -, hperm, -⟩, hex, hcur', hdir⟩
    refine ⟨hs', ⟨hmem, hcur', hex, fun other ho hne => ?_⟩, ?_, hperm⟩
    · rw [hdir, Directory.mem_insert hordered] at ho
      obtain ⟨ho, -⟩ := ho.resolve_left fun he => hne (he ▸ rfl)
      exact ⟨ht.begun other ho, ht.current_eq_none.1 hcur other ho⟩
    · rw [MapsOne, if_pos hcur, hdir]
      exact Directory.size_insert_le
  | some base =>
    obtain ⟨mb, hmem, rfl, hex⟩ := ht.current base hcur
    have hstart := (Directory.startingAt?_eq_some hordered).2 ⟨hmem, rfl⟩
    simp only [Option.bind_some, hstart, meets_ite, meets_pure, hex, Bool.false_eq_true,
      false_imp_iff, not_false_eq_true, true_imp_iff, true_and]
    refine ⟨hs, ⟨hmem, hcur, hex, fun other ho hne => ?_⟩, ?_, .refl _⟩
    · refine ⟨ht.begun other ho, ht.exhausted ho fun he => hne ?_⟩
      exact Option.some.inj (he.symm.trans hcur)
    · have hne : h.arena.current ≠ none := by
        rw [hcur]
        exact Option.some_ne_none _
      rw [MapsOne, if_neg hne]

/-- A block is sliced, from the current megablock or a new one. -/
structure Slices (h : Heap) (b : Word) (h' : Heap) : Prop where
  blocks : h'.arena.directory.blocks.Perm (b :: h.arena.directory.blocks)
  maps : h.MapsOne h'

theorem sliceBlock_turn (hs : h.Sound [] due) (ht : h.arena.InTurn) :
    Meets sliceBlock h (fun b h' => h'.arena.InTurn ∧ h.Slices b h') fun _ _ => True := by
  rw [sliceBlock]
  simp only [meets_bind, meets_get]
  refine (currentMegablock_turn hs ht).mono ?_ fun _ _ _ => trivial
  rintro mb h₁ ⟨hs₁, hc, hmaps, hperm⟩
  have hordered := hs₁.directory.ordered
  have hlt : mb.sliced < blocksPerMegablock := by
    have hle := (hs₁.directory.megablocks mb hc.mem).sliced
    have hne : mb.sliced ≠ blocksPerMegablock := by simpa [Megablock.isExhausted] using hc.unfinished
    omega
  obtain ⟨-, hblocks⟩ : (h₁.arena.directory.insert (mb.slice h₁.memory).2.1).Mapped
      (mb.slice h₁.memory).2.2 ∧ (h₁.arena.directory.insert (mb.slice h₁.memory).2.1).blocks.Perm
        ([mb.blockBase mb.sliced] ++ h₁.arena.directory.blocks) :=
    Directory.mapped_slice hs₁.directory hc.mem hlt rfl le_rfl
  simp only [meets_set, meets_pure]
  refine ⟨?_, hblocks.trans (hperm.cons _), ?_⟩
  · exact Directory.inTurn_insert hordered hc.others (Nat.succ_pos mb.sliced)
  · have hsize : (h₁.arena.directory.insert { mb with sliced := mb.sliced + 1 }).size =
        h₁.arena.directory.size := Directory.size_insert_of_mem hordered hc.mem rfl
    unfold MapsOne at hmaps ⊢
    show if _ then (h₁.arena.directory.insert _).size ≤ _ else (h₁.arena.directory.insert _).size = _
    rw [Megablock.slice, hsize]
    exact hmaps

/-! ## Acquiring -/

theorem adjustThreshold_turn :
    Maintains (fun h : Heap => (h.arena.directory, h.arena.current)) adjustThreshold h := by
  simp only [Maintains, adjustThreshold, tell, modifyArena, meets_bind, meets_get, meets_modify,
    meets_lift, meets_ite, meets_pure, implies_true, and_self]

theorem Slices.congr (hsl : h.Slices b h') (hd : h''.arena.directory = h'.arena.directory) :
    h.Slices b h'' where
  blocks := hd ▸ hsl.blocks
  maps := by
    have hmaps := hsl.maps
    unfold MapsOne at hmaps ⊢
    rwa [hd]

theorem Slices.of_eq (hsl : h'.Slices b h'') (hd : h'.arena.directory = h.arena.directory)
    (hc : h'.arena.current = h.arena.current) : h.Slices b h'' where
  blocks := hd ▸ hsl.blocks
  maps := by
    have hmaps := hsl.maps
    unfold MapsOne at hmaps ⊢
    rwa [hd, hc] at hmaps

/-- The directory stays as it is, or a block is sliced. -/
theorem acquireBlock_turn (hs : h.Sound [] 0) (ht : h.arena.InTurn) :
    Meets (acquireBlock tagging roots) h (fun b h' => h'.arena.InTurn ∧
      (h'.arena.directory = h.arena.directory ∨ h.Slices b h')) fun _ _ => True := by
  have hs₁ : h.countBlock.Sound [] 1 := hs.countBlock
  refine acquireBlock_stages.mono ?_ fun _ _ _ => trivial
  rintro b h' hstages
  cases hstages with
  | @reused h₁ _ htake hjournal =>
    have hframe : h₁.arena.frame = h.countBlock.arena.frame :=
      keepsFrame_takeFreeBlock.of_ok htake
    rw [hjournal.2]
    exact ⟨ht.of_frame hframe, .inl (congrArg Arena.Frame.directory hframe)⟩
  | sliced htake hlt hslice =>
    obtain ⟨ht', hsl⟩ := (sliceBlock_turn hs₁ ht).of_ok hslice
    exact ⟨ht', .inr (hsl.of_eq rfl rfl)⟩
  | @collected h₁ h₂ _ htake hle hcollect hadjust hslice =>
    obtain ⟨-, hs₂, -⟩ := (collect_meets tagging.reads_any hs₁).of_ok hcollect
    obtain ⟨hs₃, -⟩ := (adjustThreshold_meets hs₂).of_ok hadjust
    have hframe : h₁.arena.frame = h.countBlock.arena.frame := keepsFrame_collect.of_ok hcollect
    have hturn : (h₂.arena.directory, h₂.arena.current) = (h₁.arena.directory, h₁.arena.current) :=
      adjustThreshold_turn.of_ok hadjust
    obtain ⟨hd, hc⟩ := Prod.mk.inj hturn
    have ht₁ : h₁.arena.InTurn := ht.of_frame hframe
    obtain ⟨ht', hsl⟩ := (sliceBlock_turn hs₃ (ht₁.congr hd hc)).of_ok hslice
    exact ⟨ht', .inr (hsl.of_eq (hd.trans (congrArg Arena.Frame.directory hframe))
      (hc.trans (congrArg Arena.Frame.current hframe)))⟩

theorem allocate_turn (hs : h.Sound [] 0) (ht : h.arena.InTurn)
    (he : allocate tagging roots index h = .ok w h') : h'.arena.InTurn ∧
      (h'.arena.directory = h.arena.directory ∨ h.Slices (Block.baseOf w) h') := by
  have ht₁ : h.countObject.arena.InTurn := ht
  obtain ⟨c, -, hprovides⟩ := allocate_provides hs he
  cases hprovides with
  | available htake =>
    have hframe : h'.arena.frame = h.countObject.arena.frame :=
      (keepsFrame_onCache fun _ => Cache.maintains_takeSlot).of_ok htake
    exact ⟨ht₁.of_frame hframe, .inl (congrArg Arena.Frame.directory hframe)⟩
  | @acquired _ _ h₂ _ _ _ hacquire _ _ _ hadopt _ _ hbase =>
    subst hbase
    obtain ⟨ht₂, hdir⟩ := (acquireBlock_turn hs.countObject ht₁).of_ok hacquire
    have hframe : h'.arena.frame = h₂.arena.frame :=
      (keepsFrame_onCache fun _ => Cache.maintains_adopt).of_ok hadopt
    have hd : h'.arena.directory = h₂.arena.directory := congrArg Arena.Frame.directory hframe
    refine ⟨ht₂.of_frame hframe, hdir.imp hd.trans fun hsl => ?_⟩
    have hsl' : h.Slices (Block.baseOf w) h₂ := hsl.of_eq rfl rfl
    exact hsl'.congr hd

/-! ## The loop -/

/-- The start of the megablock to slice the next block from, which is mapped if there is none. -/
def currentBase : Action Heap Word := do
  match (← get).arena.current with
  | some base => return base
  | none => return (← mapMegablock).base

/-- Tries to slice a block from the megablock that starts at `base`, which has none if it is
    exhausted, or unknown.  It is the current one no longer, then, and neither is one whose last
    block is taken. -/
def sliceFrom (base : Word) : Action Heap (Option Word) := do
  let h ← get
  match (h.arena.directory.startingAt? base).bind (·.slice? h.memory) with
  | none =>
    modifyArena ({ · with current := none })
    return none
  | some (block, megablock, memory) =>
    set { h with memory, arena := { h.arena with directory := h.arena.directory.insert megablock } }
    if ((← get).arena.directory.startingAt? base).all (·.isExhausted) then
      modifyArena ({ · with current := none })
    return some block

/-- The search for a block to slice, in at most so many rounds. -/
def sliceLoop : Nat → Action Heap Word
  | 0 => throw .endless
  | rounds + 1 => do
    match ← sliceFrom (← currentBase) with
    | some block => return block
    | none => sliceLoop rounds

/-- Both searches start from the same megablock. -/
theorem currentBase_eq (hs : h.Sound [] due) (ht : h.arena.InTurn) :
    currentBase h = (currentMegablock >>= fun mb => return mb.base) h := by
  rw [currentBase, currentMegablock, bind_assoc]
  refine Meets.bind_congr (x := get) ?_
  rw [meets_get]
  cases hcur : h.arena.current with
  | none => simp only [hcur, Option.bind_none]
  | some base =>
    obtain ⟨mb, hmem, rfl, hex⟩ := ht.current base hcur
    have hstart := (Directory.startingAt?_eq_some hs.directory.ordered).2 ⟨hmem, rfl⟩
    simp only [hcur, Option.bind_some, hstart, hex]
    rfl

/-- The current megablock has a block left. -/
theorem sliceFrom_eq {mb : Megablock} (hd : h.arena.directory.Ordered) (hc : h.Current mb) :
    sliceFrom mb.base h = .ok (some (mb.slice h.memory).1) { h with
      memory := (mb.slice h.memory).2.2
      arena := { h.arena with
        directory := h.arena.directory.insert (mb.slice h.memory).2.1
        current := if (mb.slice h.memory).2.1.isExhausted then none else some mb.base } } := by
  have hstart : h.arena.directory.startingAt? mb.base = some mb :=
    (Directory.startingAt?_eq_some hd).2 ⟨hc.mem, rfl⟩
  have hslice : mb.slice? h.memory = some (mb.slice h.memory) := by
    rw [Megablock.slice?, hc.unfinished]
    rfl
  have hstart' : (h.arena.directory.insert (mb.slice h.memory).2.1).startingAt? mb.base =
      some (mb.slice h.memory).2.1 :=
    (Directory.startingAt?_eq_some (Directory.ordered_insert hd _)).2
      ⟨(Directory.mem_insert hd).2 (.inl rfl), rfl⟩
  have hend : Returns (sliceFrom mb.base) h fun r h' => r = some (mb.slice h.memory).1 ∧ h' = { h with
      memory := (mb.slice h.memory).2.2
      arena := { h.arena with
        directory := h.arena.directory.insert (mb.slice h.memory).2.1
        current := if (mb.slice h.memory).2.1.isExhausted then none else some mb.base } } := by
    simp only [Returns, sliceFrom, modifyArena, meets_bind, meets_get, hstart, Option.bind_some,
      hslice, meets_set, hstart', Option.all_some, meets_ite, meets_modify, meets_pure]
    refine ⟨fun hex => ⟨trivial, by rw [if_pos hex]⟩, fun hex => ⟨trivial, ?_⟩⟩
    rw [if_neg hex, ← hc.current]
  obtain ⟨_, _, he, rfl, rfl⟩ := hend.exists_ok
  exact he

/-- In an arena in turn, the loop finds a block in its first round. -/
theorem sliceLoop_eq (hs : h.Sound [] due) (ht : h.arena.InTurn) (hrounds : 0 < rounds) :
    sliceLoop rounds h = sliceBlock h := by
  obtain ⟨rounds, rfl⟩ := Nat.exists_eq_succ_of_ne_zero hrounds.ne'
  have hbase : sliceLoop (rounds + 1) h = (currentMegablock >>= fun mb => sliceFrom mb.base >>=
      fun r => match r with
        | some block => pure block
        | none => sliceLoop rounds) h := by
    have heq := currentBase_eq hs ht
    rw [sliceLoop]
    simp only [bind, EStateM.bind] at heq ⊢
    rw [heq]
    cases currentMegablock h <;> rfl
  rw [hbase, sliceBlock]
  refine Meets.bind_congr ((currentMegablock_turn hs ht).mono ?_ fun _ _ _ => trivial)
  rintro mb h₁ ⟨hs₁, hc, -, -⟩
  simp only [bind, EStateM.bind, sliceFrom_eq hs₁.directory.ordered hc]
  rfl

/-- `acquireBlock` with blocks that are sliced by `slice`. -/
def acquireBlockBy (slice : Action Heap Word) (tagging : Tagging) (roots : List Word) :
    Action Heap Word := do
  let inUse ← Count.add (← get).arena.blocksInUse 1
  modifyArena ({ · with blocksInUse := inUse })
  match ← takeFreeBlock with
  | some block =>
    tell (.reusedBlock block)
    return block
  | none =>
    if (← get).arena.threshold ≤ inUse then
      collect tagging roots
      adjustThreshold
    slice

theorem acquireBlock_eq_acquireBlockBy : acquireBlock = acquireBlockBy sliceBlock := rfl

/-- In an arena in turn, blocks are acquired as by the loop, whatever a collection does before
    it. -/
theorem acquireBlock_eq_loop (hs : h.Sound [] 0) (ht : h.arena.InTurn) (hrounds : 0 < rounds) :
    acquireBlock tagging roots h = acquireBlockBy (sliceLoop rounds) tagging roots h := by
  rw [acquireBlock_eq_acquireBlockBy, acquireBlockBy, acquireBlockBy]
  refine Meets.bind_congr (x := get) ?_
  rw [meets_get]
  refine Meets.bind_congr ?_
  rw [meets_lift]
  refine ⟨fun inUse hinUse => ?_, fun _ _ => trivial⟩
  obtain ⟨-, rfl⟩ := Count.add_eq_ok.1 hinUse
  refine Meets.bind_congr ?_
  simp only [modifyArena, meets_modify]
  have hs₁ : h.countBlock.Sound [] 1 := hs.countBlock
  have ht₁ : h.countBlock.arena.InTurn := ht
  refine Meets.bind_congr ((takeFreeBlock_returns hs₁).meets fun r h₂ htake => ?_)
  cases r with
  | some block => rfl
  | none =>
    obtain ⟨rfl, -⟩ := htake
    refine Meets.bind_congr (x := get) ?_
    rw [meets_get]
    change (if _ then _ else _ : Action Heap Word) h.countBlock =
      (if _ then _ else _ : Action Heap Word) h.countBlock
    split
    · refine Meets.bind_congr (((collect_meets tagging.reads_any hs₁).and keepsFrame_collect).mono
        ?_ fun _ _ _ => trivial)
      rintro - h₃ ⟨⟨-, hs₃, -⟩, hframe⟩
      have ht₃ : h₃.arena.InTurn := ht₁.of_frame hframe
      refine Meets.bind_congr (((adjustThreshold_meets hs₃).and adjustThreshold_turn).mono
        ?_ fun _ _ _ => trivial)
      rintro - h₄ ⟨⟨hs₄, -⟩, hturn⟩
      obtain ⟨hd, hc⟩ := Prod.mk.inj hturn
      exact (sliceLoop_eq hs₄ (ht₃.congr hd hc) hrounds).symm
    · exact (sliceLoop_eq hs₁ ht₁ hrounds).symm

end Heap

end SlabHeap
