/-
  The threshold along a run.

  A threshold is doubled where a collection leaves nine tenths of it in use, so it is the
  initial one, or no more than twenty ninths of the blocks that were in use at some time
  (`Heap.Demanded`).  Allocations alone change it.  As blocks are as few as their addresses, no
  sum or product of `acquireBlock` leaves the range of a machine word, however large the initial
  threshold is (`threshold_follows_demand`).
-/
import SlabHeap.Proofs.Run.Garbage

namespace SlabHeap

variable {tagging : Tagging} {may : Word → Word → Prop} {past : List Step} {h h' : Heap}
  {op : Operation} {r : Option Word} {roots : List Word} {due most most' : Nat}

/-! ## Extents -/

/-- Where a threshold is raised, nine tenths of it are in use. -/
theorem Extent.acquire_threshold (e : Extent) (left : Nat) :
    (e.acquire left).threshold = e.threshold ∨ (e.acquire left).threshold = e.threshold * 2 ∧
      9 * (e.acquire left).threshold ≤ 20 * (e.acquire left).inUse := by
  unfold acquire
  split
  · exact .inl rfl
  split
  · exact .inl rfl
  dsimp only
  unfold adjusted
  split
  next hle =>
    refine .inr ⟨rfl, ?_⟩
    rw [growthTenths] at hle
    rw [thresholdGrowth]
    omega
  next => exact .inl rfl

namespace Heap

/-- The threshold is the initial one, or was doubled from it, and is then no more than twenty
    ninths of `most`. -/
def Demanded (h : Heap) (most : Nat) : Prop :=
  ∃ k, h.arena.threshold = h.arena.options.initialThreshold * 2 ^ k ∧
    (0 < k → 9 * h.arena.threshold ≤ 20 * most)

theorem Demanded.congr (hd : h.Demanded most) (ht : h'.arena.threshold = h.arena.threshold)
    (ho : h'.arena.options.initialThreshold = h.arena.options.initialThreshold)
    (hle : most ≤ most') : h'.Demanded most' := by
  obtain ⟨k, hk, hmost⟩ := hd
  refine ⟨k, by rw [ht, ho, hk], fun hpos => ?_⟩
  have hbound := hmost hpos
  rw [ht]
  omega

theorem Demanded.grows (hd : h.Demanded most) (hg : Grows may roots h h') :
    h'.Demanded (max h'.arena.blocksInUse most) := by
  have hinitial : h'.arena.options.initialThreshold = h.arena.options.initialThreshold :=
    hg.initial
  rcases hg with he | ⟨left, -, -, he⟩
  · exact hd.congr (congrArg Extent.threshold he) hinitial (le_max_right _ _)
  · have hthreshold : h'.arena.threshold = (h.extent.acquire left).threshold :=
      congrArg Extent.threshold he
    have hinUse : h'.arena.blocksInUse = (h.extent.acquire left).inUse :=
      congrArg Extent.inUse he
    rcases h.extent.acquire_threshold left with hsame | ⟨hdouble, hmost⟩
    · exact hd.congr (hthreshold.trans hsame) hinitial (le_max_right _ _)
    · obtain ⟨k, hk, -⟩ := hd
      rw [← hthreshold, ← hinUse] at hmost
      refine ⟨k + 1, ?_, fun _ => hmost.trans (Nat.mul_le_mul_left _ (le_max_left _ _))⟩
      rw [hinitial, Nat.pow_succ, ← Nat.mul_assoc, ← hk]
      exact hthreshold.trans hdouble

/-! ## Ranges -/

/-- The blocks in use, and the threshold, are no more than the addresses of blocks and one. -/
structure Few (h : Heap) : Prop where
  inUse : h.arena.blocksInUse ≤ Word.count / blockBytes + 1
  threshold : h.arena.threshold ≤ Word.count / blockBytes + 1

/-- No number that `adjustThreshold` computes leaves the range of a machine word. -/
structure Adjustable (h : Heap) : Prop where
  used : h.arena.blocksInUse * 10 < Word.count
  limit : h.arena.threshold * growthTenths < Word.count
  raised : h.arena.threshold * thresholdGrowth < Word.count

/-- The addresses of blocks are few enough for ten times their number to be a machine word. -/
theorem ten_mul_lt {n : Nat} (hn : n ≤ Word.count / blockBytes + 1) : 10 * n < Word.count := by
  have hbound : 10 * (Word.count / blockBytes + 1) < Word.count := by decide
  exact (Nat.mul_le_mul_left 10 hn).trans_lt hbound

theorem Few.adjustable (hf : h.Few) : h.Adjustable := by
  have hused := ten_mul_lt hf.inUse
  have hthreshold := ten_mul_lt hf.threshold
  refine ⟨by omega, ?_, ?_⟩
  · rw [growthTenths]
    omega
  · rw [thresholdGrowth]
    omega

/-- The blocks in use are as few as the addresses of blocks. -/
theorem Sound.inUse_le (hs : h.Sound [] due) :
    h.arena.blocksInUse ≤ Word.count / blockBytes + due := by
  have hlen := hs.blocks.length_eq
  have hle := Directory.length_blocks_le hs.directory hs.supply
  rw [List.nil_append, List.length_append] at hlen
  rw [hs.inUse]
  omega

/-- A collection that the threshold asked for leaves few blocks in use. -/
theorem collect_few (hs : h.Sound [] 1) (hle : h.arena.threshold ≤ h.arena.blocksInUse) :
    Meets (collect tagging roots) h (fun _ h' => h'.Sound [] 1 ∧ h'.Few) fun _ _ => True := by
  refine (collect_meets tagging.reads_any hs).mono ?_ fun _ _ _ => trivial
  rintro - h' ⟨⟨R, -, hcol⟩, hs', hacc⟩
  exact ⟨hs', hs'.inUse_le, (hacc.threshold.trans_le hle).trans hs.inUse_le⟩

theorem adjustThreshold_returns (hs : h.Sound [] due) (hf : h.Few) :
    Returns adjustThreshold h fun _ h' => h'.Sound [] due := by
  refine (adjustThreshold_ends hs).mono (fun _ _ hr => hr.1) ?_
  rintro fault h' ⟨-, hmany | hmany⟩
  · exact absurd hmany (Nat.not_le_of_lt (ten_mul_lt hf.inUse))
  · exact absurd hmany (Nat.not_le_of_lt (ten_mul_lt hf.threshold))

theorem countBlock_few (hs : h.Sound [] 0) : h.arena.blocksInUse + 1 < Word.count := by
  have hle : h.arena.blocksInUse + 1 ≤ Word.count / blockBytes + 1 :=
    Nat.succ_le_succ hs.inUse_le
  have hlt := ten_mul_lt hle
  omega

/-- A collection makes no place for a block to be sliced at. -/
theorem Dry.of_collect (hd : h'.Dry) (hs : h.Sound [] due)
    (he : collect tagging roots h = .ok () h') : h.Dry := by
  have hframe := keepsFrame_collect.of_ok he
  exact hd.of_changes (collect_changes hs he) (congrArg Arena.Frame.directory hframe)
    (congrArg Arena.Frame.current hframe)

theorem Dry.of_adjustThreshold (hd : h'.Dry) (he : adjustThreshold h = .ok () h') : h.Dry := by
  obtain ⟨hmemory, hdirectory, hcurrent⟩ : h'.memory = h.memory ∧
      h'.arena.directory = h.arena.directory ∧ h'.arena.current = h.arena.current := by
    simpa only [Prod.mk.injEq] using adjustThreshold_beside.of_ok he
  exact hd.congr hmemory hdirectory hcurrent

/-- Acquiring a block fails only where no block is without an owner, and then where no
    block can be sliced or where the collection that the threshold asks for fails. -/
theorem acquireBlock_fails (hs : h.Sound [] 0) :
    Meets (acquireBlock tagging roots) h (fun _ _ => True) fun fault h' =>
      h.arena.free.toList h.memory = [] ∧ (fault = .outOfMemory ∧ h.Dry ∨
        h.arena.threshold ≤ h.arena.blocksInUse + 1 ∧
          collect tagging roots h.countBlock = .error fault h') := by
  have hs₁ : h.countBlock.Sound [] 1 := hs.countBlock
  rw [acquireBlock]
  simp only [meets_bind, meets_get, meets_lift, modifyArena, meets_modify]
  refine ⟨fun inUse hinUse => ?_, fun fault he => ?_⟩
  · obtain ⟨-, rfl⟩ := Count.add_eq_ok.1 hinUse
    refine (takeFreeBlock_returns hs₁).meets fun r h₂ htake => ?_
    cases r with
    | some b => exact trivial
    | none =>
      obtain ⟨rfl, hnone⟩ : h₂ = h.countBlock ∧ _ := htake
      simp only [meets_bind, meets_get, meets_ite]
      refine ⟨fun hle => ?_, fun _ => ?_⟩
      · refine ((collect_few hs₁ hle).and meets_self).mono ?_ fun _ _ hf =>
          ⟨hnone, .inr ⟨hle, hf.2⟩⟩
        rintro ⟨⟩ h₃ ⟨⟨hs₃, hfew⟩, hcollect⟩
        refine ((adjustThreshold_returns hs₃ hfew).and meets_self).mono ?_
          fun _ _ hf => hf.1.elim
        rintro ⟨⟩ h₄ ⟨hs₄, hadjust⟩
        refine (sliceBlock_meets hs₄).mono (fun _ _ _ => trivial) ?_
        rintro fault h₅ ⟨he, hdry, -⟩
        have hdry' := (hdry.of_adjustThreshold hadjust).of_collect hs₁ hcollect
        exact ⟨hnone, .inl ⟨he, hdry'.congr rfl rfl rfl⟩⟩
      · refine (sliceBlock_meets hs₁).mono (fun _ _ _ => trivial) ?_
        rintro fault h₅ ⟨he, hdry, -⟩
        exact ⟨hnone, .inl ⟨he, hdry.congr rfl rfl rfl⟩⟩
  · have hno : Count.add h.arena.blocksInUse 1 = .ok (h.arena.blocksInUse + 1) :=
      Count.add_eq_ok.2 ⟨countBlock_few hs, rfl⟩
    rw [hno] at he
    cases he

end Heap

/-! ## Runs -/

/-- The largest number of blocks that were in use after a step.  Within a step, a block that is
    being acquired counts beside those that the collection before it frees, so the number may
    have been larger still. -/
def peak : List Step → Nat
  | [] => 0
  | s :: past => max s.after.arena.blocksInUse (peak past)

theorem Run.demanded (hr : Run tagging anySlots past h) : h.Demanded (peak past) := by
  induction hr with
  | start hi =>
    obtain ⟨options, harena⟩ := hi.eq_blank
    rw [Heap.Demanded, harena]
    exact ⟨0, (Nat.mul_one _).symm, fun hpos => absurd hpos (Nat.lt_irrefl 0)⟩
  | @step past h h' op r hr _ he ih =>
    by_cases ha : op.IsAllocation
    · exact ih.grows (he.grows tagging.reads_any hr.sound ha)
    · have hframe := he.frame ha
      exact ih.congr (congrArg Arena.Frame.threshold hframe)
        (congrArg (·.options.initialThreshold) hframe) (le_max_right _ _)

/-- The threshold is the initial one, or was doubled from it and is bound by the number of blocks
    that were in use.  No operation but an allocation changes it, and where blocks are acquired
    no count overflows, but for those of the collection.  An allocation counts its object before
    it acquires a block for it, and resolves a layout, if it has to, as an operation would. -/
theorem threshold_follows_demand (hr : Run tagging anySlots past h) :
    (∃ k, h.arena.threshold = h.arena.options.initialThreshold * 2 ^ k ∧
      (0 < k → 9 * h.arena.threshold ≤ 20 * peak past)) ∧
    (∀ op : Operation, ¬ op.IsAllocation →
      Maintains (fun h : Heap => h.arena.threshold) (op.run tagging) h) ∧
    h.arena.blocksInUse + 1 < Word.count ∧
    (∀ roots h', h.arena.threshold ≤ h.arena.blocksInUse + 1 →
      Heap.collect tagging roots h.countObject.countBlock = .ok () h' → h'.Adjustable) ∧
    ∀ roots fault h', Heap.acquireBlock tagging roots h.countObject = .error fault h' →
      fault = .outOfMemory ∨
        Heap.collect tagging roots h.countObject.countBlock = .error fault h' := by
  have hs := hr.sound
  have hs₁ := hs.countObject
  have hs₂ : h.countObject.countBlock.Sound [] 1 := hs.countObject.countBlock
  refine ⟨hr.demanded, fun op ha => (Operation.keepsFrame ha).map (·.threshold),
    Heap.countBlock_few hs, fun roots h' hle he => ?_, fun roots fault h' he => ?_⟩
  · exact ((Heap.collect_few hs₂ hle).of_ok he).2.adjustable
  · exact ((Heap.acquireBlock_fails hs₁).of_error he).2.imp And.left And.right

/-- An object in an arena with a threshold of one: the collection before its block leaves no
    other block in use, which is enough to double the threshold. -/
theorem threshold_follows_demand_of_one : ∃ past h, Run .untagged anySlots past h ∧
    past.length = 1 ∧ h.arena.options.initialThreshold = 1 ∧ h.arena.threshold = 2 ∧
    peak past = 1 ∧ h.arena.blocksInUse + 1 < Word.count ∧ ∃ k, 2 = 1 * 2 ^ k ∧
      (0 < k → 9 * 2 ≤ 20 * 1) := by
  suffices hrun : ∃ past h, Run .untagged anySlots past h ∧ past.length = 1 ∧
      h.arena.options.initialThreshold = 1 ∧ h.arena.threshold = 2 ∧ peak past = 1 by
    obtain ⟨past, h, hr, hlength, hinitial, hthreshold, hpeak⟩ := hrun
    obtain ⟨hdemand, -, hfew, -⟩ := threshold_follows_demand hr
    rw [hinitial, hthreshold, hpeak] at hdemand
    exact ⟨past, h, hr, hlength, hinitial, hthreshold, hpeak, hfew, hdemand⟩
  have h₀ : Run .untagged anySlots [] (.fresh 1 ⟨1, false⟩) :=
    .start (Heap.initial_fresh (by decide) (by decide))
  have h₁ := h₀.next (.allocateWords 254 0 []) (some 1048600) trivial (by decide +kernel)
  exact ⟨_, _, h₁, rfl, by decide +kernel, by decide +kernel, by decide +kernel⟩

end SlabHeap
