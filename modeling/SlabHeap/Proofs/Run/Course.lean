/-
  Programs that go on where the system maps no memory.

  A `Course` is a run whose program goes on after every failure but that of a count out of
  range or of a walk without an end.  An allocation that found no memory has counted a block
  that no cache owns, so a heap on a course is sound up to the number of these
  (`Course.sound`).  Otherwise it is as on a run: blocks are on the lists that they belong on,
  and live objects are in use (`Course.holds`).
-/
import SlabHeap.Proofs.Run.Live

namespace SlabHeap

variable {tagging : Tagging} {may must T : Word → Word → Prop} {allowed : Discipline}
  {past : List Step} {h h' : Heap} {op : Operation} {r : Option Word} {due : Nat}

/-- An operation on `h` returned `r` or failed, and left `h'`; no count left the range of a
    machine word, and no walk was without an end. -/
inductive Operation.Leaves (tagging : Tagging) (op : Operation) (h : Heap) :
    Option Word → Heap → Prop
  | returned {r : Option Word} {h' : Heap} : op.run tagging h = .ok r h' →
    Leaves tagging op h r h'
  | failed {fault : Fault} {h' : Heap} : op.run tagging h = .error fault h' →
    ¬ fault.IsOverflow → fault ≠ .endless → Leaves tagging op h none h'

theorem Operation.Leaves.effect (hl : op.Leaves tagging h r h') (hT : tagging.Reads may must)
    (hs : h.Sound [] due) (hfit : op.Fits h) : ∃ due', op.Effect due due' may must h r h' := by
  cases hl with
  | returned he => exact ⟨due, (run_ends hT hs hfit).of_ok he⟩
  | failed he hover hendless =>
    cases (run_ends hT hs hfit).of_error he with
    | overflow hno => exact absurd hno.isOverflow hover
    | diverges hno => exact absurd hno.1 hendless
    | starved heffect => exact ⟨_, heffect⟩
    | refused heffect => exact ⟨_, heffect⟩

theorem Operation.Ends.leaves (he : op.Ends tagging h r h') : op.Leaves tagging h r h' := by
  cases he with
  | returned he => exact .returned he
  | failed he hf => exact .failed he (fun hno => hf (.inl hno)) fun hno => hf (.inr (.inr hno))

theorem Operation.IsWhole.settled (hwhole : op.IsWhole) : op.settled true = true := by
  cases op with
  | clearUsed => exact hwhole.elim
  | mark roots => exact hwhole.elim
  | setUsed object => exact hwhole.elim
  | _ => rfl

/-- A program that keeps to a discipline has come from a new arena, by some steps that returned
    or failed, to a heap. -/
inductive Course (tagging : Tagging) (allowed : Discipline) : List Step → Heap → Prop
  | start {h : Heap} : h.Initial → Course tagging allowed [] h
  | step {past : List Step} {h h' : Heap} {op : Operation} {r : Option Word} :
    Course tagging allowed past h → allowed past h op → op.Leaves tagging h r h' →
    Course tagging allowed (⟨op, h, r, h'⟩ :: past) h'

/-- A run is a course on which the system never failed to map memory. -/
theorem Run.course (hr : Run tagging allowed past h) : Course tagging allowed past h := by
  induction hr with
  | start hi => exact .start hi
  | step _ ha he ih => exact .step ih ha he.leaves

theorem Course.sound (hc : Course tagging anySlots past h) : ∃ due, h.Sound [] due := by
  induction hc with
  | start hi => exact ⟨0, hi.sound⟩
  | step _ hfit hl ih =>
    obtain ⟨due, hs⟩ := ih
    obtain ⟨due', heffect⟩ := hl.effect tagging.reads_any hs hfit
    exact ⟨due', heffect.sound⟩

theorem Course.holds (hc : Course tagging (intoLive T) past h) (hT : tagging.Reads T T) :
    (∃ due, h.Sound [] due) ∧ (∀ c ∈ h.arena.caches, c.Placed h.memory) ∧ Holding T past h := by
  induction hc with
  | start hi =>
    refine ⟨⟨0, hi.sound⟩, ?_, nofun⟩
    obtain ⟨options, harena⟩ := hi.eq_blank
    rw [harena]
    exact fun _ hc => absurd hc List.not_mem_nil
  | step _ ha hl ih =>
    obtain ⟨⟨due, hs⟩, hplaced, hh⟩ := ih
    obtain ⟨due', heffect⟩ := hl.effect hT hs (hh.fits ha)
    exact ⟨⟨due', heffect.sound⟩, heffect.placed true (fun _ => hplaced) ha.1.settled,
      hh.step (heffect.objects ha.1)⟩

end SlabHeap
