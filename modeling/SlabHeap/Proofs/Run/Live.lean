/-
  Live objects.

  An object is live from its allocation to the first collection whose roots do not reach
  it.  A program that allocates, collects and writes into live objects finds each of them
  in use, in a slot of its size (`Run.holds`), so a new object shares no word with any
  of them.
-/
import SlabHeap.Proofs.Run.History

namespace SlabHeap

variable {tagging : Tagging} {f : Word → Edge} {T : Word → Word → Prop} {past : List Step}
  {h h' : Heap} {op : Operation} {r : Option Word} {w x : Word} {n : Nat}

/-- A collection ran in a step, on its own or inside an allocation. -/
def Step.Collects (s : Step) : Prop :=
  s.after.arena.counters.collections ≠ s.before.arena.counters.collections

/-- A step spares an object if the roots reach it in case a collection ran. -/
def Step.Spares (T : Word → Word → Prop) (s : Step) (x : Word) : Prop :=
  s.Collects → Reached T s.before.arena s.before.memory s.op.roots x

/-- An object of `n` words is live at `x`: it was allocated, and spared ever since. -/
inductive Live (T : Word → Word → Prop) : List Step → Word → Nat → Prop
  | allocated {s : Step} {past : List Step} {x : Word} {n : Nat} : s.result = some x →
    s.op.size? s.before = some n → Live T (s :: past) x n
  | spared {s : Step} {past : List Step} {x : Word} {n : Nat} : Live T past x n →
    s.Spares T x → Live T (s :: past) x n

/-- Whole operations, of which none writes into an object that is not live. -/
def intoLive (T : Word → Word → Prop) : Discipline := fun past _ op =>
  op.IsWhole ∧ match op with
    | .write object field _ => ∃ n, Live T past object n ∧ field < n
    | _ => True

/-- Live objects are in use, in slots of their size. -/
def Holding (T : Word → Word → Prop) (past : List Step) (h : Heap) : Prop :=
  ∀ x n, Live T past x n → ∃ s : Shape, s.size = n ∧ h.arena.Holds h.memory s x

theorem Holding.fits (hh : Holding T past h) (ha : intoLive T past h op) : op.Fits h := by
  cases op with
  | write object field w =>
    obtain ⟨-, n, hlive, hfield⟩ := ha
    obtain ⟨s, rfl, base, i, hx, -⟩ := hh object n hlive
    exact ⟨s, base, i, hx, hfield⟩
  | setUsed object => exact ha.1.elim
  | _ => trivial

/-- An object that a step spares goes through the collection in it, if any. -/
theorem Heap.Passed.spared {s : Step} {h₁ : Heap} {sh : Shape}
    (hp : s.before.Passed T T s.op.roots h₁)
    (hcount : s.after.arena.counters.collections = h₁.arena.counters.collections)
    (hspared : s.Spares T x) (hx : s.before.arena.Holds s.before.memory sh x) :
    h₁.arena.Holds h₁.memory sh x := by
  rcases hp with ⟨-, hholds⟩ | ⟨hnext, R, hR, hholds⟩
  · exact (hholds sh x).2 hx
  · have hcollects : s.Collects := by
      rw [Step.Collects, hcount, hnext]
      omega
    obtain ⟨base, i, hslot, -⟩ := hx
    exact (hholds sh x).2 ⟨⟨base, i, hslot⟩, hR.iff.2 (hspared hcollects)⟩

/-- An object that a step spares stays where it is, and is not the one that the step
    returns. -/
theorem Operation.Carries.spared {sh : Shape} (hc : op.Carries T T h r h')
    (hspared : Step.Spares T ⟨op, h, r, h'⟩ x) (hx : h.arena.Holds h.memory sh x) :
    h'.arena.Holds h'.memory sh x ∧ r ≠ some x := by
  cases r with
  | none => exact ⟨Heap.Passed.spared (s := ⟨op, h, none, h'⟩) hc rfl hspared hx, nofun⟩
  | some w =>
    obtain ⟨s, h₁, -, hp, hadds⟩ := hc
    have hx₁ := hp.spared (congrArg _ hadds.counters) hspared hx
    refine ⟨(hadds.holds sh x).2 (.inl hx₁), ?_⟩
    rintro he
    rw [Option.some.inj he] at hadds
    exact hadds.fresh sh hx₁

theorem Holding.step (hh : Holding T past h) (hc : op.Carries T T h r h') :
    Holding T (⟨op, h, r, h'⟩ :: past) h' := by
  intro x n hlive
  cases hlive with
  | spared hlive hspared =>
    obtain ⟨sh, rfl, hx⟩ := hh x n hlive
    exact ⟨sh, rfl, (hc.spared hspared hx).1⟩
  | allocated hresult hsize =>
    cases r with
    | none => cases hresult
    | some w =>
      obtain rfl : w = x := Option.some.inj hresult
      obtain ⟨s, h₁, hsize', -, hadds⟩ := hc
      refine ⟨s, ?_, (hadds.holds s w).2 (.inr ⟨rfl, rfl⟩)⟩
      exact Option.some.inj (hsize'.symm.trans hsize)

theorem Run.holds (hr : Run tagging (intoLive T) past h) (hT : tagging.Reads T T) :
    h.Sound [] 0 ∧ Holding T past h := by
  induction hr with
  | start hi => exact ⟨hi.sound, nofun⟩
  | step hr ha he ih =>
    obtain ⟨hs, hh⟩ := ih
    have hfit := hh.fits ha
    have heffect := he.effect hT hs hfit
    exact ⟨heffect.sound, hh.step (heffect.objects ha.1)⟩

/-- The words of an object lie in its block, behind the header and the bitmap. -/
theorem Arena.SlotAt.behind_bitmap {a : Arena} {m : Memory} {s : Shape} {base : Word} {i j : Nat}
    (hx : a.SlotAt m s base i x) (hs : a.Sound m [] 0) (hj : j < s.size) :
    Block.baseOf (Memory.fieldAddress x j) = base ∧
      headerWords + Bitmap.wordsFor s.slots ≤ Block.wordOf (Memory.fieldAddress x j) ∧
      Block.wordOf (Memory.fieldAddress x j) < blockWords := by
  obtain ⟨hbase, hword⟩ := hx.inside hs hj
  rw [hword]
  refine ⟨hbase, ?_, Shape.slotWord_add_lt hx.lt hj⟩
  rw [← Shape.color_eq]
  exact Shape.color_le_slotWord.trans (Nat.le_add_right _ _)

/-- An allocation returns a slot of the size that was asked for, in a block that was
    sliced, and shares no word of it with an object that is live. -/
theorem allocation_is_apart (hr : Run (.ofWord f) (intoLive (Resolves f)) past h)
    (ha : intoLive (Resolves f) past h op) (he : op.run (.ofWord f) h = .ok (some w) h') :
    ∃ s base i, op.size? h = some s.size ∧ h'.arena.SlotAt h'.memory s base i w ∧
      h'.arena.isSliced w = true ∧
      (∀ j < s.size, Block.baseOf (Memory.fieldAddress w j) = base ∧
        headerWords + Bitmap.wordsFor s.slots ≤ Block.wordOf (Memory.fieldAddress w j) ∧
        Block.wordOf (Memory.fieldAddress w j) < blockWords) ∧
      ∀ x n, Live (Resolves f) past x n → Step.Spares (Resolves f) ⟨op, h, some w, h'⟩ x →
        ∀ j < s.size, ∀ k < n,
          Memory.place (Memory.fieldAddress w j) ≠ Memory.place (Memory.fieldAddress x k) := by
  have hT := Tagging.reads_ofWord f
  obtain ⟨hs, hh⟩ := hr.holds hT
  have hfit := hh.fits ha
  have heffect := (Operation.Ends.returned he).effect hT hs hfit
  have hs' := heffect.sound
  obtain ⟨s, h₁, hsize, hp, hadds⟩ := heffect.objects ha.1
  obtain ⟨base, i, hw, -⟩ := (hadds.holds s w).2 (.inr ⟨rfl, rfl⟩)
  refine ⟨s, base, i, hsize, hw, ?_, fun j hj => hw.behind_bitmap hs' hj, ?_⟩
  · rw [Arena.isSliced, Directory.isSliced_iff hs'.directory hs'.supply, hw.baseOf_eq hs']
    exact hs'.mem_sliced hw.owner.mem_owned
  · intro x n hlive hspared j hj k hk
    obtain ⟨sh, rfl, hx⟩ := hh x n hlive
    have hx₁ := hp.spared (congrArg _ hadds.counters) hspared hx
    have hne : w ≠ x := by
      rintro rfl
      exact hadds.fresh sh hx₁
    obtain ⟨base', i', hx', -⟩ := (hadds.holds sh x).2 (.inl hx₁)
    exact hw.place_ne hs' hx' hne hj hk

/-- An object stays live while the block of another is freed, and a new object of a third
    size is allocated in that block. -/
theorem allocation_is_apart_when_recycled : ∃ past h h',
    Run (.ofWord Tagging.untaggedEdge) (intoLive (Resolves Tagging.untaggedEdge)) past h ∧
    past.length = 3 ∧ h.arena.counters.blocksFreed = 1 ∧
    Live (Resolves Tagging.untaggedEdge) past 1048600 100 ∧
    (Operation.allocateWords 60 0 []).run (.ofWord Tagging.untaggedEdge) h =
      .ok (some 1052696) h' ∧
    ∀ j < 60, ∀ k < 100, Memory.place (Memory.fieldAddress 1052696 j) ≠
      Memory.place (Memory.fieldAddress 1048600 k) := by
  have h₀ : Run (.ofWord Tagging.untaggedEdge) (intoLive (Resolves Tagging.untaggedEdge)) []
      (.fresh 1 .standard) := .start (Heap.initial_fresh (by decide) (by decide))
  have h₁ := h₀.next (.allocateWords 100 1 []) (some 1048600) ⟨trivial, trivial⟩
    (by decide +kernel)
  have h₂ := h₁.next (.allocateWords 50 0 []) (some 1052696) ⟨trivial, trivial⟩
    (by decide +kernel)
  have h₃ := h₂.next (.collect [1048600]) none ⟨trivial, trivial⟩ (by decide +kernel)
  have hapart : ∀ {past h h'}, Run (.ofWord Tagging.untaggedEdge)
        (intoLive (Resolves Tagging.untaggedEdge)) past h →
      Live (Resolves Tagging.untaggedEdge) past 1048600 100 →
      h'.arena.counters.collections = h.arena.counters.collections →
      (Operation.allocateWords 60 0 []).run (.ofWord Tagging.untaggedEdge) h =
        .ok (some 1052696) h' →
      ∀ j < 60, ∀ k < 100, Memory.place (Memory.fieldAddress 1052696 j) ≠
        Memory.place (Memory.fieldAddress 1048600 k) := by
    intro past h h' hr hlive hcount hrun
    have ha : intoLive (Resolves Tagging.untaggedEdge) past h (.allocateWords 60 0 []) :=
      ⟨trivial, trivial⟩
    obtain ⟨s, -, -, hsize, -, -, -, hall⟩ := allocation_is_apart hr ha hrun
    have hs : s.size = 60 := (Option.some.inj hsize).symm
    rw [hs] at hall
    exact hall 1048600 100 hlive fun hcollects => absurd hcount hcollects
  refine ⟨_, _, _, h₃, rfl, by decide +kernel, ?live,
    Operation.run_of_returned? (by decide +kernel),
    hapart h₃ ?live (by decide +kernel) (Operation.run_of_returned? (by decide +kernel))⟩
  refine .spared (.spared (.allocated rfl rfl) fun hcollects => ?_) fun _ => ?_
  · exact absurd (by decide +kernel) hcollects
  · refine .root (List.mem_singleton_self _) ⟨_, .object rfl⟩
      (?_ : Arena.SlotAt _ _ ⟨100, 1, by decide, by decide, by decide⟩ 1048576 0 _)
    decide +kernel

end SlabHeap
