/-
  Arenas that share memory.

  A `Site` is a memory with the arenas that live in it.  It starts without arenas, more are
  created, and operations run on one arena at a time (`Site.Reachable`).  An operation on
  one of them leaves every block of another one alone (`Arena.Untouched`), and with a
  tagging that depends on the word alone it does not read them either.  So all arenas stay
  sound, and no two share an address (`Site.Reachable.valid`), whatever the roots and the
  fields hold.
-/
import SlabHeap.Proofs.Heap.Isolation
import SlabHeap.Proofs.Run.History

namespace SlabHeap

variable {tagging : Tagging} {o : Foreign} {m m' t : Memory} {a b : Arena}
  {events : Array Event} {op : Operation} {r : Option Word} {h : Heap}
  {loose : List Word} {due : Nat}

/-! ## Operations -/

/-- Operations end alike on heaps that are alike. -/
theorem Operation.run_alike (hm : Memory.Like o h.memory m') (ho : h.arena.directory.Avoids o)
    (hT : tagging.Agrees o) (hs : h.Sound [] 0) (hfit : op.Fits h) :
    Alike (Heap.Like o) (op.run tagging) (op.run tagging) h { h with memory := m' } := by
  have hreturn : ∀ {α : Type} {act : Action Heap α} {r : α → Option Word},
      Alike (Heap.Like o) act act h { h with memory := m' } →
      Alike (Heap.Like o) (do return r (← act)) (do return r (← act)) h { h with memory := m' } :=
    fun hact => alike_bind hact fun _ _ _ _ hl => alike_pure hl
  cases op with
  | resolve size pointers => exact hreturn (Heap.resolveCache_alike hm ho)
  | find remembered size pointers => exact hreturn (Heap.findCache_alike hm ho)
  | allocate index roots => exact hreturn (Heap.allocate_alike hm ho hT hs)
  | allocateWords size pointers roots => exact hreturn (Heap.allocateWords_alike hm ho hT hs)
  | allocateBytes bytes roots => exact hreturn (Heap.allocateBytes_alike hm ho hT hs)
  | collect roots => exact hreturn (Heap.collect_alike hm ho hs hT)
  | clearUsed => exact hreturn (Heap.clearUsed_alike hm ho hs)
  | mark roots => exact hreturn (Heap.mark_alike hm ho hs hT)
  | sweep => exact hreturn (Heap.sweep_alike hm ho hs)
  | setUsed object =>
    obtain ⟨s, base, i, hx⟩ := hfit
    have hout := hx.not_foreign hs ho
    refine hreturn (alike_zoom (P := Memory.Like o) ?_ fun t t' ht => ⟨t', ht, ho, rfl⟩)
    rw [Handle.setUsed, hx.baseOf_eq hs]
    exact alike_ite (fun _ => hm.onBlock hout _) fun _ => alike_pure hm
  | write object field w =>
    obtain ⟨s, base, i, hx, hfield⟩ := hfit
    exact alike_modify.2 (alike_pure
      ⟨_, (Marking.field_alike hs ho hx hm hfield).2, ho, rfl⟩)

/-! ## Arenas apart -/

namespace Arena

/-- No address lies in megablocks of both arenas. -/
def Apart (a b : Arena) : Prop := ∀ w, ¬ (a.contains w = true ∧ b.contains w = true)

/-- The memories differ in the megablocks of the arena at most. -/
structure SameBeside (b : Arena) (m m' : Memory) : Prop where
  supply : m'.supply = m.supply
  mapped : m'.mapped = m.mapped
  block : ∀ w, b.contains w = false → m'.block w = m.block w

/-- No block of the arena changed, and its lists hold the same blocks. -/
structure Untouched (b : Arena) (m t : Memory) : Prop where
  block : ∀ w, b.contains w = true → t.block w = m.block w
  word : ∀ w, b.contains w = true → t.load w = m.load w
  caches : ∀ c ∈ b.caches, c.SameLists m t
  free : b.free.toList t = b.free.toList m

/-- The megablocks of an arena hold what is foreign to others. -/
def foreign (b : Arena) (m m' : Memory) : Foreign where
  blocks w := b.contains w = true
  left := m.block
  right := m'.block
  one := m' = m
  supply := m.supply
  mapped := m.mapped

theorem exists_of_contains {w : Word} (hw : a.contains w = true) :
    ∃ mb ∈ a.directory.megablocks, mb.contains w = true := by
  obtain ⟨mb, hmb⟩ := Option.isSome_iff_exists.1 hw
  obtain ⟨hfind, hc⟩ := Option.filter_eq_some_iff.1 hmb
  exact ⟨mb, List.mem_of_find?_eq_some hfind, hc⟩

theorem contains_of_mem {mb : Megablock} {w : Word} (ha : a.Sound m loose due)
    (hmb : mb ∈ a.directory.megablocks) (hw : mb.contains w = true) : a.contains w = true := by
  rw [contains, (Directory.holding?_eq_some ha.directory ha.supply).2 ⟨hmb, hw⟩]
  rfl

theorem Apart.symm (hab : a.Apart b) : b.Apart a := fun w hw => hab w ⟨hw.2, hw.1⟩

theorem Apart.avoids (hab : a.Apart b) (ha : a.Sound m loose due) :
    a.directory.Avoids (b.foreign m m') := fun _ hmb w hw hc =>
  hab w ⟨contains_of_mem ha hmb hc, hw⟩

theorem apart_of_avoids (ho : a.directory.Avoids (b.foreign m m')) : a.Apart b := by
  rintro w ⟨hw, hw'⟩
  obtain ⟨mb, hmb, hc⟩ := exists_of_contains hw
  exact ho mb hmb w hw' hc

section
variable (hb : b.Sound m loose due)
include hb

/-- The system maps nothing new in the megablocks of an arena. -/
theorem like_foreign (hm : b.SameBeside m m') : Memory.Like (b.foreign m m') m m' where
  supply := rfl
  supply' := hm.supply
  mapped := hm.mapped
  later := le_rfl
  block w hw := hm.block w (Bool.not_eq_true _ ▸ hw)
  left _ _ := rfl
  right _ _ := rfl
  one := id
  ahead {k start w} hk hstart hw := by
    obtain ⟨mb, hmb, hc⟩ := exists_of_contains hw
    exact Megablock.contains_later (hb.directory.megablocks mb hmb) hb.supply hc hk hstart

/-- An arena whose blocks stay is sound where it was. -/
theorem untouched_of_block (hblock : ∀ w, b.contains w = true → t.block w = m.block w)
    (hsupply : t.supply = m.supply) (hmapped : m.mapped ≤ t.mapped) :
    b.Untouched m t ∧ b.Sound t loose due := by
  have hstarts : ∀ mb ∈ b.directory.megablocks, ∀ {i}, i < blocksPerMegablock →
      b.contains (mb.blockBase i) = true := fun mb hmb _ hi =>
    contains_of_mem hb hmb
      (Megablock.contains_blockBase (hb.directory.megablocks mb hmb) hb.supply hi)
  have hblocks : ∀ w ∈ b.directory.blocks, t.block w = m.block w := by
    intro w hw
    obtain ⟨mb, hmb, hw⟩ := Directory.mem_blocks.1 hw
    obtain ⟨i, hi, rfl⟩ := Megablock.mem_blocks.1 hw
    exact hblock _ (hstarts mb hmb (hi.trans_le (hb.directory.megablocks mb hmb).sliced))
  have hnone : b.directory.blocks.Perm ([] ++ b.directory.blocks) := .refl _
  obtain ⟨hsound, hlists⟩ := hb.grow (hb.directory.mono hsupply hmapped) hnone hsupply hblocks
  refine ⟨⟨hblock, fun w hw => ?_, hlists, ?_⟩, hsound⟩
  · obtain ⟨mb, hmb, hc⟩ := exists_of_contains hw
    obtain ⟨hat, hbase⟩ := Megablock.baseOf_eq (hb.directory.megablocks mb hmb) hb.supply hc
    rw [Memory.load, Memory.load, ← hbase, hblock _ (hstarts mb hmb hat)]
  · refine (hb.free.congr fun w hw => ?_).2
    rw [hblocks w (hb.blocks.subset (by simp [hw]))]

end

end Arena

/-- An operation leaves an arena alone that is apart from its own, and stays apart from
    it, also if it fails. -/
theorem Operation.run_apart (tagging : Tagging) (ha : h.Sound [] 0) (hb : b.Sound h.memory [] 0)
    (hab : h.arena.Apart b) (hfit : op.Fits h) :
    Meets (op.run tagging) h
      (fun _ t => b.Untouched h.memory t.memory ∧ b.Sound t.memory [] 0 ∧ t.arena.Apart b)
      fun _ t => b.Untouched h.memory t.memory ∧ b.Sound t.memory [] 0 ∧ t.arena.Apart b := by
  have hm : Memory.Like (b.foreign h.memory h.memory) h.memory h.memory :=
    Arena.like_foreign hb ⟨rfl, rfl, fun _ _ => rfl⟩
  have hend : ∀ t, (∃ t', Heap.Like (b.foreign h.memory h.memory) t t') →
      b.Untouched h.memory t.memory ∧ b.Sound t.memory [] 0 ∧ t.arena.Apart b := by
    rintro t ⟨_, m₁, hm₁, ho, rfl⟩
    obtain ⟨huntouched, hsound⟩ := Arena.untouched_of_block hb hm₁.left hm₁.supply hm₁.later
    exact ⟨huntouched, hsound, Arena.apart_of_avoids ho⟩
  exact (run_alike hm (hab.avoids ha) (.inr rfl) ha hfit).meets.mono
    (fun _ => hend) fun _ => hend

/-! ## Sites -/

/-- The arenas that live in a memory, and the journal of all that happened. -/
structure Site where
  memory : Memory
  arenas : List Arena
  events : Array Event

namespace Site

variable {s : Site} {i j : Nat}

/-- An arena of the site, at work. -/
def heapOf (s : Site) (a : Arena) : Heap := ⟨s.memory, a, s.events⟩

/-- The site after work on the arena at a position. -/
def put (s : Site) (i : Nat) (h : Heap) : Site := ⟨h.memory, s.arenas.set i h.arena, h.events⟩

/-- Arenas are created in a memory, and operations run on one of them at a time, with
    taggings of any kind. -/
inductive Reachable : Site → Prop
  | start {m : Memory} {events : Array Event} : m.supply.Disjoint → Reachable ⟨m, [], events⟩
  | create {s : Site} {options : ArenaOptions} {a : Arena} : Reachable s →
    Arena.new options = .ok a → Reachable { s with arenas := s.arenas ++ [a] }
  | operate {s : Site} {i : Nat} {a : Arena} {tagging : Tagging} {op : Operation}
    {r : Option Word} {h : Heap} : Reachable s → s.arenas[i]? = some a → op.Fits (s.heapOf a) →
    op.Ends tagging (s.heapOf a) r h → Reachable (s.put i h)

/-- The arenas are sound, and no two share an address. -/
structure Valid (s : Site) : Prop where
  supply : s.memory.supply.Disjoint
  sound : ∀ {i : Nat} {a : Arena}, s.arenas[i]? = some a → a.Sound s.memory [] 0
  apart : ∀ {i j : Nat} {a b : Arena}, i ≠ j → s.arenas[i]? = some a → s.arenas[j]? = some b →
    a.Apart b

/-- An arena of a site where one is created is an old one or the new one. -/
theorem getElem?_create (hi : (s.arenas ++ [a])[i]? = some b) :
    s.arenas[i]? = some b ∨ b = a := by
  rw [List.getElem?_append] at hi
  split at hi
  · exact .inl hi
  · exact .inr (List.mem_singleton.1 (List.mem_of_getElem? hi))

/-- An arena of a site after work on one is that one or another. -/
theorem getElem?_put (hj : (s.put i h).arenas[j]? = some b) :
    i = j ∧ b = h.arena ∨ i ≠ j ∧ s.arenas[j]? = some b := by
  rw [put, List.getElem?_set] at hj
  split at hj
  next hij =>
    split at hj
    · exact .inl ⟨hij, (Option.some.inj hj).symm⟩
    · cases hj
  next hij => exact .inr ⟨hij, hj⟩

theorem Reachable.valid (hs : s.Reachable) : s.Valid := by
  induction hs with
  | start hm => exact ⟨hm, by simp, by simp⟩
  | @create s options a _ hnew ih =>
    obtain ⟨-, rfl⟩ := Arena.new_eq_ok.1 hnew
    have hblank : ∀ w, ¬ (Arena.blank options).contains w = true := fun _ => Bool.false_ne_true
    refine ⟨ih.supply, fun hi => ?_, fun {i j a b} hij hi hj w hw => ?_⟩
    · rcases getElem?_create hi with hi | rfl
      · exact ih.sound hi
      · exact Arena.sound_blank ih.supply
    · rcases getElem?_create hi with hi | rfl
      · rcases getElem?_create hj with hj | rfl
        · exact ih.apart hij hi hj w hw
        · exact hblank w hw.2
      · exact hblank w hw.1
  | @operate s i a tagging op r h _ ha hfit he ih =>
    have hsound := (he.effect tagging.reads_any (ih.sound ha) hfit).sound
    have hothers : ∀ {k b}, i ≠ k → s.arenas[k]? = some b →
        b.Sound h.memory [] 0 ∧ h.arena.Apart b := by
      intro k b hk hb
      have hrun := Operation.run_apart tagging (h := s.heapOf a) (ih.sound ha)
        (ih.sound hb) (ih.apart hk ha hb) hfit
      cases he with
      | returned he => exact (hrun.of_ok he).2
      | failed he _ => exact (hrun.of_error he).2
    refine ⟨hsound.supply, fun hk => ?_, fun hkl hk hl => ?_⟩
    · rcases getElem?_put hk with ⟨-, rfl⟩ | ⟨hik, hk⟩
      · exact hsound
      · exact (hothers hik hk).1
    · rcases getElem?_put hk with ⟨rfl, rfl⟩ | ⟨hik, hk⟩
      · rcases getElem?_put hl with ⟨rfl, -⟩ | ⟨hil, hl⟩
        · exact absurd rfl hkl
        · exact (hothers hil hl).2
      · rcases getElem?_put hl with ⟨rfl, rfl⟩ | ⟨-, hl⟩
        · exact (hothers hik hk).2.symm
        · exact ih.apart hkl hk hl

/-- Work on an arena goes on with an operation that returns. -/
theorem Reachable.next (hs : s.Reachable) (tagging : Tagging) (i : Nat) (op : Operation)
    (r : Option Word) (ha : s.arenas[i]? = some a) (hfit : op.Fits (s.heapOf a))
    (hret : op.returned? tagging (s.heapOf a) = some r) :
    (s.put i (op.after tagging (s.heapOf a))).Reachable :=
  .operate hs ha hfit (.returned (Operation.run_of_returned? hret))

end Site

/-! ## Isolation -/

/-- The heaps `t` and `t'`, after work where the blocks of the arena `b` were as in `m`, and
    as in `m'`: they are the same but for these blocks, which are as they were. -/
structure Isolated (b : Arena) (m m' : Memory) (t t' : Heap) : Prop where
  arena : t'.arena = t.arena
  events : t'.events = t.events
  beside : b.SameBeside t.memory t'.memory
  untouched : b.Untouched m t.memory
  block : ∀ w, b.contains w = true → t'.memory.block w = m'.block w
  apart : t.arena.Apart b

/-- Arenas are isolated: an operation on one of them ends in the same way, with the same
    result and in the same state of its arena, whatever the blocks of another arena hold,
    and leaves these and the other arena as they are. -/
theorem arenas_are_isolated {s : Site} {i j : Nat} (hs : s.Reachable) (hij : i ≠ j)
    (ha : s.arenas[i]? = some a) (hb : s.arenas[j]? = some b) (f : Word → Edge)
    (hfit : op.Fits (s.heapOf a)) (hm : b.SameBeside s.memory m') :
    a.Apart b ∧
    Alike (fun t t' => Isolated b s.memory m' t t' ∧ (s.put i t).arenas[j]? = some b)
      (op.run (.ofWord f)) (op.run (.ofWord f)) (s.heapOf a) ⟨m', a, s.events⟩ := by
  have hvalid := hs.valid
  have hsa := hvalid.sound ha
  have hsb := hvalid.sound hb
  have hab := hvalid.apart hij ha hb
  refine ⟨hab, ?_⟩
  have hrun := Operation.run_alike (h := s.heapOf a) (Arena.like_foreign hsb hm)
    (hab.avoids hsa) (.inl ⟨f, rfl⟩) hsa hfit
  refine hrun.mono ?_
  rintro t _ ⟨m₁, hm₁, ho, rfl⟩
  obtain ⟨huntouched, -⟩ := Arena.untouched_of_block hsb hm₁.left hm₁.supply hm₁.later
  refine ⟨⟨rfl, rfl, ⟨hm₁.supply'.trans hm₁.supply.symm, hm₁.mapped, fun w hw => ?_⟩,
    huntouched, hm₁.right, Arena.apart_of_avoids ho⟩, ?_⟩
  · exact hm₁.block w fun hc => Bool.false_ne_true (hw.symm.trans hc)
  · rw [Site.put, List.getElem?_set_ne hij]
    exact hb

/-- Two arenas with an object each, where the field of the one holds the address of the
    other: a collection of the first one that starts from the object, the block and the
    second free slot of the second one. -/
theorem arenas_are_isolated_of_two : ∃ (s : Site) (a b : Arena) (m' : Memory) (t t' : Heap),
    s.Reachable ∧ s.arenas = [a, b] ∧ b.SameBeside s.memory m' ∧
    s.memory.field 1048600 0 = 2097176 ∧ s.memory.field 2097176 0 = 0 ∧
    m'.field 2097176 0 = 1048600 ∧
    (Operation.collect [1048600, 2097176, 2097152, 2097976]).run
      (.ofWord Tagging.untaggedEdge) (s.heapOf a) = .ok none t ∧
    (Operation.collect [1048600, 2097176, 2097152, 2097976]).run
      (.ofWord Tagging.untaggedEdge) ⟨m', a, s.events⟩ = .ok none t' ∧
    Isolated b s.memory m' t t' := by
  have h₀ : Site.Reachable ⟨.new (.row 2), [], #[]⟩ := .start (Supply.disjoint_row (by decide))
  have hnew : Arena.new .standard = .ok (.blank .standard) := rfl
  have h₁ := (h₀.create hnew).create hnew
  have h₂ := h₁.next .untagged 0 (.allocateWords 100 1 []) (some 1048600) rfl trivial
    (by decide +kernel)
  have h₃ := h₂.next .untagged 1 (.allocateWords 100 1 []) (some 2097176) rfl trivial
    (by decide +kernel)
  have h₄ := h₃.next .untagged 0 (.write 1048600 0 2097176) none rfl
    ⟨⟨100, 1, by decide, by decide, by decide⟩, 1048576, 0, by decide +kernel, by decide⟩
    (by decide +kernel)
  -- The site is a large term, so the theorem is applied to a name for it.
  have hcollect : ∀ {s : Site} {a b : Arena}, s.Reachable → s.arenas = [a, b] →
      b.contains 2097152 = true →
      (Operation.collect [1048600, 2097176, 2097152, 2097976]).returned?
        (.ofWord Tagging.untaggedEdge) (s.heapOf a) = some none →
      let m' := s.memory.setField 2097176 0 1048600
      b.SameBeside s.memory m' ∧ ∃ t t',
        (Operation.collect [1048600, 2097176, 2097152, 2097976]).run
          (.ofWord Tagging.untaggedEdge) (s.heapOf a) = .ok none t ∧
        (Operation.collect [1048600, 2097176, 2097152, 2097976]).run
          (.ofWord Tagging.untaggedEdge) ⟨m', a, s.events⟩ = .ok none t' ∧
        Isolated b s.memory m' t t' := by
    intro s a b hs harenas hb hret m'
    have hm : b.SameBeside s.memory m' := by
      refine ⟨rfl, rfl, fun w hw => ?_⟩
      have hne : Block.baseOf (Memory.fieldAddress 2097176 0) ≠ w := by
        rintro rfl
        exact Bool.false_ne_true (hw.symm.trans hb)
      exact (Memory.block_modifyBlock ..).trans (if_neg hne)
    have hfit : (Operation.collect [1048600, 2097176, 2097152, 2097976]).Fits (s.heapOf a) :=
      trivial
    obtain ⟨-, halike⟩ := arenas_are_isolated (i := 0) (j := 1) hs (by decide)
      (by rw [harenas]; rfl) (by rw [harenas]; rfl) Tagging.untaggedEdge hfit hm
    have hrun := Operation.run_of_returned? hret
    obtain ⟨t', hrun', hisolated, -⟩ := halike.of_ok hrun
    exact ⟨hm, _, t', hrun, hrun', hisolated⟩
  obtain ⟨hm, t, t', hrun, hrun', hisolated⟩ :=
    hcollect h₄ rfl (by decide +kernel) (by decide +kernel)
  exact ⟨_, _, _, _, t, t', h₄, rfl, hm, by decide +kernel, by decide +kernel, by decide +kernel,
    hrun, hrun', hisolated⟩

end SlabHeap
