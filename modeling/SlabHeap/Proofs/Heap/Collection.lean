/-
  Collections, phase by phase.

  Clearing empties the bitmaps of all blocks with an owner (`clearUsed_returns`),
  marking sets the bits of what the roots reach (`mark_meets`), and sweeping moves the
  blocks without a used slot away from their owners (`sweep_meets`).  A phase fails if
  a counter overflows or an indirection leads nowhere, and for no other reason; a collection
  fails for these too, or in the products of the report that a verbose arena makes
  (`collect_ends`).
  `collect_meets` puts the phases together: `Collected R` says that a collection kept
  the objects in `R`, and `Survivors` bounds these by what the roots reach.
-/
import Mathlib.Data.List.Flatten
import SlabHeap.Proofs.Heap.Cache
import SlabHeap.Proofs.Heap.Marking
import SlabHeap.Proofs.Heap.Sweep
import SlabHeap.Heap.Collection

namespace SlabHeap

variable {tagging : Tagging} {may must : Word → Word → Prop} {R : Word → Prop} {roots : List Word}
  {loose : List Word} {due index : Nat} {b x : Word}

/-- A count left the range of a machine word. -/
def Fault.IsOverflow (fault : Fault) : Prop := ∃ op, fault = .overflow op

theorem Count.add_eq_error {m n : Nat} {fault : Fault} (h : add m n = .error fault) :
    fault = .overflow .add ∧ Word.count ≤ m + n := by
  unfold add at h
  split at h
  · simp at h
  next hle => cases h; exact ⟨rfl, Nat.not_lt.1 hle⟩

theorem Count.mul_eq_error {m n : Nat} {fault : Fault} (h : mul m n = .error fault) :
    fault = .overflow .multiply ∧ Word.count ≤ m * n := by
  unfold mul at h
  split at h
  · simp at h
  next hle => cases h; exact ⟨rfl, Nat.not_lt.1 hle⟩

/-- The blocks of a cache in which no slot is in use. -/
def Cache.dead (c : Cache) (m : Memory) : List Word := (c.blocks m).filter (Sweep.isDead m c)

namespace Arena

variable {a : Arena} {m : Memory}

/-- The blocks of caches in which no slot is in use. -/
def dead (a : Arena) (m : Memory) : List Word := a.caches.flatMap (·.dead m)

theorem mem_dead : b ∈ a.dead m ↔
    ∃ c ∈ a.caches, b ∈ c.blocks m ∧ Sweep.isDead m c b = true := by
  simp [dead, Cache.dead]

/-- Where the bits of slots tell `R`, a block is dead if no slot in it is in `R`. -/
theorem Preserved.isDead_iff {c : Cache} {m' : Memory} (hp : a.Preserved m m')
    (ho : a.Owns m c.shape b) (hbits : ∀ {s base i x}, a.SlotAt m s base i x →
      ((m'.block base).bitmap.bit i = true ↔ R x)) :
    Sweep.isDead m' c b = true ↔ ∀ i < c.shape.slots, ¬ R ((m.block b).slotAddress b i) := by
  rw [Sweep.isDead, beq_iff_eq, (hp.serves ho).room_eq_slots]
  refine forall₂_congr fun i hi => ?_
  rw [← hbits ⟨ho, hi, rfl⟩, Bool.not_eq_true]

theorem dead_sublist (a : Arena) (m : Memory) : (a.dead m).Sublist (a.owned m) :=
  List.Sublist.flatMap_right _ fun _ _ => List.filter_sublist

end Arena

/-- A total that collections raise left the range of a machine word. -/
def Counters.Overflown (c : Counters) : Prop :=
  Word.count ≤ c.collections ∨ Word.count ≤ c.rootsScanned ∨ Word.count ≤ c.pointersFollowed ∨
    Word.count ≤ c.indirectionsCollapsed ∨ Word.count ≤ c.blocksFreed

/-- A total that markings raise left the range of a machine word. -/
def Counters.Overmarked (c : Counters) : Prop :=
  Word.count ≤ c.rootsScanned ∨ Word.count ≤ c.pointersFollowed ∨
    Word.count ≤ c.indirectionsCollapsed

namespace Heap

variable {α : Type} {h h' : Heap} {c : Cache} {m' : Memory}

/-- The parts of a heap fit together. -/
abbrev Sound (h : Heap) (loose : List Word) (due : Nat) : Prop :=
  h.arena.Sound h.memory loose due

/-- The heap with another cache at a position, in another memory. -/
def putCache (h : Heap) (index : Nat) (s : Cache × Memory) : Heap :=
  { h with memory := s.2, arena := { h.arena with caches := h.arena.caches.set index s.1 } }

theorem meets_onCache {act : Action (Cache × Memory) α} {ok : α → Heap → Prop}
    {fail : Fault → Heap → Prop} (hc : h.arena.caches[index]? = some c) :
    Meets (onCache index act) h ok fail ↔ Meets act (c, h.memory)
      (fun a s => ok a (h.putCache index s)) fun f s => fail f (h.putCache index s) := by
  simp only [onCache, meets_bind, meets_get, hc, meets_zoom]
  rfl

theorem set_same {caches : List Cache} (hc : caches[index]? = some c) :
    caches.set index c = caches := by
  obtain ⟨hlt, rfl⟩ := List.getElem?_eq_some_iff.1 hc
  exact List.set_getElem_self hlt

/-! ## Clearing -/

theorem clearCache_returns (hs : h.Sound loose due) (hc : h.arena.caches[index]? = some c) :
    Returns (onCache index Cache.clearUsed) h fun _ h' => ∃ m', h' = { h with memory := m' } ∧
      h.arena.Preserved h.memory m' ∧ h.memory.Changes m' (c.blocks h.memory) ∧
      ∀ b ∈ c.blocks h.memory, Block.Cleared c.shape (h.memory.block b) (m'.block b) := by
  have hmem := List.mem_of_getElem? hc
  have hnd : (c.blocks h.memory).Nodup := (List.nodup_flatMap.1 hs.nodup_owned).1 c hmem
  rw [Returns, meets_onCache hc]
  refine (Cache.clearUsed_returns (hs.caches c hmem) hnd).mono ?_
  rintro - ⟨c', m'⟩ ⟨rfl, hch, hclear⟩
  refine ⟨m', by simp only [putCache, set_same hc], ⟨?_, ?_, ?_⟩, hch, hclear⟩
  · exact hch.mono fun b hb => Arena.mem_owned.2 ⟨c', hmem, hb⟩
  · intro sh b ho
    by_cases hb : b ∈ c'.blocks h.memory
    · exact (hclear b hb).slots.margins (ho.serves hs).layout (hclear b hb).hint
    · rw [hch.block b hb]
      exact .refl ..
  · intro sh b ho
    by_cases hb : b ∈ c'.blocks h.memory
    · rw [ho.unique hs ⟨c', hmem, rfl, hb⟩]
      exact (hclear b hb).serves ((hs.caches c' hmem).serves b hb)
    · rw [hch.block b hb]
      exact ho.serves hs

theorem clearUsed_returns (hs : h.Sound loose due) :
    Returns clearUsed h fun _ h' => ∃ m', h' = { h with memory := m' } ∧
      h.arena.Preserved h.memory m' ∧ ∀ c ∈ h.arena.caches, ∀ b ∈ c.blocks h.memory,
        Block.Cleared c.shape (h.memory.block b) (m'.block b) := by
  rw [clearUsed]
  simp only [Returns, meets_bind, meets_get]
  -- The blocks of the caches in front of `n` are clear, the others untouched.
  refine (meets_forM_range (I := fun n t => ∃ m', t = { h with memory := m' } ∧
    h.arena.Preserved h.memory m' ∧ ∀ j c, h.arena.caches[j]? = some c →
      ∀ b ∈ c.blocks h.memory, if j < n then
        Block.Cleared c.shape (h.memory.block b) (m'.block b)
      else m'.block b = h.memory.block b)
    ⟨h.memory, rfl, .refl hs, fun _ _ _ _ _ => rfl⟩ ?_).mono ?_ fun _ _ hno => hno
  rotate_left
  · rintro - t ⟨m', rfl, hp, hall⟩
    refine ⟨m', rfl, hp, fun c hc b hb => ?_⟩
    obtain ⟨j, hj, rfl⟩ := List.getElem_of_mem hc
    have := hall j _ (List.getElem?_eq_getElem hj) b hb
    rwa [if_pos hj] at this
  · rintro n t hn ⟨m', rfl, hp, hall⟩
    have hc := List.getElem?_eq_getElem hn
    generalize h.arena.caches[n] = c at hc
    have hlists := hp.sameLists hs (List.mem_of_getElem? hc)
    refine (clearCache_returns (h := { h with memory := m' }) (hp.sound hs) hc).mono ?_
    rintro - _ ⟨m'', rfl, hp', hch, hclear⟩
    refine ⟨m'', rfl, hp.trans hs hp', ?_⟩
    simp only [hlists.blocks] at hch hclear
    intro j d hd b hb
    have hold := hall j d hd b hb
    by_cases hj : j = n
    · subst hj
      obtain rfl : c = d := Option.some.inj (hc.symm.trans hd)
      rw [if_neg (lt_irrefl j)] at hold
      have := hclear b hb
      rw [hold] at this
      rwa [if_pos (Nat.lt_succ_self j)]
    · have hout : b ∉ c.blocks h.memory := fun hb' => hj (hs.owner_inj hd hc hb hb')
      have hiff : j < n + 1 ↔ j < n := by omega
      simpa only [hch.block b hout, hiff] using hold

/-! ## Marking -/

/-- The counters of an arena went on, and no collection ended. -/
def Counts (h h' : Heap) : Prop :=
  ∃ counters : Counters, h'.arena = { h.arena with counters } ∧
    counters.collections = h.arena.counters.collections ∧
    counters.blocksFreed = h.arena.counters.blocksFreed

/-- The heap after a marking that scanned `n` roots and ended in `s`. -/
def putMarking (h : Heap) (n : Nat) (s : Marking) : Heap where
  memory := s.memory
  arena := { h.arena with counters := { h.arena.counters with
    rootsScanned := h.arena.counters.rootsScanned + n
    pointersFollowed := h.arena.counters.pointersFollowed + s.followed
    indirectionsCollapsed := h.arena.counters.indirectionsCollapsed + s.collapsed } }
  events := h.events.push (.marked n s.followed s.collapsed)

/-- A marking runs, and is counted, unless one of its totals left the range of a machine word. -/
theorem meets_mark_counted {P : Heap → Prop} {fail : Fault → Heap → Prop}
    (hrun : Meets (Marking.run h.arena tagging roots) (Marking.start h.memory)
      (fun _ s => P (h.putMarking roots.length s)) fun fault s =>
        fail fault { h with memory := s.memory }) :
    Meets (mark tagging roots) h (fun _ t => P t) fun fault t =>
      (fault = .overflow .add ∧ ∃ t', P t' ∧ t'.arena.counters.Overmarked) ∨ fail fault t := by
  rw [mark]
  simp only [meets_bind, meets_get, meets_zoom, meets_pure, tell, modifyCounters, modifyArena,
    meets_modify, meets_lift]
  refine hrun.mono (fun _ s hend => ?_) fun _ _ => .inr
  refine ⟨fun n hn => ⟨fun n' hn' => ⟨fun n'' hn'' => ?_, ?_⟩, ?_⟩, ?_⟩
  · obtain ⟨-, rfl⟩ := Count.add_eq_ok.1 hn
    obtain ⟨-, rfl⟩ := Count.add_eq_ok.1 hn'
    obtain ⟨-, rfl⟩ := Count.add_eq_ok.1 hn''
    exact hend
  · intro fault he
    obtain ⟨rfl, hle⟩ := Count.add_eq_error he
    exact .inl ⟨rfl, _, hend, .inr (.inr hle)⟩
  · intro fault he
    obtain ⟨rfl, hle⟩ := Count.add_eq_error he
    exact .inl ⟨rfl, _, hend, .inr (.inl hle)⟩
  · intro fault he
    obtain ⟨rfl, hle⟩ := Count.add_eq_error he
    exact .inl ⟨rfl, _, hend, .inl hle⟩

/-- A marking runs, and is counted. -/
theorem meets_mark {ok : Unit → Heap → Prop} {fail : Fault → Heap → Prop}
    (hrun : Meets (Marking.run h.arena tagging roots) (Marking.start h.memory)
      (fun _ s => ok () (h.putMarking roots.length s)) fun fault s =>
        fail fault { h with memory := s.memory })
    (hover : ∀ t, fail (.overflow .add) t) :
    Meets (mark tagging roots) h ok fail := by
  refine (meets_mark_counted hrun).mono (fun _ _ => id) ?_
  rintro fault t (⟨rfl, -⟩ | hf)
  · exact hover t
  · exact hf

theorem mark_ends (hr : tagging.Reads may must) (hs : h.Sound [] due) :
    Meets (mark tagging roots) h
      (fun _ h' => Marking.Completed tagging may must h.arena h.memory roots h'.memory ∧
        h.Counts h')
      fun fault _ => fault = .overflow .add ∨ fault.Diverges tagging :=
  meets_mark ((Marking.run_meets hs hr).mono (fun _ _ hc => ⟨hc, _, rfl, rfl, rfl⟩) fun _ _ => .inr)
    fun _ => .inl rfl

theorem mark_meets (hr : tagging.Reads may must) (hs : h.Sound [] due) :
    Meets (mark tagging roots) h
      (fun _ h' => Marking.Completed tagging may must h.arena h.memory roots h'.memory ∧
        h.Counts h')
      fun fault _ => fault.IsOverflow ∨ fault.Diverges tagging :=
  (mark_ends hr hs).mono (fun _ _ => id) fun _ _ hf => hf.imp_left fun he => ⟨_, he⟩

/-! ## Sweeping -/

/-- The heap after the sweep of the cache at a position. -/
def putSweep (h : Heap) (index : Nat) (c : Cache) (s : Sweep) : Heap :=
  { h with
    memory := s.memory
    arena := { h.arena with free := s.free, caches := h.arena.caches.set index (s.result c) } }

/-- The blocks that a cache loses become blocks without an owner. -/
theorem sound_putSweep (hs : h.Sound [] due) (hc : h.arena.caches[index]? = some c) {s : Sweep}
    (hsw : Sweep.Swept h.memory c h.arena.free s) :
    (h.putSweep index c s).Sound [] (due + s.freed) ∧
      ∀ j d, j ≠ index → h.arena.caches[j]? = some d → d.SameLists h.memory s.memory := by
  have hmem := List.mem_of_getElem? hc
  have hsplit := (List.filter_append_perm (Sweep.isDead h.memory c) (c.blocks h.memory)).symm
  have hperm := hsw.sorted.blocks_perm
  suffices Arena.Sound { h.arena with
      free := s.free, caches := h.arena.caches.set index (s.result c) } s.memory []
      (due + s.freed) ∧
    ∀ j d, j ≠ index → h.arena.caches[j]? = some d → d.SameLists h.memory s.memory from this
  refine hs.replace_at hc ?_ hsw.free ?_ hsw.kept ?_ ?_
  · exact hsw.changes.mono (List.subset_append_right _ _)
  · intro b hb
    rw [hsw.released, List.mem_append, List.mem_reverse, List.mem_filter] at hb
    rcases hb with ⟨hb, hdead⟩ | hb
    · have hserves := (hs.caches c hmem).serves b hb
      obtain ⟨link, hl⟩ := hsw.sorted.block b hb
      have hroom : (h.memory.block b).room = c.shape.slots := by simpa [Sweep.isDead] using hdead
      rw [hl, hdead]
      exact ⟨rfl, c.shape, hserves.layout, hroom, hserves.bitmap_eq_cleared hroom⟩
    · have hout : b ∉ c.blocks h.memory := by
        intro hb'
        exact hs.not_mem_free (Arena.mem_owned.2 ⟨c, hmem, hb'⟩) hb
      rw [hsw.changes.block b hout]
      exact hs.idle b hb
  · rw [hsw.released, List.nil_append, List.nil_append, List.perm_iff_count]
    intro b
    have h1 := hperm.count_eq b
    have h2 := hsplit.count_eq b
    simp only [List.count_append, List.count_reverse] at h1 h2 ⊢
    omega
  · have h1 := hperm.length_eq
    have h2 := hsplit.length_eq
    have h3 := hsw.freed
    simp only [List.length_append] at h1 h2 ⊢
    omega

theorem sweepCache_returns (hs : h.Sound [] due) (hc : h.arena.caches[index]? = some c) :
    Returns (sweepCache index) h fun n h' => ∃ s, Sweep.Swept h.memory c h.arena.free s ∧
      n = s.freed ∧ h' = h.putSweep index c s := by
  have hmem := List.mem_of_getElem? hc
  have hnd := hs.nodup_owned
  have hidle : ∀ b ∈ c.blocks h.memory, b ∉ h.arena.free.toList h.memory := by
    intro b hb
    exact hs.not_mem_free (Arena.mem_owned.2 ⟨c, hmem, hb⟩)
  have hnd' : (c.blocks h.memory).Nodup := (List.nodup_flatMap.1 hnd).1 c hmem
  have hkept := hs.caches c hmem
  obtain ⟨hblocks, hstart⟩ := Sweep.sorted_start hkept hnd' hs.free hidle
  rw [sweepCache]
  simp only [Returns, meets_bind, meets_get, hc, meets_zoom, hblocks, meets_pure]
  refine (Sweep.placeAll_returns hkept hnd' hidle hstart).mono fun _ s hsw => ?_
  exact ⟨s, hsw, rfl, rfl⟩

/-- The heap `t` after a sweep of the first `n` caches of `h`, in which `freed` blocks
    lost their owner. -/
structure SweptUpTo (h : Heap) (due n freed : Nat) (t : Heap) : Prop where
  sound : t.Sound [] (due + freed)
  arena : t.arena = { h.arena with free := t.arena.free, caches := t.arena.caches }
  length : t.arena.caches.length = h.arena.caches.length
  done : ∀ j c, h.arena.caches[j]? = some c → j < n →
    ∃ c', t.arena.caches[j]? = some c' ∧ Sweep.SortedTo c h.memory c' t.memory
  todo : ∀ j c, h.arena.caches[j]? = some c → n ≤ j → t.arena.caches[j]? = some c ∧
    c.SameLists h.memory t.memory ∧ ∀ b ∈ c.blocks h.memory, t.memory.block b = h.memory.block b
  released : t.arena.free.toList t.memory =
    ((h.arena.caches.take n).flatMap (·.dead h.memory)).reverse ++ h.arena.free.toList h.memory
  count : freed = ((h.arena.caches.take n).flatMap (·.dead h.memory)).length
  changes : h.memory.Changes t.memory (h.arena.owned h.memory)
  body : ∀ b, (t.memory.block b).body = (h.memory.block b).body

theorem SweptUpTo.next {n freed : Nat} {t : Heap} {s : Sweep} (hs : h.Sound [] due)
    (ht : h.SweptUpTo due n freed t) (hc : h.arena.caches[n]? = some c)
    (hsw : Sweep.Swept t.memory c t.arena.free s) :
    h.SweptUpTo due (n + 1) (freed + s.freed) (t.putSweep n c s) := by
  obtain ⟨hc', hlists, hsame⟩ := ht.todo n c hc le_rfl
  obtain ⟨hsound, hothers⟩ := sound_putSweep ht.sound hc' hsw
  have hlen : n < t.arena.caches.length := (List.getElem?_eq_some_iff.1 hc').1
  -- The blocks of another cache are not those of this one.
  have hout : ∀ j d, j ≠ n → h.arena.caches[j]? = some d → ∀ b ∈ d.blocks h.memory,
      s.memory.block b = t.memory.block b := by
    intro j d hj hd b hb
    refine hsw.changes.block b fun hb' => hj ?_
    rw [hlists.blocks] at hb'
    exact hs.owner_inj hd hc hb hb'
  have hget : ∀ j, j ≠ n → (t.putSweep n c s).arena.caches[j]? = t.arena.caches[j]? := fun j hj =>
    List.getElem?_set_ne (Ne.symm hj)
  have hdead : c.dead t.memory = c.dead h.memory := by
    rw [Cache.dead, Cache.dead, hlists.blocks]
    exact List.filter_congr fun b hb => Sweep.isDead_congr (hsame b hb)
  have htake : (h.arena.caches.take (n + 1)).flatMap (·.dead h.memory) =
      (h.arena.caches.take n).flatMap (·.dead h.memory) ++ c.dead t.memory := by
    rw [List.take_add_one, hc, Option.toList_some, List.flatMap_append, List.flatMap_singleton,
      hdead]
  refine ⟨?_, ?_, ?_, ?_, ?_, ?_, ?_, ?_, ?_⟩
  · rwa [← Nat.add_assoc]
  · have := ht.arena
    simp only [putSweep]
    rw [this]
  · rw [← ht.length]
    exact List.length_set
  · intro j d hd hj
    by_cases hjn : j = n
    · subst hjn
      obtain rfl : c = d := Option.some.inj (hc.symm.trans hd)
      exact ⟨s.result c, List.getElem?_set_self hlen, hsw.sorted.rebase hlists hsame⟩
    · obtain ⟨d', hd', hsorted⟩ := ht.done j d hd (by omega)
      exact ⟨d', (hget j hjn).trans hd',
        hsorted.frame (hothers j d' hjn hd') (hout j d hjn hd)⟩
  · intro j d hd hj
    have hjn : j ≠ n := by omega
    obtain ⟨hd', hl, hb⟩ := ht.todo j d hd (by omega)
    refine ⟨(hget j hjn).trans hd', hl.trans (hothers j d hjn hd'), fun b hmem => ?_⟩
    exact (hout j d hjn hd b hmem).trans (hb b hmem)
  · rw [htake, List.reverse_append, List.append_assoc, ← ht.released]
    exact hsw.released
  · rw [htake, List.length_append, ← ht.count]
    exact congrArg _ hsw.freed
  · refine ht.changes.trans (hsw.changes.mono fun b hb => ?_)
    rw [hlists.blocks] at hb
    exact Arena.mem_owned.2 ⟨c, List.mem_of_getElem? hc, hb⟩
  · intro b
    show (s.memory.block b).body = _
    by_cases hb : b ∈ c.blocks t.memory
    · obtain ⟨link, he⟩ := hsw.sorted.block b hb
      rw [he]
      exact ht.body b
    · rw [hsw.changes.block b hb]
      exact ht.body b

theorem SweptUpTo.start (hs : h.Sound [] due) : h.SweptUpTo due 0 0 h where
  sound := hs
  arena := rfl
  length := rfl
  done _ _ _ hj := absurd hj (Nat.not_lt_zero _)
  todo _ _ hc _ := ⟨hc, ⟨rfl, rfl⟩, fun _ _ => rfl⟩
  released := rfl
  count := rfl
  changes := .refl ..
  body _ := rfl

/-- The next cache is swept. -/
theorem SweptUpTo.sweepCache {n freed : Nat} {t : Heap} (hs : h.Sound [] due)
    (ht : h.SweptUpTo due n freed t) (hn : n < h.arena.caches.length) :
    Returns (do return freed + (← sweepCache n)) t fun freed' t' =>
      h.SweptUpTo due (n + 1) freed' t' := by
  have hc := List.getElem?_eq_getElem hn
  obtain ⟨hc', -, -⟩ := ht.todo n _ hc le_rfl
  simp only [Returns, meets_bind, meets_pure]
  refine (sweepCache_returns ht.sound hc').mono ?_
  rintro _ _ ⟨s, hsw, rfl, rfl⟩
  exact ht.next hs hc hsw

/-- No block was sliced, and the options and the threshold stayed. -/
structure SameSetup (h h' : Heap) : Prop where
  directory : h'.arena.directory = h.arena.directory
  current : h'.arena.current = h.arena.current
  options : h'.arena.options = h.arena.options
  threshold : h'.arena.threshold = h.arena.threshold

theorem SameSetup.trans {h'' : Heap} (hsetup : h.SameSetup h') (hsetup' : h'.SameSetup h'') :
    h.SameSetup h'' where
  directory := hsetup'.directory.trans hsetup.directory
  current := hsetup'.current.trans hsetup.current
  options := hsetup'.options.trans hsetup.options
  threshold := hsetup'.threshold.trans hsetup.threshold

/-- The caches of `h` are sorted in `h'`, and the blocks that no object is left in have
    lost their owner. -/
structure Swept (h h' : Heap) : Prop where
  length : h'.arena.caches.length = h.arena.caches.length
  caches : ∀ (j : Nat) c, h.arena.caches[j]? = some c →
    ∃ c', h'.arena.caches[j]? = some c' ∧ Sweep.SortedTo c h.memory c' h'.memory
  released : h'.arena.free.toList h'.memory =
    (h.arena.dead h.memory).reverse ++ h.arena.free.toList h.memory
  changes : h.memory.Changes h'.memory (h.arena.owned h.memory)
  body : ∀ b, (h'.memory.block b).body = (h.memory.block b).body

/-- A cache after a sweep was one before. -/
theorem Swept.origin (hsw : h.Swept h') {c' : Cache} (hc' : c' ∈ h'.arena.caches) :
    ∃ c ∈ h.arena.caches, Sweep.SortedTo c h.memory c' h'.memory := by
  obtain ⟨j, hj, rfl⟩ := List.getElem_of_mem hc'
  have hj' : j < h.arena.caches.length := hsw.length ▸ hj
  obtain ⟨c', hget, hsorted⟩ := hsw.caches j _ (List.getElem?_eq_getElem hj')
  obtain rfl : c' = h'.arena.caches[j] := ((List.getElem_eq_iff hj).2 hget).symm
  exact ⟨_, List.getElem_mem hj', hsorted⟩

theorem Swept.free (hsw : h.Swept h') (b : Word) :
    b ∈ h'.arena.free.toList h'.memory ↔ b ∈ h.arena.free.toList h.memory ∨
      ∃ c ∈ h.arena.caches, b ∈ c.blocks h.memory ∧ Sweep.isDead h.memory c b = true := by
  rw [hsw.released, List.mem_append, List.mem_reverse, Arena.mem_dead, or_comm]

theorem sweep_counts (hs : h.Sound [] due) :
    Meets sweep h
      (fun _ h' => h.Swept h' ∧ h'.Sound [] due ∧ h.SameSetup h' ∧
        h'.arena.blocksInUse + (h.arena.dead h.memory).length = h.arena.blocksInUse ∧
        h'.arena.counters = { h.arena.counters with
          blocksFreed := h.arena.counters.blocksFreed + (h.arena.dead h.memory).length })
      fun fault _ => fault = .overflow .add ∧
        Word.count ≤ h.arena.counters.blocksFreed + (h.arena.dead h.memory).length := by
  rw [sweep]
  simp only [meets_bind, meets_get]
  have hloop : Returns ((List.range h.arena.caches.length).foldlM
      (fun freed index => do return freed + (← sweepCache index)) 0) h
      (fun freed t => h.SweptUpTo due h.arena.caches.length freed t) := by
    exact meets_foldlM_range (I := fun n freed t => h.SweptUpTo due n freed t) (.start hs)
      fun n freed t hn ht => (ht.sweepCache hs hn).meets fun _ _ => id
  refine hloop.meets fun freed t ht => ?_
  have hreleased := ht.released
  have hcount := ht.count
  rw [List.take_length] at hreleased hcount
  obtain rfl : freed = (h.arena.dead h.memory).length := hcount
  have hin := ht.sound.inUse
  have hsetup : h.SameSetup t := by constructor <;> rw [ht.arena]
  have hinUse : t.arena.blocksInUse = h.arena.blocksInUse := by rw [ht.arena]
  have hcounters : t.arena.counters = h.arena.counters := by rw [ht.arena]
  have hle : ¬ t.arena.blocksInUse < (h.arena.dead h.memory).length := by omega
  simp only [meets_bind, meets_get, meets_ite, meets_throw, modifyArena, modifyCounters,
    meets_modify, meets_lift, meets_pure, hle, false_imp_iff, not_false_eq_true, true_imp_iff,
    true_and, Count.add_eq_ok]
  refine ⟨?_, fun fault he => hcounters ▸ Count.add_eq_error he⟩
  rintro total ⟨-, rfl⟩
  refine ⟨⟨ht.length, fun j c hc => ?_, hreleased, ht.changes, ht.body⟩, ?_, ?_, ?_, ?_⟩
  · exact ht.done j c hc (List.getElem?_eq_some_iff.1 hc).1
  · refine ht.sound.of_eq rfl rfl rfl ?_
    show t.arena.blocksInUse - _ + (due + _) = t.arena.blocksInUse + due
    omega
  · exact ⟨hsetup.1, hsetup.2, hsetup.3, hsetup.4⟩
  · show t.arena.blocksInUse - _ + _ = _
    omega
  · rw [hcounters]

theorem sweep_ends (hs : h.Sound [] due) :
    Meets sweep h
      (fun _ h' => h.Swept h' ∧ h'.Sound [] due ∧ h.SameSetup h' ∧
        h'.arena.counters.collections = h.arena.counters.collections ∧
        h'.arena.blocksInUse + h'.arena.counters.blocksFreed =
          h.arena.blocksInUse + h.arena.counters.blocksFreed)
      fun fault _ => fault = .overflow .add := by
  refine (sweep_counts hs).mono ?_ fun _ _ hf => hf.1
  rintro - h' ⟨hsw, hs', hsetup, hinUse, hcounters⟩
  refine ⟨hsw, hs', hsetup, by rw [hcounters], ?_⟩
  rw [hcounters, ← hinUse]
  show _ + (_ + _) = _
  omega

theorem sweep_meets (hs : h.Sound [] due) :
    Meets sweep h
      (fun _ h' => h.Swept h' ∧ h'.Sound [] due ∧ h.SameSetup h' ∧
        h'.arena.counters.collections = h.arena.counters.collections ∧
        h'.arena.blocksInUse + h'.arena.counters.blocksFreed =
          h.arena.blocksInUse + h.arena.counters.blocksFreed)
      fun fault _ => fault.IsOverflow :=
  (sweep_ends hs).mono (fun _ _ => id) fun _ _ he => ⟨_, he⟩

/-- After a sweep, every block is on the list that the count of its free slots asks
    for. -/
theorem Swept.placed (hs : h.Sound [] due) (hsw : h.Swept h') :
    ∀ c ∈ h'.arena.caches, c.Placed h'.memory := by
  intro c' hc'
  obtain ⟨c, hmem, hsorted⟩ := hsw.origin hc'
  refine ⟨fun b hb => ?_, fun b hb => ?_⟩
  · rw [hsorted.available.mem_iff, List.mem_filter] at hb
    obtain ⟨hb, hpart⟩ := hb
    have hle := ((hs.caches c hmem).serves b hb).room_le
    obtain ⟨link, he⟩ := hsorted.block b hb
    simp only [Sweep.isPartial, Sweep.isFull, Sweep.isDead, Bool.and_eq_true, Bool.not_eq_true',
      beq_eq_false_iff_ne] at hpart
    rw [he, hsorted.shape]
    exact ⟨Nat.pos_of_ne_zero hpart.1, lt_of_le_of_ne hle hpart.2⟩
  · rw [hsorted.full, List.mem_reverse, List.mem_filter] at hb
    obtain ⟨link, he⟩ := hsorted.block b hb.1
    rw [he]
    simpa [Sweep.isFull] using hb.2

theorem Swept.owned (hsw : h.Swept h') :
    ∀ b ∈ h'.arena.owned h'.memory, b ∈ h.arena.owned h.memory := by
  intro b hb
  obtain ⟨c', hc', hb'⟩ := Arena.mem_owned.1 hb
  obtain ⟨c, hc, hsorted⟩ := hsw.origin hc'
  exact Arena.mem_owned.2 ⟨c, hc, (hsorted.mem_blocks.1 hb').1⟩

/-! ## Collections -/

/-- A collection of the heap `h` kept the objects in `R`. -/
structure Collected (R : Word → Prop) (h h' : Heap) : Prop where
  length : h'.arena.caches.length = h.arena.caches.length
  caches : ∀ (j : Nat) c, h.arena.caches[j]? = some c →
    ∃ c', h'.arena.caches[j]? = some c' ∧ c'.shape = c.shape ∧
      ∀ b, b ∈ c'.blocks h'.memory ↔ b ∈ c.blocks h.memory ∧ ∃ i < c.shape.slots,
        R ((h.memory.block b).slotAddress b i)
  free : ∀ b, b ∈ h'.arena.free.toList h'.memory ↔ b ∈ h.arena.free.toList h.memory ∨
    ∃ c ∈ h.arena.caches, b ∈ c.blocks h.memory ∧ ∀ i < c.shape.slots,
      ¬ R ((h.memory.block b).slotAddress b i)
  bits : ∀ {s base i x}, h'.arena.SlotAt h'.memory s base i x →
    ((h'.memory.block base).bitmap.bit i = true ↔ R x)
  placed : ∀ c ∈ h'.arena.caches, c.Placed h'.memory

/-- All objects that the roots must reach are in `R`, and only objects that they may
    reach. -/
structure Survivors (may must : Word → Word → Prop) (roots : List Word) (h : Heap)
    (R : Word → Prop) : Prop where
  must : ∀ x, Reached must h.arena h.memory roots x → R x
  may : ∀ x, R x → Reached may h.arena h.memory roots x

theorem Survivors.iff {T : Word → Word → Prop} (hr : Survivors T T roots h R) :
    R x ↔ Reached T h.arena h.memory roots x :=
  ⟨hr.may x, hr.must x⟩

/-- Clearing changes no word of a slot. -/
theorem field_cleared {s : Shape} {base : Word} {i j : Nat} (hs : h.Sound loose due)
    (hclear : ∀ c ∈ h.arena.caches, ∀ b ∈ c.blocks h.memory,
      Block.Cleared c.shape (h.memory.block b) (m'.block b))
    (hx : h.arena.SlotAt h.memory s base i x) (hj : j < s.size) :
    m'.field x j = h.memory.field x j := by
  refine hx.field_congr hs hj fun k hk => ?_
  obtain ⟨c, hc, rfl, hb⟩ := hx.owner
  refine (hclear c hc base hb).slots.words k ?_
  rw [(hx.owner.serves hs).layout, c.shape.bitmapWords_layout, ← Shape.color_eq]
  exact hk

/-- Clearing changes neither slots nor their words, and so not what is reached. -/
theorem reached_cleared {T : Word → Word → Prop} (hs : h.Sound loose due)
    (hp : h.arena.Preserved h.memory m')
    (hclear : ∀ c ∈ h.arena.caches, ∀ b ∈ c.blocks h.memory,
      Block.Cleared c.shape (h.memory.block b) (m'.block b)) :
    Reached T h.arena m' roots x ↔ Reached T h.arena h.memory roots x := by
  have hfield : ∀ {s base i x j}, h.arena.SlotAt h.memory s base i x → j < s.pointers →
      m'.field x j = h.memory.field x j := fun {s} {_ _ _ _} hx hj =>
    field_cleared hs hclear hx (hj.trans_le s.pointers_le)
  have hslot : ∀ {s base i x},
      h.arena.SlotAt m' s base i x ↔ h.arena.SlotAt h.memory s base i x := hp.slotAt hs
  constructor
  · intro hx
    exact hx.congr hslot.1 fun hx _ hj => by rw [hfield (hslot.1 hx) hj]; exact id
  · intro hx
    exact hx.congr hslot.2 fun hx _ hj => by rw [hfield hx hj]; exact id

/-- After clearing, no slot is in use. -/
theorem not_marked_cleared {m₁ : Memory} (hs : h.Sound loose due)
    (hp : h.arena.Preserved h.memory m₁)
    (hclear : ∀ c ∈ h.arena.caches, ∀ b ∈ c.blocks h.memory,
      Block.Cleared c.shape (h.memory.block b) (m₁.block b)) : ¬ h.arena.Marked m₁ m₁ x := by
  rintro ⟨s, base, i, hx, hbit⟩
  obtain ⟨c, hc, rfl, hb⟩ := (hp.owns hs).1 hx.owner
  have hpos := c.shape.slots_pos
  rw [(hclear c hc base hb).bitmap,
    Bitmap.bit_cleared hpos (Bitmap.div_lt_wordsFor hx.lt)] at hbit
  have := hx.lt
  simp at hbit
  omega

/-- After clearing and marking, what is marked was reached. -/
theorem survivors_of_marking {m₁ m₂ : Memory} (hs : h.Sound loose due)
    (hp : h.arena.Preserved h.memory m₁)
    (hclear : ∀ c ∈ h.arena.caches, ∀ b ∈ c.blocks h.memory,
      Block.Cleared c.shape (h.memory.block b) (m₁.block b))
    (hmark : Marking.Completed tagging may must h.arena m₁ roots m₂) :
    Survivors may must roots h (h.arena.Marked m₁ m₂) := by
  constructor
  · intro x hx
    exact hmark.complete (fun _ => not_marked_cleared hs hp hclear) x
      ((reached_cleared hs hp hclear).2 hx)
  · intro x hx
    exact (reached_cleared hs hp hclear).1
      ((hmark.reached x hx).resolve_left (not_marked_cleared hs hp hclear))

/-- A cache after a collection was one before. -/
theorem Collected.origin (hcol : Collected R h h') {c' : Cache}
    (hc' : c' ∈ h'.arena.caches) : ∃ c ∈ h.arena.caches, c'.shape = c.shape ∧
      ∀ b, b ∈ c'.blocks h'.memory ↔ b ∈ c.blocks h.memory ∧ ∃ i < c.shape.slots,
        R ((h.memory.block b).slotAddress b i) := by
  obtain ⟨j, hj, rfl⟩ := List.getElem_of_mem hc'
  have hj' : j < h.arena.caches.length := hcol.length ▸ hj
  obtain ⟨c', hget, hsame⟩ := hcol.caches j _ (List.getElem?_eq_getElem hj')
  obtain rfl : c' = h'.arena.caches[j] := ((List.getElem_eq_iff hj).2 hget).symm
  exact ⟨_, List.getElem_mem hj', hsame⟩

/-- A collection gives no block to a cache. -/
theorem Collected.owned (hcol : Collected R h h') :
    ∀ b ∈ h'.arena.owned h'.memory, b ∈ h.arena.owned h.memory := by
  intro b hb
  obtain ⟨c', hc', hb'⟩ := Arena.mem_owned.1 hb
  obtain ⟨c, hc, -, hblocks⟩ := hcol.origin hc'
  exact Arena.mem_owned.2 ⟨c, hc, ((hblocks b).1 hb').1⟩

/-- A collection brings no block into use. -/
theorem Collected.inUse_le (hcol : Collected R h h') (hs : h.Sound [] due)
    (hs' : h'.Sound [] due) : h'.arena.blocksInUse ≤ h.arena.blocksInUse := by
  have hle := (hs'.nodup_owned.subperm hcol.owned).length_le
  rw [hs.inUse, hs'.inUse]
  omega

/-- A slot after a collection was one before. -/
theorem Collected.slotAt {s : Shape} {base : Word} {i : Nat} (hcol : Collected R h h')
    (hs : h.Sound loose due) (hs' : h'.Sound loose due)
    (hx : h'.arena.SlotAt h'.memory s base i x) : h.arena.SlotAt h.memory s base i x := by
  obtain ⟨c', hc', rfl, hb⟩ := hx.owner
  obtain ⟨c, hc, hshape, hblocks⟩ := hcol.origin hc'
  have ho : h.arena.Owns h.memory c'.shape base := ⟨c, hc, hshape.symm, ((hblocks base).1 hb).1⟩
  exact hx.congr ho ((ho.serves hs).layout.trans (hx.owner.serves hs').layout.symm)

/-- A slot that is kept is one after the collection. -/
theorem Collected.slotAt_kept {s : Shape} {base : Word} {i : Nat} (hcol : Collected R h h')
    (hs : h.Sound loose due) (hs' : h'.Sound loose due)
    (hx : h.arena.SlotAt h.memory s base i x) (hr : R x) :
    h'.arena.SlotAt h'.memory s base i x := by
  obtain ⟨c, hc, rfl, hb⟩ := hx.owner
  obtain ⟨j, hj, rfl⟩ := List.getElem_of_mem hc
  obtain ⟨c', hget, hshape, hblocks⟩ := hcol.caches j _ (List.getElem?_eq_getElem hj)
  have ho : h'.arena.Owns h'.memory h.arena.caches[j].shape base :=
    ⟨c', List.mem_of_getElem? hget, hshape, (hblocks base).2 ⟨hb, i, hx.lt, hx.address ▸ hr⟩⟩
  exact hx.congr ho ((ho.serves hs').layout.trans (hx.owner.serves hs).layout.symm)

/-- The objects that are left are the slots in `R`. -/
theorem Collected.holds {s : Shape} (hcol : Collected R h h') (hs : h.Sound loose due)
    (hs' : h'.Sound loose due) : h'.arena.Holds h'.memory s x ↔
      (∃ base i, h.arena.SlotAt h.memory s base i x) ∧ R x := by
  constructor
  · rintro ⟨base, i, hx, hbit⟩
    exact ⟨⟨base, i, hcol.slotAt hs hs' hx⟩, (hcol.bits hx).1 hbit⟩
  · rintro ⟨⟨base, i, hx⟩, hr⟩
    have hx' := hcol.slotAt_kept hs hs' hx hr
    exact ⟨base, i, hx', (hcol.bits hx').2 hr⟩

/-- A sweep collects what is not marked. -/
theorem Swept.collected {h₂ : Heap} (hsw : h₂.Swept h') (hs : h.Sound [] due)
    (hs₂ : h₂.Sound [] due)
    (hcaches : h₂.arena.caches = h.arena.caches) (hfree : h₂.arena.free = h.arena.free)
    (hp : h.arena.Preserved h.memory h₂.memory)
    (hbits : ∀ {s base i x}, h.arena.SlotAt h.memory s base i x →
      ((h₂.memory.block base).bitmap.bit i = true ↔ R x)) : Collected R h h' := by
  have hlists : ∀ c ∈ h.arena.caches, c.blocks h₂.memory = c.blocks h.memory := fun c hc =>
    (hp.sameLists hs hc).blocks
  have hdead : ∀ c ∈ h.arena.caches, ∀ b ∈ c.blocks h.memory,
      (Sweep.isDead h₂.memory c b = true ↔ ∀ i < c.shape.slots,
        ¬ R ((h.memory.block b).slotAddress b i)) := fun c hc b hb =>
    hp.isDead_iff ⟨c, hc, rfl, hb⟩ hbits
  refine ⟨?_, ?_, ?_, ?_, hsw.placed hs₂⟩
  · rw [hsw.length, hcaches]
  · intro j c hc
    obtain ⟨c', hc', hsorted⟩ := hsw.caches j c (hcaches ▸ hc)
    have hmem := List.mem_of_getElem? hc
    refine ⟨c', hc', hsorted.shape, fun b => ?_⟩
    rw [hsorted.mem_blocks, hlists c hmem]
    refine and_congr_right fun hb => ?_
    rw [← Bool.not_eq_true, hdead c hmem b hb]
    push Not
    rfl
  · intro b
    rw [hsw.free, hcaches, hfree]
    refine or_congr ?_ (exists_congr fun c => and_congr_right fun hc => ?_)
    · rw [((hs.free.congr fun b _ => hp.link b)).2]
    · rw [hlists c hc]
      exact and_congr_right fun hb => hdead c hc b hb
  · intro s base i x hx
    obtain ⟨c', hc', rfl, hb⟩ := hx.owner
    obtain ⟨c, hmem, hsorted⟩ := hsw.origin hc'
    rw [hcaches] at hmem
    obtain ⟨hb', -⟩ := hsorted.mem_blocks.1 hb
    obtain ⟨link, he⟩ := hsorted.block base hb'
    rw [hlists c hmem] at hb'
    have ho : h.arena.Owns h.memory c.shape base := ⟨c, hmem, rfl, hb'⟩
    have hx' : h.arena.SlotAt h.memory c.shape base i x := by
      refine ⟨ho, hsorted.shape ▸ hx.lt, ?_⟩
      rw [hx.address, Block.slotAddress, Block.slotAddress, he, hp.layout hs ho]
    rw [← hbits hx', he]
    rfl

/-- A product that the report of a pause shows leaves the range of a machine word. -/
def Unreportable (a : Arena) (before : Nat) : Prop :=
  Word.count ≤ before * blockBytes ∨ Word.count ≤ a.blocksInUse * blockBytes ∨
    Word.count ≤ a.threshold * blockBytes

theorem pauseEvent_cases (a : Arena) (before : Nat) :
    (∃ event, pauseEvent a before = .ok event) ∧ ¬ Unreportable a before ∨
    pauseEvent a before = .error (.overflow .multiply) ∧ Unreportable a before := by
  unfold pauseEvent
  cases h₁ : Count.mul before blockBytes with
  | error f =>
    obtain ⟨rfl, hle⟩ := Count.mul_eq_error h₁
    exact .inr ⟨rfl, .inl hle⟩
  | ok n =>
    cases h₂ : Count.mul a.blocksInUse blockBytes with
    | error f =>
      obtain ⟨rfl, hle⟩ := Count.mul_eq_error h₂
      exact .inr ⟨rfl, .inr (.inl hle)⟩
    | ok n' =>
      cases h₃ : Count.mul a.threshold blockBytes with
      | error f =>
        obtain ⟨rfl, hle⟩ := Count.mul_eq_error h₃
        exact .inr ⟨rfl, .inr (.inr hle)⟩
      | ok n'' =>
        refine .inl ⟨⟨_, rfl⟩, ?_⟩
        have hlt := (Count.mul_eq_ok.1 h₁).1
        have hlt' := (Count.mul_eq_ok.1 h₂).1
        have hlt'' := (Count.mul_eq_ok.1 h₃).1
        rintro (hle | hle | hle) <;> omega

theorem pauseEvent_eq_ok {a : Arena} {before : Nat} {event : Event}
    (he : pauseEvent a before = .ok event) : ¬ Unreportable a before := by
  rcases pauseEvent_cases a before with ⟨-, hno⟩ | ⟨herror, -⟩
  · exact hno
  · rw [herror] at he
    cases he

theorem pauseEvent_eq_error {a : Arena} {before : Nat} {fault : Fault}
    (he : pauseEvent a before = .error fault) :
    fault = .overflow .multiply ∧ Unreportable a before := by
  rcases pauseEvent_cases a before with ⟨⟨event, hok⟩, -⟩ | ⟨herror, hle⟩
  · rw [hok] at he
    cases he
  · rw [herror] at he
    cases he
    exact ⟨rfl, hle⟩

/-- What is counted goes on: a collection ended, no block was sliced, and a block that
    is no longer in use was freed. -/
structure Accounted (h h' : Heap) : Prop extends h.SameSetup h' where
  collections : h'.arena.counters.collections = h.arena.counters.collections + 1
  ledger : h'.arena.blocksInUse + h'.arena.counters.blocksFreed =
    h.arena.blocksInUse + h.arena.counters.blocksFreed

theorem collect_ends (hr : tagging.Reads may must) (hs : h.Sound [] due) :
    Meets (collect tagging roots) h
      (fun _ h' => (∃ R, Survivors may must roots h R ∧ Collected R h h') ∧ h'.Sound [] due ∧
        h.Accounted h')
      fun fault _ => fault = .overflow .add ∨
        (fault = .overflow .multiply ∧ h.arena.options.verbose = true) ∨
        fault.Diverges tagging := by
  rw [collect]
  simp only [meets_bind, meets_get]
  refine (clearUsed_returns hs).meets ?_
  rintro - _ ⟨m₁, rfl, hp, hclear⟩
  have hs₁ : Heap.Sound { h with memory := m₁ } [] due := hp.sound hs
  refine (mark_ends hr hs₁).mono ?_ fun _ _ hno => hno.imp_right .inr
  rintro - h₂ ⟨hmark, counters, harena, hcoll, hfreed⟩
  have hs₂ : h₂.Sound [] due := by
    have := hmark.preserved.sound hs₁
    rw [Heap.Sound, harena]
    exact this.of_eq rfl rfl rfl rfl
  have hcaches : h₂.arena.caches = h.arena.caches := by rw [harena]
  refine (sweep_ends hs₂).mono ?_ fun _ _ hno => .inl hno
  rintro freed h₃ ⟨hsw, hs₃, hsetup, hcoll₃, hledger⟩
  have hbits : ∀ {s base i x}, h.arena.SlotAt h.memory s base i x →
      ((h₂.memory.block base).bitmap.bit i = true ↔ h.arena.Marked m₁ h₂.memory x) := fun hx =>
    (Arena.marked_iff hs₁ ((hp.slotAt hs).2 hx)).symm
  have hcollected : Collected (h.arena.Marked m₁ h₂.memory) h h₃ :=
    hsw.collected hs hs₂ hcaches (by rw [harena]) (hp.trans hs hmark.preserved) hbits
  have hsetup₂ : h.SameSetup h₂ := by
    constructor <;> rw [harena]
  have hsetup' := hsetup₂.trans hsetup
  have hledger' : h₃.arena.blocksInUse + h₃.arena.counters.blocksFreed =
      h.arena.blocksInUse + h.arena.counters.blocksFreed := by
    rw [hledger, harena]
    exact congrArg _ hfreed
  have hcoll' : h₃.arena.counters.collections = h.arena.counters.collections := by
    rw [hcoll₃, harena]
    exact hcoll
  have hend : ∀ events collections,
      Count.add h₃.arena.counters.collections 1 = .ok collections →
      let h₄ : Heap := { h₃ with
        events := events
        arena := { h₃.arena with counters := { h₃.arena.counters with collections } } }
      (∃ R, Survivors may must roots h R ∧ Collected R h h₄) ∧ h₄.Sound [] due ∧
        h.Accounted h₄ := by
    intro events collections hadd
    obtain ⟨-, rfl⟩ := Count.add_eq_ok.1 hadd
    refine ⟨⟨_, survivors_of_marking hs hp hclear hmark, hcollected.1, hcollected.2, hcollected.3,
      fun hx => hcollected.bits ⟨hx.1, hx.2, hx.3⟩, hcollected.5⟩, hs₃.of_eq rfl rfl rfl rfl,
      ⟨hsetup'.1, hsetup'.2, hsetup'.3, hsetup'.4⟩, ?_, hledger'⟩
    rw [hcoll']
  simp only [tell, modifyCounters, modifyArena, meets_bind, meets_modify, meets_ite, meets_lift]
  refine ⟨fun hverbose => ⟨fun event _ => ⟨?_, ?_⟩, ?_⟩, fun _ => ⟨?_, ?_⟩⟩
  · intro n hn
    exact hend _ n hn
  · intro fault he
    exact .inl (Count.add_eq_error he).1
  · intro fault he
    exact .inr (.inl ⟨(pauseEvent_eq_error he).1, hsetup'.options ▸ hverbose⟩)
  · intro n hn
    exact hend _ n hn
  · intro fault he
    exact .inl (Count.add_eq_error he).1

theorem collect_meets (hr : tagging.Reads may must) (hs : h.Sound [] due) :
    Meets (collect tagging roots) h
      (fun _ h' => (∃ R, Survivors may must roots h R ∧ Collected R h h') ∧ h'.Sound [] due ∧
        h.Accounted h')
      fun fault _ => fault.IsOverflow ∨ fault.Diverges tagging := by
  refine (collect_ends hr hs).mono (fun _ _ => id) fun fault _ hf => ?_
  rcases hf with he | ⟨he, -⟩ | hdiverges
  · exact .inl ⟨_, he⟩
  · exact .inl ⟨_, he⟩
  · exact .inr hdiverges

end Heap

end SlabHeap
