/-
  Arenas whose parts fit together.

  A cache is `Kept` if its lists are linked and its blocks serve its shape.  An
  arena is `Sound` if this holds for all of its caches, its blocks without an owner
  are idle, and every block that was sliced has one place: on the list of blocks
  without an owner, on a list of a cache, or among the `loose` blocks that an
  operation holds in its hands.  `due` is the number of blocks that count as in use
  before a cache owns them.

  An operation on one cache and on the blocks without an owner keeps the arena sound
  if it moves blocks between these alone (`Sound.replace`), and so does one that
  changes blocks with an owner without moving them (`Sound.content`).
-/
import SlabHeap.Proofs.Block.Service
import SlabHeap.Proofs.Memory.Links
import SlabHeap.Proofs.Memory.Slicing
import SlabHeap.Heap.Arena

namespace SlabHeap

open Block (StartsAt)

variable {m m' : Memory} {b : Word}

/-! ## Caches -/

namespace Cache

variable {c c' : Cache}

/-- The lists of a cache are linked, and their blocks serve its shape. -/
structure Kept (c : Cache) (m : Memory) : Prop where
  available : c.available.Linked m
  full : c.full.Linked m
  serves : ∀ b ∈ c.blocks m, (m.block b).Serves c.shape

/-- The lists of a cache hold the same blocks in two memories. -/
structure SameLists (c : Cache) (m m' : Memory) : Prop where
  available : c.available.toList m' = c.available.toList m
  full : c.full.toList m' = c.full.toList m

theorem SameLists.blocks (h : c.SameLists m m') : c.blocks m' = c.blocks m := by
  rw [Cache.blocks, Cache.blocks, h.available, h.full]

theorem mem_blocks : b ∈ c.blocks m ↔ b ∈ c.available.toList m ∨ b ∈ c.full.toList m :=
  List.mem_append

theorem kept_new (s : Shape) (m : Memory) : (new s).Kept m where
  available := BlockList.linked_empty m
  full := BlockList.linked_empty m
  serves b hb := by simp [Cache.blocks, new] at hb

@[simp] theorem blocks_new (s : Shape) (m : Memory) : (new s).blocks m = [] := by
  simp [Cache.blocks, new]

/-- What is done to other blocks leaves a cache as it is. -/
theorem Kept.elsewhere (h : c.Kept m) (hsame : ∀ b ∈ c.blocks m, m'.block b = m.block b) :
    c.Kept m' ∧ c.SameLists m m' := by
  have ha := h.available.congr fun b hb => by rw [hsame b (mem_blocks.2 (.inl hb))]
  have hf := h.full.congr fun b hb => by rw [hsame b (mem_blocks.2 (.inr hb))]
  have hl : c.SameLists m m' := ⟨ha.2, hf.2⟩
  refine ⟨⟨ha.1, hf.1, fun b hb => ?_⟩, hl⟩
  rw [hl.blocks] at hb
  rw [hsame b hb]
  exact h.serves b hb

/-- Where links stay and blocks remain in service, a cache is kept. -/
theorem Kept.content (h : c.Kept m) (hlink : ∀ b, (m'.block b).link = (m.block b).link)
    (hs : ∀ b ∈ c.blocks m, (m'.block b).Serves c.shape) : c.Kept m' ∧ c.SameLists m m' := by
  have ha := h.available.congr fun b _ => hlink b
  have hf := h.full.congr fun b _ => hlink b
  have hl : c.SameLists m m' := ⟨ha.2, hf.2⟩
  exact ⟨⟨ha.1, hf.1, fun b hb => hs b (hl.blocks ▸ hb)⟩, hl⟩

end Cache

/-! ## Arenas -/

namespace Arena

variable {a a' : Arena} {c c' d : Cache} {loose loose' : List Word} {due due' index : Nat}
  {free' : BlockList} {pre mid mid' post : List Cache}

/-- The blocks that the caches of an arena own. -/
def owned (a : Arena) (m : Memory) : List Word :=
  a.caches.flatMap (·.blocks m)

/-- The parts of an arena fit together, but for the blocks `loose`, and for `due`
    blocks that count as in use already. -/
structure Sound (a : Arena) (m : Memory) (loose : List Word) (due : Nat) : Prop where
  supply : Supply.Disjoint m.supply
  directory : a.directory.Mapped m
  free : a.free.Linked m
  idle : ∀ b ∈ a.free.toList m, (m.block b).Idle
  caches : ∀ c ∈ a.caches, c.Kept m
  blocks : (loose ++ a.free.toList m ++ a.owned m).Perm a.directory.blocks
  inUse : a.blocksInUse = (a.owned m).length + due

theorem mem_owned : b ∈ a.owned m ↔ ∃ c ∈ a.caches, b ∈ c.blocks m := by
  simp [owned]

theorem owned_append (h : a.caches = pre ++ mid ++ post) :
    a.owned m = pre.flatMap (·.blocks m) ++ mid.flatMap (·.blocks m) ++
      post.flatMap (·.blocks m) := by
  rw [owned, h, List.flatMap_append, List.flatMap_append]

theorem owned_congr (h : ∀ c ∈ a.caches, c.SameLists m m') : a.owned m' = a.owned m :=
  List.flatMap_congr fun c hc => (h c hc).blocks

namespace Sound

variable (h : a.Sound m loose due)
include h

theorem nodup : (loose ++ a.free.toList m ++ a.owned m).Nodup :=
  h.blocks.nodup_iff.2 (Directory.nodup_blocks h.directory h.supply)

theorem mem_sliced (hb : b ∈ a.owned m) : b ∈ a.directory.blocks :=
  h.blocks.subset (List.mem_append_right _ hb)

theorem startsAt (hb : b ∈ a.owned m) : StartsAt b :=
  Directory.startsAt_of_mem_blocks h.directory h.supply (h.mem_sliced hb)

theorem nodup_owned : (a.owned m).Nodup :=
  (List.nodup_append.1 h.nodup).2.1

/-- A block with an owner is not on the list of those without. -/
theorem not_mem_free (hb : b ∈ a.owned m) : b ∉ a.free.toList m := by
  intro hfree
  exact (List.nodup_append.1 h.nodup).2.2 b (List.mem_append_right _ hfree) b hb rfl

/-- No block has two owners. -/
theorem owner_inj {i j : Nat} (hc : a.caches[i]? = some c) (hd : a.caches[j]? = some d)
    (hbc : b ∈ c.blocks m) (hbd : b ∈ d.blocks m) : i = j := by
  obtain ⟨hi, rfl⟩ := List.getElem?_eq_some_iff.1 hc
  obtain ⟨hj, rfl⟩ := List.getElem?_eq_some_iff.1 hd
  have hpw := List.pairwise_iff_getElem.1 (List.nodup_flatMap.1 h.nodup_owned).2
  by_contra hne
  rcases Nat.lt_or_gt_of_ne hne with hlt | hlt
  · exact hpw i j hi hj hlt hbc hbd
  · exact hpw j i hj hi hlt hbd hbc

/-- Counters, options and thresholds do not matter. -/
theorem of_eq (hd : a'.directory = a.directory) (hf : a'.free = a.free)
    (hc : a'.caches = a.caches) (hu : a'.blocksInUse + due = a.blocksInUse + due') :
    a'.Sound m loose due' := by
  have howned : a'.owned m = a.owned m := by rw [owned, owned, hc]
  have := h.inUse
  exact ⟨h.supply, hd ▸ h.directory, hf ▸ h.free, hf ▸ h.idle, hc ▸ h.caches,
    by rw [howned, hf, hd]; exact h.blocks, by rw [howned]; omega⟩

/-- A block of one cache is no block of another one, not loose, and has an owner. -/
theorem apart (ha : a.caches = pre ++ mid ++ post) (hd : d ∈ pre ++ post) (hb : b ∈ d.blocks m) :
    b ∉ loose ++ a.free.toList m ++ mid.flatMap (·.blocks m) := by
  have hnd := h.nodup
  have hside : b ∈ pre.flatMap (·.blocks m) ∨ b ∈ post.flatMap (·.blocks m) := by
    rw [← List.mem_append, ← List.flatMap_append]
    exact List.mem_flatMap.2 ⟨d, hd, hb⟩
  rw [owned_append ha, List.nodup_iff_count_le_one] at hnd
  have hcount := hnd b
  simp only [List.count_append] at hcount
  rw [← List.count_eq_zero, List.count_append, List.count_append]
  rcases hside with hside | hside <;> have := List.count_pos_iff.2 hside <;> omega

/-- Blocks move between some caches, the blocks without an owner and the loose ones. -/
theorem replace (ha : a.caches = pre ++ mid ++ post)
    (hch : m.Changes m' (loose ++ a.free.toList m ++ mid.flatMap (·.blocks m)))
    (hfree : free'.Linked m') (hidle : ∀ b ∈ free'.toList m', (m'.block b).Idle)
    (hkept : ∀ c ∈ mid', c.Kept m')
    (hperm : (loose' ++ free'.toList m' ++ mid'.flatMap (·.blocks m')).Perm
      (loose ++ a.free.toList m ++ mid.flatMap (·.blocks m)))
    (hlen : (mid'.flatMap (·.blocks m')).length + due' = (mid.flatMap (·.blocks m)).length + due) :
    Sound { a with free := free', caches := pre ++ mid' ++ post } m' loose' due' ∧
      ∀ d ∈ pre ++ post, d.SameLists m m' := by
  have hside : ∀ d ∈ pre ++ post, d.Kept m' ∧ d.SameLists m m' := by
    intro d hd
    have hmem : d ∈ a.caches := by
      rw [ha]
      rcases List.mem_append.1 hd with hd | hd <;> simp [hd]
    exact (h.caches d hmem).elsewhere fun b hb => hch.block b (h.apart ha hd hb)
  have hpre : pre.flatMap (·.blocks m') = pre.flatMap (·.blocks m) :=
    List.flatMap_congr fun d hd => (hside d (List.mem_append_left _ hd)).2.blocks
  have hpost : post.flatMap (·.blocks m') = post.flatMap (·.blocks m) :=
    List.flatMap_congr fun d hd => (hside d (List.mem_append_right _ hd)).2.blocks
  have hold : a.owned m = _ := owned_append ha
  have hnew : ({ a with free := free', caches := pre ++ mid' ++ post } : Arena).owned m' =
      pre.flatMap (·.blocks m) ++ mid'.flatMap (·.blocks m') ++ post.flatMap (·.blocks m) := by
    rw [owned_append rfl, hpre, hpost]
  refine ⟨⟨hch.supply ▸ h.supply, h.directory.mono hch.supply hch.mapped.ge, hfree, hidle,
    fun c hc => ?_, ?_, ?_⟩, fun d hd => (hside d hd).2⟩
  · rcases List.mem_append.1 hc with hc | hc
    · rcases List.mem_append.1 hc with hc | hc
      · exact (hside c (List.mem_append_left _ hc)).1
      · exact hkept c hc
    · exact (hside c (List.mem_append_right _ hc)).1
  · refine List.Perm.trans ?_ h.blocks
    rw [hnew, hold, List.perm_iff_count]
    intro b
    have := List.perm_iff_count.1 hperm b
    simp only [List.count_append] at this ⊢
    omega
  · have hin := h.inUse
    rw [hnew]
    rw [hold] at hin
    simp only [List.length_append] at hin ⊢
    omega

/-- The same for the cache at a position. -/
theorem replace_at (ha : a.caches[index]? = some c)
    (hch : m.Changes m' (loose ++ a.free.toList m ++ c.blocks m))
    (hfree : free'.Linked m') (hidle : ∀ b ∈ free'.toList m', (m'.block b).Idle)
    (hkept : c'.Kept m')
    (hperm : (loose' ++ free'.toList m' ++ c'.blocks m').Perm
      (loose ++ a.free.toList m ++ c.blocks m))
    (hlen : (c'.blocks m').length + due' = (c.blocks m).length + due) :
    Sound { a with free := free', caches := a.caches.set index c' } m' loose' due' ∧
      ∀ j d, j ≠ index → a.caches[j]? = some d → d.SameLists m m' := by
  obtain ⟨hlt, rfl⟩ := List.getElem?_eq_some_iff.1 ha
  have hsplit : a.caches =
      a.caches.take index ++ [a.caches[index]] ++ a.caches.drop (index + 1) := by simp
  have hset : a.caches.set index c' =
      a.caches.take index ++ [c'] ++ a.caches.drop (index + 1) := by
    rw [List.set_eq_take_append_cons_drop, if_pos hlt]; simp
  have hone : ∀ (d : Cache) m, [d].flatMap (·.blocks m) = d.blocks m := fun d m => by simp
  have hkept' : ∀ d ∈ [c'], d.Kept m' := by simpa using hkept
  obtain ⟨hsound, hside⟩ := h.replace hsplit (by rwa [hone]) hfree hidle hkept'
    (by rwa [hone, hone]) (by rwa [hone, hone])
  rw [hset]
  refine ⟨hsound, fun j d hj hd => hside d ?_⟩
  rw [List.getElem?_eq_some_iff] at hd
  obtain ⟨hjlt, rfl⟩ := hd
  rcases Nat.lt_or_gt_of_ne hj with hlt' | hlt'
  · exact List.mem_append_left _ (List.mem_take_iff_getElem.2 ⟨j, by omega, by simp⟩)
  · exact List.mem_append_right _ (List.mem_drop_iff_getElem.2
      ⟨j - (index + 1), by omega, by congr 1; omega⟩)

/-- The same for an operation on one block `base`, which the cache owns or takes over. -/
theorem replace_one {base : Word} (ha : a.caches[index]? = some c) (hch : m.Changes m' [base])
    (hbase : base ∈ loose ++ c.blocks m) (hkept : c'.Kept m')
    (hperm : (loose' ++ c'.blocks m').Perm (loose ++ c.blocks m))
    (hlen : (c'.blocks m').length + due' = (c.blocks m).length + due) :
    Sound { a with caches := a.caches.set index c' } m' loose' due' ∧
      ∀ j d, j ≠ index → a.caches[j]? = some d → base ∉ d.blocks m ∧ d.SameLists m m' := by
  have hmem := List.mem_of_getElem? ha
  have hnot : base ∉ a.free.toList m := by
    intro hfree
    rcases List.mem_append.1 hbase with hb | hb
    · exact (List.nodup_append.1 (List.nodup_append.1 h.nodup).1).2.2 base hb base hfree rfl
    · exact h.not_mem_free (mem_owned.2 ⟨c, hmem, hb⟩) hfree
  have hsame : ∀ b ∈ a.free.toList m, m'.block b = m.block b := by
    intro b hb
    refine hch.block b fun he => hnot ?_
    rwa [← List.mem_singleton.1 he]
  obtain ⟨hlink, hlist⟩ := h.free.congr fun b hb => by rw [hsame b hb]
  have hidle : ∀ b ∈ a.free.toList m', (m'.block b).Idle := by
    intro b hb
    rw [hlist] at hb
    rw [hsame b hb]
    exact h.idle b hb
  have hsub : [base] ⊆ loose ++ a.free.toList m ++ c.blocks m := by
    intro b hb
    obtain rfl := List.mem_singleton.1 hb
    rcases List.mem_append.1 hbase with hb | hb <;> simp [hb]
  have hperm' : (loose' ++ a.free.toList m' ++ c'.blocks m').Perm
      (loose ++ a.free.toList m ++ c.blocks m) := by
    rw [hlist, List.perm_iff_count]
    intro b
    have := hperm.count_eq b
    simp only [List.count_append] at this ⊢
    omega
  obtain ⟨hsound, hothers⟩ := h.replace_at ha (hch.mono hsub) hlink hidle hkept hperm' hlen
  refine ⟨hsound, fun j d hj hd => ⟨fun hb => ?_, hothers j d hj hd⟩⟩
  rcases List.mem_append.1 hbase with hb' | hb'
  · exact (List.nodup_append.1 h.nodup).2.2 base (List.mem_append_left _ hb') base
      (mem_owned.2 ⟨d, List.mem_of_getElem? hd, hb⟩) rfl
  · exact hj (h.owner_inj hd ha hb hb')

/-- Blocks with an owner change, and do not move. -/
theorem content (hch : m.Changes m' (a.owned m))
    (hlink : ∀ b, (m'.block b).link = (m.block b).link)
    (hs : ∀ c ∈ a.caches, ∀ b ∈ c.blocks m, (m'.block b).Serves c.shape) :
    a.Sound m' loose due ∧ ∀ c ∈ a.caches, c.SameLists m m' := by
  have hkept := fun c hc => (h.caches c hc).content hlink (hs c hc)
  have howned : a.owned m' = a.owned m := owned_congr fun c hc => (hkept c hc).2
  have hfree := h.free.congr fun b _ => hlink b
  refine ⟨⟨hch.supply ▸ h.supply, h.directory.mono hch.supply hch.mapped.ge, hfree.1, ?_,
    fun c hc => (hkept c hc).1, by rw [howned, hfree.2]; exact h.blocks,
    by rw [howned]; exact h.inUse⟩,
    fun c hc => (hkept c hc).2⟩
  intro b hb
  rw [hfree.2] at hb
  have hout : b ∉ a.owned m := fun ho => h.not_mem_free ho hb
  rw [hch.block b hout]
  exact h.idle b hb

/-- The blocks `new` are sliced, and are loose. -/
theorem grow {d : Directory} {new : List Word} (hd : d.Mapped m')
    (hnew : d.blocks.Perm (new ++ a.directory.blocks)) (hsup : m'.supply = m.supply)
    (hsame : ∀ b ∈ a.directory.blocks, m'.block b = m.block b) :
    Sound { a with directory := d } m' (new ++ loose) due ∧
      ∀ c ∈ a.caches, c.SameLists m m' := by
  have hfree : ∀ b ∈ a.free.toList m, m'.block b = m.block b := fun b hb =>
    hsame b (h.blocks.subset (List.mem_append_left _ (List.mem_append_right _ hb)))
  have hkept : ∀ c ∈ a.caches, c.Kept m' ∧ c.SameLists m m' := fun c hc =>
    (h.caches c hc).elsewhere fun b hb => hsame b (h.mem_sliced (mem_owned.2 ⟨c, hc, hb⟩))
  have howned : ({ a with directory := d } : Arena).owned m' = a.owned m :=
    owned_congr fun c hc => (hkept c hc).2
  obtain ⟨hlink, hlist⟩ := h.free.congr fun b hb => by rw [hfree b hb]
  refine ⟨⟨hsup ▸ h.supply, hd, hlink, ?_, fun c hc => (hkept c hc).1, ?_, ?_⟩,
    fun c hc => (hkept c hc).2⟩
  · intro b hb
    rw [hlist] at hb
    rw [hfree b hb]
    exact h.idle b hb
  · rw [howned, hlist, List.append_assoc, List.append_assoc]
    refine (List.Perm.append_left new ?_).trans hnew.symm
    rw [← List.append_assoc]
    exact h.blocks
  · rw [howned]
    exact h.inUse

end Sound

end Arena

end SlabHeap
