/-
  The table of caches.

  An arena finds a cache by its layout and names it by its position.  Both stay: no operation
  changes the shape of a cache, not even one that breaks off in the middle (`KeepsShapes`), but
  for the resolution of a layout, which puts a cache for it behind the others if there is none
  (`Arena.Extends`).  So no layout has two caches (`Arena.CacheAt.unique`), and a cache that was
  found once is the one that is found from then on (`resolveCache_eq`, `findCache_eq`).
-/
import SlabHeap.Proofs.Heap.Cache
import SlabHeap.Heap.Allocation

namespace SlabHeap

variable {α : Type} {size pointers size' pointers' index index' : Nat}

/-! ## The table -/

namespace Arena

variable {a a' a'' : Arena}

/-- The shapes of the caches, in the order of their positions. -/
def shapes (a : Arena) : List Shape := a.caches.map (·.shape)

/-- The cache at a position is for objects of `size` words with `pointers` pointer fields, by
    the bytes in the headers of its blocks. -/
def CacheAt (a : Arena) (index size pointers : Nat) : Prop :=
  ∃ c, a.caches[index]? = some c ∧
    c.shape.layout.size.toNat = size ∧ c.shape.layout.pointers.toNat = pointers

/-- The caches of `a'` are those of `a`, and new ones behind them; if no two caches of `a` have
    the same shape, this goes for `a'` as well. -/
structure Extends (a a' : Arena) : Prop where
  shapes : a.shapes <+: a'.shapes
  nodup : a.shapes.Nodup → a'.shapes.Nodup

/-- What a collection leaves as it is of an arena: its options, the megablocks and the one that
    blocks are sliced from, the threshold, and the shapes of the caches. -/
structure Frame where
  options : ArenaOptions
  directory : Directory
  current : Option Word
  threshold : Nat
  shapes : List Shape

/-- The frame of an arena. -/
def frame (a : Arena) : Frame := ⟨a.options, a.directory, a.current, a.threshold, a.shapes⟩

theorem extends_of_eq (h : a'.shapes = a.shapes) : a.Extends a' :=
  ⟨h ▸ List.prefix_refl _, fun hd => h ▸ hd⟩

theorem Extends.refl (a : Arena) : a.Extends a := extends_of_eq rfl

theorem Extends.trans (h : a.Extends a') (h' : a'.Extends a'') : a.Extends a'' :=
  ⟨h.shapes.trans h'.shapes, fun hd => h'.nodup (h.nodup hd)⟩

theorem cacheAt_iff : a.CacheAt index size pointers ↔
    ∃ s, a.shapes[index]? = some s ∧ s.size = size ∧ s.pointers = pointers := by
  simp only [CacheAt, shapes, Shape.toNat_layout_size, Shape.toNat_layout_pointers,
    List.getElem?_map, Option.map_eq_some_iff]
  constructor
  · rintro ⟨c, hc, hlayout⟩
    exact ⟨c.shape, ⟨c, hc, rfl⟩, hlayout⟩
  · rintro ⟨-, ⟨c, hc, rfl⟩, hlayout⟩
    exact ⟨c, hc, hlayout⟩

theorem cacheAt_iff_holds : a.CacheAt index size pointers ↔
    (a.caches[index]?).any (·.holds size pointers) = true := by
  cases hc : a.caches[index]? <;> simp [CacheAt, hc, Cache.holds]

instance : Decidable (a.CacheAt index size pointers) := decidable_of_iff _ cacheAt_iff_holds.symm

/-- A cache has one layout. -/
theorem CacheAt.inj (h : a.CacheAt index size pointers) (h' : a.CacheAt index size' pointers') :
    size = size' ∧ pointers = pointers' := by
  obtain ⟨c, hc, rfl, rfl⟩ := h
  obtain ⟨c', hc', rfl, rfl⟩ := h'
  obtain rfl := Option.some.inj (hc.symm.trans hc')
  exact ⟨rfl, rfl⟩

/-- A layout has one cache. -/
theorem CacheAt.unique (hd : a.shapes.Nodup) (h : a.CacheAt index size pointers)
    (h' : a.CacheAt index' size pointers) : index = index' := by
  obtain ⟨s, hs, rfl, rfl⟩ := cacheAt_iff.1 h
  obtain ⟨s', hs', hlayout⟩ := cacheAt_iff.1 h'
  obtain rfl : s' = s := (Shape.mk.injEq ..).mpr hlayout
  exact (List.getElem?_inj (List.getElem?_eq_some_iff.1 hs).1 hd).1 (hs.trans hs'.symm)

/-- A cache keeps its position and its layout. -/
theorem CacheAt.mono (h : a.CacheAt index size pointers) (he : a.Extends a') :
    a'.CacheAt index size pointers := by
  obtain ⟨s, hs, hlayout⟩ := cacheAt_iff.1 h
  obtain ⟨hlt, rfl⟩ := List.getElem?_eq_some_iff.1 hs
  exact cacheAt_iff.2 ⟨_, List.prefix_iff_getElem?.1 he.shapes index hlt, hlayout⟩

theorem cacheAt_of_cacheIndex? (h : a.cacheIndex? size pointers = some index) :
    a.CacheAt index size pointers := by
  obtain ⟨hlt, hholds, -⟩ := List.findIdx?_eq_some_iff_getElem.1 h
  rw [cacheAt_iff_holds, List.getElem?_eq_getElem hlt]
  exact hholds

/-- The search for a layout finds its cache. -/
theorem CacheAt.cacheIndex? (hd : a.shapes.Nodup) (h : a.CacheAt index size pointers) :
    a.cacheIndex? size pointers = some index := by
  cases hfind : a.cacheIndex? size pointers with
  | some index' => rw [(cacheAt_of_cacheIndex? hfind).unique hd h]
  | none =>
    obtain ⟨c, hc, rfl, rfl⟩ := h
    have hno := List.findIdx?_eq_none_iff.1 hfind c (List.mem_of_getElem? hc)
    simp [Cache.holds] at hno

/-- A cache for a new layout is put behind the others. -/
theorem extends_concat {s : Shape} (hnone : a.cacheIndex? s.size s.pointers = none) :
    a.Extends { a with caches := a.caches ++ [.new s] } := by
  have hshapes : Arena.shapes { a with caches := a.caches ++ [.new s] } = a.shapes ++ [s] :=
    List.map_append
  refine ⟨hshapes ▸ List.prefix_append .., fun hd => ?_⟩
  rw [hshapes]
  refine List.nodup_append.2 ⟨hd, List.pairwise_singleton .., fun t ht u hu => ?_⟩
  obtain rfl := List.mem_singleton.1 hu
  rintro rfl
  obtain ⟨c, hc, rfl⟩ := List.mem_map.1 ht
  have hno := List.findIdx?_eq_none_iff.1 hnone c hc
  simp [Cache.holds] at hno

end Arena

/-! ## Operations -/

namespace Cache

variable {s : Cache × Memory}

theorem maintains_onBlock {base : Word} {act : Action Block α} :
    Maintains (·.1.shape) (onBlock base act) s :=
  maintains_zoom fun _ => rfl

theorem shape_retireFirst (c : Cache) (m : Memory) : (c.retireFirst m).1.shape = c.shape := by
  unfold retireFirst
  cases c.available.pop? m <;> rfl

theorem maintains_takeSlot : Maintains (·.1.shape) takeSlot s := by
  simp only [Maintains, takeSlot, meets_bind, meets_get]
  cases s.1.available.first with
  | none => rfl
  | some base =>
    simp only [meets_bind, meets_get, meets_ite, meets_set, meets_throw, meets_pure,
      shape_retireFirst]
    refine maintains_onBlock.mono (fun _ t ht => ?_) fun _ _ => id
    have hshape : t.1.shape = s.1.shape := ht
    simp only [hshape, implies_true, and_self]

theorem maintains_adopt {base : Word} : Maintains (·.1.shape) (adopt base) s := by
  simp only [Maintains, adopt, meets_bind, meets_get, meets_ite, meets_set, meets_pure]
  exact maintains_onBlock.mono (fun _ _ ht => ⟨fun _ => ht, fun _ => ht⟩) fun _ _ => id

theorem maintains_clearUsed : Maintains (·.1.shape) clearUsed s :=
  maintains_forM fun _ _ => maintains_onBlock

end Cache

namespace Heap

variable {h : Heap} {tagging : Tagging} {roots : List Word}

/-- The action changes no cache but for its blocks, also if it fails. -/
abbrev KeepsShapes (act : Action Heap α) (h : Heap) : Prop :=
  Maintains (fun h : Heap => h.arena.shapes) act h

/-- The action leaves the frame of the arena as it is, also if it fails. -/
abbrev KeepsFrame (act : Action Heap α) (h : Heap) : Prop :=
  Maintains (fun h : Heap => h.arena.frame) act h

theorem KeepsFrame.shapes {act : Action Heap α} (hact : KeepsFrame act h) : KeepsShapes act h :=
  hact.map (·.shapes)

/-- A cache may be replaced by one of its shape. -/
theorem shapes_set {caches : List Cache} {c c' : Cache} (hc : caches[index]? = some c)
    (hshape : c'.shape = c.shape) :
    (caches.set index c').map (·.shape) = caches.map (·.shape) := by
  obtain ⟨hlt, rfl⟩ := List.getElem?_eq_some_iff.1 hc
  rw [List.map_set, hshape]
  refine List.ext_getElem (List.length_set ..) fun i _ _ => ?_
  rw [List.getElem_set]
  split
  next hi => simp [hi]
  next => rfl

theorem frame_set {a : Arena} {free : BlockList} {c c' : Cache} (hc : a.caches[index]? = some c)
    (hshape : c'.shape = c.shape) :
    ({ a with free, caches := a.caches.set index c' } : Arena).frame = a.frame := by
  simp only [Arena.frame, Arena.shapes, shapes_set hc hshape]

theorem keepsFrame_onMemory {act : Action Memory α} : KeepsFrame (onMemory act) h :=
  maintains_zoom fun _ => rfl

theorem keepsFrame_onCache {act : Action (Cache × Memory) α}
    (hact : ∀ s, Maintains (·.1.shape) act s) : KeepsFrame (onCache index act) h := by
  simp only [Maintains, onCache, meets_bind, meets_get]
  cases hc : h.arena.caches[index]? with
  | none => rfl
  | some c =>
    refine meets_zoom.2 ((hact (c, h.memory)).mono (fun _ t ht => ?_) fun _ t ht => ?_)
    · exact frame_set hc ht
    · exact frame_set hc ht

theorem keepsFrame_clearUsed : KeepsFrame clearUsed h :=
  maintains_forM (s := h) fun _ _ => keepsFrame_onCache fun _ => Cache.maintains_clearUsed

theorem keepsFrame_mark : KeepsFrame (mark tagging roots) h := by
  simp only [Maintains, mark, tell, modifyCounters, modifyArena, meets_bind, meets_get,
    meets_modify, meets_lift, meets_zoom, meets_pure]
  refine meets_trivial.mono (fun _ _ _ => ?_) fun _ _ _ => trivial
  simp only [Arena.frame, Arena.shapes, implies_true, and_self]

theorem keepsFrame_sweepCache : KeepsFrame (sweepCache index) h := by
  simp only [Maintains, sweepCache, meets_bind, meets_get]
  cases hc : h.arena.caches[index]? with
  | none => rfl
  | some c =>
    refine meets_zoom.2 (meets_trivial.mono (fun _ t _ => ?_) fun _ t _ => ?_)
    · exact frame_set hc rfl
    · exact frame_set hc rfl

theorem keepsFrame_sweep : KeepsFrame sweep h := by
  have hloop : KeepsFrame ((List.range h.arena.caches.length).foldlM
      (fun freed index => return freed + (← sweepCache index)) 0) h :=
    maintains_foldlM fun _ _ _ => keepsFrame_sweepCache.bind fun _ _ => rfl
  rw [sweep]
  refine maintains_get_bind.2 (hloop.bind fun _ _ => ?_)
  simp only [Maintains, modifyCounters, modifyArena, meets_bind, meets_get, meets_modify,
    meets_lift, meets_ite, meets_throw, meets_pure, Arena.frame, Arena.shapes, implies_true,
    and_self]

theorem keepsFrame_collect : KeepsFrame (collect tagging roots) h := by
  rw [collect]
  refine maintains_get_bind.2 (keepsFrame_clearUsed.bind fun _ _ =>
    keepsFrame_mark.bind fun _ _ => keepsFrame_sweep.bind fun _ _ => ?_)
  simp only [Maintains, tell, modifyCounters, modifyArena, meets_bind, meets_get, meets_modify,
    meets_lift, meets_ite, Arena.frame, Arena.shapes, implies_true, and_self]

theorem keepsFrame_takeFreeBlock : KeepsFrame takeFreeBlock h := by
  simp only [Maintains, takeFreeBlock, meets_bind, meets_get]
  cases h.arena.free.pop? h.memory <;> rfl

theorem keepsShapes_mapMegablock : KeepsShapes mapMegablock h := by
  simp only [Maintains, mapMegablock, meets_bind, meets_get]
  cases h.memory.map megablockBytes <;> rfl

theorem keepsShapes_currentMegablock : KeepsShapes currentMegablock h := by
  simp only [Maintains, currentMegablock, meets_bind, meets_get]
  cases h.arena.current.bind h.arena.directory.startingAt? with
  | none => exact keepsShapes_mapMegablock
  | some megablock => exact meets_ite.2 ⟨fun _ => keepsShapes_mapMegablock, fun _ => rfl⟩

theorem keepsShapes_sliceBlock : KeepsShapes sliceBlock h :=
  keepsShapes_currentMegablock.bind fun _ _ => rfl

theorem keepsShapes_adjustThreshold : KeepsShapes adjustThreshold h := by
  simp only [Maintains, adjustThreshold, tell, modifyArena, meets_bind, meets_get, meets_modify,
    meets_lift, meets_ite, meets_pure, Arena.shapes, implies_true, and_self]

theorem keepsShapes_acquireBlock : KeepsShapes (acquireBlock tagging roots) h := by
  rw [acquireBlock]
  refine maintains_get_bind.2 (maintains_lift.bind fun inUse _ => Maintains.bind rfl fun _ _ =>
    keepsFrame_takeFreeBlock.shapes.bind fun block _ => ?_)
  cases block with
  | some block => rfl
  | none =>
    refine maintains_get_bind.2 (meets_ite.2 ⟨fun _ => ?_, fun _ => keepsShapes_sliceBlock⟩)
    exact keepsFrame_collect.shapes.bind fun _ _ => keepsShapes_adjustThreshold.bind fun _ _ =>
      keepsShapes_sliceBlock

theorem keepsShapes_allocate : KeepsShapes (allocate tagging roots index) h := by
  rw [allocate]
  refine maintains_get_bind.2 (maintains_lift.bind fun _ _ => Maintains.bind rfl fun _ _ =>
    (keepsFrame_onCache fun _ => Cache.maintains_takeSlot).shapes.bind fun object _ => ?_)
  cases object with
  | some object => rfl
  | none =>
    exact keepsShapes_acquireBlock.bind fun _ _ =>
      (keepsFrame_onCache fun _ => Cache.maintains_adopt).shapes

/-! ## Resolution -/

/-- From `h`, the action may add caches for new layouts, and changes the others no more than
    their blocks, also if it fails. -/
def Extending (act : Action Heap α) (h : Heap) : Prop :=
  Meets act h (fun _ t => h.arena.Extends t.arena) fun _ t => h.arena.Extends t.arena

theorem extending_of_keepsShapes {act : Action Heap α} (hact : KeepsShapes act h) :
    Extending act h :=
  hact.mono (fun _ _ => Arena.extends_of_eq) fun _ _ => Arena.extends_of_eq

theorem Extending.bind {β : Type} {x : Action Heap β} {f : β → Action Heap α}
    (hx : Extending x h) (hf : ∀ b t, Extending (f b) t) : Extending (x >>= f) h := by
  refine meets_bind.2 (hx.mono (fun b t ht => ?_) fun _ _ => id)
  exact (hf b t).mono (fun _ _ => ht.trans) fun _ _ => ht.trans

theorem resolveCache_ends : Meets (resolveCache size pointers) h
    (fun index t => h.arena.Extends t.arena ∧ t.arena.CacheAt index size pointers)
    fun _ t => t = h := by
  rw [resolveCache]
  simp only [meets_bind, meets_get]
  cases hfind : h.arena.cacheIndex? size pointers with
  | some index => exact ⟨.refl _, Arena.cacheAt_of_cacheIndex? hfind⟩
  | none =>
    simp only [meets_lift, meets_bind, tell, modifyArena, meets_modify, meets_pure]
    refine ⟨fun c hc => ?_, fun _ _ => trivial⟩
    obtain ⟨s, rfl, rfl, rfl⟩ := Cache.check_eq_ok.1 hc
    refine ⟨Arena.extends_concat hfind, Arena.cacheAt_iff.2 ⟨s, ?_, rfl, rfl⟩⟩
    simp [Arena.shapes, Cache.new]

/-- The cache of a layout is found again, and nothing changes. -/
theorem resolveCache_eq (hd : h.arena.shapes.Nodup) (hc : h.arena.CacheAt index size pointers) :
    resolveCache size pointers h = .ok index h := by
  have hfind : Returns (resolveCache size pointers) h fun i t => i = index ∧ t = h := by
    rw [resolveCache]
    simp only [Returns, meets_bind, meets_get, hc.cacheIndex? hd]
    exact ⟨rfl, rfl⟩
  obtain ⟨_, _, he, rfl, rfl⟩ := hfind.exists_ok
  exact he

/-- A remembered cache is found again, if it is for the same layout. -/
theorem findCache_eq (hc : h.arena.CacheAt index size pointers) :
    findCache (some index) size pointers h = .ok index h := by
  change (if _ then pure index else throw Fault.rememberedCache : Action Heap Nat) h = _
  rw [if_pos (Arena.cacheAt_iff_holds.1 hc)]
  rfl

theorem findCache_refused (hc : ¬ h.arena.CacheAt index size pointers) :
    findCache (some index) size pointers h = .error .rememberedCache h := by
  change (if _ then pure index else throw Fault.rememberedCache : Action Heap Nat) h = _
  rw [if_neg fun hholds => hc (Arena.cacheAt_iff_holds.2 hholds)]
  rfl

/-- A cache that was found is for the layout that was asked for, whether it was remembered or
    not; nothing changes where none is found. -/
theorem findCache_ends {remembered : Option Nat} :
    Meets (findCache remembered size pointers) h
      (fun index t => h.arena.Extends t.arena ∧ t.arena.CacheAt index size pointers)
      fun _ t => t = h := by
  cases remembered with
  | none => exact resolveCache_ends
  | some index =>
    by_cases hc : h.arena.CacheAt index size pointers
    · rw [Meets, findCache_eq hc]
      exact ⟨.refl _, hc⟩
    · rw [Meets, findCache_refused hc]

theorem extending_resolveCache : Extending (resolveCache size pointers) h :=
  resolveCache_ends.mono (fun _ _ hr => hr.1) fun _ _ ht => ht ▸ .refl _

theorem extending_allocateWords : Extending (allocateWords tagging roots size pointers) h :=
  extending_resolveCache.bind fun _ _ => extending_of_keepsShapes keepsShapes_allocate

theorem extending_allocateBytes {bytes : Nat} :
    Extending (allocateBytes tagging roots bytes) h :=
  (extending_of_keepsShapes maintains_lift).bind fun _ _ => extending_allocateWords

end Heap
end SlabHeap
