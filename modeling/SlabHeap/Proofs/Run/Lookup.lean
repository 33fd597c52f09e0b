/-
  Looking up the megablock that holds an address.

  Of the megablocks of an arena, a lookup considers one: the last that does not start behind the
  address.  Since no two share an address, this finds what a search through their mappings finds
  that considers all of them, one after the other (`Laid.holding?_eq`).

  A directory holds the mappings that the system made for the arena, no matter where the
  system put them and in which order (`Directory.Laid`).  A demand for a megablock adds one, and
  a demand for a block adds one or none (`serve_returns`), so after any number of demands they are
  those made since the arena was new (`lookup_is_linear_search`).
-/
import Mathlib.Data.List.Pairwise
import SlabHeap.Proofs.Memory.Turns
import SlabHeap.Proofs.Run.History

namespace SlabHeap

open Block (StartsAt)

variable {m : Mapping} {mappings : List Mapping} {d : Directory} {mb mb' : Megablock} {w x : Word}

/-! ## Mappings -/

namespace Mapping

/-- The mapping of a megablock at an address. -/
def megablock (start : Word) : Mapping := ⟨start, megablockBytes⟩

/-- Two mappings share no address. -/
def Apart (m m' : Mapping) : Prop :=
  m.stop ≤ m'.start.toNat ∨ m'.stop ≤ m.start.toNat

instance : Std.Symm Apart where
  symm _ _ := Or.symm

instance : DecidableRel Apart := fun _ _ => inferInstanceAs (Decidable (_ ∨ _))

theorem contains_iff : m.contains w = true ↔ m.start.toNat ≤ w.toNat ∧ w.toNat < m.stop := by
  simp [contains, UInt64.le_iff_toNat_le]

theorem contains_megablock : (megablock x).contains w = true ↔
    x.toNat ≤ w.toNat ∧ w.toNat < x.toNat + megablockBytes :=
  contains_iff

theorem megablock_injective : Function.Injective megablock := fun _ _ => congrArg start

theorem nodup_of_apart {places : List Word} (ha : (places.map megablock).Pairwise Apart) :
    places.Nodup := by
  refine (List.pairwise_map.1 ha).imp ?_
  rintro x y hself rfl
  simp only [Apart, megablock, stop, megablockBytes] at hself
  omega

/-- At most one of the mappings holds an address, so it is the one that is found. -/
theorem find?_eq_some (ha : mappings.Pairwise Apart) :
    mappings.find? (contains · w) = some m ↔ m ∈ mappings ∧ m.contains w = true := by
  constructor
  · intro hf
    exact ⟨List.mem_of_find?_eq_some hf, by simpa using List.find?_some hf⟩
  · rintro ⟨hm, hc⟩
    cases hf : mappings.find? (contains · w) with
    | none => exact absurd hc (List.find?_eq_none.1 hf m hm)
    | some m' =>
      have hc' : m'.contains w = true := by simpa using List.find?_some hf
      rw [Option.some.injEq]
      by_contra hne
      have hapart := ha.forall (List.mem_of_find?_eq_some hf) hm hne
      rw [contains_iff] at hc hc'
      rw [Apart] at hapart
      omega

end Mapping

/-! ## Directories -/

namespace Directory

/-- The megablocks of a directory have the given mappings. -/
structure Laid (d : Directory) (mappings : List Mapping) : Prop where
  ordered : d.Ordered
  perm : (d.megablocks.map Megablock.mapping).Perm mappings

theorem laid_empty : empty.Laid [] := ⟨List.Pairwise.nil, .nil⟩

theorem Laid.insert_new (hl : d.Laid mappings) (hnew : ∀ m ∈ mappings, m.start ≠ mb.base) :
    (d.insert mb).Laid (mappings ++ [mb.mapping]) where
  ordered := ordered_insert hl.ordered mb
  perm := by
    have hne : ∀ other ∈ d.megablocks, other.base ≠ mb.base := fun other ho =>
      hnew _ (hl.perm.subset (List.mem_map_of_mem ho))
    refine ((insertInto_perm_of_new hne).map Megablock.mapping).trans ?_
    rw [List.map_cons]
    exact (hl.perm.cons _).trans (List.perm_append_singleton ..).symm

/-- A megablock that takes the place of one with the same mapping. -/
theorem Laid.insert_same (hl : d.Laid mappings) (hm : mb ∈ d.megablocks)
    (he : mb'.mapping = mb.mapping) : (d.insert mb').Laid mappings where
  ordered := ordered_insert hl.ordered mb'
  perm := by
    have hbase : mb'.base = mb.base := congrArg Mapping.start he
    refine ((insertInto_perm_of_mem hl.ordered hm hbase).map Megablock.mapping).trans ?_
    rw [List.map_cons, he, ← List.map_cons]
    exact ((List.perm_cons_erase hm).symm.map _).trans hl.perm

/-- Of the megablock that is looked up, the mapping is found by a search through all of them. -/
theorem Laid.holding?_eq (hl : d.Laid mappings) (ha : mappings.Pairwise Mapping.Apart) :
    (d.holding? w).map Megablock.mapping = mappings.find? (Mapping.contains · w) := by
  have hstop : ∀ mb ∈ d.megablocks, ∀ mb' ∈ d.megablocks, mb.base < mb'.base →
      mb.mapping.stop ≤ mb'.base.toNat := by
    intro mb hm mb' hm' hlt
    have hne : mb.mapping ≠ mb'.mapping := fun he =>
      UInt64.ne_of_lt hlt (congrArg Mapping.start he)
    have hapart := ha.forall (hl.perm.subset (List.mem_map_of_mem hm))
      (hl.perm.subset (List.mem_map_of_mem hm')) hne
    rw [UInt64.lt_iff_toNat_lt] at hlt
    simp only [Mapping.Apart, Mapping.stop, Megablock.base] at hapart hlt ⊢
    omega
  refine Option.ext fun m => ?_
  rw [Mapping.find?_eq_some ha, ← hl.perm.mem_iff, List.mem_map, Option.map_eq_some_iff]
  constructor
  · rintro ⟨mb, hf, rfl⟩
    obtain ⟨hm, hc⟩ := (hl.ordered.holding?_eq_some hstop).1 hf
    exact ⟨⟨mb, hm, rfl⟩, hc⟩
  · rintro ⟨⟨mb, hm, rfl⟩, hc⟩
    exact ⟨mb, (hl.ordered.holding?_eq_some hstop).2 ⟨hm, hc⟩, rfl⟩

end Directory

/-! ## Growing -/

/-- What is asked of the megablocks of an arena: one more of them, or the next block. -/
inductive Demand where
  | megablock
  | block
deriving DecidableEq

/-- Serves a demand. -/
def Demand.serve : Demand → Action Heap Unit
  | megablock => do
    let _ ← Heap.mapMegablock
  | block => do
    let _ ← Heap.sliceBlock

/-- The next mappings are made at the given places. -/
def Memory.Offers (m : Memory) (places : List Word) : Prop :=
  ∀ i x, places[i]? = some x → m.supply (m.mapped + i) = some x

namespace Heap

variable {h : Heap} {past next places : List Word} {demands : List Demand}

/-- The megablocks of a heap were mapped at the places `past`, and the next ones will be at the
    places `next`. -/
structure Lays (h : Heap) (past next : List Word) : Prop where
  laid : h.arena.directory.Laid (past.map Mapping.megablock)
  offers : h.memory.Offers next

/-- From `h` to `h'`, a megablock was mapped at `x`. -/
structure LaysOne (h : Heap) (past : List Word) (x : Word) (next : List Word) (h' : Heap) :
    Prop where
  lays : h'.Lays (past ++ [x]) next
  mapped : h'.memory.mapped = h.memory.mapped + 1

/-- From `h` to `h'`, a megablock was mapped at `x`, or none was. -/
inductive LaysOneAtMost (h : Heap) (past : List Word) (x : Word) (next : List Word) (h' : Heap) :
    Prop
  | none : h'.Lays past (x :: next) → h'.memory.mapped = h.memory.mapped →
    LaysOneAtMost h past x next h'
  | one : h.LaysOne past x next h' → LaysOneAtMost h past x next h'

/-- A new megablock is mapped at the next place. -/
theorem mapMegablock_returns (hl : h.Lays past (x :: next)) (hx : StartsAt x) (hnew : x ∉ past) :
    Returns mapMegablock h fun mb h' =>
      mb ∈ h'.arena.directory.megablocks ∧ h.LaysOne past x next h' := by
  have hmap := Memory.map_eq_ok.2 ⟨x, hl.offers 0 x rfl, hx, rfl, rfl⟩
  have hne : ∀ m ∈ past.map Mapping.megablock, m.start ≠ x := by
    intro m hm
    obtain ⟨y, hy, rfl⟩ := List.mem_map.1 hm
    exact fun he => hnew (he ▸ hy)
  let mb : Megablock := ⟨.megablock x, h.arena.directory.size, 0⟩
  have hlaid : (h.arena.directory.insert mb).Laid (_ ++ [mb.mapping]) := hl.laid.insert_new hne
  rw [mapMegablock]
  simp only [Returns, meets_bind, meets_get, hmap, tell, modifyArena, meets_modify, meets_pure]
  refine ⟨(Directory.mem_insert hl.laid.ordered).2 (.inl rfl), ⟨?_, fun i y hy => ?_⟩, rfl⟩
  · rw [List.map_append]
    exact hlaid
  · have hsup := hl.offers (i + 1) y hy
    simpa only [Nat.add_assoc, Nat.add_comm 1] using hsup

theorem currentMegablock_returns (hl : h.Lays past (x :: next)) (hx : StartsAt x)
    (hnew : x ∉ past) : Returns currentMegablock h fun mb h' =>
      mb ∈ h'.arena.directory.megablocks ∧ h.LaysOneAtMost past x next h' := by
  have hmaps : Returns mapMegablock h fun mb h' =>
      mb ∈ h'.arena.directory.megablocks ∧ h.LaysOneAtMost past x next h' :=
    (mapMegablock_returns hl hx hnew).mono fun _ _ ⟨hm, hone⟩ => ⟨hm, .one hone⟩
  rw [currentMegablock]
  simp only [Returns, meets_bind, meets_get]
  cases hcur : h.arena.current.bind h.arena.directory.startingAt? with
  | none => exact hmaps
  | some mb =>
    obtain ⟨start, -, hstart⟩ := Option.bind_eq_some_iff.1 hcur
    simp only [meets_ite, meets_pure]
    exact ⟨fun _ => hmaps, fun _ => ⟨List.mem_of_find?_eq_some hstart, .none hl rfl⟩⟩

/-- Slicing changes the megablock, but not its mapping. -/
theorem sliceBlock_returns (hl : h.Lays past (x :: next)) (hx : StartsAt x) (hnew : x ∉ past) :
    Returns sliceBlock h fun _ h' => h.LaysOneAtMost past x next h' := by
  rw [sliceBlock]
  simp only [Returns, meets_bind, meets_get]
  refine (currentMegablock_returns hl hx hnew).mono ?_
  rintro mb h₁ ⟨hm, hone⟩
  simp only [meets_set, meets_pure]
  cases hone with
  | none hl₁ hmapped => exact .none ⟨hl₁.laid.insert_same hm rfl, hl₁.offers⟩ hmapped
  | one hone => exact .one ⟨⟨hone.lays.laid.insert_same hm rfl, hone.lays.offers⟩, hone.mapped⟩

/-- A demand for a megablock is served by mapping one, and one for a block maps one at most. -/
theorem serve_returns (demand : Demand) (hl : h.Lays past (x :: next)) (hx : StartsAt x)
    (hnew : x ∉ past) : Returns demand.serve h fun _ h' => match demand with
      | .megablock => h.LaysOne past x next h'
      | .block => h.LaysOneAtMost past x next h' := by
  cases demand with
  | megablock =>
    simp only [Demand.serve, Returns, meets_bind, meets_pure]
    exact (mapMegablock_returns hl hx hnew).mono fun _ _ => And.right
  | block =>
    simp only [Demand.serve, Returns, meets_bind, meets_pure]
    exact sliceBlock_returns hl hx hnew

/-- After demands from `h` on, the first of the places are those of the megablocks. -/
structure LaysFirst (h : Heap) (places : List Word) (demands : List Demand) (k : Nat) (h' : Heap) :
    Prop where
  lays : h'.Lays (places.take k) (places.drop k)
  mapped : h'.memory.mapped = h.memory.mapped + k
  atLeast : demands.count .megablock ≤ k
  atMost : k ≤ demands.length

theorem LaysFirst.none {k : Nat} {h' h'' : Heap} (hf : h.LaysFirst places demands k h')
    (hl : h''.Lays (places.take k) (places.drop k)) (hm : h''.memory.mapped = h'.memory.mapped) :
    h.LaysFirst places (demands ++ [.block]) k h'' where
  lays := hl
  mapped := hm.trans hf.mapped
  atLeast := by simpa using hf.atLeast
  atMost := by
    have := hf.atMost
    simp only [List.length_append, List.length_singleton]
    omega

theorem LaysFirst.one {k : Nat} {h' h'' : Heap} (demand : Demand)
    (hf : h.LaysFirst places demands k h') (hk : k < places.length)
    (hone : h'.LaysOne (places.take k) places[k] (places.drop (k + 1)) h'') :
    h.LaysFirst places (demands ++ [demand]) (k + 1) h'' where
  lays := by
    have hl := hone.lays
    rwa [List.take_append_getElem] at hl
  mapped := by
    have := hf.mapped
    have := hone.mapped
    omega
  atLeast := by
    have := hf.atLeast
    have : [demand].count .megablock ≤ 1 := List.count_le_length
    rw [List.count_append]
    omega
  atMost := by
    have := hf.atMost
    simp only [List.length_append, List.length_singleton]
    omega

theorem serveAll_returns (hempty : h.arena.directory = .empty) (hoffers : h.memory.Offers places)
    (hstarts : ∀ x ∈ places, StartsAt x) (hnodup : places.Nodup)
    (hroom : demands.length ≤ places.length) :
    Returns (demands.forM Demand.serve) h fun _ h' => ∃ k, h.LaysFirst places demands k h' := by
  have hrun : Returns (demands.forM Demand.serve) h fun _ h' =>
      demands ++ [] = demands ∧ ∃ k, h.LaysFirst places demands k h' := by
    refine meets_forM (I := fun done todo h' =>
      done ++ todo = demands ∧ ∃ k, h.LaysFirst places done k h') ⟨rfl, 0, ?_⟩ ?_
    · refine ⟨⟨?_, hoffers⟩, rfl, Nat.le_refl _, Nat.le_refl _⟩
      rw [hempty]
      exact Directory.laid_empty
    · rintro done demand todo h' ⟨rfl, k, hf⟩
      have hk : k < places.length := by
        have := hf.atMost
        simp only [List.length_append, List.length_cons] at hroom
        omega
      have hsplit := List.drop_eq_getElem_cons hk
      have hnew : places[k] ∉ places.take k := by
        have hnd : (places.take k ++ places[k] :: places.drop (k + 1)).Nodup := by
          rwa [← hsplit, List.take_append_drop]
        exact fun hmem => List.disjoint_of_nodup_append hnd hmem (List.mem_cons_self ..)
      refine (serve_returns demand (hsplit ▸ hf.lays) (hstarts _ (List.getElem_mem hk)) hnew).mono
        (fun _ h'' hone => ⟨by simp, ?_⟩)
      cases demand with
      | megablock => exact ⟨k + 1, hf.one _ hk hone⟩
      | block =>
        cases hone with
        | none hl hm => exact ⟨k, hf.none (hsplit ▸ hl) hm⟩
        | one hone => exact ⟨k + 1, hf.one _ hk hone⟩
  exact hrun.mono fun _ _ => And.right

end Heap

/-- Wherever the system puts the megablocks of a new arena, if no two share an address, and
    whichever blocks are sliced from them: an address is one of the arena exactly if a megablock
    holds it, this is the megablock that is looked up, and so would a search through all of them
    find it. -/
theorem lookup_is_linear_search {h : Heap} {places : List Word} {demands : List Demand}
    (hempty : h.arena.directory = .empty) (hoffers : h.memory.Offers places)
    (hstarts : ∀ x ∈ places, StartsAt x)
    (hapart : (places.map Mapping.megablock).Pairwise Mapping.Apart)
    (hroom : demands.length ≤ places.length) :
    Returns (demands.forM Demand.serve) h fun _ h' => ∃ k, demands.count .megablock ≤ k ∧
      h'.memory.mapped = h.memory.mapped + k ∧
      ∀ w, (h'.arena.contains w = true ↔ ∃ x ∈ places.take k,
          x.toNat ≤ w.toNat ∧ w.toNat < x.toNat + megablockBytes) ∧
        (∀ x, (h'.arena.directory.holding? w).map Megablock.mapping = some (.megablock x) ↔
          x ∈ places.take k ∧ x.toNat ≤ w.toNat ∧ w.toNat < x.toNat + megablockBytes) ∧
        (h'.arena.directory.holding? w).map Megablock.mapping =
          ((places.take k).map Mapping.megablock).find? (Mapping.contains · w) := by
  have hnodup := Mapping.nodup_of_apart hapart
  refine (Heap.serveAll_returns hempty hoffers hstarts hnodup hroom).mono ?_
  rintro - h' ⟨k, hf⟩
  refine ⟨k, hf.atLeast, hf.mapped, fun w => ?_⟩
  have htake := hapart.sublist ((List.take_sublist k places).map Mapping.megablock)
  have hlookup := hf.lays.laid.holding?_eq (w := w) htake
  refine ⟨?_, fun x => ?_, hlookup⟩
  · rw [Arena.contains, ← Option.isSome_map, hlookup, List.find?_isSome]
    simp only [List.mem_map, exists_exists_and_eq_and, Mapping.contains_megablock]
  · rw [hlookup, Mapping.find?_eq_some htake, Mapping.contains_megablock,
      List.mem_map_of_injective Mapping.megablock_injective]

/-- Three megablocks side by side, the last of them mapped first. -/
theorem lookup_is_linear_search_of_three :
    let places : List Word := [0x300000, 0x100000, 0x200000]
    let demands : List Demand := [.megablock, .megablock, .megablock]
    let h : Heap := .of (.new fun k => places[k]?) (.blank .standard)
    h.arena.directory = .empty ∧ h.memory.Offers places ∧ (∀ x ∈ places, StartsAt x) ∧
    (places.map Mapping.megablock).Pairwise Mapping.Apart ∧ demands.length ≤ places.length ∧
    Returns (demands.forM Demand.serve) h fun _ h' =>
      h'.arena.contains 0xfffff = false ∧ h'.arena.contains 0x400000 = false ∧
      (h'.arena.directory.holding? 0x1fffff).map Megablock.base = some 0x100000 ∧
      (h'.arena.directory.holding? 0x200000).map Megablock.base = some 0x200000 := by
  intro places demands h
  have hoffers : h.memory.Offers places := fun i x hx => by
    rw [← hx]
    exact congrArg (places[·]?) (Nat.zero_add i)
  have hstarts : ∀ x ∈ places, StartsAt x := fun x hx => by
    rw [List.mem_cons, List.mem_cons, List.mem_singleton] at hx
    rcases hx with rfl | rfl | rfl <;> rfl
  have hapart : (places.map Mapping.megablock).Pairwise Mapping.Apart := by decide
  refine ⟨rfl, hoffers, hstarts, hapart, by decide, ?_⟩
  refine (lookup_is_linear_search rfl hoffers hstarts hapart (by decide)).mono ?_
  rintro - h' ⟨k, hk, -, hlookup⟩
  rw [List.take_of_length_le (show places.length ≤ k from hk)] at hlookup
  have hbase : ∀ w x, x ∈ places → x.toNat ≤ w.toNat → w.toNat < x.toNat + megablockBytes →
      (h'.arena.directory.holding? w).map Megablock.base = some x := fun w x hx hle hlt => by
    have hfound := congrArg (Option.map Mapping.start) (((hlookup w).2.1 x).2 ⟨hx, hle, hlt⟩)
    rwa [Option.map_map] at hfound
  refine ⟨?_, ?_, ?_, ?_⟩
  · rw [← Bool.not_eq_true, (hlookup _).1]
    decide
  · rw [← Bool.not_eq_true, (hlookup _).1]
    decide
  · exact hbase _ _ (by decide) (by decide) (by decide)
  · exact hbase _ _ (by decide) (by decide) (by decide)

end SlabHeap
