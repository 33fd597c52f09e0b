/-
  Frames that are linked one to the next.

  `Chain m head fs`: from the place `head` in the memory `m`, the links lead through the
  frames `fs`, each with its place and its slots, to a frame without a link.  A chain is
  determined by its head and visits no place twice (`Chain.nodup`), so a walk finds it
  whole (`Chain.frames_eq`).  Linking a frame at a place that the chain does not visit
  puts it in front, releasing the innermost frame takes it off, and a write changes the
  slots of its frame and of no other.
-/
import SlabHeap.Mutator.Roots
import SlabHeap.Proofs.Action
import Mathlib.Data.List.Perm.Subperm
import Mathlib.Data.List.Nodup

namespace SlabHeap

namespace ShadowStack

variable {m m' : Std.TreeMap Nat RawFrame} {s s' : ShadowStack} {head : Option Nat}
  {fs gs : List (Nat × List Word)} {place : Nat} {slots : List Word}

theorem after_releaseAt (s : ShadowStack) (place : Nat) :
    s.after (releaseAt place) =
      if s.head = some place then .ok s.pop else .error .frameOrder := by
  have hrun : releaseAt place s =
      (if s.head = some place then set s.pop else throw .frameOrder : Action ShadowStack Unit) s :=
    rfl
  rw [after, hrun]
  by_cases hhead : s.head = some place
  · rw [if_pos hhead, if_pos hhead]
    rfl
  · rw [if_neg hhead, if_neg hhead]
    rfl

/-! ## Chains -/

/-- The links lead from `head` through the frames `fs`. -/
inductive Chain (m : Std.TreeMap Nat RawFrame) : Option Nat → List (Nat × List Word) → Prop
  | nil : Chain m none []
  | cons {place : Nat} {prev : Option Nat} {slots : List Word} {fs : List (Nat × List Word)} :
    m[place]? = some ⟨prev, slots⟩ → Chain m prev fs → Chain m (some place) ((place, slots) :: fs)

namespace Chain

theorem unique (h : Chain m head fs) (h' : Chain m head gs) : fs = gs := by
  induction h generalizing gs with
  | nil =>
    cases h'
    rfl
  | cons hget _ ih =>
    cases h' with
    | cons hget' h' =>
      rw [hget] at hget'
      cases hget'
      rw [ih h']

/-- A chain goes on from each of its frames. -/
theorem from_mem (h : Chain m head fs) (hmem : (place, slots) ∈ fs) :
    ∃ gs, Chain m (some place) ((place, slots) :: gs) ∧ gs.length < fs.length := by
  induction h with
  | nil => cases hmem
  | cons hget h ih =>
    rcases List.mem_cons.1 hmem with heq | hmem
    · cases heq
      exact ⟨_, .cons hget h, Nat.lt_succ_self _⟩
    · obtain ⟨gs, hgs, hlt⟩ := ih hmem
      exact ⟨gs, hgs, Nat.lt_succ_of_lt hlt⟩

theorem mem_map_fst (h : Chain m head fs) (hmem : place ∈ fs.map Prod.fst) :
    ∃ prev slots, m[place]? = some ⟨prev, slots⟩ := by
  obtain ⟨⟨_, slots⟩, hf, rfl⟩ := List.mem_map.1 hmem
  obtain ⟨gs, hgs, -⟩ := h.from_mem hf
  cases hgs with
  | cons hget _ => exact ⟨_, _, hget⟩

/-- A chain visits no place twice, since it would not end otherwise. -/
theorem nodup (h : Chain m head fs) : (fs.map Prod.fst).Nodup := by
  induction h with
  | nil => exact List.nodup_nil
  | @cons place prev slots fs hget h ih =>
    refine List.nodup_cons.2 ⟨fun hmem => ?_, ih⟩
    obtain ⟨⟨_, slots'⟩, hf, rfl⟩ := List.mem_map.1 hmem
    obtain ⟨gs, hgs, hlt⟩ := h.from_mem hf
    cases hgs.unique (.cons hget h)
    exact absurd hlt (Nat.lt_irrefl _)

/-- A chain has no more frames than the memory. -/
theorem length_le (h : Chain m head fs) : fs.length ≤ m.size := by
  rw [← Std.TreeMap.length_keys, ← List.length_map (f := Prod.fst)]
  refine (List.subperm_of_subset h.nodup fun place hmem => ?_).length_le
  obtain ⟨prev, slots, hget⟩ := h.mem_map_fst hmem
  rw [Std.TreeMap.mem_keys, Std.TreeMap.mem_iff_isSome_getElem?, hget]
  rfl

/-- A chain is a matter of the frames on it. -/
theorem congr (h : Chain m head fs) (hm : ∀ place ∈ fs.map Prod.fst, m'[place]? = m[place]?) :
    Chain m' head fs := by
  induction h with
  | nil => exact .nil
  | cons hget _ ih =>
    obtain ⟨hplace, hrest⟩ := List.forall_mem_cons.1 hm
    exact .cons (hplace.trans hget) (ih hrest)

/-- The head is null exactly if the chain has no frame. -/
theorem head_eq_none (h : Chain m head fs) : head = none ↔ fs = [] := by
  cases h <;> simp

theorem head_eq (h : Chain m head fs) : head = (fs.map Prod.fst).head? := by
  cases h <;> rfl

/-- Where the slots of one frame change, the rest of a chain stays as it is. -/
theorem set (h : Chain m head fs) {prev : Option Nat} {index : Nat} {w : Word}
    (hget : m[place]? = some ⟨prev, slots⟩) :
    Chain (m.insert place ⟨prev, slots.set index w⟩) head
      (fs.map fun f => if f.1 = place then (f.1, f.2.set index w) else f) := by
  induction h with
  | nil => exact .nil
  | @cons other prev' slots' fs hget' _ ih =>
    by_cases heq : other = place
    · subst heq
      rw [hget] at hget'
      cases hget'
      simpa using Chain.cons (by simp) ih
    · have hother : (m.insert place ⟨prev, slots.set index w⟩)[other]? =
          some ⟨prev', slots'⟩ := by
        simpa [Std.TreeMap.getElem?_insert, Ne.symm heq] using hget'
      simpa [heq] using Chain.cons hother ih

/-! ## Walks -/

variable (h : Chain s.memory s.head fs)

theorem placesFrom_eq (h : Chain s.memory head fs) :
    ∀ {fuel : Nat}, fs.length ≤ fuel → s.placesFrom fuel head = fs.map Prod.fst := by
  induction h with
  | nil => rintro (_ | fuel) - <;> rfl
  | cons hget _ ih =>
    rintro (_ | fuel) hfuel
    · simp at hfuel
    · have hrest := ih (Nat.le_of_succ_le_succ hfuel)
      simp [placesFrom, frame, Std.TreeMap.getD_eq_getD_getElem?, hget, hrest]

include h

theorem places_eq : s.places = fs.map Prod.fst :=
  h.placesFrom_eq h.length_le

theorem frame_eq (hmem : (place, slots) ∈ fs) :
    ∃ prev, s.memory[place]? = some ⟨prev, slots⟩ ∧ s.frame place = ⟨prev, slots⟩ := by
  obtain ⟨gs, hgs, -⟩ := h.from_mem hmem
  cases hgs with
  | cons hget _ => exact ⟨_, hget, by rw [frame, Std.TreeMap.getD_eq_getD_getElem?, hget]; rfl⟩

/-- A walk finds the slots of all frames. -/
theorem frames_eq : s.frames = fs.map Prod.snd := by
  rw [frames, h.places_eq, List.map_map]
  refine List.map_congr_left fun f hmem => ?_
  obtain ⟨prev, -, hframe⟩ := h.frame_eq hmem
  rw [Function.comp_apply, hframe]

theorem depth_eq : s.depth = fs.length := by
  rw [depth, h.frames_eq, List.length_map]

theorem words_eq : s.words = fs.flatMap Prod.snd := by
  rw [words, h.frames_eq, List.flatMap_def]

/-! ## Steps -/

/-- A new frame is in front of the chain. -/
theorem pushAt_returns (hfree : place ∉ fs.map Prod.fst) :
    Returns (pushAt place slots) s fun _ s' => Chain s'.memory s'.head ((place, slots) :: fs) := by
  have hother : ∀ other ∈ fs.map Prod.fst,
      (s.memory.insert place ⟨s.head, slots⟩)[other]? = s.memory[other]? := by
    intro other hmem
    have hne : place ≠ other := fun heq => hfree (heq ▸ hmem)
    simp [Std.TreeMap.getElem?_insert, hne]
  simp only [Returns, pushAt, construct, link, meets_bind, meets_modify, meets_get, meets_ite,
    meets_set, meets_throw]
  refine ⟨fun _ => .cons (by simp [setFrame]) (h.congr hother), fun hstale => hstale ?_⟩
  simp [frame, setFrame]

/-- Without its innermost frame, a chain is as it was. -/
theorem pop : Chain s.pop.memory s.pop.head fs.tail := by
  have hhead := h.head_eq
  cases fs with
  | nil =>
    have hpop : s.pop = s := by rw [ShadowStack.pop, hhead]; rfl
    rwa [hpop]
  | cons f fs =>
    obtain ⟨place, slots⟩ := f
    obtain ⟨prev, hget, hframe⟩ := h.frame_eq List.mem_cons_self
    have hpop : s.pop = ⟨s.memory.erase place, prev⟩ := by
      rw [ShadowStack.pop, hhead]
      exact congrArg (ShadowStack.mk _ ·) (by rw [hframe])
    have hrest : Chain s.memory prev fs := by
      rw [hhead] at h
      cases h with
      | cons hget' h =>
        rw [hget] at hget'
        cases hget'
        exact h
    rw [hpop]
    refine hrest.congr fun other hmem => ?_
    have hne : place ≠ other := fun heq => (List.nodup_cons.1 h.nodup).1 (heq ▸ hmem)
    simp [Std.TreeMap.getElem?_erase, hne]

/-- The innermost frame can be released, which leaves the others, and no other frame can. -/
theorem releaseAt_meets :
    Meets (releaseAt place) s
      (fun _ s' => (fs.map Prod.fst).head? = some place ∧ Chain s'.memory s'.head fs.tail)
      fun fault s' => (fs.map Prod.fst).head? ≠ some place ∧ fault = .frameOrder ∧ s' = s := by
  simp only [releaseAt, meets_bind, meets_get, meets_ite, meets_set, meets_throw, ← h.head_eq]
  exact ⟨fun hhead => ⟨hhead, h.pop⟩, fun hother => ⟨hother, trivial, trivial⟩⟩

/-- A write to a frame on the chain changes its slots and no others, if the frame has the
    slot. -/
theorem write_meets {index : Nat} {w : Word} (hmem : (place, slots) ∈ fs) :
    Meets (write place index w) s
      (fun _ s' => index < slots.length ∧ Chain s'.memory s'.head
        (fs.map fun f => if f.1 = place then (f.1, f.2.set index w) else f))
      fun fault s' => ¬ index < slots.length ∧
        fault = .indexOutOfBounds slots.length index ∧ s' = s := by
  obtain ⟨prev, hget, hframe⟩ := h.frame_eq hmem
  simp only [write, hframe, meets_bind, meets_get, meets_ite, meets_set, meets_throw]
  refine ⟨fun hlt => ⟨hlt, ?_⟩, fun hge => ⟨hge, trivial, trivial⟩⟩
  exact h.set hget

/-! ## Positions -/

/-- Where no frame stands, none of the chain does. -/
theorem freePlace_not_mem : s.freePlace ∉ fs.map Prod.fst := by
  intro hmem
  obtain ⟨prev, slots, hget⟩ := h.mem_map_fst hmem
  have hkey : s.freePlace ∈ s.memory := by
    rw [Std.TreeMap.mem_iff_isSome_getElem?, hget]
    rfl
  rw [freePlace] at hkey
  split at hkey
  next hnone =>
    have hempty := Std.TreeMap.maxKey?_eq_none_iff.1 hnone
    exact Std.TreeMap.isEmpty_iff_forall_not_mem.1 hempty _ hkey
  next top htop =>
    have hle := (Std.TreeMap.maxKey?_eq_some_iff_mem_and_forall.1 htop).2 _ hkey
    exact absurd (Nat.isLE_compare.1 hle) (Nat.not_succ_le_self top)

/-- A frame that is pushed is in front of the chain. -/
theorem push : Chain (s.push slots).memory (s.push slots).head ((s.freePlace, slots) :: fs) := by
  have hpush : Returns (pushAt s.freePlace slots) s fun _ s' =>
      Chain s'.memory s'.head ((s.freePlace, slots) :: fs) := h.pushAt_returns h.freePlace_not_mem
  obtain ⟨_, s', heq, hchain⟩ := hpush.exists_ok
  rw [ShadowStack.push, after, heq]
  exact hchain

/-- The frame at a position is the one at that position of the chain from its end. -/
theorem place?_eq (position : Nat) : s.place? position = (fs.reverse[position]?).map Prod.fst := by
  rw [place?, h.places_eq, ← List.map_reverse, List.getElem?_map]

/-- The frame at a position can be released exactly if it is the innermost. -/
theorem release_eq (position : Nat) :
    s.release position = if position + 1 = s.depth then .ok s.pop else .error .frameOrder := by
  rw [release, h.place?_eq, h.depth_eq]
  split
  next hnone =>
    have hlen : fs.length ≤ position := by simpa using hnone
    rw [if_neg (by omega)]
  next place hsome =>
    rw [← List.getElem?_map, List.map_reverse, List.getElem?_eq_some_iff] at hsome
    obtain ⟨hlt, hplace⟩ := hsome
    rw [List.getElem_reverse] at hplace
    rw [List.length_reverse, List.length_map] at hlt
    have hpos : 0 < (fs.map Prod.fst).length := by
      rw [List.length_map]
      exact Nat.zero_lt_of_lt hlt
    have hinner : s.head = some place ↔ position + 1 = fs.length := by
      rw [h.head_eq, List.head?_eq_getElem?, List.getElem?_eq_getElem hpos, ← hplace,
        Option.some_inj, List.Nodup.getElem_inj_iff h.nodup, List.length_map]
      omega
    rw [after_releaseAt]
    exact if_congr hinner rfl rfl

end Chain

end ShadowStack

end SlabHeap
