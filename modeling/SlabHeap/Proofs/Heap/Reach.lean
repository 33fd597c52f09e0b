/-
  What words stand for, and what roots reach.

  `Trail f w ws o` follows the indirections from `w` through the words `ws` to the
  object or the lack of one at their end.  A trail is determined by its first word
  and visits no word twice (`Trail.nodup`), so it is found within as many steps as
  there are words (`settle_of_trail`).

  A tagging that looks at memory may resolve a word to one object now and to another one
  later.  `Tagging.Reads` bounds what it does by two relations: the objects that a word
  may stand for, and those that it must stand for whenever it is read.  Both are
  `Resolves f` for the tagging of a function `f` (`reads_ofWord`), and any tagging has
  bounds that say nothing (`reads_any`).

  `Reached` is the least set of objects that contains those that roots stand for and
  those that pointer fields of members stand for.
-/
import SlabHeap.Proofs.Heap.Object
import SlabHeap.Heap.Tagging

namespace SlabHeap

variable {f : Word → Edge} {w w' x y t : Word} {ws vs : List Word} {o o' : Option Word}
  {m m' : Memory}

/-! ## Indirections -/

/-- The indirections from `w` lead through the words `ws` to `o`. -/
inductive Trail (f : Word → Edge) : Word → List Word → Option Word → Prop
  | immediate {w : Word} : f w = .immediate → Trail f w [w] none
  | object {w x : Word} : f w = .object x → Trail f w [w] (some x)
  | indirection {w t : Word} {ws : List Word} {o : Option Word} :
    f w = .indirection t → Trail f t ws o → Trail f w (w :: ws) o

/-- No word starts an endless chain of indirections. -/
def FiniteChains (f : Word → Edge) : Prop := ∀ w, ∃ ws o, Trail f w ws o

/-- The object at the end of the indirections from `w` is `x`. -/
def Resolves (f : Word → Edge) (w x : Word) : Prop := ∃ ws, Trail f w ws (some x)

theorem Trail.unique (h : Trail f w ws o) (h' : Trail f w vs o') : ws = vs ∧ o = o' := by
  induction h generalizing vs with
  | immediate he =>
    cases h' with
    | immediate => exact ⟨rfl, rfl⟩
    | object he' => simp [he] at he'
    | indirection he' => simp [he] at he'
  | object he =>
    cases h' with
    | immediate he' => simp [he] at he'
    | object he' => rw [he] at he'; cases he'; exact ⟨rfl, rfl⟩
    | indirection he' => simp [he] at he'
  | indirection he _ ih =>
    cases h' with
    | immediate he' => simp [he] at he'
    | object he' => simp [he] at he'
    | indirection he' h' =>
      rw [he] at he'
      cases he'
      obtain ⟨rfl, rfl⟩ := ih h'
      exact ⟨rfl, rfl⟩

/-- A trail goes on from each of its words. -/
theorem Trail.from_mem (h : Trail f w ws o) (hx : x ∈ ws) :
    ∃ vs, Trail f x vs o ∧ vs.length ≤ ws.length := by
  induction h with
  | immediate he =>
    obtain rfl := List.mem_singleton.1 hx
    exact ⟨_, .immediate he, le_rfl⟩
  | object he =>
    obtain rfl := List.mem_singleton.1 hx
    exact ⟨_, .object he, le_rfl⟩
  | indirection he h ih =>
    rcases List.mem_cons.1 hx with rfl | hx
    · exact ⟨_, .indirection he h, le_rfl⟩
    · obtain ⟨vs, hvs, hl⟩ := ih hx
      exact ⟨vs, hvs, Nat.le_succ_of_le hl⟩

/-- A trail visits no word twice, since it would not end otherwise. -/
theorem Trail.nodup (h : Trail f w ws o) : ws.Nodup := by
  induction h with
  | immediate => exact List.nodup_singleton _
  | object => exact List.nodup_singleton _
  | @indirection w t ws o he h ih =>
    refine List.nodup_cons.2 ⟨fun hmem => ?_, ih⟩
    obtain ⟨vs, hvs, hl⟩ := h.from_mem hmem
    obtain ⟨rfl, -⟩ := hvs.unique (.indirection he h)
    simp at hl

theorem Trail.length_le (h : Trail f w ws o) : ws.length ≤ Word.count :=
  length_le_count h.nodup

theorem settleWithin_of_trail (h : Trail f w ws o) :
    ∀ {fuel : Nat}, ws.length ≤ fuel → (Tagging.ofWord f).settleWithin m fuel w = .ok o := by
  induction h with
  | immediate he =>
    rintro (_ | fuel) hf
    · simp at hf
    · simp [Tagging.settleWithin, Tagging.ofWord, he]
  | object he =>
    rintro (_ | fuel) hf
    · simp at hf
    · simp [Tagging.settleWithin, Tagging.ofWord, he]
  | indirection he _ ih =>
    rintro (_ | fuel) hf
    · simp at hf
    · have := ih (Nat.le_of_succ_le_succ hf)
      simpa [Tagging.settleWithin, Tagging.ofWord, he] using this

/-- The end of a trail is found. -/
theorem settle_of_trail (h : Trail f w ws o) : (Tagging.ofWord f).settle m w = .ok o :=
  settleWithin_of_trail h h.length_le

/-! ## Taggings -/

namespace Tagging

variable {tagging : Tagging} {may must : Word → Word → Prop}

/-- `w'` is a word on the way of indirections from `w`, as they were read at one time or
    another. -/
abbrev Leads (tagging : Tagging) : Word → Word → Prop :=
  Relation.ReflTransGen fun w t => ∃ m, tagging.classify m w = .indirection t

/-- A word stands at most for the objects that it may stand for, and for those that it
    must stand for whenever it is read. -/
structure Reads (tagging : Tagging) (may must : Word → Word → Prop) : Prop where
  immediate : ∀ {m w}, tagging.classify m w = .immediate → ∀ y, ¬ must w y
  object : ∀ {m w x}, tagging.classify m w = .object x → may w x ∧ ∀ y, must w y → y = x
  indirection : ∀ {m w t}, tagging.classify m w = .indirection t →
    (∀ y, may t y → may w y) ∧ ∀ y, must w y → must t y

/-- A tagging that depends on the word alone, and in which every chain of indirections
    ends. -/
def Total (tagging : Tagging) : Prop := ∃ f, tagging = ofWord f ∧ FiniteChains f

theorem reads_ofWord (f : Word → Edge) : (ofWord f).Reads (Resolves f) (Resolves f) where
  immediate {m w} he y := by
    rintro ⟨ws, ht⟩
    exact absurd (ht.unique (.immediate he)).2 (by simp)
  object {m w x} he := by
    refine ⟨⟨_, .object he⟩, ?_⟩
    rintro y ⟨ws, ht⟩
    exact Option.some.inj (ht.unique (.object he)).2
  indirection {m w t} he := by
    refine ⟨fun y ⟨ws, ht⟩ => ⟨_, .indirection he ht⟩, ?_⟩
    rintro y ⟨ws, ht⟩
    cases ht with
    | object he' =>
      have he'' : f w = .indirection t := he
      rw [he''] at he'
      cases he'
    | indirection he' ht =>
      have he'' : f w = .indirection t := he
      rw [he''] at he'
      cases he'
      exact ⟨_, ht⟩

theorem reads_any (tagging : Tagging) : tagging.Reads (fun _ _ => True) fun _ _ => False where
  immediate _ _ := id
  object _ := ⟨trivial, fun _ => False.elim⟩
  indirection _ := ⟨fun _ => id, fun _ => id⟩

theorem Reads.leads (hr : tagging.Reads may must) (hl : tagging.Leads w w') :
    (∀ y, may w' y → may w y) ∧ ∀ y, must w y → must w' y := by
  induction hl with
  | refl => exact ⟨fun _ => id, fun _ => id⟩
  | tail _ he ih =>
    obtain ⟨m, he⟩ := he
    obtain ⟨hmay, hmust⟩ := hr.indirection he
    exact ⟨fun y hy => ih.1 y (hmay y hy), fun y hy => hmust y (ih.2 y hy)⟩

/-- What a word settles to lies within the bounds. -/
theorem Reads.settleWithin (hr : tagging.Reads may must) {fuel : Nat}
    (h : tagging.settleWithin m fuel w = .ok o) :
    (∀ y, o = some y → may w y) ∧ ∀ y, must w y → o = some y := by
  induction fuel generalizing w with
  | zero => simp [Tagging.settleWithin] at h
  | succ fuel ih =>
    rw [Tagging.settleWithin] at h
    split at h
    next he =>
      cases h
      exact ⟨nofun, fun y hy => absurd hy (hr.immediate he y)⟩
    next x he =>
      cases h
      obtain ⟨hmay, hmust⟩ := hr.object he
      exact ⟨fun y hy => Option.some.inj hy ▸ hmay, fun y hy => by rw [hmust y hy]⟩
    next t he =>
      obtain ⟨hmay, hmust⟩ := hr.indirection he
      obtain ⟨h1, h2⟩ := ih h
      exact ⟨fun y hy => hmay y (h1 y hy), fun y hy => h2 y (hmust y hy)⟩

theorem settleWithin_error {fuel : Nat} {fault : Fault}
    (h : tagging.settleWithin m fuel w = .error fault) : fault = .endless := by
  induction fuel generalizing w with
  | zero => simpa [Tagging.settleWithin, eq_comm] using h
  | succ fuel ih =>
    rw [Tagging.settleWithin] at h
    split at h
    · cases h
    · cases h
    · exact ih h

theorem Total.settle_ne (ht : tagging.Total) {fault : Fault} :
    tagging.settle m w ≠ .error fault := by
  obtain ⟨f, rfl, hf⟩ := ht
  obtain ⟨ws, o, ht⟩ := hf w
  rw [settle_of_trail ht]
  simp

end Tagging

/-! ## Reachability -/

/-- The objects of an arena that roots reach, where `T w x` says that the word `w` stands
    for the object at `x`: those that roots stand for, and those that a pointer field of
    one that is reached stands for. -/
inductive Reached (T : Word → Word → Prop) (a : Arena) (m : Memory) (roots : List Word) :
    Word → Prop
  | root {r x base : Word} {s : Shape} {i : Nat} : r ∈ roots → T r x →
    a.SlotAt m s base i x → Reached T a m roots x
  | field {x y base base' : Word} {s s' : Shape} {i i' j : Nat} : Reached T a m roots x →
    a.SlotAt m s base i x → j < s.pointers → T (m.field x j) y →
    a.SlotAt m s' base' i' y → Reached T a m roots y

variable {T : Word → Word → Prop} {a a' : Arena} {roots : List Word}

/-- Reachability is a matter of the slots and of what their pointer fields stand for. -/
theorem Reached.congr (h : Reached T a m roots x)
    (hslot : ∀ {s base i x}, a.SlotAt m s base i x → a'.SlotAt m' s base i x)
    (hfield : ∀ {s base i x j y}, a.SlotAt m s base i x → Reached T a m roots x →
      j < s.pointers → T (m.field x j) y → T (m'.field x j) y) : Reached T a' m' roots x := by
  induction h with
  | root hr hres hx => exact .root hr hres (hslot hx)
  | field hreach hx hj hres hy ih =>
    exact .field ih (hslot hx) hj (hfield hx hreach hj hres) (hslot hy)

/-- More roots reach more. -/
theorem Reached.widen {more : List Word} (h : Reached T a m roots x) (hsub : roots ⊆ more) :
    Reached T a m more x := by
  induction h with
  | root hr hres hx => exact .root (hsub hr) hres hx
  | field _ hx hj hres hy ih => exact .field ih hx hj hres hy

/-- Of the arena, only the caches matter. -/
theorem Reached.of_caches (h : Reached T a m roots x) (hc : a'.caches = a.caches) :
    Reached T a' m roots x := by
  refine h.congr (fun hx => hx.congr ?_ rfl) fun _ _ _ => id
  rw [Arena.Owns, hc]
  exact hx.owner

/-- What is reached is a slot. -/
theorem Reached.slotAt (h : Reached T a m roots x) : ∃ s base i, a.SlotAt m s base i x := by
  cases h with
  | root _ _ hx => exact ⟨_, _, _, hx⟩
  | field _ _ _ _ hx => exact ⟨_, _, _, hx⟩

end SlabHeap
