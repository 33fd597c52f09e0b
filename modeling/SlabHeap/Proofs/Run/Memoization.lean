/-
  Call sites that remember caches.

  A `Request` asks an arena for the cache of a layout, at a call site with a slot that
  remembers the answer, or without one.  In a `Session` a program creates arenas, runs
  operations on them, whatever these come to, and asks for caches.  An answer stands from then
  on (`Session.upholds`), and a slot remembers answers alone (`Session.learnt`).  So a slot that
  is used for one layout of one arena answers as a search would, and a session comes to the same
  if none of its call sites has a slot (`Session.plain`).
-/
import SlabHeap.Proofs.Heap.Shapes
import SlabHeap.Proofs.Run.Isolation

namespace SlabHeap

variable {tagging : Tagging} {h h' : Heap} {a : Arena} {origin s : Site} {i index : Nat}
  {fault : Fault}

/-! ## Requests -/

/-- What the slots of all call sites remember. -/
abbrev Memos := Nat → Option Nat

/-- A request to an arena for the cache of objects of `size` words with `pointers` pointer
    fields, at a call site with a slot or without one. -/
structure Request where
  arena : Nat
  slot : Option Nat
  size : Nat
  pointers : Nat

namespace Request

variable {q : Request} {memos memos' : Memos} {t : Heap × Memos}

/-- The search for the cache, by what the slot remembers if there is one. -/
def find (q : Request) (memos : Memos) : Action Heap Nat :=
  match q.slot with
  | none => Heap.resolveCache q.size q.pointers
  | some slot => Heap.findCache (memos slot) q.size q.pointers

/-- The slots after an answer. -/
def remember (q : Request) (index : Nat) (memos : Memos) : Memos :=
  match q.slot with
  | none => memos
  | some slot => Function.update memos slot (some index)

/-- The request as an action on the heap of the arena and the slots. -/
def run (q : Request) : Action (Heap × Memos) Nat := do
  let (_, memos) ← get
  let index ← Action.zoom (·.1) (fun h s => (h, s.2)) (q.find memos)
  modify fun (h, memos) => (h, q.remember index memos)
  return index

/-- What the request is answered, if it is. -/
def answer? (q : Request) (memos : Memos) (h : Heap) : Option Nat :=
  match q.find memos h with
  | .ok index _ => some index
  | .error _ _ => none

/-- The heap that the request leaves. -/
def after (q : Request) (memos : Memos) (h : Heap) : Heap :=
  match q.find memos h with
  | .ok _ h' => h'
  | .error _ h' => h'

/-- The same request at a call site without a slot. -/
def plain (q : Request) : Request := { q with slot := none }

theorem run_eq : q.run (h, memos) =
    match q.find memos h with
    | .ok index h' => .ok index (h', q.remember index memos)
    | .error fault h' => .error fault (h', memos) := by
  have hget : q.run (h, memos) =
      (Action.zoom (·.1) (fun h s => (h, s.2)) (q.find memos) >>= fun index => do
        modify fun s : Heap × Memos => (s.1, q.remember index s.2)
        return index) (h, memos) := rfl
  rw [hget]
  simp only [bind, EStateM.bind, Action.zoom]
  cases q.find memos h <;> rfl

theorem find_of_answered (hr : q.run (h, memos) = .ok index (h', memos')) :
    q.find memos h = .ok index h' ∧ memos' = q.remember index memos := by
  rw [run_eq] at hr
  cases hf : q.find memos h <;> rw [hf] at hr <;> cases hr
  exact ⟨rfl, rfl⟩

theorem find_of_refused (hr : q.run (h, memos) = .error fault (h', memos')) :
    q.find memos h = .error fault h' ∧ memos' = memos := by
  rw [run_eq] at hr
  cases hf : q.find memos h <;> rw [hf] at hr <;> cases hr
  exact ⟨rfl, rfl⟩

theorem run_of_answer? (ha : q.answer? memos h = some index) :
    q.run (h, memos) = .ok index (q.after memos h, q.remember index memos) := by
  unfold answer? at ha
  rw [run_eq, after]
  cases hf : q.find memos h <;> rw [hf] at ha <;> cases ha
  rfl

theorem find_of_slot {slot : Nat} (hslot : q.slot = some slot) :
    q.find memos = Heap.findCache (memos slot) q.size q.pointers := by
  rw [find, hslot]

/-- The call site has no slot, or one that remembers nothing. -/
def Fresh (q : Request) (memos : Memos) : Prop :=
  ∀ slot, q.slot = some slot → memos slot = none

/-- A fresh request is a search. -/
theorem find_of_fresh (hq : q.Fresh memos) :
    q.find memos = Heap.resolveCache q.size q.pointers := by
  cases hslot : q.slot with
  | none => rw [find, hslot]
  | some slot =>
    rw [find_of_slot hslot, hq slot hslot]
    rfl

theorem find_ends : Meets (q.find memos) h
    (fun index t => h.arena.Extends t.arena ∧ t.arena.CacheAt index q.size q.pointers)
    fun _ t => t = h := by
  unfold find
  cases q.slot with
  | none => exact Heap.resolveCache_ends
  | some slot => exact Heap.findCache_ends

theorem remember_eq_some {slot : Nat} (hm : q.remember index memos slot = some i) :
    memos slot = some i ∨ q.slot = some slot ∧ i = index := by
  unfold remember at hm
  cases hslot : q.slot with
  | none => exact .inl (by rwa [hslot] at hm)
  | some own =>
    rw [hslot] at hm
    change Function.update memos own (some index) slot = some i at hm
    by_cases howns : slot = own
    · subst howns
      rw [Function.update_self] at hm
      exact .inr ⟨rfl, (Option.some.inj hm).symm⟩
    · exact .inl (by rwa [Function.update_of_ne howns] at hm)

/-- What the slot remembers, if anything, is the cache of the arena for the layout. -/
def Suits (q : Request) (memos : Memos) (a : Arena) : Prop :=
  ∀ slot i, q.slot = some slot → memos slot = some i → a.CacheAt i q.size q.pointers

/-- A suitable slot takes the place of a search. -/
theorem find_eq_resolve (hd : h.arena.shapes.Nodup) (hq : q.Suits memos h.arena) :
    q.find memos h = Heap.resolveCache q.size q.pointers h := by
  cases hslot : q.slot with
  | none => rw [find, hslot]
  | some slot =>
    rw [find_of_slot hslot]
    cases hm : memos slot with
    | none => rfl
    | some i =>
      have hc := hq slot i hslot hm
      rw [Heap.findCache_eq hc, Heap.resolveCache_eq hd hc]

/-- Where the cache of the layout is there, a suitable request finds it and changes nothing. -/
theorem run_eq_ok (hd : h.arena.shapes.Nodup) (hq : q.Suits memos h.arena)
    (hc : h.arena.CacheAt index q.size q.pointers) :
    q.run (h, memos) = .ok index (h, q.remember index memos) := by
  rw [run_eq, find_eq_resolve hd hq, Heap.resolveCache_eq hd hc]

/-- A request is refused, and changes nothing, where its slot remembers something else. -/
theorem run_refused {slot : Nat} (hslot : q.slot = some slot) (hm : memos slot = some i)
    (hc : ¬ h.arena.CacheAt i q.size q.pointers) :
    q.run (h, memos) = .error .rememberedCache (h, memos) := by
  rw [run_eq, find_of_slot hslot, hm, Heap.findCache_refused hc]

theorem plain_of_answered {blank : Memos} (hd : h.arena.shapes.Nodup)
    (hq : q.Suits memos h.arena) (hr : q.run (h, memos) = .ok index (h', memos')) :
    q.plain.run (h, blank) = .ok index (h', blank) := by
  have hf := (find_eq_resolve hd hq).symm.trans (find_of_answered hr).1
  rw [run_eq, show q.plain.find blank h = .ok index h' from hf]
  rfl

theorem plain_of_refused {blank : Memos} (hd : h.arena.shapes.Nodup)
    (hq : q.Suits memos h.arena) (hr : q.run (h, memos) = .error fault (h', memos')) :
    q.plain.run (h, blank) = .error fault (h', blank) := by
  have hf := (find_eq_resolve hd hq).symm.trans (find_of_refused hr).1
  rw [run_eq, show q.plain.find blank h = .error fault h' from hf]

end Request

/-! ## Sessions -/

/-- The operations that look for a cache on behalf of a call site. -/
def Operation.IsSearch : Operation → Prop
  | .resolve _ _ => True
  | .find _ _ _ => True
  | _ => False

/-- Something that a program did. -/
inductive Deed where
  | created (options : ArenaOptions)
  | worked (arena : Nat) (tagging : Tagging) (op : Operation)
  | asked (request : Request) (answer : Except Fault Nat)

/-- The same deed by a program whose call sites have no slots. -/
def Deed.plain : Deed → Deed
  | .asked q answer => .asked q.plain answer
  | d => d

/-- The requests of a program. -/
def requests (past : List Deed) : List Request :=
  past.filterMap fun
    | .asked q _ => some q
    | _ => none

theorem mem_requests {past : List Deed} {q : Request} {answer : Except Fault Nat}
    (h : .asked q answer ∈ past) : q ∈ requests past :=
  List.mem_filterMap.2 ⟨_, h, rfl⟩

/-- A call site with the slot was answered with the position. -/
def Answered (past : List Deed) (slot index : Nat) : Prop :=
  ∃ q, .asked q (.ok index) ∈ past ∧ q.slot = some slot

theorem Answered.cons {d : Deed} {past : List Deed} {slot : Nat} (h : Answered past slot index) :
    Answered (d :: past) slot index := by
  obtain ⟨q, hq, hslot⟩ := h
  exact ⟨q, List.mem_cons_of_mem _ hq, hslot⟩

/-- Every slot was used for one layout of one arena. -/
def OneUse (past : List Deed) : Prop :=
  ∀ q ∈ requests past, ∀ q' ∈ requests past, q.slot = q'.slot → q.slot ≠ none →
    q.arena = q'.arena ∧ q.size = q'.size ∧ q.pointers = q'.pointers

instance {past : List Deed} : Decidable (OneUse past) :=
  inferInstanceAs (Decidable (∀ q ∈ requests past, ∀ q' ∈ requests past, _ → _ → _))

theorem OneUse.tail {d : Deed} {past : List Deed} (h : OneUse (d :: past)) : OneUse past := by
  have hsub : requests past ⊆ requests (d :: past) :=
    List.filterMap_subset _ (List.subset_cons_self ..)
  exact fun q hq q' hq' => h q (hsub hq) q' (hsub hq')

/-- A program has come from a memory without arenas, with slots that remember nothing, to a
    site and what its slots remember.  Operations may end in any way. -/
inductive Session (origin : Site) : List Deed → Site → Memos → Prop
  | start : origin.arenas = [] → Session origin [] origin fun _ => none
  | create {past : List Deed} {s : Site} {memos : Memos} {options : ArenaOptions} {a : Arena} :
    Session origin past s memos → Arena.new options = .ok a →
    Session origin (.created options :: past) { s with arenas := s.arenas ++ [a] } memos
  | work {past : List Deed} {s : Site} {memos : Memos} {i : Nat} {a : Arena} {tagging : Tagging}
    {op : Operation} : Session origin past s memos → s.arenas[i]? = some a → ¬ op.IsSearch →
    Session origin (.worked i tagging op :: past) (s.put i (op.after tagging (s.heapOf a))) memos
  | answered {past : List Deed} {s : Site} {memos memos' : Memos} {q : Request} {a : Arena}
    {index : Nat} {h : Heap} : Session origin past s memos → s.arenas[q.arena]? = some a →
    q.run (s.heapOf a, memos) = .ok index (h, memos') →
    Session origin (.asked q (.ok index) :: past) (s.put q.arena h) memos'
  | refused {past : List Deed} {s : Site} {memos memos' : Memos} {q : Request} {a : Arena}
    {fault : Fault} {h : Heap} : Session origin past s memos → s.arenas[q.arena]? = some a →
    q.run (s.heapOf a, memos) = .error fault (h, memos') →
    Session origin (.asked q (.error fault) :: past) (s.put q.arena h) memos'

/-- Operations keep all caches, at their positions and for their layouts. -/
theorem Operation.run_extending (op : Operation) : Heap.Extending (op.run tagging) h := by
  have hreturn : ∀ {α : Type} {act : Action Heap α} {r : α → Option Word},
      Heap.Extending act h → Heap.Extending (do return r (← act)) h :=
    fun hact => hact.bind fun _ t => .refl t.arena
  cases op with
  | resolve size pointers => exact hreturn Heap.extending_resolveCache
  | find remembered size pointers =>
    exact hreturn (Heap.findCache_ends.mono (fun _ _ hr => hr.1) fun _ _ ht => ht ▸ .refl _)
  | allocate index roots => exact hreturn (Heap.extending_of_keepsShapes Heap.keepsShapes_allocate)
  | allocateWords size pointers roots => exact hreturn Heap.extending_allocateWords
  | allocateBytes bytes roots => exact hreturn Heap.extending_allocateBytes
  | collect roots => exact hreturn (Heap.extending_of_keepsShapes Heap.keepsFrame_collect.shapes)
  | clearUsed => exact hreturn (Heap.extending_of_keepsShapes Heap.keepsFrame_clearUsed.shapes)
  | mark roots => exact hreturn (Heap.extending_of_keepsShapes Heap.keepsFrame_mark.shapes)
  | sweep => exact hreturn (Heap.extending_of_keepsShapes Heap.keepsFrame_sweep.shapes)
  | setUsed object => exact hreturn (Heap.extending_of_keepsShapes Heap.keepsFrame_onMemory.shapes)
  | write object field w => exact Heap.extending_of_keepsShapes rfl

theorem Operation.extends_after (op : Operation) :
    h.arena.Extends (op.after tagging h).arena := by
  have hrun : Heap.Extending (op.run tagging) h := op.run_extending
  unfold Heap.Extending Meets at hrun
  unfold Operation.after
  cases he : op.run tagging h <;> rw [he] at hrun <;> exact hrun

/-- No two caches of an arena of the site have the same layout, and every answer so far is
    still right. -/
structure Site.Upholds (s : Site) (past : List Deed) : Prop where
  distinct : ∀ {i : Nat} {a : Arena}, s.arenas[i]? = some a → a.shapes.Nodup
  stands : ∀ {q : Request} {index : Nat}, .asked q (.ok index) ∈ past →
    ∃ a, s.arenas[q.arena]? = some a ∧ a.CacheAt index q.size q.pointers

namespace Site.Upholds

variable {past : List Deed} (hu : s.Upholds past)
include hu

theorem create {options : ArenaOptions} (hnew : Arena.new options = .ok a) :
    Site.Upholds { s with arenas := s.arenas ++ [a] } past where
  distinct hi := by
    rcases getElem?_create hi with hi | rfl
    · exact hu.distinct hi
    · obtain ⟨-, rfl⟩ := Arena.new_eq_ok.1 hnew
      exact List.nodup_nil
  stands hq := by
    obtain ⟨b, hb, hc⟩ := hu.stands hq
    exact ⟨b, (List.getElem?_append_left (List.getElem?_eq_some_iff.1 hb).1).trans hb, hc⟩

theorem put (ha : s.arenas[i]? = some a) (he : a.Extends h.arena) : (s.put i h).Upholds past where
  distinct hj := by
    rcases getElem?_put hj with ⟨rfl, rfl⟩ | ⟨-, hj⟩
    · exact he.nodup (hu.distinct ha)
    · exact hu.distinct hj
  stands {q index} hq := by
    obtain ⟨b, hb, hc⟩ := hu.stands hq
    by_cases hi : i = q.arena
    · subst hi
      obtain rfl := Option.some.inj (ha.symm.trans hb)
      exact ⟨h.arena, List.getElem?_set_self (List.getElem?_eq_some_iff.1 ha).1, hc.mono he⟩
    · exact ⟨b, (List.getElem?_set_ne hi).trans hb, hc⟩

theorem cons {d : Deed} (hd : ∀ {q : Request} {index : Nat}, d = .asked q (.ok index) →
    ∃ a, s.arenas[q.arena]? = some a ∧ a.CacheAt index q.size q.pointers) :
    s.Upholds (d :: past) where
  distinct := hu.distinct
  stands hq := by
    rcases List.mem_cons.1 hq with rfl | hq
    · exact hd rfl
    · exact hu.stands hq

end Site.Upholds

namespace Session

variable {past : List Deed} {memos : Memos} (hs : Session origin past s memos)
include hs

/-- A program goes on with a request that is answered. -/
theorem ask (q : Request) (index : Nat) (ha : s.arenas[q.arena]? = some a)
    (hanswer : q.answer? memos (s.heapOf a) = some index) :
    Session origin (.asked q (.ok index) :: past) (s.put q.arena (q.after memos (s.heapOf a)))
      (q.remember index memos) :=
  .answered hs ha (Request.run_of_answer? hanswer)

theorem upholds : s.Upholds past := by
  induction hs with
  | start hnone => exact ⟨by simp [hnone], nofun⟩
  | create _ hnew ih => exact (ih.create hnew).cons nofun
  | @work past s memos i a tagging op _ ha _ ih =>
    have he : (s.heapOf a).arena.Extends (op.after tagging (s.heapOf a)).arena := op.extends_after
    exact (ih.put ha he).cons nofun
  | @answered past s memos memos' q a index h _ ha hr ih =>
    obtain ⟨he, hc⟩ := Request.find_ends.of_ok (Request.find_of_answered hr).1
    refine (ih.put ha he).cons ?_
    rintro _ _ ⟨⟩
    exact ⟨h.arena, List.getElem?_set_self (List.getElem?_eq_some_iff.1 ha).1, hc⟩
  | refused _ ha hr ih =>
    obtain rfl := Request.find_ends.of_error (Request.find_of_refused hr).1
    exact (ih.put ha (.refl _)).cons nofun

/-- A slot remembers what its call site was answered. -/
theorem learnt {slot : Nat} (hm : memos slot = some index) : Answered past slot index := by
  induction hs with
  | start _ => cases hm
  | create _ _ ih => exact (ih hm).cons
  | work _ _ _ ih => exact (ih hm).cons
  | answered _ _ hr ih =>
    rw [(Request.find_of_answered hr).2] at hm
    rcases Request.remember_eq_some hm with hm | ⟨hslot, rfl⟩
    · exact (ih hm).cons
    · exact ⟨_, List.mem_cons_self .., hslot⟩
  | refused _ _ hr ih =>
    rw [(Request.find_of_refused hr).2] at hm
    exact (ih hm).cons

/-- A slot that was used for one layout of one arena suits the next such request. -/
theorem suits {q : Request} {answer : Except Fault Nat} (hone : OneUse (.asked q answer :: past))
    (ha : s.arenas[q.arena]? = some a) : q.Suits memos a := by
  intro slot i hslot hm
  obtain ⟨q₀, hmem, hslot₀⟩ := hs.learnt hm
  obtain ⟨harena, hsize, hpointers⟩ := hone q₀ (mem_requests (List.mem_cons_of_mem _ hmem))
    q (mem_requests (List.mem_cons_self ..)) (hslot₀.trans hslot.symm)
    (hslot₀ ▸ Option.some_ne_none _)
  obtain ⟨a', ha', hc⟩ := hs.upholds.stands hmem
  rw [harena] at ha'
  obtain rfl := Option.some.inj (ha.symm.trans ha')
  rwa [hsize, hpointers] at hc

/-- Slots that are used for one layout of one arena each make no difference: without them
    the same requests are answered in the same way, and the arenas are the same. -/
theorem plain (hone : OneUse past) : Session origin (past.map Deed.plain) s fun _ => none := by
  induction hs with
  | start hnone => exact .start hnone
  | create _ hnew ih => exact .create (ih hone.tail) hnew
  | work _ ha hop ih => exact .work (ih hone.tail) ha hop
  | answered hs ha hr ih =>
    exact .answered (ih hone.tail) ha
      (Request.plain_of_answered (hs.upholds.distinct ha) (hs.suits hone ha) hr)
  | refused hs ha hr ih =>
    exact .refused (ih hone.tail) ha
      (Request.plain_of_refused (hs.upholds.distinct ha) (hs.suits hone ha) hr)

end Session

/-! ## Answers -/

/-- The table of caches maps layouts to positions, one to one, and for good.  In every session:
    no two caches of an arena have the same layout; the cache that a request was answered with
    keeps its layout, and every later request for it gets the same answer, at once and without
    a change, unless its slot remembers another position; requests to an arena have the same
    answer if and only if they are for the same layout; a request whose slot remembers a
    position without a cache for the layout is refused, and changes neither the arena nor the
    slot; and slots that are used for one layout of one arena each make no difference. -/
theorem caches_are_stable {past : List Deed} {memos : Memos} (hs : Session origin past s memos) :
    (∀ (i : Nat) (a : Arena), s.arenas[i]? = some a → ∀ index index' size pointers,
      a.CacheAt index size pointers → a.CacheAt index' size pointers → index = index') ∧
    (∀ (q : Request) (index : Nat), .asked q (.ok index) ∈ past → ∃ a,
      s.arenas[q.arena]? = some a ∧ a.CacheAt index q.size q.pointers ∧
      ∀ q' : Request, q'.arena = q.arena → q'.size = q.size → q'.pointers = q.pointers →
        (∀ slot other, q'.slot = some slot → memos slot = some other → other = index) →
        q'.run (s.heapOf a, memos) = .ok index (s.heapOf a, q'.remember index memos)) ∧
    (∀ (q q' : Request) (index index' : Nat), .asked q (.ok index) ∈ past →
      .asked q' (.ok index') ∈ past → q.arena = q'.arena →
      (index = index' ↔ q.size = q'.size ∧ q.pointers = q'.pointers)) ∧
    (∀ (q : Request) (a : Arena) (slot i : Nat), s.arenas[q.arena]? = some a →
      q.slot = some slot → memos slot = some i → ¬ a.CacheAt i q.size q.pointers →
      q.run (s.heapOf a, memos) = .error .rememberedCache (s.heapOf a, memos)) ∧
    (OneUse past → Session origin (past.map Deed.plain) s fun _ => none) := by
  have hu := hs.upholds
  refine ⟨?_, ?_, ?_, ?_, hs.plain⟩
  · intro i a ha index index' size pointers hc hc'
    exact hc.unique (hu.distinct ha) hc'
  · intro q index hq
    obtain ⟨a, ha, hc⟩ := hu.stands hq
    refine ⟨a, ha, hc, ?_⟩
    rintro q' - hsize hpointers hother
    rw [← hsize, ← hpointers] at hc
    have hsuits : q'.Suits memos a := fun slot other hslot hm =>
      hother slot other hslot hm ▸ hc
    exact Request.run_eq_ok (h := s.heapOf a) (hu.distinct ha) hsuits hc
  · intro q q' index index' hq hq' harena
    obtain ⟨a, ha, hc⟩ := hu.stands hq
    obtain ⟨a', ha', hc'⟩ := hu.stands hq'
    rw [harena] at ha
    obtain rfl := Option.some.inj (ha.symm.trans ha')
    constructor
    · rintro rfl
      exact hc.inj hc'
    · rintro ⟨hsize, hpointers⟩
      rw [hsize, hpointers] at hc
      exact hc.unique (hu.distinct ha') hc'
  · intro q a slot i _ hslot hm hc
    exact Request.run_refused (h := s.heapOf a) hslot hm hc

/-- Two arenas of which both have a cache for one layout, at different positions, with an
    allocation and a collection between the requests: in the end a new slot learns the position,
    and the slots of other layouts and arenas are refused. -/
theorem caches_are_stable_of_two : ∃ (origin s : Site) (past : List Deed) (memos : Memos)
    (a b : Arena), Session origin past s memos ∧ past.length = 9 ∧ s.arenas = [a, b] ∧
    a.counters.collections = 1 ∧ a.CacheAt 0 2 1 ∧ a.CacheAt 1 3 0 ∧ b.CacheAt 0 3 0 ∧
    memos 1 = some 0 ∧ memos 2 = some 1 ∧ memos 7 = none ∧
    (Request.mk 0 (some 7) 3 0).run (s.heapOf a, memos) =
      .ok 1 (s.heapOf a, Function.update memos 7 (some 1)) ∧
    (Request.mk 0 (some 1) 3 0).run (s.heapOf a, memos) =
      .error .rememberedCache (s.heapOf a, memos) ∧
    (Request.mk 1 (some 2) 3 0).run (s.heapOf b, memos) =
      .error .rememberedCache (s.heapOf b, memos) ∧
    OneUse past ∧ Session origin (past.map Deed.plain) s fun _ => none := by
  have h₀ : Session ⟨.new (.row 2), [], #[]⟩ [] _ _ := .start rfl
  have hnew : Arena.new .standard = .ok (.blank .standard) := rfl
  have h₁ := (h₀.create hnew).create hnew
  have h₂ := h₁.ask ⟨0, some 0, 2, 1⟩ 0 rfl (by decide +kernel)
  have h₃ := h₂.ask ⟨0, none, 3, 0⟩ 1 rfl (by decide +kernel)
  have h₄ := h₃.ask ⟨1, some 1, 3, 0⟩ 0 rfl (by decide +kernel)
  have h₅ : Session _ (.worked 0 .untagged (.allocate 0 []) :: _) _ _ := h₄.work rfl id
  have h₆ : Session _ (.worked 0 .untagged (.collect []) :: _) _ _ := h₅.work rfl id
  have h₇ := h₆.ask ⟨0, some 0, 2, 1⟩ 0 rfl (by decide +kernel)
  have h₈ := h₇.ask ⟨0, some 2, 3, 0⟩ 1 rfl (by decide +kernel)
  -- The site is a large term, so the theorem is applied to a name for it.
  have hstable : ∀ {origin s : Site} {past : List Deed} {memos : Memos} {a b : Arena},
      Session origin past s memos → s.arenas = [a, b] →
      (∃ q : Request, .asked q (.ok 1) ∈ past ∧ q.arena = 0 ∧ q.size = 3 ∧ q.pointers = 0) →
      a.CacheAt 0 2 1 ∧ ¬ b.CacheAt 1 3 0 → memos 1 = some 0 ∧ memos 2 = some 1 ∧ memos 7 = none →
      OneUse past →
      (Request.mk 0 (some 7) 3 0).run (s.heapOf a, memos) =
        .ok 1 (s.heapOf a, Function.update memos 7 (some 1)) ∧
      (Request.mk 0 (some 1) 3 0).run (s.heapOf a, memos) =
        .error .rememberedCache (s.heapOf a, memos) ∧
      (Request.mk 1 (some 2) 3 0).run (s.heapOf b, memos) =
        .error .rememberedCache (s.heapOf b, memos) ∧
      Session origin (past.map Deed.plain) s fun _ => none := by
    intro origin s past memos a b hs harenas ⟨q, hq, harena, hsize, hpointers⟩ ⟨ha, hb⟩
      ⟨hm₁, hm₂, hm₇⟩ hone
    have ha₀ : s.arenas[0]? = some a := by rw [harenas]; rfl
    have hb₁ : s.arenas[1]? = some b := by rw [harenas]; rfl
    obtain ⟨-, hstands, -, hrefused, hplain⟩ := caches_are_stable hs
    obtain ⟨a', ha', -, hanswer⟩ := hstands q 1 hq
    rw [harena, ha₀] at ha'
    obtain rfl := Option.some.inj ha'
    refine ⟨hanswer ⟨0, some 7, 3, 0⟩ harena.symm hsize.symm hpointers.symm ?_, ?_, ?_, hplain hone⟩
    · rintro _ other ⟨⟩ hm
      rw [hm₇] at hm
      cases hm
    · exact hrefused ⟨0, some 1, 3, 0⟩ a 1 0 ha₀ rfl hm₁ fun hc =>
        absurd (hc.inj ha).1 (by decide)
    · exact hrefused ⟨1, some 2, 3, 0⟩ b 2 1 hb₁ rfl hm₂ hb
  obtain ⟨hnew, hother, hrange, hplain⟩ := hstable h₈ rfl
    ⟨⟨0, some 2, 3, 0⟩, List.mem_cons_self .., rfl, rfl, rfl⟩
    ⟨by decide +kernel, by decide +kernel⟩ ⟨rfl, rfl, rfl⟩ (by decide +kernel)
  exact ⟨_, _, _, _, _, _, h₈, rfl, rfl, by decide +kernel, by decide +kernel, by decide +kernel,
    by decide +kernel, rfl, rfl, rfl, hnew, hother, hrange, by decide +kernel, hplain⟩

end SlabHeap
