/-
  Call sites of generated code.

  Generated code keeps a word per call site: zero before the first answer, and the position of
  the cache plus one after it (`remembered`).  `Request.call` asks by such a word; what a slot
  would answer, `Request.run`, checks that the remembered cache has the layout, and the word is
  believed.

  A call that is answered by its word changes nothing, so the arenas of a program are those of a
  session of its other requests (`Calls.session`), and the word of a call site holds the first
  answer it got (`Calls.remembered_eq`).  Where this is the cache for the layout, a call ends as
  the request with the slot does (`call_agrees`); where it is not, the call gets it all the same
  (`call_of_word`), and the request is refused.
-/
import SlabHeap.Mutator.Handle
import SlabHeap.Proofs.Run.Memoization

namespace SlabHeap

variable {h h' : Heap} {a : Arena} {origin s : Site} {slot i index : Nat} {fault : Fault}

/-! ## Words of call sites -/

/-- The words of all call sites of generated code. -/
abbrev SiteWords := Nat → Nat

/-- The position that the word of a call site stands for. -/
def SiteWords.position? : Nat → Option Nat
  | 0 => none
  | index + 1 => some index

/-- What slots remember in place of the words. -/
def SiteWords.remembered (words : SiteWords) : Memos := fun slot => position? (words slot)

namespace SiteWords

variable {words : SiteWords}

theorem remembered_update : remembered (Function.update words slot (index + 1)) =
    Function.update words.remembered slot (some index) :=
  Function.comp_update position? words slot (index + 1)

end SiteWords

/-! ## Calls -/

namespace Request

variable {q : Request} {words words' : SiteWords} {memos : Memos}

/-- The words after the one of the call site was written, if it has one. -/
def note (q : Request) (word : Option Nat) (words : SiteWords) : SiteWords :=
  match q.slot, word with
  | some slot, some w => Function.update words slot w
  | _, _ => words

/-- The request by the word of the call site, as an action on the heap of the arena and the
    words. -/
def call (q : Request) : Action (Heap × SiteWords) Nat := do
  let (_, words) ← get
  let (index, word) ← Action.zoom (·.1) (fun h s => (h, s.2))
    (Handle.findCache (q.slot.map words) q.size q.pointers)
  modify fun (h, words) => (h, q.note word words)
  return index

/-- The call site has no word, or one that does not remember a cache. -/
def Searches (q : Request) (words : SiteWords) : Prop :=
  ∀ slot, q.slot = some slot → words slot = 0

/-- The call from a state ends as the request with slots does, and leaves the same heap, and
    words for what the slots then remember; an answer is the cache for the layout. -/
def Agrees (q : Request) (h : Heap) (words : SiteWords) : Prop :=
  match q.run (h, words.remembered) with
  | .ok index (h', memos) => ∃ words', q.call (h, words) = .ok index (h', words') ∧
      words'.remembered = memos ∧ h'.arena.CacheAt index q.size q.pointers
  | .error fault (h', memos) => q.call (h, words) = .error fault (h', words) ∧
      memos = words.remembered ∧ h' = h

theorem call_eq : q.call (h, words) =
    match Handle.findCache (q.slot.map words) q.size q.pointers h with
    | .ok (index, word) h' => .ok index (h', q.note word words)
    | .error fault h' => .error fault (h', words) := by
  have hget : q.call (h, words) =
      (Action.zoom (·.1) (fun h s => (h, s.2))
          (Handle.findCache (q.slot.map words) q.size q.pointers) >>= fun r => do
        modify fun s : Heap × SiteWords => (s.1, q.note r.2 s.2)
        return r.1) (h, words) := rfl
  rw [hget]
  simp only [bind, EStateM.bind, Action.zoom]
  cases Handle.findCache (q.slot.map words) q.size q.pointers h <;> rfl

/-- A word that remembers a cache is believed. -/
theorem call_of_word (hslot : q.slot = some slot) (hw : words slot = i + 1) :
    q.call (h, words) = .ok i (h, words) := by
  have hfind : Handle.findCache (q.slot.map words) q.size q.pointers h =
      .ok (i, some (i + 1)) h := by
    rw [hslot, Option.map_some, hw]
    rfl
  have hnote : q.note (some (i + 1)) words = words := by
    simp only [note, hslot, ← hw]
    exact Function.update_eq_self slot words
  simp only [call_eq, hfind, hnote]

/-- Without a word that remembers a cache, a call is a search. -/
theorem call_of_searches (hq : q.Searches words) : q.call (h, words) =
    match Heap.resolveCache q.size q.pointers h with
    | .ok index h' => .ok index (h', q.note (some (index + 1)) words)
    | .error fault h' => .error fault (h', words) := by
  rw [call_eq]
  cases hslot : q.slot with
  | none =>
    simp only [Option.map_none, Handle.findCache, bind, EStateM.bind, pure, EStateM.pure]
    cases Heap.resolveCache q.size q.pointers h <;> simp only [note, hslot]
  | some slot =>
    simp only [Option.map_some, hq slot hslot, Handle.findCache, bind, EStateM.bind, pure,
      EStateM.pure]
    cases Heap.resolveCache q.size q.pointers h <;> rfl

theorem remembered_note : (q.note (some (index + 1)) words).remembered =
    q.remember index words.remembered := by
  unfold note remember
  cases q.slot with
  | none => rfl
  | some slot => exact SiteWords.remembered_update

theorem fresh_of_searches (hq : q.Searches words) : q.Fresh words.remembered := by
  intro slot hslot
  rw [SiteWords.remembered, hq slot hslot]
  rfl

theorem find_of_searches (hq : q.Searches words) :
    q.find words.remembered = Heap.resolveCache q.size q.pointers :=
  find_of_fresh (fresh_of_searches hq)

theorem searches_or_word (q : Request) (words : SiteWords) : q.Searches words ∨
    ∃ slot i, q.slot = some slot ∧ words slot = i + 1 := by
  by_cases hq : q.Searches words
  · exact .inl hq
  · unfold Searches at hq
    push Not at hq
    obtain ⟨slot, hslot, hw⟩ := hq
    exact .inr ⟨slot, words slot - 1, hslot, by omega⟩

theorem remembered_of_word (hw : words slot = i + 1) : words.remembered slot = some i := by
  unfold SiteWords.remembered
  rw [hw]
  rfl

/-- A search agrees with a slot that remembers nothing. -/
theorem agrees_of_searches (hq : q.Searches words) : q.Agrees h words := by
  have hcall := call_of_searches (h := h) hq
  have hends : Meets (q.find words.remembered) h _ _ := find_ends
  unfold Agrees
  rw [run_eq]
  rw [find_of_searches hq] at hends ⊢
  unfold Meets at hends
  cases hr : Heap.resolveCache q.size q.pointers h with
  | ok index h' =>
    rw [hr] at hcall hends
    exact ⟨_, hcall, remembered_note, hends.2⟩
  | error fault h' =>
    rw [hr] at hcall hends
    exact ⟨hcall, rfl, hends⟩

/-- A call agrees with a slot that remembers the cache for the layout, or nothing. -/
theorem agrees_of_suits (hq : q.Suits words.remembered h.arena) : q.Agrees h words := by
  rcases q.searches_or_word words with hs | ⟨slot, i, hslot, hw⟩
  · exact agrees_of_searches hs
  · have hm := remembered_of_word hw
    have hc := hq slot i hslot hm
    have hrem : q.remember i words.remembered = words.remembered := by
      rw [remember, hslot, ← hm]
      exact Function.update_eq_self slot _
    unfold Agrees
    rw [run_eq, find_of_slot hslot, hm, Heap.findCache_eq hc]
    exact ⟨words, call_of_word hslot hw, hrem.symm, hc⟩

/-- An answer was found by a search, or the word was believed and nothing changed. -/
theorem call_eq_ok (hr : q.call (h, words) = .ok index (h', words')) :
    q.Searches words ∧ Heap.resolveCache q.size q.pointers h = .ok index h' ∧
      words' = q.note (some (index + 1)) words ∨
    ∃ slot, q.slot = some slot ∧ words slot = index + 1 ∧ h' = h ∧ words' = words := by
  rcases q.searches_or_word words with hs | ⟨slot, i, hslot, hw⟩
  · rw [call_of_searches hs] at hr
    cases hf : Heap.resolveCache q.size q.pointers h <;> rw [hf] at hr <;> cases hr
    exact .inl ⟨hs, rfl, rfl⟩
  · rw [call_of_word hslot hw] at hr
    cases hr
    exact .inr ⟨slot, hslot, hw, rfl, rfl⟩

/-- Only a search is refused. -/
theorem call_eq_error (hr : q.call (h, words) = .error fault (h', words')) :
    q.Searches words ∧ Heap.resolveCache q.size q.pointers h = .error fault h' ∧
      words' = words := by
  rcases q.searches_or_word words with hs | ⟨slot, i, hslot, hw⟩
  · rw [call_of_searches hs] at hr
    cases hf : Heap.resolveCache q.size q.pointers h <;> rw [hf] at hr <;> cases hr
    exact ⟨hs, rfl, rfl⟩
  · rw [call_of_word hslot hw] at hr
    cases hr

/-- An answer is written to the word of the call site if this was zero. -/
theorem remembered_of_call (hr : q.call (h, words) = .ok index (h', words')) (slot : Nat) :
    words'.remembered slot =
      (words.remembered slot).or (if q.slot = some slot then some index else none) := by
  rcases call_eq_ok hr with ⟨hs, -, rfl⟩ | ⟨own, hown, hw, -, rfl⟩
  · rw [remembered_note, remember]
    cases hslot : q.slot with
    | none => simp
    | some own =>
      by_cases howns : slot = own
      · subst howns
        have hnone : words.remembered slot = none := by
          rw [SiteWords.remembered, hs slot hslot]
          rfl
        simp [hnone]
      · have hne : own ≠ slot := fun he => howns he.symm
        simp [howns, hne]
  · by_cases howns : own = slot
    · subst howns
      simp [remembered_of_word hw]
    · simp [hown, howns]

/-- What a search finds, the request with slots finds as well. -/
theorem run_of_searches (hs : q.Searches words)
    (hf : Heap.resolveCache q.size q.pointers h = .ok index h') :
    q.run (h, words.remembered) =
      .ok index (h', (q.note (some (index + 1)) words).remembered) := by
  rw [run_eq, find_of_searches hs, hf, remembered_note]

theorem run_error_of_searches (hs : q.Searches words)
    (hf : Heap.resolveCache q.size q.pointers h = .error fault h') :
    q.run (h, words.remembered) = .error fault (h', words.remembered) := by
  rw [run_eq, find_of_searches hs, hf]

end Request

/-! ## Programs -/

/-- The answer of a deed to a call site with the slot, with the request. -/
def Deed.answerAt (slot : Nat) : Deed → Option (Request × Nat)
  | .asked q (.ok index) => if q.slot = some slot then some (q, index) else none
  | _ => none

/-- The first answer that call sites with the slot were given, with the request for it. -/
def first? (slot : Nat) : List Deed → Option (Request × Nat)
  | [] => none
  | d :: past => (first? slot past).or (d.answerAt slot)

/-- Call sites with the slot of the deed, if it has one, were given an answer before. -/
def Deed.fromWord (past : List Deed) : Deed → Bool
  | .asked q _ => q.slot.any fun slot => (first? slot past).isSome
  | _ => false

/-- What a program did, without the calls that were answered by a word. -/
def searches : List Deed → List Deed
  | [] => []
  | d :: past => if d.fromWord past then searches past else d :: searches past

/-- A program of generated code has come from a memory without arenas, with words that are
    zero, to a site and its words.  Operations may end in any way. -/
inductive Calls (origin : Site) : List Deed → Site → SiteWords → Prop
  | start : origin.arenas = [] → Calls origin [] origin fun _ => 0
  | create {past : List Deed} {s : Site} {words : SiteWords} {options : ArenaOptions} {a : Arena} :
    Calls origin past s words → Arena.new options = .ok a →
    Calls origin (.created options :: past) { s with arenas := s.arenas ++ [a] } words
  | work {past : List Deed} {s : Site} {words : SiteWords} {i : Nat} {a : Arena}
    {tagging : Tagging} {op : Operation} :
    Calls origin past s words → s.arenas[i]? = some a → ¬ op.IsSearch →
    Calls origin (.worked i tagging op :: past) (s.put i (op.after tagging (s.heapOf a))) words
  | answered {past : List Deed} {s : Site} {words words' : SiteWords} {q : Request} {a : Arena}
    {index : Nat} {h : Heap} : Calls origin past s words → s.arenas[q.arena]? = some a →
    q.call (s.heapOf a, words) = .ok index (h, words') →
    Calls origin (.asked q (.ok index) :: past) (s.put q.arena h) words'
  | refused {past : List Deed} {s : Site} {words words' : SiteWords} {q : Request} {a : Arena}
    {fault : Fault} {h : Heap} : Calls origin past s words → s.arenas[q.arena]? = some a →
    q.call (s.heapOf a, words) = .error fault (h, words') →
    Calls origin (.asked q (.error fault) :: past) (s.put q.arena h) words'

theorem first?_cons {d : Deed} {past : List Deed} :
    first? slot (d :: past) = (first? slot past).or (d.answerAt slot) := rfl

theorem first?_skip {d : Deed} {past : List Deed} (hd : d.answerAt slot = none) :
    first? slot (d :: past) = first? slot past := by
  rw [first?_cons, hd, Option.or_none]

/-- The first answer at a slot was given at that slot, by a search. -/
theorem mem_searches_of_first? {past : List Deed} {q : Request}
    (hq : first? slot past = some (q, index)) :
    .asked q (.ok index) ∈ searches past ∧ q.slot = some slot := by
  induction past with
  | nil => cases hq
  | cons d past ih =>
    rw [first?_cons] at hq
    cases hearlier : first? slot past with
    | some r =>
      rw [hearlier, Option.some_or] at hq
      obtain ⟨hmem, hslot⟩ := ih (hearlier.trans hq)
      refine ⟨?_, hslot⟩
      unfold searches
      split
      · exact hmem
      · exact List.mem_cons_of_mem _ hmem
    | none =>
      rw [hearlier, Option.none_or] at hq
      unfold Deed.answerAt at hq
      split at hq
      next q' index' =>
        split at hq
        next hslot =>
          cases hq
          refine ⟨?_, hslot⟩
          have hnew : Deed.fromWord past (.asked q (.ok index)) = false := by
            simp [Deed.fromWord, hslot, hearlier]
          rw [searches, hnew]
          exact List.mem_cons_self ..
        next => cases hq
      next => cases hq

theorem Site.put_self {s : Site} (ha : s.arenas[i]? = some a) : s.put i (s.heapOf a) = s := by
  obtain ⟨hi, rfl⟩ := List.getElem?_eq_some_iff.1 ha
  simp [Site.put, Site.heapOf]

namespace Calls

variable {past : List Deed} {words : SiteWords} (hc : Calls origin past s words)
include hc

/-- A program goes on with a search that is answered. -/
theorem search (q : Request) (index : Nat) (ha : s.arenas[q.arena]? = some a)
    (hs : q.Searches words) (hanswer : q.answer? words.remembered (s.heapOf a) = some index) :
    Calls origin (.asked q (.ok index) :: past)
      (s.put q.arena (q.after words.remembered (s.heapOf a)))
      (q.note (some (index + 1)) words) := by
  have hf := (Request.find_of_answered (Request.run_of_answer? hanswer)).1
  rw [Request.find_of_searches hs] at hf
  refine .answered hc ha ?_
  rw [Request.call_of_searches hs, hf]

/-- A program goes on with a call that is answered by a word. -/
theorem believe (q : Request) (index : Nat) (ha : s.arenas[q.arena]? = some a)
    (hslot : q.slot = some slot) (hw : words slot = index + 1) :
    Calls origin (.asked q (.ok index) :: past) s words := by
  have h₁ := hc.answered ha (Request.call_of_word (h := s.heapOf a) hslot hw)
  rwa [Site.put_self ha] at h₁

/-- The word of a call site holds the first answer it was given. -/
theorem remembered_eq (slot : Nat) :
    words.remembered slot = (first? slot past).map (·.2) := by
  induction hc with
  | start _ => rfl
  | create _ _ ih => rw [ih, first?_skip rfl]
  | work _ _ _ ih => rw [ih, first?_skip rfl]
  | refused _ _ hr ih =>
    obtain ⟨-, -, rfl⟩ := Request.call_eq_error hr
    rw [ih, first?_skip rfl]
  | answered _ _ hr ih =>
    rw [Request.remembered_of_call hr, first?_cons, Option.map_or, ih, Deed.answerAt]
    split <;> rfl

theorem not_fromWord {q : Request} {answer : Except Fault Nat} (hs : q.Searches words) :
    Deed.fromWord past (.asked q answer) = false := by
  cases hslot : q.slot with
  | none => simp [Deed.fromWord, hslot]
  | some slot =>
    have hfirst := hc.remembered_eq slot
    rw [SiteWords.remembered, hs slot hslot] at hfirst
    have hnone : first? slot past = none := Option.map_eq_none_iff.1 hfirst.symm
    simp [Deed.fromWord, hslot, hnone]

theorem fromWord {q : Request} {answer : Except Fault Nat} (hslot : q.slot = some slot)
    (hw : words slot = i + 1) : Deed.fromWord past (.asked q answer) = true := by
  have hfirst := hc.remembered_eq slot
  rw [Request.remembered_of_word hw] at hfirst
  obtain ⟨r, hr, -⟩ := Option.map_eq_some_iff.1 hfirst.symm
  simp [Deed.fromWord, hslot, hr]

/-- The arenas are those of a session of the requests that were not answered by a word. -/
theorem session : Session origin (searches past) s words.remembered := by
  induction hc with
  | start hnone => exact .start hnone
  | create _ hnew ih => exact .create ih hnew
  | work _ ha hop ih => exact .work ih ha hop
  | answered hc ha hr ih =>
    rcases Request.call_eq_ok hr with ⟨hs, hf, rfl⟩ | ⟨slot, hslot, hw, rfl, rfl⟩
    · rw [searches, hc.not_fromWord hs]
      exact .answered ih ha (Request.run_of_searches hs hf)
    · rw [searches, hc.fromWord hslot hw, Site.put_self ha]
      exact ih
  | refused hc ha hr ih =>
    obtain ⟨hs, hf, rfl⟩ := Request.call_eq_error hr
    rw [searches, hc.not_fromWord hs]
    exact .refused ih ha (Request.run_error_of_searches hs hf)

/-- Slots that are used for one layout of one arena each answer as the words do. -/
theorem session_of_oneUse (hone : OneUse past) : Session origin past s words.remembered := by
  induction hc with
  | start hnone => exact .start hnone
  | create _ hnew ih => exact .create (ih hone.tail) hnew
  | work _ ha hop ih => exact .work (ih hone.tail) ha hop
  | @answered past s words words' q a index h hc ha hr ih =>
    have hs := ih hone.tail
    have hagrees := Request.agrees_of_suits (h := s.heapOf a) (hs.suits hone ha)
    unfold Request.Agrees at hagrees
    cases hrun : q.run (s.heapOf a, words.remembered) with
    | ok index' t =>
      rw [hrun] at hagrees
      obtain ⟨words'', hr', hm, -⟩ := hagrees
      cases hr.symm.trans hr'
      exact .answered hs ha (hm ▸ hrun)
    | error fault t =>
      rw [hrun] at hagrees
      cases hr.symm.trans hagrees.1
  | @refused past s words words' q a fault h hc ha hr ih =>
    have hs := ih hone.tail
    obtain ⟨hsearch, hf, rfl⟩ := Request.call_eq_error hr
    exact .refused hs ha (Request.run_error_of_searches hsearch hf)

end Calls

/-! ## Agreement -/

/-- Words of call sites answer as slots do, but for a check.  In every program of generated
    code: the arenas are those of a session of the requests that were not answered by a word,
    and the word of a call site holds the first answer that it was given, at which there is a
    cache for the layout of the request that was answered.  A call agrees with the request with
    slots, in the outcome and in what both leave, and an answer is a cache for the layout, where
    the word holds the cache for the layout or is zero.  Where it holds another, and there
    alone, the call is answered with this other while the request is refused; among requests to
    one arena this is where the layout is not that of the first request that was answered.
    Programs whose slots are used for one layout of one arena each are sessions. -/
theorem words_answer_as_slots {past : List Deed} {words : SiteWords}
    (hc : Calls origin past s words) :
    Session origin (searches past) s words.remembered ∧
    (∀ slot, words.remembered slot = (first? slot past).map (·.2)) ∧
    (∀ (slot : Nat) (q : Request) (index : Nat), first? slot past = some (q, index) →
      q.slot = some slot ∧
      ∃ a, s.arenas[q.arena]? = some a ∧ a.CacheAt index q.size q.pointers) ∧
    (∀ (q : Request) (a : Arena), s.arenas[q.arena]? = some a →
      q.Suits words.remembered a → q.Agrees (s.heapOf a) words) ∧
    (∀ (q : Request) (a : Arena) (slot i : Nat), s.arenas[q.arena]? = some a →
      q.slot = some slot → words slot = i + 1 → ¬ a.CacheAt i q.size q.pointers →
      q.call (s.heapOf a, words) = .ok i (s.heapOf a, words) ∧
      q.run (s.heapOf a, words.remembered) =
        .error .rememberedCache (s.heapOf a, words.remembered)) ∧
    (∀ (q q₀ : Request) (a : Arena) (slot i : Nat), s.arenas[q.arena]? = some a →
      q.slot = some slot → first? slot past = some (q₀, i) → q₀.arena = q.arena →
      (q.Suits words.remembered a ↔ q.size = q₀.size ∧ q.pointers = q₀.pointers)) ∧
    (OneUse past → Session origin past s words.remembered) := by
  have hfirst : ∀ (slot : Nat) (q : Request) (index : Nat),
      first? slot past = some (q, index) → q.slot = some slot ∧
        ∃ a, s.arenas[q.arena]? = some a ∧ a.CacheAt index q.size q.pointers := by
    intro slot q index hq
    obtain ⟨hmem, hslot⟩ := mem_searches_of_first? hq
    exact ⟨hslot, hc.session.upholds.stands hmem⟩
  refine ⟨hc.session, hc.remembered_eq, hfirst, ?_, ?_, ?_, hc.session_of_oneUse⟩
  · intro q a _ hq
    exact Request.agrees_of_suits (h := s.heapOf a) hq
  · intro q a slot i _ hslot hw hno
    exact ⟨Request.call_of_word hslot hw, Request.run_refused (h := s.heapOf a) hslot
      (Request.remembered_of_word hw) hno⟩
  · intro q q₀ a slot i ha hslot hq₀ harena
    obtain ⟨-, a₀, ha₀, hcache⟩ := hfirst slot q₀ i hq₀
    rw [harena] at ha₀
    obtain rfl := Option.some.inj (ha.symm.trans ha₀)
    have hword : words.remembered slot = some i := by rw [hc.remembered_eq, hq₀]; rfl
    constructor
    · intro hsuits
      exact (hsuits slot i hslot hword).inj hcache
    · rintro ⟨hsize, hpointers⟩ slot' i' hslot' hword'
      cases hslot.symm.trans hslot'
      cases hword.symm.trans hword'
      rwa [hsize, hpointers]

/-- Two arenas and four layouts: a call site that asks for the layout of its first answer gets
    the cache that the slot gives, one that shares the slot with another layout gets the cache
    of the first, and one with a new slot gets its own. -/
theorem words_answer_as_slots_of_two : ∃ (origin s : Site) (past : List Deed)
    (words : SiteWords) (a b : Arena), Calls origin past s words ∧ past.length = 8 ∧
    s.arenas = [a, b] ∧ a.counters.objectsAllocated = 1 ∧
    words 0 = 1 ∧ words 1 = 2 ∧ words 2 = 0 ∧ ¬ OneUse past ∧
    Session origin (searches past) s words.remembered ∧ (searches past).length = 6 ∧
    (∃ q, first? 1 past = some (q, 1) ∧ q.size = 3 ∧ q.pointers = 0) ∧
    (Request.mk 0 (some 1) 3 0).Agrees (s.heapOf a) words ∧
    (Request.mk 0 (some 2) 255 0).Agrees (s.heapOf a) words ∧
    (Request.mk 0 (some 1) 2 1).call (s.heapOf a, words) = .ok 1 (s.heapOf a, words) ∧
    (Request.mk 0 (some 1) 2 1).run (s.heapOf a, words.remembered) =
      .error .rememberedCache (s.heapOf a, words.remembered) := by
  have h₀ : Calls ⟨.new (.row 2), [], #[]⟩ [] _ _ := .start rfl
  have hnew : Arena.new .standard = .ok (.blank .standard) := rfl
  have h₁ := (h₀.create hnew).create hnew
  have h₂ := h₁.search ⟨0, some 0, 2, 1⟩ 0 rfl (by rintro _ ⟨⟩; rfl) (by decide +kernel)
  have h₃ := h₂.search ⟨0, some 1, 3, 0⟩ 1 rfl (by rintro _ ⟨⟩; rfl) (by decide +kernel)
  have h₄ : Calls _ (.worked 0 .untagged (.allocate 0 []) :: _) _ _ := h₃.work rfl id
  have h₅ := h₄.believe ⟨0, some 1, 2, 1⟩ 1 rfl rfl rfl
  have h₆ := h₅.believe ⟨1, some 0, 9, 9⟩ 0 rfl rfl rfl
  have h₇ := h₆.search ⟨1, none, 4, 0⟩ 0 rfl nofun (by decide +kernel)
  -- The site is a large term, so the theorem is applied to a name for it.
  have hwords : ∀ {origin s : Site} {past : List Deed} {words : SiteWords} {a : Arena},
      Calls origin past s words → s.arenas[0]? = some a →
      words 1 = 2 ∧ words 2 = 0 → a.CacheAt 1 3 0 →
      Session origin (searches past) s words.remembered ∧
      (Request.mk 0 (some 1) 3 0).Agrees (s.heapOf a) words ∧
      (Request.mk 0 (some 2) 255 0).Agrees (s.heapOf a) words ∧
      (Request.mk 0 (some 1) 2 1).call (s.heapOf a, words) = .ok 1 (s.heapOf a, words) ∧
      (Request.mk 0 (some 1) 2 1).run (s.heapOf a, words.remembered) =
        .error .rememberedCache (s.heapOf a, words.remembered) := by
    intro origin s past words a hc ha ⟨hw₁, hw₂⟩ hcache
    obtain ⟨hsession, -, -, hagrees, hbelieved, -, -⟩ := words_answer_as_slots hc
    refine ⟨hsession, hagrees _ a ha ?_, hagrees _ a ha ?_, hbelieved _ a 1 1 ha rfl hw₁ ?_⟩
    · rintro _ i ⟨⟩ hm
      rw [Request.remembered_of_word hw₁] at hm
      cases hm
      exact hcache
    · rintro _ i ⟨⟩ hm
      rw [SiteWords.remembered, hw₂] at hm
      cases hm
    · exact fun hno => absurd (hno.inj hcache).1 (by decide)
  obtain ⟨hsession, hown, hinvalid, hcall, hrun⟩ := hwords h₇ rfl ⟨rfl, rfl⟩ (by decide +kernel)
  exact ⟨_, _, _, _, _, _, h₇, rfl, rfl, by decide +kernel, rfl, rfl, rfl, by decide +kernel,
    hsession, by decide +kernel, ⟨_, rfl, rfl, rfl⟩, hown, hinvalid, hcall, hrun⟩

/-- Two call sites share a slot: the one that asks for objects of 254 words is answered with the
    cache of the other, whose objects have 2 words, where the slot would refuse it. -/
theorem word_answers_wrong_cache : ∃ (origin s : Site) (past : List Deed) (words : SiteWords)
    (a : Arena), Calls origin past s words ∧
    past.reverse = [.created .standard, .asked ⟨0, some 0, 2, 0⟩ (.ok 0)] ∧
    s.arenas = [a] ∧ a.CacheAt 0 2 0 ∧ ¬ a.CacheAt 0 254 0 ∧
    (Request.mk 0 (some 0) 254 0).call (s.heapOf a, words) = .ok 0 (s.heapOf a, words) ∧
    (Request.mk 0 (some 0) 254 0).run (s.heapOf a, words.remembered) =
      .error .rememberedCache (s.heapOf a, words.remembered) := by
  have h₀ : Calls ⟨.new (.row 1), [], #[]⟩ [] _ _ := .start rfl
  have h₁ := h₀.create (show Arena.new .standard = .ok (.blank .standard) from rfl)
  have h₂ := h₁.search ⟨0, some 0, 2, 0⟩ 0 rfl (by rintro _ ⟨⟩; rfl) (by decide +kernel)
  -- The site is a large term, so the calls are compared under a name for it.
  have hno : ∀ {origin s : Site} {past : List Deed} {words : SiteWords} {a : Arena},
      Calls origin past s words → s.arenas = [a] → words 0 = 1 → ¬ a.CacheAt 0 254 0 →
      (Request.mk 0 (some 0) 254 0).call (s.heapOf a, words) = .ok 0 (s.heapOf a, words) ∧
      (Request.mk 0 (some 0) 254 0).run (s.heapOf a, words.remembered) =
        .error .rememberedCache (s.heapOf a, words.remembered) := by
    intro origin s past words a _ _ hw hcache
    exact ⟨Request.call_of_word rfl hw, Request.run_refused (h := s.heapOf a) rfl
      (Request.remembered_of_word hw) hcache⟩
  obtain ⟨hcall, hrun⟩ := hno h₂ rfl rfl (by decide +kernel)
  exact ⟨_, _, _, _, _, h₂, rfl, rfl, by decide +kernel, by decide +kernel, hcall, hrun⟩

end SlabHeap
