/-
  Lists of blocks as sequences.

  Any number of lists are threaded through the links of one memory.  If each comes to an end and no
  block is on two of them (`Separate`), they are sequences: what is asked of a list is answered
  from its row of blocks, changes that row alone, and keeps the lists separate (`run_shows`).  So
  it is for any number of requests, to any of the lists in turn
  (`lists_behave_as_sequences`).

  `walk` is the plain form of the loops over a list.  It reads the link of a block before it visits
  the block, so it visits each block once, even if the visits take them off (`walk_eq`).
-/
import SlabHeap.Proofs.Memory.Links

namespace SlabHeap

variable {σ : Type} {m : Memory} {l : BlockList} {b base : Word} {bs : List Word} {i j : Nat}

/-! ## Loops -/

namespace BlockList

/-- Visits the blocks from a first one on, in at most `rounds` rounds, in which the end must be
    reached.  The link of a block is read before the block is visited. -/
def walk (memory : σ → Memory) (visit : Word → σ → σ) : Nat → Option Word → σ → Option σ
  | _, none, s => some s
  | 0, some _, _ => none
  | rounds + 1, some base, s =>
    walk memory visit rounds ((memory s).block base).link (visit base s)

/-- A visit leaves the links of all other blocks as they are. -/
def KeepsLinks (memory : σ → Memory) (visit : Word → σ → σ) : Prop :=
  ∀ base s b, b ≠ base → ((memory (visit base s)).block b).link = ((memory s).block b).link

/-- A loop over a list ends if there is a round for each block, and visits each once, in order. -/
theorem walk_eq {memory : σ → Memory} {visit : Word → σ → σ} (hv : KeepsLinks memory visit) :
    ∀ {bs : List Word} {rounds : Nat} {first : Option Word} {s : σ}, Chain (memory s) first bs →
      walk memory visit rounds first s =
        if bs.length ≤ rounds then some (bs.foldl (fun s base => visit base s) s) else none
  | [], rounds, _, s, .nil => by cases rounds <;> rfl
  | base :: bs, 0, _, s, .cons _ => rfl
  | base :: bs, rounds + 1, _, s, h@(.cons htail) => by
    have hhead := (List.nodup_cons.1 h.nodup).1
    have hnext : Chain (memory (visit base s)) ((memory s).block base).link bs :=
      htail.congr fun b hb => hv base s b fun he => hhead (he ▸ hb)
    rw [walk, walk_eq hv hnext]
    simp only [List.length_cons, Nat.succ_le_succ_iff, List.foldl_cons]

/-- The same for visits that leave the memory alone. -/
theorem walk_reading {first : Option Word} {rounds : Nat} (visit : Word → σ → σ) (s : σ)
    (h : Chain m first bs) (hr : bs.length ≤ rounds) :
    walk (fun _ => m) visit rounds first s = some (bs.foldl (fun s base => visit base s) s) := by
  have hkeeps : KeepsLinks (fun _ => m) visit := fun _ _ _ _ => rfl
  rw [walk_eq hkeeps h, if_pos hr]

/-- Taking the blocks of a list off one by one ends after as many rounds as there are blocks. -/
theorem popMany_rounds : ∀ {bs : List Word} {rounds : Nat} {l : BlockList} {m : Memory},
    Chain m l.first bs → bs.length ≤ rounds → popMany rounds l m = popMany bs.length l m
  | [], rounds, l, m, h, _ => by
    have hp : l.pop? m = none := by
      rw [pop?_eq_none]
      generalize hf : l.first = first at h
      cases h
      rw [isEmpty, hf]
      rfl
    cases rounds with
    | zero => rfl
    | succ rounds => rw [popMany, hp]; rfl
  | base :: bs, rounds + 1, l, m, h, hle => by
    obtain ⟨rest, m', hp, hrest, -⟩ := chain_pop? h
    simp only [List.length_cons, popMany, hp]
    rw [popMany_rounds hrest (Nat.le_of_succ_le_succ hle)]

/-- Loops over a list end, after a round for each block, and visit each block once, in order, if
    a visit leaves the links of the other blocks as they are.  Counting, comparing and taking
    off the blocks are such loops. -/
structure Traversed (l : BlockList) (m : Memory) : Prop where
  nodup : (l.toList m).Nodup
  walk : ∀ {σ : Type} (memory : σ → Memory) (visit : Word → σ → σ) (rounds : Nat) (s : σ),
    KeepsLinks memory visit → memory s = m → walk memory visit rounds l.first s =
      if l.length m ≤ rounds then some ((l.toList m).foldl (fun s base => visit base s) s) else none
  length : ∀ rounds, l.length m ≤ rounds →
    BlockList.walk (fun _ => m) (fun _ n => n + 1) rounds l.first 0 = some (l.length m)
  contains : ∀ rounds base, l.length m ≤ rounds →
    BlockList.walk (fun _ => m) (fun b found => found || b == base) rounds l.first false =
      some (l.contains m base)
  drain : ∀ rounds, l.length m ≤ rounds → popMany rounds l m = l.drain m

theorem foldl_count (bs : List Word) (n : Nat) :
    bs.foldl (fun n _ => n + 1) n = n + bs.length := by
  induction bs generalizing n with
  | nil => rfl
  | cons _ bs ih => rw [List.foldl_cons, ih, List.length_cons, Nat.add_right_comm, Nat.add_assoc]

theorem foldl_contains (bs : List Word) (base : Word) (found : Bool) :
    bs.foldl (fun found b => found || b == base) found = (found || bs.contains base) := by
  induction bs generalizing found with
  | nil => simp
  | cons b bs ih => rw [List.foldl_cons, ih, List.contains_cons, Bool.or_assoc,
    BEq.comm]

theorem Linked.traversed (h : l.Linked m) : l.Traversed m where
  nodup := h.nodup
  walk _ _ _ _ hv hs := walk_eq hv (hs ▸ h)
  length rounds hr := by
    rw [walk_reading _ _ h hr, foldl_count, Nat.zero_add, BlockList.length]
  contains rounds base hr := by
    rw [walk_reading _ _ h hr, foldl_contains, Bool.false_or, BlockList.contains]
  drain _ hr :=
    (popMany_rounds h hr).trans (popMany_rounds h (length_le_count h.nodup)).symm

theorem Linked.first_eq (h : l.Linked m) : l.first = (l.toList m).head? := by
  unfold Linked at h
  generalize l.toList m = bs at h
  generalize l.first = first at h
  cases h <;> rfl

end BlockList

/-! ## Lists -/

/-- Lists that share a memory. -/
structure BlockLists where
  memory : Memory
  lists : List BlockList

/-- Rows of blocks, and the blocks that came off a row and are on none. -/
structure Sequences where
  rows : List (List Word)
  loose : List Word

/-- The row with a number. -/
def Sequences.row (s : Sequences) (i : Nat) : List Word := s.rows.getD i []

namespace BlockLists

variable {f : BlockLists} {s : Sequences}

/-- The list with a number. -/
def list (f : BlockLists) (i : Nat) : BlockList := f.lists.getD i .empty

/-- The blocks of each list. -/
def rows (f : BlockLists) : List (List Word) := f.lists.map (·.toList f.memory)

/-- The lists with one of them replaced, in a changed memory. -/
def put (f : BlockLists) (i : Nat) (l : BlockList) (m : Memory) : BlockLists :=
  ⟨m, f.lists.set i l⟩

/-- Each list comes to an end, and no block is on two lists or twice on one. -/
structure Separate (f : BlockLists) : Prop where
  linked : ∀ l ∈ f.lists, l.Linked f.memory
  nodup : f.rows.flatten.Nodup

theorem flatten_perm : ∀ (rows : List (List Word)) (i : Nat),
    rows.flatten.Perm (rows.getD i [] ++ (rows.set i []).flatten)
  | [], i => by simp
  | row :: rows, 0 => by simp
  | row :: rows, i + 1 => by
    rw [List.flatten_cons, List.getD_cons_succ, List.set_cons_succ, List.flatten_cons]
    exact ((flatten_perm rows i).append_left row).trans (List.perm_append_comm_assoc ..)

theorem flatten_set_perm {rows : List (List Word)} (hi : i < rows.length) :
    (rows.set i bs).flatten.Perm (bs ++ (rows.set i []).flatten) := by
  have hperm := flatten_perm (rows.set i bs) i
  have hrow : (rows.set i bs).getD i [] = bs := by simp [List.getD_eq_getElem?_getD, hi]
  rwa [hrow, List.set_set] at hperm

theorem getD_rows : f.rows.getD i [] = (f.list i).toList f.memory := by
  rw [rows, list, List.getD_eq_getElem?_getD, List.getD_eq_getElem?_getD, List.getElem?_map]
  cases f.lists[i]? <;> simp

theorem mem_others (hj : j < f.lists.length) (hne : i ≠ j) (hb : b ∈ f.lists[j].toList f.memory) :
    b ∈ (f.rows.set i []).flatten := by
  refine List.mem_flatten.2 ⟨_, List.mem_of_getElem? (i := j) ?_, hb⟩
  rw [List.getElem?_set_ne hne, rows, List.getElem?_map, List.getElem?_eq_getElem hj]
  rfl

namespace Separate

variable (hf : f.Separate)
include hf

theorem linked_list : (f.list i).Linked f.memory := by
  rw [list, List.getD_eq_getElem?_getD]
  cases hl : f.lists[i]? with
  | none => exact BlockList.linked_empty f.memory
  | some l => exact hf.linked l (List.mem_of_getElem? hl)

theorem nodup_split : ((f.list i).toList f.memory ++ (f.rows.set i []).flatten).Nodup := by
  rw [← getD_rows]
  exact (flatten_perm f.rows i).nodup_iff.1 hf.nodup

/-- A list may be replaced if the blocks of the others keep their links. -/
theorem put (hi : i < f.lists.length) (hl : l.Linked m)
    (hm : ∀ b ∈ (f.rows.set i []).flatten, (m.block b).link = (f.memory.block b).link)
    (hnd : (l.toList m ++ (f.rows.set i []).flatten).Nodup) :
    (f.put i l m).Separate ∧ (f.put i l m).rows = f.rows.set i (l.toList m) := by
  -- The other lists are read from links that did not change.
  have hother : ∀ (j : Nat) (hj : j < f.lists.length), i ≠ j → f.lists[j].Linked m ∧
      f.lists[j].toList m = f.lists[j].toList f.memory := fun j hj hne =>
    (hf.linked _ (List.getElem_mem hj)).congr fun b hb => hm b (mem_others hj hne hb)
  have hrows : (f.put i l m).rows = f.rows.set i (l.toList m) := by
    refine List.ext_getElem (by simp [rows, BlockLists.put]) fun j hj _ => ?_
    have hj : j < f.lists.length := by simpa [rows, BlockLists.put] using hj
    simp only [rows, BlockLists.put, List.getElem_map, List.getElem_set]
    split
    next => rfl
    next hne => exact (hother j hj hne).2
  refine ⟨⟨fun l' hl' => ?_, ?_⟩, hrows⟩
  · obtain ⟨j, hj, rfl⟩ := List.mem_iff_getElem.1 hl'
    have hj : j < f.lists.length := by simpa [BlockLists.put] using hj
    simp only [BlockLists.put, List.getElem_set]
    split
    next => exact hl
    next hne => exact (hother j hj hne).1
  · rw [hrows]
    exact (flatten_set_perm (by simpa [rows] using hi)).nodup_iff.2 hnd

/-- A list comes on its own, and an empty one stays. -/
theorem take (hi : i < f.lists.length) :
    Separate ⟨f.memory, f.lists.set i .empty ++ [f.list i]⟩ ∧
      rows ⟨f.memory, f.lists.set i .empty ++ [f.list i]⟩ =
        f.rows.set i [] ++ [(f.list i).toList f.memory] := by
  have hsplit := hf.nodup_split (i := i)
  obtain ⟨hput, hrows⟩ := hf.put hi (BlockList.linked_empty f.memory) (fun _ _ => rfl)
    (by simpa using (List.nodup_append.1 hsplit).2.1)
  rw [BlockList.toList_empty] at hrows
  have hrows' : rows ⟨f.memory, f.lists.set i .empty ++ [f.list i]⟩ =
      f.rows.set i [] ++ [(f.list i).toList f.memory] := by
    rw [← hrows, rows, List.map_append]
    rfl
  refine ⟨⟨fun l hl => ?_, ?_⟩, hrows'⟩
  · rcases List.mem_append.1 hl with hl | hl
    · exact hput.linked l hl
    · rw [List.mem_singleton.1 hl]
      exact hf.linked_list
  · rw [hrows', List.flatten_append, List.flatten_singleton]
    exact List.perm_append_comm.nodup_iff.1 hsplit

end Separate

end BlockLists

/-! ## Requests -/

namespace BlockLists

/-- What is asked of the list with the number `i`. -/
inductive Request where
  | push (i : Nat) (base : Word)
  | pop (i : Nat)
  | take (i : Nat)
  | drain (i : Nat)
  | length (i : Nat)
  | contains (i : Nat) (base : Word)
  | first (i : Nat)
  | isEmpty (i : Nat)
  | forEach (i : Nat)

/-- What a request is answered.  The blocks that a loop visited are none if it did not end. -/
inductive Answer where
  | done
  | block (base : Option Word)
  | blocks (bases : List Word)
  | visited (bases : Option (List Word))
  | count (n : Nat)
  | truth (b : Bool)
deriving DecidableEq

namespace Request

/-- Makes a request of lists.  Taking leaves an empty list, and adds one with its blocks: other
    requests may come between the pops that drain this one. -/
def run : Request → BlockLists → Answer × BlockLists
  | push i base, f =>
    let (l, m) := (f.list i).push f.memory base
    (.done, f.put i l m)
  | pop i, f =>
    match (f.list i).pop? f.memory with
    | none => (.block none, f)
    | some (base, l, m) => (.block (some base), f.put i l m)
  | take i, f => (.done, ⟨f.memory, f.lists.set i .empty ++ [f.list i]⟩)
  | drain i, f =>
    let (bases, m) := (f.list i).drain f.memory
    (.blocks bases, f.put i .empty m)
  | length i, f => (.count ((f.list i).length f.memory), f)
  | contains i base, f => (.truth ((f.list i).contains f.memory base), f)
  | first i, f => (.block (f.list i).first, f)
  | isEmpty i, f => (.truth (f.list i).isEmpty, f)
  | forEach i, f =>
    (.visited (BlockList.walk (fun _ => f.memory) (fun base bases => bases ++ [base]) Word.count
      (f.list i).first []), f)

/-- The same request of rows. -/
def on : Request → Sequences → Answer × Sequences
  | push i base, s => (.done, ⟨s.rows.set i (base :: s.row i), s.loose.filter (· != base)⟩)
  | pop i, s =>
    match s.row i with
    | [] => (.block none, s)
    | base :: bases => (.block (some base), ⟨s.rows.set i bases, base :: s.loose⟩)
  | take i, s => (.done, ⟨s.rows.set i [] ++ [s.row i], s.loose⟩)
  | drain i, s => (.blocks (s.row i), ⟨s.rows.set i [], s.row i ++ s.loose⟩)
  | length i, s => (.count (s.row i).length, s)
  | contains i base, s => (.truth ((s.row i).contains base), s)
  | first i, s => (.block (s.row i).head?, s)
  | isEmpty i, s => (.truth (s.row i).isEmpty, s)
  | forEach i, s => (.visited (some (s.row i)), s)

/-- The number of the list that a request is made of. -/
def number : Request → Nat
  | push i _ | pop i | take i | drain i | length i | contains i _ | first i | isEmpty i
  | forEach i => i

/-- The list is there, and no block is pushed that is on a list. -/
def Fits (s : Sequences) : Request → Prop
  | push i base => i < s.rows.length ∧ base ∉ s.rows.flatten
  | q => q.number < s.rows.length

/-- Makes requests one after the other. -/
def serve (step : Request → σ → Answer × σ) : List Request → σ → List Answer × σ
  | [], s => ([], s)
  | q :: qs, s =>
    let (answer, s) := step q s
    let (answers, s) := serve step qs s
    (answer :: answers, s)

instance (s : Sequences) : (q : Request) → Decidable (q.Fits s)
  | push _ _ => inferInstanceAs (Decidable (_ ∧ _))
  | pop _ | take _ | drain _ | length _ | contains _ _ | first _ | isEmpty _ | forEach _ =>
    inferInstanceAs (Decidable (_ < _))

/-- Requests that fit when they are made. -/
def AllFit : List Request → Sequences → Prop
  | [], _ => True
  | q :: qs, s => q.Fits s ∧ AllFit qs (q.on s).2

instance decidableAllFit : (qs : List Request) → (s : Sequences) → Decidable (AllFit qs s)
  | [], _ => .isTrue trivial
  | q :: qs, s =>
    have := decidableAllFit qs (q.on s).2
    inferInstanceAs (Decidable (_ ∧ _))

end Request

variable {f : BlockLists} {s : Sequences} {q : Request} {qs : List Request}

/-- Lists are separate, their blocks are the rows, and the links of loose blocks are cleared. -/
structure Shows (f : BlockLists) (s : Sequences) : Prop where
  separate : f.Separate
  rows : f.rows = s.rows
  loose : ∀ b ∈ s.loose, (f.memory.block b).link = none

namespace Shows

variable (hs : f.Shows s)
include hs

theorem toList_list : (f.list i).toList f.memory = s.row i := by
  rw [← getD_rows, hs.rows]
  rfl

theorem lt_length (hi : i < s.rows.length) : i < f.lists.length := by
  rw [← hs.rows] at hi
  simpa [BlockLists.rows] using hi

theorem nodup_split : (s.row i ++ (s.rows.set i []).flatten).Nodup := by
  rw [← hs.toList_list, ← hs.rows]
  exact hs.separate.nodup_split

/-- A list is replaced in a memory in which the blocks of the others have their links, and those
    that are loose now have none. -/
theorem put (hi : i < s.rows.length) (hl : l.Linked m) (hrow : l.toList m = bs)
    (hm : ∀ b ∈ (s.rows.set i []).flatten, (m.block b).link = (f.memory.block b).link)
    (hnd : (bs ++ (s.rows.set i []).flatten).Nodup) {loose : List Word}
    (hloose : ∀ b ∈ loose, (m.block b).link = none) :
    (f.put i l m).Shows ⟨s.rows.set i bs, loose⟩ := by
  subst hrow
  rw [← hs.rows] at hm hnd ⊢
  obtain ⟨hsep, hrows⟩ := hs.separate.put (hs.lt_length hi) hl hm hnd
  exact ⟨hsep, hrows, hloose⟩

theorem push (hi : i < s.rows.length) (hb : base ∉ s.rows.flatten) :
    ((Request.push i base).run f).2.Shows ((Request.push i base).on s).2 := by
  have hlinked := hs.separate.linked_list (i := i)
  have hnew : base ∉ s.row i ++ (s.rows.set i []).flatten := fun hmem =>
    hb ((flatten_perm s.rows i).mem_iff.2 hmem)
  have hkeep : ∀ b, b ≠ base →
      (((f.list i).push f.memory base).2.block b).link = (f.memory.block b).link := fun b hne => by
    rw [(BlockList.changes_push ..).block b fun he => hne (List.mem_singleton.1 he)]
  have hoff : base ∉ (f.list i).toList f.memory := by
    rw [hs.toList_list]
    exact fun hmem => hnew (List.mem_append_left _ hmem)
  obtain ⟨hl, hrow⟩ := BlockList.push_of_not_mem hlinked hoff
  rw [hs.toList_list] at hrow
  refine hs.put hi hl hrow (fun b hb => hkeep b fun he => ?_) ?_ fun b hb => ?_
  · exact hnew (List.mem_append_right _ (he ▸ hb))
  · exact List.nodup_cons.2 ⟨hnew, hs.nodup_split⟩
  · obtain ⟨hb, hne⟩ := List.mem_filter.1 hb
    rw [hkeep b (by simpa using hne)]
    exact hs.loose b hb

theorem pop (hi : i < s.rows.length) :
    ((Request.pop i).run f).1 = ((Request.pop i).on s).1 ∧
      ((Request.pop i).run f).2.Shows ((Request.pop i).on s).2 := by
  rcases BlockList.pop?_of_linked (hs.separate.linked_list (i := i)) with ⟨-, hrow, hp⟩ |
    ⟨base, bs, l, m, -, hrow, hp, hl, hbs, hch, hblock⟩
  · rw [hs.toList_list] at hrow
    simp only [Request.run, Request.on, hp, hrow]
    exact ⟨trivial, hs⟩
  · rw [hs.toList_list] at hrow
    simp only [Request.run, Request.on, hp, hrow, true_and]
    have hsplit := hs.nodup_split (i := i)
    rw [hrow] at hsplit
    obtain ⟨hnew, hnd⟩ := List.nodup_cons.1 hsplit
    refine hs.put hi hl hbs (fun b hb => ?_) hnd fun b hb => ?_
    · rw [hch.block b fun he => hnew (List.mem_append_right _ (List.mem_singleton.1 he ▸ hb))]
    · rw [hblock]
      split
      next => rfl
      next hne => exact hs.loose b ((List.mem_cons.1 hb).resolve_left (Ne.symm hne))

theorem take (hi : i < s.rows.length) :
    ((Request.take i).run f).2.Shows ((Request.take i).on s).2 := by
  obtain ⟨hsep, hrows⟩ := hs.separate.take (hs.lt_length hi)
  rw [hs.toList_list, hs.rows] at hrows
  exact ⟨hsep, hrows, hs.loose⟩

theorem drain (hi : i < s.rows.length) :
    ((Request.drain i).run f).1 = ((Request.drain i).on s).1 ∧
      ((Request.drain i).run f).2.Shows ((Request.drain i).on s).2 := by
  obtain ⟨hbases, hch, hblock⟩ := BlockList.drain_of_linked (hs.separate.linked_list (i := i))
  rw [hs.toList_list] at hbases hch
  simp only [hs.toList_list] at hblock
  obtain ⟨-, hnd, hdisjoint⟩ := List.nodup_append.1 (hs.nodup_split (i := i))
  refine ⟨congrArg Answer.blocks hbases, hs.put (m := ((f.list i).drain f.memory).2) hi
    (BlockList.linked_empty _) (BlockList.toList_empty _) (fun b hb => ?_) hnd fun b hb => ?_⟩
  · rw [hch.block b fun he => hdisjoint b he b hb rfl]
  · rw [hblock]
    split
    next => rfl
    next hne => exact hs.loose b ((List.mem_append.1 hb).resolve_left hne)

end Shows

/-- Each request is answered from the row of its list. -/
theorem run_shows (hs : f.Shows s) (hq : q.Fits s) :
    (q.run f).1 = (q.on s).1 ∧ (q.run f).2.Shows (q.on s).2 := by
  have hlinked : ∀ i, (f.list i).Linked f.memory := fun _ => hs.separate.linked_list
  have hrow : ∀ i, (f.list i).toList f.memory = s.row i := fun _ => hs.toList_list
  cases q with
  | push i base => exact ⟨rfl, hs.push hq.1 hq.2⟩
  | pop i => exact hs.pop hq
  | take i => exact ⟨rfl, hs.take hq⟩
  | drain i => exact hs.drain hq
  | length i =>
    exact ⟨congrArg (fun bs : List Word => Answer.count bs.length) (hrow i), hs⟩
  | contains i base =>
    exact ⟨congrArg (fun bs : List Word => Answer.truth (bs.contains base)) (hrow i), hs⟩
  | first i =>
    refine ⟨congrArg Answer.block ?_, hs⟩
    rw [← hrow, (hlinked i).first_eq]
  | isEmpty i =>
    refine ⟨congrArg Answer.truth ?_, hs⟩
    rw [← hrow, BlockList.isEmpty, (hlinked i).first_eq]
    cases (f.list i).toList f.memory <;> rfl
  | forEach i =>
    refine ⟨congrArg Answer.visited ?_, hs⟩
    rw [BlockList.walk_reading _ _ (hlinked i) (length_le_count (hlinked i).nodup), hrow]
    simp [← List.flatMap_def]

/-! ## Any number of requests -/

theorem serve_shows (hs : f.Shows s) (hq : Request.AllFit qs s) :
    (Request.serve Request.run qs f).1 = (Request.serve Request.on qs s).1 ∧
      (Request.serve Request.run qs f).2.Shows (Request.serve Request.on qs s).2 := by
  induction qs generalizing f s with
  | nil => exact ⟨rfl, hs⟩
  | cons q qs ih =>
    obtain ⟨hanswer, hnext⟩ := run_shows hs hq.1
    obtain ⟨hanswers, hend⟩ := ih hnext hq.2
    exact ⟨congrArg₂ List.cons hanswer hanswers, hend⟩

/-- A request changes the row of its list alone, and adds rows at the end only. -/
theorem on_beside (hi : i < s.rows.length) (hne : q.number ≠ i) :
    (q.on s).2.rows[i]? = s.rows[i]? := by
  cases q with
  | push j base => exact List.getElem?_set_ne hne
  | pop j =>
    rw [Request.on]
    split
    · rfl
    · exact List.getElem?_set_ne hne
  | take j =>
    rw [Request.on, List.getElem?_append_left (by simpa using hi)]
    exact List.getElem?_set_ne hne
  | drain j => exact List.getElem?_set_ne hne
  | _ => rfl

/-- A list of which nothing is asked stays as it is. -/
theorem serve_beside (hi : i < s.rows.length) (hne : ∀ q ∈ qs, q.number ≠ i) :
    (Request.serve Request.on qs s).2.rows[i]? = s.rows[i]? := by
  induction qs generalizing s with
  | nil => rfl
  | cons q qs ih =>
    obtain ⟨hq, hqs⟩ := List.forall_mem_cons.1 hne
    have hnext := on_beside hi hq
    have hsome := hnext.trans (List.getElem?_eq_getElem hi)
    exact (ih (List.getElem?_eq_some_iff.1 hsome).1 hqs).trans hnext

/-- Lists that share a memory behave as sequences, each for itself, as long as a block is pushed
    only when it is on none of them.  They stay separate, blocks that came off have no link, and
    all loops over them end. -/
theorem lists_behave_as_sequences (hf : f.Separate) (hq : Request.AllFit qs ⟨f.rows, []⟩) :
    let (answers, f') := Request.serve Request.run qs f
    let (expected, s') := Request.serve Request.on qs ⟨f.rows, []⟩
    answers = expected ∧ f'.rows = s'.rows ∧ f'.Separate ∧
      (∀ b ∈ s'.loose, (f'.memory.block b).link = none) ∧
      (∀ i < f.lists.length, (∀ q ∈ qs, q.number ≠ i) → f'.rows[i]? = f.rows[i]?) ∧
      ∀ l ∈ f'.lists, l.Traversed f'.memory := by
  have hs : f.Shows ⟨f.rows, []⟩ := ⟨hf, rfl, fun _ hb => absurd hb List.not_mem_nil⟩
  obtain ⟨hanswers, hshows⟩ := serve_shows hs hq
  refine ⟨hanswers, hshows.rows, hshows.separate, hshows.loose, fun i hi hne => ?_, fun l hl =>
    (hshows.separate.linked l hl).traversed⟩
  rw [hshows.rows]
  exact serve_beside (by simpa [rows] using hi) hne

/-- A block moves from a list that was taken to another one, before both are drained. -/
theorem lists_behave_as_sequences_of_two :
    let f : BlockLists := ⟨.new fun _ => none, [.empty, .empty]⟩
    let qs : List Request := [.push 0 0x1000, .push 0 0x2000, .push 1 0x3000, .take 0, .pop 2,
      .push 1 0x2000, .forEach 1, .isEmpty 0, .drain 2, .drain 1, .pop 1]
    f.Separate ∧ Request.AllFit qs ⟨f.rows, []⟩ ∧
    (Request.serve Request.run qs f).1 = [.done, .done, .done, .done, .block (some 0x2000), .done,
      .visited (some [0x2000, 0x3000]), .truth true, .blocks [0x1000], .blocks [0x2000, 0x3000],
      .block none] ∧
    ∀ b ∈ [0x1000, 0x2000, 0x3000],
      ((Request.serve Request.run qs f).2.memory.block b).link = none := by
  intro f qs
  have hrows : f.rows = [[], []] := by simp [f, rows]
  have hf : f.Separate := by
    refine ⟨fun l hl => ?_, by simp [hrows]⟩
    rw [show l = .empty by simpa [f] using hl]
    exact BlockList.linked_empty _
  have hq : Request.AllFit qs ⟨f.rows, []⟩ := by
    rw [hrows]
    decide
  obtain ⟨hanswers, -, -, hloose, -⟩ := lists_behave_as_sequences hf hq
  rw [hrows] at hanswers hloose
  refine ⟨hf, hq, hanswers.trans (by decide), fun b hb => hloose b ?_⟩
  rw [List.mem_cons, List.mem_cons, List.mem_singleton] at hb
  rcases hb with rfl | rfl | rfl <;> decide

end BlockLists

end SlabHeap
