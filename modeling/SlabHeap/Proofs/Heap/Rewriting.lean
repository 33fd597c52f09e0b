/-
  What marking does to the words of objects.

  `chain f w` is the chain of indirections that starts at the word `w`, `lastWord f w` is
  the word at its end and `hops f w` the number of indirections in it.  If the chain ends,
  these are the words of its trail (`Trail.chain_eq`), the last word is no indirection, and
  it stands for what the first one stands for (`Trail.resolves_lastWord`).

  A marking that has scanned the pointer fields `fields` has replaced each of them by the
  last word of its chain, and no other word of an object; `Rewrote` says so, and how many
  pointers it found and indirections it replaced.  What is done stays done, so a marking
  goes on where those before it ended: `MarkedBy` says what has become of a heap after
  markings with some roots in all (`MarkedBy.mark`).  Every object that is done was scanned
  once, so a marking rewrites the pointer fields of the objects that the roots reach
  (`mark_rewrites`).  These stand for what they stood for, and the roots reach what they
  reached (`Rewritten.reached`).  After a clearing the same holds of several markings with
  all their roots (`MarkedBy.rewritten`), and the mark bits of an object that they reach are
  set, those of the others clear (`MarkedBy.bits`).
-/
import Mathlib.Algebra.BigOperators.Group.List.Basic
import SlabHeap.Proofs.Heap.Collection

namespace SlabHeap

variable {f : Word → Edge} {w t x y : Word} {ws : List Word} {o : Option Word} {a : Arena}
  {m m' : Memory} {loose : List Word} {due : Nat} {sh : Shape} {base : Word} {i j n : Nat}
  {roots : List Word}

/-! ## Chains -/

/-- The first words of the chain of indirections that starts at `w`, at most `fuel`. -/
def chainWithin (f : Word → Edge) : Nat → Word → List Word
  | 0, _ => []
  | fuel + 1, w =>
    match f w with
    | .indirection target => w :: chainWithin f fuel target
    | _ => [w]

/-- The words of the chain of indirections that starts at `w`.  A chain that ends visits
    no word twice. -/
def chain (f : Word → Edge) (w : Word) : List Word :=
  chainWithin f Word.count w

/-- The last word of the chain of indirections that starts at `w`. -/
def lastWord (f : Word → Edge) (w : Word) : Word :=
  (chain f w).getLastD w

/-- The number of indirections in the chain that starts at `w`. -/
def hops (f : Word → Edge) (w : Word) : Nat :=
  (chain f w).length - 1

/-- Tells whether the chain that starts at `w` ends at an object. -/
def endsAtObject (f : Word → Edge) (w : Word) : Bool :=
  match f (lastWord f w) with
  | .object _ => true
  | _ => false

namespace Trail

theorem chainWithin_eq (h : Trail f w ws o) :
    ∀ {fuel : Nat}, ws.length ≤ fuel → chainWithin f fuel w = ws := by
  induction h with
  | immediate he =>
    rintro (_ | fuel) hf
    · simp at hf
    · simp [chainWithin, he]
  | object he =>
    rintro (_ | fuel) hf
    · simp at hf
    · simp [chainWithin, he]
  | indirection he _ ih =>
    rintro (_ | fuel) hf
    · simp at hf
    · simp [chainWithin, he, ih (Nat.le_of_succ_le_succ hf)]

theorem chain_eq (h : Trail f w ws o) : chain f w = ws := h.chainWithin_eq h.length_le

/-- A word that is no indirection is its own chain. -/
theorem lastWord_single (h : Trail f w [w] o) : lastWord f w = w ∧ hops f w = 0 := by
  rw [lastWord, hops, h.chain_eq]
  exact ⟨rfl, rfl⟩

/-- An indirection has the chain of its target behind it. -/
theorem lastWord_indirection (he : f w = .indirection t) (h : Trail f t ws o) :
    lastWord f w = lastWord f t ∧ hops f w = hops f t + 1 := by
  rw [lastWord, lastWord, hops, hops, (Trail.indirection he h).chain_eq, h.chain_eq]
  cases h <;> exact ⟨by simp only [List.getLastD_cons], rfl⟩

/-- The last word of a chain is no indirection, and what it stands for is at the end. -/
theorem edge_lastWord (h : Trail f w ws o) : f (lastWord f w) = o.elim .immediate .object := by
  induction h with
  | immediate he => rwa [(Trail.immediate he).lastWord_single.1]
  | object he => rwa [(Trail.object he).lastWord_single.1]
  | indirection he h ih => rwa [(lastWord_indirection he h).1]

theorem at_end (h : Trail f w ws o) : Trail f (lastWord f w) [lastWord f w] o := by
  cases o with
  | none => exact .immediate h.edge_lastWord
  | some x => exact .object h.edge_lastWord

theorem endsAtObject_eq (h : Trail f w ws o) : endsAtObject f w = o.isSome := by
  rw [endsAtObject, h.edge_lastWord]
  cases o <;> rfl

theorem lastWord_ne_indirection (h : Trail f w ws o) : f (lastWord f w) ≠ .indirection t := by
  rw [h.edge_lastWord]
  cases o <;> simp

/-- The last word of a chain stands for what its first word stands for. -/
theorem resolves_lastWord (h : Trail f w ws o) :
    Resolves f (lastWord f w) x ↔ Resolves f w x := by
  constructor
  · rintro ⟨vs, hv⟩
    exact ⟨ws, (hv.unique h.at_end).2 ▸ h⟩
  · rintro ⟨vs, hv⟩
    exact ⟨_, (hv.unique h).2 ▸ h.at_end⟩

end Trail

/-! ## Fields -/

namespace Marking

variable {s s' : Marking} {fields fields' : List (Word × Nat)} {p k : Nat}

/-- The number of pointer fields in `m` whose chains end at objects. -/
def followedIn (f : Word → Edge) (m : Memory) (fields : List (Word × Nat)) : Nat :=
  fields.countP fun p => endsAtObject f (m.field p.1 p.2)

/-- The number of indirections in pointer fields in `m`. -/
def hopsIn (f : Word → Edge) (m : Memory) (fields : List (Word × Nat)) : Nat :=
  (fields.map fun p => hops f (m.field p.1 p.2)).sum

/-- Markings of `a` that started in `m` have rewritten the pointer fields `fields`; those
    before the present one counted `p` pointers and `k` indirections. -/
structure Rewrote (f : Word → Edge) (a : Arena) (m : Memory) (fields : List (Word × Nat))
    (p k : Nat) (s : Marking) : Prop where
  preserved : a.Preserved m s.memory
  field : ∀ {sh base i x j}, a.SlotAt m sh base i x → j < sh.size → s.memory.field x j =
    if (x, j) ∈ fields then lastWord f (m.field x j) else m.field x j
  trails : ∀ q ∈ fields, ∃ ws o, Trail f (m.field q.1 q.2) ws o
  followed : p + s.followed = followedIn f m fields
  collapsed : k + s.collapsed = hopsIn f m fields

namespace Rewrote

theorem start (h : a.Sound m loose due) : Rewrote f a m [] 0 0 (Marking.start m) where
  preserved := .refl h
  field _ _ := rfl
  trails q hq := by simp at hq
  followed := rfl
  collapsed := rfl

theorem perm (hw : Rewrote f a m fields p k s) (hp : fields.Perm fields') :
    Rewrote f a m fields' p k s where
  preserved := hw.preserved
  field hx hj := by simpa only [hp.mem_iff] using hw.field hx hj
  trails q hmem := hw.trails q (hp.mem_iff.2 hmem)
  followed := hw.followed.trans (hp.countP_eq _)
  collapsed := hw.collapsed.trans (hp.map _).sum_eq

/-- Visits rewrite no field. -/
theorem visit (hw : Rewrote f a m fields p k s) (hv : Visited a m y s s') :
    Rewrote f a m fields p k s' where
  preserved := hv.preserved
  field hx hj := by rw [hv.field hx hj]; exact hw.field hx hj
  trails := hw.trails
  followed := by rw [hv.followed]; exact hw.followed
  collapsed := by rw [hv.collapsed]; exact hw.collapsed

/-- What is pending does not matter. -/
theorem of_eq (hw : Rewrote f a m fields p k s) (hm : s'.memory = s.memory)
    (hf : s'.followed = s.followed) (hc : s'.collapsed = s.collapsed) :
    Rewrote f a m fields p k s' := by
  obtain ⟨memory, pending, followed, collapsed⟩ := s
  obtain ⟨memory', pending', followed', collapsed'⟩ := s'
  obtain rfl : memory' = memory := hm
  obtain rfl : followed' = followed := hf
  obtain rfl : collapsed' = collapsed := hc
  exact ⟨hw.1, hw.2, hw.3, hw.4, hw.5⟩

/-- A marking that is over was before the next one. -/
theorem restart (hw : Rewrote f a m fields p k s) :
    Rewrote f a m fields (p + s.followed) (k + s.collapsed) (Marking.start s.memory) where
  preserved := hw.preserved
  field := hw.field
  trails := hw.trails
  followed := hw.followed
  collapsed := hw.collapsed

end Rewrote

/-- The field `j` of `x`, which held `w`, was replaced by the last word of the chain. -/
structure Replaced (f : Word → Edge) (a : Arena) (m : Memory) (x : Word) (j : Nat) (w : Word)
    (s s' : Marking) : Prop where
  preserved : a.Preserved m s'.memory
  field : ∀ {sh base i y k}, a.SlotAt m sh base i y → k < sh.size →
    s'.memory.field y k = if x = y ∧ j = k then lastWord f w else s.memory.field y k
  followed : s'.followed = s.followed
  collapsed : s'.collapsed = s.collapsed + hops f w

/-- A field whose chain ends is replaced step by step by the last word of it. -/
theorem collapseWithin_replaces (h : a.Sound m loose due) (hx : a.SlotAt m sh base i x)
    (hj : j < sh.size) {fuel : Nat} : ∀ {w : Word} {s : Marking}, a.Preserved m s.memory →
      s.memory.field x j = w → Meets (collapseWithin (.ofWord f) x j fuel w) s
        (fun o s' => (∃ ws, Trail f w ws o) ∧ Replaced f a m x j w s s') fun _ _ => True := by
  -- A word that is no indirection stays where it is.
  have hstop : ∀ {w : Word} {o : Option Word} {s : Marking}, a.Preserved m s.memory →
      s.memory.field x j = w → Trail f w [w] o → Replaced f a m x j w s s := by
    intro w o s hp hw ht
    obtain ⟨hlast, hhops⟩ := ht.lastWord_single
    refine ⟨hp, fun _ _ => ?_, rfl, by rw [hhops, Nat.add_zero]⟩
    rw [hlast]
    split
    next he => rw [← he.1, ← he.2, hw]
    next => rfl
  induction fuel with
  | zero =>
    intro w s _ _
    rw [collapseWithin]
    simp only [meets_throw]
  | succ fuel ih =>
    intro w s hp hw
    rw [collapseWithin]
    simp only [meets_bind, meets_get]
    cases he : (Tagging.ofWord f).classify s.memory w with
    | immediate =>
      have ht := Trail.immediate he
      simp only [meets_pure]
      exact ⟨⟨_, ht⟩, hstop hp hw ht⟩
    | object y =>
      have ht := Trail.object he
      simp only [meets_pure]
      exact ⟨⟨_, ht⟩, hstop hp hw ht⟩
    | indirection t =>
      simp only [meets_bind, meets_modify]
      have he' : f w = .indirection t := he
      obtain ⟨hp', -, hfield⟩ := hp.setField (w := t) h hx hj
      have hrec := ih (w := t) (s := { s with
        memory := s.memory.setField x j t
        collapsed := s.collapsed + 1 }) hp' (by rw [hfield hx hj, if_pos ⟨rfl, rfl⟩])
      refine hrec.mono ?_ fun _ _ => id
      rintro o s' ⟨⟨ws, ht⟩, hr⟩
      obtain ⟨hlast, hhops⟩ := Trail.lastWord_indirection he' ht
      refine ⟨⟨_, .indirection he' ht⟩, hr.preserved, fun hy hk => ?_, hr.followed, ?_⟩
      · rw [hr.field hy hk, hfield hy hk, hlast]
        split <;> rfl
      · rw [hr.collapsed, hhops, ← Nat.add_assoc, Nat.add_right_comm]

section
variable (h : a.Sound m [] due)
include h

theorem scanRoot_rewrites {r : Word} (hw : Rewrote f a m fields p k s) :
    Meets (scanRoot a (.ofWord f) r) s (fun _ s' => Rewrote f a m fields p k s')
      fun _ _ => True := by
  rw [scanRoot]
  simp only [meets_bind, meets_get, meets_lift]
  refine ⟨fun o _ => ?_, fun _ _ => trivial⟩
  cases o with
  | none => exact hw
  | some y => exact (visit_returns h hw.preserved).meets fun _ _ => hw.visit

/-- A field that was not scanned before is rewritten. -/
theorem scanField_rewrites (hw : Rewrote f a m fields p k s) (hx : a.SlotAt m sh base i x)
    (hj : j < sh.size) (hnew : (x, j) ∉ fields) :
    Meets (scanField a (.ofWord f) x j) s (fun _ s' => Rewrote f a m ((x, j) :: fields) p k s')
      fun _ _ => True := by
  have hold : s.memory.field x j = m.field x j := by rw [hw.field hx hj, if_neg hnew]
  rw [scanField]
  simp only [meets_bind, meets_get]
  refine (collapseWithin_replaces h hx hj hw.preserved rfl).mono ?_ fun _ _ => id
  rintro o s' ⟨⟨ws, ht⟩, hr⟩
  rw [hold] at ht hr
  have hw' : ∀ followed, followed = s'.followed + (if o.isSome then 1 else 0) →
      Rewrote f a m ((x, j) :: fields) p k { s' with followed } := by
    rintro - rfl
    refine ⟨hr.preserved, fun {sh' base' i' y k} hy hk => ?_, ?_, ?_, ?_⟩
    · rw [hr.field hy hk, hw.field hy hk]
      by_cases he : x = y ∧ j = k
      · obtain ⟨rfl, rfl⟩ := he
        simp
      · have hne : (y, k) ≠ (x, j) := by
          intro heq
          exact he ⟨(congrArg Prod.fst heq).symm, (congrArg Prod.snd heq).symm⟩
        rw [if_neg he]
        simp only [List.mem_cons, hne, false_or]
    · intro p hp
      rcases List.mem_cons.1 hp with rfl | hp
      · exact ⟨_, _, ht⟩
      · exact hw.trails p hp
    · rw [followedIn, List.countP_cons, ht.endsAtObject_eq, ← followedIn, ← hw.followed,
        ← hr.followed, Nat.add_assoc]
    · rw [hopsIn, List.map_cons, List.sum_cons, ← hopsIn, ← hw.collapsed, hr.collapsed,
        ← Nat.add_assoc]
      exact Nat.add_comm ..
  cases o with
  | none => exact hw' _ rfl
  | some child =>
    simp only [meets_bind, meets_modify]
    exact (visit_returns h (hw' _ rfl).preserved).meets fun _ _ => (hw' _ rfl).visit

/-- The first `n` fields of an object. -/
def fieldsOf (x : Word) (n : Nat) : List (Word × Nat) :=
  (List.range n).map fun j => (x, j)

omit h in
theorem mem_fieldsOf : (y, j) ∈ fieldsOf x n ↔ y = x ∧ j < n := by
  simp [fieldsOf, eq_comm, and_comm]

omit h in
theorem fieldsOf_succ :
    (fieldsOf x (n + 1) ++ fields).Perm ((x, n) :: (fieldsOf x n ++ fields)) := by
  rw [fieldsOf, List.range_succ, List.map_append, List.append_assoc]
  exact List.perm_middle

/-- The pointer fields of an object that was not scanned before are rewritten. -/
theorem scanObject_rewrites (hw : Rewrote f a m fields p k s) (hx : a.SlotAt m sh base i x)
    (hnew : ∀ j, (x, j) ∉ fields) :
    Meets (scanObject a (.ofWord f) x) s
      (fun _ s' => Rewrote f a m (fieldsOf x sh.pointers ++ fields) p k s') fun _ _ => True := by
  have hlayout : (s.memory.block (Block.baseOf x)).layout.pointers.toNat = sh.pointers := by
    rw [hx.baseOf_eq h, (hw.preserved.serves hx.owner).layout, Shape.toNat_layout_pointers]
  rw [scanObject]
  simp only [meets_bind, meets_get, hlayout]
  refine meets_forM_range (I := fun n t => Rewrote f a m (fieldsOf x n ++ fields) p k t) hw ?_
  intro n t hn ht
  have hn' : (x, n) ∉ fieldsOf x n ++ fields := by
    rw [List.mem_append, mem_fieldsOf, not_or]
    exact ⟨fun hmem => absurd hmem.2 (lt_irrefl n), hnew n⟩
  refine (scanField_rewrites h ht hx (hn.trans_le sh.pointers_le) hn').mono ?_ fun _ _ => id
  exact fun _ t' ht' => ht'.perm fieldsOf_succ.symm

end

/-! ## Markings -/

/-- The pointer fields of some objects. -/
def pointerFields (m : Memory) (objects : List Word) : List (Word × Nat) :=
  objects.flatMap fun x => fieldsOf x (m.block (Block.baseOf x)).layout.pointers.toNat

theorem mem_pointerFields {objects : List Word} : (x, j) ∈ pointerFields m objects ↔
    x ∈ objects ∧ j < (m.block (Block.baseOf x)).layout.pointers.toNat := by
  simp only [pointerFields, List.mem_flatMap, mem_fieldsOf]
  constructor
  · rintro ⟨y, hy, rfl, hj⟩
    exact ⟨hy, hj⟩
  · rintro ⟨hx, hj⟩
    exact ⟨x, hx, rfl, hj⟩

theorem nodup_pointerFields {objects : List Word} (h : objects.Nodup) :
    (pointerFields m objects).Nodup := by
  rw [pointerFields, List.nodup_flatMap]
  constructor
  · intro x _
    exact List.nodup_range.map fun i j he => congrArg Prod.snd he
  · refine h.imp fun hne => ?_
    rintro ⟨z, k⟩ hx hy
    exact hne ((mem_fieldsOf.1 hx).1.symm.trans (mem_fieldsOf.1 hy).1)

theorem pointers_slotAt (h : a.Sound m loose due) (hx : a.SlotAt m sh base i x) :
    (m.block (Block.baseOf x)).layout.pointers.toNat = sh.pointers := by
  rw [hx.baseOf_eq h, (hx.owner.serves h).layout, Shape.toNat_layout_pointers]

/-- The pointer fields of what is done are rewritten, each once. -/
theorem scans_rewrite (h : a.Sound m [] due) (p k : Nat) :
    KeptByScans (.ofWord f) (Resolves f) (Resolves f) a m roots
      fun done s => Rewrote f a m (pointerFields m done) p k s := by
  intro done seen s x rest hp hpend hw
  obtain ⟨sh, base, i, hx⟩ := (hp.queued x (by simp [hpend])).2.slotAt
  have hnd := hp.nodup
  rw [hpend, List.cons_append, List.nodup_cons, List.mem_append, not_or] at hnd
  have hnew : ∀ j, (x, j) ∉ pointerFields m done := fun j hmem =>
    hnd.1.2 (mem_pointerFields.1 hmem).1
  have hw' : Rewrote f a m (pointerFields m done) p k { s with pending := rest } :=
    hw.of_eq rfl rfl rfl
  have hrun := scanObject_rewrites h hw' hx hnew
  rw [← pointers_slotAt h hx] at hrun
  exact hrun

section
variable {done : List Word} {seen : Set Word}
  (he : Ended (.ofWord f) (Resolves f) (Resolves f) a m roots done seen s)
include he

theorem Ended.nodup_pointerFields : (pointerFields m done).Nodup := by
  have hnd := he.nodup
  rw [he.pending, List.nil_append] at hnd
  exact Marking.nodup_pointerFields hnd

/-- All objects that are reached and have pointer fields are done. -/
theorem Ended.mem_pointerFields (h : a.Sound m [] due) (hroots : ∀ r ∈ roots, r ∈ seen)
    (hclear : ∀ x, ¬ a.Marked m m x) : (x, j) ∈ pointerFields m done ↔
      ∃ sh base i, a.SlotAt m sh base i x ∧ Reached (Resolves f) a m roots x ∧ j < sh.pointers := by
  rw [Marking.mem_pointerFields]
  constructor
  · rintro ⟨hx, hj⟩
    have hreach := (he.queued x (List.mem_append_right _ hx)).2
    obtain ⟨sh, base, i, hslot⟩ := hreach.slotAt
    rw [pointers_slotAt h hslot] at hj
    exact ⟨sh, base, i, hslot, hreach, hj⟩
  · rintro ⟨sh, base, i, hslot, hreach, hj⟩
    rw [pointers_slotAt h hslot]
    refine ⟨?_, hj⟩
    rcases he.covered hslot (he.complete hroots hclear hreach) with hm | h0 | hmem
    · exact absurd hm (hclear x)
    · omega
    · rwa [he.pending, List.nil_append] at hmem

end

/-- Of an arena, a marking reads the directory alone. -/
theorem run_congr {a' : Arena} {tagging : Tagging} (hd : a'.directory = a.directory) :
    run a' tagging roots = run a tagging roots := by
  have hobject : ∀ m x, a'.objectAt? m x = a.objectAt? m x := by
    intro m x
    rw [Arena.objectAt?, Arena.objectAt?, Arena.isSliced, Arena.isSliced, hd]
  have hvisit : visit a' = visit a := by
    funext x
    simp only [visit, hobject]
  have hroot : scanRoot a' tagging = scanRoot a tagging := by
    funext r
    simp only [scanRoot, hvisit]
  have hscan : scanObject a' tagging = scanObject a tagging := by
    funext x
    have hfield : scanField a' tagging x = scanField a tagging x := by
      funext j
      simp only [scanField, hvisit]
    simp only [scanObject, hfield]
  have hpending : ∀ fuel, scanPending a' tagging fuel = scanPending a tagging fuel := by
    intro fuel
    induction fuel with
    | zero => rfl
    | succ fuel ih => simp only [scanPending, hscan, ih]
  rw [run, run, hroot, hpending]

end Marking

/-- `m'` is `m` with the pointer fields of the objects that the roots reach, which are
    `fields`, replaced by the last words of their chains. -/
structure Rewritten (f : Word → Edge) (a : Arena) (m : Memory) (roots : List Word)
    (fields : List (Word × Nat)) (m' : Memory) : Prop where
  preserved : a.Preserved m m'
  nodup : fields.Nodup
  mem : ∀ x j, (x, j) ∈ fields ↔ ∃ sh base i, a.SlotAt m sh base i x ∧
    Reached (Resolves f) a m roots x ∧ j < sh.pointers
  trails : ∀ p ∈ fields, ∃ ws o, Trail f (m.field p.1 p.2) ws o
  field : ∀ {sh base i x j}, a.SlotAt m sh base i x → j < sh.size → m'.field x j =
    if (x, j) ∈ fields then lastWord f (m.field x j) else m.field x j

namespace Rewritten

variable {fields : List (Word × Nat)} (hw : Rewritten f a m roots fields m')
include hw

theorem mem_slot (h : a.Sound m loose due) (hx : a.SlotAt m sh base i x) :
    (x, j) ∈ fields ↔ Reached (Resolves f) a m roots x ∧ j < sh.pointers := by
  rw [hw.mem]
  constructor
  · rintro ⟨s, base', i', hx', hreach, hj⟩
    obtain ⟨rfl, -, -⟩ := hx.unique h hx'
    exact ⟨hreach, hj⟩
  · rintro ⟨hreach, hj⟩
    exact ⟨sh, base, i, hx, hreach, hj⟩

/-- What a pointer field of an object that is reached stands for does not change. -/
theorem resolves (hx : a.SlotAt m sh base i x) (hreach : Reached (Resolves f) a m roots x)
    (hj : j < sh.pointers) : Resolves f (m'.field x j) y ↔ Resolves f (m.field x j) y := by
  have hmem : (x, j) ∈ fields := (hw.mem x j).2 ⟨sh, base, i, hx, hreach, hj⟩
  obtain ⟨ws, o, ht⟩ := hw.trails _ hmem
  rw [hw.field hx (hj.trans_le sh.pointers_le), if_pos hmem]
  exact ht.resolves_lastWord

/-- The roots reach what they reached. -/
theorem reached (h : a.Sound m loose due) :
    Reached (Resolves f) a m' roots x ↔ Reached (Resolves f) a m roots x := by
  constructor
  · intro hx
    induction hx with
    | root hr hres hx => exact .root hr hres ((hw.preserved.slotAt h).1 hx)
    | field _ hx hj hres hy ih =>
      have hx' := (hw.preserved.slotAt h).1 hx
      exact .field ih hx' hj ((hw.resolves hx' ih hj).1 hres) ((hw.preserved.slotAt h).1 hy)
  · intro hx
    exact hx.congr (hw.preserved.slotAt h).2 fun hx hreach hj => (hw.resolves hx hreach hj).2

end Rewritten

/-! ## Markings in a row -/

namespace Heap

open Marking (pointerFields followedIn hopsIn Rewrote Ended)

variable {h t : Heap} {more done : List Word} {seen : Set Word}

/-- The heap `t` after markings of `h` that scanned the roots `roots` in all: together they
    did the objects `done`, each once, and came to where one marking ends. -/
structure MarkedBy (f : Word → Edge) (h : Heap) (roots done : List Word) (seen : Set Word)
    (t : Heap) : Prop where
  scanned : ∀ r ∈ roots, r ∈ seen
  ended : Ended (.ofWord f) (Resolves f) (Resolves f) h.arena h.memory roots done seen
    (.start t.memory)
  rewrote : Rewrote f h.arena h.memory (pointerFields h.memory done)
    (followedIn f h.memory (pointerFields h.memory done))
    (hopsIn f h.memory (pointerFields h.memory done)) (.start t.memory)
  arena : t.arena = { h.arena with counters := { h.arena.counters with
    rootsScanned := h.arena.counters.rootsScanned + roots.length
    pointersFollowed := h.arena.counters.pointersFollowed +
      followedIn f h.memory (pointerFields h.memory done)
    indirectionsCollapsed := h.arena.counters.indirectionsCollapsed +
      hopsIn f h.memory (pointerFields h.memory done) } }

namespace MarkedBy

theorem start (hs : h.Sound [] due) : MarkedBy f h [] [] ∅ h where
  scanned _ hr := by simp at hr
  ended := .start hs
  rewrote := .start hs
  arena := rfl

/-- One more marking, which fails where one of the totals that it comes to leaves the range of
    a machine word. -/
theorem mark_counted (hs : h.Sound [] due) (ht : MarkedBy f h roots done seen t) :
    Meets (Heap.mark (.ofWord f) more) t
      (fun _ t' => ∃ done' seen', MarkedBy f h (roots ++ more) done' seen' t')
      fun fault _ => (fault = .overflow .add ∧
          ∃ t', (∃ done' seen', MarkedBy f h (roots ++ more) done' seen' t') ∧
            t'.arena.counters.Overmarked) ∨
        fault.Diverges (.ofWord f) := by
  refine meets_mark_counted ?_
  -- What was reached and marked before is reached and marked with more roots.
  rw [Marking.run_congr (a := h.arena) (by rw [ht.arena])]
  refine (Marking.run_continues hs (Tagging.reads_ofWord f) (List.subset_append_right roots more)
    (I := fun done s => Rewrote f h.arena h.memory (pointerFields h.memory done) _ _ s)
    (ht.ended.widen (List.subset_append_left roots more)) ht.rewrote
    (fun _ => Marking.scanRoot_rewrites hs) (Marking.scans_rewrite hs _ _)).mono ?_ fun _ _ => id
  rintro - s ⟨done', seen', hsub, hmore, he, hw⟩
  refine ⟨done', seen', fun r hr => ?_, he.restart, ?_, ?_⟩
  · rcases List.mem_append.1 hr with hr | hr
    · exact hsub (ht.scanned r hr)
    · exact hmore r hr
  · have := hw.restart
    rwa [hw.followed, hw.collapsed] at this
  · rw [putMarking, ht.arena, List.length_append, ← hw.followed, ← hw.collapsed]
    simp only [Nat.add_assoc]

/-- One more marking. -/
theorem mark (hs : h.Sound [] due) (ht : MarkedBy f h roots done seen t) :
    Meets (Heap.mark (.ofWord f) more) t
      (fun _ t' => ∃ done' seen', MarkedBy f h (roots ++ more) done' seen' t')
      fun fault _ => fault.IsOverflow ∨ fault.Diverges (.ofWord f) :=
  (ht.mark_counted hs).mono (fun _ _ => id) fun _ _ hf => hf.imp_left fun hf => ⟨_, hf.1⟩

/-- The arena fits together after markings. -/
theorem sound (hs : h.Sound [] due) (ht : MarkedBy f h roots done seen t) : t.Sound [] due := by
  refine (ht.ended.preserved.sound hs).of_eq ?_ ?_ ?_ ?_ <;> rw [ht.arena]

/-- What is marked is what the roots reach. -/
theorem marked_iff (ht : MarkedBy f h roots done seen t)
    (hclear : ∀ x, ¬ h.arena.Marked h.memory h.memory x) :
    h.arena.Marked h.memory t.memory x ↔ Reached (Resolves f) h.arena h.memory roots x :=
  ⟨fun hx => (ht.ended.reached x hx).resolve_left (hclear x),
    ht.ended.complete ht.scanned hclear⟩

section
variable {m₁ : Memory} (hs : h.Sound [] due) (hp : h.arena.Preserved h.memory m₁)
  (hclear : ∀ c ∈ h.arena.caches, ∀ b ∈ c.blocks h.memory,
    Block.Cleared c.shape (h.memory.block b) (m₁.block b))
  (ht : MarkedBy f { h with memory := m₁ } roots done seen t)
include hs hp hclear ht

/-- A marking that follows a clearing rewrites the fields as they were before it. -/
theorem rewritten :
    Rewritten f h.arena h.memory roots (pointerFields m₁ done) t.memory := by
  have hs₁ : Heap.Sound { h with memory := m₁ } [] due := hp.sound hs
  have hslot : ∀ {s base i x}, h.arena.SlotAt m₁ s base i x ↔
      h.arena.SlotAt h.memory s base i x := hp.slotAt hs
  have hnone : ∀ x, ¬ h.arena.Marked m₁ m₁ x := fun _ => not_marked_cleared hs hp hclear
  have hmem := fun x j => ht.ended.mem_pointerFields (x := x) (j := j) hs₁ ht.scanned hnone
  simp only [hslot, reached_cleared hs hp hclear] at hmem
  refine ⟨hp.trans hs ht.ended.preserved, ht.ended.nodup_pointerFields, hmem, ?_, ?_⟩
  · rintro ⟨x, j⟩ hq
    obtain ⟨s, base, i, hx, -, hj⟩ := (hmem x j).1 hq
    obtain ⟨ws, o, htrail⟩ := ht.rewrote.trails _ hq
    exact ⟨ws, o, field_cleared hs hclear hx (hj.trans_le s.pointers_le) ▸ htrail⟩
  · intro s base i x j hx hj
    rw [← field_cleared hs hclear hx hj]
    exact ht.rewrote.field (hslot.2 hx) hj

/-- A marking that follows a clearing marks what the roots reached before it. -/
theorem bits {s : Shape} {base x : Word} {i : Nat}
    (hx : h.arena.SlotAt h.memory s base i x) : (t.memory.block base).bitmap.bit i = true ↔
      Reached (Resolves f) h.arena h.memory roots x := by
  have hs₁ : Heap.Sound { h with memory := m₁ } [] due := hp.sound hs
  have hnone : ∀ x, ¬ h.arena.Marked m₁ m₁ x := fun _ => not_marked_cleared hs hp hclear
  rw [← reached_cleared hs hp hclear, ← Arena.marked_iff hs₁ ((hp.slotAt hs).2 hx)]
  exact ht.marked_iff hnone

end

end MarkedBy

/-- A marking of a heap without used slots rewrites the pointer fields of what the roots
    reach, and counts the roots, the pointers in these fields and the indirections. -/
theorem mark_rewrites (hs : h.Sound [] due)
    (hclear : ∀ x, ¬ h.arena.Marked h.memory h.memory x) :
    Meets (mark (.ofWord f) roots) h
      (fun _ h' => ∃ fields, Rewritten f h.arena h.memory roots fields h'.memory ∧
        h'.arena = { h.arena with counters := { h.arena.counters with
          rootsScanned := h.arena.counters.rootsScanned + roots.length
          pointersFollowed := h.arena.counters.pointersFollowed +
            fields.countP fun p => endsAtObject f (h.memory.field p.1 p.2)
          indirectionsCollapsed := h.arena.counters.indirectionsCollapsed +
            (fields.map fun p => hops f (h.memory.field p.1 p.2)).sum } })
      fun fault _ => fault.IsOverflow ∨ fault.Diverges (.ofWord f) := by
  refine ((MarkedBy.start hs).mark hs).mono ?_ fun _ _ => id
  rintro - h' ⟨done, seen, hm⟩
  exact ⟨_, ⟨hm.ended.preserved, hm.ended.nodup_pointerFields,
    fun _ _ => hm.ended.mem_pointerFields hs hm.scanned hclear, hm.rewrote.trails,
    hm.rewrote.field⟩, hm.arena⟩

end Heap

end SlabHeap
