/-
  The search for a clear bit, word by word.

  `search` is the loop that reads the words in cyclic order from the hint on, and leaves the
  word of the bit that it finds as the next hint.  It ends in its first round through the
  bitmap, and it finds what `find` finds (`search_eq`): the lowest clear bit of the first word
  that is not full (`Finds`), or none if all words are full.  In a bitmap that fills up in order,
  this is the first clear bit of all (`find_first`).

  `clearFrom` lists the clear bits in the order in which they are found one after the other: the
  first one is found (`finds_clearFrom`), and the others stay when it is set (`clearFrom_set`).
  So `take` draws all of them, each once (`take_clearFrom`).
-/
import Mathlib.Data.List.Rotate
import SlabHeap.Proofs.Block.Bitmap
import SlabHeap.Proofs.Action

namespace SlabHeap

namespace Word

variable {w : Word}

theorem not_eq_zero : ~~~w = 0 ↔ w = ~~~0 := by
  constructor
  · intro h
    rw [← h, UInt64.not_not]
  · rintro rfl
    exact UInt64.not_not

/-- The lowest clear bit of a word is found by counting the trailing zeros of its complement. -/
theorem lowestClear?_eq_ctz (w : Word) :
    lowestClear? w = if ~~~w = 0 then none else some (~~~w).toBitVec.ctz.toNat := by
  split
  next h =>
    rw [not_eq_zero.1 h]
    refine lowestClear?_eq_none.2 fun i hi => ?_
    rw [bit_not hi, bit_zero]
    rfl
  next h =>
    have hne : (~~~w).toBitVec ≠ 0#64 := fun he => h (UInt64.toBitVec_inj.1 he)
    have hset := BitVec.getLsbD_true_ctz_of_ne_zero hne
    have hlt : (~~~w).toBitVec.ctz.toNat < bits := BitVec.lt_of_getLsbD hset
    refine lowestClear?_eq_some.2 ⟨hlt, ?_, fun j hj => ?_⟩
    · have hbit := bit_not (w := w) hlt
      rw [bit, hset] at hbit
      simpa using hbit.symm
    · have hbit := bit_not (w := w) (hj.trans hlt)
      rw [bit, BitVec.getLsbD_false_of_lt_ctz hj] at hbit
      simpa using hbit.symm

theorem lowestClear?_eq_none_iff : lowestClear? w = none ↔ w = ~~~0 := by
  rw [lowestClear?_eq_ctz, ← not_eq_zero]
  split <;> simp [*]

end Word

namespace Bitmap

variable {b b' : Bitmap} {n hint i j k : Nat} {old : Bool} {rest : List Nat}

/-! ## The loop -/

/-- At most so many rounds of a search that began at the word `start`, the first one at the word
    `i`.  The state is the hint.  A word that is not full ends the search; the one behind the
    last word is the first one. -/
def scan (b : Bitmap) (start : Nat) : Nat → Nat → Action Nat Nat
  | 0, _ => throw .endless
  | rounds + 1, i =>
    match b.words[i]? with
    | none => throw (.indexOutOfBounds b.length i)
    | some word => do
      let inverted := ~~~word
      if inverted = 0 then
        let next := (i + 1) % b.length
        if next = start then throw .noClearBit
        scan b start rounds next
      else
        MonadState.set i
        return Word.bits * i + inverted.toBitVec.ctz.toNat

/-- The search from the hint on, in at most so many rounds. -/
def search (b : Bitmap) (rounds : Nat) : Action Nat Nat := do
  let hint ← get
  if b.length ≤ hint then throw (.hintOutOfRange hint b.length)
  b.scan hint rounds hint

/-- Finds a clear bit, and leaves its word as the hint. -/
def seek (b : Bitmap) : Action Nat Nat := do
  let i ← b.find (← get)
  MonadState.set (hintOf i)
  return i

theorem seek_eq (b : Bitmap) (hint : Nat) : b.seek hint = match b.find hint with
    | .ok i => .ok i (hintOf i)
    | .error fault => .error fault hint := by
  rw [seek, Action.get_bind]
  cases b.find hint <;> rfl

/-- The lowest clear bit of a word at its position. -/
def lowestIn? (p : Word × Nat) : Option Nat :=
  (Word.lowestClear? p.1).map (Word.bits * p.2 + ·)

theorem firstClear?_eq (b : Bitmap) (hint : Nat) :
    b.firstClear? hint = (b.cyclicFrom hint).findSome? lowestIn? := rfl

theorem cyclicFrom_eq_rotate (hh : hint ≤ b.length) :
    b.cyclicFrom hint = b.words.zipIdx.rotate hint :=
  (List.rotate_eq_drop_append_take (by rwa [List.length_zipIdx])).symm

theorem length_cyclicFrom (hh : hint ≤ b.length) : (b.cyclicFrom hint).length = b.length := by
  rw [cyclicFrom_eq_rotate hh, List.length_rotate, List.length_zipIdx, length]

/-- The words in cyclic order from the hint on are those at the hint, one behind it, and so on,
    modulo their number. -/
theorem getElem?_cyclicFrom (hh : hint ≤ b.length) {d : Nat} (hd : d < b.length) :
    (b.cyclicFrom hint)[d]? =
      (b.words[(hint + d) % b.length]?).map (·, (hint + d) % b.length) := by
  rw [cyclicFrom_eq_rotate hh, List.getElem?_rotate (by rwa [List.length_zipIdx]),
    List.length_zipIdx, List.getElem?_zipIdx, Nat.add_comm d hint]
  simp only [Nat.zero_add, length]

theorem hintOf_mul_add (hj : j < Word.bits) : hintOf (Word.bits * k + j) = k := by
  rw [hintOf, Nat.mul_add_div (by decide), Nat.div_eq_of_lt hj, Nat.add_zero]

/-- A word at a distance of less than a round comes up at no other distance of a round. -/
theorem add_mod_ne_self {start d len : Nat} (hs : start < len) (hd : 0 < d) (hlt : d < len) :
    (start + d) % len ≠ start := by
  rcases Nat.lt_or_ge (start + d) len with h | h
  · rw [Nat.mod_eq_of_lt h]; omega
  · rw [Nat.mod_eq_sub_mod h, Nat.mod_eq_of_lt (by omega)]; omega

/-- From the `d`-th word on, the loop finds what there is to be found in the words that are
    left. -/
theorem scan_eq (hint : Nat) {start : Nat} (hs : start < b.length) :
    ∀ {rounds d : Nat} {found : Option Nat}, d < b.length → b.length ≤ rounds + d →
      ((b.cyclicFrom start).drop d).findSome? lowestIn? = found →
      b.scan start rounds ((start + d) % b.length) hint = match found with
        | some i => .ok i (hintOf i)
        | none => .error .noClearBit hint
  | 0, d, _, hd, hr, _ => by omega
  | rounds + 1, d, found, hd, hr, hf => by
    have hlt : (start + d) % b.length < b.words.length := Nat.mod_lt _ (by omega)
    obtain ⟨word, hword⟩ : ∃ word, b.words[(start + d) % b.length]? = some word :=
      ⟨_, List.getElem?_eq_getElem hlt⟩
    have hhead := getElem?_cyclicFrom hs.le hd
    rw [hword, Option.map_some] at hhead
    obtain ⟨hd', hhead⟩ := List.getElem?_eq_some_iff.1 hhead
    rw [List.drop_eq_getElem_cons hd', hhead, List.findSome?_cons, lowestIn?,
      Word.lowestClear?_eq_ctz] at hf
    rw [scan, hword]
    by_cases hfull : ~~~word = 0
    · have hnext : ((start + d) % b.length + 1) % b.length = (start + (d + 1)) % b.length := by
        rw [Nat.mod_add_mod, Nat.add_assoc]
      simp only [hfull, if_true, hnext, Option.map_none] at hf ⊢
      by_cases hlast : d + 1 = b.length
      · have hend : (b.cyclicFrom start).drop (d + 1) = [] :=
          List.drop_eq_nil_of_le (by rw [length_cyclicFrom hs.le, hlast])
        rw [hend] at hf
        subst hf
        rw [hlast, Nat.add_mod_right, Nat.mod_eq_of_lt hs, if_pos rfl]
        rfl
      · rw [if_neg (add_mod_ne_self hs (by omega) (by omega))]
        exact scan_eq hint hs (by omega) (by omega) hf
    · simp only [hfull, if_false, Option.map_some] at hf ⊢
      subst hf
      have hctz : (~~~word).toBitVec.ctz.toNat < Word.bits := by
        have hsome := Word.lowestClear?_eq_ctz word
        rw [if_neg hfull] at hsome
        exact (Word.lowestClear?_eq_some.1 hsome).1
      change EStateM.Result.ok _ _ = EStateM.Result.ok _ _
      rw [hintOf_mul_add hctz]

/-- The loop finds what `find` finds, and ends before it reads a word twice. -/
theorem search_eq {rounds : Nat} (hr : b.length ≤ rounds) : b.search rounds = b.seek := by
  funext hint
  rw [seek_eq, find]
  by_cases hh : b.length ≤ hint
  · rw [search, Action.get_bind, if_pos hh, if_pos hh]
    rfl
  · have hlt : hint < b.length := Nat.lt_of_not_le hh
    have hscan := scan_eq hint hlt (d := 0) (by omega) hr rfl
    rw [Nat.add_zero, Nat.mod_eq_of_lt hlt, List.drop_zero, ← firstClear?_eq] at hscan
    rw [search, Action.get_bind, if_neg hh, if_neg hh]
    refine hscan.trans ?_
    cases b.firstClear? hint <;> rfl

/-! ## What a search finds -/

/-- A search from the word `hint` finds the bit `i`: all words in cyclic order from the hint on
    are full up to the one of `i`, of which it is the lowest clear bit. -/
structure Finds (b : Bitmap) (hint i : Nat) : Prop where
  first : ∃ d < b.length, hintOf i = (hint + d) % b.length ∧
    ∀ e < d, b.words[(hint + e) % b.length]? = some (~~~0)
  clear : b.bit i = false
  lowest : ∀ j < i, hintOf j = hintOf i → b.bit j = true

theorem bit_of_full (hw : b.words[hintOf i]? = some (~~~0)) : b.bit i = true := by
  rw [bit_of_getElem? hw, Word.bit_not (Nat.mod_lt i (by decide)), Word.bit_zero]
  rfl

theorem full_of_bits (hk : k < b.length) (h : ∀ i, hintOf i = k → b.bit i = true) :
    b.words[k]? = some (~~~0) := by
  have hk' : k < b.words.length := hk
  rw [List.getElem?_eq_getElem hk', Option.some_inj]
  refine Word.lowestClear?_eq_none_iff.1 (Word.lowestClear?_eq_none.2 fun j hj => ?_)
  rw [← bit_getElem hk' hj]
  exact h _ (by rw [Nat.mul_comm]; exact hintOf_mul_add hj)

theorem Finds.hintOf_lt (h : b.Finds hint i) : hintOf i < b.length := by
  obtain ⟨d, hd, he, -⟩ := h.first
  rw [he]
  exact Nat.mod_lt _ (by omega)

/-- Full words do not reach beyond the word of a clear bit. -/
theorem le_of_full {d e : Nat} (hclear : b.bit i = false) (hi : hintOf i = (hint + d) % b.length)
    (hfull : ∀ k < e, b.words[(hint + k) % b.length]? = some (~~~0)) : e ≤ d := by
  by_contra hlt
  have hset := bit_of_full (hi ▸ hfull d (Nat.lt_of_not_le hlt))
  rw [hclear] at hset
  cases hset

theorem Finds.le (h : b.Finds hint i) (hj : b.bit j = false) (hsame : hintOf j = hintOf i) :
    i ≤ j := by
  by_contra hlt
  have hset := h.lowest j (Nat.lt_of_not_le hlt) hsame
  rw [hj] at hset
  cases hset

/-- There is one bit that a search finds. -/
theorem Finds.unique (h : b.Finds hint i) (h' : b.Finds hint j) : i = j := by
  obtain ⟨d, -, hi, hfull⟩ := h.first
  obtain ⟨d', -, hj, hfull'⟩ := h'.first
  have hd : d = d' := Nat.le_antisymm (le_of_full h'.clear hj hfull) (le_of_full h.clear hi hfull')
  have hsame : hintOf i = hintOf j := by rw [hi, hj, hd]
  exact Nat.le_antisymm (h.le h'.clear hsame.symm) (h'.le h.clear hsame)

/-- A search with a hint in the bitmap returns, or finds no clear bit. -/
theorem find_eq (hh : hint < b.length) : b.find hint = match b.firstClear? hint with
    | some i => .ok i
    | none => .error .noClearBit :=
  if_neg (Nat.not_le_of_lt hh)

theorem finds_of_find (hh : hint < b.length) (h : b.find hint = .ok i) : b.Finds hint i := by
  have hfirst : b.firstClear? hint = some i := by
    rw [find_eq hh] at h
    split at h
    next hf => rw [hf, Except.ok.inj h]
    next => cases h
  rw [firstClear?_eq] at hfirst
  obtain ⟨before, ⟨word, k⟩, after, hl, hword, hbefore⟩ :=
    List.findSome?_eq_some_iff.1 hfirst
  obtain ⟨j, hj, rfl⟩ := Option.map_eq_some_iff.1 hword
  obtain ⟨hlt, hclear, hlowest⟩ := Word.lowestClear?_eq_some.1 hj
  have hd : before.length < b.length := by
    rw [← length_cyclicFrom hh.le, hl, List.length_append, List.length_cons]
    omega
  have hat := getElem?_cyclicFrom hh.le hd
  rw [hl, List.getElem?_append_right le_rfl, Nat.sub_self, List.getElem?_cons_zero] at hat
  obtain ⟨w, hw, he⟩ := Option.map_eq_some_iff.1 hat.symm
  obtain ⟨rfl, rfl⟩ := Prod.mk.inj he
  have hk := (List.getElem?_eq_some_iff.1 hw).1
  have hbit : ∀ i < Word.bits, b.bit (Word.bits * ((hint + before.length) % b.length) + i) =
      Word.bit w i := by
    intro i hi
    rw [Nat.mul_comm, bit_getElem hk hi, (List.getElem?_eq_some_iff.1 hw).2]
  refine ⟨⟨before.length, hd, hintOf_mul_add hlt, fun e he => ?_⟩, ?_, fun i hi hsame => ?_⟩
  · have hat := getElem?_cyclicFrom hh.le (he.trans hd)
    rw [hl, List.getElem?_append_left he, List.getElem?_eq_getElem he] at hat
    obtain ⟨w', hw', he'⟩ := Option.map_eq_some_iff.1 hat.symm
    have hnone := hbefore _ (List.getElem_mem he)
    rw [← he', lowestIn?, Option.map_eq_none_iff, Word.lowestClear?_eq_none_iff] at hnone
    exact hw'.trans (congrArg some hnone)
  · rw [hbit j hlt]
    exact hclear
  · rw [hintOf_mul_add hlt, hintOf] at hsame
    have hi' := Nat.div_add_mod i Word.bits
    rw [hsame] at hi'
    rw [← hi', hbit _ (Nat.mod_lt i (by decide))]
    exact hlowest _ (by omega)

/-- `find` finds a bit just if it is the one that there is to be found. -/
theorem find_eq_ok (hh : hint < b.length) : b.find hint = .ok i ↔ b.Finds hint i := by
  refine ⟨finds_of_find hh, fun hi => ?_⟩
  obtain ⟨j, hj, -⟩ := exists_find hh hi.hintOf_lt hi.clear
  rw [hj, (finds_of_find hh hj).unique hi]

/-- The first clear bit of all is found if the hint is not behind it. -/
theorem find_first (hset : ∀ j < i, b.bit j = true) (hclear : b.bit i = false)
    (hh : hint ≤ hintOf i) (hi : hintOf i < b.length) : b.find hint = .ok i := by
  refine (find_eq_ok (Nat.lt_of_le_of_lt hh hi)).2
    ⟨⟨hintOf i - hint, by omega, ?_, fun e he => ?_⟩, hclear, fun j hj _ => hset j hj⟩
  · rw [Nat.add_sub_cancel' hh, Nat.mod_eq_of_lt hi]
  · rw [Nat.mod_eq_of_lt (by omega)]
    refine full_of_bits (by omega) fun j hj => hset j ?_
    by_contra hle
    have := Nat.div_le_div_right (c := Word.bits) (Nat.le_of_not_lt hle)
    simp only [hintOf] at hj he
    omega

/-- `find` finds nothing just if all words are full. -/
theorem find_eq_error (hh : hint < b.length) :
    b.find hint = .error .noClearBit ↔ ∀ w ∈ b.words, w = ~~~0 := by
  have hiff : b.firstClear? hint = none ↔ _ := firstClear?_eq_none
  simp only [← Word.lowestClear?_eq_none, Word.lowestClear?_eq_none_iff] at hiff
  rw [← hiff, find_eq hh]
  cases b.firstClear? hint <;> simp

/-! ## Draining -/

/-- The clear bits among the first `n` ones, those from the word `hint` on first. -/
def clearFrom (b : Bitmap) (n hint : Nat) : List Nat :=
  ((List.range n).filter fun i => !b.bit i && decide (Word.bits * hint ≤ i)) ++
    (List.range n).filter fun i => !b.bit i && decide (i < Word.bits * hint)

/-- These are the clear bits, each once. -/
theorem clearFrom_perm (b : Bitmap) (n hint : Nat) :
    (b.clearFrom n hint).Perm ((List.range n).filter fun i => !b.bit i) := by
  have hperm := List.filter_append_perm (fun i => decide (i < Word.bits * hint))
    ((List.range n).filter fun i => !b.bit i)
  simp only [List.filter_filter, ← decide_not, Nat.not_lt] at hperm
  refine (List.perm_append_comm.trans ?_).trans hperm
  simp only [Bool.and_comm]
  exact .refl _

theorem mem_clearFrom : i ∈ b.clearFrom n hint ↔ i < n ∧ b.bit i = false := by
  rw [(b.clearFrom_perm n hint).mem_iff]
  simp

theorem length_clearFrom : (b.clearFrom n hint).length = b.vacant n := by
  rw [(b.clearFrom_perm n hint).length_eq, vacant, Nat.count, List.countP_eq_length_filter]
  simp

/-- The first of the numbers that satisfy a condition is the least one, and the others remain if
    it is left out. -/
theorem filter_range_cons {p : Nat → Bool} (h : (List.range n).filter p = i :: rest) :
    i < n ∧ p i = true ∧ (∀ j < n, p j = true → i ≤ j) ∧
      ∀ q : Nat → Bool, (∀ j < n, q j = (p j && decide (j ≠ i))) →
        (List.range n).filter q = rest := by
  have hmem : ∀ j, j ∈ i :: rest ↔ j < n ∧ p j = true := by
    intro j
    rw [← h, List.mem_filter, List.mem_range]
  have hsorted : (i :: rest).Pairwise (· < ·) := h ▸ List.pairwise_lt_range.filter p
  obtain ⟨hleast, -⟩ := List.pairwise_cons.1 hsorted
  obtain ⟨hi, hp⟩ := (hmem i).1 (List.mem_cons_self ..)
  refine ⟨hi, hp, fun j hj hpj => ?_, fun q hq => ?_⟩
  · rcases List.mem_cons.1 ((hmem j).2 ⟨hj, hpj⟩) with rfl | hj
    · exact le_rfl
    · exact (hleast j hj).le
  · calc (List.range n).filter q
        = ((List.range n).filter p).filter (fun j => decide (j ≠ i)) := by
          rw [List.filter_filter]
          refine List.filter_congr fun j hj => ?_
          rw [hq j (List.mem_range.1 hj), Bool.and_comm]
      _ = rest := by
          rw [h, List.filter_cons_of_neg (by simp)]
          exact List.filter_eq_self.2 fun j hj => by simpa using (hleast j hj).ne'

/-- The first clear bit in the order from the hint on is the least one there, or the least one of
    all if there is none from the hint on. -/
theorem clearFrom_cons (h : b.clearFrom n hint = i :: rest) :
    (Word.bits * hint ≤ i ∧ ∀ j < n, b.bit j = false → Word.bits * hint ≤ j → i ≤ j) ∨
      (i < Word.bits * hint ∧ ∀ j < n, b.bit j = false → i ≤ j ∧ j < Word.bits * hint) := by
  rw [clearFrom] at h
  rcases hl : (List.range n).filter fun i => !b.bit i && decide (Word.bits * hint ≤ i) with
    _ | ⟨a, l⟩
  · rw [hl, List.nil_append] at h
    obtain ⟨-, hi, hleast, -⟩ := filter_range_cons h
    simp only [Bool.and_eq_true, Bool.not_eq_true', decide_eq_true_eq] at hi hleast
    refine .inr ⟨hi.2, fun j hj hclear => ?_⟩
    have hlt : j < Word.bits * hint := by
      have := List.filter_eq_nil_iff.1 hl j (List.mem_range.2 hj)
      simpa [hclear] using this
    exact ⟨hleast j hj ⟨hclear, hlt⟩, hlt⟩
  · rw [hl, List.cons_append] at h
    obtain ⟨rfl, -⟩ := List.cons.inj h
    obtain ⟨-, hi, hleast, -⟩ := filter_range_cons hl
    simp only [Bool.and_eq_true, Bool.not_eq_true', decide_eq_true_eq] at hi hleast
    exact .inl ⟨hi.2, fun j hj hclear hle => hleast j hj ⟨hclear, hle⟩⟩

/-- A bitmap has the extent that `n` slots need, and its sentinels are set. -/
structure Fits (b : Bitmap) (n : Nat) : Prop where
  length : b.length = wordsFor n
  sentinels : ∀ i, n ≤ i → i / Word.bits < b.length → b.bit i = true

theorem Fits.set (h : b.Fits n) (hset : b.set i = .ok (old, b')) : b'.Fits n where
  length := (length_set hset).trans h.length
  sentinels j hj hlt := by
    rw [bit_set hset, h.sentinels j hj (length_set hset ▸ hlt), Bool.true_or]

/-- A word without a clear bit of a slot is full. -/
theorem Fits.full (h : b.Fits n) (hk : k < b.length)
    (hne : ∀ j < n, b.bit j = false → hintOf j ≠ k) : b.words[k]? = some (~~~0) := by
  refine full_of_bits hk fun j hj => ?_
  by_contra hbit
  have hlt : j < n := by
    by_contra hn
    exact hbit (h.sentinels j (Nat.le_of_not_lt hn) (by rw [← hintOf, hj]; exact hk))
  exact hne j hlt (by simpa using hbit) hj

/-- The first clear bit in the order from the hint on is found. -/
theorem finds_clearFrom (hb : b.Fits n) (hh : hint < b.length)
    (h : b.clearFrom n hint = i :: rest) : b.Finds hint i := by
  obtain ⟨hi, hclear⟩ := mem_clearFrom.1 (h ▸ List.mem_cons_self ..)
  have hlt : hintOf i < b.length := hb.length ▸ div_lt_wordsFor hi
  -- A clear bit that comes first is in no word before the one of `i`.
  rcases clearFrom_cons h with ⟨hle, hleast⟩ | ⟨hlt', hleast⟩
  · have hge : hint ≤ hintOf i := by simp only [hintOf, Word.bits] at hle ⊢; omega
    refine ⟨⟨hintOf i - hint, by omega, ?_, fun e he => ?_⟩, hclear, fun j hj hsame => ?_⟩
    · rw [Nat.add_sub_cancel' hge, Nat.mod_eq_of_lt hlt]
    · rw [Nat.mod_eq_of_lt (by omega)]
      refine hb.full (by omega) fun j hj hbit hword => ?_
      have := hleast j hj hbit
      simp only [hintOf, Word.bits] at hword he this
      omega
    · by_contra hbit
      have := hleast j (hj.trans hi) (by simpa using hbit)
      simp only [hintOf, Word.bits] at hle hsame this
      omega
  · have hless : hintOf i < hint := by simp only [hintOf, Word.bits] at hlt' ⊢; omega
    refine ⟨⟨hintOf i + b.length - hint, by omega, ?_, fun e he => ?_⟩, hclear,
      fun j hj hsame => ?_⟩
    · rw [Nat.add_sub_cancel' (by omega), Nat.add_mod_right, Nat.mod_eq_of_lt hlt]
    · refine hb.full (Nat.mod_lt _ (by omega)) fun j hj hbit hword => ?_
      have hj' := hleast j hj hbit
      rcases Nat.lt_or_ge (hint + e) b.length with hle | hle
      · rw [Nat.mod_eq_of_lt hle] at hword
        simp only [hintOf, Word.bits] at hword hj'
        omega
      · rw [Nat.mod_eq_sub_mod hle, Nat.mod_eq_of_lt (by omega)] at hword
        simp only [hintOf, Word.bits] at hword hj' he
        omega
    · by_contra hbit
      exact absurd (hleast j (hj.trans hi) (by simpa using hbit)).1 (Nat.not_le_of_lt hj)

/-- If the first clear bit is set, the others remain, in the order from its word on. -/
theorem clearFrom_set (hset : b.set i = .ok (old, b')) (h : b.clearFrom n hint = i :: rest) :
    b'.clearFrom n (hintOf i) = rest := by
  have hword : Word.bits * hintOf i ≤ i := Nat.mul_div_le i Word.bits
  have hclear : ∀ j, (!b'.bit j) = (!b.bit j && decide (j ≠ i)) := by
    intro j
    rw [bit_set hset, Bool.not_or, ← decide_not]
    simp only [ne_comm]
  have hfirst := clearFrom_cons h
  rw [clearFrom] at h ⊢
  simp only [hclear]
  rcases hl : (List.range n).filter fun i => !b.bit i && decide (Word.bits * hint ≤ i) with
    _ | ⟨a, l⟩
  · rw [hl, List.nil_append] at h
    obtain ⟨hi, hbit, -, hrest⟩ := filter_range_cons h
    have hlt : i < Word.bits * hint := by simpa using (Bool.and_eq_true_iff.1 hbit).2
    rcases hfirst with ⟨hle, -⟩ | ⟨-, hleast⟩
    · omega
    have hnone : ((List.range n).filter fun j =>
        !b.bit j && decide (j ≠ i) && decide (j < Word.bits * hintOf i)) = [] := by
      refine List.filter_eq_nil_iff.2 fun j hj => ?_
      simp only [Bool.and_eq_true, Bool.not_eq_true', decide_eq_true_eq, not_and]
      intro hj' hlow
      have := hleast j (List.mem_range.1 hj) hj'.1
      omega
    rw [hnone, List.append_nil]
    refine hrest _ fun j hj => ?_
    cases hbj : b.bit j with
    | true => rfl
    | false =>
      have := hleast j hj hbj
      have hle : Word.bits * hintOf i ≤ j := by omega
      simp [hle, this.2]
  · rw [hl, List.cons_append] at h
    obtain ⟨rfl, rfl⟩ := List.cons.inj h
    obtain ⟨hi, hbit, -, hrest⟩ := filter_range_cons hl
    have hle : Word.bits * hint ≤ a := by simpa using (Bool.and_eq_true_iff.1 hbit).2
    rcases hfirst with ⟨-, hleast⟩ | ⟨hlt, -⟩
    · have hhint : Word.bits * hint ≤ Word.bits * hintOf a := by
        simp only [hintOf, Word.bits] at hle ⊢
        omega
      have hside : ∀ j < n, b.bit j = false →
          (Word.bits * hintOf a ≤ j ↔ Word.bits * hint ≤ j) := fun j hj hbj =>
        ⟨hhint.trans, fun h => hword.trans (hleast j hj hbj h)⟩
      congr 1
      · refine hrest _ fun j hj => ?_
        cases hbj : b.bit j with
        | true => rfl
        | false => simp [hside j hj hbj, Bool.and_comm]
      · refine List.filter_congr fun j hj => ?_
        cases hbj : b.bit j with
        | true => rfl
        | false =>
          have := hside j (List.mem_range.1 hj) hbj
          have : j < Word.bits * hintOf a ↔ j < Word.bits * hint := by omega
          have hne : j < Word.bits * hint → j ≠ a := by omega
          simp only [Bool.not_false, Bool.true_and, this]
          by_cases hlt : j < Word.bits * hint
          · simp [hlt, hne hlt]
          · simp [hlt]
    · omega

theorem take_succ {c : Nat} (hf : b.find hint = .ok i) (hset : b.set i = .ok (old, b')) :
    take (c + 1) hint b = (do
      let (bits, last) ← take c (hintOf i)
      return (i :: bits, last) : Action Bitmap (List Nat × Nat)) b' := by
  rw [take, Action.get_bind, hf]
  change (liftM (b.set i) >>= _ : Action Bitmap (List Nat × Nat)) b = _
  rw [hset]
  rfl

/-- Repeated searches draw the clear bits in their order, and the next one finds none. -/
theorem take_clearFrom (hb : b.Fits n) (hh : hint < b.length) :
    ∃ last full, take (b.clearFrom n hint).length hint b = .ok (b.clearFrom n hint, last) full ∧
      full.find last = .error .noClearBit := by
  induction hbits : b.clearFrom n hint generalizing b hint with
  | nil =>
    refine ⟨hint, b, rfl, (find_eq_error hh).2 fun w hw => ?_⟩
    obtain ⟨k, hk⟩ := List.mem_iff_getElem?.1 hw
    have hfull := hb.full (List.getElem?_eq_some_iff.1 hk).1 fun j hj hbit => by
      have hmem : j ∈ b.clearFrom n hint := mem_clearFrom.2 ⟨hj, hbit⟩
      rw [hbits] at hmem
      cases hmem
    rw [hk] at hfull
    exact Option.some.inj hfull
  | cons i rest ih =>
    have hfinds := finds_clearFrom hb hh hbits
    obtain ⟨b', hset⟩ := exists_set hfinds.hintOf_lt
    obtain ⟨last, full, htake, hlast⟩ := ih (hb.set hset) (length_set hset ▸ hfinds.hintOf_lt)
      (clearFrom_set hset hbits)
    refine ⟨last, full, ?_, hlast⟩
    rw [List.length_cons, take_succ ((find_eq_ok hh).2 hfinds) hset]
    simp only [bind, EStateM.bind, htake]
    rfl

end Bitmap

open Bitmap in
/-- A search ends before it reads a word twice.  It fails just if all words are full, and leaves
    the hint then; otherwise it finds the lowest clear bit of the first word, in cyclic order from
    the hint on, that is not full, and leaves that word as the hint.  So repeated searches draw
    the free slots of a bitmap, those from the hint on first, each once, and fail from then on. -/
theorem bitmap_is_drained_in_cyclic_order {b : Bitmap} {hint : Nat} (hh : hint < b.length) :
    (∀ rounds, b.length ≤ rounds → b.search rounds = b.seek) ∧
    ((∀ w ∈ b.words, w = ~~~0) → b.seek hint = .error .noClearBit hint) ∧
    ((∃ w ∈ b.words, w ≠ ~~~0) → ∃ i, b.Finds hint i ∧ b.seek hint = .ok i (hintOf i)) ∧
    ∀ n, 0 < n → b.length = wordsFor n → b.sentinelsIntact n = .ok true →
      (b.clearFrom n hint).Perm ((List.range n).filter fun i => !b.bit i) ∧
      b.countClear n = .ok (b.clearFrom n hint).length ∧
      ∃ last full, take (b.clearFrom n hint).length hint b = .ok (b.clearFrom n hint, last) full ∧
        full.seek last = .error .noClearBit last := by
  refine ⟨fun rounds => search_eq, fun hfull => ?_, fun ⟨w, hw, hclear⟩ => ?_,
    fun n hn hl hs => ⟨clearFrom_perm .., ?_, ?_⟩⟩
  · rw [seek_eq, (find_eq_error hh).2 hfull]
  · cases hf : b.firstClear? hint with
    | some i =>
      have hi : b.find hint = .ok i := by rw [find_eq hh, hf]
      exact ⟨i, finds_of_find hh hi, by rw [seek_eq, hi]⟩
    | none => exact absurd ((find_eq_error hh).1 (by rw [find_eq hh, hf]) w hw) hclear
  · have hle : n ≤ b.length * Word.bits := by
      simp only [hl, wordsFor, Word.bits]
      omega
    rw [length_clearFrom, countClear_eq_ok hle]
  · obtain ⟨last, full, htake, hlast⟩ := take_clearFrom
      ⟨hl, (sentinelsIntact_eq_ok hn hl).1 hs⟩ hh
    exact ⟨last, full, htake, by rw [seek_eq, hlast]⟩

open Bitmap in
/-- Four free slots, two in each of two words, and a hint at the second word. -/
theorem bitmap_is_drained_in_cyclic_order_of_two :
    let b : Bitmap := ⟨[0xffffffffffffffd7, 0xfffffffffffffffa]⟩
    1 < b.length ∧ 0 < 70 ∧ b.length = wordsFor 70 ∧ b.sentinelsIntact 70 = .ok true ∧
    b.countClear 70 = .ok 4 ∧
    ∃ last full, take 4 1 b = .ok ([64, 66, 3, 5], last) full ∧
      full.seek last = .error .noClearBit last := by
  intro b
  have hl : b.length = wordsFor 70 := by decide
  have hs : b.sentinelsIntact 70 = .ok true := by decide +kernel
  have hbits : b.clearFrom 70 1 = [64, 66, 3, 5] := by decide +kernel
  have hlt : 1 < b.length := by decide
  obtain ⟨-, -, -, hdrained⟩ := bitmap_is_drained_in_cyclic_order hlt
  obtain ⟨-, hcount, htake⟩ := hdrained 70 (by decide) hl hs
  rw [hbits] at hcount htake
  exact ⟨hlt, by decide, hl, hs, hcount, htake⟩

end SlabHeap
