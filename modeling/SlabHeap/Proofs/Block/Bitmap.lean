/-
  Bitmaps as rows of bits.

  `vacant b n` counts the clear bits of a bitmap among the first `n`, one by one.
  The operations on whole words agree with this view: `cleared n` has exactly the
  bits from `n` on (`bit_cleared`), `countClear` counts what `vacant` counts
  (`countClear_eq_ok`), `sentinelsIntact` tests every bit behind the last slot
  (`sentinelsIntact_eq_ok`), setting a bit takes one from the count
  (`vacant_set`), and the search succeeds if there is a clear bit at all
  (`exists_find`).
-/
import Mathlib.Data.Nat.Count
import SlabHeap.Block.Bitmap

namespace SlabHeap

namespace Word

theorem bit_eq_testBit (w : Word) (i : Nat) : bit w i = w.toNat.testBit i := by
  simp [bit, BitVec.getLsbD]

theorem bit_zero (i : Nat) : bit 0 i = false := by
  rw [bit_eq_testBit]; simp

theorem bit_onesFrom {k j : Nat} (hk : k < bits) (hj : j < bits) :
    bit (onesFrom k) j = decide (k ≤ j) := by
  have hk' : k < 64 := hk
  have hj' : j < 64 := hj
  have h1 : ((1 : Word) <<< UInt64.ofNat k).toNat = 2 ^ k := by
    have hmod : (UInt64.ofNat k).toNat % 64 = k := by
      rw [UInt64.toNat_ofNat', Nat.mod_mod_of_dvd _ (by decide), Nat.mod_eq_of_lt hk']
    rw [UInt64.toNat_shiftLeft, hmod, UInt64.toNat_one, Nat.one_shiftLeft,
      Nat.mod_eq_of_lt (Nat.pow_lt_pow_right (by decide) hk')]
  have h2 : (1 : Word) ≤ 1 <<< UInt64.ofNat k := by
    rw [UInt64.le_iff_toNat_le, h1]; exact Nat.one_le_two_pow
  have h3 : ((1 : Word) <<< UInt64.ofNat k - 1).toNat = 2 ^ k - 1 := by
    rw [UInt64.toNat_sub_of_le _ _ h2, h1, UInt64.toNat_one]
  have h4 : bit ((1 <<< UInt64.ofNat k) - 1) j = decide (j < k) := by
    rw [bit_eq_testBit, h3, Nat.testBit_two_pow_sub_one]
  simp only [bit] at h4
  simp only [bit, onesFrom, UInt64.toBitVec_not, BitVec.getLsbD_not, hj', decide_true,
    Bool.true_and, h4]
  rw [← decide_not, decide_eq_decide, Nat.not_lt]

theorem bit_and (v w : Word) (i : Nat) : bit (v &&& w) i = (bit v i && bit w i) := by
  simp [bit]

theorem bit_not {w : Word} {i : Nat} (hi : i < bits) : bit (~~~w) i = !bit w i := by
  have hi' : i < 64 := hi
  simp [bit, hi']

theorem ext_bits {v w : Word} (h : ∀ i < bits, bit v i = bit w i) : v = w := by
  rw [← UInt64.toBitVec_inj]
  exact BitVec.eq_of_getLsbD_eq h

/-- A word contains a row of ones if all bits of the row are set. -/
theorem and_onesFrom_eq {w : Word} {k : Nat} (hk : k < bits) :
    w &&& onesFrom k = onesFrom k ↔ ∀ j, k ≤ j → j < bits → bit w j = true := by
  constructor
  · intro h j hkj hj
    have := congrArg (bit · j) h
    simpa [bit_and, bit_onesFrom hk hj, hkj] using this
  · intro h
    apply ext_bits
    intro j hj
    rw [bit_and, bit_onesFrom hk hj]
    by_cases hkj : k ≤ j
    · simp [hkj, h j hkj hj]
    · simp [hkj]

theorem countClear_eq (w : Word) (n : Nat) :
    countClear w n = Nat.count (fun i => bit w i = false) n := by
  induction n with
  | zero => rfl
  | succ n ih =>
    rw [Nat.count_succ, ← ih, countClear, countClear, List.range_succ, List.countP_append]
    simp [List.countP_cons]

end Word

namespace Bitmap

variable {b b' : Bitmap} {n i : Nat} {old : Bool}

/-- The number of clear bits among the first `n` ones. -/
def vacant (b : Bitmap) (n : Nat) : Nat :=
  Nat.count (fun i => b.bit i = false) n

theorem vacant_le (b : Bitmap) (n : Nat) : b.vacant n ≤ n := Nat.count_le _

theorem vacant_eq_self : b.vacant n = n ↔ ∀ i < n, b.bit i = false := Nat.count_iff_forall

theorem vacant_eq_zero : b.vacant n = 0 ↔ ∀ i < n, b.bit i = true := by
  rw [vacant, Nat.count_iff_forall_not]
  simp

theorem exists_of_vacant_pos (h : 0 < b.vacant n) : ∃ i < n, b.bit i = false := by
  by_contra hn
  push Not at hn
  have : b.vacant n = 0 := vacant_eq_zero.2 fun i hi => by simpa using hn i hi
  omega

theorem count_congr {p q : Nat → Prop} [DecidablePred p] [DecidablePred q]
    (h : ∀ k < n, p k ↔ q k) : Nat.count p n = Nat.count q n :=
  le_antisymm (Nat.count_mono_left fun k hk => (h k hk).1)
    (Nat.count_mono_left fun k hk => (h k hk).2)

theorem vacant_congr (h : ∀ i < n, b'.bit i = b.bit i) : b'.vacant n = b.vacant n :=
  count_congr fun i hi => by rw [h i hi]

/-- Setting a clear bit takes one from the count, setting a set one nothing. -/
theorem vacant_set (h : b.set i = .ok (old, b')) (hi : i < n) :
    b'.vacant n + (if old then 0 else 1) = b.vacant n := by
  have hold : old = b.bit i := by
    unfold set at h
    split at h
    next w hw => simp only [Except.ok.injEq, Prod.mk.injEq] at h; rw [bit_of_getElem? hw, h.1]
    next => simp at h
  have hbit := bit_set h
  subst hold
  induction n with
  | zero => omega
  | succ n ih =>
    simp only [vacant, Nat.count_succ, hbit n] at ih ⊢
    rcases Nat.lt_succ_iff_lt_or_eq.1 hi with hi | rfl
    · have hne : i ≠ n := by omega
      have := ih hi
      simp only [hne, decide_false, Bool.or_false]
      omega
    · have : b'.vacant i = b.vacant i := vacant_congr fun j hj => by
        have : i ≠ j := by omega
        simp [hbit j, this]
      simp only [vacant] at this
      simp only [decide_true, Bool.or_true, this]
      cases b.bit i <;> simp

theorem exists_set (h : i / Word.bits < b.length) : ∃ b', b.set i = .ok (b.bit i, b') := by
  have hw : b.words[i / Word.bits]? = some (b.words.get ⟨i / Word.bits, h⟩) :=
    List.getElem?_eq_getElem _
  exact ⟨_, by rw [set, hw, bit_of_getElem? hw]⟩

theorem bit_getElem {k j : Nat} (hk : k < b.words.length) (hj : j < Word.bits) :
    b.bit (k * Word.bits + j) = Word.bit b.words[k] j := by
  have hd : (k * Word.bits + j) / Word.bits = k := by simp only [Word.bits] at hj ⊢; omega
  have hm : (k * Word.bits + j) % Word.bits = j := by simp only [Word.bits] at hj ⊢; omega
  have hw : b.words[(k * Word.bits + j) / Word.bits]? = some b.words[k] := by
    rw [hd]; exact List.getElem?_eq_getElem hk
  rw [bit_of_getElem? hw, hm]

/-! ## Cleared bitmaps -/

theorem wordsFor_pos (hn : 0 < n) : 0 < wordsFor n := by
  simp only [wordsFor, Word.bits]; omega

theorem length_cleared (hn : 0 < n) : (cleared n).length = wordsFor n := by
  have := wordsFor_pos hn
  simp only [length, cleared, List.length_append, List.length_replicate, List.length_singleton]
  omega

theorem div_lt_wordsFor (hi : i < n) : i / Word.bits < wordsFor n := by
  simp only [wordsFor, Word.bits]; omega

/-- In a cleared bitmap, exactly the sentinels are set. -/
theorem bit_cleared (hn : 0 < n) (hi : i / Word.bits < wordsFor n) :
    (cleared n).bit i = decide (n ≤ i) := by
  have hpos := wordsFor_pos hn
  have hmod := Nat.mod_lt i (show Word.bits > 0 by decide)
  by_cases hlast : i / Word.bits < wordsFor n - 1
  · have hw : (cleared n).words[i / Word.bits]? = some 0 := by
      simp only [cleared]
      rw [List.getElem?_append_left (by simpa using hlast), List.getElem?_replicate, if_pos hlast]
    have : ¬ n ≤ i := by simp only [wordsFor, Word.bits] at hlast; omega
    rw [bit_of_getElem? hw, Word.bit_zero]
    simp [this]
  · have hi' : i / Word.bits = wordsFor n - 1 := by omega
    have hw : (cleared n).words[i / Word.bits]? = some (sentinelMask n) := by
      simp only [cleared]
      rw [hi', List.getElem?_append_right (by simp)]
      simp
    rw [bit_of_getElem? hw, sentinelMask]
    split
    next h =>
      have : ¬ n ≤ i := by simp only [wordsFor, Word.bits] at hi' h; omega
      rw [Word.bit_zero]
      simp [this]
    next h =>
      rw [Word.bit_onesFrom (Nat.mod_lt _ (by decide)) hmod, decide_eq_decide]
      simp only [wordsFor, Word.bits] at hi' h ⊢
      omega

theorem vacant_cleared (hn : 0 < n) : (cleared n).vacant n = n := by
  rw [vacant, Nat.count_iff_forall]
  intro i hi
  rw [bit_cleared hn (div_lt_wordsFor hi)]
  simpa using hi

theorem clearAll_eq_ok (hn : 0 < n) (hlt : n + Word.bits < Word.count)
    (hl : b.length = wordsFor n) : b.clearAll n = .ok (cleared n) := by
  have hpos := wordsFor_pos hn
  have hneeded : checkedWordsFor n = .ok (wordsFor n) := by
    have : n + Word.bits - 1 = n + (Word.bits - 1) := by simp only [Word.bits]; omega
    simp only [checkedWordsFor, Count.add_eq_ok.2 ⟨hlt, rfl⟩, wordsFor]
    rw [← this]; rfl
  have h0 : b.length ≠ 0 := by omega
  rw [clearAll, hneeded]
  simp [bind, Except.bind, hl, pure, Except.pure, hpos.ne']

theorem ext_bits (hl : b.length = b'.length)
    (h : ∀ i, i / Word.bits < b.length → b.bit i = b'.bit i) : b = b' := by
  refine congrArg Bitmap.mk (List.ext_getElem hl fun k hk hk' => Word.ext_bits fun j hj => ?_)
  have hd : (k * Word.bits + j) / Word.bits = k := by simp only [Word.bits] at hj ⊢; omega
  have := h (k * Word.bits + j) (by rw [hd]; exact hk)
  rwa [bit_getElem hk hj, bit_getElem hk' hj] at this

/-! ## Searching -/

/-- The search finds a clear bit if there is one and the hint lies in the bitmap. -/
theorem exists_find {hint : Nat} (hh : hint < b.length) (hi : i / Word.bits < b.length)
    (hb : b.bit i = false) :
    ∃ j, b.find hint = .ok j ∧ j / Word.bits < b.length ∧ b.bit j = false := by
  have hle : ¬ b.length ≤ hint := by omega
  cases hf : b.firstClear? hint with
  | some j => exact ⟨j, by rw [find, if_neg hle, hf], bit_of_firstClear? hf⟩
  | none =>
    obtain ⟨w, hw⟩ : ∃ w, b.words[i / Word.bits]? = some w := ⟨_, List.getElem?_eq_getElem hi⟩
    have := firstClear?_eq_none.1 hf w (List.mem_of_getElem? hw) _ (Nat.mod_lt i (by decide))
    rw [← bit_of_getElem? hw, hb] at this
    simp at this

/-! ## Checking whole bitmaps -/

theorem countClear_getElem {k m : Nat} (hk : k < b.words.length) (hm : m ≤ Word.bits) :
    Word.countClear b.words[k] m = Nat.count (fun j => b.bit (k * Word.bits + j) = false) m := by
  rw [Word.countClear_eq]
  exact count_congr fun j hj => by rw [bit_getElem hk (hj.trans_le hm)]

/-- The clear bits of the first words. -/
theorem sum_countClear (full : Nat) (h : full ≤ b.length) :
    ((b.words.take full).map (Word.countClear · Word.bits)).foldr (· + ·) 0 =
      b.vacant (full * Word.bits) := by
  rw [← List.sum_eq_foldr]
  induction full with
  | zero => simp [vacant]
  | succ full ih =>
    have hlt : full < b.words.length := h
    rw [List.take_succ_eq_append_getElem hlt, List.map_append, List.sum_append, ih (by omega),
      Nat.succ_mul, vacant, vacant, Nat.count_add, List.map_singleton, List.sum_singleton,
      countClear_getElem hlt le_rfl]

/-- Counting by words is counting bit by bit. -/
theorem countClear_eq_ok (h : n ≤ b.length * Word.bits) : b.countClear n = .ok (b.vacant n) := by
  have hfull : n / Word.bits ≤ b.length := by simp only [Word.bits] at h ⊢; omega
  have hsum := sum_countClear _ hfull
  have hn : n / Word.bits * Word.bits + n % Word.bits = n := Nat.div_add_mod' n Word.bits
  rw [countClear]
  simp only [Nat.not_lt.2 hfull, hsum, if_false]
  split
  next h0 =>
    rw [h0, Nat.add_zero] at hn
    rw [hn]; rfl
  next h0 =>
    have hlt : n / Word.bits < b.words.length := by
      simp only [Bitmap.length, Word.bits] at h h0 ⊢; omega
    have hadd :=
      Nat.count_add (fun i => b.bit i = false) (n / Word.bits * Word.bits) (n % Word.bits)
    rw [hn] at hadd
    rw [List.getElem?_eq_getElem hlt]
    simp only [countClear_getElem hlt (Nat.mod_lt n (by decide)).le, vacant, hadd]
    rfl

/-- The sentinels are intact if all bits behind the last slot are set. -/
theorem sentinelsIntact_eq_ok (hn : 0 < n) (hl : b.length = wordsFor n) :
    b.sentinelsIntact n = .ok true ↔ ∀ i, n ≤ i → i / Word.bits < b.length → b.bit i = true := by
  simp only [sentinelsIntact, sentinelMask]
  split
  next h0 =>
    simp only [if_true, true_iff]
    intro i hi hlt
    simp only [hl, wordsFor, Word.bits] at hlt h0
    omega
  next h0 =>
    have hmod : n % Word.bits < Word.bits := Nat.mod_lt n (by decide)
    have hlast : n / Word.bits < b.words.length := by
      have := hl
      simp only [Bitmap.length, wordsFor, Word.bits] at this h0 ⊢; omega
    have hlast' : b.words.length - 1 = n / Word.bits := by
      have := hl
      simp only [Bitmap.length, wordsFor, Word.bits] at this h0 ⊢; omega
    have hmask : Word.onesFrom (n % Word.bits) ≠ 0 := by
      intro h
      have := congrArg (Word.bit · (n % Word.bits)) h
      simp [Word.bit_onesFrom hmod hmod, Word.bit_zero] at this
    rw [if_neg hmask, List.getLast?_eq_getElem?, hlast', List.getElem?_eq_getElem hlast]
    simp only [Except.ok.injEq, beq_iff_eq, Word.and_onesFrom_eq hmod]
    constructor
    · intro h i hi hlt
      have hdiv : i / Word.bits = n / Word.bits := by
        simp only [hl, wordsFor, Word.bits] at hlt h0 ⊢; omega
      have hi' : i = n / Word.bits * Word.bits + i % Word.bits := by
        rw [← hdiv]; exact (Nat.div_add_mod' i Word.bits).symm
      rw [hi', bit_getElem hlast (Nat.mod_lt _ (by decide))]
      refine h _ ?_ (Nat.mod_lt _ (by decide))
      simp only [Word.bits] at hdiv ⊢; omega
    · intro h j hj hlt
      rw [← bit_getElem hlast hlt]
      have := hl
      simp only [Bitmap.length, wordsFor, Word.bits] at this h0 hj hlt hlast h ⊢
      exact h _ (by omega) (by omega)

end Bitmap

end SlabHeap
