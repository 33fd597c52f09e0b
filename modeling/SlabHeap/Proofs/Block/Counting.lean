/-
  Counts of clear bits and tests of single ones.

  A bitmap is counted word by word: a whole word by the number of ones of its complement, and the
  last one behind a mask, unless its slots fill it (`countByWords`).  This is what `countClear`
  counts (`countByWords_eq`).  What the operations on whole bitmaps tell and do agrees with the
  test of every single bit (`counts_agree_with_tests`).
-/
import SlabHeap.Proofs.Block.Bitmap

namespace SlabHeap

namespace Word

variable {w : Word}

/-- The number of ones. -/
def ones (w : Word) : Nat :=
  w.toBitVec.cpop.toNat

theorem ones_eq_countP (w : Word) : w.ones = (List.range bits).countP (bit w) := by
  have hrec : ∀ n, w.toBitVec.cpopNatRec n 0 = (List.range n).countP (bit w) := by
    intro n
    induction n with
    | zero => rfl
    | succ n ih =>
      rw [BitVec.cpopNatRec_succ, BitVec.cpopNatRec_eq, Nat.zero_add, ih, List.range_succ,
        List.countP_append, List.countP_singleton, bit]
      cases w.toBitVec.getLsbD n <;> rfl
  rw [ones, BitVec.toNat_cpop]
  exact hrec bits

theorem ones_not (w : Word) : (~~~w).ones = countClear w bits := by
  rw [ones_eq_countP, countClear]
  exact List.countP_congr fun i hi => by rw [bit_not (List.mem_range.1 hi)]

/-- Behind a mask, the lowest bits are counted. -/
theorem ones_not_masked {k : Nat} (hk : k < bits) :
    (~~~w &&& ~~~onesFrom k).ones = countClear w k := by
  obtain ⟨m, hm⟩ := Nat.exists_eq_add_of_le hk.le
  have hbit : ∀ i < bits, bit (~~~w &&& ~~~onesFrom k) i = (!bit w i && decide (i < k)) := by
    intro i hi
    simp only [bit_and, bit_not hi, bit_onesFrom hk hi, ← decide_not, Nat.not_le]
  rw [ones_eq_countP, countClear, hm, List.range_add, List.countP_append, List.countP_map]
  have hlow : (List.range k).countP (bit (~~~w &&& ~~~onesFrom k)) =
      (List.range k).countP fun i => !bit w i :=
    List.countP_congr fun i hi => by
      have hlt := List.mem_range.1 hi
      rw [hbit i (hlt.trans hk)]
      simp [hlt]
  have hhigh : (List.range m).countP (bit (~~~w &&& ~~~onesFrom k) ∘ (k + ·)) = 0 := by
    refine List.countP_eq_zero.2 fun i hi => ?_
    have hlt := List.mem_range.1 hi
    rw [Function.comp_apply, hbit _ (by omega)]
    simp
  rw [hlow, hhigh, Nat.add_zero]

end Word

namespace Bitmap

variable {b : Bitmap} {n : Nat}

/-- The number of clear bits among the first `slots` ones, by the ones of complements. -/
def countByWords (b : Bitmap) (slots : Nat) : Except Fault Nat := do
  let full := slots / Word.bits
  if b.length < full then
    throw (.rangeOutOfBounds full b.length)
  let clear := ((b.words.take full).map fun word => (~~~word).ones).foldr (· + ·) 0
  if slots % Word.bits = 0 then
    return clear
  match b.words[full]? with
  | some word => return clear + (~~~word &&& ~~~sentinelMask slots).ones
  | none => throw (.indexOutOfBounds b.length full)

theorem countByWords_eq (b : Bitmap) (n : Nat) : b.countByWords n = b.countClear n := by
  simp only [countByWords, countClear, Word.ones_not]
  by_cases h0 : n % Word.bits = 0
  · simp only [h0, if_true]
  · have hmask : ∀ w : Word, (~~~w &&& ~~~sentinelMask n).ones =
        Word.countClear w (n % Word.bits) := fun w => by
      rw [sentinelMask, if_neg h0, Word.ones_not_masked (Nat.mod_lt n (by decide))]
    cases b.words[n / Word.bits]? <;> simp only [h0, if_false, hmask]

theorem test_eq (b : Bitmap) (i : Nat) : b.test i =
    if i / Word.bits < b.length then .ok (b.bit i)
    else .error (.indexOutOfBounds b.length (i / Word.bits)) := by
  split
  next h => exact test_eq_ok.2 ⟨h, rfl⟩
  next h => rw [test, List.getElem?_eq_none (Nat.le_of_not_lt h)]

theorem checkedWordsFor_eq_ok {k : Nat} :
    checkedWordsFor n = .ok k ↔ n + Word.bits < Word.count ∧ k = wordsFor n := by
  have hsum : (n + Word.bits - 1) / Word.bits = wordsFor n := rfl
  rw [checkedWordsFor, Count.add]
  split
  next h =>
    simp only [bind, Except.bind, pure, Except.pure, Except.ok.injEq, hsum, h, true_and, eq_comm]
  next h => simp [bind, Except.bind, h]

theorem le_bits_wordsFor (n : Nat) : n ≤ wordsFor n * Word.bits := by
  simp only [wordsFor, Word.bits]
  omega

/-- The sentinels are tested by a mask, and just if all of them are set the test succeeds. -/
theorem exists_sentinelsIntact (hl : b.length = wordsFor n) :
    ∃ intact, b.sentinelsIntact n = .ok intact ∧
      (intact = true ↔ ∀ i, n ≤ i → i / Word.bits < b.length → b.bit i = true) := by
  rcases Nat.eq_zero_or_pos n with rfl | hn
  · refine ⟨true, rfl, iff_of_true rfl fun i _ hlt => ?_⟩
    rw [hl] at hlt
    cases hlt
  · have hne : b.words ≠ [] := by
      intro hnil
      have hpos := wordsFor_pos hn
      rw [← hl, Bitmap.length, hnil] at hpos
      cases hpos
    obtain ⟨intact, hok⟩ : ∃ intact, b.sentinelsIntact n = .ok intact := by
      rw [sentinelsIntact, List.getLast?_eq_some_getLast hne]
      split
      · exact ⟨true, rfl⟩
      · exact ⟨_, rfl⟩
    refine ⟨intact, hok, ?_⟩
    rw [← sentinelsIntact_eq_ok hn hl, hok, Except.ok.injEq]

/-- Setting a bit takes it from the count if it was one of a slot, and clear. -/
theorem vacant_set_add {b' : Bitmap} {i : Nat} {old : Bool} (h : b.set i = .ok (old, b')) :
    b.vacant n = b'.vacant n + if i < n ∧ old = false then 1 else 0 := by
  by_cases hi : i < n
  · rw [← vacant_set h hi]
    cases old <;> simp [hi]
  · rw [if_neg (by simp [hi]), Nat.add_zero]
    refine (vacant_congr fun j hj => ?_).symm
    have hne : i ≠ j := by omega
    rw [bit_set h, decide_eq_false hne, Bool.or_false]

end Bitmap

open Bitmap in
/-- Counts and tests of whole bitmaps, and what is set, agree with the test of single bits. -/
theorem counts_agree_with_tests {b : Bitmap} {n : Nat} (hn : checkedWordsFor n = .ok b.length) :
    b.countByWords n = b.countClear n ∧
    b.countClear n = .ok ((List.range n).countP fun i => b.test i matches .ok false) ∧
    (0 < n → ∃ c, b.clearAll n = .ok c ∧ c.length = b.length ∧
      (∀ i < b.length * Word.bits, c.test i = .ok (decide (n ≤ i))) ∧
      c.countClear n = .ok n ∧ c.sentinelsIntact n = .ok true) ∧
    (∃ intact, b.sentinelsIntact n = .ok intact ∧
      (intact = true ↔ ∀ i < b.length * Word.bits, n ≤ i → b.test i = .ok true)) ∧
    ∀ i < b.length * Word.bits, ∃ old b', b.test i = .ok old ∧ b.set i = .ok (old, b') ∧
      b'.test i = .ok true ∧ (∀ j, j ≠ i → b'.test j = b.test j) ∧
      ∃ c c', b.countClear n = .ok c ∧ b'.countClear n = .ok c' ∧
        c = c' + if i < n ∧ old = false then 1 else 0 := by
  obtain ⟨hlt, hl⟩ := checkedWordsFor_eq_ok.1 hn
  have hle : n ≤ b.length * Word.bits := hl ▸ le_bits_wordsFor n
  have hcount := countClear_eq_ok hle
  have hin : ∀ i, i / Word.bits < b.length ↔ i < b.length * Word.bits := fun i =>
    Nat.div_lt_iff_lt_mul (by decide)
  refine ⟨countByWords_eq b n, ?_, fun hpos => ?_, ?_, fun i hi => ?_⟩
  · rw [hcount, vacant, Nat.count]
    refine congrArg Except.ok (List.countP_congr fun i hi => ?_)
    have hlt' : i < b.length * Word.bits := (List.mem_range.1 hi).trans_le hle
    rw [test_eq_ok.2 ⟨(hin i).2 hlt', rfl⟩]
    cases b.bit i <;> simp
  · have hlc : (cleared n).length = b.length := (length_cleared hpos).trans hl.symm
    refine ⟨cleared n, clearAll_eq_ok hpos hlt hl, hlc, fun i hi => ?_, ?_, ?_⟩
    · exact test_eq_ok.2 ⟨hlc ▸ (hin i).2 hi, bit_cleared hpos (hl ▸ (hin i).2 hi)⟩
    · rw [countClear_eq_ok (hlc ▸ hle), vacant_cleared hpos]
    · refine (sentinelsIntact_eq_ok hpos (length_cleared hpos)).2 fun i hni hlt => ?_
      rw [bit_cleared hpos (length_cleared hpos ▸ hlt), decide_eq_true hni]
  · obtain ⟨intact, hok, hiff⟩ := exists_sentinelsIntact hl
    refine ⟨intact, hok, hiff.trans ?_⟩
    simp only [test_eq_ok, hin]
    exact ⟨fun h i hi hni => ⟨hi, h i hni hi⟩, fun h i hni hi => (h i hi hni).2⟩
  · obtain ⟨b', hset⟩ := exists_set ((hin i).2 hi)
    have hl' := length_set hset
    refine ⟨b.bit i, b', test_eq_ok.2 ⟨(hin i).2 hi, rfl⟩, hset,
      test_eq_ok.2 ⟨hl' ▸ (hin i).2 hi, ?_⟩, fun j hj => ?_, _, _, hcount,
      countClear_eq_ok (hl' ▸ hle), vacant_set_add hset⟩
    · rw [bit_set hset, decide_eq_true rfl, Bool.or_true]
    · rw [test_eq, test_eq, hl', bit_set hset, decide_eq_false hj.symm, Bool.or_false]

open Bitmap in
/-- Two whole words and six bits of a third one. -/
theorem counts_agree_with_tests_of_three :
    let b : Bitmap := ⟨[0, 0xf0, 0xffffffffffffffd1]⟩
    checkedWordsFor 134 = .ok b.length ∧ b.countClear 134 = .ok 128 ∧
    b.sentinelsIntact 134 = .ok true ∧ ∃ b', b.set 130 = .ok (false, b') ∧
      b'.countClear 134 = .ok 127 := by
  intro b
  have hn : checkedWordsFor 134 = .ok b.length := by decide
  have hc : b.countClear 134 = .ok 128 := by decide +kernel
  obtain ⟨-, -, -, -, hset⟩ := counts_agree_with_tests hn
  obtain ⟨old, b', hold, hset, -, -, c, c', hcount, hcount', hsum⟩ := hset 130 (by decide)
  have hclear : b.test 130 = .ok false := by decide +kernel
  rw [hclear] at hold
  cases hold
  have hone : c = c' + 1 := hsum
  rw [hc] at hcount
  cases hcount
  obtain rfl : c' = 127 := by omega
  exact ⟨hn, hc, by decide +kernel, b', hset, hcount'⟩

end SlabHeap
