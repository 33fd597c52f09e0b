/-
  Rounding by masks, and rounding to multiples.

  Below a power of two, the bits of a word are the remainder of its division (`toNat_and_mask`).
  A mask and its complement part a word, so what `alignDown` leaves is the multiple below
  (`toNat_alignDown`).  `alignUp` rounds a sum down that may have wrapped around; since the power
  divides the number of words, it is the multiple above that wraps around (`toNat_alignUp`), and
  this is too large for a word only if it is the number of words.

  With the multiples of numbers (`isGreatest_multiple`, `isLeast_multiple`), this is what the
  three functions compute for every word and every power of two (`masks_round_to_multiples`).
-/
import Mathlib.Algebra.Order.Floor.Div
import SlabHeap.Word.Basic

namespace SlabHeap

namespace Word

variable {a n : Word}

/-! ## Multiples of a number -/

theorem isGreatest_multiple (x : Nat) {d : Nat} (hd : 0 < d) :
    IsGreatest {k | d ∣ k ∧ k ≤ x} (x / d * d) := by
  refine ⟨⟨Nat.dvd_mul_left .., Nat.div_mul_le_self ..⟩, ?_⟩
  rintro _ ⟨⟨q, rfl⟩, hle⟩
  rw [Nat.mul_comm d q] at hle ⊢
  exact Nat.mul_le_mul_right d ((Nat.le_div_iff_mul_le hd).2 hle)

theorem isLeast_multiple (x : Nat) {d : Nat} (hd : 0 < d) :
    IsLeast {k | d ∣ k ∧ x ≤ k} (x ⌈/⌉ d * d) := by
  rw [Nat.mul_comm]
  refine ⟨⟨Nat.dvd_mul_right .., (ceilDiv_le_iff_le_mul hd).1 le_rfl⟩, ?_⟩
  rintro _ ⟨⟨q, rfl⟩, hle⟩
  exact Nat.mul_le_mul_left d ((ceilDiv_le_iff_le_mul hd).2 hle)

/-! ## Masks -/

/-- A mask and its complement part a word. -/
theorem toNat_and_not_add_and (w mask : Word) :
    (w &&& ~~~mask).toNat + (w &&& mask).toNat = w.toNat := by
  have hapart : (w &&& ~~~mask).toBitVec &&& (w &&& mask).toBitVec = 0 := by
    ext i hi
    simp only [UInt64.toBitVec_and, UInt64.toBitVec_not, BitVec.getElem_and, BitVec.getElem_not]
    cases mask.toBitVec[i] <;> simp
  have hjoin : (w &&& ~~~mask).toBitVec ||| (w &&& mask).toBitVec = w.toBitVec := by
    ext i hi
    simp only [UInt64.toBitVec_and, UInt64.toBitVec_not, BitVec.getElem_or, BitVec.getElem_and,
      BitVec.getElem_not]
    cases mask.toBitVec[i] <;> simp
  have hsum := BitVec.toNat_add_of_and_eq_zero hapart
  rw [BitVec.add_eq_or_of_and_eq_zero _ _ hapart, hjoin] at hsum
  exact hsum.symm

theorem pos_of_isPowerOfTwo (hn : n.toNat.isPowerOfTwo) : 0 < n.toNat := by
  obtain ⟨k, hk⟩ := hn
  rw [hk]
  exact Nat.two_pow_pos k

/-- A power of two that is a word divides the number of words. -/
theorem dvd_count (hn : n.toNat.isPowerOfTwo) : n.toNat ∣ count := by
  obtain ⟨k, hk⟩ := hn
  have hlt := n.toNat_lt
  rw [hk] at hlt ⊢
  exact Nat.pow_dvd_pow 2 ((Nat.pow_lt_pow_iff_right (by decide)).1 hlt).le

theorem toNat_mask (hn : n.toNat.isPowerOfTwo) : (n - 1).toNat = n.toNat - 1 :=
  UInt64.toNat_sub_of_le _ _ (UInt64.le_iff_toNat_le.2 (pos_of_isPowerOfTwo hn))

/-- The bits below a power of two are the remainder. -/
theorem toNat_and_mask (a : Word) (hn : n.toNat.isPowerOfTwo) :
    (a &&& (n - 1)).toNat = a.toNat % n.toNat := by
  rw [UInt64.toNat_and, toNat_mask hn]
  obtain ⟨k, hk⟩ := hn
  rw [hk, Nat.and_two_pow_sub_one_eq_mod]

theorem isAligned_iff (hn : n.toNat.isPowerOfTwo) :
    isAligned a n = true ↔ n.toNat ∣ a.toNat := by
  rw [isAligned, beq_iff_eq, ← UInt64.toNat_inj, toNat_and_mask a hn, Nat.dvd_iff_mod_eq_zero]
  rfl

/-! ## Rounding -/

/-- Masking the low bits away is rounding down to a multiple of a power of two. -/
theorem toNat_alignDown (a : Word) (hn : n.toNat.isPowerOfTwo) :
    (alignDown a n).toNat = a.toNat / n.toNat * n.toNat := by
  have hparts := toNat_and_not_add_and a (n - 1)
  rw [toNat_and_mask a hn] at hparts
  rw [alignDown, Nat.div_mul_self_eq_mod_sub_self]
  omega

/-- Rounding up wraps around just as the multiple does that is rounded to. -/
theorem toNat_alignUp (a : Word) (hn : n.toNat.isPowerOfTwo) :
    (alignUp a n).toNat = a.toNat ⌈/⌉ n.toNat * n.toNat % count := by
  obtain ⟨q, hq⟩ := dvd_count hn
  have hpos := pos_of_isPowerOfTwo hn
  have hsum : (a + (n - 1)).toNat = (a.toNat + n.toNat - 1) % count := by
    rw [UInt64.toNat_add, toNat_mask hn, ← Nat.add_sub_assoc hpos]
    rfl
  calc (alignUp a n).toNat = (a.toNat + n.toNat - 1) % count / n.toNat * n.toNat := by
        rw [alignUp, toNat_alignDown _ hn, hsum]
    _ = (a.toNat + n.toNat - 1) / n.toNat % q * n.toNat := by
        rw [hq, Nat.mod_mul_right_div_self]
    _ = a.toNat ⌈/⌉ n.toNat * n.toNat % count := by
        rw [hq, Nat.mul_comm n.toNat q, Nat.mul_mod_mul_right, Nat.ceilDiv_eq_add_pred_div]

/-- The least multiple that is no word can only be the number of words, which wraps around to
    `0`. -/
theorem toNat_alignUp_eq_ite (hn : n.toNat.isPowerOfTwo) {m : Nat}
    (hm : IsLeast {k | n.toNat ∣ k ∧ a.toNat ≤ k} m) :
    (alignUp a n).toNat = if m < count then m else 0 := by
  have hle : m ≤ count := hm.2 ⟨dvd_count hn, a.toNat_lt.le⟩
  rw [toNat_alignUp a hn, (isLeast_multiple a.toNat (pos_of_isPowerOfTwo hn)).unique hm]
  split
  next hlt => exact Nat.mod_eq_of_lt hlt
  next hge => rw [hle.antisymm (Nat.le_of_not_lt hge), Nat.mod_self]

theorem alignDown_eq_self_iff (hn : n.toNat.isPowerOfTwo) :
    alignDown a n = a ↔ n.toNat ∣ a.toNat := by
  rw [← UInt64.toNat_inj, toNat_alignDown a hn]
  exact ⟨fun he => he ▸ Nat.dvd_mul_left .., Nat.div_mul_cancel⟩

theorem alignUp_eq_self_iff (hn : n.toNat.isPowerOfTwo) :
    alignUp a n = a ↔ n.toNat ∣ a.toNat := by
  rw [← UInt64.toNat_inj]
  constructor
  · intro he
    rw [← he, toNat_alignUp a hn, Nat.dvd_mod_iff (dvd_count hn)]
    exact Nat.dvd_mul_left ..
  · intro hd
    have hself : IsLeast {k | n.toNat ∣ k ∧ a.toNat ≤ k} a.toNat :=
      ⟨⟨hd, le_rfl⟩, fun _ => And.right⟩
    rw [toNat_alignUp_eq_ite hn hself]
    exact if_pos a.toNat_lt

end Word

open Word in
/-- For every address and every power of two, rounding by masks finds the nearest multiple, below
    and above, and the addresses that pass for aligned are the multiples, which are those that
    rounding leaves alone. -/
theorem masks_round_to_multiples (address : Word) {align : Word}
    (hn : align.toNat.isPowerOfTwo) :
    IsGreatest {k | align.toNat ∣ k ∧ k ≤ address.toNat} (alignDown address align).toNat ∧
    (∃ m, IsLeast {k | align.toNat ∣ k ∧ address.toNat ≤ k} m ∧
      (alignUp address align).toNat = if m < Word.count then m else 0) ∧
    (isAligned address align = true ↔ align.toNat ∣ address.toNat) ∧
    (isAligned address align = true ↔ alignDown address align = address) ∧
    (isAligned address align = true ↔ alignUp address align = address) := by
  have hpos := pos_of_isPowerOfTwo hn
  have hleast := isLeast_multiple address.toNat hpos
  refine ⟨?_, ⟨_, hleast, toNat_alignUp_eq_ite hn hleast⟩, isAligned_iff hn, ?_, ?_⟩
  · rw [toNat_alignDown address hn]
    exact isGreatest_multiple address.toNat hpos
  · rw [isAligned_iff hn, alignDown_eq_self_iff hn]
  · rw [isAligned_iff hn, alignUp_eq_self_iff hn]

open Word in
/-- In the highest block of the address space, the next multiple of its size is no word. -/
theorem masks_round_to_multiples_at_top :
    let address : Word := 0xfffffffffffff008
    let align : Word := 0x1000
    align.toNat.isPowerOfTwo ∧
    IsGreatest {k | align.toNat ∣ k ∧ k ≤ address.toNat} (0xfffffffffffff000 : Word).toNat ∧
    (∃ m, IsLeast {k | align.toNat ∣ k ∧ address.toNat ≤ k} m ∧ Word.count ≤ m) ∧
    alignUp address align = 0 ∧ ¬ align.toNat ∣ address.toNat := by
  intro address align
  have hn : align.toNat.isPowerOfTwo := ⟨12, rfl⟩
  have hzero : alignUp address align = 0 := by decide
  obtain ⟨hdown, ⟨m, hm, hup⟩, hdvd, -, hfixed⟩ := masks_round_to_multiples address hn
  rw [show alignDown address align = 0xfffffffffffff000 by decide] at hdown
  refine ⟨hn, hdown, ⟨m, hm, ?_⟩, hzero, fun hd => ?_⟩
  · by_contra hlt
    rw [hzero, if_pos (Nat.lt_of_not_le hlt)] at hup
    have hle : address.toNat ≤ m := hm.1.2
    rw [← hup] at hle
    exact absurd hle (by decide)
  · rw [← hdvd, hfixed, hzero] at hd
    exact absurd hd (by decide)

end SlabHeap
